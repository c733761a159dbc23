import Mathlib.Data.List.Nodup
import Toolpath.Proofs.StatementTheorems

/-!
# Documents of sections

A document whose headings and keys have one name each, no name twice, stands for the table of its
sections (`ofStatements?_sectionStatements`). So sections of plain names are read back from their
text (`ofText?_toText`).
-/

namespace Toolpath.Toml

/-- The members of a table under construction for its entries. -/
def entryMembers (entries : Entries) : Members :=
  entries.map fun (key, value) => (key, .value value)

/-- The members of the root for finished sections. -/
def sectionMembers (sections : List (String × Entries)) : Members :=
  sections.map fun (name, entries) => (name, .table false false (entryMembers entries))

/-- A key that no member has is not found. -/
theorem get?_eq_none {members : Members} {key : String} (h : key ∉ members.map Prod.fst) :
    members.get? key = none := by
  unfold Members.get?
  rw [List.lookup_eq_none_iff]
  intro member hmem
  rw [bne_iff_ne]
  rintro rfl
  exact h (List.mem_map_of_mem hmem)

/-- A member with a new key is put behind the others. -/
theorem set_of_notMem {members : Members} {key : String} (h : key ∉ members.map Prod.fst)
    (node : Node) : members.set key node = members ++ [(key, node)] := by
  unfold Members.set
  rw [get?_eq_none h]
  rfl

/-! ## Entries -/

/-- An entry with a new key is put behind the others. -/
theorem addEntry_of_notMem {members : Members} {key : String} (h : key ∉ members.map Prod.fst)
    (value : Toml) : addEntry [key] value members = some (members ++ [(key, .value value)]) := by
  show (if false = true then none
    else if (members.get? key).isSome then none
    else some (members.set key (.value value))) = _
  rw [get?_eq_none h, set_of_notMem h]
  rfl

variable {root : Members}

/-- An entry with a new key is put in the open table. -/
theorem applyStatement_entry {t : OpenTable} {key : String}
    (h : key ∉ t.members.map Prod.fst) (value : Toml) :
    applyStatement (root, t) (.entry [key] value) =
      some (root, { t with members := t.members ++ [(key, .value value)] }) := by
  show (addEntry [key] value t.members).bind _ = _
  rw [addEntry_of_notMem h]
  rfl

/-- Entries with new keys are put behind those of the open table. -/
theorem foldlM_entries {t : OpenTable} {entries : Entries}
    (h : (t.members.map Prod.fst ++ entries.map Prod.fst).Nodup) :
    (entries.map fun (key, value) => Statement.entry [key] value).foldlM applyStatement
        (root, t) =
      some (root, { t with members := t.members ++ entryMembers entries }) := by
  induction entries generalizing t with
  | nil =>
    show some (root, t) = _
    rw [entryMembers, List.map_nil, List.append_nil]
  | cons entry entries ih =>
    obtain ⟨key, value⟩ := entry
    rw [List.map_cons] at h
    have hkey : key ∉ t.members.map Prod.fst := fun hmem =>
      (List.nodup_append.1 h).2.2 key hmem key List.mem_cons_self rfl
    have hmore := ih (t := { t with members := t.members ++ [(key, .value value)] })
      (by simpa using h)
    rw [List.map_cons, List.foldlM_cons, applyStatement_entry hkey]
    show List.foldlM _ _ _ = _
    rw [hmore]
    simp [entryMembers]

/-! ## Sections -/

/-- A table with a new name is put behind the others when it is closed. -/
theorem closeTable_of_notMem {name : String} (h : name ∉ root.map Prod.fst) (members : Members) :
    closeTable root ⟨[name], false, members⟩ =
      some (root ++ [(name, .table false false members)]) := by
  simp [closeTable, changeAt, get?_eq_none h, set_of_notMem h]

/-- A heading with a new name closes the open table. -/
theorem applyStatement_heading {t : OpenTable} {closed : Members}
    (hclosed : closeTable root t = some closed) {name : String}
    (h : name ∉ closed.map Prod.fst) :
    applyStatement (root, t) (.heading [name]) = some (closed, ⟨[name], false, []⟩) := by
  simp [applyStatement, hclosed, memberAt?, memberAt?.findIn, changeAt, get?_eq_none h]

/-- Sections with new names are put behind those of the root, each once it is closed. -/
theorem foldlM_sections {t : OpenTable} {closed : Members}
    (hclosed : closeTable root t = some closed) {sections : List (String × Entries)}
    (hnames : (closed.map Prod.fst ++ sections.map Prod.fst).Nodup)
    (hkeys : ∀ s ∈ sections, (s.2.map Prod.fst).Nodup) :
    ((sectionStatements sections).foldlM applyStatement (root, t)).bind
        (fun (root, t) => closeTable root t) =
      some (closed ++ sectionMembers sections) := by
  induction sections generalizing root t closed with
  | nil =>
    show closeTable root t = _
    rw [hclosed, sectionMembers, List.map_nil, List.append_nil]
  | cons s sections ih =>
    obtain ⟨name, entries⟩ := s
    obtain ⟨hentries, hkeys⟩ := List.forall_mem_cons.1 hkeys
    rw [List.map_cons] at hnames
    have hname : name ∉ closed.map Prod.fst := fun hmem =>
      (List.nodup_append.1 hnames).2.2 name hmem name List.mem_cons_self rfl
    -- a heading closes the table before it, the entries fill the new one, the rest goes on from
    -- there
    have hopen := applyStatement_heading hclosed hname
    have hfill : (entries.map fun (key, value) => Statement.entry [key] value).foldlM applyStatement
        (closed, ⟨[name], false, []⟩) = some (closed, ⟨[name], false, entryMembers entries⟩) :=
      foldlM_entries (t := ⟨[name], false, []⟩) hentries
    have hclose := closeTable_of_notMem hname (entryMembers entries)
    have hmore := ih hclose (by simpa using hnames) hkeys
    show (((Statement.heading [name] :: entries.map fun (key, value) => .entry [key] value) ++
      sectionStatements sections).foldlM applyStatement (root, t)).bind _ = _
    rw [List.foldlM_append, List.foldlM_cons, hopen]
    show ((((entries.map fun (key, value) => Statement.entry [key] value).foldlM applyStatement
      (closed, ⟨[name], false, []⟩)).bind _).bind _) = _
    rw [hfill]
    show ((sectionStatements sections).foldlM applyStatement _).bind _ = _
    rw [hmore]
    simp [sectionMembers]

/-- Entries stand for themselves. -/
theorem membersToToml_entryMembers (entries : Entries) :
    membersToToml (entryMembers entries) = entries := by
  induction entries with
  | nil => rfl
  | cons entry entries ih =>
    show (entry.1, Node.toToml (.value entry.2)) :: membersToToml (entryMembers entries) = _
    rw [ih]
    rfl

/-- Sections stand for the tables of their entries. -/
theorem membersToToml_sectionMembers (sections : List (String × Entries)) :
    membersToToml (sectionMembers sections) =
      sections.map fun (name, entries) => (name, .table entries) := by
  induction sections with
  | nil => rfl
  | cons s sections ih =>
    show (s.1, Node.toToml (.table false false (entryMembers s.2))) ::
      membersToToml (sectionMembers sections) = _
    rw [ih]
    show (s.1, Toml.table (membersToToml (entryMembers s.2))) :: _ = _
    rw [membersToToml_entryMembers]
    rfl

/-- The statements of sections stand for their table. -/
theorem ofStatements?_sectionStatements {sections : List (String × Entries)}
    (hnames : (sections.map Prod.fst).Nodup) (hkeys : ∀ s ∈ sections, (s.2.map Prod.fst).Nodup) :
    ofStatements? (sectionStatements sections) =
      some (.table (sections.map fun (name, entries) => (name, .table entries))) := by
  have hstart : closeTable [] ⟨[], false, []⟩ = some [] := rfl
  have hrun := foldlM_sections hstart hnames hkeys
  rw [List.nil_append] at hrun
  obtain ⟨⟨root, t⟩, hfold, hclose⟩ := Option.bind_eq_some_iff.1 hrun
  dsimp only at hclose
  unfold ofStatements?
  rw [hfold]
  show (closeTable root t).bind _ = _
  rw [hclose, ← membersToToml_sectionMembers]
  rfl

/-! ## Printed sections -/

theorem isPlainPath_singleton {name : String} (h : IsPlainName name) : IsPlainPath [name] where
  ne_nil := List.cons_ne_nil name []
  length_lt := show 1 < depthLimit by decide
  isPlainName := List.forall_mem_singleton.2 h

/-- Entries with plain keys, and values that are printed. -/
def Entries.ArePrintable (entries : Entries) : Prop :=
  ∀ entry ∈ entries, IsPlainName entry.1 ∧ entry.2.IsPrintable (depthLimit - 1)

/-- Sections of plain names have statements that are printed. -/
theorem isPrintable_sectionStatements {sections : List (String × Entries)}
    (h : ∀ s ∈ sections, IsPlainName s.1 ∧ s.2.ArePrintable) :
    ∀ st ∈ sectionStatements sections, st.IsPrintable := by
  intro st hst
  obtain ⟨⟨name, entries⟩, hmem, hst⟩ := List.mem_flatMap.1 hst
  obtain ⟨hname, hentries⟩ := h _ hmem
  rcases List.mem_cons.1 hst with rfl | hst
  · exact isPlainPath_singleton hname
  · obtain ⟨⟨key, value⟩, hentry, rfl⟩ := List.mem_map.1 hst
    obtain ⟨hkey, hvalue⟩ := hentries _ hentry
    exact ⟨isPlainPath_singleton hkey, hvalue⟩

/-- Printed sections are read back as their table. -/
theorem ofText?_toText {sections : List (String × Entries)}
    (h : ∀ s ∈ sections, IsPlainName s.1 ∧ s.2.ArePrintable)
    (hnames : (sections.map Prod.fst).Nodup) (hkeys : ∀ s ∈ sections, (s.2.map Prod.fst).Nodup) :
    ofText? (toText (sectionStatements sections)) =
      some (.table (sections.map fun (name, entries) => (name, .table entries))) := by
  unfold ofText?
  rw [statements?_toText (isPrintable_sectionStatements h)]
  exact ofStatements?_sectionStatements hnames hkeys

end Toolpath.Toml
