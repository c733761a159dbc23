import Toolpath.Settings.Record
import Toolpath.Proofs.NumeralTheorems
import Toolpath.Proofs.PatternTheorems

/-!
# Settings read back from their records

Settings are written in a form of values (`Settings.toRecord`). In a form whose values are read as
what was written (`RecordForm.IsRead`), settings are read back as long as each of their numbers is
(`Settings.read?_toRecord`), and otherwise not at all (`Settings.isSome_of_read?`). JSON and TOML
are such forms.
-/

namespace Toolpath

variable {V : Type}

/-- What is written is read, single-precision numbers left aside. -/
structure RecordForm.IsRead [RecordValue V] (f : RecordForm V) : Prop where
  fields? : ∀ {names members}, members.map Prod.fst = names → names.Nodup →
    RecordValue.fields? names (f.record members) = some (members.map fun member => some member.2)
  count? : ∀ {bits n}, bits ≤ 64 → n < 2 ^ bits → RecordValue.count? bits (f.count n) = some n
  choice? : ∀ name, RecordValue.choice? (f.choice name) = some name
  items? : ∀ items, RecordValue.items? (f.list items) = some items
  three? : ∀ a b c, RecordValue.three? (f.list [a, b, c]) = some (a, b, c)

/-! ## Numbers -/

/-- The numbers of the machine. -/
def MachineSettings.numbers (m : MachineSettings Float32) : List Float32 :=
  [m.maxAcceleration, m.defaultFeedRate, m.travelFeedRate] ++ m.initialPosition.toList ++
    m.workOffsets.flatMap Vec3.toList

/-- The numbers of sampling. -/
def SamplingSettings.numbers (s : SamplingSettings Float32) : List Float32 :=
  [s.arcTolerance, s.dwellInterval]

/-- The numbers of settings, counts left aside. -/
def Settings.numbers (s : Settings Float32) : List Float32 :=
  s.machine.numbers ++ s.sampling.numbers

/-- Counts that have the bits of their types. -/
structure SamplingSettings.HasBits (s : SamplingSettings Float32) : Prop where
  lineSteps : s.lineSteps < 2 ^ 32
  maxArcSteps : s.maxArcSteps < 2 ^ 32
  maxRunPoints : s.maxRunPoints < 2 ^ 64
  dwellSamples : s.dwellSamples < 2 ^ 32

/-! ## Reading -/

theorem Settings.names_sections (f : RecordForm V) (s : Settings Float32) :
    ((s.sections f).map fun (name, fields) => (name, f.record fields)).map Prod.fst =
      sectionNames := rfl

section Reading

variable [RecordValue V] {f : RecordForm V}

/-- A point is read back with its coordinates. -/
theorem readPoint_toRecord (hf : f.IsRead) {p : Vec3 Float32}
    (h : ∀ x ∈ p.toList, RecordValue.single? (f.single x) = some x) :
    readPoint (p.toRecord f) = some p := by
  obtain ⟨x, y, z⟩ := p
  have hlist : (Vec3.mk x y z).toList = [x, y, z] := rfl
  rw [hlist] at h
  simp only [List.forall_mem_cons] at h
  obtain ⟨hx, hy, hz, -⟩ := h
  unfold readPoint Vec3.toRecord
  rw [hlist]
  simp [hf.three?, hx, hy, hz]

/-- A list of points is read back point by point. -/
theorem mapM_readPoint (hf : f.IsRead) {points : List (Vec3 Float32)}
    (h : ∀ x ∈ points.flatMap Vec3.toList, RecordValue.single? (f.single x) = some x) :
    (points.map fun p => p.toRecord f).mapM readPoint = some points := by
  induction points with
  | nil => rfl
  | cons p points ih =>
    rw [List.flatMap_cons, List.forall_mem_append] at h
    rw [List.map_cons, List.mapM_cons, readPoint_toRecord hf h.1, ih h.2]
    rfl

/-- The machine is read back with its numbers. -/
theorem MachineSettings.read?_record (hf : f.IsRead) {m : MachineSettings Float32}
    (h : ∀ x ∈ m.numbers, RecordValue.single? (f.single x) = some x) :
    MachineSettings.read? (f.record (m.fields f)) = some m := by
  unfold numbers at h
  simp only [List.forall_mem_append, List.forall_mem_cons] at h
  obtain ⟨⟨⟨hacceleration, hdefault, htravel, -⟩, hposition⟩, hoffsets⟩ := h
  have hnames : (m.fields f).map Prod.fst = fieldNames := rfl
  have hfields := hf.fields? hnames (by decide)
  unfold read?
  rw [hfields]
  simp [MachineSettings.fields, fieldOr, hacceleration, hdefault, htravel,
    readPoint_toRecord hf hposition, hf.items?, mapM_readPoint hf hoffsets]

/-- Each kind of strictness is read back by its name. -/
theorem Strictness.read?_record (hf : f.IsRead) (s : Strictness) :
    Strictness.read? (f.record (s.fields f)) = some s := by
  have hnames : (s.fields f).map Prod.fst = ["strictness"] := rfl
  have hfields := hf.fields? hnames (by decide)
  have hname : names.lookup (nameOf names s) = some s := by cases s <;> rfl
  unfold read?
  rw [hfields]
  simp [Strictness.fields, fieldOr, readChoice, hf.choice?, hname]

/-- Sampling is read back with its numbers, its counts having the bits of their types. -/
theorem SamplingSettings.read?_record (hf : f.IsRead) {s : SamplingSettings Float32}
    (hbits : s.HasBits) (h : ∀ x ∈ s.numbers, RecordValue.single? (f.single x) = some x) :
    SamplingSettings.read? (f.record (s.fields f)) = some s := by
  unfold numbers at h
  simp only [List.forall_mem_cons] at h
  obtain ⟨htolerance, hinterval, -⟩ := h
  have hnames : (s.fields f).map Prod.fst = fieldNames := rfl
  have hfields := hf.fields? hnames (by decide)
  have hsteps := hf.count? (by decide) hbits.lineSteps
  have harc := hf.count? (by decide) hbits.maxArcSteps
  have hrun := hf.count? (by decide) hbits.maxRunPoints
  have hdwell := hf.count? (by decide) hbits.dwellSamples
  unfold read?
  rw [hfields]
  simp [SamplingSettings.fields, fieldOr, hsteps, htolerance, harc, hrun, hdwell, hinterval]

/-- Each choice of display is read back by its name. -/
theorem DisplaySettings.read?_record (hf : f.IsRead) (d : DisplaySettings) :
    DisplaySettings.read? (f.record (d.fields f)) = some d := by
  obtain ⟨convention, system, units⟩ := d
  have hnames : (DisplaySettings.fields f ⟨convention, system, units⟩).map Prod.fst = fieldNames :=
    rfl
  have hfields := hf.fields? hnames (by decide)
  have hconvention : AxisConvention.names.lookup (nameOf AxisConvention.names convention) =
      some convention := by cases convention <;> rfl
  have hsystem : MeasurementSystem.names.lookup (nameOf MeasurementSystem.names system) =
      some system := by cases system <;> rfl
  have hunits : FeedUnits.names.lookup (nameOf FeedUnits.names units) = some units := by
    cases units <;> rfl
  unfold read?
  rw [hfields]
  simp [DisplaySettings.fields, fieldOr, readChoice, hf.choice?, hconvention, hsystem, hunits]

/-- Settings whose numbers are read back are read back. -/
theorem Settings.read?_toRecord (hf : f.IsRead) {s : Settings Float32}
    (hbits : s.sampling.HasBits)
    (h : ∀ x ∈ s.numbers, RecordValue.single? (f.single x) = some x) :
    Settings.read? (s.toRecord f) = some s := by
  unfold numbers at h
  rw [List.forall_mem_append] at h
  have hfields := hf.fields? (names_sections f s) (by decide)
  have hmachine := MachineSettings.read?_record hf h.1
  have hsampling := SamplingSettings.read?_record hf hbits h.2
  unfold read? toRecord
  rw [hfields]
  simp [Settings.sections, fieldOr, hmachine, Strictness.read?_record hf, hsampling,
    DisplaySettings.read?_record hf]

/-! ## Numbers that are not read -/

/-- A point is read only if each of its coordinates is. -/
theorem isSome_of_readPoint (hf : f.IsRead) {p q : Vec3 Float32}
    (h : readPoint (p.toRecord f) = some q) :
    ∀ x ∈ p.toList, (RecordValue.single? (f.single x)).isSome = true := by
  obtain ⟨x, y, z⟩ := p
  have hlist : (Vec3.mk x y z).toList = [x, y, z] := rfl
  unfold readPoint Vec3.toRecord at h
  rw [hlist] at h ⊢
  simp only [List.map_cons, List.map_nil, hf.three?, Option.bind_eq_bind, Option.bind_some,
    Option.bind_eq_some_iff] at h
  obtain ⟨x', hx, y', hy, z', hz, -⟩ := h
  simp [hx, hy, hz]

/-- A list of points is read only if each of its coordinates is. -/
theorem isSome_of_mapM_readPoint (hf : f.IsRead) {points qs : List (Vec3 Float32)}
    (h : (points.map fun p => p.toRecord f).mapM readPoint = some qs) :
    ∀ x ∈ points.flatMap Vec3.toList, (RecordValue.single? (f.single x)).isSome = true := by
  induction points generalizing qs with
  | nil => exact List.forall_mem_nil _
  | cons p points ih =>
    rw [List.map_cons, List.mapM_cons] at h
    obtain ⟨q, hq, h⟩ := Option.bind_eq_some_iff.1 h
    obtain ⟨qs, hqs, -⟩ := Option.bind_eq_some_iff.1 h
    rw [List.flatMap_cons, List.forall_mem_append]
    exact ⟨isSome_of_readPoint hf hq, ih hqs⟩

/-- The machine is read only if each of its numbers is. -/
theorem MachineSettings.isSome_of_read? (hf : f.IsRead) {m m' : MachineSettings Float32}
    (h : MachineSettings.read? (f.record (m.fields f)) = some m') :
    ∀ x ∈ m.numbers, (RecordValue.single? (f.single x)).isSome = true := by
  have hnames : (m.fields f).map Prod.fst = fieldNames := rfl
  have hfields := hf.fields? hnames (by decide)
  unfold read? at h
  rw [hfields] at h
  simp only [MachineSettings.fields, List.map_cons, List.map_nil, fieldOr, hf.items?,
    Option.bind_eq_bind, Option.bind_some, Option.bind_eq_some_iff] at h
  obtain ⟨_, hacceleration, _, hdefault, _, htravel, _, hposition, _, hoffsets, -⟩ := h
  simp only [numbers, List.forall_mem_append, List.forall_mem_cons]
  exact ⟨⟨⟨by rw [hacceleration]; rfl, by rw [hdefault]; rfl, by rw [htravel]; rfl,
    List.forall_mem_nil _⟩, isSome_of_readPoint hf hposition⟩, isSome_of_mapM_readPoint hf hoffsets⟩

/-- Sampling is read only if each of its numbers is. -/
theorem SamplingSettings.isSome_of_read? (hf : f.IsRead) {s s' : SamplingSettings Float32}
    (h : SamplingSettings.read? (f.record (s.fields f)) = some s') :
    ∀ x ∈ s.numbers, (RecordValue.single? (f.single x)).isSome = true := by
  have hnames : (s.fields f).map Prod.fst = fieldNames := rfl
  have hfields := hf.fields? hnames (by decide)
  unfold read? at h
  rw [hfields] at h
  simp only [SamplingSettings.fields, List.map_cons, List.map_nil, fieldOr, Option.bind_eq_bind,
    Option.bind_some, Option.bind_eq_some_iff] at h
  obtain ⟨_, -, _, htolerance, _, -, _, -, _, -, _, hinterval, -⟩ := h
  simp [numbers, htolerance, hinterval]

/-- Settings with a number that is not read are not read. -/
theorem Settings.isSome_of_read? (hf : f.IsRead) {s s' : Settings Float32}
    (h : Settings.read? (s.toRecord f) = some s') :
    ∀ x ∈ s.numbers, (RecordValue.single? (f.single x)).isSome = true := by
  have hfields := hf.fields? (names_sections f s) (by decide)
  unfold read? toRecord at h
  rw [hfields] at h
  simp only [Settings.sections, List.map_cons, List.map_nil, fieldOr, Option.bind_eq_bind,
    Option.bind_some, Option.bind_eq_some_iff] at h
  obtain ⟨_, hmachine, _, -, _, hsampling, -⟩ := h
  rw [numbers, List.forall_mem_append]
  exact ⟨MachineSettings.isSome_of_read? hf hmachine, SamplingSettings.isSome_of_read? hf hsampling⟩

end Reading

/-! ## The two forms -/

/-- Members with distinct names are looked up in their order. -/
theorem map_lookup_of_nodup {names : List String} {members : List (String × V)}
    (hnames : members.map Prod.fst = names) (h : names.Nodup) :
    names.map (fun name => members.lookup name) = members.map fun member => some member.2 := by
  subst hnames
  induction members with
  | nil => rfl
  | cons member members ih =>
    obtain ⟨hfirst, hmore⟩ := List.nodup_cons.1 h
    have hrest : (members.map Prod.fst).map (fun name => (member :: members).lookup name) =
        (members.map Prod.fst).map fun name => members.lookup name := by
      refine List.map_congr_left fun name hname => ?_
      have hne : name ≠ member.1 := fun heq => hfirst (heq ▸ hname)
      rw [List.lookup_cons, beq_eq_false_iff_ne.2 hne]
    rw [List.map_cons, List.map_cons, List.map_cons, hrest, ih hmore, List.lookup_cons,
      beq_self_eq_true]

/-- Among distinct names there is none to erase. -/
theorem eraseDups_of_nodup {names : List String} (h : names.Nodup) : names.eraseDups = names := by
  induction names with
  | nil => rfl
  | cons name names ih =>
    obtain ⟨hname, hmore⟩ := List.nodup_cons.1 h
    have hfilter : names.filter (fun other => !other == name) = names := by
      refine List.filter_eq_self.2 fun other hmem => ?_
      have hne : other ≠ name := fun heq => hname (heq ▸ hmem)
      rw [beq_eq_false_iff_ne.2 hne]
      rfl
    rw [List.eraseDups_cons, hfilter, ih hmore]

namespace Json

/-- Digits whose number fits in 64 bits are gathered to the last one. -/
theorem gatherDigits_of_lt {n : ℕ} {digits : List Char}
    (h : Nat.ofDigitChars 10 digits n < wordLimit) :
    gatherDigits n digits = (Nat.ofDigitChars 10 digits n, []) := by
  induction digits generalizing n with
  | nil => rfl
  | cons c digits ih =>
    have hnext : 10 * n + (c.toNat - 48) < wordLimit := by
      refine lt_of_le_of_lt ?_ h
      rw [Nat.ofDigitChars_cons, Nat.ofDigitChars_eq_ofDigitChars_zero]
      exact (Nat.le_mul_of_pos_left _ (Nat.pow_pos (by decide))).trans (Nat.le_add_right _ _)
    rw [gatherDigits, if_pos hnext]
    exact ih h

/-- A count that fits in 64 bits is the value of its text. -/
theorem numberValue?_toString {n : ℕ} (h : n < wordLimit) :
    numberValue? (toString n) = some (.integer n) := by
  have hgather : gatherDigits 0 (Nat.toDigits 10 n) = (n, []) := by
    have hvalue : Nat.ofDigitChars 10 (Nat.toDigits 10 n) 0 = n := Nat.ofDigitChars_ten_toDigits
    rw [gatherDigits_of_lt (by rwa [hvalue]), hvalue]
  have hsign : Number.spanSign (Nat.toDigits 10 n) = (false, Nat.toDigits 10 n) := by
    have hsign := Number.spanSign_toDigits n []
    rwa [List.append_nil] at hsign
  have hspan : Number.spanDigits (Nat.toDigits 10 n) = (Nat.toDigits 10 n, []) := by
    have hspan : Number.spanDigits (Nat.toDigits 10 n ++ []) = (Nat.toDigits 10 n, []) :=
      Number.spanDigits_append (fun c => Number.isDigit_of_mem_toDigits) nofun
    rwa [List.append_nil] at hspan
  have hparts : numberParts (toString n) = ⟨false, Nat.toDigits 10 n, [], none⟩ := by
    unfold numberParts
    rw [toList_toString, hsign]
    dsimp only
    rw [hspan]
  unfold numberValue? NumberParts.value?
  rw [hparts]
  dsimp only
  rw [hgather]
  rfl

/-- A count is read back in the bits it has. -/
theorem count?_ofNat {bits n : ℕ} (hbits : bits ≤ 64) (h : n < 2 ^ bits) :
    count? bits (.ofNat n) = some n := by
  have hlimit : n < wordLimit := lt_of_lt_of_le h (Nat.pow_le_pow_right two_pos hbits)
  have hrange : (0 : ℤ) ≤ n ∧ (n : ℤ) ≤ Nat.pow 2 bits - 1 := by
    have hbound : (n : ℤ) < Nat.pow 2 bits := by exact_mod_cast h
    omega
  unfold count? ofNat integerIn?
  dsimp only
  rw [numberValue?_toString hlimit]
  dsimp only
  rw [if_pos hrange]
  rfl

/-- The members of an object are its fields. -/
theorem fields?_object {names : List String} {members : List (String × Json)}
    (hnames : members.map Prod.fst = names) (h : names.Nodup) :
    fields? names (.object members) = some (members.map fun member => some member.2) := by
  have hknown : (members.map (·.1)).filter (names.contains ·) = names := by
    rw [show members.map (·.1) = names from hnames]
    exact List.filter_eq_self.2 fun name hname => List.contains_iff_mem.2 hname
  unfold fields?
  dsimp only
  rw [hknown, eraseDups_of_nodup h, if_pos rfl, map_lookup_of_nodup hnames h]

/-- JSON is read as it is written, however its numbers are kept. -/
theorem isRead_form (t : SingleText) : @RecordForm.IsRead Json (recordValue t) (form t) := by
  let := recordValue t
  exact ⟨fields?_object, count?_ofNat, fun _ => rfl, fun _ => rfl, fun _ _ _ => rfl⟩

end Json

/-- TOML is read as it is written. -/
theorem Toml.isRead_form : Toml.form.IsRead where
  fields? := fun {names members} hnames h => congrArg some (map_lookup_of_nodup hnames h)
  count? := fun {bits n} _ hn => by
    have hrange : 0 ≤ (n : ℤ) ∧ (n : ℤ) < Nat.pow 2 bits :=
      ⟨Int.natCast_nonneg n, by exact_mod_cast hn⟩
    exact if_pos hrange
  choice? := fun _ => rfl
  items? := fun _ => rfl
  three? := fun _ _ _ => rfl

end Toolpath
