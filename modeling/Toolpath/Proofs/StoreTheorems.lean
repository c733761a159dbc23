import Toolpath.File.Store
import Toolpath.Proofs.SettingsTheorems

/-!
# What is written is read

A path leads to the place where a file was written with it, and the file holds what was written
(`FileStore.read_of_write`). Writing takes nothing away from a store: what held something still
does, and a directory stays one (`FileStore.Extends`), so that the steps of a path lead where they
led before.
-/

namespace Toolpath

/-! ## Contents -/

theorem toList_loop_eq (bytes : ByteArray) (i : ℕ) (front : List UInt8) :
    ByteArray.toList.loop bytes i front = front.reverse ++ bytes.data.toList.drop i := by
  induction i, front using ByteArray.toList.loop.induct bytes with
  | case1 i front hlt ih =>
    have hi : i < bytes.data.toList.length := hlt
    have hget : bytes.get! i = bytes.data.toList[i] := getElem!_pos bytes.data i hlt
    rw [ByteArray.toList.loop, if_pos hlt, ih, List.drop_eq_getElem_cons hi, hget,
      List.reverse_cons, List.append_assoc, List.singleton_append]
  | case2 i front hge =>
    have hi : bytes.data.toList.length ≤ i := not_lt.1 hge
    rw [ByteArray.toList.loop, if_neg hge, List.drop_eq_nil_of_le hi, List.append_nil]

/-- A text is read back from its content. -/
theorem FileContent.text?_ofText (text : String) : (FileContent.ofText text).text? = .ok text := by
  have hlist : text.toUTF8.toList = text.toUTF8.data.toList := toList_loop_eq text.toUTF8 0 []
  have hbytes : (⟨(FileContent.ofText text).toArray⟩ : ByteArray) = text.toByteArray := by
    unfold FileContent.ofText
    rw [hlist]
    rfl
  have htext : String.fromUTF8? text.toByteArray = some text := dif_pos text.isValidUTF8
  unfold FileContent.text?
  rw [hbytes, htext]

namespace FileStore

/-! ## Stores that grow -/

/-- All that a store holds is held by the other one, and its directories are directories there. -/
structure Extends (store store' : FileStore) : Prop where
  workingDirectory_eq : store'.workingDirectory = store.workingDirectory
  isDirectory : ∀ {place}, store.isDirectory place = true → store'.isDirectory place = true
  holds : ∀ {place}, store.holds place = true → store'.holds place = true

variable {store store' : FileStore} {path name : String} {place directory : Place}

/-- A step leads from a directory to what its name is, unless the name is too long. -/
theorem below_eq_ok : store.below directory name = .ok place ↔
    store.isDirectory directory = true ∧ name.utf8ByteSize ≤ nameLimit ∧
      directory ++ [name] = place := by
  unfold below
  split_ifs with hdirectory hname
  · simp [hdirectory, hname]
  · simp [hdirectory, not_lt.1 hname]
  · simp [hdirectory]

/-- In a store that has grown the step leads to the same place. -/
theorem Extends.below (h : store.Extends store')
    (hbelow : store.below directory name = .ok place) :
    store'.below directory name = .ok place := by
  obtain ⟨hdirectory, hrest⟩ := below_eq_ok.1 hbelow
  exact below_eq_ok.2 ⟨h.isDirectory hdirectory, hrest⟩

/-- A step that leads somewhere leads there still. -/
theorem Extends.step (h : store.Extends store') (hstep : store.step directory name = .ok place) :
    store'.step directory name = .ok place := by
  obtain ⟨next, hbelow, hnext⟩ := bind_eq_ok.1 hstep
  refine bind_eq_ok.2 ⟨next, h.below hbelow, ?_⟩
  split_ifs at hnext with hstay hup hheld
  · rwa [if_pos hstay]
  · rwa [if_neg hstay, if_pos hup]
  · rwa [if_neg hstay, if_neg hup, if_pos (h.holds hheld)]

/-- In a store that has grown all steps lead to the same place. -/
theorem Extends.foldlM_step (h : store.Extends store') {steps : List String}
    (hsteps : steps.foldlM store.step directory = .ok place) :
    steps.foldlM store'.step directory = .ok place := by
  induction steps generalizing directory with
  | nil => exact hsteps
  | cons name steps ih =>
    rw [List.foldlM_cons] at hsteps ⊢
    obtain ⟨next, hnext, hrest⟩ := bind_eq_ok.1 hsteps
    exact bind_eq_ok.2 ⟨next, h.step hnext, ih hrest⟩

/-! ## Writing -/

/-- Steps lose none of their end with the empty ones there only if the last one is not empty. -/
theorem ne_empty_of_dropWhile_eq {way : List String}
    (h : ((way ++ [name]).reverse.dropWhile (· = "")).reverse = way ++ [name]) : name ≠ "" := by
  rintro rfl
  rw [List.reverse_append, List.reverse_singleton, List.singleton_append, List.dropWhile_cons,
    if_pos (decide_eq_true rfl)] at h
  have hlength := congrArg List.length h
  have hle := (List.dropWhile_sublist (p := (· = "")) (l := way.reverse)).length_le
  simp only [List.length_reverse, List.length_append, List.length_singleton] at hlength hle
  omega

/-- A file is written under a name of its own, the last step of the path, in a directory that the
other steps lead to. -/
theorem exists_of_target (h : store.target path = .ok place) :
    checkPath path = .ok () ∧ ∃ way name directory, pathSteps path = way ++ [name] ∧
      way.foldlM store.step (store.start path) = .ok directory ∧
      store.below directory name = .ok place ∧ name ≠ "" ∧ name ≠ "." ∧ name ≠ ".." := by
  obtain ⟨⟨⟩, hcheck, h⟩ := bind_eq_ok.1 h
  obtain ⟨directory, hway, h⟩ := bind_eq_ok.1 h
  dsimp only at h
  split_ifs at h with hrefused
  obtain ⟨next, hbelow, h⟩ := bind_eq_ok.1 h
  split_ifs at h
  cases h
  have hplain := not_and.1 hrefused (below_eq_ok.1 hbelow).1
  simp only [not_or, not_not] at hplain
  obtain ⟨hnamed, hpoint, hpoints⟩ := hplain
  rw [hnamed] at hway hbelow hpoint hpoints
  rcases List.eq_nil_or_concat (pathSteps path) with hnil | ⟨way, name, hsteps⟩
  · rw [hnil] at hpoint
    exact absurd rfl hpoint
  rw [List.concat_eq_append] at hsteps
  rw [hsteps] at hnamed hway hbelow hpoint hpoints
  rw [List.getLast?_concat] at hbelow hpoint hpoints
  rw [List.dropLast_concat] at hway
  exact ⟨hcheck, way, name, directory, hsteps, hway, hbelow, ne_empty_of_dropWhile_eq hnamed,
    hpoint, hpoints⟩

/-- The store with a file of the given content at a place. -/
def withFile (store : FileStore) (place : Place) (content : FileContent) : FileStore :=
  { store with files := (place, content) :: store.files.filter (·.1 ≠ place) }

variable {content : FileContent}

/-- A file that is put in a store has its content there. -/
theorem content?_withFile (store : FileStore) (place : Place) (content : FileContent) :
    (store.withFile place content).content? place = some content := by
  unfold content? withFile
  rw [List.lookup_cons_self]

/-- A file is at each place where one was. -/
theorem exists_mem_withFile (place : Place) (content : FileContent) {file : Place × FileContent}
    (h : file ∈ store.files) :
    ∃ file' ∈ (store.withFile place content).files, file'.1 = file.1 := by
  by_cases hplace : file.1 = place
  · exact ⟨_, List.mem_cons_self, hplace.symm⟩
  · exact ⟨file, List.mem_cons_of_mem _ (List.mem_filter.2 ⟨h, decide_eq_true hplace⟩), rfl⟩

/-- A directory is the working directory, one that was made, one that a file lies in, or above one
of these. -/
theorem isDirectory_iff : store.isDirectory place = true ↔
    place.isPrefixOf store.workingDirectory = true ∨
      (∃ directory ∈ store.directories, place.isPrefixOf directory = true) ∨
      ∃ file ∈ store.files, place.isPrefixOf file.1 = true ∧ file.1 ≠ place := by
  simp [isDirectory, or_assoc]

/-- What has content is a file. -/
theorem isSome_content?_iff :
    (store.content? place).isSome = true ↔ ∃ file ∈ store.files, place = file.1 := by
  unfold content?
  simp only [List.lookup_isSome_iff, beq_iff_eq]

/-- A store with one more file has grown. -/
theorem extends_withFile (store : FileStore) (place : Place) (content : FileContent) :
    store.Extends (store.withFile place content) := by
  have hdirectory : ∀ {p}, store.isDirectory p = true →
      (store.withFile place content).isDirectory p = true := by
    intro p h
    rw [isDirectory_iff] at h ⊢
    rcases h with h | h | ⟨file, hmem, hfile⟩
    · exact .inl h
    · exact .inr (.inl h)
    · obtain ⟨file', hmem', heq⟩ := exists_mem_withFile place content hmem
      exact .inr (.inr ⟨file', hmem', by rwa [heq]⟩)
  refine ⟨rfl, hdirectory, fun {p} h => ?_⟩
  unfold holds at h ⊢
  rw [Bool.or_eq_true] at h ⊢
  rcases h with h | h
  · exact .inl (hdirectory h)
  · obtain ⟨file, hmem, rfl⟩ := isSome_content?_iff.1 h
    obtain ⟨file', hmem', heq⟩ := exists_mem_withFile place content hmem
    exact .inr (isSome_content?_iff.2 ⟨file', hmem', heq.symm⟩)

/-- A file that was written is read with the same path. -/
theorem read_of_write (h : store.write path content = .ok store') :
    store'.read path = .ok content := by
  obtain ⟨place, htarget, h⟩ := bind_eq_ok.1 h
  have hstore : store.withFile place content = store' := Except.ok.inj h
  subst hstore
  have hcontent := store.content?_withFile place content
  obtain ⟨hcheck, way, name, directory, hsteps, hway, hbelow, hempty, hpoint, hpoints⟩ :=
    exists_of_target htarget
  have hextends := store.extends_withFile place content
  have hheld : (store.withFile place content).holds place = true := by
    unfold holds
    rw [hcontent, Option.isSome_some, Bool.or_true]
  -- the way to the directory leads on as before, and the last step finds the new file
  have hstep : (store.withFile place content).step directory name = .ok place := by
    refine bind_eq_ok.2 ⟨place, hextends.below hbelow, ?_⟩
    rw [if_neg (not_or.2 ⟨hempty, hpoint⟩), if_neg hpoints, if_pos hheld]
    rfl
  have hlocate : (store.withFile place content).locate path = .ok place := by
    refine bind_eq_ok.2 ⟨(), hcheck, ?_⟩
    rw [hsteps, List.foldlM_append]
    refine bind_eq_ok.2 ⟨directory, hextends.foldlM_step hway, ?_⟩
    rw [List.foldlM_cons]
    exact bind_eq_ok.2 ⟨place, hstep, rfl⟩
  refine bind_eq_ok.2 ⟨place, hlocate, ?_⟩
  rw [hcontent]
  rfl

/-! ## Access -/

theorem run_read (store : FileStore) (path : String) :
    (FileAccess.read path : StateM FileStore _).run store = (store.read path, store) := rfl

/-- A change of the store that may fail leaves it as it was then. -/
theorem run_change (change : FileStore → Except FileFault FileStore) (store : FileStore) :
    (do
      match change (← get) with
      | .ok store => set store; return .ok ()
      | .error fault => return .error fault : StateM FileStore (Except FileFault Unit)).run store =
    match change store with
    | .ok changed => (.ok (), changed)
    | .error fault => (.error fault, store) := by
  rw [StateT.run_bind]
  show (match change store with
    | .ok store => do set store; return .ok ()
    | .error fault => return .error fault : StateM FileStore (Except FileFault Unit)).run store = _
  cases change store <;> rfl

theorem run_write (store : FileStore) (path : String) (content : FileContent) :
    (FileAccess.write path content : StateM FileStore _).run store =
      match store.write path content with
      | .ok written => (.ok (), written)
      | .error fault => (.error fault, store) :=
  run_change (·.write path content) store

theorem run_makeDirectories (store : FileStore) (path : String) :
    (FileAccess.makeDirectories path : StateM FileStore _).run store =
      match store.makeDirectories path with
      | .ok made => (.ok (), made)
      | .error fault => (.error fault, store) :=
  run_change (·.makeDirectories path) store

end FileStore

end Toolpath
