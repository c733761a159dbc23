import Toolpath.Settings.File
import Toolpath.Proofs.CrestTheorems
import Toolpath.Proofs.DocumentTheorems
import Toolpath.Proofs.RecordTheorems
import Toolpath.Proofs.SectionTheorems
import Toolpath.Proofs.SettingsTheorems
import Toolpath.Proofs.StoreTheorems

/-!
# Saved settings

A file of settings holds their text: JSON text that is read as the values it was printed from, or
TOML text that is read as the sections it was printed from (`Settings.ofText?_sections`). So saved
settings are loaded as they were, unless JSON has no text for one of their coordinates
(`Settings.load_of_save`). Of the texts of finite numbers in JSON no more is asked than that they
are read back (`Json.SingleText.Keeps`).
-/

namespace Toolpath

/-! ## JSON -/

namespace Json

/-- A number is kept: its text is the text of a number, and is read back as it was. -/
structure SingleText.Keeps (t : SingleText) (x : Float32) : Prop where
  isSound : (number (t.print x)).IsSound
  read? : t.read? (t.print x) = some x

/-- The shortest text of a finite number is the text of a number. -/
theorem isSound_singleText {x : Float32} (h : x.isFinite = true) :
    (number (singleText x)).IsSound := by
  have hmark : singleStyle.wholeMark = ".0" := rfl
  rw [Single.isFinite_eq] at h
  unfold singleText
  cases hdatum : Number.singleDatum x with
  | nan => rw [hdatum] at h; cases h
  | infinite negative => rw [hdatum] at h; cases h
  | finite negative m e => exact Number.exists_render hmark .single negative m e

/-- A finite number is kept as its shortest text where it is read back from it. -/
theorem keeps_shortest {x : Float32} (hfinite : x.isFinite = true)
    (h : single? (ofSingle x) = some x) : SingleText.shortest.Keeps x := by
  refine ⟨isSound_singleText hfinite, ?_⟩
  rw [Single.isFinite_eq] at hfinite
  unfold ofSingle ofSingleBy at h
  rwa [if_pos hfinite] at h

variable {t : SingleText} {x : Float32}

theorem ofSingleBy_of_isFinite (text : Float32 → String) (h : x.isFinite = true) :
    ofSingleBy text x = number (text x) := by
  rw [Single.isFinite_eq] at h
  exact if_pos h

/-- JSON has no text for a number that is not finite. -/
theorem ofSingleBy_of_not_isFinite (text : Float32 → String) (h : ¬ x.isFinite = true) :
    ofSingleBy text x = null := by
  rw [Single.isFinite_eq] at h
  exact if_neg h

theorem isSound_ofNat (n : ℕ) : (ofNat n).IsSound :=
  ⟨Number.Numeral.ofInt n, Number.Numeral.chars_ofNat n⟩

/-- A number has a sound value, be it the null of one that is not finite. -/
theorem isSound_ofSingleBy (h : x.isFinite = true → t.Keeps x) :
    (ofSingleBy t.print x).IsSound := by
  by_cases hfinite : x.isFinite = true
  · rw [ofSingleBy_of_isFinite _ hfinite]
    exact (h hfinite).isSound
  · rw [ofSingleBy_of_not_isFinite _ hfinite]
    exact trivial

end Json

namespace Settings

/-- Settings whose finite numbers are kept have a sound value. -/
theorem isSound_toJson {t : Json.SingleText} {s : Settings Float32}
    (h : ∀ x ∈ s.numbers, x.isFinite = true → t.Keeps x) : (s.toJson t).IsSound := by
  have hsingle : ∀ x ∈ s.numbers, (Json.ofSingleBy t.print x).IsSound := fun x hx =>
    Json.isSound_ofSingleBy (h x hx)
  unfold numbers MachineSettings.numbers SamplingSettings.numbers at hsingle
  simp only [List.forall_mem_append, List.forall_mem_cons, List.forall_mem_flatMap] at hsingle
  obtain ⟨hmachine, htolerance, hinterval, -⟩ := hsingle
  obtain ⟨⟨⟨hacceleration, hdefault, htravel, -⟩, hposition⟩, hoffsets⟩ := hmachine
  have hpoint : ∀ p : Vec3 Float32, (∀ x ∈ p.toList, (Json.ofSingleBy t.print x).IsSound) →
      (p.toRecord (Json.form t)).IsSound := fun p => Json.areSound_map
  have hnat := Json.isSound_ofNat
  exact ⟨⟨hacceleration, hdefault, htravel, hpoint _ hposition,
      Json.areSound_map fun p hp => hpoint p (hoffsets p hp), trivial⟩,
    ⟨trivial, trivial⟩, ⟨hnat _, htolerance, hnat _, hnat _, hnat _, hinterval, trivial⟩,
    ⟨trivial, trivial, trivial, trivial⟩, trivial⟩

/-- A number that is not finite is not read back from JSON. -/
theorem read?_toJson_eq_none {t : Json.SingleText} {s : Settings Float32} {x : Float32}
    (hx : x ∈ s.numbers) (hfinite : ¬ x.isFinite = true) :
    @Settings.read? Json (Json.recordValue t) (s.toJson t) = none := by
  rw [Option.eq_none_iff_forall_ne_some]
  intro s' hs'
  have hsome : (Json.singleBy? t.read? (.ofSingleBy t.print x)).isSome = true :=
    @isSome_of_read? Json (Json.recordValue t) _ (Json.isRead_form t) _ _ hs' x hx
  rw [Json.ofSingleBy_of_not_isFinite _ hfinite] at hsome
  cases hsome

/-! ## TOML -/

theorem isPrintable_point (p : Vec3 Float32) {levels : ℕ} (h : 0 < levels) :
    (p.toRecord Toml.form).IsPrintable levels :=
  ⟨h, Toml.arePrintable_map (g := Toml.form.single) (fun _ => trivial) p.toList⟩

theorem isPrintable_count {n : ℕ} (h : (n : ℤ) ≤ Number.greatestInt64) (levels : ℕ) :
    (Toml.form.count n).IsPrintable levels :=
  ⟨(by decide : Number.leastInt64 ≤ 0).trans (Int.natCast_nonneg n), h⟩

/-- The fields of the machine are printed, whatever its numbers are. -/
theorem arePrintable_machine (m : MachineSettings Float32) :
    Toml.Entries.ArePrintable (m.fields Toml.form) := by
  have hpoint : ∀ p : Vec3 Float32, (p.toRecord Toml.form).IsPrintable 78 := fun p =>
    isPrintable_point p (by decide)
  unfold Toml.Entries.ArePrintable MachineSettings.fields
  simp only [List.forall_mem_cons]
  exact ⟨⟨by decide, trivial⟩, ⟨by decide, trivial⟩, ⟨by decide, trivial⟩,
    ⟨by decide, isPrintable_point _ (by decide)⟩,
    ⟨by decide, by decide, Toml.arePrintable_map hpoint _⟩, List.forall_mem_nil _⟩

/-- Each kind of strictness has a plain name. -/
theorem arePrintable_strictness (s : Strictness) :
    Toml.Entries.ArePrintable (s.fields Toml.form) := by
  have hname : Toml.IsPlainName (nameOf Strictness.names s) := by cases s <;> decide
  exact List.forall_mem_singleton.2 ⟨show Toml.IsPlainName "strictness" by decide, hname⟩

/-- The fields of sampling are printed, as long as the count of points in a run fits. -/
theorem arePrintable_sampling {s : SamplingSettings Float32} (hbits : s.HasBits)
    (hrun : (s.maxRunPoints : ℤ) ≤ Number.greatestInt64) :
    Toml.Entries.ArePrintable (s.fields Toml.form) := by
  have hcount : ∀ {n : ℕ}, n < 2 ^ 32 → (Toml.form.count n).IsPrintable 79 := fun h =>
    isPrintable_count (by unfold Number.greatestInt64; omega) 79
  unfold Toml.Entries.ArePrintable SamplingSettings.fields
  simp only [List.forall_mem_cons]
  exact ⟨⟨by decide, hcount hbits.lineSteps⟩, ⟨by decide, trivial⟩,
    ⟨by decide, hcount hbits.maxArcSteps⟩, ⟨by decide, isPrintable_count hrun 79⟩,
    ⟨by decide, hcount hbits.dwellSamples⟩, ⟨by decide, trivial⟩, List.forall_mem_nil _⟩

/-- The choices of display have plain names. -/
theorem arePrintable_display (d : DisplaySettings) :
    Toml.Entries.ArePrintable (d.fields Toml.form) := by
  obtain ⟨convention, system, units⟩ := d
  have hconvention : Toml.IsPlainName (nameOf AxisConvention.names convention) := by
    cases convention <;> decide
  have hsystem : Toml.IsPlainName (nameOf MeasurementSystem.names system) := by
    cases system <;> decide
  have hunits : Toml.IsPlainName (nameOf FeedUnits.names units) := by cases units <;> decide
  unfold Toml.Entries.ArePrintable DisplaySettings.fields
  simp only [List.forall_mem_cons]
  exact ⟨⟨by decide, hconvention⟩, ⟨by decide, hsystem⟩, ⟨by decide, hunits⟩,
    List.forall_mem_nil _⟩

/-- The text of the sections is read as their record. -/
theorem ofText?_sections {s : Settings Float32} (hbits : s.sampling.HasBits)
    (hrun : (s.sampling.maxRunPoints : ℤ) ≤ Number.greatestInt64) :
    Toml.ofText? (Toml.toText (Toml.sectionStatements (s.sections Toml.form))) =
      some (s.toRecord Toml.form) := by
  refine Toml.ofText?_toText ?_ (show sectionNames.Nodup by decide) ?_
  · unfold Settings.sections
    simp only [List.forall_mem_cons]
    exact ⟨⟨by decide, arePrintable_machine _⟩, ⟨by decide, arePrintable_strictness _⟩,
      ⟨by decide, arePrintable_sampling hbits hrun⟩, ⟨by decide, arePrintable_display _⟩,
      List.forall_mem_nil _⟩
  · unfold Settings.sections
    simp only [List.forall_mem_cons]
    exact ⟨show MachineSettings.fieldNames.Nodup by decide, show ["strictness"].Nodup by decide,
      show SamplingSettings.fieldNames.Nodup by decide,
      show DisplaySettings.fieldNames.Nodup by decide, List.forall_mem_nil _⟩

/-! ## Files -/

variable {t : Json.SingleText} {s : Settings Float32} {path : String} {format : SettingsFormat}
  {store store' : FileStore}

/-- What is written without a fault is in the store. -/
theorem write_of_run {content : FileContent} {wrap : FileFault → SettingsError}
    (h : (do
      match ← FileAccess.write path content with
      | .error fault => return .error (wrap fault)
      | .ok () => return .ok () : StateM FileStore (Except SettingsError Unit)).run store =
        (.ok (), store')) :
    store.write path content = .ok store' := by
  rw [StateT.run_bind, FileStore.run_write] at h
  cases hwrite : store.write path content with
  | error fault =>
    rw [hwrite] at h
    cases congrArg Prod.fst h
  | ok written =>
    rw [hwrite] at h
    exact congrArg Except.ok (congrArg Prod.snd h)

/-- What was saved was written to some store. -/
theorem exists_of_save (h : (s.saveBy t path : StateM FileStore _).run store = (.ok (), store')) :
    ∃ (text : String) (opened : FileStore), s.savedText t path = .ok text ∧
      opened.write path (.ofText text) = .ok store' := by
  unfold saveBy at h
  cases hsaved : s.savedText t path with
  | error e =>
    rw [hsaved] at h
    cases congrArg Prod.fst h
  | ok text =>
    rw [hsaved] at h
    dsimp only at h
    split_ifs at h
    · exact ⟨text, store, rfl, write_of_run h⟩
    · rw [StateT.run_bind, FileStore.run_makeDirectories] at h
      cases hmade : store.makeDirectories (parentOf path) with
      | error fault =>
        rw [hmade] at h
        cases congrArg Prod.fst h
      | ok made =>
        rw [hmade] at h
        exact ⟨text, made, rfl, write_of_run h⟩

/-- A file is loaded from what it holds. -/
theorem load_of_read {content : FileContent} (hformat : SettingsFormat.ofPath path = .ok format)
    (h : store.read path = .ok content) :
    (loadBy t path : StateM FileStore _).run store =
      (ofContent t path format (.ok content), store) := by
  unfold loadBy
  rw [hformat]
  dsimp only
  rw [StateT.run_bind, FileStore.run_read, h]
  rfl

/-- Content that is text is read as this text. -/
theorem ofContent_ofText (t : Json.SingleText) (path : String) (format : SettingsFormat)
    (text : String) : ofContent t path format (.ok (.ofText text)) = ofText t format text := by
  have htext : Except.bind (.ok (.ofText text)) FileContent.text? = .ok text :=
    FileContent.text?_ofText text
  unfold ofContent
  rw [htext]

/-- Accepted numbers are finite, those of points left aside. -/
theorem forall_numbers_iff (hs : s.IsValid) : (∀ x ∈ s.numbers, x.isFinite = true) ↔
    ∀ p ∈ s.machine.initialPosition :: s.machine.workOffsets, p.IsFinite := by
  have hpoint : ∀ p : Vec3 Float32, (∀ x ∈ p.toList, x.isFinite = true) ↔ p.IsFinite := by
    intro p
    have hlist : p.toList = [p.x, p.y, p.z] := rfl
    rw [hlist]
    simp only [List.forall_mem_cons]
    exact ⟨fun ⟨hx, hy, hz, _⟩ => ⟨hx, hy, hz⟩,
      fun h => ⟨h.x, h.y, h.z, List.forall_mem_nil _⟩⟩
  have hacceleration : s.machine.maxAcceleration.isFinite = true := hs.maxAcceleration.1
  have hdefault : s.machine.defaultFeedRate.isFinite = true := hs.defaultFeedRate.1
  have htravel : s.machine.travelFeedRate.isFinite = true := hs.travelFeedRate.1
  have htolerance : s.sampling.arcTolerance.isFinite = true := hs.arcTolerance.1
  have hinterval : s.sampling.dwellInterval.isFinite = true := hs.dwellInterval.1
  unfold numbers MachineSettings.numbers SamplingSettings.numbers
  simp only [List.forall_mem_append, List.forall_mem_cons, List.forall_mem_flatMap, hpoint,
    hacceleration, hdefault, htravel, htolerance, hinterval]
  simp

theorem checked_of_isValid (hs : s.IsValid) : s.checked = .ok s := by
  unfold checked
  rw [validate_eq_ok.2 hs]

/-- What passes the check is valid, and is left as it is. -/
theorem isValid_of_checked {s' : Settings Float32} (h : s.checked = .ok s') :
    s.IsValid ∧ s = s' := by
  unfold checked at h
  split at h
  · rename_i hvalid
    exact ⟨validate_eq_ok.1 hvalid, Except.ok.inj h⟩
  · cases h

/-- Only valid settings have a text to save. -/
theorem of_savedText {text : String} (h : s.savedText t path = .ok text)
    (hformat : SettingsFormat.ofPath path = .ok format) :
    s.IsValid ∧ s.toText t format = .ok text := by
  obtain ⟨s', hchecked, h⟩ := bind_eq_ok.1 h
  obtain ⟨format', hformat', htext⟩ := bind_eq_ok.1 h
  obtain ⟨hs, rfl⟩ := isValid_of_checked hchecked
  cases hformat.symm.trans hformat'
  exact ⟨hs, htext⟩

/-- The text of JSON is read as the value it was printed from. -/
theorem ofText_json (hkeeps : ∀ x ∈ s.numbers, x.isFinite = true → t.Keeps x) {text : String}
    (htext : s.toText t .json = .ok text) :
    ofText t .json text = match @read? Json (Json.recordValue t) (s.toJson t) with
      | some s => s.checked
      | none => .error .json := by
  cases htext
  unfold ofText
  rw [Json.ofText?_toPrettyText (isSound_toJson hkeeps)]
  rfl

/-- The text of TOML is read as the settings it was printed from. -/
theorem ofText_toml (hbits : s.sampling.HasBits) (hs : s.IsValid) {text : String}
    (htext : s.toText t .toml = .ok text) : ofText t .toml text = .ok s := by
  have hread := read?_toRecord Toml.isRead_form hbits fun x _ =>
    congrArg some (Number.narrow_widen x)
  unfold toText toToml? at htext
  dsimp only at htext
  split_ifs at htext with hrun
  cases htext
  unfold ofText
  rw [ofText?_sections hbits (not_lt.1 hrun)]
  show (match read? (s.toRecord Toml.form) with
    | some s => s.checked
    | none => .error .toml) = _
  rw [hread]
  exact checked_of_isValid hs

/-- What is loaded is read from the text that was saved. -/
theorem exists_load (hformat : SettingsFormat.ofPath path = .ok format)
    (hsave : (s.saveBy t path : StateM FileStore _).run store = (.ok (), store')) :
    ∃ text, s.IsValid ∧ s.toText t format = .ok text ∧
      (loadBy t path : StateM FileStore _).run store' = (ofText t format text, store') := by
  obtain ⟨text, opened, hsaved, hwrite⟩ := exists_of_save hsave
  obtain ⟨hs, htext⟩ := of_savedText hsaved hformat
  have hload := load_of_read (t := t) hformat (FileStore.read_of_write hwrite)
  rw [ofContent_ofText] at hload
  exact ⟨text, hs, htext, hload⟩

/-- Settings whose finite numbers are kept in JSON are read back from it where all are finite. -/
theorem read?_toJson (hbits : s.sampling.HasBits)
    (hkeeps : ∀ x ∈ s.numbers, x.isFinite = true → t.Keeps x)
    (hfinite : ∀ x ∈ s.numbers, x.isFinite = true) :
    @read? Json (Json.recordValue t) (s.toJson t) = some s := by
  refine @read?_toRecord Json (Json.recordValue t) _ (Json.isRead_form t) s hbits fun x hx => ?_
  show Json.singleBy? t.read? (.ofSingleBy t.print x) = some x
  rw [Json.ofSingleBy_of_isFinite _ (hfinite x hx)]
  exact (hkeeps x hx (hfinite x hx)).read?

/-- What is saved is loaded as it was, with one exception: where JSON has no text for a coordinate,
no settings are loaded. This holds however the finite numbers of the settings are kept in JSON; a
program keeps the shortest text of each (`save`, `load`). -/
theorem load_of_save (hbits : s.sampling.HasBits)
    (hformat : SettingsFormat.ofPath path = .ok format)
    (hkeeps : format = .json → ∀ x ∈ s.numbers, x.isFinite = true → t.Keeps x)
    (hsave : (s.saveBy t path : StateM FileStore _).run store = (.ok (), store')) :
    ((format = .toml ∨ ∀ p ∈ s.machine.initialPosition :: s.machine.workOffsets, p.IsFinite) →
        (loadBy t path : StateM FileStore _).run store' = (.ok s, store')) ∧
      (format = .json → (∃ p ∈ s.machine.initialPosition :: s.machine.workOffsets, ¬ p.IsFinite) →
        (loadBy t path : StateM FileStore _).run store' = (.error .json, store')) := by
  obtain ⟨text, hs, htext, hload⟩ := exists_load hformat hsave
  rw [hload]
  cases format with
  | toml =>
    exact ⟨fun _ => by rw [ofText_toml hbits hs htext], fun h => SettingsFormat.noConfusion h⟩
  | json =>
    rw [ofText_json (hkeeps rfl) htext]
    refine ⟨fun h => ?_, fun _ h => ?_⟩
    · have hfinite := (forall_numbers_iff hs).2 (h.resolve_left SettingsFormat.noConfusion)
      rw [read?_toJson hbits (hkeeps rfl) hfinite]
      dsimp only
      rw [checked_of_isValid hs]
    · obtain ⟨x, hx, hnot⟩ : ∃ x ∈ s.numbers, ¬ x.isFinite = true := by
        by_contra hall
        obtain ⟨p, hp, hnot⟩ := h
        refine hnot ((forall_numbers_iff hs).1 (fun x hx => ?_) p hp)
        by_contra hfinite
        exact hall ⟨x, hx, hfinite⟩
      rw [read?_toJson_eq_none hx hnot]

/-- The extension of JSON asks for its format. -/
theorem ofPath_json (h : extensionOf? path = some "json") :
    SettingsFormat.ofPath path = .ok .json := by
  simp [SettingsFormat.ofPath, h]

/-- Accepted settings are saved where a file can be written. -/
theorem save_of_write (hs : s.IsValid) (hformat : SettingsFormat.ofPath path = .ok .json)
    (hparent : (parentOf path).isEmpty = true)
    (hwrite : store.write path (.ofText (s.toJson t).toPrettyText) = .ok store') :
    (s.saveBy t path : StateM FileStore _).run store = (.ok (), store') := by
  have hsaved : s.savedText t path = .ok (s.toJson t).toPrettyText := by
    unfold savedText
    rw [checked_of_isValid hs]
    show (SettingsFormat.ofPath path).bind _ = _
    rw [hformat]
    rfl
  unfold saveBy
  rw [hsaved]
  dsimp only
  rw [if_pos hparent, pure_bind]
  dsimp only
  rw [StateT.run_bind, FileStore.run_write, hwrite]
  rfl

/-- A store with nothing in it. -/
def emptyStore : FileStore := ⟨[], [], []⟩

theorem write_emptyStore (content : FileContent) :
    emptyStore.write "c.json" content = .ok (emptyStore.withFile ["c.json"] content) := by
  have htarget : emptyStore.target "c.json" = .ok ["c.json"] := by decide +kernel
  exact bind_eq_ok.2 ⟨_, htarget, rfl⟩

/-- The default settings are loaded as they were saved. -/
theorem load_of_save_default : ∃ store',
    ((Settings.default : Settings Float32).save "c.json" : StateM FileStore _).run emptyStore =
        (.ok (), store') ∧
      (load "c.json" : StateM FileStore _).run store' = (.ok .default, store') := by
  have hvalid : (Settings.default : Settings Float32).validate = .ok () := by decide +kernel
  have hformat := ofPath_json (show extensionOf? "c.json" = some "json" by decide +kernel)
  have hbits : (Settings.default : Settings Float32).sampling.HasBits :=
    ⟨by decide, by decide, by decide, by decide⟩
  have hsave := save_of_write (t := .shortest) (validate_eq_ok.1 hvalid) hformat (by decide +kernel)
    (write_emptyStore _)
  have hread : ∀ x ∈ (Settings.default : Settings Float32).numbers,
      x.isFinite = true → Json.single? (.ofSingle x) = some x := by
    decide +kernel
  have hfinite : ∀ x ∈ (Settings.default : Settings Float32).numbers, x.isFinite = true := by
    decide +kernel
  have hkeeps := fun x hx hfinite => Json.keeps_shortest hfinite (hread x hx hfinite)
  exact ⟨_, hsave, (load_of_save hbits hformat (fun _ => hkeeps) hsave).1
    (.inr ((forall_numbers_iff (validate_eq_ok.1 hvalid)).1 hfinite))⟩

/-- Settings that start at an infinite coordinate. -/
def overflownStart : Settings Float32 :=
  { Settings.default with
    machine := { MachineSettings.default with initialPosition := ⟨1e39, 0.0, 0.0⟩ } }

/-- An infinite coordinate is saved, but the file is not loaded. -/
theorem load_overflownStart : overflownStart.sampling.HasBits ∧ ∃ store',
    (overflownStart.save "c.json" : StateM FileStore _).run emptyStore = (.ok (), store') ∧
      (load "c.json" : StateM FileStore _).run store' = (.error .json, store') := by
  have hvalid : overflownStart.validate = .ok () := by decide +kernel
  have hformat := ofPath_json (show extensionOf? "c.json" = some "json" by decide +kernel)
  have hbits : overflownStart.sampling.HasBits := ⟨by decide, by decide, by decide, by decide⟩
  have hsave := save_of_write (t := .shortest) (validate_eq_ok.1 hvalid) hformat (by decide +kernel)
    (write_emptyStore _)
  have hread : ∀ x ∈ overflownStart.numbers,
      x.isFinite = true → Json.single? (.ofSingle x) = some x := by
    decide +kernel
  have hkeeps := fun x hx hfinite => Json.keeps_shortest hfinite (hread x hx hfinite)
  obtain ⟨text, -, htext, hload⟩ := exists_load hformat hsave
  have hmem : 1e39 ∈ overflownStart.numbers :=
    List.mem_append_left _ (List.mem_append_left _ (List.mem_append_right _ List.mem_cons_self))
  have hinfinite : ¬ Float32.isFinite 1e39 = true := by decide +kernel
  rw [ofText_json hkeeps htext, read?_toJson_eq_none hmem hinfinite] at hload
  exact ⟨hbits, _, hsave, hload⟩

end Settings

end Toolpath
