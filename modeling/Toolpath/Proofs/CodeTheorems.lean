import Toolpath.Proofs.TenthTheorems
import Toolpath.Proofs.SpellingTheorems
import Toolpath.Proofs.AccountTheorems

/-!
# Codes by their numbers

The table of codes is one of texts, and a code word gives a number. `codeTable` is the table by the
values of its codes, and `Word.effect?` is what it has for the number of a word in whole tenths.

* Looking a number up by its text comes to the same as looking it up by its tenths
  (`Effect.ofCode?_codeText`).
* A word has the effect of a code whose number it gives in whatever spelling, and of no code that it
  does not round to (`Word.meansItsNumber`).
* So a block sets the modes that the numbers of its code words stand for, and reports the numbers
  that stand for none (`Machine.execute_codeWords`).
-/

namespace Toolpath

open Number (Datum Ratio Decimal doubleDatum)

variable {α : Type}

/-! ## The table by value -/

/-- The number of tenths that a decimal is, if it has at most one digit behind the point. -/
def Number.Decimal.tenths? (d : Decimal) : Option ℤ :=
  if -1 ≤ d.exponent then
    some ((if d.negative then -1 else 1) * (d.digits * 10 ^ (d.exponent + 1).toNat))
  else none

theorem Number.Decimal.cast_of_tenths? {d : Decimal} {t : ℤ} (h : d.tenths? = some t) :
    (t : ℝ) = (10 : ℕ) * d.toReal := by
  unfold tenths? at h
  by_cases hplace : -1 ≤ d.exponent
  · rw [if_pos hplace, Option.some_inj] at h
    obtain ⟨k, hk⟩ : ∃ k : ℕ, d.exponent + 1 = k := ⟨(d.exponent + 1).toNat, by omega⟩
    have hpower : (10 : ℝ) * 10 ^ d.exponent = 10 ^ k := by
      rw [← zpow_natCast, ← hk, zpow_add₀ (by norm_num), zpow_one, mul_comm]
    rw [← h, hk, Int.toNat_natCast]
    unfold toReal magnitude
    push_cast
    rw [← hpower]
    ring
  · rw [if_neg hplace] at h
    cases h

/-- The codes of the table by value. -/
def codeTable : List (Decimal × Effect) :=
  modalTable.filterMap fun row => (Decimal.ofChars? row.1.toList).map fun code => (code, row.2)

/-- No row is lost on the way. -/
example : codeTable.map Prod.snd = modalTable.map Prod.snd := by decide +kernel

/-- The effect of the code that is so many tenths, if the table has it. -/
def Effect.ofTenths? (t : ℤ) : Option Effect :=
  (codeTable.find? fun code => code.1.tenths? = some t).map Prod.snd

/-- The effect that the number of a word stands for, in whole tenths. -/
def Word.effect? (w : Word) : Option Effect :=
  (Number.tenths? w.codeValue).bind Effect.ofTenths?

/-- A row has the text of its tenths, and a tenth of so many is written so. -/
theorem tenths_of_mem_modalTable : ∀ row ∈ modalTable,
    ((Decimal.ofChars? row.1.toList).bind Decimal.tenths?).any (fun t =>
      decide (0 ≤ t ∧ t < 1000 ∧ tenthsText t.toNat = row.1 ∧
        datumText (doubleDatum (Number.doubleOfRatio false (.ofNat t.toNat) / 10.0)) = row.1)) =
      true := by
  decide +kernel

theorem ofCode?_of_mem : ∀ row ∈ modalTable, Effect.ofCode? row.1 = some row.2 := by
  decide +kernel

/-- A code is found by its tenths, which are also those of the number nearest to it. -/
theorem tenths_of_mem_codeTable : ∀ code ∈ codeTable,
    code.1.tenths?.any (fun t => decide (0 ≤ t ∧ t < 1000 ∧ Effect.ofTenths? t = some code.2 ∧
      Number.tenths? code.1.toDouble = some t)) = true := by
  decide +kernel

/-- What a row says in its text and by the value of the text. -/
theorem exists_of_mem_modalTable {row : String × Effect} (h : row ∈ modalTable) :
    ∃ code, ∃ t : ℕ, Decimal.ofChars? row.1.toList = some code ∧ code.tenths? = some (t : ℤ) ∧
      t < 1000 ∧ tenthsText t = row.1 ∧
      datumText (doubleDatum (Number.doubleOfRatio false (.ofNat t) / 10.0)) = tenthsText t := by
  obtain ⟨t, ht, hfacts⟩ := (Option.any_eq_true _ _).1 (tenths_of_mem_modalTable row h)
  obtain ⟨hlow, hhigh, htext, hdatum⟩ := of_decide_eq_true hfacts
  obtain ⟨code, hcode, htenths⟩ := Option.bind_eq_some_iff.1 ht
  obtain ⟨n, rfl⟩ := Int.eq_ofNat_of_zero_le hlow
  rw [Int.toNat_natCast] at htext hdatum
  exact ⟨code, n, hcode, htenths, by omega, htext, hdatum.trans htext.symm⟩

theorem exists_of_mem_codeTable {code : Decimal × Effect} (h : code ∈ codeTable) :
    ∃ t : ℤ, code.1.tenths? = some t ∧ |(t : ℝ)| ≤ 1000 ∧ Effect.ofTenths? t = some code.2 ∧
      Number.tenths? code.1.toDouble = some t := by
  obtain ⟨t, ht, hfacts⟩ := (Option.any_eq_true _ _).1 (tenths_of_mem_codeTable code h)
  obtain ⟨hlow, hhigh, heffect, hdouble⟩ := of_decide_eq_true hfacts
  refine ⟨t, ht, ?_, heffect, hdouble⟩
  rw [← Int.cast_abs, abs_of_nonneg hlow]
  exact_mod_cast hhigh.le

theorem exists_of_ofTenths? {t : ℤ} {effect : Effect} (h : Effect.ofTenths? t = some effect) :
    ∃ code ∈ codeTable, code.1.tenths? = some t ∧ code.2 = effect := by
  obtain ⟨code, hfind, rfl⟩ := Option.map_eq_some_iff.1 h
  have htenths :=
    List.find?_some (p := fun code : Decimal × Effect => code.1.tenths? = some t) hfind
  exact ⟨code, List.mem_of_find?_eq_some hfind, of_decide_eq_true htenths, rfl⟩

/-! ## Looking numbers up -/

/-- A number of the tenths of a row has the text of the row. -/
theorem bind_ofTenths?_of_codeText_ne {x : Float} (h : ∀ row ∈ modalTable, codeText x ≠ row.1) :
    (Number.tenths? x).bind Effect.ofTenths? = none := by
  rw [Option.bind_eq_none_iff]
  intro t ht
  by_contra hsome
  obtain ⟨effect, heffect⟩ := Option.ne_none_iff_exists'.1 hsome
  obtain ⟨code, hcode, htenths, -⟩ := exists_of_ofTenths? heffect
  obtain ⟨row, hmem, hrow⟩ := List.mem_filterMap.1 hcode
  obtain ⟨own, n, hown, hn, -, htext, hdatum⟩ := exists_of_mem_modalTable hmem
  rw [hown, Option.map_some, Option.some_inj] at hrow
  cases hrow
  rw [hn, Option.some_inj] at htenths
  rw [← htenths] at ht
  exact h row hmem ((codeText_of_tenths? ht hdatum).trans htext)

/-- A number is found by its text as it is by its tenths. -/
theorem Effect.ofCode?_codeText (x : Float) :
    ofCode? (codeText x) = (Number.tenths? x).bind ofTenths? := by
  by_cases hrow : ∃ row ∈ modalTable, codeText x = row.1
  · obtain ⟨row, hmem, htext⟩ := hrow
    obtain ⟨code, t, hcode, htenths, ht, hrow, -⟩ := exists_of_mem_modalTable hmem
    have hcodes : (code, row.2) ∈ codeTable :=
      List.mem_filterMap.2 ⟨row, hmem, by rw [hcode, Option.map_some]⟩
    obtain ⟨u, hu, -, heffect, -⟩ := exists_of_mem_codeTable hcodes
    obtain rfl : (t : ℤ) = u := Option.some_inj.1 (htenths.symm.trans hu)
    rw [Number.tenths?_of_codeText ht (htext.trans hrow.symm), htext, ofCode?_of_mem row hmem,
      Option.bind_some, heffect]
  · push Not at hrow
    rw [bind_ofTenths?_of_codeText_ne hrow]
    unfold ofCode?
    rw [List.lookup_eq_none_iff]
    exact fun row hmem => bne_iff_ne.2 (hrow row hmem)

theorem Word.ofCode?_code (w : Word) : Effect.ofCode? w.code = w.effect? :=
  Effect.ofCode?_codeText w.codeValue

/-! ## What words mean -/

/-- What a code word does is what its number says, rounded to whole tenths. The rounding is off by
the error of one product. -/
structure Word.MeansItsNumber (w : Word) : Prop where
  /-- A number that rounds to a code has the effect of the code. -/
  rounded : ∀ code ∈ codeTable, ∀ t : ℤ, Number.tenths? w.codeValue = some t →
    (t : ℝ) = (10 : ℕ) * code.1.toReal → w.effect? = some code.2
  /-- A number that rounds to no code has no effect. -/
  other : (∀ code ∈ codeTable, ∀ t : ℤ, Number.tenths? w.codeValue = some t →
    (t : ℝ) ≠ (10 : ℕ) * code.1.toReal) → w.effect? = none
  /-- A number that equals a code has the effect of the code. -/
  equal : ∀ code ∈ codeTable, (w.codeValue == code.1.toDouble) = true → w.effect? = some code.2
  /-- It has it in whatever spelling. -/
  spelled : ∀ code ∈ codeTable, ∀ d, Decimal.ofChars? (trimBlanks w.raw.toList) = some d →
    d.toReal = code.1.toReal → w.effect? = some code.2
  /-- Numbers within half a tenth of a code round to it. -/
  near : ∀ code ∈ codeTable, (doubleDatum w.codeValue).isFinite = true →
    (10 : ℕ) * |(doubleDatum w.codeValue).toReal - code.1.toReal| < 1 / 2 - 2 ^ (-40 : ℤ) →
    w.effect? = some code.2
  /-- Numbers more than half a tenth away from all codes round to none. -/
  far : ((doubleDatum w.codeValue).isFinite = true → ∀ code ∈ codeTable,
    1 / 2 + 2 ^ (-40 : ℤ) < (10 : ℕ) * |(doubleDatum w.codeValue).toReal - code.1.toReal|) →
    w.effect? = none

/-- A zero of either sign is no tenths. -/
theorem Number.tenths?_zero (negative : Bool) :
    tenths? (doubleOfRatio negative (.ofNat 0)) = some 0 := by
  cases negative <;> decide +kernel

/-- The number nearest to a decimal has tenths that depend on the value of the decimal only. -/
theorem Number.tenths?_toDouble_congr {d d' : Decimal} (h : d.toReal = d'.toReal) :
    tenths? d.toDouble = tenths? d'.toDouble := by
  have hzero : ∀ d : Decimal, d.digits = 0 → tenths? d.toDouble = some 0 := fun d hd => by
    unfold Decimal.toDouble
    dsimp only
    rw [if_pos (.inl hd), tenths?_zero]
  rcases Decimal.toDouble_eq_of_toReal_eq h with heq | ⟨hd, hd'⟩
  · rw [heq]
  · rw [hzero d hd, hzero d' hd']

theorem abs_ten_mul_sub (x y : ℝ) : |10 * x - (10 : ℕ) * y| = (10 : ℕ) * |x - y| := by
  rw [Nat.cast_ofNat, ← mul_sub, abs_mul, abs_of_pos (by norm_num : (0 : ℝ) < 10)]

namespace Word

variable {w : Word} {code : Decimal × Effect}

theorem effect?_of_tenths? (hcode : code ∈ codeTable)
    (h : Number.tenths? w.codeValue = Number.tenths? code.1.toDouble) :
    w.effect? = some code.2 := by
  obtain ⟨t, -, -, heffect, hdouble⟩ := exists_of_mem_codeTable hcode
  unfold effect?
  rw [h, hdouble, Option.bind_some, heffect]

/-- A word with an effect rounds to the code of the effect. -/
theorem exists_of_effect? {effect : Effect} (h : w.effect? = some effect) :
    ∃ code ∈ codeTable, ∃ t : ℤ, Number.tenths? w.codeValue = some t ∧ |(t : ℝ)| ≤ 1000 ∧
      (t : ℝ) = (10 : ℕ) * code.1.toReal := by
  obtain ⟨t, ht, heffect⟩ := Option.bind_eq_some_iff.1 h
  obtain ⟨code, hcode, htenths, -⟩ := exists_of_ofTenths? heffect
  obtain ⟨u, hu, hsmall, -, -⟩ := exists_of_mem_codeTable hcode
  obtain rfl : t = u := Option.some_inj.1 (htenths.symm.trans hu)
  exact ⟨code, hcode, t, ht, hsmall, Decimal.cast_of_tenths? htenths⟩

theorem codeValue_of_spelled {d : Decimal} (h : Decimal.ofChars? (trimBlanks w.raw.toList) = some d)
    (hfinite : (doubleDatum d.toDouble).isFinite = true) : w.codeValue = d.toDouble := by
  unfold codeValue spelled?
  rw [h, Option.map_some, Option.filter_some, Double.isFinite_eq, if_pos hfinite, Option.getD_some]

/-- A code word does what its number says. -/
theorem meansItsNumber (w : Word) : w.MeansItsNumber where
  rounded code hcode t ht hvalue := by
    obtain ⟨u, hu, -, -, hdouble⟩ := exists_of_mem_codeTable hcode
    -- codes are told apart by their tenths
    have heq : t = u := by exact_mod_cast hvalue.trans (Decimal.cast_of_tenths? hu).symm
    exact effect?_of_tenths? hcode (by rw [ht, hdouble, heq])
  other h := by
    by_contra hsome
    obtain ⟨effect, heffect⟩ := Option.ne_none_iff_exists'.1 hsome
    obtain ⟨code, hcode, t, ht, -, hvalue⟩ := exists_of_effect? heffect
    exact h code hcode t ht hvalue
  equal code hcode h := effect?_of_tenths? hcode (Number.tenths?_eq_of_beq h)
  spelled code hcode d hd hvalue := by
    have htenths := Number.tenths?_toDouble_congr hvalue
    obtain ⟨t, -, -, -, hdouble⟩ := exists_of_mem_codeTable hcode
    have hfinite := (Number.near_of_tenths? (htenths.trans hdouble)).1
    exact effect?_of_tenths? hcode (by rw [codeValue_of_spelled hd hfinite, htenths])
  near code hcode hfinite hnear := by
    obtain ⟨t, ht, hsmall, -, hdouble⟩ := exists_of_mem_codeTable hcode
    have hnear' : |10 * (doubleDatum w.codeValue).toReal - t| < 1 / 2 - 2 ^ (-40 : ℤ) := by
      rwa [Decimal.cast_of_tenths? ht, abs_ten_mul_sub]
    have hround := Number.tenths?_of_abs_sub_lt hfinite hsmall hnear'
    exact effect?_of_tenths? hcode (by rw [hround, hdouble])
  far h := by
    by_contra hsome
    obtain ⟨effect, heffect⟩ := Option.ne_none_iff_exists'.1 hsome
    obtain ⟨code, hcode, t, ht, hsmall, hvalue⟩ := exists_of_effect? heffect
    have hfar := h (Number.near_of_tenths? ht).1 code hcode
    have hround := Number.abs_sub_le_of_tenths? ht hsmall
    rw [hvalue, abs_ten_mul_sub] at hround
    exact hfar.not_ge hround

/-- The problem of a code word whose number has no effect, which only a strict reading reports. -/
def problem? (strictness : Strictness) (line : ℕ) (w : Word) : Option (Problem α) :=
  match strictness, w.effect? with
  | .lenient, _ => none
  | .strict, none => some (.unknownCode line w.code)
  | .strict, some .unsupported => some (.unsupportedCode line w.code)
  | .strict, some _ => none

theorem codeProblem?_code (strictness : Strictness) (line : ℕ) (w : Word) :
    (Machine.codeProblem? strictness line w.code : Option (Problem α)) =
      w.problem? strictness line := by
  have hcode := w.ofCode?_code
  unfold Machine.codeProblem? problem?
  generalize w.effect? = effect at hcode ⊢
  subst hcode
  rfl

end Word

/-! ## Execution -/

namespace Machine

variable [Scalar α]

theorem prepared_eq (m : Machine α) (s : Settings α) (b : Block) :
    m.prepared s b = (b.codeWords.filterMap Word.effect?).foldl applyEffect (m.applyFeed b).1 := by
  unfold prepared
  rw [applyCodes_fst]
  unfold Block.effects
  simp only [Word.ofCode?_code]

theorem reports_eq_append (m : Machine α) (s : Settings α) (b : Block) :
    m.reports s b =
      (m.applyFeed b).2 ++ b.codeWords.filterMap (Word.problem? s.strictness b.line) := by
  unfold reports applyCodes
  simp only [Word.codeProblem?_code]

/-- A block sets the modes that the numbers of its code words stand for, in order, and reports the
words whose numbers stand for none. -/
theorem execute_codeWords (m : Machine α) (s : Settings α) (b : Block) :
    (∃ position, (m.execute s b).machine =
      { (b.codeWords.filterMap Word.effect?).foldl applyEffect (m.applyFeed b).1 with
        position }) ∧
    (∃ lost, (m.execute s b).problems = (m.applyFeed b).2 ++
        b.codeWords.filterMap (Word.problem? s.strictness b.line) ++ lost ∧
      ∀ problem ∈ lost, problem.dropsMotion = true) ∧
    ∀ w ∈ b.codeWords, w.MeansItsNumber := by
  rw [← m.prepared_eq s b, ← m.reports_eq_append s b]
  refine ⟨?_, ?_, fun w _ => w.meansItsNumber⟩
  · rcases hmotion : (m.prepared s b).motionOf s.machine b with problem | _ | move
    · exact ⟨_, by rw [execute_of_error hmotion]⟩
    · exact ⟨_, by rw [execute_of_none hmotion]⟩
    · exact ⟨_, by rw [execute_of_some hmotion]⟩
  · rcases hmotion : (m.prepared s b).motionOf s.machine b with problem | _ | move
    · refine ⟨[problem], by rw [execute_of_error hmotion], fun other hother => ?_⟩
      rw [List.mem_singleton.1 hother]
      exact (losesArc_iff.2 hmotion).dropsMotion.2
    · exact ⟨[], by rw [execute_of_none hmotion, List.append_nil], nofun⟩
    · exact ⟨[], by rw [execute_of_some hmotion, List.append_nil], nofun⟩

/-- Two codes in other spellings than those of the table, and a number that is no code. -/
def spelledBlock : Block := ⟨3, [.ofText 'G' 1.0 "01", .ofText 'G' 59.1 " 59.10", .ofValue 'G' 5.0]⟩

/-- The two codes have their effects, and a strict reading reports the number. -/
theorem execute_codeWords_spelledBlock :
    (∃ position, ((initial (Settings.default : Settings Float32)).execute
      { Settings.default with strictness := .strict } spelledBlock).machine =
        { initial (Settings.default : Settings Float32) with
          motion := .linear, origin := 7, position }) ∧
    (∃ lost, ((initial (Settings.default : Settings Float32)).execute
      { Settings.default with strictness := .strict } spelledBlock).problems =
        .unknownCode 3 "5" :: lost ∧ ∀ problem ∈ lost, problem.dropsMotion = true) ∧
    ∀ w ∈ spelledBlock.codeWords, w.MeansItsNumber := by
  have heffects : spelledBlock.codeWords.filterMap Word.effect? = [.motion .linear, .origin 7] := by
    decide +kernel
  have hproblems : spelledBlock.codeWords.filterMap (Word.problem? .strict 3) =
      [(.unknownCode 3 "5" : Problem Float32)] := by
    decide +kernel
  obtain ⟨⟨position, hmachine⟩, ⟨lost, hlost, hdrops⟩, hwords⟩ :=
    execute_codeWords (initial (Settings.default : Settings Float32))
      { Settings.default with strictness := .strict } spelledBlock
  rw [heffects] at hmachine
  rw [show spelledBlock.line = 3 from rfl, hproblems] at hlost
  exact ⟨⟨position, hmachine⟩, ⟨lost, hlost, hdrops⟩, hwords⟩

/-- A number that is no code, but rounds to one. -/
def roughWord : Word := .ofValue 'G' 1.04

/-- A number that equals no code sets the mode of the code it rounds to, and a strict reading does
not report it. -/
theorem execute_roughWord :
    (∀ code ∈ codeTable, (roughWord.codeValue == code.1.toDouble) = false) ∧
      (initial (Settings.default : Settings Float32)).motion = .rapid ∧
      ((initial (Settings.default : Settings Float32)).execute
        { Settings.default with strictness := .strict } ⟨1, [roughWord]⟩).machine.motion = .linear ∧
      ((initial (Settings.default : Settings Float32)).execute
        { Settings.default with strictness := .strict } ⟨1, [roughWord]⟩).problems = [] := by
  decide +kernel

end Machine

end Toolpath
