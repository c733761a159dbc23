import Toolpath.Proofs.ClockTheorems
import Toolpath.Proofs.OutcomeTheorems
import Toolpath.Proofs.TallyTheorems
import Toolpath.Report

/-!
# Minus signs in reports

A number is written with a minus sign exactly if it has the negative sign, be it zero
(`Number.minus_mem_fixedText`). No length of a move has that sign, and no sum of lengths but that of
none. The time is a sum that starts from the other zero, which no sum comes back from
(`Single.parts_add_ne`), and what is below zero is shown as zero.

So the time of a simulation is written without a minus sign, and its length is written with one
exactly where there is no move (`Simulation.minus_mem_lines`).
-/

namespace Toolpath

open Float.Model (UnpackedFloat)
open Number (Datum singleDatum padZeros fixedText pointText)
open Binary (IsUnsigned)

/-! ## Texts -/

theorem minus_notMem_toString (n : ℕ) : '-' ∉ (toString n).toList := fun h =>
  absurd (isDigit_of_mem h) (by decide)

theorem minus_notMem_append {a b : String} (ha : '-' ∉ a.toList) (hb : '-' ∉ b.toList) :
    '-' ∉ (a ++ b).toList := by
  rw [String.toList_append]
  exact fun h => (List.mem_append.1 h).elim ha hb

theorem minus_notMem_padZeros {text : String} (h : '-' ∉ text.toList) (width : ℕ) :
    '-' ∉ (padZeros width text).toList := by
  refine minus_notMem_append (fun hzero => ?_) h
  rw [String.toList_ofList] at hzero
  exact absurd (List.eq_of_mem_replicate hzero) (by decide)

/-- A number is written with a minus sign exactly if it has the negative sign. -/
theorem Number.minus_mem_fixedText (places : ℕ) (d : Datum) :
    '-' ∈ (fixedText places d).toList ↔ d.isNegative = true := by
  have hpoint : ∀ digits, '-' ∉ (pointText places digits).toList := fun digits h =>
    (mem_pointText h).elim (absurd · (by decide)) (absurd · (by decide))
  cases d with
  | nan => exact iff_of_false (by show '-' ∉ "NaN".toList; decide) Bool.false_ne_true
  | infinite negative =>
    cases negative with
    | false => exact iff_of_false (by show '-' ∉ "inf".toList; decide) Bool.false_ne_true
    | true => exact iff_of_true (by show '-' ∈ "-inf".toList; decide) rfl
  | finite negative m e =>
    unfold fixedText Datum.isNegative
    dsimp only
    rw [String.toList_append, List.mem_append, or_iff_left (hpoint _)]
    cases negative <;> decide

/-! ## Times -/

namespace Single

/-- No number but zero is rounded to zero in a sum. -/
theorem parts_normalize_ne (m : ℤ) {e : ℤ} (he : -149 ≤ e) :
    parts (ofParts (UnpackedFloat.normalize .binary32 m e .positive)) ≠ .zero .negative := by
  unfold UnpackedFloat.normalize
  split
  case h_1 hlt =>
    intro heq
    have hneg := compare_lt_iff_lt.1 hlt
    obtain ⟨y, hnearest, -, ⟨hinfinity, -⟩ | ⟨-, -, hvalue⟩⟩ := isNearest_ofParts
      (@Binary.isRounded_exact .binary32 (-m).toNat .negative (by omega) e)
    · exact absurd (hinfinity.symm.trans heq) nofun
    · rw [heq] at hvalue
      obtain rfl : 0 = y := abs_zero.symm.trans hvalue
      -- the least value above zero is not above the sum
      have hleast := @Binary.isValue_of_lt .binary32 1 (-149) (by decide) le_rfl
      have hone : (1 : ℝ) ≤ (-m).toNat := by exact_mod_cast (by omega : 1 ≤ (-m).toNat)
      have hle := hnearest.value_le _ hleast (by
        rw [Nat.cast_one]
        exact mul_le_mul hone (zpow_le_zpow_right₀ one_le_two he) (by positivity) (by positivity))
      have hpos : (0 : ℝ) < (1 : ℕ) * 2 ^ (-149 : ℤ) := by positivity
      exact absurd hle hpos.not_ge
  case h_2 =>
    exact fun heq => absurd ((Binary.unpack_zero .binary32 .positive).symm.trans heq) nofun
  case h_3 =>
    intro heq
    have hround : HasSign .positive (UnpackedFloat.round .binary32 .positive m.toNat e) :=
      hasSign_round _ _ _ _
    have hsign := hasSign_ofParts hround
    rw [heq] at hsign
    cases hsign

/-- The negative zero is a sum of negative zeros only. -/
theorem parts_add_ne {x y : Float32} (hx : parts x ≠ .zero .negative) :
    parts (x + y) ≠ .zero .negative := by
  show parts (ofParts ((parts x).add .binary32 (parts y))) ≠ _
  intro heq
  obtain ⟨hfx, hfy⟩ := isFinite_of_add (isFinite_of_ofParts (by rw [heq]; rfl))
  obtain ⟨s, hu⟩ | ⟨s, m, e, hm, he, hu⟩ := parts_of_isFinite hfx <;>
    obtain ⟨t, hv⟩ | ⟨t, m', e', hm', he', hv⟩ := parts_of_isFinite hfy <;> rw [hu, hv] at heq
  · cases s with
    | negative => exact hx hu
    | positive =>
      have hzero : (UnpackedFloat.zero .positive).add .binary32 (.zero t) = .zero .positive := by
        cases t <;> rfl
      rw [hzero] at heq
      exact absurd ((Binary.unpack_zero .binary32 .positive).symm.trans heq) nofun
  · exact absurd ((Binary.unpack_pack t hm' he').symm.trans heq) nofun
  · exact absurd ((Binary.unpack_pack s hm he).symm.trans heq) nofun
  · exact parts_normalize_ne _ (le_min hm.le hm'.le) heq

theorem parts_sum_ne {times : List Float32} {start : Float32} (h : parts start ≠ .zero .negative) :
    parts (times.foldl (· + ·) start) ≠ .zero .negative := by
  induction times generalizing start with
  | nil => exact h
  | cons time rest ih => exact ih (parts_add_ne h)

/-- What is shown of a time is not below zero, and zero has no sign unless the time has. -/
theorem isUnsigned_greatest {x : Float32} (h : parts x ≠ .zero .negative) :
    IsUnsigned (parts (Scalar.greatest x 0.0)) := by
  unfold Scalar.greatest
  split_ifs with hlt hself
  · exact .inr rfl
  · have hne := isNumber_iff.1 hself
    rw [lt_zero_iff] at hlt
    generalize parts x = u at h hne hlt
    rcases u with s | _ | s | ⟨s, m, e, hm⟩ <;> (try cases s) <;>
      first
        | exact .inr rfl
        | exact absurd rfl hne
        | exact absurd rfl h
        | exact absurd trivial hlt
  · exact .inr rfl

/-- A rest has the sign of the dividend. -/
theorem isNegative_remainder {x : Float32} (h : IsUnsigned (parts x)) (c : ℕ) :
    (singleDatum (Number.remainder x c)).isNegative = false := by
  rw [singleDatum_eq, ← Binary.isUnsigned_iff]
  have hdatum : (singleDatum x).isNegative = false := by
    rwa [singleDatum_eq, ← Binary.isUnsigned_iff]
  unfold Number.remainder
  split
  · rename_i negative m e hfinite
    rw [hfinite] at hdatum
    obtain rfl : negative = false := hdatum
    apply isUnsigned_ofBits
    unfold Number.BinaryFormat.encode
    rw [withSign_false]
    exact encodeMagnitude_lt _
  · exact isUnsigned_singleOfDatum rfl

end Single

/-- A time is written without a minus sign, unless it is the negative zero. -/
theorem minus_notMem_durationText {x : Float32} (h : Single.parts x ≠ .zero .negative) :
    '-' ∉ (durationText x).toList := by
  have hunsigned := Single.isUnsigned_greatest h
  unfold durationText
  dsimp only
  generalize Scalar.greatest x 0.0 = y at hunsigned
  have hrest : '-' ∉ (padNumber 4 (fixedText 1 (singleDatum (Number.remainder y 60)))).toList := by
    have htext : '-' ∉ (fixedText 1 (singleDatum (Number.remainder y 60))).toList := by
      rw [Number.minus_mem_fixedText, Single.isNegative_remainder hunsigned]
      exact Bool.false_ne_true
    rw [Clock.padNumber_of_notMem htext]
    exact minus_notMem_padZeros htext 4
  have hcolon : '-' ∉ ":".toList := by decide
  have hminutes := minus_notMem_toString (Number.countOfSingle (Number.remainder y 3600 / 60.0))
  split_ifs
  · exact minus_notMem_append (minus_notMem_append (minus_notMem_append (minus_notMem_append
      (minus_notMem_toString _) hcolon) (minus_notMem_padZeros hminutes 2)) hcolon) hrest
  · exact minus_notMem_append (minus_notMem_append hminutes hcolon) hrest

/-! ## Lengths -/

namespace Single

/-- A sum of lengths has no sign, unless it is the sum of none. -/
theorem isUnsigned_sum {lengths : List Float32} (hne : lengths ≠ [])
    (h : ∀ x ∈ lengths, IsUnsigned (parts x)) : IsUnsigned (parts (Scalar.sum lengths)) := by
  obtain ⟨first, rest, rfl⟩ := List.exists_cons_of_ne_nil hne
  have hstart : IsUnsigned (parts (-(0.0 : Float32) + first)) :=
    (h first List.mem_cons_self).negZero_add.unpack_pack
  have hrest := List.forall_mem_of_forall_mem_cons h
  unfold Scalar.sum
  rw [List.foldl_cons]
  generalize -(0.0 : Float32) + first = start at hstart
  clear h hne
  induction rest generalizing start with
  | nil => exact hstart
  | cons next rest ih =>
    exact ih (List.forall_mem_of_forall_mem_cons hrest) _
      (isUnsigned_add hstart (hrest next List.mem_cons_self))

end Single

theorem Move.isUnsigned_courseLength (m : Move Float32) :
    IsUnsigned (Single.parts m.courseLength) := by
  unfold courseLength
  cases m.shape with
  | line => exact Single.isUnsigned_length _
  | arc arc => exact Single.isUnsigned_hypot _ _

theorem isUnsigned_convert (system : MeasurementSystem) {x : Float32}
    (h : IsUnsigned (Single.parts x)) : IsUnsigned (Single.parts (system.convert x)) := by
  have hinch : Single.parts mmPerInch = .finite .positive 13316915 (-19) (by decide) := by rfl
  cases system with
  | metric => exact h
  | imperial =>
    show IsUnsigned (Single.parts (Single.ofParts
      ((Single.parts x).div .binary32 (Single.parts mmPerInch))))
    rw [hinch]
    exact (h.div_finite _).unpack_pack

/-- The moves of a simulation have their measured lengths. -/
theorem exists_courseLength {s : Settings Float32} {p : Program} {sim : Simulation Float32}
    (h : simulate s p = .ok sim) {c : Chain Float32} (hc : c ∈ sim.chains) {m : Move Float32}
    (hm : m ∈ c.moves) : ∃ drawn : Move Float32, m.length = drawn.courseLength := by
  obtain ⟨hlength, hplans⟩ := List.forall₂_iff_get.1 (plans_simulate h)
  obtain ⟨i, hi, rfl⟩ := List.getElem_of_mem hc
  have hi' : i < (unplanned s p).length := by omega
  obtain ⟨hlen, hkept⟩ := replanned_plan (hplans i hi' hi)
  obtain ⟨j, hj, rfl⟩ := List.getElem_of_mem hm
  have hj' : j < (unplanned s p)[i].moves.length := hlen ▸ hj
  obtain ⟨drawn, -, hdrawn⟩ := mem_unplanned (List.getElem_mem hi') (List.getElem_mem hj')
  refine ⟨drawn, (hkept j hj' hj).length.trans ?_⟩
  show (unplanned s p)[i].moves[j].length = _
  rw [hdrawn]
  rfl

namespace Simulation

variable {s : Settings Float32} {p : Program} {sim : Simulation Float32}

theorem chains_eq_nil (h : simulate s p = .ok sim) (hmoves : sim.moves = []) : sim.chains = [] :=
  List.eq_nil_iff_forall_not_mem.2 fun c hc =>
    moves_ne_nil_simulate h c hc (List.flatMap_eq_nil_iff.1 hmoves c hc)

/-- Where there is a move, the length of the path has no sign. -/
theorem isUnsigned_pathLength (h : simulate s p = .ok sim) (hne : sim.moves ≠ []) :
    IsUnsigned (Single.parts sim.summary.pathLength) := by
  have hchains : sim.chains ≠ [] := fun hnil => hne (by rw [moves, hnil]; rfl)
  apply Single.isUnsigned_sum (mt List.map_eq_nil_iff.1 hchains)
  intro length hlength
  obtain ⟨c, hc, rfl⟩ := List.mem_map.1 hlength
  apply Single.isUnsigned_sum (mt List.map_eq_nil_iff.1 (moves_ne_nil_simulate h c hc))
  intro length hlength
  obtain ⟨m, hm, rfl⟩ := List.mem_map.1 hlength
  obtain ⟨drawn, hdrawn⟩ := exists_courseLength h hc hm
  rw [hdrawn]
  exact drawn.isUnsigned_courseLength

/-- The line of the length has no minus sign but that of the length. -/
theorem minus_mem_lengthLine (summary : Summary Float32) (d : DisplaySettings) :
    '-' ∈ (summary.lengthLine d).toList ↔
      (singleDatum (d.measurementSystem.convert summary.pathLength)).isNegative = true := by
  have hlabel : '-' ∉ "length:    ".toList := by decide
  have hspace : '-' ∉ " ".toList := by decide
  have hunit : '-' ∉ d.measurementSystem.lengthUnit.toList := by
    cases d.measurementSystem <;> decide
  have htext : (lengthText d.measurementSystem summary.pathLength).toList =
      (fixedText 3 (singleDatum (d.measurementSystem.convert summary.pathLength))).toList := rfl
  unfold Summary.lengthLine
  rw [String.toList_append, String.toList_append, String.toList_append, List.mem_append,
    or_iff_left hunit, List.mem_append, or_iff_left hspace, List.mem_append, or_iff_right hlabel,
    htext, Number.minus_mem_fixedText]

/-- The time of a simulation is written without a minus sign, whatever the settings. The length is
written with one exactly where there is no move. -/
theorem minus_mem_lines (h : simulate s p = .ok sim) (d : DisplaySettings) :
    '-' ∉ sim.summary.timeLine.toList ∧
      ('-' ∈ (sim.summary.lengthLine d).toList ↔ sim.moves = []) := by
  constructor
  · have htime : Single.parts sim.summary.totalTime ≠ .zero .negative := by
      show Single.parts sim.totalTime ≠ _
      rw [totalTime_simulate h]
      exact Single.parts_sum_ne nofun
    exact minus_notMem_append (by decide) (minus_notMem_durationText htime)
  · rw [minus_mem_lengthLine]
    constructor
    · intro hminus
      by_contra hne
      have hunsigned := isUnsigned_convert d.measurementSystem (isUnsigned_pathLength h hne)
      rw [Binary.isUnsigned_iff .binary32, ← Single.singleDatum_eq, hminus] at hunsigned
      cases hunsigned
    · intro hmoves
      have hzero : sim.summary.pathLength = -0.0 := by
        show Scalar.sum (sim.chains.map Chain.length) = _
        rw [chains_eq_nil h hmoves]
        rfl
      rw [hzero]
      cases d.measurementSystem <;> decide +kernel

/-- One straight move. -/
theorem minus_mem_lines_straight : ∃ sim, simulate (Settings.default : Settings Float32)
    [.ofPairs 1 [('X', 1.0)]] = .ok sim ∧ '-' ∉ sim.summary.timeLine.toList ∧
      ('-' ∈ (sim.summary.lengthLine (Settings.default : Settings Float32).display).toList ↔
        sim.moves = []) ∧
      sim.moves.length = 1 ∧ sim.track.vertices.length = 51 ∧
        sim.summary.lengthLine (Settings.default : Settings Float32).display =
          "length:    1.000 mm" := by
  have hrun : ∃ sim ∈ (simulate (Settings.default : Settings Float32)
      [.ofPairs 1 [('X', 1.0)]]).toOption,
      sim.moves.length = 1 ∧ sim.track.vertices.length = 51 ∧
        sim.summary.lengthLine (Settings.default : Settings Float32).display =
          "length:    1.000 mm" := by
    decide +kernel
  obtain ⟨sim, hsim, hshown⟩ := exists_simulate_of_toOption hrun
  obtain ⟨htime, hlength⟩ := minus_mem_lines hsim _
  exact ⟨sim, hsim, htime, hlength, hshown⟩

/-- Without a block the sum of no lengths is the negative zero. -/
theorem minus_mem_lengthLine_still : (Settings.default : Settings Float32).validate = .ok () ∧
    ∃ sim, simulate (Settings.default : Settings Float32) [] = .ok sim ∧
      (∀ m ∈ sim.moves, m.length.isFinite = true) ∧
        sim.summary.lengthLine (Settings.default : Settings Float32).display =
          "length:    -0.000 mm" ∧
        '-' ∈ (sim.summary.lengthLine (Settings.default : Settings Float32).display).toList := by
  have hvalid : (Settings.default : Settings Float32).validate = .ok () := by decide +kernel
  have hrun : (simulate (Settings.default : Settings Float32) []).toOption.map (fun sim =>
      (sim.moves, sim.summary.lengthLine (Settings.default : Settings Float32).display)) =
        some ([], "length:    -0.000 mm") := by decide +kernel
  rcases hsim : simulate (Settings.default : Settings Float32) [] with fault | sim
  · rw [hsim] at hrun
    cases hrun
  · rw [hsim] at hrun
    obtain ⟨hmoves, hline⟩ := Prod.mk.inj (Option.some_inj.1 hrun)
    refine ⟨hvalid, sim, rfl, fun m hm => ?_, hline, ?_⟩
    · rw [hmoves] at hm
      cases hm
    · rw [hline]
      decide

end Simulation

end Toolpath
