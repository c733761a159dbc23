import Toolpath.Proofs.CrestTheorems
import Toolpath.Proofs.IsotoneTheorems
import Toolpath.Proofs.PartitionTheorems

/-!
# The time along a move

The time at which a point of a planned move is passed, `Move.timeAt`, begins with the move, ends
with it and never decreases along it. The speeds of the phases play no part in this: within a phase
the time is monotone because its operations are, and from one phase to the next because the clamp
keeps it within the time of its phase (`phaseAt?_mono`).

It holds in all arithmetic that keeps the order, as long as the length and the duration of the move
are finite (`Move.isTimed_withProfile`); only times that are numbers are compared.
-/

namespace Toolpath

open Scalar

variable {α : Type} [Scalar α]

/-! ## Timed moves -/

/-- What reading back the profile of a move relies on. -/
structure Move.IsTimed (m : Move α) : Prop where
  length_finite : isFinite m.length = true
  duration_finite : isFinite m.profile.duration = true
  duration_eq : m.profile.duration = m.profile.phases.foldl (fun t p => t + p.duration) 0.0
  length_pos : m.profile.phases ≠ [] → 0.0 < m.length
  accel_pos : m.profile.phases ≠ [] → ¬ m.maxAccel ≤ 0.0
  zero_le_duration : ∀ p ∈ m.profile.phases, 0.0 ≤ p.duration
  /-- The phases lie on the way of the move, and none is empty. -/
  bounds : ∀ p ∈ m.profile.phases, 0.0 ≤ p.start ∧ p.start < p.stop ∧ p.stop ≤ m.length

section Rounding

variable [Rounding α]

/-- The phases of a planned move lie on its way. -/
theorem bounds_withProfile {m planned : Move α} (hrest : ¬ m.AtRest) {entrySq exitSq : α}
    (h : m.withProfile entrySq exitSq = .ok planned) (hlength : IsNumber m.length) :
    ∀ p ∈ planned.profile.phases, 0.0 ≤ p.start ∧ p.start < p.stop ∧ p.stop ≤ m.length := by
  obtain ⟨accelStop, decelStart, haccel, hdecel, rfl⟩ := (Move.withProfile_eq_ok hrest).1 h
  have hfirst : IsNumber accelStop := number_left (clampBetween_eq_ok.1 hdecel).1
  obtain ⟨hstart, hstop⟩ := mem_of_clampBetween haccel hfirst
  intro p hp
  rcases mem_phasesBetween hp with ⟨hlt, rfl⟩ | ⟨hlt, rfl⟩ | ⟨hlt, rfl⟩
  · exact ⟨isNumber_zero, hlt, hstop⟩
  · have hsecond : IsNumber decelStart := number_right (num_le_of_lt hlt)
    exact ⟨hstart, hlt, (mem_of_clampBetween hdecel hsecond).2⟩
  · have hsecond : IsNumber decelStart := number_left (num_le_of_lt hlt)
    exact ⟨num_le_trans hstart (mem_of_clampBetween hdecel hsecond).1, hlt, hlength⟩

end Rounding

section Absorbing

variable [Absorbing α]

/-- The profile that a move gets can be read back, if the move is finite in length and time. -/
theorem Move.isTimed_withProfile {m planned : Move α} {entrySq exitSq : α}
    (h : m.withProfile entrySq exitSq = .ok planned) (hlength : isFinite planned.length = true)
    (hduration : isFinite planned.profile.duration = true) : planned.IsTimed := by
  have hkept := Move.replanned_withProfile h
  by_cases hrest : m.AtRest
  · rw [Move.withProfile_of_atRest hrest] at h
    cases h
    exact {
      length_finite := hlength
      duration_finite := hduration
      duration_eq := rfl
      length_pos := fun hne => absurd rfl hne
      accel_pos := fun hne => absurd rfl hne
      zero_le_duration := fun p hp => absurd hp List.not_mem_nil
      bounds := fun p hp => absurd hp List.not_mem_nil }
  · have hnumber : IsNumber m.length := by
      rw [← hkept.length]
      exact Rounding.isNumber_of_isFinite _ hlength
    have hsum : planned.profile.duration =
        planned.profile.phases.foldl (fun t p => t + p.duration) 0.0 := by
      obtain ⟨accelStop, decelStart, -, -, rfl⟩ := (Move.withProfile_eq_ok hrest).1 h
      rfl
    -- a finite sum has finite summands
    have hfinite := (isFinite_of_foldl_add (hsum ▸ hduration)).2
    constructor
    case length_finite => exact hlength
    case duration_finite => exact hduration
    case duration_eq => exact hsum
    case length_pos =>
      rw [hkept.length]
      exact fun _ => Move.length_pos hrest hnumber
    case accel_pos =>
      rw [hkept.maxAccel]
      exact fun _ ha => hrest (.inr ha)
    case zero_le_duration =>
      intro p hp
      have hnonneg := nonneg_duration_withProfile h p hp
      exact hnonneg.zero_le (Rounding.isNumber_of_isFinite _ (hfinite p hp))
    case bounds =>
      rw [hkept.length]
      exact bounds_withProfile hrest h hnumber

/-- All moves of a planned chain that are finite in length and time can be read back. -/
theorem isTimed_plan {c planned : Chain α} (h : c.plan = .ok planned) {m : Move α}
    (hm : m ∈ planned.moves) (hlength : isFinite m.length = true)
    (hduration : isFinite m.profile.duration = true) : m.IsTimed := by
  obtain ⟨hlen, hget⟩ := profileMoves_getElem (Chain.plan_eq_ok.1 h)
  obtain ⟨i, hi, rfl⟩ := List.mem_iff_getElem.1 hm
  exact Move.isTimed_withProfile (hget i (by omega) hi) hlength hduration

end Absorbing

variable [Isotone α]

/-! ## The phase at a distance -/

section PhaseAt

variable {x y elapsed : α} {phases : List (Phase α)} {before before' : α} {p p' : Phase α}

/-- The phase at a distance is one of the phases, and its time lies within the time of all. -/
theorem phaseAt?_bounds (hd : ∀ p ∈ phases, 0.0 ≤ p.duration) (helapsed : 0.0 ≤ elapsed)
    (hx : phaseAt? x elapsed phases = some (before, p)) :
    p ∈ phases ∧ elapsed ≤ before ∧
      before + p.duration ≤ phases.foldl (fun t p => t + p.duration) elapsed := by
  induction phases generalizing elapsed with
  | nil => cases hx
  | cons q rest ih =>
    have hq := hd q List.mem_cons_self
    have hrest : ∀ p ∈ rest, 0.0 ≤ p.duration := fun p hp => hd p (List.mem_cons_of_mem q hp)
    have hnext : 0.0 ≤ elapsed + q.duration := zero_le_add helapsed hq
    rw [List.foldl_cons]
    cases rest with
    | nil =>
      cases hx
      exact ⟨List.mem_cons_self, number_right helapsed, number_right hnext⟩
    | cons r rest =>
      rw [phaseAt?_cons_cons] at hx
      split_ifs at hx with hstop
      · cases hx
        exact ⟨List.mem_cons_self, number_right helapsed, le_foldl_add hrest hnext⟩
      · obtain ⟨hmem, hle, hend⟩ := ih hrest hnext hx
        exact ⟨List.mem_cons_of_mem q hmem, num_le_trans (le_add_of_zero_le helapsed hq) hle, hend⟩

/-- Of two distances the farther one lies in the same phase, or in one that begins no earlier than
the first one ends. -/
theorem phaseAt?_mono (hxy : x ≤ y) (hd : ∀ p ∈ phases, 0.0 ≤ p.duration) (helapsed : 0.0 ≤ elapsed)
    (hx : phaseAt? x elapsed phases = some (before, p))
    (hy : phaseAt? y elapsed phases = some (before', p')) :
    (before, p) = (before', p') ∨ before + p.duration ≤ before' := by
  -- the last phase takes all that lies behind it, so the list is split twice
  induction phases generalizing elapsed with
  | nil => cases hx
  | cons q rest ih =>
    have hrest : ∀ p ∈ rest, 0.0 ≤ p.duration := fun p hp => hd p (List.mem_cons_of_mem q hp)
    have hnext : 0.0 ≤ elapsed + q.duration := zero_le_add helapsed (hd q List.mem_cons_self)
    cases rest with
    | nil => exact .inl (Option.some.inj (hx.symm.trans hy))
    | cons r rest =>
      rw [phaseAt?_cons_cons] at hx hy
      split_ifs at hx hy with hxstop hystop hystop
      · exact .inl (Option.some.inj (hx.symm.trans hy))
      · -- only the farther distance lies behind this phase
        cases hx
        exact .inr (phaseAt?_bounds hrest hnext hy).2.1
      · exact absurd (num_le_trans hxy hystop) hxstop
      · exact ih hrest hnext hx hy

end PhaseAt

/-! ## Within a phase -/

section Phase

variable {m : Move α} {p : Phase α} {x y : α}

/-- A phase on the way of a finite move starts at a finite distance and has a finite length. -/
theorem Move.IsTimed.isFinite_phase (h : m.IsTimed) (hp : p ∈ m.profile.phases) :
    isFinite p.start = true ∧ isFinite p.length = true := by
  obtain ⟨hstart, hlt, hstop⟩ := h.bounds p hp
  have hle := num_le_of_lt hlt
  have hfinite : isFinite p.stop = true :=
    Rounding.isFinite_of_le _ _ (num_le_trans hstart hle) hstop h.length_finite
  exact ⟨Rounding.isFinite_of_le _ _ hstart hle hfinite,
    Isotone.isFinite_sub_of_le _ _ hstart hle hfinite⟩

/-- Farther along a phase a greater share of it is done, unless it is empty. -/
theorem Phase.shareAt_mono (hstart : isFinite p.start = true) (hlength : isFinite p.length = true)
    (hxy : x ≤ y) : p.shareAt x = p.shareAt y ∨
      0.0 < p.length ∧ 0.0 ≤ p.shareAt x ∧ p.shareAt x ≤ p.shareAt y ∧ p.shareAt y ≤ 1.0 := by
  unfold Phase.shareAt
  by_cases hpos : 0.0 < p.length
  · right
    rw [if_pos hpos, if_pos hpos]
    have hnumber : ∀ {z : α}, IsNumber z → IsNumber (z - p.start) ∧
        IsNumber ((z - p.start) / p.length) := by
      intro z hz
      have hdifference := Absorbing.isNumber_sub_right z p.start hz hstart
      exact ⟨hdifference, Rounding.isNumber_div _ _ hdifference hpos hlength⟩
    obtain ⟨hx, hx'⟩ := hnumber (number_left hxy)
    obtain ⟨hy, hy'⟩ := hnumber (number_right hxy)
    have hquotient : (x - p.start) / p.length ≤ (y - p.start) / p.length :=
      Isotone.div_le_div_right _ _ _ hpos (Isotone.sub_le_sub_right _ _ _ hxy hx hy) hx' hy'
    exact ⟨hpos, le_clamp hx' Isotone.zero_le_one, clamp_mono Isotone.zero_le_one hquotient,
      clamp_le hy' Isotone.zero_le_one⟩
  · left
    rw [if_neg hpos, if_neg hpos]

/-- Doubled and cut at zero, values stay in order if they are in order or neither is a number. -/
theorem twice_mono (h : x ≤ y ∨ ¬ IsNumber x ∧ ¬ IsNumber y) :
    greatest (2.0 * x) 0.0 ≤ greatest (2.0 * y) 0.0 := by
  rcases h with hxy | ⟨hx, hy⟩
  · have hdouble : ∀ {z : α}, IsNumber z → IsNumber (2.0 * z) := fun hz =>
      Rounding.isNumber_mul _ _ Isotone.zero_lt_two Isotone.isFinite_two hz
    exact greatest_mono (Isotone.mul_le_mul_left _ _ _ Rounding.zero_le_two Isotone.isFinite_two hxy
      (hdouble (number_left hxy)) (hdouble (number_right hxy)))
  · have hdouble : ∀ {z : α}, ¬ IsNumber z → ¬ IsNumber (2.0 * z) := fun hz hdouble =>
      hz (Isotone.isNumber_of_mul _ _ hdouble).2
    rw [greatest_of_not_number (hdouble hx), greatest_of_not_number (hdouble hy)]
    exact isNumber_zero

theorem twice_add_mono (ramp : α) (hx : isFinite x = true) (hy : isFinite y = true) (hxy : x ≤ y) :
    greatest (2.0 * (ramp + x)) 0.0 ≤ greatest (2.0 * (ramp + y)) 0.0 := by
  apply twice_mono
  by_cases hramp : IsNumber ramp
  · exact .inl (Isotone.add_le_add_left _ _ _ hxy (Isotone.isNumber_add_right _ _ hramp hx)
      (Isotone.isNumber_add_right _ _ hramp hy))
  · exact .inr ⟨fun h => hramp (Isotone.isNumber_of_add _ _ h).1,
      fun h => hramp (Isotone.isNumber_of_add _ _ h).1⟩

theorem twice_sub_mono (ramp : α) (hx : isFinite x = true) (hy : isFinite y = true) (hxy : x ≤ y) :
    greatest (2.0 * (ramp - y)) 0.0 ≤ greatest (2.0 * (ramp - x)) 0.0 := by
  apply twice_mono
  by_cases hramp : IsNumber ramp
  · exact .inl (Isotone.sub_le_sub_left _ _ _ hxy (Absorbing.isNumber_sub_right _ _ hramp hx)
      (Absorbing.isNumber_sub_right _ _ hramp hy))
  · exact .inr ⟨fun h => hramp (Absorbing.isNumber_of_sub _ _ h).1,
      fun h => hramp (Absorbing.isNumber_of_sub _ _ h).1⟩

/-- The time from rest over a distance is the root of twice the distance by the acceleration. -/
theorem sqrt_div_mono {a : α} (ha : ¬ a ≤ 0.0) (hx : 0.0 ≤ x) (hxy : x ≤ y)
    (hnumber : IsNumber (sqrt (x / a))) (hnumber' : IsNumber (sqrt (y / a))) :
    sqrt (x / a) ≤ sqrt (y / a) := by
  have hquotient := Isotone.isNumber_of_sqrt _ hnumber
  have hquotient' := Isotone.isNumber_of_sqrt _ hnumber'
  have hpos : 0.0 < a :=
    num_lt_of_not_le (Isotone.isNumber_divisor _ _ hquotient) isNumber_zero ha
  exact Isotone.sqrt_le_sqrt _ _ ((Rounding.nonneg_div _ _ (nonneg_of_le hx) ha).zero_le hquotient)
    (Isotone.div_le_div_right _ _ _ hpos hxy hquotient hquotient')

/-- Within a phase a greater share takes more time, before any clamp. -/
theorem Phase.passage_time_mono (ha : ¬ m.maxAccel ≤ 0.0) (hd : 0.0 ≤ p.duration)
    (hd' : isFinite p.duration = true) (hpos : 0.0 < p.length) (hlength : isFinite p.length = true)
    (hx : 0.0 ≤ x) (hxy : x ≤ y) (hy : y ≤ 1.0) (htime : IsNumber (p.passage m x).time)
    (htime' : IsNumber (p.passage m y).time) : (p.passage m x).time ≤ (p.passage m y).time := by
  have hpos' := num_le_of_lt hpos
  -- the distances from the start of the phase are finite and in order
  have hfinite := Isotone.isFinite_mul_of_le _ _ hpos' hlength hx (num_le_trans hxy hy)
  have hfinite' := Isotone.isFinite_mul_of_le _ _ hpos' hlength (num_le_trans hx hxy) hy
  have hdistance : p.length * x ≤ p.length * y :=
    Isotone.mul_le_mul_left _ _ _ hpos' hlength hxy (Rounding.isNumber_of_isFinite _ hfinite)
      (Rounding.isNumber_of_isFinite _ hfinite')
  unfold Phase.passage at htime htime' ⊢
  cases hkind : p.kind with
  | accel =>
    simp only [hkind] at htime htime' ⊢
    have hroot := sqrt_div_mono ha (zero_le_greatest _)
      (twice_add_mono m.profile.entryRamp hfinite hfinite' hdistance)
      (Absorbing.isNumber_of_sub _ _ htime).1 (Absorbing.isNumber_of_sub _ _ htime').1
    exact Isotone.sub_le_sub_right _ _ _ hroot htime htime'
  | const =>
    simp only [hkind] at htime htime' ⊢
    exact Isotone.mul_le_mul_left _ _ _ hd hd' hxy htime htime'
  | decel =>
    simp only [hkind] at htime htime' ⊢
    have hroot := sqrt_div_mono ha (zero_le_greatest _)
      (twice_sub_mono (m.profile.exitRamp + p.length) hfinite hfinite' hdistance)
      (Absorbing.isNumber_of_sub _ _ htime').2 (Absorbing.isNumber_of_sub _ _ htime).2
    exact Isotone.sub_le_sub_left _ _ _ hroot htime' htime

end Phase

/-! ## Along a move -/

omit [Isotone α] in
/-- The time at which a ratio of the way is passed, since the move began. -/
def Move.timeAt (m : Move α) (ratio : α) : α :=
  match phaseAt? (m.length * ratio) 0.0 m.profile.phases with
  | none => 0.0
  | some (before, p) =>
    before + clamp (p.passage m (p.shareAt (m.length * ratio))).time 0.0 p.duration

omit [Isotone α] in
/-- A passage is timed so. -/
theorem Move.time_of_passageAt {m : Move α} {ratio : α} {passage : Passage α}
    (h : m.passageAt ratio = .ok passage) : passage.time = m.timeAt ratio := by
  unfold Move.passageAt at h
  unfold Move.timeAt
  dsimp only at h
  rcases hat : phaseAt? (m.length * ratio) 0.0 m.profile.phases with _ | ⟨before, p⟩
  · rw [hat] at h
    rw [← Except.ok.inj h]
  · rw [hat] at h
    obtain ⟨time, htime, hpassage⟩ := bind_eq_ok.1 h
    rw [← Except.ok.inj hpassage, ← (clampBetween_eq_ok.1 htime).2]

namespace Move.IsTimed

variable {m : Move α} {ratio ratio' : α}

/-- The phase that holds a ratio of the way, with the time within it. -/
theorem timeAt_of_phase (h : m.IsTimed) {before : α} {p : Phase α}
    (hat : phaseAt? (m.length * ratio) 0.0 m.profile.phases = some (before, p))
    (htime : IsNumber (m.timeAt ratio)) :
    p ∈ m.profile.phases ∧ 0.0 ≤ before ∧ before ≤ m.timeAt ratio ∧
      m.timeAt ratio ≤ before + p.duration ∧ before + p.duration ≤ m.profile.duration ∧
      IsNumber (p.passage m (p.shareAt (m.length * ratio))).time := by
  obtain ⟨hmem, hbefore, hend⟩ := phaseAt?_bounds h.zero_le_duration isNumber_zero hat
  have hp := h.zero_le_duration p hmem
  unfold Move.timeAt at htime ⊢
  rw [hat] at htime ⊢
  dsimp only at htime ⊢
  rw [← h.duration_eq] at hend
  have hraw : IsNumber (p.passage m (p.shareAt (m.length * ratio))).time := by
    have hclamp := (Isotone.isNumber_of_add _ _ htime).2
    by_contra hraw
    rw [clamp_of_not_number hraw] at hclamp
    exact hraw hclamp
  have hlo := le_clamp hraw hp
  have hhi := clamp_le hraw hp
  exact ⟨hmem, hbefore, le_add_of_zero_le hbefore hlo,
    Isotone.add_le_add_left _ _ _ hhi htime (number_left hend), hend, hraw⟩

theorem zero_le_profile_duration (h : m.IsTimed) : 0.0 ≤ m.profile.duration := by
  rw [h.duration_eq]
  exact le_foldl_add h.zero_le_duration isNumber_zero

omit [Isotone α] in
/-- A move without phases is passed in no time. -/
theorem timeAt_of_nil (h : m.profile.phases = []) (ratio : α) : m.timeAt ratio = 0.0 := by
  unfold Move.timeAt
  rw [h]
  rfl

/-- Points are passed while the move runs. -/
theorem timeAt_mem (h : m.IsTimed) (htime : IsNumber (m.timeAt ratio)) :
    0.0 ≤ m.timeAt ratio ∧ m.timeAt ratio ≤ m.profile.duration := by
  by_cases hne : m.profile.phases = []
  · rw [timeAt_of_nil hne]
    exact ⟨isNumber_zero, h.zero_le_profile_duration⟩
  · obtain ⟨⟨before, p⟩, hat⟩ := exists_phaseAt? hne
    obtain ⟨-, hbefore, hlo, hhi, hend, -⟩ := h.timeAt_of_phase hat htime
    exact ⟨num_le_trans hbefore hlo, num_le_trans hhi hend⟩

/-- Points farther along a move are passed no earlier. -/
theorem timeAt_mono (h : m.IsTimed) (hle : ratio ≤ ratio') (htime : IsNumber (m.timeAt ratio))
    (htime' : IsNumber (m.timeAt ratio')) : m.timeAt ratio ≤ m.timeAt ratio' := by
  by_cases hne : m.profile.phases = []
  · rw [timeAt_of_nil hne, timeAt_of_nil hne]
    exact isNumber_zero
  have hlength := h.length_pos hne
  have hx : m.length * ratio ≤ m.length * ratio' :=
    Isotone.mul_le_mul_left _ _ _ (num_le_of_lt hlength) h.length_finite hle
      (Rounding.isNumber_mul _ _ hlength h.length_finite (number_left hle))
      (Rounding.isNumber_mul _ _ hlength h.length_finite (number_right hle))
  obtain ⟨⟨before, p⟩, hat⟩ := exists_phaseAt? hne
  obtain ⟨⟨before', p'⟩, hat'⟩ := exists_phaseAt? hne
  obtain ⟨hmem, -, -, hfirst, -, hraw⟩ := h.timeAt_of_phase hat htime
  obtain ⟨-, -, hsecond, -, -, hraw'⟩ := h.timeAt_of_phase hat' htime'
  rcases phaseAt?_mono hx h.zero_le_duration isNumber_zero hat hat' with hsame | hlater
  · -- both ratios lie in one phase
    cases hsame
    obtain ⟨hstart, hfinite⟩ := h.isFinite_phase hmem
    have hp := h.zero_le_duration p hmem
    have hp' := (isFinite_of_foldl_add (h.duration_eq ▸ h.duration_finite)).2 p hmem
    unfold Move.timeAt at htime htime' ⊢
    rw [hat] at htime ⊢
    rw [hat'] at htime' ⊢
    dsimp only at htime htime' ⊢
    rcases Phase.shareAt_mono hstart hfinite hx with hshare | ⟨hpos, hlo, hshare, hhi⟩
    · rw [hshare] at htime ⊢
      exact htime
    · have hpassage := Phase.passage_time_mono (h.accel_pos hne) hp hp' hpos hfinite hlo hshare hhi
        hraw hraw'
      exact Isotone.add_le_add_left _ _ _ (clamp_mono hp hpassage) htime htime'
  · -- the second one lies in a later phase
    exact num_le_trans hfirst (num_le_trans hlater hsecond)

end Move.IsTimed

end Toolpath
