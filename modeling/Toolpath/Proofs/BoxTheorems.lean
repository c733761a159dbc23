import Mathlib.Data.List.Induction
import Toolpath.Proofs.CrestTheorems
import Toolpath.Proofs.PartitionTheorems
import Toolpath.Proofs.SingleRangeTheorems

/-!
# Boxes around points

A box is stretched point by point, each corner by the lesser or the greater coordinate.

* A point that the box has just been stretched to does not stretch it again (`Box.add_add`), in any
  arithmetic.
* Around finite points the box is tight (`Box.isTight_ofPoints`): it holds them all, and each of
  its sides is reached by one of them.
* In the coordinates of a renderer whose second axis points up, where the least and the greatest
  coordinate of one axis trade places, the box around the points is the box of the points
  (`Box.ofPoints_remap`).

The last two are about single precision, because they rest on the range of the numbers: the empty
box has the greatest number at its corners.
-/

namespace Toolpath

open Scalar

/-! ## Lesser and greater -/

/-- A choice of one of two numbers that is related to both. -/
structure Selects {α : Type} [Arithmetic α] (R : α → α → Prop) (pick : α → α → α) : Prop where
  refl : ∀ a, IsNumber a → R a a
  trans : ∀ a b c, R a b → R b c → R a c
  isNumber : ∀ a b, R a b → IsNumber a
  left : ∀ a b, IsNumber a → R (pick a b) a
  right : ∀ a b, IsNumber b → R (pick a b) b
  eq_or : ∀ a b, pick a b = a ∨ pick a b = b

section Select

variable {α : Type} [Scalar α]

/-- What has been chosen over a number is chosen over it again. -/
theorem least_least (a b : α) : least (least a b) b = least a b := by
  unfold least
  split_ifs <;> rfl

theorem greatest_greatest (a b : α) : greatest (greatest a b) b = greatest a b := by
  unfold greatest
  split_ifs <;> rfl

variable [Rounding α]

theorem selects_least : Selects (· ≤ ·) (least : α → α → α) where
  refl _ := id
  trans _ _ _ := num_le_trans
  isNumber _ _ := number_left
  left _ _ := least_le_left
  right _ _ := least_le
  eq_or a b := by
    unfold least
    split_ifs <;> simp

theorem selects_greatest : Selects (fun a b => b ≤ a) (greatest : α → α → α) where
  refl _ := id
  trans _ _ _ h h' := num_le_trans h' h
  isNumber _ _ := number_right
  left a b ha := by
    unfold greatest
    split_ifs with hlt hnum
    · exact num_le_of_lt hlt
    · exact ha
    · exact absurd ha hnum
  right a b hb := by
    unfold greatest
    split_ifs with hlt hnum
    · exact hb
    · exact num_le_of_not_lt hnum hb hlt
    · exact hb
  eq_or a b := by
    unfold greatest
    split_ifs <;> simp

end Select

namespace Selects

variable {α : Type} [Arithmetic α] {R : α → α → Prop} {pick : α → α → α}

/-- What is chosen from some numbers is related to the first choice. -/
theorem foldl_init (h : Selects R pick) {a : α} (ha : IsNumber a) (xs : List α) :
    R (xs.foldl pick a) a := by
  induction xs generalizing a with
  | nil => exact h.refl a ha
  | cons x rest ih =>
    have hfirst := h.left a x ha
    exact h.trans _ _ _ (ih (h.isNumber _ _ hfirst)) hfirst

/-- It is related to each of them. -/
theorem foldl_of_mem (h : Selects R pick) {a x : α} (ha : IsNumber a) {xs : List α}
    (hx : x ∈ xs) (hnumber : IsNumber x) : R (xs.foldl pick a) x := by
  induction xs generalizing a with
  | nil => exact absurd hx List.not_mem_nil
  | cons y rest ih =>
    have hnext := h.isNumber _ _ (h.left a y ha)
    rcases List.mem_cons.1 hx with rfl | hx
    · exact h.trans _ _ _ (h.foldl_init hnext rest) (h.right a x hnumber)
    · exact ih hnext hx

/-- It is one of them, or the first choice. -/
theorem foldl_eq_or (h : Selects R pick) (a : α) (xs : List α) :
    xs.foldl pick a = a ∨ xs.foldl pick a ∈ xs := by
  induction xs generalizing a with
  | nil => exact .inl rfl
  | cons x rest ih =>
    rw [List.foldl_cons]
    rcases ih (pick a x) with heq | hmem
    · rw [heq]
      rcases h.eq_or a x with hpick | hpick
      · exact .inl hpick
      · exact .inr (by rw [hpick]; exact List.mem_cons_self)
    · exact .inr (List.mem_cons_of_mem x hmem)

/-- So it is as they all are. -/
theorem foldl_of_forall (h : Selects R pick) {P : α → Prop} {a : α} (ha : P a) {xs : List α}
    (hxs : ∀ x ∈ xs, P x) : P (xs.foldl pick a) := by
  rcases h.foldl_eq_or a xs with heq | hmem
  · rwa [heq]
  · exact hxs _ hmem

end Selects

namespace Box

/-! ## Stretching -/

section Stretch

variable {α : Type} [Scalar α]

/-- A box is stretched to a point once. -/
theorem add_add (box : Box α) (p : Vec3 α) : (box.add p).add p = box.add p := by
  unfold add Vec3.zipWith
  simp only [least_least, greatest_greatest]

theorem ofPoints_concat (points : List (Vec3 α)) (p : Vec3 α) :
    ofPoints (points ++ [p]) = (ofPoints points).add p := by
  rw [ofPoints, List.foldl_append]
  rfl

/-- The last point may be repeated. -/
theorem ofPoints_repeat {points : List (Vec3 α)} {last : Vec3 α}
    (hlast : points.getLast? = some last) : ofPoints (points ++ [last]) = ofPoints points := by
  obtain ⟨init, rfl⟩ := List.getLast?_eq_some_iff.1 hlast
  rw [ofPoints_concat, ofPoints_concat, add_add]

/-- The corners are found axis by axis. -/
theorem get_ofPoints (points : List (Vec3 α)) (axis : Axis) :
    (ofPoints points).min.get axis = (points.map (·.get axis)).foldl least largest ∧
      (ofPoints points).max.get axis = (points.map (·.get axis)).foldl greatest (-largest) := by
  induction points using List.reverseRecOn with
  | nil => cases axis <;> exact ⟨rfl, rfl⟩
  | append_singleton points p ih =>
    rw [ofPoints_concat, List.map_append, List.foldl_append, List.foldl_append, ← ih.1, ← ih.2]
    cases axis <;> exact ⟨rfl, rfl⟩

end Stretch

/-! ## Tight boxes -/

/-- A box that holds points, each of its sides reached by one of them. -/
structure IsTight {α : Type} [Scalar α] (box : Box α) (points : List (Vec3 α)) : Prop where
  holds : ∀ p ∈ points, ∀ axis, box.min.get axis ≤ p.get axis ∧ p.get axis ≤ box.max.get axis
  min_reached : ∀ axis, ∃ p ∈ points, Same (p.get axis) (box.min.get axis)
  max_reached : ∀ axis, ∃ p ∈ points, Same (p.get axis) (box.max.get axis)

section Single

variable {points : List (Vec3 Float32)}

theorem isFinite_get {p : Vec3 Float32} (hp : p.IsFinite) (axis : Axis) :
    isFinite (p.get axis) = true := by
  cases axis with
  | x => exact hp.x
  | y => exact hp.y
  | z => exact hp.z

theorem isNumber_neg_largest : IsNumber (-largest : Float32) :=
  Rounding.isNumber_of_isFinite _ ((Single.isFinite_neg _).trans Single.isFinite_largest)

/-- A box around a finite point holds it. -/
theorem holds_ofPoints {p : Vec3 Float32} (hp : p ∈ points) (hfinite : p.IsFinite) (axis : Axis) :
    (ofPoints points).min.get axis ≤ p.get axis ∧
      p.get axis ≤ (ofPoints points).max.get axis := by
  have hnumber := Rounding.isNumber_of_isFinite _ (isFinite_get hfinite axis)
  have hmem : p.get axis ∈ points.map (·.get axis) := List.mem_map_of_mem hp
  rw [(get_ofPoints points axis).1, (get_ofPoints points axis).2]
  exact ⟨selects_least.foldl_of_mem
      (Rounding.isNumber_of_isFinite _ Single.isFinite_largest) hmem hnumber,
    selects_greatest.foldl_of_mem isNumber_neg_largest hmem hnumber⟩

/-- A corner of the box around finite points is reached by one of them, or it is that of the empty
box, which all of them reach. -/
theorem isTight_ofPoints (hfinite : ∀ p ∈ points, p.IsFinite) (hne : points ≠ []) :
    (ofPoints points).IsTight points := by
  obtain ⟨first, hfirst⟩ := List.exists_mem_of_ne_nil points hne
  constructor
  case holds => exact fun p hp => holds_ofPoints hp (hfinite p hp)
  case min_reached =>
    intro axis
    have hle := (holds_ofPoints hfirst (hfinite first hfirst) axis).1
    rw [(get_ofPoints points axis).1] at hle ⊢
    -- the least coordinate is that of a point, or the start value, which no coordinate exceeds
    rcases selects_least.foldl_eq_or largest (points.map (·.get axis)) with heq | hmem
    · rw [heq] at hle ⊢
      exact ⟨first, hfirst, Single.le_largest (isFinite_get (hfinite first hfirst) axis), hle⟩
    · obtain ⟨p, hp, heq⟩ := List.mem_map.1 hmem
      rw [← heq]
      exact ⟨p, hp, .refl (Rounding.isNumber_of_isFinite _ (isFinite_get (hfinite p hp) axis))⟩
  case max_reached =>
    intro axis
    have hle := (holds_ofPoints hfirst (hfinite first hfirst) axis).2
    rw [(get_ofPoints points axis).2] at hle ⊢
    rcases selects_greatest.foldl_eq_or (-largest) (points.map (·.get axis)) with heq | hmem
    · rw [heq] at hle ⊢
      exact ⟨first, hfirst, hle, Single.neg_largest_le (isFinite_get (hfinite first hfirst) axis)⟩
    · obtain ⟨p, hp, heq⟩ := List.mem_map.1 hmem
      rw [← heq]
      exact ⟨p, hp, .refl (Rounding.isNumber_of_isFinite _ (isFinite_get (hfinite p hp) axis))⟩

/-- The box around finite points is valid. -/
theorem isValid_ofPoints (hfinite : ∀ p ∈ points, p.IsFinite) (hne : points ≠ []) :
    (ofPoints points).IsValid := by
  obtain ⟨first, hfirst⟩ := List.exists_mem_of_ne_nil points hne
  have hcoordinates : ∀ axis, ∀ x ∈ points.map (·.get axis), isFinite x = true := by
    intro axis x hx
    obtain ⟨p, hp, rfl⟩ := List.mem_map.1 hx
    exact isFinite_get (hfinite p hp) axis
  -- a corner of the box is a coordinate of some point or the start value, all of them finite
  have hmin : ∀ axis, isFinite ((ofPoints points).min.get axis) = true := by
    intro axis
    rw [(get_ofPoints points axis).1]
    exact selects_least.foldl_of_forall (P := fun x => isFinite x = true) Single.isFinite_largest
      (hcoordinates axis)
  have hmax : ∀ axis, isFinite ((ofPoints points).max.get axis) = true := by
    intro axis
    rw [(get_ofPoints points axis).2]
    exact selects_greatest.foldl_of_forall (P := fun x => isFinite x = true)
      ((Single.isFinite_neg _).trans Single.isFinite_largest) (hcoordinates axis)
  have hle : ∀ axis, (ofPoints points).min.get axis ≤ (ofPoints points).max.get axis := by
    intro axis
    obtain ⟨hlo, hhi⟩ := holds_ofPoints hfirst (hfinite first hfirst) axis
    exact num_le_trans hlo hhi
  refine ⟨?_, hle .x, hle .y, hle .z⟩
  intro x hx
  simp only [Vec3.toList, List.cons_append, List.nil_append, List.mem_cons, List.not_mem_nil,
    or_false] at hx
  rcases hx with rfl | rfl | rfl | rfl | rfl | rfl
  · exact hmin .x
  · exact hmin .y
  · exact hmin .z
  · exact hmax .x
  · exact hmax .y
  · exact hmax .z

/-! ## Another axis up -/

theorem not_isValid_empty : ¬ (empty : Box Float32).IsValid := fun h => Single.not_largest_le h.2.1

/-- Negation turns the lesser of two numbers into the greater one. -/
theorem neg_least (a b : Float32) : -least a b = greatest (-a) (-b) := by
  unfold least greatest
  simp only [Single.neg_lt_neg_iff, Single.neg_le_neg_iff]
  split_ifs <;> rfl

theorem neg_greatest (a b : Float32) : -greatest a b = least (-a) (-b) := by
  unfold least greatest
  simp only [Single.neg_lt_neg_iff, Single.neg_le_neg_iff]
  split_ifs <;> rfl

/-- The box around points in the other coordinates has the second corner of one axis at the first
of another. -/
theorem ofPoints_yUp (points : List (Vec3 Float32)) :
    ofPoints (points.map AxisConvention.yUp.remap) =
      ⟨⟨(ofPoints points).min.x, (ofPoints points).min.z, -(ofPoints points).max.y⟩,
        ⟨(ofPoints points).max.x, (ofPoints points).max.z, -(ofPoints points).min.y⟩⟩ := by
  induction points using List.reverseRecOn with
  | nil =>
    show (empty : Box Float32) = ⟨⟨largest, largest, -(-largest)⟩, ⟨-largest, -largest, -largest⟩⟩
    rw [Single.neg_neg_largest]
    rfl
  | append_singleton points p ih =>
    rw [List.map_append, List.map_singleton, ofPoints_concat, ofPoints_concat, ih]
    simp only [add, Vec3.zipWith, AxisConvention.remap, neg_least, neg_greatest]

/-- Around finite points the box of the points in other coordinates is the box in these
coordinates. -/
theorem ofPoints_remap (hfinite : ∀ p ∈ points, p.IsFinite) :
    ofPoints (points.map AxisConvention.yUp.remap) = (ofPoints points).toYUp := by
  by_cases hnil : points = []
  · rw [hnil]
    exact (if_neg not_isValid_empty).symm
  · rw [ofPoints_yUp, toYUp, if_pos (isValid_ofPoints hfinite hnil)]

end Single

end Box

end Toolpath
