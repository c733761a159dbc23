import Toolpath.Proofs.SingleValueTheorems
import Toolpath.Machine

/-!
# Opposite numbers

In single precision, a number and its negative stay opposite under multiplication, and their sum is
an exact zero. So the cross product of the ways from a centre to the two ends of an arc is an exact
zero where the arc ends at its start, as long as the product of the offsets is finite
(`Single.isZero_cross`), and their dot product is above zero (`Single.zero_lt_dot`).
-/

namespace Toolpath

/-! ## Zeros and opposite numbers -/

namespace Single

open Float.Model (UnpackedFloat)
open Float.Model.UnpackedFloat (Sign)

/-- A zero of either sign. -/
def IsZero (x : Float32) : Prop := x ≤ 0.0 ∧ 0.0 ≤ x

instance (x : Float32) : Decidable (IsZero x) := inferInstanceAs (Decidable (_ ∧ _))

theorem isZero_iff {x : Float32} : IsZero x ↔ ∃ s, parts x = .zero s := by
  unfold IsZero
  rw [le_zero_iff, zero_le_iff]
  constructor
  · rintro ⟨⟨hne, habove⟩, -, hbelow⟩
    generalize parts x = u at hne habove hbelow
    rcases u with s | _ | s | ⟨s, m, e, hm⟩
    case notANumber => exact absurd rfl hne
    case zero => exact ⟨s, rfl⟩
    all_goals
      cases s
      · exact absurd trivial hbelow
      · exact absurd trivial habove
  · rintro ⟨s, hzero⟩
    rw [hzero]
    exact ⟨⟨nofun, id⟩, nofun, id⟩

/-- What nothing is rounded to is a zero. -/
theorem IsRounding.isZero {x : Float32} (h : IsRounding 0 x) : IsZero x :=
  ⟨h.le rfl le_rfl, h.ge rfl le_rfl⟩

/-- Only a finite number equals a finite one. -/
theorem isFinite_of_eq {p q : Float32} (hp : p.isFinite = true) (h : p ≤ q) (h' : q ≤ p) :
    q.isFinite = true := by
  rw [le_iff] at h h'
  have hrank := le_antisymm h.2.2 h'.2.2
  show (parts q).isFinite = true
  obtain hnan | ⟨t, hq⟩ | ⟨t, hq⟩ | ⟨t, m, e, hm, -, hq⟩ := parts_cases q
  · exact absurd hnan h.2.1
  · rw [hq] at hrank
    obtain ⟨s, hp⟩ | ⟨s, m, e, hm, -, hp⟩ := parts_of_isFinite hp <;> rw [hp] at hrank <;>
      cases s <;> cases t <;> cases hrank
  · rw [hq]
    rfl
  · rw [hq]
    rfl

/-- Equal numbers have a difference of zero. -/
theorem isZero_sub {p q : Float32} (hp : p.isFinite = true) (h : p ≤ q) (h' : q ≤ p) :
    IsZero (q - p) := by
  have hq := isFinite_of_eq hp h h'
  have hvalue : value (parts q) - value (parts p) = 0 :=
    sub_eq_zero.2 (le_antisymm ((le_iff_value hq hp).1 h') ((le_iff_value hp hq).1 h))
  have hrounding := isRounding_sub hq hp
  rw [hvalue] at hrounding
  exact hrounding.isZero

/-- Finite numbers of which one is the negative of the other, but for the sign of a zero. -/
structure IsOpposite (x y : Float32) : Prop where
  left : x.isFinite = true
  right : y.isFinite = true
  rank_eq : rank (parts y) = -rank (parts x)

variable {a x y z : Float32}

theorem isOpposite_neg (h : x.isFinite = true) : IsOpposite x (-x) :=
  ⟨h, (isFinite_neg x).trans h, by rw [parts_neg, rank_neg]⟩

/-- Only zeros share their rank. -/
theorem finite_eq_of_rank {s t : Sign} {m m' : ℕ} {e e' : ℤ} {hm : 0 < m} {hm' : 0 < m'}
    (h : rank (.finite s m e hm) = rank (.finite t m' e' hm')) :
    UnpackedFloat.finite s m e hm = .finite t m' e' hm' := by
  cases s <;> cases t <;> dsimp only [rank] at h <;>
    simp only [toLex_inj, Prod.mk.injEq] at h
  case negative.negative | positive.positive =>
    obtain ⟨rfl, rfl⟩ : e = e' ∧ m = m' := by omega
    rfl
  all_goals omega

/-- Opposite numbers are zeros, or negatives of each other. -/
theorem IsOpposite.cases (h : IsOpposite x y) :
    (∃ s t, parts x = .zero s ∧ parts y = .zero t) ∨ parts y = parts (-x) := by
  have hrank := h.rank_eq
  rw [parts_neg]
  obtain ⟨s, hu⟩ | ⟨s, m, e, hm, -, hu⟩ := parts_of_isFinite h.left <;>
    obtain ⟨t, hv⟩ | ⟨t, m', e', hm', -, hv⟩ := parts_of_isFinite h.right <;>
      rw [hu, hv] at hrank ⊢
  · exact .inl ⟨s, t, rfl, rfl⟩
  · cases t <;> cases hrank
  · cases s <;> cases hrank
  · rw [← rank_neg] at hrank
    exact .inr (finite_eq_of_rank hrank)

/-- The product with a zero is a zero. -/
theorem parts_mul_zero (ha : a.isFinite = true) {s : Sign} (hx : parts x = .zero s) :
    ∃ t, parts (a * x) = .zero t := by
  show ∃ t, parts (ofParts ((parts a).mul .binary32 (parts x))) = .zero t
  rw [hx]
  obtain ⟨t, ha⟩ | ⟨t, m, e, hm, -, ha⟩ := parts_of_isFinite ha
  · rw [ha]
    exact ⟨_, Binary.unpack_zero .binary32 _⟩
  · rw [ha]
    exact ⟨_, Binary.unpack_zero .binary32 _⟩

/-- Opposite factors give opposite products, also where these are infinite. -/
theorem IsOpposite.rank_mul (ha : a.isFinite = true) (h : IsOpposite x y) :
    rank (parts (a * y)) = -rank (parts (a * x)) := by
  obtain ⟨s, t, hx, hy⟩ | hneg := h.cases
  · obtain ⟨s', hax⟩ := parts_mul_zero ha hx
    obtain ⟨t', hay⟩ := parts_mul_zero ha hy
    rw [hax, hay]
    rfl
  · have hproduct : a * y = a * -x := congrArg (fun u => ofParts ((parts a).mul .binary32 u)) hneg
    rw [hproduct, parts_mul_neg ha h.left, rank_neg]

/-- A number of the rank of a finite product is finite too. -/
theorem IsOpposite.mul (ha : a.isFinite = true) (h : IsOpposite x y)
    (hfinite : (a * x).isFinite = true) : IsOpposite (a * x) (a * y) := by
  refine ⟨hfinite, ?_, h.rank_mul ha⟩
  obtain ⟨s, t, hx, hy⟩ | hneg := h.cases
  · obtain ⟨t', hay⟩ := parts_mul_zero ha hy
    show (parts (a * y)).isFinite = true
    rw [hay]
    rfl
  · have hproduct : a * y = a * -x := congrArg (fun u => ofParts ((parts a).mul .binary32 u)) hneg
    have hsame : (parts (a * x)).neg.isFinite = (parts (a * x)).isFinite := by
      cases parts (a * x) <;> rfl
    rw [hproduct]
    show (parts (a * -x)).isFinite = true
    rw [parts_mul_neg ha h.left, hsame]
    exact hfinite

/-- Opposite numbers add up to a zero. -/
theorem IsOpposite.isZero_add (h : IsOpposite x y) : IsZero (x + y) := by
  have hvalue : value (parts y) = -value (parts x) := by
    rw [← value_neg, ← parts_neg]
    exact value_eq h.right ((isFinite_neg x).trans h.left)
      (by rw [h.rank_eq, parts_neg, rank_neg])
  have hrounding := isRounding_add h.left h.right
  rw [hvalue, add_neg_cancel] at hrounding
  exact hrounding.isZero

/-- Taking a number from a zero gives its opposite. -/
theorem isOpposite_zero_sub (hz : IsZero z) (hx : x.isFinite = true) : IsOpposite x (z - x) := by
  obtain ⟨s, hz⟩ := isZero_iff.1 hz
  have hdiff : parts (z - x) = parts (ofParts ((parts z).sub .binary32 (parts x))) := rfl
  rw [hz] at hdiff
  obtain ⟨t, hx'⟩ | ⟨t, m, e, hm, he, hx'⟩ := parts_of_isFinite hx
  · have hzero : ∃ r, parts (z - x) = .zero r := by
      rw [hdiff, hx']
      cases s <;> cases t <;> exact ⟨_, rfl⟩
    obtain ⟨r, hzero⟩ := hzero
    refine ⟨hx, ?_, ?_⟩
    · show (parts (z - x)).isFinite = true
      rw [hzero]
      rfl
    · rw [hzero, hx']
      rfl
  · have hneg : parts (z - x) = (parts x).neg := by
      rw [hdiff, hx']
      exact Binary.unpack_pack (-t) hm he
    refine ⟨hx, ?_, by rw [hneg, rank_neg]⟩
    show (parts (z - x)).isFinite = true
    rw [hneg, hx']
    rfl

/-! ## Back at the start -/

/-- The cross product of the ways from a centre to the start and to a target. -/
def cross (toCenter toTarget : Vec2 Float32) : Float32 :=
  -toCenter.x * toTarget.y + toCenter.y * toTarget.x

/-- The dot product of these ways. -/
def dot (toCenter toTarget : Vec2 Float32) : Float32 :=
  -toCenter.x * toTarget.x - toCenter.y * toTarget.y

variable {c t : Vec2 Float32}

theorem isZero_cross (hx : IsOpposite c.x t.x) (hy : IsOpposite c.y t.y)
    (hfinite : (c.x * c.y).isFinite = true) : IsZero (cross c t) := by
  rw [Single.mul_comm] at hfinite
  have hneg : (-c.x).isFinite = true := (isFinite_neg c.x).trans hx.left
  have hmirror : IsOpposite (c.y * c.x) (c.y * -c.x) := (isOpposite_neg hx.left).mul hy.left hfinite
  have hfirst : IsOpposite (-c.x * c.y) (-c.x * t.y) := by
    apply hy.mul hneg
    rw [Single.mul_comm]
    exact hmirror.right
  have hsecond : IsOpposite (c.y * c.x) (c.y * t.x) := hx.mul hy.left hfinite
  apply IsOpposite.isZero_add
  refine ⟨hfirst.right, hsecond.right, ?_⟩
  rw [hsecond.rank_eq, hfirst.rank_eq, Single.mul_comm (-c.x), hmirror.rank_eq, neg_neg]

theorem zero_le_rank_mul_self (x : Float32) : 0 ≤ rank (parts (x * x)) := by
  refine not_lt.1 fun hlt => ?_
  have hbelow : IsBelow (parts (x * x)) := (rank_lt_zero_iff _).1 hlt
  exact not_isBelow_ofParts (not_isBelow_mul_self (parts x)) hbelow

/-- Offsets of some length have a square above zero. -/
theorem zero_lt_rank_mul_self_or (hx : c.x.isFinite = true) (hy : c.y.isFinite = true)
    (h : ¬ c.length ≤ Machine.minRadius) :
    0 < rank (parts (c.x * c.x)) ∨ 0 < rank (parts (c.y * c.y)) := by
  by_contra hnone
  rw [not_or, not_lt, not_lt] at hnone
  have hsquare : ∀ {x : Float32}, x.isFinite = true → rank (parts (x * x)) ≤ 0 →
      IsZero (x * x) := fun {x} hx hle => by
    have hrank := le_antisymm hle (zero_le_rank_mul_self x)
    have hne := (isRounding_mul hx hx).ne
    rw [IsZero, le_iff, le_iff]
    exact ⟨⟨hne, nofun, hrank.le⟩, nofun, hne, hrank.ge⟩
  obtain ⟨s, hx'⟩ := isZero_iff.1 (hsquare hx hnone.1)
  obtain ⟨t, hy'⟩ := isZero_iff.1 (hsquare hy hnone.2)
  have hlength : IsZero c.length := by
    rw [isZero_iff]
    show ∃ s, parts (ofParts ((parts (ofParts ((parts (c.x * c.x)).add .binary32
      (parts (c.y * c.y))))).sqrt .binary32)) = .zero s
    rw [hx', hy']
    cases s <;> cases t <;> exact ⟨_, rfl⟩
  have hmin : (0.0 : Float32) ≤ Machine.minRadius := by decide +kernel
  exact h (Scalar.num_le_trans hlength.1 hmin)

theorem zero_lt_dot (hx : IsOpposite c.x t.x) (hy : IsOpposite c.y t.y)
    (h : ¬ c.length ≤ Machine.minRadius) : 0.0 < dot c t := by
  have hneg : (-c.x).isFinite = true := (isFinite_neg c.x).trans hx.left
  have hfirst : rank (parts (-c.x * t.x)) = rank (parts (c.x * c.x)) := by
    rw [hx.rank_mul hneg, Single.mul_comm, (isOpposite_neg hx.left).rank_mul hx.left, neg_neg]
  have hsecond : rank (parts (c.y * t.y)) = -rank (parts (c.y * c.y)) := hy.rank_mul hy.left
  have hpos := zero_lt_rank_mul_self_or hx.left hy.left h
  have hx' := zero_le_rank_mul_self c.x
  have hy' := zero_le_rank_mul_self c.y
  apply Scalar.Gradual.zero_lt_sub
  rw [lt_iff, hfirst, hsecond]
  refine ⟨(isRounding_mul hy.left hy.right).ne, (isRounding_mul hneg hx.right).ne, ?_⟩
  rcases hpos with hpos | hpos
  · exact (neg_nonpos.2 hy').trans_lt hpos
  · exact (neg_neg_of_pos hpos).trans_le hx'

end Single

end Toolpath
