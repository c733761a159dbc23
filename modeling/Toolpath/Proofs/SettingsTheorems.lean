import Toolpath.Settings
import Toolpath.Proofs.PlanTheorems

/-!
# Accepted settings

`Settings.IsValid` lists what validation asks of settings. They are accepted exactly when they meet
all of it (`Settings.validate_eq_ok`).
-/

namespace Toolpath

variable {α : Type} [Scalar α]

/-- A number that is finite and above zero. -/
def IsFinitePositive (x : α) : Prop := Scalar.isFinite x = true ∧ 0.0 < x

/-- What validation asks of settings. -/
structure Settings.IsValid (s : Settings α) : Prop where
  maxAcceleration : IsFinitePositive s.machine.maxAcceleration
  defaultFeedRate : IsFinitePositive s.machine.defaultFeedRate
  travelFeedRate : IsFinitePositive s.machine.travelFeedRate
  workOffsets : s.machine.workOffsets.length = originCount
  lineSteps : 1 ≤ s.sampling.lineSteps
  arcTolerance : IsFinitePositive s.sampling.arcTolerance
  maxArcSteps : 1 ≤ s.sampling.maxArcSteps
  maxRunPoints : 2 ≤ s.sampling.maxRunPoints
  dwellInterval : Scalar.isFinite s.sampling.dwellInterval = true ∧ 0.0 ≤ s.sampling.dwellInterval

theorem requirePositive_eq_ok {key : String} {x : α} :
    requirePositive key x = .ok () ↔ IsFinitePositive x := by
  unfold requirePositive IsFinitePositive
  split_ifs with h <;> simp [h]

omit [Scalar α] in
theorem requireAtLeast_eq_ok {least n : Nat} {key : String} :
    requireAtLeast least key n = (.ok () : Except (SettingFault α) Unit) ↔ least ≤ n := by
  unfold requireAtLeast
  split_ifs with h <;> simp [h]

theorem requireNonNegative_eq_ok {key : String} {x : α} :
    requireNonNegative key x = .ok () ↔ Scalar.isFinite x = true ∧ 0.0 ≤ x := by
  unfold requireNonNegative
  split_ifs with h <;> simp [h]

omit [Scalar α] in
theorem requireOffsets_eq_ok {key : String} {offsets : List (Vec3 α)} :
    requireOffsets key offsets = .ok () ↔ offsets.length = originCount := by
  unfold requireOffsets
  split_ifs with h <;> simp [h]

/-- A check in front of a computation has to pass. -/
theorem check_bind_eq_ok {ε γ : Type} {check : Except ε Unit} {rest : Except ε γ} {c : γ} :
    (check >>= fun _ => rest) = .ok c ↔ check = .ok () ∧ rest = .ok c := by
  rw [bind_eq_ok]
  constructor
  · rintro ⟨⟨⟩, hcheck, hrest⟩
    exact ⟨hcheck, hrest⟩
  · rintro ⟨hcheck, hrest⟩
    exact ⟨(), hcheck, hrest⟩

/-- Validation accepts exactly the settings that meet all of it. -/
theorem Settings.validate_eq_ok {s : Settings α} : s.validate = .ok () ↔ s.IsValid := by
  simp only [Settings.validate, check_bind_eq_ok, requirePositive_eq_ok, requireAtLeast_eq_ok,
    requireNonNegative_eq_ok, requireOffsets_eq_ok]
  constructor
  · rintro ⟨h₁, h₂, h₃, h₄, h₅, h₆, h₇, h₈, h₉⟩
    exact ⟨h₁, h₂, h₃, h₄, h₅, h₆, h₇, h₈, h₉⟩
  · rintro ⟨h₁, h₂, h₃, h₄, h₅, h₆, h₇, h₈, h₉⟩
    exact ⟨h₁, h₂, h₃, h₄, h₅, h₆, h₇, h₈, h₉⟩

/-- The default settings are accepted. -/
theorem Settings.isValid_default : (Settings.default : Settings ℝ).IsValid where
  maxAcceleration := ⟨rfl, by norm_num [Settings.default, MachineSettings.default]⟩
  defaultFeedRate := ⟨rfl, by norm_num [Settings.default, MachineSettings.default]⟩
  travelFeedRate := ⟨rfl, by norm_num [Settings.default, MachineSettings.default]⟩
  workOffsets := List.length_replicate
  lineSteps := by decide
  arcTolerance := ⟨rfl, by norm_num [Settings.default, SamplingSettings.default]⟩
  maxArcSteps := by decide
  maxRunPoints := by decide
  dwellInterval := ⟨rfl, by norm_num [Settings.default, SamplingSettings.default]⟩

end Toolpath
