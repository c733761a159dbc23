import Toolpath.Proofs.CrestTheorems
import Toolpath.Proofs.PathTheorems
import Toolpath.Proofs.SingleRoundingTheorems

/-!
# Turning the axes

The three working planes are one plane, seen from axes that are turned in their cyclic order. A
rotation takes the first axis to the second, the second to the third and the third to the first;
it turns points, planes, settings, and the words of a program that name axes or planes.

* The feed rate, the codes and the target of a block turn with it (`Machine.applyFeed_rotate`,
  `Machine.applyCodes_rotate`, `Machine.targetOf_rotate`), and so does its arc, whose in-plane
  coordinates stay what they are (`Machine.arcMove_rotate`).
* Whether a straight move is too short is asked of the axes one after the other, which makes no
  difference for finite coordinates (`Vec3.lt_maxAbs_iff`).
* The turned program makes the turned path (`interpretation_rotate`).
-/

namespace Toolpath

open Scalar

/-! ## The rotation -/

/-- The next axis. -/
def Axis.rotate : Axis → Axis
  | x => y
  | y => z
  | z => x

/-- The plane of the next axes. -/
def Plane.rotate : Plane → Plane
  | xy => yz
  | yz => zx
  | zx => xy

/-- Every coordinate moves to the next axis. -/
def Vec3.rotate {α : Type} (v : Vec3 α) : Vec3 α := ⟨v.z, v.x, v.y⟩

/-- The letter for the next axis, of coordinates and of arc centres. -/
def rotateLetter : Char → Char
  | 'X' => 'Y'
  | 'Y' => 'Z'
  | 'Z' => 'X'
  | 'I' => 'J'
  | 'J' => 'K'
  | 'K' => 'I'
  | c => c

/-- A word about axes becomes the word about the next ones; a code that selects a plane selects the
next one. -/
def Word.rotate (w : Word) : Word :=
  if w.letter = 'G' then
    if w.code = "17" then .ofValue 'G' 19.0
    else if w.code = "19" then .ofValue 'G' 18.0
    else if w.code = "18" then .ofValue 'G' 17.0
    else w
  else { w with letter := rotateLetter w.letter }

/-- A block of the turned words. -/
def Block.rotate (b : Block) : Block := ⟨b.line, b.words.map Word.rotate⟩

/-- The effect of a turned code. -/
def Effect.rotate : Effect → Effect
  | plane p => plane p.rotate
  | effect => effect

section Rotation

variable {α : Type}

/-- Settings with turned points. -/
def MachineSettings.rotate (s : MachineSettings α) : MachineSettings α :=
  { s with
    initialPosition := s.initialPosition.rotate
    workOffsets := s.workOffsets.map Vec3.rotate }

/-- Settings of the turned machine. -/
def Settings.rotate (s : Settings α) : Settings α := { s with machine := s.machine.rotate }

/-- The turned machine. -/
def Machine.rotate (m : Machine α) : Machine α :=
  { m with position := m.position.rotate, plane := m.plane.rotate }

/-- An arc stays what it is in the plane of the next axes. -/
def Shape.rotate : Shape α → Shape α
  | line => line
  | arc a => arc { a with plane := a.plane.rotate }

/-- The same move between the turned points. -/
def Move.rotate [Scalar α] (m : Move α) : Move α :=
  { Move.make m.shape.rotate m.source.rotate m.target.rotate m.feedRate m.line m.pace with
    index := m.index }

end Rotation

/-! ## Words -/

/-- Three turns lead back. -/
theorem rotateLetter_cycle (c : Char) : rotateLetter (rotateLetter (rotateLetter c)) = c := by
  by_cases h : c ∈ ['X', 'Y', 'Z', 'I', 'J', 'K']
  · simp only [List.mem_cons, List.not_mem_nil, or_false] at h
    rcases h with rfl | rfl | rfl | rfl | rfl | rfl <;> rfl
  · have hsame : rotateLetter c = c := by
      simp only [List.mem_cons, List.not_mem_nil, or_false, not_or] at h
      obtain ⟨hX, hY, hZ, hI, hJ, hK⟩ := h
      unfold rotateLetter
      split
      · exact absurd rfl hX
      · exact absurd rfl hY
      · exact absurd rfl hZ
      · exact absurd rfl hI
      · exact absurd rfl hJ
      · exact absurd rfl hK
      · rfl
    rw [hsame, hsame, hsame]

theorem rotateLetter_injective : Function.Injective rotateLetter := by
  intro c c' h
  rw [← rotateLetter_cycle c, h, rotateLetter_cycle c']

theorem Word.letter_rotate (w : Word) : w.rotate.letter = rotateLetter w.letter := by
  unfold Word.rotate
  split_ifs with hG
  · rw [hG]
    rfl
  · rw [hG]
    rfl
  · rw [hG]
    rfl
  · rw [hG]
    rfl
  · rfl

theorem Word.value_rotate {w : Word} (h : w.letter ≠ 'G') : w.rotate.value = w.value := by
  unfold Word.rotate
  rw [if_neg h]

namespace Block

variable {α : Type} [Scalar α]

/-- The last word with a letter is turned into the last one with the next letter. -/
theorem word?_rotate (b : Block) {letter next : Char}
    (h : next.toUpper = rotateLetter letter.toUpper) :
    b.rotate.word? next = (b.word? letter).map Word.rotate := by
  unfold word? rotate
  dsimp only
  rw [← List.map_reverse, List.find?_map, h]
  congr 2
  funext w
  -- letters that differ still do when they are turned
  have hiff : w.rotate.letter = rotateLetter letter.toUpper ↔ w.letter = letter.toUpper := by
    rw [w.letter_rotate, rotateLetter_injective.eq_iff]
  simp only [Function.comp_apply, hiff]

/-- Its value stays, unless it is a code. -/
theorem value?_rotate (b : Block) {letter next : Char}
    (h : next.toUpper = rotateLetter letter.toUpper) (hcode : letter.toUpper ≠ 'G') :
    (b.rotate.value? next : Option α) = b.value? letter := by
  unfold value?
  rw [b.word?_rotate h]
  rcases hword : b.word? letter with _ | w
  · rfl
  · have hletter : w.letter = letter.toUpper := by
      have hfound := List.find?_some hword
      exact of_decide_eq_true hfound
    rw [Option.map_some, Option.map_some, Option.map_some, Word.value_rotate (hletter ▸ hcode)]

theorem codeWords_rotate (b : Block) : b.rotate.codeWords = b.codeWords.map Word.rotate := by
  unfold codeWords rotate
  dsimp only
  rw [List.filter_map]
  congr 2
  funext w
  have hiff : w.rotate.letter = 'G' ↔ w.letter = 'G' := by
    rw [w.letter_rotate, show 'G' = rotateLetter 'G' from rfl, rotateLetter_injective.eq_iff]
    rfl
  simp only [Function.comp_apply, hiff]

theorem letter_of_mem_codeWords {b : Block} {w : Word} (h : w ∈ b.codeWords) : w.letter = 'G' :=
  of_decide_eq_true (List.mem_filter.1 h).2

theorem axisWords_rotate (b : Block) :
    (b.rotate.axisWords : AxisWords α) = (b.axisWords : AxisWords α).rotate := by
  have haxis : ∀ axis : Axis,
      (b.rotate.value? axis.rotate.letter : Option α) = b.value? axis.letter := by
    intro axis
    cases axis <;> exact b.value?_rotate (by decide) (by decide)
  show Vec3.mk _ _ _ = Vec3.mk (b.value? Axis.z.letter) (b.value? Axis.x.letter)
    (b.value? Axis.y.letter)
  rw [← haxis .x, ← haxis .y, ← haxis .z]
  rfl

theorem centerWord_rotate (b : Block) (axis : Axis) :
    (b.rotate.value? axis.rotate.centerLetter : Option α) = b.value? axis.centerLetter := by
  cases axis <;> exact b.value?_rotate (by decide) (by decide)

end Block

/-! ## Codes -/

theorem code_ofValue_plane : (Word.ofValue 'G' 17.0).code = "17" ∧
    (Word.ofValue 'G' 18.0).code = "18" ∧ (Word.ofValue 'G' 19.0).code = "19" := by
  decide +kernel

/-- Only the three codes select a plane. -/
theorem Effect.rotate_of_code {code : String} (hxy : code ≠ "17") (hyz : code ≠ "19")
    (hzx : code ≠ "18") : (Effect.ofCode? code).map Effect.rotate = Effect.ofCode? code := by
  have htable : ∀ entry ∈ modalTable, entry.1 ≠ "17" → entry.1 ≠ "19" → entry.1 ≠ "18" →
      entry.2.rotate = entry.2 := by decide
  rcases heffect : Effect.ofCode? code with _ | effect
  · rfl
  · obtain ⟨front, rest, hsplit, -⟩ := List.lookup_eq_some_iff.1 heffect
    have hmem : (code, effect) ∈ modalTable := by
      rw [hsplit]
      simp
    rw [Option.map_some, htable _ hmem hxy hyz hzx]

/-- A code that does not select a plane stays, and the others are known. -/
theorem Word.rotate_cases {w : Word} (h : w.letter = 'G') :
    w.rotate = w ∧ (Effect.ofCode? w.code).map Effect.rotate = Effect.ofCode? w.code ∨
      ∃ p : Plane, Effect.ofCode? w.code = some (.plane p) ∧
        Effect.ofCode? w.rotate.code = some (.plane p.rotate) := by
  obtain ⟨hxy, hzx, hyz⟩ := code_ofValue_plane
  unfold Word.rotate
  rw [if_pos h]
  split_ifs with h17 h19 h18
  · exact .inr ⟨.xy, by rw [h17]; decide, by rw [hyz]; decide⟩
  · exact .inr ⟨.yz, by rw [h19]; decide, by rw [hzx]; decide⟩
  · exact .inr ⟨.zx, by rw [h18]; decide, by rw [hxy]; decide⟩
  · exact .inl ⟨rfl, Effect.rotate_of_code h17 h19 h18⟩

theorem Word.effect_rotate {w : Word} (h : w.letter = 'G') :
    Effect.ofCode? w.rotate.code = (Effect.ofCode? w.code).map Effect.rotate := by
  rcases w.rotate_cases h with ⟨hsame, heffect⟩ | ⟨p, hplane, hnext⟩
  · rw [hsame, heffect]
  · rw [hplane, hnext]
    rfl

namespace Machine

variable {α : Type} [Scalar α]

omit [Scalar α] in
theorem applyCode_rotate (m : Machine α) {w : Word} (h : w.letter = 'G') :
    m.rotate.applyCode w.rotate = (m.applyCode w).rotate := by
  unfold applyCode
  rw [Word.effect_rotate h]
  rcases Effect.ofCode? w.code with _ | effect
  · rfl
  · cases effect <;> rfl

omit [Scalar α] in
theorem codeProblem?_rotate (s : Strictness) (line : ℕ) {w : Word} (h : w.letter = 'G') :
    (codeProblem? s line w.rotate.code : Option (Problem α)) = codeProblem? s line w.code := by
  rcases w.rotate_cases h with ⟨hsame, -⟩ | ⟨p, hplane, hnext⟩
  · rw [hsame]
  · unfold codeProblem?
    rw [hplane, hnext]
    cases s <;> rfl

omit [Scalar α] in
theorem applyCodes_rotate (m : Machine α) (s : Strictness) (b : Block) :
    m.rotate.applyCodes s b.rotate = ((m.applyCodes s b).1.rotate, (m.applyCodes s b).2) := by
  have hcodes : ∀ (words : List Word) (m : Machine α), (∀ w ∈ words, w.letter = 'G') →
      (words.map Word.rotate).foldl applyCode m.rotate = (words.foldl applyCode m).rotate := by
    intro words
    induction words with
    | nil => exact fun _ _ => rfl
    | cons w rest ih =>
      intro m hwords
      rw [List.map_cons, List.foldl_cons, applyCode_rotate m (hwords w List.mem_cons_self)]
      exact ih (m.applyCode w) fun x hx => hwords x (List.mem_cons_of_mem w hx)
  have hproblems : (b.codeWords.map Word.rotate).filterMap
        (fun w => (codeProblem? s b.line w.code : Option (Problem α))) =
      b.codeWords.filterMap fun w => codeProblem? s b.line w.code := by
    rw [List.filterMap_map]
    apply List.filterMap_congr
    intro w hw
    exact codeProblem?_rotate s b.line (Block.letter_of_mem_codeWords hw)
  unfold applyCodes
  rw [b.codeWords_rotate, hcodes b.codeWords m fun w hw => Block.letter_of_mem_codeWords hw]
  exact congrArg (Prod.mk _) hproblems

theorem applyFeed_rotate (m : Machine α) (b : Block) :
    m.rotate.applyFeed b.rotate = ((m.applyFeed b).1.rotate, (m.applyFeed b).2) := by
  unfold applyFeed
  rw [b.value?_rotate (by decide : 'F'.toUpper = rotateLetter 'F'.toUpper) (by decide)]
  rcases (b.value? 'F' : Option α) with _ | x
  · rfl
  · dsimp only
    split_ifs <;> rfl

/-! ## Targets and arcs -/

theorem originOffset_rotate (s : MachineSettings α) (origin : Origin) :
    s.rotate.originOffset origin = (s.originOffset origin).rotate := by
  unfold MachineSettings.originOffset MachineSettings.rotate
  dsimp only
  rw [List.getElem?_map]
  cases s.workOffsets[origin.val]? <;> rfl

theorem targetOf_rotate (m : Machine α) (s : MachineSettings α) (axes : AxisWords α) :
    m.rotate.targetOf s.rotate axes.rotate = (m.targetOf s axes).rotate := by
  unfold targetOf
  have horigin : m.rotate.origin = m.origin := rfl
  rw [horigin, originOffset_rotate]
  rfl

omit [Scalar α] in
theorem project_rotate (plane : Plane) (v : Vec3 α) :
    plane.rotate.project v.rotate = plane.project v := by
  cases plane <;> rfl

theorem circle_rotate (m : Machine α) (b : Block) (target : Vec3 α) (clockwise : Bool) :
    m.rotate.circle b.rotate target.rotate clockwise = m.circle b target clockwise := by
  have hfirst : (b.rotate.value? m.rotate.plane.firstAxis.centerLetter : Option α) =
      b.value? m.plane.firstAxis.centerLetter := by
    rw [← b.centerWord_rotate]
    cases hplane : m.plane <;> simp [rotate, hplane, Plane.rotate, Plane.firstAxis, Axis.rotate]
  have hsecond : (b.rotate.value? m.rotate.plane.secondAxis.centerLetter : Option α) =
      b.value? m.plane.secondAxis.centerLetter := by
    rw [← b.centerWord_rotate]
    cases hplane : m.plane <;> simp [rotate, hplane, Plane.rotate, Plane.secondAxis, Axis.rotate]
  -- in the plane nothing has moved
  have hproject : ∀ v : Vec3 α, m.rotate.plane.project v.rotate = m.plane.project v :=
    project_rotate m.plane
  unfold circle
  rw [b.value?_rotate (by decide : 'R'.toUpper = rotateLetter 'R'.toUpper) (by decide), hfirst,
    hsecond, hproject target, show m.rotate.position = m.position.rotate from rfl,
    hproject m.position]
  rfl

theorem arcMove_rotate (m : Machine α) (b : Block) (target : Vec3 α) (clockwise : Bool) :
    m.rotate.arcMove b.rotate target.rotate clockwise =
      (m.arcMove b target clockwise).map Move.rotate := by
  have hproject : ∀ v : Vec3 α, m.rotate.plane.project v.rotate = m.plane.project v :=
    project_rotate m.plane
  unfold arcMove
  rw [circle_rotate]
  rcases m.circle b target clockwise with problem | circle
  · rfl
  · have harc : m.rotate.arcOf circle target.rotate clockwise =
        { m.arcOf circle target clockwise with plane := m.plane.rotate } := by
      unfold arcOf
      rw [hproject target, show m.rotate.position = m.position.rotate from rfl,
        hproject m.position]
      rfl
    show Except.ok _ = Except.ok _
    rw [harc]
    rfl

end Machine

/-! ## Straight moves -/

instance {α : Type} [Scalar α] (v : Vec3 α) : Decidable v.IsFinite :=
  decidable_of_iff (isFinite v.x = true ∧ isFinite v.y = true ∧ isFinite v.z = true)
    ⟨fun ⟨hx, hy, hz⟩ => ⟨hx, hy, hz⟩, fun h => ⟨h.x, h.y, h.z⟩⟩

section Magnitude

variable {α : Type} [Arithmetic α] [NumberOrder α] {a b c : α}

/-- The larger of two numbers exceeds what one of them exceeds. -/
theorem lt_larger_iff (ha : IsNumber a) (hb : IsNumber b) :
    c < larger a b ↔ c < a ∨ c < b := by
  unfold larger
  split_ifs with hlt
  · constructor
    · exact .inl
    · rintro (h | h)
      · exact h
      · exact num_lt_of_lt_of_le h (num_le_of_lt hlt)
  · constructor
    · exact .inr
    · rintro (h | h)
      · exact num_lt_of_lt_of_le h (num_le_of_not_lt hb ha hlt)
      · exact h

omit [NumberOrder α] in
theorem isNumber_larger (ha : IsNumber a) (hb : IsNumber b) : IsNumber (larger a b) := by
  unfold larger
  split_ifs
  · exact ha
  · exact hb

/-- The greatest magnitude asks the same of all axes, as long as they have numbers. -/
theorem Vec3.lt_maxAbs_iff {v : Vec3 α} (hx : IsNumber (abs v.x)) (hy : IsNumber (abs v.y))
    (hz : IsNumber (abs v.z)) :
    c < v.maxAbs ↔ c < abs v.x ∨ c < abs v.y ∨ c < abs v.z := by
  unfold Vec3.maxAbs
  rw [lt_larger_iff hx (isNumber_larger hy hz), lt_larger_iff hy hz]

end Magnitude

variable {α : Type} [Scalar α] [Rounding α]

/-- Between finite points the greatest displacement is the one between the turned points. -/
theorem Vec3.lt_maxAbs_rotate {c : α} {target source : Vec3 α} (htarget : target.IsFinite)
    (hsource : source.IsFinite) :
    c < (target.rotate - source.rotate).maxAbs ↔ c < (target - source).maxAbs := by
  have hnumber : ∀ a b : α, isFinite a = true → isFinite b = true → IsNumber (abs (a - b)) := by
    intro a b ha hb
    have hb := Rounding.isNumber_of_isFinite b hb
    exact Rounding.isNumber_abs _ (Rounding.isNumber_sub a b ha hb)
  have hx := hnumber _ _ htarget.x hsource.x
  have hy := hnumber _ _ htarget.y hsource.y
  have hz := hnumber _ _ htarget.z hsource.z
  have hturned : c < (target.rotate - source.rotate).maxAbs ↔
      c < abs (target.z - source.z) ∨ c < abs (target.x - source.x) ∨
        c < abs (target.y - source.y) := lt_maxAbs_iff hz hx hy
  have hplain : c < (target - source).maxAbs ↔
      c < abs (target.x - source.x) ∨ c < abs (target.y - source.y) ∨
        c < abs (target.z - source.z) := lt_maxAbs_iff hx hy hz
  rw [hturned, hplain, or_comm, or_assoc]

namespace Machine

theorem straightMove_rotate (m : Machine α) (s : MachineSettings α) (line : ℕ) (pace : Pace)
    {target : Vec3 α} (htarget : target.IsFinite) (hposition : m.position.IsFinite) :
    m.rotate.straightMove s.rotate line pace target.rotate =
      (m.straightMove s line pace target).map Move.rotate := by
  have hiff : minDisplacement < (target.rotate - m.rotate.position).maxAbs ↔
      minDisplacement < (target - m.position).maxAbs := Vec3.lt_maxAbs_rotate htarget hposition
  unfold straightMove
  by_cases hfar : minDisplacement < (target - m.position).maxAbs
  · rw [if_pos hfar, if_pos (hiff.2 hfar)]
    cases pace <;> rfl
  · rw [if_neg hfar, if_neg fun h => hfar (hiff.1 h)]
    rfl

/-! ## Programs -/

/-- Whether a straight motion that a block asks for is one between finite points. -/
def MovesFinitely (m : Machine α) (s : MachineSettings α) (b : Block) : Prop :=
  m.motion = .rapid ∨ m.motion = .linear →
    m.position.IsFinite ∧ (m.targetOf s b.axisWords).IsFinite

/-- Whether all straight motions of a program are ones between finite points. -/
def KeepsFinite (s : Settings α) : Machine α → Program → Prop
  | _, [] => True
  | m, b :: rest =>
    (m.prepared s b).MovesFinitely s.machine b ∧ KeepsFinite s (m.execute s b).machine rest

instance (m : Machine α) (s : MachineSettings α) (b : Block) : Decidable (m.MovesFinitely s b) :=
  inferInstanceAs (Decidable (_ → _))

instance decidableKeepsFinite (s : Settings α) :
    ∀ (m : Machine α) (p : Program), Decidable (m.KeepsFinite s p)
  | _, [] => .isTrue trivial
  | m, b :: rest =>
    have := decidableKeepsFinite s (m.execute s b).machine rest
    inferInstanceAs (Decidable (_ ∧ _))

theorem motionOf_rotate {m : Machine α} {s : MachineSettings α} {b : Block}
    (h : m.MovesFinitely s b) :
    m.rotate.motionOf s.rotate b.rotate = (m.motionOf s b).map (·.map Move.rotate) := by
  have hempty : (b.rotate.axisWords : AxisWords α).isEmpty =
      (b.axisWords : AxisWords α).isEmpty := by
    rw [b.axisWords_rotate]
    show (b.axisWords.z.isNone && b.axisWords.x.isNone && b.axisWords.y.isNone) = _
    rw [Bool.and_assoc, Bool.and_comm]
    rfl
  have htarget : m.rotate.targetOf s.rotate b.rotate.axisWords =
      (m.targetOf s b.axisWords).rotate := by
    rw [b.axisWords_rotate, targetOf_rotate]
  refine motionOf_image hempty (show m.rotate.motion = m.motion from rfl) ?_ ?_
  · intro pace hmotion
    obtain ⟨hposition, hfinite⟩ := h hmotion
    rw [htarget]
    exact straightMove_rotate m s b.line pace hfinite hposition
  · intro clockwise
    rw [htarget, arcMove_rotate]

/-- Executing a turned block comes to the turned outcome. -/
theorem execute_rotate {m : Machine α} {s : Settings α} {b : Block}
    (h : (m.prepared s b).MovesFinitely s.machine b) :
    m.rotate.execute s.rotate b.rotate =
      ⟨(m.execute s b).machine.rotate, (m.execute s b).move?.map Move.rotate,
        (m.execute s b).problems⟩ :=
  execute_image (m.applyFeed_rotate b) ((m.applyFeed b).1.applyCodes_rotate s.strictness b)
    (motionOf_rotate h) fun _ _ => rfl

omit [Scalar α] [Rounding α] in
theorem codeProblem?_plane (s : Strictness) (line : ℕ) {code : String} {plane : Plane}
    (heffect : Effect.ofCode? code = some (.plane plane)) :
    (codeProblem? s line code : Option (Problem α)) = none := by
  unfold codeProblem?
  rw [heffect]
  cases s <;> rfl

omit [Rounding α] in
/-- A code that selects a plane does nothing else. -/
theorem execute_plane (m : Machine α) (s : Settings α) (line : ℕ) {w : Word} {plane : Plane}
    (hletter : w.letter = 'G') (heffect : Effect.ofCode? w.code = some (.plane plane)) :
    m.execute s ⟨line, [w]⟩ = ⟨{ m with plane }, none, []⟩ := by
  have hvalue : ∀ letter : Char, 'G' ≠ letter.toUpper →
      ((⟨line, [w]⟩ : Block).value? letter : Option α) = none := by
    intro letter hne
    rw [← hletter] at hne
    simp [Block.value?, Block.word?, hne]
  have hcodes : (⟨line, [w]⟩ : Block).codeWords = [w] := by simp [Block.codeWords, hletter]
  have haxes : ((⟨line, [w]⟩ : Block).axisWords : AxisWords α) = ⟨none, none, none⟩ := by
    show Vec3.mk ((⟨line, [w]⟩ : Block).value? 'X') ((⟨line, [w]⟩ : Block).value? 'Y')
      ((⟨line, [w]⟩ : Block).value? 'Z') = _
    rw [hvalue 'X' (by decide), hvalue 'Y' (by decide), hvalue 'Z' (by decide)]
  -- the only word of the block selects the plane
  have happlied : m.applyCodes s.strictness ⟨line, [w]⟩ = ({ m with plane }, []) := by
    have hproblem : (codeProblem? s.strictness line w.code : Option (Problem α)) = none :=
      codeProblem?_plane _ _ heffect
    have hcode : m.applyCode w = { m with plane } := by
      unfold applyCode
      rw [heffect]
      rfl
    unfold applyCodes
    rw [hcodes, List.foldl_cons, hcode, List.filterMap_cons, hproblem]
    rfl
  unfold execute applyFeed motionOf
  rw [hvalue 'F' (by decide)]
  dsimp only
  rw [happlied, haxes]
  rfl

end Machine

namespace Interpretation

variable {σ σ' : Type} {s : Settings α} {listen : σ → Move α → σ} {listen' : σ' → Move α → σ'}
  {i : Interpretation α σ} {i' : Interpretation α σ'}

/-- Whether an interpretation has made the turned moves of another, and the same problems. -/
structure IsRotated (i : Interpretation α σ) (i' : Interpretation α σ') : Prop where
  machine_eq : i'.machine = i.machine.rotate
  path_eq : i'.path = i.path.map Move.rotate
  problems_eq : i'.problems = i.problems

theorem IsRotated.step (h : i.IsRotated i') {b : Block}
    (hfinite : (i.machine.prepared s b).MovesFinitely s.machine b) :
    (Interpretation.step s listen i b).IsRotated
      (Interpretation.step s.rotate listen' i' b.rotate) := by
  have hexecute := Machine.execute_rotate hfinite
  rw [← h.machine_eq] at hexecute
  have himage : IsImage Machine.rotate Move.rotate i i' := ⟨h.machine_eq, h.path_eq, h.problems_eq⟩
  obtain ⟨hmachine, hpath, hproblems⟩ :=
    himage.step (fun _ _ => rfl) hexecute
  exact ⟨hmachine, hpath, hproblems⟩

theorem IsRotated.run (h : i.IsRotated i') {p : Program}
    (hfinite : Machine.KeepsFinite s i.machine p) :
    (Interpretation.run s listen i p).IsRotated
      (Interpretation.run s.rotate listen' i' (p.map Block.rotate)) := by
  induction p generalizing i i' with
  | nil => exact h
  | cons b rest ih =>
    obtain ⟨hblock, hrest⟩ := hfinite
    have hmachine : (Interpretation.step s listen i b).machine = (i.machine.execute s b).machine :=
      machine_step
    rw [← hmachine] at hrest
    exact ih (h.step hblock) hrest

end Interpretation

/-- The turned program on the turned machine makes the turned moves, reports the same problems and
stops at the turned position, once each starts by selecting its plane. -/
theorem interpretation_rotate {σ σ' : Type} (s : Settings α) (line : ℕ) (p : Program)
    (listen : σ → Move α → σ) (listen' : σ' → Move α → σ') (before : σ) (before' : σ')
    (hfinite : (Machine.initial s).KeepsFinite s p) :
    (Interpretation.run s listen (.start s before)
        (.ofPairs line [('G', 17.0)] :: p)).IsRotated
      (Interpretation.run s.rotate listen' (.start s.rotate before')
        (.ofPairs line [('G', 19.0)] :: p.map Block.rotate)) := by
  obtain ⟨hxy, -, hyz⟩ := code_ofValue_plane
  have hselect : ∀ (m : Machine α) (s : Settings α),
      m.execute s (.ofPairs line [('G', 17.0)]) = ⟨{ m with plane := .xy }, none, []⟩ :=
    fun m s => m.execute_plane s line rfl (by rw [hxy]; decide)
  have hselect' : ∀ (m : Machine α) (s : Settings α),
      m.execute s (.ofPairs line [('G', 19.0)]) = ⟨{ m with plane := .yz }, none, []⟩ :=
    fun m s => m.execute_plane s line rfl (by rw [hyz]; decide)
  -- the machine starts in the first plane, so selecting it changes nothing
  have hfront : Interpretation.step s listen (.start s before) (.ofPairs line [('G', 17.0)]) =
      .start s before := by
    rw [Interpretation.step_of_none (by rw [hselect]), hselect]
    rfl
  have hfront' : (Interpretation.start s before).IsRotated
      (Interpretation.step s.rotate listen' (.start s.rotate before')
        (.ofPairs line [('G', 19.0)])) := by
    rw [Interpretation.step_of_none (by rw [hselect']), hselect']
    exact ⟨rfl, Array.map_empty.symm, rfl⟩
  unfold Interpretation.run
  rw [List.foldl_cons, List.foldl_cons, hfront]
  exact hfront'.run hfinite

/-- A line, an arc around a centre, and an arc of a radius in another plane, given by
displacements. -/
def turningBlocks : Program :=
  [.ofPairs 1 [('G', 1.0), ('X', 1.0), ('Y', 2.0)],
    .ofPairs 2 [('G', 2.0), ('X', 2.0), ('Y', 1.0), ('J', -1.0)],
    .ofPairs 3 [('G', 18.0), ('G', 91.0), ('G', 3.0), ('Z', 1.0), ('X', 1.0), ('R', 1.0)]]

/-- Three moves, and three turned moves. -/
theorem interpretation_rotate_turning :
    (Machine.initial (Settings.default : Settings Float32)).KeepsFinite .default turningBlocks ∧
      (Interpretation.run (Settings.default : Settings Float32) Array.push (.start .default #[])
        (.ofPairs 0 [('G', 17.0)] :: turningBlocks)).path.map (·.target) =
          #[⟨1.0, 2.0, 0.0⟩, ⟨2.0, 1.0, 0.0⟩, ⟨3.0, 1.0, 1.0⟩] ∧
      (Interpretation.run (Settings.default : Settings Float32) Array.push (.start .default #[])
        (.ofPairs 0 [('G', 17.0)] :: turningBlocks)).IsRotated
          (Interpretation.run (Settings.default : Settings Float32).rotate Array.push
            (.start Settings.default.rotate #[])
            (.ofPairs 0 [('G', 19.0)] :: turningBlocks.map Block.rotate)) := by
  have hfinite : (Machine.initial (Settings.default : Settings Float32)).KeepsFinite .default
      turningBlocks := by decide +kernel
  refine ⟨hfinite, by decide +kernel, ?_⟩
  exact interpretation_rotate .default 0 turningBlocks Array.push Array.push #[] #[] hfinite

end Toolpath
