import Toolpath.Proofs.DropTheorems

/-!
# The order of words

A block is asked for the last word with a letter, and for its code words in order. So only the
order of words with one letter counts: two blocks that give the words of each letter in one order
come to the same (`Block.IsReordering`), and they hold the same words
(`Block.IsReordering.perm`).

Of the code words not even all the order counts. A code sets one mode and looks at none, so two
neighbouring codes of different groups may be exchanged (`Block.IsExchange`,
`Machine.applyEffect_comm`).

Either way the block moves the machine to the same state, makes the same move and reports the same
problems in the same order (`Machine.execute_reordered`).
-/

namespace Toolpath

variable {α σ : Type}

/-! ## Modal groups -/

/-- The parts of the machine that a code can set. -/
inductive ModalGroup where
  | motion
  | plane
  | distance
  | origin
  | pathControl
  deriving DecidableEq

/-- The group of a code's effect, if it sets a mode. -/
def Effect.group? : Effect → Option ModalGroup
  | .motion _ => some .motion
  | .plane _ => some .plane
  | .distance _ => some .distance
  | .origin _ => some .origin
  | .pathControl _ => some .pathControl
  | .none => Option.none
  | .unsupported => Option.none

/-- The group that a code word belongs to. -/
def Word.group? (w : Word) : Option ModalGroup := (Effect.ofCode? w.code).bind Effect.group?

/-! ## Blocks with the words in another order -/

namespace Block

variable {b c : Block}

/-- Two blocks of one line that give the same words with a letter, in one order, for each letter
but that of the codes. -/
structure SharesValues (b c : Block) : Prop where
  line_eq : b.line = c.line
  words_eq : ∀ letter, letter ≠ 'G' →
    b.words.filter (·.letter = letter) = c.words.filter (·.letter = letter)

/-- Two blocks of one line that give the same words with a letter, in one order, for each letter. -/
structure IsReordering (b c : Block) : Prop where
  line_eq : b.line = c.line
  words_eq : ∀ letter, b.words.filter (·.letter = letter) = c.words.filter (·.letter = letter)

/-- Two blocks that differ in the order of two neighbouring codes of different groups. -/
structure IsExchange (b c : Block) : Prop extends SharesValues b c where
  codes : ∃ front w w' back group group', b.codeWords = front ++ w :: w' :: back ∧
    c.codeWords = front ++ w' :: w :: back ∧ w.group? = some group ∧ w'.group? = some group' ∧
    group ≠ group'

theorem IsReordering.sharesValues (h : b.IsReordering c) : b.SharesValues c :=
  ⟨h.line_eq, fun letter _ => h.words_eq letter⟩

theorem IsReordering.codeWords_eq (h : b.IsReordering c) : b.codeWords = c.codeWords :=
  h.words_eq 'G'

/-- Blocks that give the words of each letter in one order hold the same words. -/
theorem IsReordering.perm (h : b.IsReordering c) : b.words.Perm c.words := by
  rw [List.perm_iff_count]
  intro w
  have hcount : ∀ words : List Word,
      (words.filter (·.letter = w.letter)).count w = words.count w :=
    fun words => List.count_filter (by simp)
  rw [← hcount b.words, ← hcount c.words, h.words_eq]

/-- Two neighbours change places for a choice that leaves one of them out. -/
theorem filter_swap {β : Type} {p : β → Bool} {x y : β} (h : p x = true → p y = false)
    (front back : List β) : (front ++ x :: y :: back).filter p =
      (front ++ y :: x :: back).filter p := by
  rw [List.filter_append, List.filter_append]
  congr 1
  cases hx : p x with
  | true => simp [hx, h hx]
  | false => simp [List.filter_cons, hx]

/-- Two neighbours with different letters may change places. -/
theorem isReordering_swap (line : ℕ) (front back : List Word) {w w' : Word}
    (h : w.letter ≠ w'.letter) :
    IsReordering ⟨line, front ++ w :: w' :: back⟩ ⟨line, front ++ w' :: w :: back⟩ where
  line_eq := rfl
  words_eq letter := by
    apply filter_swap
    intro hw
    rw [← of_decide_eq_true hw]
    exact decide_eq_false h.symm

/-- Two neighbouring codes of different groups change places. -/
theorem isExchange_swap (line : ℕ) (front back : List Word) {w w' : Word}
    {group group' : ModalGroup} (hw : w.letter = 'G') (hw' : w'.letter = 'G')
    (hgroup : w.group? = some group) (hgroup' : w'.group? = some group') (hne : group ≠ group') :
    IsExchange ⟨line, front ++ w :: w' :: back⟩ ⟨line, front ++ w' :: w :: back⟩ where
  line_eq := rfl
  words_eq letter hletter := by
    apply filter_swap
    intro hsame
    exact absurd ((of_decide_eq_true hsame).symm.trans hw) hletter
  codes := by
    refine ⟨front.filter (·.letter = 'G'), w, w', back.filter (·.letter = 'G'), group, group',
      ?_, ?_, hgroup, hgroup', hne⟩
    · simp [codeWords, hw, hw']
    · simp [codeWords, hw, hw']

/-! ## What a block is asked for -/

theorem word?_eq_getLast? (b : Block) (letter : Char) :
    b.word? letter = (b.words.filter (·.letter = letter.toUpper)).getLast? := by
  rw [word?, ← List.head?_filter, List.filter_reverse, List.head?_reverse]

namespace SharesValues

variable [Scalar α]

theorem value?_eq (h : b.SharesValues c) {letter : Char} (hletter : letter.toUpper ≠ 'G') :
    (b.value? letter : Option α) = c.value? letter := by
  unfold value?
  rw [word?_eq_getLast?, word?_eq_getLast?, h.words_eq _ hletter]

theorem axisWords_eq (h : b.SharesValues c) : (b.axisWords : AxisWords α) = c.axisWords := by
  unfold axisWords
  congr 1
  funext axis
  exact h.value?_eq (by cases axis <;> decide)

end SharesValues

end Block

/-! ## Execution -/

namespace Machine

open Block

/-- Codes of different groups set different parts of the machine. -/
theorem applyEffect_comm (m : Machine α) {effect effect' : Effect}
    (h : effect.group? ≠ effect'.group?) :
    (m.applyEffect effect).applyEffect effect' = (m.applyEffect effect').applyEffect effect := by
  cases effect <;> cases effect' <;> first | rfl | exact absurd rfl h

theorem applyCode_of_group? (m : Machine α) {w : Word} {group : ModalGroup}
    (h : w.group? = some group) :
    ∃ effect, Effect.ofCode? w.code = some effect ∧ effect.group? = some group ∧
      m.applyCode w = m.applyEffect effect := by
  obtain ⟨effect, hcode, hgroup⟩ := Option.bind_eq_some_iff.1 h
  exact ⟨effect, hcode, hgroup, applyCode_eq m hcode⟩

variable {b c : Block}

/-- Neighbouring codes of different groups may be applied in either order. -/
theorem foldl_applyCode_exchange (h : b.IsExchange c) (m : Machine α) :
    b.codeWords.foldl applyCode m = c.codeWords.foldl applyCode m := by
  obtain ⟨front, w, w', back, group, group', hb, hc, hw, hw', hne⟩ := h.codes
  rw [hb, hc, List.foldl_append, List.foldl_append]
  simp only [List.foldl_cons]
  congr 1
  generalize front.foldl applyCode m = before
  obtain ⟨effect, hcode, hgroup, happly⟩ := applyCode_of_group? before hw
  obtain ⟨effect', hcode', hgroup', happly'⟩ := applyCode_of_group? before hw'
  rw [happly, happly', applyCode_eq _ hcode, applyCode_eq _ hcode']
  apply applyEffect_comm
  rw [hgroup, hgroup']
  exact fun heq => hne (Option.some_inj.1 heq)

/-- A code that sets a mode is no problem. -/
theorem codeProblem?_of_group? {w : Word} {group : ModalGroup} (h : w.group? = some group)
    (strictness : Strictness) (line : ℕ) :
    (codeProblem? strictness line w.code : Option (Problem α)) = none := by
  obtain ⟨effect, hcode, hgroup⟩ := Option.bind_eq_some_iff.1 h
  unfold codeProblem?
  rw [hcode]
  cases strictness with
  | lenient => rfl
  | strict =>
    cases effect with
    | unsupported => cases hgroup
    | _ => rfl

theorem filterMap_codeProblem?_exchange (h : b.IsExchange c) (strictness : Strictness)
    (line : ℕ) :
    (b.codeWords.filterMap fun w => (codeProblem? strictness line w.code : Option (Problem α))) =
      c.codeWords.filterMap fun w => codeProblem? strictness line w.code := by
  obtain ⟨front, w, w', back, group, group', hb, hc, hw, hw', -⟩ := h.codes
  simp only [hb, hc, List.filterMap_append, List.filterMap_cons, codeProblem?_of_group? hw,
    codeProblem?_of_group? hw']

theorem applyCodes_reordered (m : Machine α) (s : Strictness)
    (h : b.IsReordering c ∨ b.IsExchange c) : m.applyCodes s b = m.applyCodes s c := by
  unfold applyCodes
  rcases h with h | h
  · rw [h.codeWords_eq, h.line_eq]
  · rw [foldl_applyCode_exchange h, h.line_eq, filterMap_codeProblem?_exchange h]

variable [Scalar α]

theorem applyFeed_sharesValues (h : b.SharesValues c) (m : Machine α) :
    m.applyFeed b = m.applyFeed c := by
  unfold applyFeed
  rw [h.value?_eq (by decide), h.line_eq]

theorem circle_sharesValues (h : b.SharesValues c) (m : Machine α) (target : Vec3 α)
    (clockwise : Bool) : m.circle b target clockwise = m.circle c target clockwise := by
  have hcenter : ∀ axis : Axis,
      (b.value? axis.centerLetter : Option α) = c.value? axis.centerLetter :=
    fun axis => h.value?_eq (by cases axis <;> decide)
  have hradius : (b.value? 'R' : Option α) = c.value? 'R' := h.value?_eq (by decide)
  unfold circle
  rw [hradius, hcenter, hcenter, h.line_eq]

theorem motionOf_sharesValues (h : b.SharesValues c) (m : Machine α) (s : MachineSettings α) :
    m.motionOf s b = m.motionOf s c := by
  have harc : ∀ target clockwise, m.arcMove b target clockwise = m.arcMove c target clockwise := by
    intro target clockwise
    unfold arcMove
    rw [circle_sharesValues h, h.line_eq]
  unfold motionOf
  simp only [h.axisWords_eq, harc, h.line_eq]

/-- The order of words with different letters makes no difference to what a block comes to, and
neither does the order of neighbouring codes of different groups. -/
theorem execute_reordered (s : Settings α) (h : b.IsReordering c ∨ b.IsExchange c) :
    (∀ m : Machine α, m.execute s b = m.execute s c) ∧
      ∀ (listen : σ → Move α → σ) (i : Interpretation α σ),
        i.step s listen b = i.step s listen c := by
  have hvalues : b.SharesValues c := h.elim IsReordering.sharesValues IsExchange.toSharesValues
  have hexecute : ∀ m : Machine α, m.execute s b = m.execute s c := by
    intro m
    unfold execute
    simp only [applyFeed_sharesValues hvalues, applyCodes_reordered _ _ h,
      motionOf_sharesValues hvalues]
  refine ⟨hexecute, fun listen i => ?_⟩
  unfold Interpretation.step
  rw [hexecute]

/-- The words of a line that turns the distance mode over and draws an arc, its end given twice. -/
def arcWords : List Word :=
  [.ofValue 'X' 9.0, .ofValue 'G' 91.0, .ofValue 'G' 2.0, .ofValue 'R' 10.0, .ofValue 'X' 10.0]

/-- The first coordinate and the code behind it change places, or the two codes do. -/
theorem execute_reordered_arcWords :
    (IsReordering ⟨1, arcWords⟩
        ⟨1, .ofValue 'G' 91.0 :: .ofValue 'X' 9.0 :: arcWords.drop 2⟩ ∧
      IsExchange ⟨1, arcWords⟩
        ⟨1, .ofValue 'X' 9.0 :: .ofValue 'G' 2.0 :: .ofValue 'G' 91.0 :: arcWords.drop 3⟩) ∧
    (∀ m : Machine Float32, m.execute .default ⟨1, arcWords⟩ =
      m.execute .default ⟨1, .ofValue 'G' 91.0 :: .ofValue 'X' 9.0 :: arcWords.drop 2⟩) ∧
    ∀ m : Machine Float32, m.execute .default ⟨1, arcWords⟩ = m.execute .default
      ⟨1, .ofValue 'X' 9.0 :: .ofValue 'G' 2.0 :: .ofValue 'G' 91.0 :: arcWords.drop 3⟩ := by
  have hswap : IsReordering ⟨1, arcWords⟩
      ⟨1, .ofValue 'G' 91.0 :: .ofValue 'X' 9.0 :: arcWords.drop 2⟩ :=
    isReordering_swap 1 [] (arcWords.drop 2) (by decide)
  have hdistance : (Word.ofValue 'G' 91.0).group? = some .distance := by decide +kernel
  have hmotion : (Word.ofValue 'G' 2.0).group? = some .motion := by decide +kernel
  have hexchange : IsExchange ⟨1, arcWords⟩
      ⟨1, .ofValue 'X' 9.0 :: .ofValue 'G' 2.0 :: .ofValue 'G' 91.0 :: arcWords.drop 3⟩ :=
    isExchange_swap 1 [.ofValue 'X' 9.0] (arcWords.drop 3) rfl rfl hdistance hmotion (by decide)
  exact ⟨⟨hswap, hexchange⟩, (execute_reordered (σ := Unit) .default (.inl hswap)).1,
    (execute_reordered (σ := Unit) .default (.inr hexchange)).1⟩

end Machine

end Toolpath
