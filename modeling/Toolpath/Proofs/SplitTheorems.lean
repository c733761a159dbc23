import Toolpath.Proofs.SimulationTheorems

/-!
# The chains of a path

A path is split exactly where the direction changes too much. So its chains are the longest
stretches that are run through without a stop (`Chain.isSplit_ofPath`):

* none of them is empty, and in order they hold the moves of the path, of which only the length and
  the limits are set anew;
* two neighbours lie in one chain if and only if motion may flow from the one into the other
  (`Chain.sharesChain_ofPath`);
* a path that has been split once is split the same way again.

Nothing is asked of the numbers: directions are compared as the machine compares them.
-/

namespace Toolpath

/-! ## Stretches of a list -/

section Stretches

variable {β : Type} {r : β → β → Bool}

/-- Every place of joined stretches lies in one of them. -/
theorem exists_stretch {gs : List (List β)} {i : ℕ} (h : i < gs.flatten.length) :
    ∃ front g back, gs = front ++ g :: back ∧ front.flatten.length ≤ i ∧
      i < front.flatten.length + g.length := by
  induction gs generalizing i with
  | nil => exact absurd h (Nat.not_lt_zero i)
  | cons g gs ih =>
    by_cases hfirst : i < g.length
    · exact ⟨[], g, gs, rfl, Nat.zero_le i, by simpa using hfirst⟩
    · rw [List.flatten_cons, List.length_append] at h
      obtain ⟨front, g', back, rfl, hle, hlt⟩ := ih (i := i - g.length) (by omega)
      refine ⟨g :: front, g', back, rfl, ?_, ?_⟩
      · rw [List.flatten_cons, List.length_append]
        omega
      · rw [List.flatten_cons, List.length_append]
        omega

/-- The element at a place of joined stretches, counted from where its stretch begins. -/
theorem getElem_flatten_append {front back : List (List β)} {g : List β} {k : ℕ}
    (hk : k < g.length) (h : front.flatten.length + k < (front ++ g :: back).flatten.length) :
    (front ++ g :: back).flatten[front.flatten.length + k] = g[k] := by
  simp only [List.flatten_append, List.flatten_cons]
  rw [List.getElem_append_right (Nat.le_add_right _ _), List.getElem_append_left (by omega)]
  simp

/-- Neighbours of a list lie in one stretch if and only if the list is not split between them. -/
theorem shares_splitBy (l : List β) {i : ℕ} (h : i + 1 < l.length) :
    (∃ front g back, l.splitBy r = front ++ g :: back ∧ front.flatten.length ≤ i ∧
      i + 1 < front.flatten.length + g.length) ↔ r l[i] l[i + 1] = true := by
  have hflat := List.flatten_splitBy r l
  have hrelated : ∀ g ∈ l.splitBy r, g.IsChain (r · · = true) :=
    fun g => List.isChain_of_mem_splitBy
  have hcut := List.isChain_getLast_head_splitBy r l
  generalize l.splitBy r = gs at hflat hrelated hcut ⊢
  subst hflat
  constructor
  · rintro ⟨front, g, back, rfl, hle, hlt⟩
    obtain ⟨k, rfl⟩ := Nat.exists_eq_add_of_le hle
    have hchain := hrelated g (List.mem_append_right front List.mem_cons_self)
    have hk : k + 1 < g.length := by omega
    rw [getElem_flatten_append (by omega) (by omega)]
    simp only [Nat.add_assoc]
    rw [getElem_flatten_append hk (by omega)]
    exact List.isChain_iff_getElem.1 hchain k hk
  · intro hflows
    obtain ⟨front, g, back, rfl, hle, hlt⟩ := exists_stretch (by omega : i < gs.flatten.length)
    refine ⟨front, g, back, rfl, hle, ?_⟩
    by_contra hlast
    obtain ⟨g', back, rfl⟩ : ∃ g' back', back = g' :: back' := by
      apply List.exists_cons_of_ne_nil
      rintro rfl
      simp only [List.flatten_append, List.flatten_cons, List.flatten_nil, List.append_nil,
        List.length_append] at h
      omega
    obtain ⟨-, ⟨hne, hne', hsplit⟩, -⟩ := List.isChain_append_cons_cons.1 hcut
    -- the neighbours are the last of this stretch and the first of the next
    have hi : i = front.flatten.length + (g.length - 1) := by omega
    have hlength : (front ++ [g]).flatten.length = front.flatten.length + g.length := by simp
    have hnext : i + 1 = (front ++ [g]).flatten.length + 0 := by omega
    have hregroup : front ++ g :: g' :: back = (front ++ [g]) ++ g' :: back := by simp
    have hleft : (front ++ g :: g' :: back).flatten[i] = g.getLast hne := by
      subst hi
      rw [getElem_flatten_append (by omega) (by omega), List.getLast_eq_getElem]
    have hright : (front ++ g :: g' :: back).flatten[i + 1] = g'.head hne' := by
      simp only [hregroup, hnext]
      rw [getElem_flatten_append (List.length_pos_iff.2 hne')
        (by rw [← hnext, ← hregroup]; exact h), List.head_eq_getElem]
    rw [hleft, hright, hsplit] at hflows
    cases hflows

end Stretches

namespace Chain

variable {α : Type} [Scalar α]

/-- Of some chains that are run one after the other, one holds both the `i`-th move and the next. -/
def SharesChain (chains : List (Chain α)) (i : ℕ) : Prop :=
  ∃ front c back, chains = front ++ c :: back ∧ (front.flatMap moves).length ≤ i ∧
    i + 1 < (front.flatMap moves).length + c.moves.length

/-- The chains of a path: the longest stretches of its moves that are run through without a stop,
each move with its length and its limits. -/
structure IsSplit (path : List (Move α)) (acceleration : α) (chains : List (Chain α)) : Prop where
  ne_nil : ∀ c ∈ chains, c.moves ≠ []
  moves_eq : chains.flatMap moves = path.map fun m =>
    { m with
      length := m.courseLength
      peakSq := (m.limits acceleration).1
      maxAccel := (m.limits acceleration).2 }
  shares_iff : ∀ i (h : i + 1 < path.length), SharesChain chains i ↔
    IsSmooth path[i].exitDirection path[i + 1].entryDirection
  again : ofPath (chains.flatMap moves) acceleration = chains

theorem ne_nil_of_mem_ofPath {path : List (Move α)} {acceleration : α} {c : Chain α}
    (h : c ∈ ofPath path acceleration) : c.moves ≠ [] := by
  obtain ⟨moves, hmoves, rfl⟩ := List.mem_map.1 h
  exact List.ne_nil_of_mem_splitBy hmoves

/-- Two neighbours lie in one chain if and only if motion may flow from the one into the other. -/
theorem sharesChain_ofPath (path : List (Move α)) (acceleration : α) {i : ℕ}
    (h : i + 1 < path.length) : SharesChain (ofPath path acceleration) i ↔
      IsSmooth path[i].exitDirection path[i + 1].entryDirection := by
  have hlength : i + 1 < (path.map (Move.limited · acceleration)).length := by rwa [List.length_map]
  -- the directions of a move do not depend on its limits
  have hflows : (path.map (Move.limited · acceleration))[i].flowsInto
      (path.map (Move.limited · acceleration))[i + 1] = true ↔
        IsSmooth path[i].exitDirection path[i + 1].entryDirection := by
    rw [List.getElem_map, List.getElem_map]
    exact decide_eq_true_iff
  rw [← hflows, ← shares_splitBy _ hlength]
  have hjoin : ∀ stretches : List (List (Move α)),
      (stretches.map mk).flatMap moves = stretches.flatten := by
    intro stretches
    rw [List.flatMap_map]
    exact List.flatMap_id
  unfold ofPath
  constructor
  · rintro ⟨front, c, back, hchains, hle, hlt⟩
    obtain ⟨front', rest, hsplit, rfl, hrest⟩ := List.map_eq_append_iff.1 hchains
    obtain ⟨g, back', rfl, rfl, rfl⟩ := List.map_eq_cons_iff.1 hrest
    rw [hjoin] at hle hlt
    exact ⟨front', g, back', hsplit, hle, hlt⟩
  · rintro ⟨front, g, back, hsplit, hle, hlt⟩
    refine ⟨front.map mk, ⟨g⟩, back.map mk, ?_, ?_, ?_⟩
    · rw [hsplit, List.map_append, List.map_cons]
    · rwa [hjoin]
    · rwa [hjoin]

/-- Measured and limited moves are split as they have been before. -/
theorem ofPath_flatMap_ofPath (path : List (Move α)) (acceleration : α) :
    ofPath ((ofPath path acceleration).flatMap moves) acceleration = ofPath path acceleration := by
  rw [flatMap_ofPath, ofPath, ofPath, List.map_map]
  rfl

/-- A path is split into the longest stretches that are run through without a stop. -/
theorem isSplit_ofPath (path : List (Move α)) (acceleration : α) :
    IsSplit path acceleration (ofPath path acceleration) where
  ne_nil _ := ne_nil_of_mem_ofPath
  moves_eq := flatMap_ofPath path acceleration
  shares_iff _ h := sharesChain_ofPath path acceleration h
  again := ofPath_flatMap_ofPath path acceleration

end Chain

end Toolpath
