import Toolpath.Proofs.PassageTheorems
import Toolpath.Proofs.TrackTheorems
import Toolpath.Sampler

/-!
# The actions of the sampler

Sampling goes by folds: over the steps of a move, over the moves of a chain, over the chains of a
path. What the steps of a fold keep, the fold keeps (`foldlM_keeps`).

One action of the sampler after the other is taken apart here: a step of a move
(`Sampler.pushStep_eq_ok`), a move with its mark (`Sampler.sampleMove_eq_ok`), and a chain with the
stop behind it (`Sampler.sampleChain_eq_ok`).
-/

namespace Toolpath

open Scalar

/-! ## Folds -/

section Folds

variable {ε β σ : Type} {f : σ → β → Except ε σ} (Inv : σ → Prop)

/-- What every step keeps, a fold keeps. -/
theorem foldlM_keeps (hkeep : ∀ s x s', Inv s → f s x = .ok s' → Inv s') {xs : List β} {s s' : σ}
    (hs : Inv s) (h : xs.foldlM f s = .ok s') : Inv s' := by
  induction xs generalizing s with
  | nil =>
    cases h
    exact hs
  | cons x rest ih =>
    rw [List.foldlM_cons, bind_eq_ok] at h
    obtain ⟨next, hstep, hrest⟩ := h
    exact ih (hkeep s x next hs hstep) hrest

/-- A fold goes through where all steps do, if that hangs on nothing that the steps change. -/
theorem exists_foldlM_iff {P : β → Prop} {xs : List β}
    (hstep : ∀ x ∈ xs, ∀ s, Inv s → ((∃ s', f s x = .ok s') ↔ P x))
    (hkeep : ∀ s x s', Inv s → f s x = .ok s' → Inv s') {s : σ} (hs : Inv s) :
    (∃ s', xs.foldlM f s = .ok s') ↔ ∀ x ∈ xs, P x := by
  induction xs generalizing s with
  | nil => exact ⟨fun _ x hx => absurd hx List.not_mem_nil, fun _ => ⟨s, rfl⟩⟩
  | cons x rest ih =>
    have hfirst := hstep x List.mem_cons_self s hs
    have hnext := fun y hy => hstep y (List.mem_cons_of_mem x hy)
    rw [List.forall_mem_cons]
    simp only [List.foldlM_cons, bind_eq_ok]
    constructor
    · rintro ⟨s', next, hx, hrest⟩
      exact ⟨hfirst.1 ⟨next, hx⟩, (ih hnext (hkeep s x next hs hx)).1 ⟨s', hrest⟩⟩
    · rintro ⟨hx, hrest⟩
      obtain ⟨next, hx⟩ := hfirst.2 hx
      obtain ⟨s', hs'⟩ := (ih hnext (hkeep s x next hs hx)).2 hrest
      exact ⟨s', next, hx, hs'⟩

/-- A fold follows another, related state by related state, where every step does. -/
theorem foldlM_follows {γ τ : Type} {k : τ → γ → Except ε τ} {g : β → γ} {R : σ → τ → Prop}
    (hstep : ∀ s s' x t, R s s' → f s x = .ok t → ∃ t', k s' (g x) = .ok t' ∧ R t t')
    {xs : List β} {s t : σ} {s' : τ} (hs : R s s') (h : xs.foldlM f s = .ok t) :
    ∃ t', (xs.map g).foldlM k s' = .ok t' ∧ R t t' := by
  induction xs generalizing s s' with
  | nil =>
    cases h
    exact ⟨s', rfl, hs⟩
  | cons x rest ih =>
    rw [List.foldlM_cons, bind_eq_ok] at h
    obtain ⟨next, hnext, hrest⟩ := h
    obtain ⟨next', hnext', hrelated⟩ := hstep s s' x next hs hnext
    obtain ⟨t', ht', hlast⟩ := ih hrelated hrest
    refine ⟨t', ?_, hlast⟩
    rw [List.map_cons, List.foldlM_cons, bind_eq_ok]
    exact ⟨next', hnext', ht'⟩

/-- Two folds over one list stay related where their steps do. -/
theorem foldlM_related {τ : Type} {k : τ → β → Except ε τ} (R : σ → τ → Prop)
    (hstep : ∀ s s' x t t', R s s' → f s x = .ok t → k s' x = .ok t' → R t t') {xs : List β}
    {s t : σ} {s' t' : τ} (hs : R s s') (h : xs.foldlM f s = .ok t)
    (h' : xs.foldlM k s' = .ok t') : R t t' := by
  induction xs generalizing s s' with
  | nil =>
    cases h
    cases h'
    exact hs
  | cons x rest ih =>
    rw [List.foldlM_cons, bind_eq_ok] at h h'
    obtain ⟨next, hnext, hrest⟩ := h
    obtain ⟨next', hnext', hrest'⟩ := h'
    exact ih (hstep s s' x next next' hs hnext hnext') hrest hrest'

end Folds

/-! ## Actions -/

namespace Sampler

variable {α : Type}

/-- What adding samples leaves alone. -/
structure Onward (s s' : Sampler α) : Prop where
  clock : s'.clock = s.clock
  settings : s'.track.settings = s.track.settings
  spans : s'.track.spans = s.track.spans

theorem Onward.refl (s : Sampler α) : s.Onward s := ⟨rfl, rfl, rfl⟩

theorem Onward.trans {s s' s'' : Sampler α} (h : s.Onward s') (h' : s'.Onward s'') :
    s.Onward s'' :=
  ⟨h'.clock.trans h.clock, h'.settings.trans h.settings, h'.spans.trans h.spans⟩

variable [Scalar α]

theorem onward_push (s : Sampler α) (x : Sample α) (pace : Pace) : s.Onward (s.push x pace).1 :=
  ⟨rfl, s.track.add_settings x pace, s.track.add_spans x pace⟩

/-- A sampler with the start point of the first move of all. -/
def opened (s : Sampler α) (m : Move α) : Sampler α :=
  if s.track.isEmpty then (s.push ⟨m.source, s.clock⟩ m.pace).1 else s

theorem onward_opened (s : Sampler α) (m : Move α) : s.Onward (s.opened m) := by
  unfold opened
  split_ifs
  · exact onward_push s _ m.pace
  · exact Onward.refl s

/-- A step of a move adds a sample where the passage of the move is defined. -/
theorem pushStep_eq_ok {m : Move α} {startTime : α} {steps step : ℕ} {s : Sampler α}
    {out : Sampler α × ℕ} :
    pushStep m startTime steps step s = .ok out ↔
      ∃ passage, m.passageAt (Move.stepRatio step steps) = .ok passage ∧
        out = s.push ⟨m.pointAt (Move.stepRatio step steps), startTime + passage.time⟩ m.pace := by
  rw [pushStep, bind_eq_ok]
  constructor
  · rintro ⟨passage, hpassage, hout⟩
    exact ⟨passage, hpassage, (Except.ok.inj hout).symm⟩
  · rintro ⟨passage, hpassage, rfl⟩
    exact ⟨passage, hpassage, rfl⟩

/-- Sampling a move takes its steps one after the other, notes them in the span of the move and
sets the clock. -/
theorem sampleMove_eq_ok {s s' : Sampler α} {m : Move α} :
    s.sampleMove m = .ok s' ↔
      ∃ out, (List.range (m.stepCount s.track.settings)).foldlM
          (fun (u, _) j => pushStep m s.clock (m.stepCount s.track.settings) (j + 1) u)
          (s.opened m, (s.opened m).track.vertexCount - 1) = .ok out ∧
        s' = { out.1 with
          clock := s.clock + m.profile.duration
          track := out.1.track.mark m.index ((s.opened m).track.vertexCount - 1) (out.2 + 1)
            s.clock (s.clock + m.profile.duration) } := by
  have hclock : (s.opened m).clock = s.clock := (s.onward_opened m).clock
  have hsettings : (s.opened m).track.settings = s.track.settings := (s.onward_opened m).settings
  have hunfold : s.sampleMove m = (List.range (m.stepCount (s.opened m).track.settings)).foldlM
      (fun (u, _) j => pushStep m (s.opened m).clock (m.stepCount (s.opened m).track.settings)
        (j + 1) u) (s.opened m, (s.opened m).track.vertexCount - 1) >>= fun out =>
      .ok { out.1 with
        clock := (s.opened m).clock + m.profile.duration
        track := out.1.track.mark m.index ((s.opened m).track.vertexCount - 1) (out.2 + 1)
          (s.opened m).clock ((s.opened m).clock + m.profile.duration) } := rfl
  rw [hunfold, hclock, hsettings, bind_eq_ok]
  constructor
  · rintro ⟨out, hout, heq⟩
    exact ⟨out, hout, (Except.ok.inj heq).symm⟩
  · rintro ⟨out, hout, rfl⟩
    exact ⟨out, hout, rfl⟩

theorem settings_sampleMove {s s' : Sampler α} {m : Move α} (h : s.sampleMove m = .ok s') :
    s'.track.settings = s.track.settings := by
  obtain ⟨out, hout, rfl⟩ := sampleMove_eq_ok.1 h
  have hsteps : (s.opened m).Onward out.1 := by
    refine foldlM_keeps (fun u => (s.opened m).Onward u.1) ?_ (Onward.refl _) hout
    intro u j u' hu hstep
    obtain ⟨passage, -, rfl⟩ := pushStep_eq_ok.1 hstep
    exact hu.trans (onward_push u.1 _ m.pace)
  exact (Track.mark_settings _ _ _ _ _ _).trans ((s.onward_opened m).trans hsteps).settings

theorem settings_dwell (s : Sampler α) (point : Vec3 α) (pace : Pace) :
    (s.dwell point pace).track.settings = s.track.settings := by
  unfold dwell
  induction List.range s.track.settings.dwellSamples generalizing s with
  | nil => rfl
  | cons _ rest ih =>
    rw [List.foldl_cons, ih]
    exact Track.add_settings _ _ _

/-- Sampling a chain takes its moves one after the other, and then the stop behind the last. -/
theorem sampleChain_eq_ok {s s' : Sampler α} {c : Chain α} : s.sampleChain c = .ok s' ↔
    ∃ u, c.moves.foldlM sampleMove s = .ok u ∧
      s' = (c.moves.getLast?.map fun last => u.dwell last.target last.pace).getD u := by
  rw [sampleChain, bind_eq_ok]
  cases c.moves.getLast? with
  | none =>
    constructor
    · rintro ⟨u, hu, hs'⟩
      exact ⟨u, hu, (Except.ok.inj hs').symm⟩
    · rintro ⟨u, hu, hs'⟩
      exact ⟨u, hu, congrArg Except.ok hs'.symm⟩
  | some last =>
    constructor
    · rintro ⟨u, hu, hs'⟩
      exact ⟨u, hu, (Except.ok.inj hs').symm⟩
    · rintro ⟨u, hu, hs'⟩
      exact ⟨u, hu, congrArg Except.ok hs'.symm⟩

theorem settings_sampleChain {s s' : Sampler α} {c : Chain α} (h : s.sampleChain c = .ok s') :
    s'.track.settings = s.track.settings := by
  obtain ⟨u, hu, rfl⟩ := sampleChain_eq_ok.1 h
  have hmoves : u.track.settings = s.track.settings :=
    foldlM_keeps (fun u => u.track.settings = s.track.settings)
      (fun u m u' hu hu' => (settings_sampleMove hu').trans hu) rfl hu
  cases c.moves.getLast? with
  | none => exact hmoves
  | some last => exact (u.settings_dwell last.target last.pace).trans hmoves

end Sampler

end Toolpath
