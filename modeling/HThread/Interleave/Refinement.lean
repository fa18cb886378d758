/-
  HThread.Interleave.Refinement — one machine implements another.

  The machine that is looked at more closely has more steps.  `abs` says which
  state of the coarse machine a state of the fine one stands for; a fine step is
  a coarse step, or the coarse machine does not notice it.  Where it matters which
  coarse steps these are, a label of the fine step says so.

  Key lemmas:
    * `Refines.reachable` — the fine machine reaches only what stands for
      reachable states of the coarse one.
    * `Refines.run`       — and by a run of the coarse machine.
    * `RefinesBy.run`     — when the labels of the steps are given, they spell that
      run.
    * `Refines.trans`     — refinements compose.
    * `stepN_lift`        — what a component does by itself, the whole does.
-/
import HThread.Interleave.Machine

namespace Interleave

namespace Machine

variable {σ τ υ α β γ : Type*} {M : Machine σ α} {N : Machine τ β} {O : Machine υ γ}
  {ok : σ → α → Prop} {okN : τ → β → Prop} {okO : υ → γ → Prop} {abs : σ → τ} {abs' : τ → υ}

variable (M N) in
/-- `M` implements `N`: every admitted step of `M` from a reached state is an admitted
    step of `N`, or leaves alone what `N` sees. -/
structure Refines (ok : σ → α → Prop) (okN : τ → β → Prop) (abs : σ → τ) : Prop where
  start : ∀ s, M.init s → N.init (abs s)
  step : ∀ s a s', M.ReachableVia ok s → ok s a → M.step s a = some s' →
    abs s' = abs s ∨ ∃ b, okN (abs s) b ∧ N.step (abs s) b = some (abs s')

/-- What `M` reaches stands for what `N` reaches. -/
theorem Refines.reachable (h : M.Refines N ok okN abs) {s : σ} (hr : M.ReachableVia ok s) :
    N.ReachableVia okN (abs s) := by
  induction hr with
  | start hs => exact .start (h.start _ hs)
  | step hr hok hs ih =>
      rcases h.step _ _ _ hr hok hs with hsame | ⟨b, hb, hN⟩
      · rw [hsame]
        exact ih
      · exact ih.step hb hN

/-- An invariant of `N` is one of `M`. -/
theorem Refines.keeps (h : M.Refines N ok okN abs) {I : τ → Prop} (hI : N.Keeps okN I) {s : σ}
    (hr : M.ReachableVia ok s) : I (abs s) :=
  hI.reachable (h.reachable hr)

/-- Every run of `M` is, to the eyes of `N`, a run of `N`. -/
theorem Refines.run (h : M.Refines N ok okN abs) {s t : σ} (hr : M.ReachableVia ok s)
    {as : List α} (hrun : M.run s as = some t) (hok : M.StepsMeet ok s as) :
    ∃ bs, N.run (abs s) bs = some (abs t) ∧ N.StepsMeet okN (abs s) bs := by
  induction as generalizing s with
  | nil =>
      simp only [Machine.run, Option.some.injEq] at hrun
      subst hrun
      exact ⟨[], rfl, trivial⟩
  | cons a as ih =>
      obtain ⟨r, ha, hrest⟩ := run_cons hrun
      obtain ⟨bs, hbs, hbsok⟩ := ih (hr.step hok.1 ha) hrest (hok.2 r ha)
      rcases h.step s a r hr hok.1 ha with hsame | ⟨b, hb, hN⟩
      · exact ⟨bs, hsame ▸ hbs, hsame ▸ hbsok⟩
      · refine ⟨b :: bs, ?_, hb, fun q hq => ?_⟩
        · show (N.step (abs s) b).bind _ = _
          rw [hN]
          exact hbs
        · obtain rfl : abs r = q := Option.some.inj (hN.symm.trans hq)
          exact hbsok

variable (M N) in
/-- `M` implements `N`, and `label` tells which steps of `N` a step of `M` is. -/
structure RefinesBy (ok : σ → α → Prop) (abs : σ → τ) (label : σ → α → σ → List β) : Prop where
  start : ∀ s, M.init s → N.init (abs s)
  step : ∀ s a s', M.ReachableVia ok s → ok s a → M.step s a = some s' →
    N.run (abs s) (label s a s') = some (abs s')

/-- Every run of `M` is the run of `N` that its labels spell. -/
theorem RefinesBy.run {label : σ → α → σ → List β} (h : M.RefinesBy N ok abs label) {s t : σ}
    (hr : M.ReachableVia ok s) {as : List α} (hrun : M.run s as = some t)
    (hok : M.StepsMeet ok s as) : N.run (abs s) (M.trace label s as) = some (abs t) := by
  induction as generalizing s with
  | nil =>
      obtain rfl : s = t := Option.some.inj hrun
      rfl
  | cons a as ih =>
      obtain ⟨r, ha, hrest⟩ := run_cons hrun
      rw [trace_cons label ha]
      exact run_append (h.step s a r hr hok.1 ha) (ih (hr.step hok.1 ha) hrest (hok.2 r ha))

/-- Level after level. -/
theorem Refines.trans (h : M.Refines N ok okN abs) (h' : N.Refines O okN okO abs') :
    M.Refines O ok okO fun s => abs' (abs s) where
  start s hs := h'.start _ (h.start s hs)
  step s a s' hr hok hs := by
    rcases h.step s a s' hr hok hs with hsame | ⟨b, hb, hN⟩
    · exact .inl (by rw [hsame])
    · exact h'.step _ _ _ (h.reachable hr) hb hN

/-- The steps of a component are steps of the whole. -/
theorem stepN_lift {f : σ → Option σ} {g : τ → Option τ} (lift : σ → τ)
    (h : ∀ s s', f s = some s' → g (lift s) = some (lift s')) {n : ℕ} {s t : σ}
    (hrun : stepN f n s = some t) : stepN g n (lift s) = some (lift t) := by
  induction n generalizing s with
  | zero =>
      obtain rfl : s = t := Option.some.inj hrun
      rfl
  | succ n ih =>
      obtain ⟨r, hstep, hrest⟩ := stepN_succ hrun
      exact stepN_cons (h s r hstep) (ih hrest)

end Machine

end Interleave
