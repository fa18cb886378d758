/-
  HThread.Interleave.Machine — executable labelled transition systems.

  A machine has start states and a partial step function: an action names the
  actor that moves and resolves whatever the actor may choose, so one action
  from one state has at most one successor.  All interleavings of the actors
  are the lists of actions; a property of every run is a property of every
  such list.

  Key lemmas:
    * `Keeps.reachable`      — the invariant rule: what the start states have
      and every admitted step keeps, every reached state has.
    * `Keeps.always`         — the same along a whole run.
    * `ReachableVia.run`     — an executable check that a run is admitted.
    * `trace_keeps`          — an invariant about what a run has shown so far.
    * `always_iff_stepsMeet` — the exact-condition rule: when the admitted
      steps keep an invariant and every other step breaks `P` at once, a run
      satisfies `P` throughout iff all its steps are admitted.
    * `Ends.unique`          — what one actor does alone has one end.
-/
import Mathlib.Algebra.GroupWithZero.Nat
import Mathlib.Order.Basic

namespace Interleave

/-- A machine: the states a run may start in, and the effect of one
    indivisible step (`none` when the action is not enabled). -/
structure Machine (σ α : Type*) where
  init : σ → Prop
  step : σ → α → Option σ

-- A sample run of two, three or four actors names them by the numerals of `Fin`.
instance neZero_two : NeZero 2 := ⟨by decide⟩

instance neZero_three : NeZero 3 := ⟨by decide⟩

instance neZero_four : NeZero 4 := ⟨by decide⟩

namespace Machine

variable {σ α : Type*} (M : Machine σ α)

/-! ## §1. Runs and reachable states. -/

/-- The state after a list of actions (`none` if one of them is not enabled). -/
def run : σ → List α → Option σ
  | s, [] => some s
  | s, a :: as => (M.step s a).bind fun s' => run s' as

/-- States reached by runs all of whose steps meet `ok`. -/
inductive ReachableVia (ok : σ → α → Prop) : σ → Prop
  | start {s} : M.init s → ReachableVia ok s
  | step {s a s'} : ReachableVia ok s → ok s a → M.step s a = some s' → ReachableVia ok s'

/-- States reached by any run. -/
def Reachable : σ → Prop := M.ReachableVia fun _ _ => True

/-- `P` holds in every state the run passes through, both ends included. -/
def Always (P : σ → Prop) : σ → List α → Prop
  | s, [] => P s
  | s, a :: as => P s ∧ ∀ s', M.step s a = some s' → Always P s' as

/-- Every step of the run meets `ok`, a condition on the state before the step
    and the action. -/
def StepsMeet (ok : σ → α → Prop) : σ → List α → Prop
  | _, [] => True
  | s, a :: as => ok s a ∧ ∀ s', M.step s a = some s' → StepsMeet ok s' as

variable {M}

theorem run_cons {s s' : σ} {a : α} {as : List α} (h : M.run s (a :: as) = some s') :
    ∃ t, M.step s a = some t ∧ M.run t as = some s' := by
  simpa only [run, Option.bind_eq_some_iff] using h

theorem run_append {s t u : σ} {as bs : List α} (h₁ : M.run s as = some t)
    (h₂ : M.run t bs = some u) : M.run s (as ++ bs) = some u := by
  induction as generalizing s with
  | nil =>
      simp only [run, Option.some.injEq] at h₁
      subst h₁
      exact h₂
  | cons a as ih =>
      obtain ⟨r, ha, hr⟩ := run_cons h₁
      show (M.step s a).bind _ = some u
      rw [ha]
      exact ih hr

theorem Reachable.start {s : σ} (h : M.init s) : M.Reachable s := ReachableVia.start h

theorem Reachable.step {s s' : σ} {a : α} (hr : M.Reachable s) (h : M.step s a = some s') :
    M.Reachable s' := ReachableVia.step hr trivial h

/-- The end of a run from a reachable state is reachable. -/
theorem Reachable.run {s s' : σ} {as : List α} (hr : M.Reachable s)
    (h : M.run s as = some s') : M.Reachable s' := by
  induction as generalizing s with
  | nil =>
      simp only [Machine.run, Option.some.injEq] at h
      exact h ▸ hr
  | cons a as ih =>
      obtain ⟨t, ha, ht⟩ := run_cons h
      exact ih (hr.step ha) ht

/-- The end of the run `as` from a start state is reachable. -/
theorem Reachable.after {s t : σ} (hs : M.init s) (as : List α) (h : M.run s as = some t) :
    M.Reachable t := (Reachable.start hs).run h

/-- A state reached by admitted steps is reachable. -/
theorem ReachableVia.reachable {ok : σ → α → Prop} {s : σ} (h : M.ReachableVia ok s) :
    M.Reachable s := by
  induction h with
  | start h => exact .start h
  | step _ _ h ih => exact ih.step h

/-- A state reached by admitted steps goes on to be one by admitted steps. -/
theorem ReachableVia.follow {ok : σ → α → Prop} {s t : σ} (hr : M.ReachableVia ok s) (as : List α)
    (hrun : M.run s as = some t) (hok : M.StepsMeet ok s as) : M.ReachableVia ok t := by
  induction as generalizing s with
  | nil =>
      simp only [Machine.run, Option.some.injEq] at hrun
      exact hrun ▸ hr
  | cons a as ih =>
      obtain ⟨r, ha, hrest⟩ := run_cons hrun
      exact ih (hr.step hok.1 ha) hrest (hok.2 r ha)

variable (M) in
/-- Run the condition `ok` along a list of actions. -/
def check (ok : σ → α → Bool) : σ → List α → Bool
  | _, [] => true
  | s, a :: as => ok s a && match M.step s a with
      | some s' => check ok s' as
      | none => true

/-- A condition on all steps that is checked along the run. -/
theorem stepsMeet_of_check {ok : σ → α → Prop} {okB : σ → α → Bool}
    (hok : ∀ s a, okB s a = true → ok s a) :
    ∀ (as : List α) (s : σ), M.check okB s as = true → M.StepsMeet ok s as
  | [], _, _ => trivial
  | a :: as, s, hc => by
      rw [check, Bool.and_eq_true] at hc
      refine ⟨hok s a hc.1, fun s' hs' => ?_⟩
      have hrest := hc.2
      rw [hs'] at hrest
      exact stepsMeet_of_check hok as s' hrest

/-- A state reached by admitted steps goes on to be one. -/
theorem ReachableVia.run {ok : σ → α → Prop} {okB : σ → α → Bool}
    (hok : ∀ s a, okB s a = true → ok s a) {s t : σ} (hr : M.ReachableVia ok s) (as : List α)
    (hrun : M.run s as = some t) (hc : M.check okB s as = true) : M.ReachableVia ok t :=
  hr.follow as hrun (stepsMeet_of_check hok as s hc)

/-- A condition on the actions alone. -/
theorem StepsMeet.of_mem {P : α → Prop} :
    ∀ {as : List α} {s : σ}, (∀ a ∈ as, P a) → M.StepsMeet (fun _ a => P a) s as
  | [], _, _ => trivial
  | a :: _, _, h => ⟨h a (List.mem_cons_self ..), fun _ _ =>
      of_mem fun b hb => h b (List.mem_cons_of_mem a hb)⟩

theorem StepsMeet.and {ok ok' : σ → α → Prop} :
    ∀ {as : List α} {s : σ}, M.StepsMeet ok s as → M.StepsMeet ok' s as →
      M.StepsMeet (fun s a => ok s a ∧ ok' s a) s as
  | [], _, _, _ => trivial
  | _ :: _, _, h, h' => ⟨⟨h.1, h'.1⟩, fun s' hs' => (h.2 s' hs').and (h'.2 s' hs')⟩

/-! ## §2. The invariant rule. -/

variable (M) in
/-- `I` holds at the start, and every admitted step keeps it. -/
structure Keeps (ok : σ → α → Prop) (I : σ → Prop) : Prop where
  start : ∀ s, M.init s → I s
  step : ∀ s a s', I s → ok s a → M.step s a = some s' → I s'

theorem Keeps.reachable {ok : σ → α → Prop} {I : σ → Prop} (h : M.Keeps ok I) {s : σ}
    (hr : M.ReachableVia ok s) : I s := by
  induction hr with
  | start hs => exact h.start _ hs
  | step _ ha hs ih => exact h.step _ _ _ ih ha hs

/-- Fewer steps to admit. -/
theorem Keeps.mono {ok ok' : σ → α → Prop} {I : σ → Prop} (h : M.Keeps ok I)
    (hok : ∀ s a, ok' s a → ok s a) : M.Keeps ok' I where
  start := h.start
  step s a s' hI ha hs := h.step s a s' hI (hok s a ha) hs

/-- An invariant may be strengthened with one that is already known. -/
theorem Keeps.and {ok : σ → α → Prop} {I J : σ → Prop} (hI : M.Keeps ok I)
    (hstart : ∀ s, M.init s → J s)
    (hstep : ∀ s a s', I s → J s → ok s a → M.step s a = some s' → J s') :
    M.Keeps ok fun s => I s ∧ J s where
  start s hs := ⟨hI.start s hs, hstart s hs⟩
  step s a s' h ha hs := ⟨hI.step s a s' h.1 ha hs, hstep s a s' h.1 h.2 ha hs⟩

theorem Keeps.always_from {ok : σ → α → Prop} {I P : σ → Prop} (h : M.Keeps ok I)
    (hP : ∀ s, I s → P s) :
    ∀ (as : List α) (s : σ), I s → M.StepsMeet ok s as → M.Always P s as
  | [], s, hs, _ => hP s hs
  | _ :: as, s, hs, hok =>
      ⟨hP s hs, fun s' hs' => always_from h hP as s' (h.step _ _ _ hs hok.1 hs') (hok.2 s' hs')⟩

/-- Along a run of admitted steps from a start state, `P` holds throughout. -/
theorem Keeps.always {ok : σ → α → Prop} {I P : σ → Prop} (h : M.Keeps ok I)
    (hP : ∀ s, I s → P s) {s : σ} (hs : M.init s) {as : List α} (hok : M.StepsMeet ok s as) :
    M.Always P s as :=
  h.always_from hP as s (h.start s hs) hok

/-- What holds all along a run holds at its end. -/
theorem Always.last {P : σ → Prop} {s t : σ} {as : List α} (h : M.Always P s as)
    (hrun : M.run s as = some t) : P t := by
  induction as generalizing s with
  | nil =>
      simp only [run, Option.some.injEq] at hrun
      exact hrun ▸ h
  | cons a as ih =>
      obtain ⟨r, ha, hr⟩ := run_cons hrun
      exact ih (h.2 r ha) hr

/-- What holds before each step and at the end holds all along. -/
theorem Always.of_stepsMeet {P : σ → Prop} {s : σ} {as : List α}
    (h : M.StepsMeet (fun r _ => P r) s as) (hlast : ∀ t, M.run s as = some t → P t) :
    M.Always P s as := by
  induction as generalizing s with
  | nil => exact hlast s rfl
  | cons a as ih =>
      refine ⟨h.1, fun r hr => ih (h.2 r hr) fun t ht => hlast t ?_⟩
      show (M.step s a).bind _ = some t
      rw [hr]
      exact ht

/-! ## §3. What a run shows. -/

section Trace

variable {β : Type*} (M) (label : σ → α → σ → List β)

/-- What the steps of a run show, one after the other; `label` tells what one step shows. -/
def trace : σ → List α → List β
  | _, [] => []
  | s, a :: as => match M.step s a with
      | some s' => label s a s' ++ trace s' as
      | none => []

variable {M}

theorem trace_cons {s s' : σ} {a : α} (h : M.step s a = some s') (as : List α) :
    M.trace label s (a :: as) = label s a s' ++ M.trace label s' as := by
  rw [trace, h]

variable {label}

/-- What has been shown so far is part of the invariant. -/
theorem trace_keeps {ok : σ → α → Prop} {I : σ → List β → Prop}
    (hstep : ∀ s a s' l, I s l → ok s a → M.step s a = some s' → I s' (l ++ label s a s'))
    {s t : σ} {as : List α} {l : List β} (hs : I s l) (hok : M.StepsMeet ok s as)
    (hrun : M.run s as = some t) : I t (l ++ M.trace label s as) := by
  induction as generalizing s l with
  | nil =>
      obtain rfl : s = t := Option.some.inj hrun
      rw [trace, List.append_nil]
      exact hs
  | cons a as ih =>
      obtain ⟨r, ha, hrest⟩ := run_cons hrun
      rw [trace_cons label ha, ← List.append_assoc]
      exact ih (hstep s a r l hs hok.1 ha) (hok.2 r ha) hrest

end Trace

/-! ## §4. The exact condition on a run. -/

/-- The admitted steps keep `I`, `I` gives `P`, and from a state with `I` a step
    that is not admitted leads to a state without `P`: then `P` holds along a
    run iff the run has admitted steps only.  All of this among the runs whose
    steps meet `base`. -/
theorem always_iff_stepsMeet_of {base ok : σ → α → Prop} {I P : σ → Prop}
    (h : M.Keeps (fun s a => base s a ∧ ok s a) I) (hP : ∀ s, I s → P s)
    (hbad : ∀ s a s', I s → base s a → ¬ ok s a → M.step s a = some s' → ¬ P s') {s : σ}
    (hs : M.init s) {as : List α} {t : σ} (hrun : M.run s as = some t)
    (hbase : M.StepsMeet base s as) : M.Always P s as ↔ M.StepsMeet ok s as := by
  refine ⟨fun hA => ?_, fun hok => h.always hP hs (hbase.and hok)⟩
  have hI := h.start s hs
  clear hs
  induction as generalizing s with
  | nil => trivial
  | cons a as ih =>
      obtain ⟨r, ha, hr⟩ := run_cons hrun
      -- the state after the first step still has `P`, so that step was admitted
      have hPr : P r := by
        have := hA.2 r ha
        cases as with
        | nil => exact this
        | cons => exact this.1
      have hok : ok s a := by
        by_contra hno
        exact hbad s a r hI hbase.1 hno ha hPr
      refine ⟨hok, fun s' hs' => ?_⟩
      obtain rfl : r = s' := Option.some.inj (ha.symm.trans hs')
      exact ih hr (hbase.2 r ha) (hA.2 r ha) (h.step _ _ _ hI ⟨hbase.1, hok⟩ ha)

theorem stepsMeet_true : ∀ (as : List α) (s : σ), M.StepsMeet (fun _ _ => True) s as
  | [], _ => trivial
  | _ :: as, _ => ⟨trivial, fun s' _ => stepsMeet_true as s'⟩

/-- The same for all runs. -/
theorem always_iff_stepsMeet {ok : σ → α → Prop} {I P : σ → Prop} (h : M.Keeps ok I)
    (hP : ∀ s, I s → P s)
    (hbad : ∀ s a s', I s → ¬ ok s a → M.step s a = some s' → ¬ P s') {s : σ} (hs : M.init s)
    {as : List α} {t : σ} (hrun : M.run s as = some t) :
    M.Always P s as ↔ M.StepsMeet ok s as := by
  have hkeeps : M.Keeps (fun s a => True ∧ ok s a) I := h.mono fun _ _ hok => hok.2
  exact always_iff_stepsMeet_of hkeeps hP (fun s a s' hI _ => hbad s a s' hI) hs hrun
    (stepsMeet_true as s)

/-! ## §5. A scheduler. -/

variable (M) in
/-- The machine when `next` picks the action: each state has at most one next state. -/
def drive (next : σ → α) (s : σ) : Option σ := M.step s (next s)

/-- `n` steps of a state transition function. -/
def stepN (f : σ → Option σ) : ℕ → σ → Option σ
  | 0, s => some s
  | n + 1, s => (f s).bind (stepN f n)

/-- From `s` the steps of `f` come to an end in `t`. -/
def Ends (f : σ → Option σ) (s t : σ) : Prop := (∃ n, stepN f n s = some t) ∧ f t = none

theorem stepN_succ {f : σ → Option σ} {n : ℕ} {s t : σ} (h : stepN f (n + 1) s = some t) :
    ∃ r, f s = some r ∧ stepN f n r = some t := Option.bind_eq_some_iff.mp h

theorem stepN_cons {f : σ → Option σ} {n : ℕ} {s r t : σ} (h : f s = some r)
    (hrest : stepN f n r = some t) : stepN f (n + 1) s = some t := by
  show (f s).bind _ = some t
  rw [h]
  exact hrest

theorem stepN_add {f : σ → Option σ} {n m : ℕ} {s r t : σ} (h₁ : stepN f n s = some r)
    (h₂ : stepN f m r = some t) : stepN f (n + m) s = some t := by
  induction n generalizing s with
  | zero =>
      obtain rfl : s = r := Option.some.inj h₁
      rw [Nat.zero_add]
      exact h₂
  | succ n ih =>
      obtain ⟨q, hq, hrest⟩ := stepN_succ h₁
      rw [show n + 1 + m = n + m + 1 by omega]
      exact stepN_cons hq (ih hrest)

/-- The end is unique. -/
theorem Ends.unique {f : σ → Option σ} {s t u : σ} (ht : Ends f s t) (hu : Ends f s u) :
    t = u := by
  obtain ⟨⟨n, hn⟩, htEnd⟩ := ht
  obtain ⟨⟨m, hm⟩, huEnd⟩ := hu
  induction n generalizing s m with
  | zero =>
      obtain rfl : s = t := Option.some.inj hn
      cases m with
      | zero => exact Option.some.inj hm
      | succ m =>
          obtain ⟨r, hr, -⟩ := stepN_succ hm
          rw [htEnd] at hr
          cases hr
  | succ n ih =>
      obtain ⟨r, hr, hrest⟩ := stepN_succ hn
      cases m with
      | zero =>
          obtain rfl : s = u := Option.some.inj hm
          rw [huEnd] at hr
          cases hr
      | succ m =>
          obtain ⟨r', hr', hrest'⟩ := stepN_succ hm
          obtain rfl : r = r' := Option.some.inj (hr.symm.trans hr')
          exact ih hrest m hrest'

/-- What a scheduler does is a run. -/
theorem Reachable.drive {next : σ → α} {n : ℕ} {s t : σ} (hr : M.Reachable s)
    (h : stepN (M.drive next) n s = some t) : M.Reachable t := by
  induction n generalizing s with
  | zero =>
      obtain rfl : s = t := Option.some.inj h
      exact hr
  | succ n ih =>
      obtain ⟨r, hstep, hrest⟩ := stepN_succ h
      exact ih (hr.step hstep) hrest

end Machine

end Interleave
