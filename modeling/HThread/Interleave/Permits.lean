/-
  HThread.Interleave.Permits — a store of permits.

  Permits are put into the store, some at a time, and an actor takes as many as
  there are.  It keeps them until it leaves with all of them.  This is what a
  counting semaphore is for.

  Key lemmas:
    * `permits_conserve` — no permit is handed out twice, and none is lost.
    * `held_conserve`    — what the actors have taken they have left with, or hold.
-/
import HThread.Interleave.Machine
import HThread.Interleave.Tally

namespace Interleave

open Function (update)

variable {A : Type*}

/-- The permits in the store, and those the actors hold. -/
structure Permits (A : Type*) where
  free : ℕ
  held : A → ℕ

inductive PermitAct (A : Type*) where
  | signal (n : ℕ)
  | acquire (a : A) (n : ℕ)
  | leave (a : A) (n : ℕ)
  deriving DecidableEq, Repr

variable [DecidableEq A]

/-- One step: only permits that are there can be taken, and an actor leaves with all that
    it has taken. -/
def permitStep (s : Permits A) : PermitAct A → Option (Permits A)
  | .signal n => some { s with free := s.free + n }
  | .acquire a n =>
      if n ≤ s.free then some ⟨s.free - n, update s.held a (s.held a + n)⟩ else none
  | .leave a n => if s.held a = n then some { s with held := update s.held a 0 } else none

/-- The store has `initial` permits at first. -/
def permits (initial : ℕ) : Machine (Permits A) (PermitAct A) where
  init s := s = ⟨initial, fun _ => 0⟩
  step := permitStep

/-- The permits that an action puts into the store. -/
def PermitAct.brought : PermitAct A → ℕ
  | signal n => n
  | _ => 0

/-- The permits that an action hands out. -/
def PermitAct.granted : PermitAct A → ℕ
  | acquire _ n => n
  | _ => 0

/-- The permits that a list of actions puts into the store. -/
def signals (as : List (PermitAct A)) : ℕ := (as.map PermitAct.brought).sum

/-- The permits that a list of actions hands out. -/
def grants (as : List (PermitAct A)) : ℕ := (as.map PermitAct.granted).sum

/-- Who leaves, and with how many permits. -/
def leaves (as : List (PermitAct A)) : List (A × ℕ) :=
  as.filterMap fun
    | .leave a n => some (a, n)
    | _ => none

omit [DecidableEq A] in
theorem signals_append (as bs : List (PermitAct A)) :
    signals (as ++ bs) = signals as + signals bs := by
  simp [signals]

omit [DecidableEq A] in
theorem leaves_append (as bs : List (PermitAct A)) :
    leaves (as ++ bs) = leaves as ++ leaves bs := List.filterMap_append

/-- **Permits are handed out once each.** -/
theorem permits_conserve {initial : ℕ} {s t : Permits A} {as : List (PermitAct A)}
    (h : (permits initial).run s as = some t) : s.free + signals as = grants as + t.free := by
  induction as generalizing s with
  | nil =>
      obtain rfl : s = t := Option.some.inj h
      exact Nat.add_comm _ _
  | cons a as ih =>
      obtain ⟨r, hstep, hrest⟩ := Machine.run_cons h
      have hrest := ih hrest
      have hsignals : signals (a :: as) = a.brought + signals as := List.sum_cons
      have hgrants : grants (a :: as) = a.granted + grants as := List.sum_cons
      rw [hsignals, hgrants]
      cases a with
      | signal n =>
          obtain rfl := Option.some.inj hstep
          have hrest : s.free + n + signals as = grants as + t.free := hrest
          show s.free + (n + signals as) = 0 + grants as + t.free
          omega
      | acquire b n =>
          simp only [permits, permitStep, Option.ite_none_right_eq_some] at hstep
          obtain ⟨hle, hstep⟩ := hstep
          obtain rfl := Option.some.inj hstep
          have hrest : s.free - n + signals as = grants as + t.free := hrest
          show s.free + (0 + signals as) = n + grants as + t.free
          omega
      | leave b n =>
          simp only [permits, permitStep, Option.ite_none_right_eq_some] at hstep
          obtain rfl := Option.some.inj hstep.2
          have hrest : s.free + signals as = grants as + t.free := hrest
          show s.free + (0 + signals as) = 0 + grants as + t.free
          omega

/-- **What is taken is left with, or held.** -/
theorem held_conserve [Fintype A] {initial : ℕ} {s t : Permits A} {as : List (PermitAct A)}
    (h : (permits initial).run s as = some t) :
    tally id s.held + grants as = ((leaves as).map Prod.snd).sum + tally id t.held := by
  induction as generalizing s with
  | nil =>
      obtain rfl : s = t := Option.some.inj h
      exact Nat.add_comm _ _
  | cons a as ih =>
      obtain ⟨r, hstep, hrest⟩ := Machine.run_cons h
      have hrest := ih hrest
      have hgrants : grants (a :: as) = a.granted + grants as := List.sum_cons
      rw [hgrants]
      cases a with
      | signal n =>
          obtain rfl := Option.some.inj hstep
          have hrest : tally id s.held + grants as
            = ((leaves as).map Prod.snd).sum + tally id t.held := hrest
          show tally id s.held + (0 + grants as) = ((leaves as).map Prod.snd).sum + tally id t.held
          omega
      | acquire b n =>
          simp only [permits, permitStep, Option.ite_none_right_eq_some] at hstep
          obtain rfl := Option.some.inj hstep.2
          have hmore : tally id (update s.held b (s.held b + n)) + s.held b
              = tally id s.held + (s.held b + n) := tally_update id s.held b (s.held b + n)
          have hrest : tally id (update s.held b (s.held b + n)) + grants as
            = ((leaves as).map Prod.snd).sum + tally id t.held := hrest
          show tally id s.held + (n + grants as) = ((leaves as).map Prod.snd).sum + tally id t.held
          omega
      | leave b n =>
          simp only [permits, permitStep, Option.ite_none_right_eq_some] at hstep
          obtain ⟨hheld, hstep⟩ := hstep
          obtain rfl := Option.some.inj hstep
          have hless : tally id (update s.held b 0) + s.held b = tally id s.held + 0 :=
            tally_update id s.held b 0
          have hleaves : ((leaves (PermitAct.leave b n :: as)).map Prod.snd).sum
              = n + ((leaves as).map Prod.snd).sum := List.sum_cons
          have hrest : tally id (update s.held b 0) + grants as
            = ((leaves as).map Prod.snd).sum + tally id t.held := hrest
          rw [hleaves]
          show tally id s.held + (0 + grants as) = _
          omega

end Interleave
