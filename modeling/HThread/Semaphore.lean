/-
  HThread.Semaphore — `sem_wait`, `sem_trywait` and `sem_post` of strategy.h.

  The semaphore is one `int c`.  `sem_trywait` loads `c`, takes a unit by a
  fetch-and-add of −1 and puts it back when the old value was not positive;
  `sem_wait` repeats it and yields in between; `sem_post` adds one.  Every load
  and fetch-and-add is one step of the machine `semaphore v`, and the steps of
  any number of callers interleave in any order.

  Key lemma:
    * `sem_counts` — the history counts the calls that have returned 0.
  Main result:
    * `sem_accounting` — in every reachable state `c` plus the number of
      callers that still owe their compensating increment is the abstract
      value: initial value + posts − successful waits, which is never negative.
-/
import HThread.Interleave.Machine
import HThread.Interleave.Tally

namespace HThread

/-- The error number `EBUSY` that the failing try calls return. -/
def ebusy : Int := 16

/-- The error number `EAGAIN` that `sem_trywait` leaves in `errno`. -/
def eagain : Int := 11

end HThread

namespace HThread.Semaphore

open Interleave
open Function (update)

/-! ## §1. The code. -/

/-- Program points of the three functions; `wait` tells a call of `sem_trywait`
    made by `sem_wait` from one made by the program. -/
inductive SemPc where
  /-- Not inside any call. -/
  | idle
  /-- strategy.h:742, `if (hs->c <= 0)`. -/
  | load (wait : Bool)
  /-- strategy.h:747, `__sync_fetch_and_add(&hs->c, -1)` and the test of its result. -/
  | dec (wait : Bool)
  /-- strategy.h:749, the compensating `__sync_fetch_and_add(&hs->c, 1)`. -/
  | undo (wait : Bool)
  /-- strategy.h:716, `sem_wait` yields before it tries again. -/
  | yield
  /-- strategy.h:758, the `__sync_fetch_and_add(&hs->c, 1)` of `sem_post`. -/
  | post
  deriving DecidableEq, Repr

/-- The calls a program can make. -/
inductive SemCall where
  | semWait | semTrywait | semPost
  deriving DecidableEq, Repr

/-- `hthread_sem_t` with the callers' program points.  `ret` and `errno` are
    each caller's last return value and error number; `posts` and `waits` are
    history: completed increments of `sem_post`, successful (try)waits. -/
structure SemState (T : Type) where
  c : ℤ
  pc : T → SemPc
  ret : T → ℤ
  errno : T → ℤ
  posts : ℕ
  waits : ℕ

variable {T : Type} [DecidableEq T]

namespace SemState

/-- Caller `t` moves to `p`. -/
def goto (s : SemState T) (t : T) (p : SemPc) : SemState T := { s with pc := update s.pc t p }

/-- The call of caller `t` returns `r`. -/
def return_ (s : SemState T) (t : T) (r : ℤ) : SemState T :=
  { s with pc := update s.pc t .idle, ret := update s.ret t r }

/-- `sem_trywait` returns `EBUSY`: to the program, or to the loop of `sem_wait`. -/
def busy (s : SemState T) (t : T) (wait : Bool) : SemState T :=
  if wait then s.goto t .yield else s.return_ t ebusy

@[simp] theorem goto_c (s : SemState T) (t : T) (p : SemPc) : (s.goto t p).c = s.c := rfl
@[simp] theorem goto_posts (s : SemState T) (t : T) (p : SemPc) : (s.goto t p).posts = s.posts := rfl
@[simp] theorem goto_waits (s : SemState T) (t : T) (p : SemPc) : (s.goto t p).waits = s.waits := rfl
@[simp] theorem return_c (s : SemState T) (t : T) (r : ℤ) : (s.return_ t r).c = s.c := rfl
@[simp] theorem return_posts (s : SemState T) (t : T) (r : ℤ) : (s.return_ t r).posts = s.posts := rfl
@[simp] theorem return_waits (s : SemState T) (t : T) (r : ℤ) : (s.return_ t r).waits = s.waits := rfl

@[simp] theorem busy_c (s : SemState T) (t : T) (wait : Bool) : (s.busy t wait).c = s.c := by
  cases wait <;> rfl
@[simp] theorem busy_posts (s : SemState T) (t : T) (wait : Bool) :
    (s.busy t wait).posts = s.posts := by
  cases wait <;> rfl
@[simp] theorem busy_waits (s : SemState T) (t : T) (wait : Bool) :
    (s.busy t wait).waits = s.waits := by
  cases wait <;> rfl
theorem busy_pc (s : SemState T) (t : T) (wait : Bool) :
    (s.busy t wait).pc = update s.pc t (if wait then .yield else .idle) := by
  cases wait <;> rfl

end SemState

/-- One step of `sem_trywait`, alone or inside `sem_wait`. -/
def semTrywait (s : SemState T) (t : T) : SemPc → Option (SemState T)
  | .load wait =>
      if s.c ≤ 0 then some ({ s with errno := update s.errno t eagain }.busy t wait)
      else some (s.goto t (.dec wait))
  | .dec wait =>
      if s.c ≤ 0 then some ({ s with c := s.c - 1 }.goto t (.undo wait))
      else some ({ s with c := s.c - 1, waits := s.waits + 1 }.return_ t 0)
  | .undo wait => some ({ s with c := s.c + 1 }.busy t wait)
  | _ => none

/-- One step of `sem_wait` between two attempts. -/
def semWait (s : SemState T) (t : T) : SemPc → Option (SemState T)
  | .yield => some (s.goto t (.load true))
  | _ => none

/-- One step of `sem_post`. -/
def semPost (s : SemState T) (t : T) : SemPc → Option (SemState T)
  | .post => some ({ s with c := s.c + 1, posts := s.posts + 1 }.return_ t 0)
  | _ => none

/-- The entry point of a call. -/
def SemCall.entry : SemCall → SemPc
  | .semWait => .load true
  | .semTrywait => .load false
  | .semPost => .post

/-- An action of caller `t`: start a call, or take the next step of the one it is in. -/
inductive SemAct (T : Type) where
  | call (t : T) (f : SemCall)
  | go (t : T)
  deriving DecidableEq, Repr

/-- One step of one caller. -/
def semStep (s : SemState T) : SemAct T → Option (SemState T)
  | .call t f => if s.pc t = .idle then some (s.goto t f.entry) else none
  | .go t =>
      match s.pc t with
      | .idle => none
      | .yield => semWait s t .yield
      | .post => semPost s t .post
      | p => semTrywait s t p

/-- A semaphore with initial value `v`, nobody inside a call. -/
def semInit (v : ℤ) : SemState T where
  c := v
  pc _ := .idle
  ret _ := 0
  errno _ := 0
  posts := 0
  waits := 0

/-- The semaphore with initial value `v` and its callers. -/
def semaphore (v : ℤ) : Machine (SemState T) (SemAct T) where
  init s := s = semInit v
  step := semStep

/-! ## §2. The accounting invariant. -/

/-- A caller between its failed decrement and the compensating increment owes one unit. -/
def owes : SemPc → ℕ
  | .undo _ => 1
  | _ => 0

/-- The number of callers between a failed decrement and its compensating increment. -/
def inUndo [Fintype T] (s : SemState T) : ℕ := tally owes s.pc

/-- The value the semaphore stands for: initial value + posts − successful waits. -/
def value (v : ℤ) (s : SemState T) : ℤ := v + s.posts - s.waits

variable [Fintype T]

/-- The counter plus the units still owed is the abstract value, never negative. -/
def Accounted (v : ℤ) (s : SemState T) : Prop := s.c + inUndo s = value v s ∧ 0 ≤ value v s

/-- A step from `s` to `s'` by `t` that changes `c` and the histories as given. -/
theorem accounted_of_move {v : ℤ} {s s' : SemState T} {t : T} {p : SemPc}
    (h : Accounted v s) (hpc : s'.pc = update s.pc t p)
    (hc : s'.c + owes p + s'.waits + s.posts = s.c + owes (s.pc t) + s.waits + s'.posts)
    (hv : 0 ≤ value v s') : Accounted v s' := by
  refine ⟨?_, hv⟩
  have ht := tally_update owes s.pc t p
  have hsum := h.1
  simp only [inUndo, value, hpc] at hsum ⊢
  omega

theorem owes_busy (wait : Bool) : owes (if wait then .yield else .idle) = 0 := by
  cases wait <;> rfl

theorem semTrywait_accounted {v : ℤ} {s s' : SemState T} {t : T} (h : Accounted v s)
    (hs : semTrywait s t (s.pc t) = some s') : Accounted v s' := by
  have hval := h.2
  cases hp : s.pc t with
  | load wait =>
      rw [hp] at hs
      simp only [semTrywait] at hs
      split at hs
      · cases hs
        refine accounted_of_move h (SemState.busy_pc _ t wait) ?_ (by simpa [value] using hval)
        rw [owes_busy, hp]
        simp [owes]
      · cases hs
        exact accounted_of_move h rfl (by simp [hp, owes]) hval
  | dec wait =>
      rw [hp] at hs
      simp only [semTrywait] at hs
      split at hs
      · cases hs
        exact accounted_of_move h rfl (by simp [hp, owes]) hval
      · -- a unit was there: with the units still owed it is part of the abstract value
        have hpos : 0 < value v s := by
          have := h.1
          omega
        cases hs
        refine accounted_of_move h rfl (by simp [hp, owes]) ?_
        simp only [value, SemState.return_posts, SemState.return_waits] at hpos ⊢
        omega
  | undo wait =>
      rw [hp] at hs
      cases hs
      refine accounted_of_move h (SemState.busy_pc _ t wait) ?_ (by simpa [value] using hval)
      rw [owes_busy, hp]
      simp only [SemState.busy_c, SemState.busy_posts, SemState.busy_waits, owes]
      omega
  | idle | yield | post => simp [hp, semTrywait] at hs

theorem semStep_accounted {v : ℤ} {s s' : SemState T} {a : SemAct T} (h : Accounted v s)
    (hs : semStep s a = some s') : Accounted v s' := by
  cases a with
  | call t f =>
      simp only [semStep] at hs
      split at hs
      · next hp =>
          cases hs
          refine accounted_of_move h rfl ?_ h.2
          cases f <;> simp [hp, owes, SemCall.entry]
      · cases hs
  | go t =>
      simp only [semStep] at hs
      split at hs
      · cases hs
      · next hp =>
          cases hs
          exact accounted_of_move h rfl (by simp [hp, owes]) h.2
      · next hp =>
          cases hs
          refine accounted_of_move h rfl (by simp [hp, owes]; omega) ?_
          have := h.2
          simp only [value, SemState.return_posts, SemState.return_waits] at this ⊢
          omega
      · exact semTrywait_accounted h hs

theorem semaphore_keeps (v : ℤ) (hv : 0 ≤ v) :
    (semaphore (T := T) v).Keeps (fun _ _ => True) (Accounted v) where
  start s hs := by
    obtain rfl : s = semInit v := hs
    have hz : inUndo (semInit (T := T) v) = 0 := (tally_eq_zero owes _).mpr fun _ => rfl
    rw [Accounted, hz]
    simp [value, semInit, hv]
  step s a s' h _ hs := semStep_accounted h hs

/-- **Semaphore safety and accounting.**  Whatever the callers do and however
    their steps interleave: `c` plus the callers between a failed decrement and
    its undo is the initial value plus posts minus successful waits, this is
    never negative, and so the successful waits never exceed the initial value
    plus the posts. -/
theorem sem_accounting (v : ℤ) (hv : 0 ≤ v) (s : SemState T)
    (hr : (semaphore v).Reachable s) :
    s.c + inUndo s = v + s.posts - s.waits ∧ 0 ≤ v + (s.posts : ℤ) - s.waits
      ∧ (s.waits : ℤ) ≤ v + s.posts := by
  have h := (semaphore_keeps v hv).reachable hr
  simp only [Accounted, value] at h
  exact ⟨h.1, h.2, by omega⟩

/-! ## §3. The calls of a run. -/

/-- A step at which a call returns 0: its caller, and whether the call is `sem_post`. -/
def succeeding (s : SemState T) (a : SemAct T) (s' : SemState T) : List (T × Bool) :=
  match a with
  | .go t => if s'.pc t = .idle ∧ s'.ret t = 0 then [(t, decide (s.pc t = .post))] else []
  | .call _ _ => []

/-- The calls of a run that return 0. -/
def successes (v : ℤ) (s : SemState T) (as : List (SemAct T)) : List (T × Bool) :=
  (semaphore v).trace succeeding s as

omit [Fintype T] in
theorem busy_pc_ne (s : SemState T) (t : T) (wait : Bool) :
    ¬((s.busy t wait).pc t = .idle ∧ (s.busy t wait).ret t = 0) := by
  cases wait with
  | true => simp [SemState.busy, SemState.goto]
  | false => simp [SemState.busy, SemState.return_, ebusy]

omit [Fintype T] in
/-- A step of `sem_trywait` counts a wait iff the call returns 0. -/
theorem semTrywait_counts {s s' : SemState T} {t : T} (hs : semTrywait s t (s.pc t) = some s') :
    s'.posts = s.posts
      ∧ s'.waits = s.waits + if s'.pc t = .idle ∧ s'.ret t = 0 then 1 else 0 := by
  cases hp : s.pc t with
  | load wait =>
      rw [hp] at hs
      simp only [semTrywait] at hs
      split at hs
      · cases hs
        rw [if_neg (busy_pc_ne _ t wait)]
        exact ⟨SemState.busy_posts .., SemState.busy_waits ..⟩
      · cases hs
        simp [SemState.goto]
  | dec wait =>
      rw [hp] at hs
      simp only [semTrywait] at hs
      split at hs
      · cases hs
        simp [SemState.goto]
      · cases hs
        simp [SemState.return_]
  | undo wait =>
      rw [hp] at hs
      cases hs
      rw [if_neg (busy_pc_ne _ t wait)]
      exact ⟨SemState.busy_posts .., SemState.busy_waits ..⟩
  | idle | yield | post => simp [hp, semTrywait] at hs

omit [Fintype T] in
/-- **`posts` and `waits` count the calls that return 0.** -/
theorem semStep_counts {s s' : SemState T} {a : SemAct T} (hs : semStep s a = some s') :
    s'.posts = s.posts + ((succeeding s a s').countP fun c => c.2)
      ∧ s'.waits = s.waits + ((succeeding s a s').countP fun c => !c.2) := by
  cases a with
  | call t f =>
      simp only [semStep, Option.ite_none_right_eq_some] at hs
      obtain rfl := Option.some.inj hs.2
      exact ⟨rfl, rfl⟩
  | go t =>
      simp only [semStep] at hs
      split at hs
      · cases hs
      · next hp =>
          cases hs
          simp [succeeding, SemState.goto]
      · next hp =>
          cases hs
          simp [succeeding, SemState.return_, hp]
      · next hidle hyield hpost =>
          obtain ⟨hposts, hwaits⟩ := semTrywait_counts hs
          have hno : decide (s.pc t = .post) = false := decide_eq_false fun h => hpost h
          rw [hposts, hwaits]
          simp only [succeeding, hno]
          split <;> simp

omit [Fintype T] in
/-- The same for a whole run. -/
theorem sem_counts {v : ℤ} {s t : SemState T} {as : List (SemAct T)}
    (hrun : (semaphore v).run s as = some t) :
    t.posts = s.posts + ((successes v s as).countP fun c => c.2)
      ∧ t.waits = s.waits + ((successes v s as).countP fun c => !c.2) := by
  induction as generalizing s with
  | nil =>
      obtain rfl : s = t := Option.some.inj hrun
      exact ⟨rfl, rfl⟩
  | cons a as ih =>
      obtain ⟨r, hstep, hrest⟩ := Machine.run_cons hrun
      obtain ⟨hposts, hwaits⟩ := ih hrest
      obtain ⟨hpost, hwait⟩ := semStep_counts hstep
      have htrace : successes v s (a :: as) = succeeding s a r ++ successes v r as :=
        Machine.trace_cons succeeding hstep as
      rw [htrace, List.countP_append, List.countP_append]
      omega

/-- Two callers see the only unit; the second decrement takes `c` to −1. -/
def raceActs : List (SemAct (Fin 2)) :=
  [.call 0 .semTrywait, .call 1 .semWait, .go 0, .go 1, .go 0, .go 1]

/-- Caller 0 posts, and the `sem_wait` of caller 1 gets the unit at its second try. -/
def postActs : List (SemAct (Fin 2)) :=
  [.call 0 .semPost, .go 0, .go 1, .go 1, .go 1, .go 1]

theorem sem_accounting_race :
    ∃ s, (semaphore 1).run (semInit 1) raceActs = some s ∧ s.c = -1 ∧ s.waits = 1
      ∧ s.c + inUndo s = 1 + s.posts - s.waits ∧ 0 ≤ 1 + (s.posts : ℤ) - s.waits
      ∧ (s.waits : ℤ) ≤ 1 + s.posts
      ∧ ∃ t, (semaphore 1).run s postActs = some t ∧ t.c = 0 ∧ t.posts = 1 ∧ t.waits = 2
        ∧ t.c + inUndo t = 1 + t.posts - t.waits ∧ 0 ≤ 1 + (t.posts : ℤ) - t.waits
        ∧ (t.waits : ℤ) ≤ 1 + t.posts := by
  have hr : (semaphore 1).Reachable _ := .after rfl raceActs rfl
  exact ⟨_, rfl, rfl, rfl, (sem_accounting 1 (by decide) _ hr).1,
    (sem_accounting 1 (by decide) _ hr).2.1, (sem_accounting 1 (by decide) _ hr).2.2, _, rfl, rfl,
    rfl, rfl, sem_accounting 1 (by decide) _ (hr.run (show (semaphore 1).run _ postActs = _ from rfl))⟩

end HThread.Semaphore
