/-
  HThread.Semaphore.Binary — `hthread_bin_sema_t` of htypes.hpp.

  `wait` takes the permit by a compare-and-swap from 1 to 0 and calls futex when
  there is none; `post` puts it there by a compare-and-swap from 0 to 1 and then
  wakes one sleeper.  The kernel puts a caller to sleep only while `fut` is 0.

  Between a post and its wake-up call the permit may be taken by a newcomer, a
  woken thread may find it gone, and a post that finds it there wakes nobody.
  Still nobody sleeps on a permit: whoever sleeps while `fut` is 1 is attended
  by a thread that tries for the permit or has a wake-up call to make.

  Key lemma:
    * `sound_step` — every step of every thread keeps the invariant.
  Main result:
    * `bin_sema_sound` — the permits are accounted for and no sleeper is stuck.
-/
import Mathlib.Data.Fintype.Basic
import HThread.Interleave.Custody
import HThread.Interleave.Machine

namespace HThread.BinSema

open Interleave
open Function (update)

/-! ## §1. The code. -/

/-- Program points of the two functions. -/
inductive SemaPc where
  /-- Not inside any call. -/
  | idle
  /-- htypes.hpp:438, the compare-and-swap of `wait`. -/
  | waitCas
  /-- htypes.hpp:439, the call of futex with FUTEX_WAIT, -/
  | waitFutex
  /-- and asleep in it. -/
  | asleep
  /-- htypes.hpp:447, the compare-and-swap of `post`. -/
  | postCas
  /-- htypes.hpp:449, the call of futex with FUTEX_WAKE. -/
  | postFutex
  deriving DecidableEq, Repr

/-- The calls a program can make. -/
inductive SemaCall where
  | wait | post
  deriving DecidableEq, Repr

/-- The entry point of a call. -/
def SemaCall.entry : SemaCall → SemaPc
  | .wait => .waitCas
  | .post => .postCas

/-- `hthread_bin_sema_t` with the threads' program points.  History: the calls of
    `wait` that have returned, the compare-and-swaps of `post` that succeeded. -/
structure SemaState (T : Type) where
  fut : BitVec 32
  pc : T → SemaPc
  waits : ℕ
  posts : ℕ

/-- An action of thread `t`: start a call, wake the sleeping thread `b`, or take the
    next step otherwise. -/
inductive SemaAct (T : Type) where
  | call (t : T) (f : SemaCall)
  | rouse (t b : T)
  | go (t : T)
  deriving DecidableEq, Repr

variable {T : Type} [DecidableEq T]

/-- Thread `t` moves to `p`. -/
def SemaState.goto (s : SemaState T) (t : T) (p : SemaPc) : SemaState T :=
  { s with pc := update s.pc t p }

/-- htypes.hpp:433, `wait`.  The kernel returns EAGAIN when `fut` is not 0 any more;
    it returns no other error. -/
def wait (s : SemaState T) (t : T) : SemaPc → Option (SemaState T)
  | .waitCas =>
      some (if s.fut = 1 then { s with fut := 0, waits := s.waits + 1 }.goto t .idle
        else s.goto t .waitFutex)
  | .waitFutex => some (s.goto t (if s.fut = 0 then .asleep else .waitCas))
  | _ => none

/-- htypes.hpp:444, `post`, when nobody is asleep at its wake-up call. -/
def post [Fintype T] (s : SemaState T) (t : T) : SemaPc → Option (SemaState T)
  | .postCas =>
      some (if s.fut = 0 then { s with fut := 1, posts := s.posts + 1 }.goto t .postFutex
        else s.goto t .idle)
  | .postFutex => if ∀ b, s.pc b ≠ .asleep then some (s.goto t .idle) else none
  | _ => none

/-- The wake-up call of `post` finds `b` asleep: it goes back to its compare-and-swap. -/
def futexWake (s : SemaState T) (t b : T) : SemaPc → Option (SemaState T)
  | .postFutex =>
      if s.pc b = .asleep then some ((s.goto b .waitCas).goto t .idle) else none
  | _ => none

/-- One step of one thread. -/
def semaStep [Fintype T] (s : SemaState T) : SemaAct T → Option (SemaState T)
  | .call t f => if s.pc t = .idle then some (s.goto t f.entry) else none
  | .rouse t b => futexWake s t b (s.pc t)
  | .go t =>
      match s.pc t with
      | .postCas => post s t .postCas
      | .postFutex => post s t .postFutex
      | p => wait s t p

/-- htypes.hpp:454, the constructor. -/
def semaInit (initVal : BitVec 32) : SemaState T where
  fut := initVal
  pc _ := .idle
  waits := 0
  posts := 0

/-- The semaphore and its users. -/
def binSema [Fintype T] (initVal : BitVec 32) : Machine (SemaState T) (SemaAct T) where
  init s := s = semaInit initVal
  step := semaStep

/-! ## §2. The invariant. -/

/-- At this point a thread will try for the permit, or wake somebody who does. -/
def SemaPc.attends : SemaPc → Bool
  | .waitCas | .waitFutex | .postFutex => true
  | _ => false

/-- `fut` is a permit, permits are accounted for, and a sleeper that could have one
    is attended to. -/
structure Sound (v : BitVec 32) (s : SemaState T) : Prop where
  permit : s.fut = 0 ∨ s.fut = 1
  accounted : s.waits + s.fut.toNat = v.toNat + s.posts
  attended : s.fut = 1 → (∃ t, s.pc t = .asleep) → ∃ u, (s.pc u).attends = true

section Steps

variable {v : BitVec 32} {s s' : SemaState T} {t b : T} {p : SemaPc}

/-- A thread that moves to a point where it attends. -/
theorem attended_goto (hp : p.attends = true) : ∃ u, ((s.goto t p).pc u).attends = true := by
  refine ⟨t, ?_⟩
  show (update s.pc t p t).attends = true
  rw [Function.update_self]
  exact hp

/-- A step that changes neither `fut` nor the counts, made while there is no permit
    or to a point where the thread attends. -/
theorem sound_goto (h : Sound v s) (hp : s.fut = 0 ∨ p.attends = true) : Sound v (s.goto t p) := by
  refine ⟨h.permit, h.accounted, fun hone _ => ?_⟩
  rcases hp with hzero | hp
  · have hone : s.fut = 1 := hone
    rw [hzero] at hone
    cases hone
  · exact attended_goto hp

omit [DecidableEq T] in
theorem attends_ne {u : T} (hu : (s.pc u).attends = true) (ht : (s.pc t).attends = false) :
    u ≠ t := by
  rintro rfl
  rw [ht] at hu
  cases hu

/-- So does one between two points that have nothing to do with sleepers. -/
theorem sound_pass (h : Sound v s) (ht : (s.pc t).attends = false) (hp : p ≠ .asleep) :
    Sound v (s.goto t p) := by
  refine ⟨h.permit, h.accounted, fun hone hsleep => ?_⟩
  obtain ⟨x, hx⟩ := hsleep
  obtain ⟨u, hu⟩ := h.attended hone ⟨x, (eq_of_update hp hx).2⟩
  refine ⟨u, ?_⟩
  show (update s.pc t p u).attends = true
  rw [Function.update_of_ne (attends_ne hu ht)]
  exact hu

theorem wait_sound (h : Sound v s) (hs : wait s t (s.pc t) = some s') : Sound v s' := by
  cases hpc : s.pc t with
  | waitCas =>
      rw [hpc] at hs
      obtain rfl := Option.some.inj hs
      by_cases hone : s.fut = 1
      · -- it takes the permit
        rw [if_pos hone]
        refine ⟨.inl rfl, ?_, fun hf => by cases hf⟩
        have hacc := h.accounted
        rw [hone] at hacc
        show s.waits + 1 + 0 = v.toNat + s.posts
        exact hacc
      · rw [if_neg hone]
        exact sound_goto h (.inr rfl)
  | waitFutex =>
      rw [hpc] at hs
      obtain rfl := Option.some.inj hs
      by_cases hzero : s.fut = 0
      · exact sound_goto h (.inl hzero)
      · rw [if_neg hzero]
        exact sound_goto h (.inr rfl)
  | idle | asleep | postCas | postFutex =>
      rw [hpc] at hs
      cases hs

theorem post_sound [Fintype T] (h : Sound v s) (hs : post s t (s.pc t) = some s') :
    Sound v s' := by
  cases hpc : s.pc t with
  | postCas =>
      rw [hpc] at hs
      obtain rfl := Option.some.inj hs
      by_cases hzero : s.fut = 0
      · -- the new permit is announced by the wake-up call to come
        rw [if_pos hzero]
        refine ⟨.inr rfl, ?_, fun _ _ => attended_goto rfl⟩
        have hacc := h.accounted
        rw [hzero] at hacc
        show s.waits + 1 = v.toNat + (s.posts + 1)
        rw [← Nat.add_assoc, ← hacc]
        rfl
      · rw [if_neg hzero]
        exact sound_pass h (by rw [hpc]; rfl) (by simp)
  | postFutex =>
      rw [hpc] at hs
      simp only [post, Option.ite_none_right_eq_some] at hs
      obtain ⟨hnone, hs⟩ := hs
      obtain rfl := Option.some.inj hs
      -- nobody is asleep, so nobody needs to be attended to
      refine ⟨h.permit, h.accounted, fun _ hsleep => ?_⟩
      obtain ⟨u, hu⟩ := hsleep
      exact absurd (eq_of_update (by simp) hu).2 (hnone u)
  | idle | waitCas | waitFutex | asleep =>
      rw [hpc] at hs
      cases hs

theorem futexWake_sound (h : Sound v s) (hs : futexWake s t b (s.pc t) = some s') :
    Sound v s' := by
  cases hpc : s.pc t with
  | postFutex =>
      rw [hpc] at hs
      simp only [futexWake, Option.ite_none_right_eq_some] at hs
      obtain ⟨hb, hs⟩ := hs
      obtain rfl := Option.some.inj hs
      have hbt : b ≠ t := by
        rintro rfl
        rw [hpc] at hb
        cases hb
      -- the thread that was woken attends now
      refine ⟨h.permit, h.accounted, fun _ _ => ⟨b, ?_⟩⟩
      show (update (update s.pc b .waitCas) t .idle b).attends = true
      rw [Function.update_of_ne hbt, Function.update_self]
      rfl
  | idle | waitCas | waitFutex | asleep | postCas =>
      rw [hpc] at hs
      cases hs

/-- **One step.** -/
theorem sound_step [Fintype T] {act : SemaAct T} (h : Sound v s) (hs : semaStep s act = some s') :
    Sound v s' := by
  cases act with
  | call t f =>
      simp only [semaStep, Option.ite_none_right_eq_some] at hs
      obtain ⟨hpc, hs⟩ := hs
      obtain rfl := Option.some.inj hs
      refine sound_pass h (by rw [hpc]; rfl) ?_
      cases f <;> simp [SemaCall.entry]
  | rouse t b => exact futexWake_sound h hs
  | go t =>
      cases hpc : s.pc t with
      | postCas | postFutex =>
          simp only [semaStep, hpc] at hs
          exact post_sound h (hpc ▸ hs)
      | idle | waitCas | waitFutex | asleep =>
          simp only [semaStep, hpc] at hs
          exact wait_sound h (hpc ▸ hs)

end Steps

theorem binSema_keeps [Fintype T] {v : BitVec 32} (hv : v = 0 ∨ v = 1) :
    (binSema (T := T) v).Keeps (fun _ _ => True) (Sound v) where
  start s hs := by
    obtain rfl : s = semaInit v := hs
    refine ⟨hv, ?_, fun _ ht => ?_⟩
    · show 0 + v.toNat = v.toNat + 0
      rw [Nat.zero_add, Nat.add_zero]
    · obtain ⟨t, ht⟩ := ht
      cases ht
  step _ _ _ h _ hs := sound_step h hs

/-- **Binary semaphore.**  Started with 0 or 1, in every reachable state: `fut` is 0
    or 1, the waits that have returned and the permit left are the initial value
    and the posts that put a permit, and whenever a thread is asleep although the
    permit is there, another one is awake inside `wait` or has the wake-up call of
    its post to make. -/
theorem bin_sema_sound [Fintype T] {v : BitVec 32} (hv : v = 0 ∨ v = 1) {s : SemaState T}
    (hr : (binSema v).Reachable s) :
    (s.fut = 0 ∨ s.fut = 1) ∧ s.waits + s.fut.toNat = v.toNat + s.posts
      ∧ (s.fut = 1 → (∃ t, s.pc t = .asleep) →
          ∃ u, s.pc u = .waitCas ∨ s.pc u = .waitFutex ∨ s.pc u = .postFutex) := by
  have h := (binSema_keeps hv).reachable hr
  refine ⟨h.permit, h.accounted, fun hone hsleep => ?_⟩
  obtain ⟨u, hu⟩ := h.attended hone hsleep
  refine ⟨u, ?_⟩
  cases hpc : s.pc u with
  | waitCas => exact .inl rfl
  | waitFutex => exact .inr (.inl rfl)
  | postFutex => exact .inr (.inr rfl)
  | idle | asleep | postCas =>
      rw [hpc] at hu
      cases hu

/-- Thread 1 sleeps; thread 0 posts, thread 2 takes the permit before the wake-up
    call, thread 0 makes it, and thread 1 goes back to sleep.  Then thread 0 posts
    again. -/
def stolenActs : List (SemaAct (Fin 3)) :=
  [.call 1 .wait, .go 1, .go 1, .call 0 .post, .go 0, .call 2 .wait, .go 2, .rouse 0 1, .go 1, .go 1,
    .call 0 .post, .go 0]

theorem bin_sema_stolen :
    ∃ s, (binSema 0).run (semaInit 0) stolenActs = some s ∧ s.pc 1 = .asleep ∧ s.waits = 1
      ∧ (s.fut = 0 ∨ s.fut = 1) ∧ s.waits + s.fut.toNat = (0 : BitVec 32).toNat + s.posts
      ∧ (s.fut = 1 → (∃ t, s.pc t = .asleep) →
          ∃ u, s.pc u = .waitCas ∨ s.pc u = .waitFutex ∨ s.pc u = .postFutex) :=
  ⟨_, rfl, rfl, rfl, bin_sema_sound (.inl rfl) (.after rfl stolenActs rfl)⟩

end HThread.BinSema
