/-
  HThread.Hsem.Wakeups — the wake-ups of `hsem_post`.

  A thread that has decremented the counter below zero sleeps on the value it saw.
  When a post falls before it is asleep, the wake-up call finds nobody, futex
  returns EAGAIN, and `hsem_wait` reads the counter again and sleeps on the new
  value, whatever that is: the unit is there and nobody comes to tell.

  Key lemma:
    * `covered_step` — as long as no wake-up call is missed, the calls still to be
      made are enough for the units that the threads waiting could have.
  Main result:
    * `wakeups_iff` — for which numbers of threads nobody gets stuck, and a
      condition on the steps of a run under which nobody does.
-/
import HThread.Hsem

namespace HThread.Hsem

open Interleave
open Function (update)

/-! ## §1. The wake-up calls to come. -/

/-- Inside `hsem_wait`, with the counter decremented, and not woken yet. -/
def HsemPc.queued : HsemPc → ℕ
  | waitFutex _ | asleep | reload => 1
  | idle | waitAdd | woken | postAdd | postFutex => 0

/-- Inside `hsem_post`, with the counter incremented. -/
def HsemPc.pending : HsemPc → ℕ
  | postFutex => 1
  | idle | waitAdd | waitFutex _ | asleep | woken | reload | postAdd => 0

/-- The number of threads that need a wake-up call. -/
def queued [Fintype T] (s : HsemState T) : ℕ := tally HsemPc.queued s.pc

/-- The number of wake-up calls to come. -/
def pending [Fintype T] (s : HsemState T) : ℕ := tally HsemPc.pending s.pc

/-- Every call of `hsem_post` has returned, every call of `hsem_wait` that has not is
    asleep, at least one is, and there is a unit for it. -/
structure Stuck (v : BitVec 32) (s : HsemState T) : Prop where
  still : ∀ t, s.pc t = .idle ∨ s.pc t = .asleep
  sleeper : ∃ t, s.pc t = .asleep
  unit : (s.waits : ℤ) < v.toInt + s.posts

/-- A wake-up call that finds nobody asleep is not needed: no thread is on its way to
    sleep, or the other calls are enough for the units there are. -/
def NotMissed [Fintype T] (s : HsemState T) : HsemAct T → Prop
  | .go t => s.pc t = .postFutex → queued s = 0 ∨ s.p.toInt + queued s < pending s
  | _ => True

instance [Fintype T] (s : HsemState T) : ∀ act, Decidable (NotMissed s act)
  | .go _ => inferInstanceAs (Decidable (_ → _))
  | .call _ _ | .rouse _ _ => .isTrue trivial

/-- While somebody waits, the wake-up calls to come are at least the units it could have. -/
def Covered [Fintype T] (s : HsemState T) : Prop := 0 < queued s → s.p.toInt + queued s ≤ pending s

section Steps

variable {T : Type} [DecidableEq T] [Fintype T] {v : BitVec 32} {s s' : HsemState T} {act : HsemAct T}

/-- A step of `t` from `q₀` to `q`, with the two counts after it. -/
theorem covered_goto {p : BitVec 32} {waits posts : ℕ} {t : T} {q₀ q : HsemPc} (hpc : s.pc t = q₀)
    (hc : ∀ n k : ℕ, n + q₀.queued = queued s + q.queued →
      k + q₀.pending = pending s + q.pending → 0 < n → p.toInt + n ≤ k) :
    Covered ({ s with p := p, waits := waits, posts := posts }.goto t q) := by
  subst hpc
  exact hc _ _ (tally_update HsemPc.queued s.pc t q) (tally_update HsemPc.pending s.pc t q)

/-- **One step.** -/
theorem covered_step (h : Covered s) (hno : NoOverflow s act) (hmiss : NotMissed s act)
    (hs : hsemStep s act = some s') : Covered s' := by
  have hcov : 0 < queued s → s.p.toInt + queued s ≤ pending s := h
  cases hsemStep_effect hs with
  | enter t f hpc =>
      refine covered_goto hpc fun n k hn hk => ?_
      cases f <;> simp only [HsemCall.entry, HsemPc.queued, HsemPc.pending] at hn hk <;> omega
  | take t hpc hpos =>
      have hpred := toInt_pred (hno.1 hpc)
      refine covered_goto hpc fun n k hn hk => ?_
      simp only [HsemPc.queued, HsemPc.pending] at hn hk
      omega
  | under t hpc hneg =>
      -- the first one in the queue finds no unit left over
      have hpred := toInt_pred (hno.1 hpc)
      refine covered_goto hpc fun n k hn hk => ?_
      simp only [HsemPc.queued, HsemPc.pending] at hn hk
      omega
  | sleep t hpc | load t hpc | leave t hpc =>
      refine covered_goto hpc fun n k hn hk => ?_
      simp only [HsemPc.queued, HsemPc.pending] at hn hk
      omega
  | again t newVal hpc hne =>
      refine covered_goto hpc fun n k hn hk => ?_
      simp only [HsemPc.queued, HsemPc.pending] at hn hk
      omega
  | post t hpc =>
      have hsucc := toInt_succ (hno.2 hpc)
      refine covered_goto hpc fun n k hn hk => ?_
      simp only [HsemPc.queued, HsemPc.pending] at hn hk
      omega
  | miss t hpc hnone =>
      have hspare := hmiss hpc
      refine covered_goto hpc fun n k hn hk => ?_
      simp only [HsemPc.queued, HsemPc.pending] at hn hk
      omega
  | wake t b hpc hb =>
      have hbt : b ≠ t := by
        rintro rfl
        rw [hb] at hpc
        cases hpc
      have hn := tally_update₂ HsemPc.queued s.pc hbt .woken .idle
      have hk := tally_update₂ HsemPc.pending s.pc hbt .woken .idle
      rw [hb, hpc] at hn hk
      have hone := le_tally HsemPc.queued s.pc b
      rw [hb] at hone
      simp only [HsemPc.queued, HsemPc.pending] at hn hk hone
      show 0 < tally HsemPc.queued (update (update s.pc b .woken) t .idle) →
        s.p.toInt + (tally HsemPc.queued (update (update s.pc b .woken) t .idle) : ℕ)
          ≤ (tally HsemPc.pending (update (update s.pc b .woken) t .idle) : ℕ)
      unfold queued pending at hcov
      omega

omit [DecidableEq T] in
/-- A sleeper that is covered has no unit. -/
theorem not_stuck (hacc : Accounted v s) (h : Covered s) : ¬Stuck v s := by
  intro hstuck
  have hpending : pending s = 0 := by
    refine (tally_eq_zero _ _).mpr fun t => ?_
    rcases hstuck.still t with ht | ht <;> rw [ht] <;> rfl
  have hinside : inside s = queued s := by
    refine Finset.sum_congr rfl fun t _ => ?_
    rcases hstuck.still t with ht | ht <;> rw [ht] <;> rfl
  obtain ⟨t, ht⟩ := hstuck.sleeper
  have hone : 1 ≤ queued s := by
    have hle := le_tally HsemPc.queued s.pc t
    rw [ht] at hle
    exact hle
  have hsum : s.p.toInt + inside s + s.waits = v.toInt + s.posts := hacc
  have hnone := h hone
  have hunit := hstuck.unit
  omega

omit [DecidableEq T] in
theorem covered_start (v : BitVec 32) : Covered (hsemInit v : HsemState T) := by
  intro hpos
  have hzero : queued (hsemInit v : HsemState T) = 0 := (tally_eq_zero _ _).mpr fun _ => rfl
  omega

theorem covered_keeps :
    (hsem (T := T) v).Keeps (fun s act => NoOverflow s act ∧ NotMissed s act)
      fun s => Accounted v s ∧ Covered s where
  start s hs := by
    obtain rfl : s = hsemInit v := hs
    exact ⟨accounted_start v, covered_start v⟩
  step _ _ _ h hok hs :=
    ⟨accounted_step h.1 hok.1 hs, covered_step h.2 hok.1 hok.2 hs⟩

omit [DecidableEq T] in
/-- A single thread that makes a wake-up call does not wait. -/
theorem notMissed_of_one [Subsingleton T] (s : HsemState T) (act : HsemAct T) :
    NotMissed s act := by
  cases act with
  | go t =>
      refine fun hpc => .inl ((tally_eq_zero _ _).mpr fun x => ?_)
      rw [Subsingleton.elim x t, hpc]
      rfl
  | call | rouse => trivial

end Steps

/-! ## §2. Two threads. -/

section Two

variable {T : Type} [DecidableEq T] {t u : T} {p : BitVec 32} {a b : HsemPc} {waits posts : ℕ}

/-- In a state of two threads, every thread is where one of the two is, or idle. -/
theorem duo_cases (x : T) :
    (duo t u p a b waits posts).pc x = a ∨ (duo t u p a b waits posts).pc x = b
      ∨ (duo t u p a b waits posts).pc x = .idle := by
  show update (update (fun _ => HsemPc.idle) u b) t a x = a ∨ _
  by_cases hxt : x = t
  · rw [hxt, Function.update_self]
    exact .inl rfl
  · refine .inr ?_
    show update (update (fun _ => HsemPc.idle) u b) t a x = b
      ∨ update (update (fun _ => HsemPc.idle) u b) t a x = .idle
    rw [Function.update_of_ne hxt]
    by_cases hxu : x = u
    · rw [hxu, Function.update_self]
      exact .inl rfl
    · rw [Function.update_of_ne hxu]
      exact .inr rfl

variable [Fintype T] {v : BitVec 32}

/-- A wake-up call too early: `u` is about to sleep on −1, `t` posts and wakes nobody,
    and `u` reads 0 and sleeps on that. -/
theorem duo_sleeps (hne : u ≠ t)
    (hr : (hsem v).ReachableVia NoOverflow (duo t u 0#32 .idle .idle waits posts)) :
    (hsem v).ReachableVia NoOverflow (duo t u 0#32 .idle .asleep waits (posts + 1)) := by
  have hr := duo_waits hne hr (by decide) (by decide) (show _ = 0xFFFFFFFF#32 by decide)
  have hr := duo_posts hr (by decide)
  have hr := then_step hr (.miss t duo_left fun x hx => ?_) (noOverflow_left (by simp))
    duo_goto_left
  · have hnew : 0xFFFFFFFF#32 + 1 ≠ 0xFFFFFFFF#32 := by decide
    have hr := then_step hr (.again u _ (duo_right hne) hnew) (noOverflow_right hne (by simp))
      (duo_goto_right hne)
    have hr := then_step hr (.load u (duo_right hne)) (noOverflow_right hne (by simp))
      (duo_goto_right hne)
    exact then_step hr (.sleep u (duo_right hne)) (noOverflow_right hne (by simp))
      (duo_goto_right hne)
  · rcases duo_cases (t := t) x with h | h | h <;> rw [h] at hx <;> cases hx

theorem stuck_of_two (hne : u ≠ t) (hv : 0 ≤ v.toInt) :
    ∃ s : HsemState T, (hsem v).ReachableVia NoOverflow s ∧ Stuck v s := by
  have hr := duo_drained hne hv v.toNat le_rfl
  rw [Nat.sub_self] at hr
  refine ⟨_, duo_sleeps hne hr, fun x => ?_, ⟨u, duo_right hne⟩, ?_⟩
  · rcases duo_cases (t := t) x with h | h | h
    · exact .inl h
    · exact .inr h
    · exact .inl h
  · show ((v.toNat : ℕ) : ℤ) < v.toInt + ((0 + 1 : ℕ) : ℤ)
    rw [toInt_eq_toNat hv]
    omega

end Two

/-- **hsem loses wake-ups.**  In the runs whose additions stay within the word, nobody
    sleeps for ever on a unit, iff there are fewer than two threads; and with any
    number of threads nobody does, when no wake-up call is missed that is needed. -/
theorem wakeups_iff {T : Type} [DecidableEq T] [Fintype T] {v : BitVec 32} (hv : 0 ≤ v.toInt) :
    ((∀ s : HsemState T, (hsem v).ReachableVia NoOverflow s → ¬Stuck v s) ↔ Subsingleton T)
      ∧ ∀ s : HsemState T,
          (hsem v).ReachableVia (fun s act => NoOverflow s act ∧ NotMissed s act) s →
            ¬Stuck v s := by
  refine ⟨⟨fun h => ⟨fun t u => ?_⟩, fun _ s hr => ?_⟩, fun s hr => ?_⟩
  · by_contra hne
    obtain ⟨s, hr, hstuck⟩ := stuck_of_two (t := t) (Ne.symm hne) hv
    exact h s hr hstuck
  · have hkeeps := (covered_keeps (T := T) (v := v)).mono
      fun s act hno => ⟨hno, notMissed_of_one s act⟩
    have hinv := hkeeps.reachable hr
    exact not_stuck hinv.1 hinv.2
  · have hinv := covered_keeps.reachable hr
    exact not_stuck hinv.1 hinv.2

/-- Thread 1 finds no unit; thread 0 posts, and its wake-up call comes before thread 1
    is asleep; thread 1 reads the counter again and sleeps. -/
def earlyActs : List (HsemAct (Fin 2)) :=
  [.call 1 .hsemWait, .go 1, .call 0 .hsemPost, .go 0, .go 0, .go 1, .go 1, .go 1]

theorem hsem_loses_wakeup :
    ∃ s, (hsem 0).run (hsemInit 0) earlyActs = some s ∧ Stuck 0 s :=
  ⟨_, rfl, by decide, ⟨1, rfl⟩, by decide⟩

/-- Thread 1 is asleep before the wake-up call. -/
def timelyActs : List (HsemAct (Fin 2)) :=
  [.call 1 .hsemWait, .go 1, .go 1, .call 0 .hsemPost, .go 0, .rouse 0 1, .go 1]

theorem wakeups_timely :
    ∃ s, (hsem 0).run (hsemInit 0) timelyActs = some s ∧ s.waits = 1 ∧ ¬Stuck 0 s :=
  ⟨_, rfl, rfl, (wakeups_iff (by decide)).2 _
    (.run (fun _ _ => of_decide_eq_true) (.start rfl) timelyActs rfl rfl)⟩

end HThread.Hsem
