/-
  HThread.Cond.Lockfree — the condvar of the LOCKFREE_COND build, strategy.h:332.

  The condvar has no queue: `signals` counts the signals not yet consumed,
  `waiter_num` the vthreads in the wait loop, and `waker_blocked` is 2 while a
  broadcast waits for its waiters to leave.  All callers hold one mutex, which
  they give up only where they yield, so what a vthread does between two yields
  is one step.

  `pthread_cond_broadcast` sets `signals` to `waiter_num`; `pthread_cond_signal`
  adds to it whenever somebody waits, however many signals are there already.

  Key lemma:
    * `fed_step` — a step other than a signal too many keeps the invariant.
  Main result:
    * `settled_iff_room` — the property holds throughout a run iff no signal of
      the run comes when there are as many signals as waiters.
-/
import HThread.Interleave.Machine
import HThread.Interleave.Tally

namespace HThread.Lockfree

open Interleave
open Function (update)

/-! ## §1. The code. -/

/-- Where a vthread is: outside the calls, behind the first loop of
    `pthread_cond_wait`, in its second loop (counted in `waiter_num`), in the
    loop of `pthread_cond_broadcast`. -/
inductive Point where
  | out
  | gate
  | waiting
  | draining
  deriving DecidableEq, Repr

/-- The condvar and the place of each vthread.  History: `owed b v` says that v
    was in the wait loop when b last called `pthread_cond_broadcast` and has not
    left it since. -/
structure Condvar (V : Type*) where
  signals : ℤ
  waiterNum : ℤ
  wakerBlocked : ℤ
  pc : V → Point
  owed : V → V → Bool

/-- The calls, and the next turn of the loop that a vthread yielded in. -/
inductive Action (V : Type*) where
  | condWait (v : V)
  | condSignal (v : V)
  | condBroadcast (v : V)
  | resume (v : V)
  deriving DecidableEq, Repr

variable {V : Type*} [DecidableEq V]

/-- strategy.h:345, `pthread_cond_wait` up to its first yield: while a broadcast
    drains, nobody joins the waiters. -/
def waitGate (s : Condvar V) (v : V) : Condvar V :=
  if s.wakerBlocked = 2 then { s with pc := update s.pc v .gate }
  else { s with waiterNum := s.waiterNum + 1, pc := update s.pc v .waiting }

/-- strategy.h:365, the end of a turn of `do … while (hc->signals <= 0)`, and what follows. -/
def waitLoop (s : Condvar V) (v : V) : Condvar V :=
  if s.signals ≤ 0 then s
  else
    let waiterNum := s.waiterNum - 1
    { s with
      signals := s.signals - 1
      waiterNum := waiterNum
      wakerBlocked :=
        if s.wakerBlocked = 1 ∨ s.wakerBlocked = 2 ∧ waiterNum = 0 then 0 else s.wakerBlocked
      pc := update s.pc v .out
      owed := fun b => update (s.owed b) v false }

/-- strategy.h:448, `pthread_cond_signal`. -/
def condSignal (s : Condvar V) : Condvar V :=
  if 0 < s.waiterNum then { s with signals := s.signals + 1, wakerBlocked := 1 } else s

/-- strategy.h:528, `pthread_cond_broadcast` up to its first yield, or its end. -/
def condBroadcast (s : Condvar V) (b : V) : Condvar V :=
  let owed := update s.owed b fun v => decide (s.pc v = .waiting)
  if 0 < s.waiterNum then
    { s with
      signals := s.waiterNum, wakerBlocked := 2, pc := update s.pc b .draining, owed := owed }
  else { s with owed := owed }

/-- strategy.h:546, the end of a turn of `do … while (hc->waker_blocked)`. -/
def drainLoop (s : Condvar V) (b : V) : Condvar V :=
  if s.wakerBlocked ≠ 0 then s else { s with pc := update s.pc b .out }

/-- One stretch with the mutex held. -/
def condStep (s : Condvar V) : Action V → Option (Condvar V)
  | .condWait v => if s.pc v = .out then some (waitGate s v) else none
  | .condSignal v => if s.pc v = .out then some (condSignal s) else none
  | .condBroadcast v => if s.pc v = .out then some (condBroadcast s v) else none
  | .resume v =>
      match s.pc v with
      | .out => none
      | .gate => some (waitGate s v)
      | .waiting => some (waitLoop s v)
      | .draining => some (drainLoop s v)

/-- The all-zero condvar, nobody in a call. -/
def zero : Condvar V where
  signals := 0
  waiterNum := 0
  wakerBlocked := 0
  pc _ := .out
  owed _ _ := false

def lockfree : Machine (Condvar V) (Action V) where
  init s := s = zero
  step := condStep

/-! ## §2. The property, and the signal too many. -/

/-- There are never more signals than waiters, and a broadcast that has returned
    owes nothing to anybody who waited when it was called. -/
structure Settled (s : Condvar V) : Prop where
  nonneg : 0 ≤ s.signals
  le : s.signals ≤ s.waiterNum
  returned : ∀ b v, s.pc b ≠ .draining → s.owed b v = false

/-- A signal that takes effect finds a waiter for whom there is no signal yet. -/
def Room (s : Condvar V) : Action V → Prop
  | .condSignal _ => 0 < s.waiterNum → s.signals < s.waiterNum
  | .condWait _ => True
  | .condBroadcast _ => True
  | .resume _ => True

/-! ## §3. The invariant. -/

variable [Fintype V]

/-- Who is counted in `waiter_num`. -/
def Point.loops : Point → ℕ
  | .waiting => 1
  | .out => 0
  | .gate => 0
  | .draining => 0

/-- While a broadcast drains there is one signal for each waiter, and somebody waits. -/
structure Fed (s : Condvar V) : Prop where
  count : s.waiterNum = tally Point.loops s.pc
  nonneg : 0 ≤ s.signals
  le : s.signals ≤ s.waiterNum
  drain : s.wakerBlocked = 2 → s.signals = s.waiterNum ∧ 0 < s.waiterNum
  owed : ∀ b v, s.owed b v = true → s.pc b = .draining ∧ s.pc v = .waiting ∧ s.wakerBlocked = 2

omit [DecidableEq V] in
theorem Fed.settled {s : Condvar V} (h : Fed s) : Settled s where
  nonneg := h.nonneg
  le := h.le
  returned b v hb := by
    by_contra hne
    have howed := Bool.of_not_eq_false hne
    exact hb (h.owed b v howed).1

omit [DecidableEq V] in
theorem Fed.not_waiting {s : Condvar V} (h : Fed s) (hz : s.waiterNum = 0) (v : V) :
    s.pc v ≠ .waiting := by
  intro hv
  have hle := le_tally Point.loops s.pc v
  rw [hv] at hle
  have hcount := h.count
  have hone : Point.loops .waiting = 1 := rfl
  omega

omit [DecidableEq V] in
theorem Fed.not_owed {s : Condvar V} (h : Fed s) (hwb : s.wakerBlocked ≠ 2) (b v : V) :
    s.owed b v = false := by
  by_contra hne
  have howed := Bool.of_not_eq_false hne
  exact hwb (h.owed b v howed).2.2

/-- The count after a vthread moves. -/
theorem count_goto {s : Condvar V} (h : Fed s) (v : V) (p : Point) :
    (tally Point.loops (update s.pc v p) : ℤ) + (s.pc v).loops = s.waiterNum + p.loops := by
  have hmove := tally_update Point.loops s.pc v p
  have hcount := h.count
  omega

/-- Whoever is neither waiting nor draining owes nothing and is owed nothing. -/
theorem owed_goto {s : Condvar V} (h : Fed s) {v : V} {p : Point} (hw : s.pc v ≠ .waiting)
    (hd : s.pc v ≠ .draining) {b u : V} (howed : s.owed b u = true) :
    update s.pc v p b = .draining ∧ update s.pc v p u = .waiting ∧ s.wakerBlocked = 2 := by
  obtain ⟨hb, hu, hwb⟩ := h.owed b u howed
  have hbv : b ≠ v := fun e => hd (e ▸ hb)
  have huv : u ≠ v := fun e => hw (e ▸ hu)
  rw [Function.update_of_ne hbv, Function.update_of_ne huv]
  exact ⟨hb, hu, hwb⟩

theorem fed_waitGate {s : Condvar V} (h : Fed s) {v : V} (hw : s.pc v ≠ .waiting)
    (hd : s.pc v ≠ .draining) : Fed (waitGate s v) := by
  have hold : (s.pc v).loops = 0 := by
    cases hpc : s.pc v with
    | waiting => exact absurd hpc hw
    | out => rfl
    | gate => rfl
    | draining => rfl
  unfold waitGate
  split
  · next hwb =>
      -- a broadcast drains: the vthread spins at the gate
      have hcount := count_goto h v .gate
      refine { h with count := ?_, owed := fun b u howed => owed_goto h hw hd howed }
      show s.waiterNum = tally Point.loops (update s.pc v .gate)
      have hgate : Point.loops .gate = 0 := rfl
      omega
  · next hwb =>
      -- nobody drains, so nobody is owed anything
      have hcount := count_goto h v .waiting
      have hwait : Point.loops .waiting = 1 := rfl
      have hle := h.le
      refine ⟨?_, h.nonneg, ?_, fun h2 => absurd h2 hwb, fun b u howed => ?_⟩
      · show s.waiterNum + 1 = tally Point.loops (update s.pc v .waiting)
        omega
      · show s.signals ≤ s.waiterNum + 1
        omega
      · have hno := h.not_owed hwb b u
        rw [hno] at howed
        cases howed

theorem fed_waitLoop {s : Condvar V} (h : Fed s) {v : V} (hv : s.pc v = .waiting) :
    Fed (waitLoop s v) := by
  unfold waitLoop
  split
  · exact h
  · next hsig =>
      have hcount := count_goto h v .out
      have hold : (s.pc v).loops = 1 := by rw [hv]; rfl
      have hout : Point.loops .out = 0 := rfl
      have hle := h.le
      refine ⟨?_, ?_, ?_, fun h2 => ?_, fun b u howed => ?_⟩
      · show s.waiterNum - 1 = tally Point.loops (update s.pc v .out)
        omega
      · show 0 ≤ s.signals - 1
        omega
      · show s.signals - 1 ≤ s.waiterNum - 1
        omega
      · -- the broadcast goes on only if somebody is left
        change (if s.wakerBlocked = 1 ∨ s.wakerBlocked = 2 ∧ s.waiterNum - 1 = 0 then 0
          else s.wakerBlocked) = 2 at h2
        split at h2
        · cases h2
        · next hgo =>
            have hfull := h.drain h2
            have hleft : s.waiterNum - 1 ≠ 0 := fun hz => hgo (Or.inr ⟨h2, hz⟩)
            show s.signals - 1 = s.waiterNum - 1 ∧ 0 < s.waiterNum - 1
            omega
      -- the vthread that leaves is owed nothing any more
      · change update (s.owed b) v false u = true at howed
        have huv : u ≠ v := by
          rintro rfl
          rw [Function.update_self] at howed
          cases howed
        rw [Function.update_of_ne huv] at howed
        obtain ⟨hb, hu, hwb⟩ := h.owed b u howed
        have hbv : b ≠ v := by
          rintro rfl
          rw [hv] at hb
          cases hb
        -- u still waits, so the count does not reach zero
        have hu' : update s.pc v .out u = .waiting := by rw [Function.update_of_ne huv, hu]
        have hpos := le_tally Point.loops (update s.pc v .out) u
        rw [hu'] at hpos
        have hone : Point.loops .waiting = 1 := rfl
        refine ⟨?_, hu', ?_⟩
        · show update s.pc v .out b = .draining
          rw [Function.update_of_ne hbv, hb]
        · show (if s.wakerBlocked = 1 ∨ s.wakerBlocked = 2 ∧ s.waiterNum - 1 = 0 then 0
            else s.wakerBlocked) = 2
          rw [if_neg (by omega), hwb]

omit [DecidableEq V] in
theorem fed_signal {s : Condvar V} (h : Fed s) (hroom : 0 < s.waiterNum → s.signals < s.waiterNum) :
    Fed (condSignal s) := by
  unfold condSignal
  split
  · next hpos =>
      have hlt := hroom hpos
      have hnon := h.nonneg
      -- there is room, so no broadcast drains and none is owed anything
      have hwb : s.wakerBlocked ≠ 2 := by
        intro h2
        have hfull := (h.drain h2).1
        omega
      refine ⟨h.count, ?_, ?_, fun h2 => ?_, fun b v howed => ?_⟩
      · show 0 ≤ s.signals + 1
        omega
      · show s.signals + 1 ≤ s.waiterNum
        omega
      · cases h2
      · have hno := h.not_owed hwb b v
        rw [hno] at howed
        cases howed
  · exact h

/-- A broadcast is owed by those who wait now. -/
theorem waiting_of_owed {s : Condvar V} (h : Fed s) {b c u : V}
    (howed : update s.owed b (fun v => decide (s.pc v = .waiting)) c u = true) :
    s.pc u = .waiting := by
  by_cases hc : c = b
  · rw [hc, Function.update_self] at howed
    exact of_decide_eq_true howed
  · rw [Function.update_of_ne hc] at howed
    exact (h.owed c u howed).2.1

theorem fed_broadcast {s : Condvar V} (h : Fed s) {b : V} (hb : s.pc b = .out) :
    Fed (condBroadcast s b) := by
  have hcount := h.count
  unfold condBroadcast
  split
  · next hpos =>
      -- all who wait are owed a signal, and there are as many as they
      have hmove := count_goto h b .draining
      have hold : (s.pc b).loops = 0 := by rw [hb]; rfl
      have hnew : Point.loops .draining = 0 := rfl
      refine ⟨?_, ?_, le_refl _, fun _ => ⟨rfl, hpos⟩, fun c u howed => ?_⟩
      · show s.waiterNum = tally Point.loops (update s.pc b .draining)
        omega
      · show 0 ≤ s.waiterNum
        omega
      · change update s.owed b (fun v => decide (s.pc v = .waiting)) c u = true at howed
        show update s.pc b .draining c = .draining ∧ update s.pc b .draining u = .waiting
          ∧ (2 : ℤ) = 2
        have hu := waiting_of_owed h howed
        have hub : u ≠ b := by
          rintro rfl
          rw [hb] at hu
          cases hu
        refine ⟨?_, by rw [Function.update_of_ne hub, hu], rfl⟩
        by_cases hc : c = b
        · rw [hc, Function.update_self]
        · rw [Function.update_of_ne hc] at howed ⊢
          exact (h.owed c u howed).1
  · next hpos =>
      -- nobody waits, nobody is owed anything
      have hz : s.waiterNum = 0 := by omega
      refine { h with owed := fun c u howed => ?_ }
      change update s.owed b (fun v => decide (s.pc v = .waiting)) c u = true at howed
      exact absurd (waiting_of_owed h howed) (h.not_waiting hz u)

theorem fed_drainLoop {s : Condvar V} (h : Fed s) {b : V} (hb : s.pc b = .draining) :
    Fed (drainLoop s b) := by
  unfold drainLoop
  split
  · exact h
  · next hwb =>
      -- the last waiter has cleared `waker_blocked`
      have hz : s.wakerBlocked = 0 := not_not.mp hwb
      have hmove := count_goto h b .out
      have hold : (s.pc b).loops = 0 := by rw [hb]; rfl
      have hnew : Point.loops .out = 0 := rfl
      refine { h with count := ?_, owed := fun c u howed => ?_ }
      · show s.waiterNum = tally Point.loops (update s.pc b .out)
        omega
      · have hno := h.not_owed (by omega) c u
        rw [hno] at howed
        cases howed

/-- **One step.** -/
theorem fed_step {s s' : Condvar V} {a : Action V} (h : Fed s) (hroom : Room s a)
    (hs : condStep s a = some s') : Fed s' := by
  cases a with
  | condWait v =>
      simp only [condStep, Option.ite_none_right_eq_some] at hs
      obtain ⟨hv, hs⟩ := hs
      obtain rfl := Option.some.inj hs
      exact fed_waitGate h (by rw [hv]; nofun) (by rw [hv]; nofun)
  | condSignal v =>
      simp only [condStep, Option.ite_none_right_eq_some] at hs
      obtain ⟨-, hs⟩ := hs
      obtain rfl := Option.some.inj hs
      exact fed_signal h hroom
  | condBroadcast v =>
      simp only [condStep, Option.ite_none_right_eq_some] at hs
      obtain ⟨hv, hs⟩ := hs
      obtain rfl := Option.some.inj hs
      exact fed_broadcast h hv
  | resume v =>
      cases hpc : s.pc v with
      | out => simp [condStep, hpc] at hs
      | gate =>
          simp only [condStep, hpc] at hs
          obtain rfl := Option.some.inj hs
          exact fed_waitGate h (by rw [hpc]; nofun) (by rw [hpc]; nofun)
      | waiting =>
          simp only [condStep, hpc] at hs
          obtain rfl := Option.some.inj hs
          exact fed_waitLoop h hpc
      | draining =>
          simp only [condStep, hpc] at hs
          obtain rfl := Option.some.inj hs
          exact fed_drainLoop h hpc

omit [DecidableEq V] in
theorem fed_zero : Fed (zero : Condvar V) where
  count := by
    have hz := (tally_eq_zero Point.loops (zero : Condvar V).pc).mpr fun _ => rfl
    show (0 : ℤ) = tally Point.loops (zero : Condvar V).pc
    rw [hz]
    rfl
  nonneg := le_refl _
  le := le_refl _
  drain h2 := by cases h2
  owed _ _ howed := by cases howed

theorem lockfree_keeps : (lockfree (V := V)).Keeps Room Fed where
  start s hs := by
    obtain rfl : s = zero := hs
    exact fed_zero
  step _ _ _ h hroom hs := fed_step h hroom hs

omit [DecidableEq V] [Fintype V] in
/-- A signal without room outlives the waiters at once. -/
theorem not_settled_of_crowded [DecidableEq V] {s s' : Condvar V} {a : Action V}
    (hno : ¬Room s a) (hs : condStep s a = some s') : ¬Settled s' := by
  intro hP
  cases a with
  | condSignal v =>
      simp only [condStep, Option.ite_none_right_eq_some] at hs
      obtain ⟨-, hs⟩ := hs
      obtain rfl := Option.some.inj hs
      -- the count of signals passes that of the waiters
      simp only [Room, not_forall] at hno
      obtain ⟨hpos, hfull⟩ := hno
      have hle := hP.le
      unfold condSignal at hle
      rw [if_pos hpos] at hle
      have hle' : s.signals + 1 ≤ s.waiterNum := hle
      omega
  | condWait v => exact hno trivial
  | condBroadcast v => exact hno trivial
  | resume v => exact hno trivial

/-- **The condvar without a queue.**  Throughout a run there are at most as many
    signals as waiters and every broadcast that returns has seen its waiters
    leave, iff each signal of the run that takes effect finds a waiter for whom
    there is no signal yet. -/
theorem settled_iff_room {as : List (Action V)} {t : Condvar V}
    (hrun : lockfree.run zero as = some t) :
    lockfree.Always Settled zero as ↔ lockfree.StepsMeet Room zero as :=
  Machine.always_iff_stepsMeet lockfree_keeps (fun _ => Fed.settled)
    (fun _ _ _ _ => not_settled_of_crowded) rfl hrun

/-- Two waiters and a broadcast that lets both go, then a waiter and its signal. -/
def calmActs : List (Action (Fin 3)) :=
  [.condWait 0, .condWait 1, .condBroadcast 2, .resume 1, .resume 2, .resume 0, .resume 2,
    .condWait 0, .condSignal 1, .resume 0]

theorem settled_iff_room_calm :
    ∃ t, lockfree.run zero calmActs = some t
      ∧ (lockfree.Always Settled zero calmActs ↔ lockfree.StepsMeet Room zero calmActs) :=
  ⟨_, rfl, settled_iff_room (t := _) rfl⟩

/-- Vthreads 0 and 1 wait, 2 broadcasts, 3 signals while the broadcast drains;
    vthread 0 leaves, and the broadcast returns. -/
def crowdedActs : List (Action (Fin 4)) :=
  [.condWait 0, .condWait 1, .condBroadcast 2, .condSignal 3, .resume 0, .resume 2]

/-- Vthread 1, which waited when the broadcast was called, has not left when the
    broadcast has returned, and there are two signals for this one waiter. -/
theorem signal_while_draining :
    ∃ t, lockfree.run zero crowdedActs = some t
      ∧ t.signals = 2 ∧ t.waiterNum = 1
      ∧ t.pc 2 = .out ∧ t.pc 1 = .waiting ∧ t.owed 2 1 = true
      ∧ ¬ lockfree.Always Settled zero crowdedActs := by
  refine ⟨_, rfl, rfl, rfl, rfl, rfl, rfl, fun hA => ?_⟩
  have hP := (hA.last (t := _) rfl).returned 2 1 (by decide)
  cases hP

end HThread.Lockfree
