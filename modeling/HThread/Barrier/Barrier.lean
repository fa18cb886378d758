/-
  HThread.Barrier.Barrier — barriers of strategy.h, BLOCKED_BARRIER build.

  `pthread_barrier_init` and `pthread_barrier_wait` on one barrier.  The
  vthreads run on workers (`HThread.Worker`).  One step is one atomic builtin,
  field access, queue operation, context switch or turn of the loop over the
  waiters.

  The words of the barrier and the locals of `pthread_barrier_wait` are 32 bits
  wide.  A push fails when the queue is full, a pop when it is empty; a pop may
  hand out any entry.
-/
import Mathlib.Data.Fintype.Card
import Mathlib.Data.Nat.Notation
import HThread.Interleave.Machine
import HThread.Worker

namespace HThread.Barrier

open Interleave
open Function (update)

/-! ## §1. Program points and state. -/

/-- Where a vthread may be resumed; `r` is the local `cur_round`, `cw` the local
    `cur_waiter`. -/
inductive BarrierCont where
  /-- In the program, after `sched_yield`. -/
  | user
  /-- strategy.h:208, after the switch of a vthread that blocked. -/
  | woken
  /-- strategy.h:230, after a pop that failed. -/
  | popRetry (r cw : BitVec 32)
  deriving DecidableEq, Repr

/-- Program points of `pthread_barrier_wait`. -/
inductive BarrierPc (V : Type) where
  /-- At a point where the vthread may also be resumed. -/
  | cont (k : BarrierCont)
  /-- strategy.h:193, `cur_round = hb->cur_round`. -/
  | readRound
  /-- strategy.h:194, `__sync_add_and_fetch(&hb->cur_waiters, 1)`. -/
  | addWaiters (r : BitVec 32)
  /-- strategy.h:201, `if (cur_waiter != hb->waiters)`. -/
  | compare (r cw : BitVec 32)
  /-- strategy.h:203, `me->runnable = false`. -/
  | unset (r : BitVec 32)
  /-- strategy.h:204, the push into `hb->blocked_vths[1&cur_round]`. -/
  | push (r : BitVec 32)
  /-- strategy.h:211, the compare-and-swap of `hb->cur_waiters`. -/
  | cas (r cw : BitVec 32)
  /-- strategy.h:213, `__sync_add_and_fetch(&hb->cur_round, 1)`. -/
  | addRound (r cw : BitVec 32)
  /-- strategy.h:215, `while ((--cur_waiter)>0)`. -/
  | loop (r cw : BitVec 32)
  /-- strategy.h:224, the pop from `hb->blocked_vths[1&cur_round]`. -/
  | pop (r cw : BitVec 32)
  /-- strategy.h:233, `vs->vs_queue.enqueue(blocked_v)`. -/
  | enqueue (r cw : BitVec 32) (w : V)
  deriving DecidableEq, Repr

/-- The barrier.  History: how often `cur_round` was incremented, for each vthread
    its arrivals (increments of `cur_waiters`) and its returns, for each round
    who got PTHREAD_BARRIER_SERIAL_THREAD, who was popped and who was enqueued by
    its last arriver, and whether a compare-and-swap failed.  Arrivals are also
    numbered through: `ticket v` is the number of the last arrival of `v`,
    `pushSide` the queue the vthread of an arrival pushed itself to, `popSide`
    the queue that the last arriver of a batch pops from. -/
structure BarrierData (V : Type) where
  waiters : BitVec 32
  curWaiters : BitVec 32
  curRound : BitVec 32
  capacity : ℕ
  blockedVths : ℕ → List V
  rounds : ℕ
  arr : V → ℕ
  rets : V → ℕ
  serials : ℕ → List V
  popped : ℕ → List V
  woken : ℕ → List V
  casFailed : Bool
  arrivals : ℕ
  ticket : V → ℕ
  pushSide : ℕ → Option ℕ
  popSide : ℕ → Option ℕ

/-- The round that the last arrival of `v` belongs to, counted from 0. -/
def BarrierData.roundOf {V : Type} (d : BarrierData V) (v : V) : ℕ := d.arr v - 1

/-- The batch of `waiters` arrivals that the last arrival of `v` belongs to. -/
def BarrierData.batch {V : Type} (d : BarrierData V) (v : V) : ℕ :=
  d.ticket v / d.waiters.toNat

/-- The barrier and the scheduler. -/
structure BarrierState (A V : Type) extends Sched A V (BarrierPc V) BarrierCont Unit,
  BarrierData V

/-- The calls a program can make. -/
inductive BarrierCall where
  | barrierWait | schedYield
  deriving DecidableEq, Repr

/-- An action: agent `a` starts a call, takes `v` out of the queue it is reading,
    or takes its next step otherwise. -/
inductive BarrierAct (A V : Type) where
  | call (a : A) (f : BarrierCall)
  | pick (a : A) (v : V)
  | go (a : A)
  deriving DecidableEq, Repr

variable {A V : Type} [DecidableEq A] [DecidableEq V]

/-- Agent `a` moves to `p`. -/
def BarrierState.goto (s : BarrierState A V) (a : A)
    (p : Pc V (BarrierPc V) BarrierCont Unit) : BarrierState A V :=
  { s with pc := update s.pc a p }

/-! ## §2. The code. -/

/-- `1&cur_round`, the index into `blocked_vths`. -/
def side (r : BitVec 32) : ℕ := (1#32 &&& r).toNat

/-- strategy.h:187, `pthread_barrier_wait` of vthread `v`; at the pop: it fails on
    an empty queue. -/
def barrierWait (s : BarrierState A V) (a : A) (v : V) :
    BarrierPc V → Option (BarrierState A V)
  | .readRound => some (s.goto a (.exec (some v) (.addWaiters s.curRound)))
  | .addWaiters r =>
      some ({ s with
        curWaiters := s.curWaiters + 1
        arr := update s.arr v (s.arr v + 1)
        arrivals := s.arrivals + 1
        ticket := update s.ticket v s.arrivals }.goto a
          (.exec (some v) (.compare r (s.curWaiters + 1))))
  | .compare r cw =>
      some (s.goto a (.exec (some v) (if cw ≠ s.waiters then .unset r else .cas r cw)))
  | .unset r =>
      some ({ s with runnable := update s.runnable v false }.goto a (.exec (some v) (.push r)))
  | .push r =>
      if (s.blockedVths (side r)).length < s.capacity then
        some ({ s with
          blockedVths := update s.blockedVths (side r) (s.blockedVths (side r) ++ [v])
          pushSide := update s.pushSide (s.ticket v) (some (side r)) }.goto a
            (.switch v (.status .blocked) .woken))
      -- the kernel thread yields, and tries again
      else some s
  | .cont .woken =>
      some ({ s with rets := update s.rets v (s.rets v + 1) }.goto a (.exec (some v) (.cont .user)))
  | .cas r cw =>
      some ({ s with
        curWaiters := if s.curWaiters = cw then 0 else s.curWaiters
        casFailed := s.casFailed || s.curWaiters != cw }.goto a (.exec (some v) (.addRound r cw)))
  | .addRound r cw =>
      some ({ s with
        curRound := s.curRound + 1
        rounds := s.rounds + 1 }.goto a (.exec (some v) (.loop r cw)))
  | .loop r cw =>
      if (0#32).slt (cw - 1) then some (s.goto a (.exec (some v) (.pop r (cw - 1))))
      else
        some ({ s with
          rets := update s.rets v (s.rets v + 1)
          serials := update s.serials (s.roundOf v) (s.serials (s.roundOf v) ++ [v]) }.goto a
            (.exec (some v) (.cont .user)))
  | .pop r cw =>
      if s.blockedVths (side r) = [] then
        some ({ s with popSide := update s.popSide (s.batch v) (some (side r)) }.goto a
          (.switch v (.status .suspended) (.popRetry r cw)))
      else none
  | .cont (.popRetry r cw) => some (s.goto a (.exec (some v) (.pop r cw)))
  | .enqueue r cw w =>
      some ({ s with
        vsQueue := s.vsQueue ++ [w]
        woken := update s.woken (s.roundOf v) (s.woken (s.roundOf v) ++ [w]) }.goto a
          (.exec (some v) (.loop r cw)))
  | .cont .user => none

/-- strategy.h:224, a pop that succeeds. -/
def popBlocked (s : BarrierState A V) (a : A) (v w : V) : BarrierPc V → Option (BarrierState A V)
  | .pop r cw =>
      if w ∈ s.blockedVths (side r) then
        some ({ s with
          blockedVths := update s.blockedVths (side r) ((s.blockedVths (side r)).erase w)
          popped := update s.popped (s.roundOf v) (s.popped (s.roundOf v) ++ [w])
          popSide := update s.popSide (s.batch v) (some (side r)) }.goto a
            (.exec (some v) (.enqueue r cw w)))
      else none
  | _ => none

/-- The program calls `f`. -/
def barrierCall (s : BarrierState A V) (a : A) (v : V) : BarrierCall → BarrierState A V
  | .barrierWait => s.goto a (.exec (some v) .readRound)
  | .schedYield => s.goto a (.switch v (.status .suspended) .user)

/-- The shape of the barrier code, for the scheduler's rules. -/
def barrierShape : Shape V (BarrierPc V) BarrierCont where
  enter := .cont
  hand
    | .enqueue _ _ w => some w
    | _ => none
  armed
    | .push _ => true
    | _ => false
  hand_enter _ := rfl
  armed_enter _ := rfl

/-- A step of `worker_routine`; no vthread of this model finishes. -/
def barrierWorker (s : BarrierState A V) (a : A) : Option (BarrierState A V) :=
  (workerRoutine BarrierPc.cont (fun _ => .top) s.toSched a (s.pc a)).map fun σ =>
    { s with toSched := σ }

/-- One step of one agent. -/
def barrierStep (s : BarrierState A V) : BarrierAct A V → Option (BarrierState A V)
  | .call a f =>
      match s.pc a with
      | .exec (some v) (.cont .user) => some (barrierCall s a v f)
      | _ => none
  | .pick a w =>
      match s.pc a with
      | .exec (some v) p => popBlocked s a v w p
      | _ => (getAndWork s.toSched a w).map fun σ => { s with toSched := σ }
  | .go a =>
      match s.pc a with
      | .exec (some v) p => barrierWait s a v p
      | _ => barrierWorker s a

/-- strategy.h:243, `pthread_barrier_init` with `count`; `ready` lists the
    vthreads in the run queue. -/
def barrierInit (count : BitVec 32) (ready : List V) : BarrierState A V where
  vsQueue := ready
  runnable _ := true
  curStatus _ := .suspended
  ctx _ := .user
  c _ := false
  pc _ := .top
  releases _ := 0
  selfPuts _ := 0
  waiters := count
  curWaiters := 0
  curRound := 0
  capacity := (count <<< 1).toNat
  blockedVths _ := []
  rounds := 0
  arr _ := 0
  rets _ := 0
  serials _ := []
  popped _ := []
  woken _ := []
  casFailed := false
  arrivals := 0
  ticket _ := 0
  pushSide _ := none
  popSide _ := none

/-- One barrier with count `n`, any workers and vthreads. -/
def barrier (n : ℕ) : Machine (BarrierState A V) (BarrierAct A V) where
  init s := ∃ ready, ready.Nodup ∧ s = barrierInit (BitVec.ofNat 32 n) ready
  step := barrierStep

/-! ## §3. What a step in the code can do. -/

/-- The effects of one step in the code of `v` at `p`. -/
inductive CodeEffect (s : BarrierState A V) (a : A) (v : V) :
    BarrierPc V → BarrierState A V → Prop
  | enter : CodeEffect s a v (.cont .user) { s with
      pc := update s.pc a (.exec (some v) .readRound) }
  | pause : CodeEffect s a v (.cont .user) { s with
      pc := update s.pc a (.switch v (.status .suspended) .user) }
  | read : CodeEffect s a v .readRound { s with
      pc := update s.pc a (.exec (some v) (.addWaiters s.curRound)) }
  | arrive (r) : CodeEffect s a v (.addWaiters r) { s with
      curWaiters := s.curWaiters + 1
      arr := update s.arr v (s.arr v + 1)
      arrivals := s.arrivals + 1
      ticket := update s.ticket v s.arrivals
      pc := update s.pc a (.exec (some v) (.compare r (s.curWaiters + 1))) }
  | wait (r cw) (hcw : cw ≠ s.waiters) : CodeEffect s a v (.compare r cw) { s with
      pc := update s.pc a (.exec (some v) (.unset r)) }
  | last (r) : CodeEffect s a v (.compare r s.waiters) { s with
      pc := update s.pc a (.exec (some v) (.cas r s.waiters)) }
  | arm (r) : CodeEffect s a v (.unset r) { s with
      runnable := update s.runnable v false
      pc := update s.pc a (.exec (some v) (.push r)) }
  | push (r) : CodeEffect s a v (.push r) { s with
      blockedVths := update s.blockedVths (side r) (s.blockedVths (side r) ++ [v])
      pushSide := update s.pushSide (s.ticket v) (some (side r))
      pc := update s.pc a (.switch v (.status .blocked) .woken) }
  | full (r) : CodeEffect s a v (.push r) s
  | ret : CodeEffect s a v (.cont .woken) { s with
      rets := update s.rets v (s.rets v + 1)
      pc := update s.pc a (.exec (some v) (.cont .user)) }
  | cas (r cw) : CodeEffect s a v (.cas r cw) { s with
      curWaiters := if s.curWaiters = cw then 0 else s.curWaiters
      casFailed := s.casFailed || s.curWaiters != cw
      pc := update s.pc a (.exec (some v) (.addRound r cw)) }
  | addRound (r cw) : CodeEffect s a v (.addRound r cw) { s with
      curRound := s.curRound + 1
      rounds := s.rounds + 1
      pc := update s.pc a (.exec (some v) (.loop r cw)) }
  | turn (r cw) (hcw : (0#32).slt (cw - 1) = true) : CodeEffect s a v (.loop r cw) { s with
      pc := update s.pc a (.exec (some v) (.pop r (cw - 1))) }
  | serial (r cw) (hcw : (0#32).slt (cw - 1) = false) : CodeEffect s a v (.loop r cw) { s with
      rets := update s.rets v (s.rets v + 1)
      serials := update s.serials (s.roundOf v) (s.serials (s.roundOf v) ++ [v])
      pc := update s.pc a (.exec (some v) (.cont .user)) }
  | empty (r cw) : CodeEffect s a v (.pop r cw) { s with
      popSide := update s.popSide (s.batch v) (some (side r))
      pc := update s.pc a (.switch v (.status .suspended) (.popRetry r cw)) }
  | retry (r cw) : CodeEffect s a v (.cont (.popRetry r cw)) { s with
      pc := update s.pc a (.exec (some v) (.pop r cw)) }
  | take (r cw w) (hw : w ∈ s.blockedVths (side r)) : CodeEffect s a v (.pop r cw) { s with
      blockedVths := update s.blockedVths (side r) ((s.blockedVths (side r)).erase w)
      popped := update s.popped (s.roundOf v) (s.popped (s.roundOf v) ++ [w])
      popSide := update s.popSide (s.batch v) (some (side r))
      pc := update s.pc a (.exec (some v) (.enqueue r cw w)) }
  | wake (r cw w) : CodeEffect s a v (.enqueue r cw w) { s with
      vsQueue := s.vsQueue ++ [w]
      woken := update s.woken (s.roundOf v) (s.woken (s.roundOf v) ++ [w])
      pc := update s.pc a (.exec (some v) (.loop r cw)) }

theorem barrierWait_effect {s s' : BarrierState A V} {a : A} {v : V} {p : BarrierPc V}
    (hs : barrierWait s a v p = some s') : CodeEffect s a v p s' := by
  cases p with
  | cont k =>
      cases k with
      | user => cases hs
      | woken => exact Option.some.inj hs ▸ .ret
      | popRetry r cw => exact Option.some.inj hs ▸ .retry r cw
  | readRound => exact Option.some.inj hs ▸ .read
  | addWaiters r => exact Option.some.inj hs ▸ .arrive r
  | compare r cw =>
      obtain rfl := Option.some.inj hs
      by_cases hcw : cw = s.waiters
      · subst hcw
        rw [if_neg (fun hne => hne rfl)]
        exact .last r
      · rw [if_pos hcw]
        exact .wait r cw hcw
  | unset r => exact Option.some.inj hs ▸ .arm r
  | push r =>
      simp only [barrierWait] at hs
      split at hs
      · exact Option.some.inj hs ▸ .push r
      · exact Option.some.inj hs ▸ .full r
  | cas r cw => exact Option.some.inj hs ▸ .cas r cw
  | addRound r cw => exact Option.some.inj hs ▸ .addRound r cw
  | loop r cw =>
      simp only [barrierWait] at hs
      split at hs
      · next hcw => exact Option.some.inj hs ▸ .turn r cw hcw
      · next hcw => exact Option.some.inj hs ▸ .serial r cw (by simpa using hcw)
  | pop r cw =>
      simp only [barrierWait, Option.ite_none_right_eq_some] at hs
      exact Option.some.inj hs.2 ▸ .empty r cw
  | enqueue r cw w => exact Option.some.inj hs ▸ .wake r cw w

theorem popBlocked_effect {s s' : BarrierState A V} {a : A} {v w : V} {p : BarrierPc V}
    (hs : popBlocked s a v w p = some s') : CodeEffect s a v p s' := by
  cases p with
  | pop r cw =>
      simp only [popBlocked, Option.ite_none_right_eq_some] at hs
      obtain ⟨hw, hs⟩ := hs
      exact Option.some.inj hs ▸ .take r cw w hw
  | _ => cases hs

/-- The effects of one action. -/
inductive StepEffect (s : BarrierState A V) : BarrierState A V → Prop
  | code (a v p s') (hpc : s.pc a = .exec (some v) p) (h : CodeEffect s a v p s') :
      StepEffect s s'
  | dequeue (a v σ) (hs : getAndWork s.toSched a v = some σ) : StepEffect s { s with toSched := σ }
  | worker (a σ) (hexec : ∀ v p, s.pc a ≠ .exec (some v) p)
      (hs : workerRoutine BarrierPc.cont (fun _ => .top) s.toSched a (s.pc a) = some σ) :
      StepEffect s { s with toSched := σ }

/-- **Every step is one of these.** -/
theorem barrierStep_effect {s s' : BarrierState A V} {act : BarrierAct A V}
    (hs : barrierStep s act = some s') : StepEffect s s' := by
  cases act with
  | call a f =>
      simp only [barrierStep] at hs
      split at hs
      · next v hpc =>
          obtain rfl := Option.some.inj hs
          cases f with
          | barrierWait => exact .code a v _ _ hpc .enter
          | schedYield => exact .code a v _ _ hpc .pause
      · cases hs
  | pick a w =>
      simp only [barrierStep] at hs
      split at hs
      · next v p hpc => exact .code a v p s' hpc (popBlocked_effect hs)
      · rw [Option.map_eq_some_iff] at hs
        obtain ⟨σ, hσ, rfl⟩ := hs
        exact .dequeue a w σ hσ
  | go a =>
      simp only [barrierStep] at hs
      split at hs
      · next v p hpc => exact .code a v p s' hpc (barrierWait_effect hs)
      · next hexec =>
          simp only [barrierWorker, Option.map_eq_some_iff] at hs
          obtain ⟨σ, hσ, rfl⟩ := hs
          exact .worker a σ (fun v p hp => hexec v p hp) hσ

end HThread.Barrier
