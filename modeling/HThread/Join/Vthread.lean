/-
  HThread.Join.Vthread — joining, exiting and finishing, from vthread.hpp.

  `vthread::join` by vthreads and raw threads, the two ways in which a vthread
  hands STATUS_FINISHED to its worker (the end of `manage`, `pthread_exit`) and
  `wake_up_joined`, which the worker runs then.  Workers and context switches
  are those of `HThread.Worker`; the mutexes are the `join_mutex` of the
  vthreads.  One step is one atomic builtin, field access, queue operation,
  futex call or context switch.

  Every vthread lives once: creating it is not a step, and nothing here happens
  after its slot was given to another one.  `delete[] sp` leaves no trace.
-/
import Mathlib.Data.Int.Notation
import Mathlib.Data.Nat.Notation
import HThread.Interleave.Chain
import HThread.Interleave.Machine
import HThread.Worker

namespace HThread.Join

open Interleave
open Function (update)

/-! ## §1. Program points and state. -/

/-- Where a vthread may be resumed.  Addresses of result variables are numbers,
    `none` is a null pointer. -/
inductive JoinCont (V : Type) where
  /-- In the program: after `sched_yield`, or at the end of `join`. -/
  | user
  /-- vthread.hpp:200, 223, in the lock loop of `join`. -/
  | joinLock (t : V) (r : Option ℕ)
  /-- strategy.h:278, in the lock loop of `pthread_exit`. -/
  | exitLock (val : ℕ)
  /-- vthread.hpp:252, in the lock loop of `wake_up_joined`. -/
  | wakeLock
  /-- vthread.hpp:294, after the vthread handed over STATUS_FINISHED. -/
  | dead
  deriving DecidableEq, Repr

/-- Program points.  `t` is the target of a join, `n` the local `waiters` of
    `wake_up_joined`, `h` its local `head`. -/
inductive JoinPc (V : Type) where
  /-- At a point where the vthread may also be resumed. -/
  | cont (k : JoinCont V)
  /-- vthread.hpp:204, 226, `pjoin_target->retval = _retval`. -/
  | joinRetval (t : V) (r : Option ℕ)
  /-- vthread.hpp:205, 227, `if (pjoin_target->cur_status != STATUS_FINISHED)`. -/
  | joinTest (t : V) (r : Option ℕ)
  /-- vthread.hpp:206, 228, `join_waiters_num++`: the load, -/
  | joinNum (t : V)
  /-- and the store. -/
  | joinInc (t : V) (n : ℤ)
  /-- vthread.hpp:207, `me->cur_status = STATUS_BLOCKED`. -/
  | joinStatus (t : V)
  /-- htypes.hpp:383, `prev_head = *phead`. -/
  | joinHead (t : V)
  /-- htypes.hpp:384, `*phead = pnew_node`. -/
  | joinPush (t : V) (prev : Option V)
  /-- htypes.hpp:385, `pnew_node->next = prev_head`. -/
  | joinLink (t : V) (prev : Option V)
  /-- vthread.hpp:230, a raw thread releases the mutex. -/
  | joinRelease (t : V)
  /-- htypes.hpp:438, the compare-and-swap in `join_sem.wait()`. -/
  | semCas (t : V)
  /-- htypes.hpp:439, the call of futex, -/
  | semFutex (t : V)
  /-- and asleep in it. -/
  | semSleep (t : V)
  /-- vthread.hpp:218, 235, `if (_retval)` and the load of `routine_ret`. -/
  | joinOut (t : V) (r : Option ℕ)
  /-- vthread.hpp:218, 235, the store to `*_retval`. -/
  | joinStore (t : V) (x val : ℕ)
  /-- vthread.hpp:219, 236, the release of the mutex. -/
  | joinUnlock (t : V)
  /-- strategy.h:282, `me->routine_ret = retval`. -/
  | exitSet (val : ℕ)
  /-- strategy.h:283, the release of the mutex. -/
  | exitUnlock
  /-- vthread.hpp:292, the store to `me->routine_ret` in `manage`. -/
  | manageRet (val : ℕ)
  /-- vthread.hpp:256, `if (retval)`. -/
  | wakeRetval
  /-- vthread.hpp:256, the load of `routine_ret`, -/
  | wakeOut (x : ℕ)
  /-- and the store to `*retval`. -/
  | wakeStore (x val : ℕ)
  /-- vthread.hpp:257, `cur_status = STATUS_FINISHED`. -/
  | wakeStatus
  /-- vthread.hpp:259, `if (0 != join_waiters_num)`. -/
  | wakeNum
  /-- vthread.hpp:260, `waiters = join_waiters_num`. -/
  | wakeWaiters
  /-- vthread.hpp:261, `join_waiters_num = 0`. -/
  | wakeZero (n : ℤ)
  /-- vthread.hpp:262, `head = join_wait_queue`. -/
  | wakeHead (n : ℤ)
  /-- vthread.hpp:263, `join_wait_queue = nullptr`. -/
  | wakeNull (n : ℤ) (h : Option V)
  /-- vthread.hpp:266, the release of the mutex. -/
  | wakeUnlock (n : ℤ) (h : Option V)
  /-- vthread.hpp:271, `if (!waiters) return`. -/
  | wakeCheck (n : ℤ) (h : Option V)
  /-- htypes.hpp:400, the head of the list and the load of its `next`. -/
  | wakeDeq (n : ℤ) (h : Option V)
  /-- htypes.hpp:403, `cur_head->next = nullptr`. -/
  | wakeClear (n : ℤ) (w : V) (h : Option V)
  /-- vthread.hpp:277, `p->vth->cur_status = STATUS_SUSPENDED`. -/
  | wakeSet (n : ℤ) (w : V) (h : Option V)
  /-- vthread.hpp:278, `vs->vs_queue.enqueue(p->vth)`. -/
  | wakeEnq (n : ℤ) (w : V) (h : Option V)
  /-- vthread.hpp:283, `while (waiters--)`, and htypes.hpp:447, the
      compare-and-swap in `join_sem.post()`. -/
  | wakePost (n : ℤ)
  /-- htypes.hpp:449, the wake-up call of futex. -/
  | wakeFutex (n : ℤ)
  deriving DecidableEq, Repr

/-- Lists of joiners: the `join_wait_queue` of `t`, and the list that agent `a`
    has cut off in `wake_up_joined`. -/
inductive JoinList (A V : Type) where
  | queue (t : V)
  | cut (a : A)
  deriving DecidableEq, Repr

/-- The fields of the vthreads, the result variables and the scheduler.
    History: which vthreads handed over STATUS_FINISHED and which had their
    joiners woken, the nodes of the lists, for each vthread how often it
    registered as a joiner and how often `wake_up_joined` enqueued it. -/
structure JoinState (A V : Type) extends Sched A V (JoinPc V) (JoinCont V) V where
  retval : V → Option ℕ
  routineRet : V → ℕ
  cell : ℕ → ℕ
  joinWaitersNum : V → ℤ
  joinWaitQueue : V → Option V
  next : V → Option V
  fut : V → ℕ
  sleepers : V → List A
  handed : V → Bool
  done : V → Bool
  linked : JoinList A V → List V
  pushes : V → ℕ
  puts : V → ℕ

/-- The calls a program can make; `ret` is the return from the start routine. -/
inductive JoinCall (V : Type) where
  | join (t : V) (r : Option ℕ)
  | pthreadExit (val : ℕ)
  | ret (val : ℕ)
  | schedYield
  deriving DecidableEq, Repr

/-- An action: agent `a` starts a call, takes `v` out of `vs_queue`, wakes the
    sleeping agent `b`, or takes its next step otherwise. -/
inductive JoinAct (A V : Type) where
  | call (a : A) (f : JoinCall V)
  | pick (a : A) (v : V)
  | rouse (a b : A)
  | go (a : A)
  deriving DecidableEq, Repr

/-- Whose step it is. -/
def JoinAct.agent {A V : Type} : JoinAct A V → A
  | call a _ | pick a _ | rouse a _ | go a => a

variable {A V : Type} [DecidableEq A] [DecidableEq V]

/-- Agent `a` moves to `p`. -/
def JoinState.goto (s : JoinState A V) (a : A) (p : Pc V (JoinPc V) (JoinCont V) V) :
    JoinState A V :=
  { s with pc := update s.pc a p }

/-! ## §2. The code. -/

/-- The test-and-set of a lock loop at `k`, for the `join_mutex` of `t`: a
    vthread yields, a raw thread spins. -/
def lockLoop (s : JoinState A V) (a : A) (me : Option V) (t : V) (k : JoinCont V)
    (p : JoinPc V) : JoinState A V :=
  if s.c t then
    s.goto a (match me with
      | some v => .switch v (.status .lockFail) k
      | none => .exec none (.cont k))
  else { s with c := update s.c t true }.goto a (.exec me p)

/-- vthread.hpp:191, `join`; `me` is null for a raw thread. -/
def join (s : JoinState A V) (a : A) (me : Option V) : JoinPc V → Option (JoinState A V)
  | .cont (.joinLock t r) => some (lockLoop s a me t (.joinLock t r) (.joinRetval t r))
  | .joinRetval t r =>
      some ({ s with retval := update s.retval t r }.goto a (.exec me (.joinTest t r)))
  | .joinTest t r =>
      some (s.goto a (.exec me (if s.curStatus t = .finished then .joinOut t r else .joinNum t)))
  | .joinNum t => some (s.goto a (.exec me (.joinInc t (s.joinWaitersNum t))))
  | .joinInc t n =>
      some ({ s with joinWaitersNum := update s.joinWaitersNum t (n + 1) }.goto a
        (.exec me (if me.isSome then .joinStatus t else .joinRelease t)))
  | .joinStatus t =>
      me.map fun v =>
        { s with curStatus := update s.curStatus v .blocked }.goto a (.exec me (.joinHead t))
  | .joinHead t => some (s.goto a (.exec me (.joinPush t (s.joinWaitQueue t))))
  | .joinPush t prev =>
      me.map fun v =>
        { s with joinWaitQueue := update s.joinWaitQueue t (some v) }.goto a
          (.exec me (.joinLink t prev))
  | .joinLink t prev =>
      -- the worker will unlock the mutex
      me.map fun v =>
        { s with
          next := update s.next v prev
          linked := update s.linked (.queue t) (v :: s.linked (.queue t))
          pushes := update s.pushes v (s.pushes v + 1) }.goto a (.switch v (.mutex t) .user)
  | .joinRelease t => some ({ s with c := update s.c t false }.goto a (.exec me (.semCas t)))
  | .joinOut t r =>
      some (s.goto a (.exec me (match r with
        | some x => .joinStore t x (s.routineRet t)
        | none => .joinUnlock t)))
  | .joinStore t x val =>
      some ({ s with cell := update s.cell x val }.goto a (.exec me (.joinUnlock t)))
  | .joinUnlock t => some ({ s with c := update s.c t false }.goto a (.exec me (.cont .user)))
  | _ => none

/-- htypes.hpp:433, `wait` of the `join_sem` of `t`.  The kernel puts the caller
    to sleep only if the word is still 0. -/
def semaWait (s : JoinState A V) (a : A) (me : Option V) : JoinPc V → Option (JoinState A V)
  | .semCas t =>
      if s.fut t = 1 then
        some ({ s with fut := update s.fut t 0 }.goto a (.exec me (.cont .user)))
      else some (s.goto a (.exec me (.semFutex t)))
  | .semFutex t =>
      if s.fut t = 0 then
        some ({ s with sleepers := update s.sleepers t (a :: s.sleepers t) }.goto a
          (.exec me (.semSleep t)))
      else some (s.goto a (.exec me (.semCas t)))
  | .semSleep t => if a ∈ s.sleepers t then none else some (s.goto a (.exec me (.semCas t)))
  | _ => none

/-- strategy.h:273, `pthread_exit`; a raw thread follows its null `me`. -/
def pthreadExit (s : JoinState A V) (a : A) (me : Option V) :
    JoinPc V → Option (JoinState A V)
  | .cont (.exitLock val) =>
      some (match me with
        | some v => lockLoop s a me v (.exitLock val) (.exitSet val)
        | none => s.goto a .crashed)
  | .exitSet val =>
      me.map fun v => { s with routineRet := update s.routineRet v val }.goto a (.exec me .exitUnlock)
  | .exitUnlock =>
      me.map fun v => { s with c := update s.c v false }.goto a (.switch v (.status .finished) .dead)
  | _ => none

/-- vthread.hpp:288, `manage` after the return of the start routine. -/
def manage (s : JoinState A V) (a : A) (me : Option V) : JoinPc V → Option (JoinState A V)
  | .manageRet val =>
      me.map fun v =>
        { s with routineRet := update s.routineRet v val }.goto a
          (.switch v (.status .finished) .dead)
  -- "should not run to here": the vthread has nowhere to return to
  | .cont .dead => some (s.goto a .crashed)
  | _ => none

/-- `wake_up_joined` of `v` returns, and the worker goes on. -/
def JoinState.finish (s : JoinState A V) (a : A) (v : V) : JoinState A V :=
  { s with done := update s.done v true }.goto a .top

/-- vthread.hpp:241, `wake_up_joined` of `v`. -/
def wakeUpJoined (s : JoinState A V) (a : A) (v : V) : JoinPc V → Option (JoinState A V)
  | .cont .wakeLock => some (lockLoop s a (some v) v .wakeLock .wakeRetval)
  | .wakeRetval =>
      some (s.goto a (.exec (some v) (match s.retval v with
        | some x => .wakeOut x
        | none => .wakeStatus)))
  | .wakeOut x => some (s.goto a (.exec (some v) (.wakeStore x (s.routineRet v))))
  | .wakeStore x val =>
      some ({ s with cell := update s.cell x val }.goto a (.exec (some v) .wakeStatus))
  | .wakeStatus =>
      some ({ s with curStatus := update s.curStatus v .finished }.goto a (.exec (some v) .wakeNum))
  | .wakeNum =>
      some (s.goto a (.exec (some v) (if s.joinWaitersNum v = 0 then .wakeUnlock 0 none
        else .wakeWaiters)))
  | .wakeWaiters => some (s.goto a (.exec (some v) (.wakeZero (s.joinWaitersNum v))))
  | .wakeZero n =>
      some ({ s with joinWaitersNum := update s.joinWaitersNum v 0 }.goto a
        (.exec (some v) (.wakeHead n)))
  | .wakeHead n => some (s.goto a (.exec (some v) (.wakeNull n (s.joinWaitQueue v))))
  | .wakeNull n h =>
      some ({ s with
        joinWaitQueue := update s.joinWaitQueue v none
        linked := update (update s.linked (.queue v) []) (.cut a) (s.linked (.queue v)) }.goto a
          (.exec (some v) (.wakeUnlock n h)))
  | .wakeUnlock n h =>
      some ({ s with c := update s.c v false }.goto a (.exec (some v) (.wakeCheck n h)))
  | .wakeCheck n h =>
      some (if n = 0 then s.finish a v else s.goto a (.exec (some v) (.wakeDeq n h)))
  | .wakeDeq n none => some (s.goto a (.exec (some v) (.wakePost n)))
  | .wakeDeq n (some w) =>
      some ({ s with linked := update s.linked (.cut a) ((s.linked (.cut a)).erase w) }.goto a
        (.exec (some v) (.wakeClear n w (s.next w))))
  | .wakeClear n w h =>
      some ({ s with next := update s.next w none }.goto a (.exec (some v) (.wakeSet n w h)))
  | .wakeSet n w h =>
      some ({ s with curStatus := update s.curStatus w .suspended }.goto a
        (.exec (some v) (.wakeEnq n w h)))
  | .wakeEnq n w h =>
      some ({ s with
        vsQueue := s.vsQueue ++ [w]
        puts := update s.puts w (s.puts w + 1) }.goto a (.exec (some v) (.wakeDeq (n - 1) h)))
  | .wakePost n =>
      some (if n = 0 then s.finish a v
        else if s.fut v = 0 then
          { s with fut := update s.fut v 1 }.goto a (.exec (some v) (.wakeFutex (n - 1)))
        else s.goto a (.exec (some v) (.wakePost (n - 1))))
  | .wakeFutex n =>
      if s.sleepers v = [] then some (s.goto a (.exec (some v) (.wakePost n))) else none
  | _ => none

/-- The wake-up call of futex finds agent `b` asleep. -/
def futexWake (s : JoinState A V) (a : A) (v : V) (b : A) : JoinPc V → Option (JoinState A V)
  | .wakeFutex n =>
      if b ∈ s.sleepers v then
        some ({ s with sleepers := update s.sleepers v ((s.sleepers v).erase b) }.goto a
          (.exec (some v) (.wakePost n)))
      else none
  | _ => none

/-- The program calls `f`. -/
def joinCall (s : JoinState A V) (a : A) (me : Option V) : JoinCall V → Option (JoinState A V)
  | .join t r => some (s.goto a (.exec me (.cont (.joinLock t r))))
  | .pthreadExit val => some (s.goto a (.exec me (.cont (.exitLock val))))
  | .ret val => me.map fun v => s.goto a (.exec (some v) (.manageRet val))
  | .schedYield => some (s.goto a (yieldMyself me (.status .suspended) .user))

namespace JoinPc

/-- Inside `wake_up_joined`. -/
def wakes : JoinPc V → Bool
  | cont .wakeLock => true
  | wakeRetval | wakeOut _ | wakeStore _ _ | wakeStatus | wakeNum | wakeWaiters | wakeZero _
  | wakeHead _ | wakeNull _ _ | wakeUnlock _ _ | wakeCheck _ _ | wakeDeq _ _ | wakeClear _ _ _
  | wakeSet _ _ _ | wakeEnq _ _ _ | wakePost _ | wakeFutex _ => true
  | _ => false

/-- Inside `join_sem.wait()`. -/
def sleeps : JoinPc V → Bool
  | semCas _ | semFutex _ | semSleep _ => true
  | _ => false

/-- Inside `pthread_exit`. -/
def exits : JoinPc V → Bool
  | cont (.exitLock _) | exitSet _ | exitUnlock => true
  | _ => false

/-- At the end of `manage`. -/
def returns : JoinPc V → Bool
  | cont .dead | manageRet _ => true
  | _ => false

end JoinPc

/-- One step in the code of `me`. -/
def joinCode (s : JoinState A V) (a : A) (me : Option V) (p : JoinPc V) :
    Option (JoinState A V) :=
  if p.wakes then me.bind fun v => wakeUpJoined s a v p
  else if p.sleeps then semaWait s a me p
  else if p.exits then pthreadExit s a me p
  else if p.returns then manage s a me p
  else join s a me p

/-- The shape of the join code, for the scheduler's rules. -/
def joinShape : Shape V (JoinPc V) (JoinCont V) where
  enter := .cont
  hand
    | .wakeClear _ w _ | .wakeSet _ w _ | .wakeEnq _ w _ => some w
    | _ => none
  armed _ := false
  hand_enter _ := rfl
  armed_enter _ := rfl

/-- strategy.h:781, `finish_vthread` of `v`, on the worker's own stack. -/
def finishVthread (v : V) : Pc V (JoinPc V) (JoinCont V) V := .exec (some v) (.cont .wakeLock)

/-- A step of `worker_routine`. -/
def joinWorker (s : JoinState A V) (a : A) : Option (JoinState A V) :=
  (workerRoutine JoinPc.cont finishVthread s.toSched a (s.pc a)).map fun σ =>
    { s with
      toSched := σ
      handed := match s.pc a with
        | .ret v (.status .finished) => update s.handed v true
        | _ => s.handed }

/-- One step of one agent. -/
def joinStep (s : JoinState A V) : JoinAct A V → Option (JoinState A V)
  | .call a f =>
      match s.pc a with
      | .exec me (.cont .user) => joinCall s a me f
      | _ => none
  | .pick a v => (getAndWork s.toSched a v).map fun σ => { s with toSched := σ }
  | .rouse a b =>
      match s.pc a with
      | .exec (some v) p => futexWake s a v b p
      | _ => none
  | .go a =>
      match s.pc a with
      | .exec me p => joinCode s a me p
      | _ => joinWorker s a

/-- vthread.hpp:110, `init` of every vthread; `raw a` tells raw threads from
    workers and `ready` lists the vthreads in the run queue. -/
def joinInit (raw : A → Bool) (ready : List V) : JoinState A V where
  vsQueue := ready
  runnable _ := true
  curStatus _ := .suspended
  ctx _ := .user
  c _ := false
  pc a := if raw a then .exec none (.cont .user) else .top
  releases _ := 0
  selfPuts _ := 0
  retval _ := none
  routineRet _ := 0
  cell _ := 0
  joinWaitersNum _ := 0
  joinWaitQueue _ := none
  next _ := none
  fut _ := 0
  sleepers _ := []
  handed _ := false
  done _ := false
  linked _ := []
  pushes _ := 0
  puts _ := 0

/-- Any workers, raw threads and vthreads, all of which may join each other. -/
def joining : Machine (JoinState A V) (JoinAct A V) where
  init s := ∃ raw ready, ready.Nodup ∧ s = joinInit raw ready
  step := joinStep

end HThread.Join
