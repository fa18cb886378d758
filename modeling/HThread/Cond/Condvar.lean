/-
  HThread.Cond.Condvar — condition variables of strategy.h, default build.

  `pthread_cond_wait`, `pthread_cond_signal` and `pthread_cond_broadcast` on one
  condvar, with the calls on the mutex that goes with it.  The vthreads run
  on workers (`HThread.Worker`); raw threads call with a null `me`.  One step is
  one atomic builtin, field access, queue operation or context switch.

  The queue `blocked_vths` is allocated by whoever comes first; queues are
  known by a number, `delete tmp` leaves no trace.  A pop may hand out any
  entry and fails only on an empty queue; a push always succeeds.
-/
import Mathlib.Data.Int.Notation
import Mathlib.Data.Nat.Notation
import HThread.Interleave.Machine
import HThread.Worker

namespace HThread.Cond

open Interleave
open Function (update)

/-! ## §1. Program points and state. -/

/-- The three functions that begin with the allocation of `blocked_vths`. -/
inductive CondOp where
  | wait | signal | broadcast
  deriving DecidableEq, Repr

/-- Where a vthread may be resumed. -/
inductive CondCont where
  /-- In the program, after `sched_yield`. -/
  | user
  /-- strategy.h:320, in `pthread_cond_wait` after the switch. -/
  | woken
  /-- strategy.h:321, in the lock loop of `pthread_cond_wait`. -/
  | relock
  /-- strategy.h:572, in the loop of `pthread_mutex_lock`. -/
  | lock
  deriving DecidableEq, Repr

/-- Program points of the condvar and mutex functions. -/
inductive CondPc (V : Type) where
  /-- At a point where the vthread may also be resumed. -/
  | cont (k : CondCont)
  /-- strategy.h:299, 387, 480, `while (!hc->blocked_vths)`. -/
  | readQueue (op : CondOp)
  /-- strategy.h:301, 390, 482, the compare-and-swap with a new queue. -/
  | casQueue (op : CondOp)
  /-- strategy.h:312, `__sync_add_and_fetch(&hc->waiter_num, 1)`. -/
  | waitNum
  /-- strategy.h:314, `me->cur_status = STATUS_BLOCKED`. -/
  | waitStatus
  /-- strategy.h:316, `me->runnable = false`. -/
  | waitRunnable
  /-- strategy.h:317, the load of `hc->blocked_vths`, -/
  | waitLoad
  /-- and the push. -/
  | waitPush (q : ℕ)
  /-- strategy.h:413, the load of `hc->blocked_vths`, -/
  | sigLoad
  /-- and the pop. -/
  | sigPop (q : ℕ)
  /-- strategy.h:414, `__sync_add_and_fetch(&hc->waiter_num, -1)`. -/
  | sigNum (w : V)
  /-- strategy.h:425, `waiter->cur_status = STATUS_SUSPENDED`. -/
  | sigStatus (w : V)
  /-- strategy.h:426, `vs->vs_queue.enqueue(waiter)`. -/
  | sigEnqueue (w : V)
  /-- strategy.h:487, `if (!hc->blocked_vths) return 0`. -/
  | bcCheck
  /-- strategy.h:510, the load of `hc->blocked_vths`, -/
  | bcLoad
  /-- and the pop. -/
  | bcPop (q : ℕ)
  /-- strategy.h:511, `__sync_add_and_fetch(&hc->waiter_num, -1)`. -/
  | bcNum (w : V)
  /-- strategy.h:513, `vs->vs_queue.enqueue(waiter)`. -/
  | bcEnqueue (w : V)
  /-- strategy.h:517, `me->cur_status = STATUS_SUSPENDED`. -/
  | bcStatus
  deriving DecidableEq, Repr

/-- A caller: a vthread, or the raw thread that agent `a` is. -/
inductive Caller (A V : Type) where
  | vthread (v : V)
  | raw (a : A)
  deriving DecidableEq, Repr

/-- The condvar, the heap of queues and the scheduler.  History: the caller that
    has the mutex, for each vthread its waits, pushes, pops and the enqueues by
    its wakers, and the queues that were pushed to or popped from. -/
structure CondState (A V : Type) extends Sched A V (CondPc V) CondCont Unit where
  blockedVths : Option ℕ
  queue : ℕ → List V
  nextQueue : ℕ
  waiterNum : ℤ
  holder : Option (Caller A V)
  waits : V → ℕ
  pushes : V → ℕ
  pops : V → ℕ
  puts : V → ℕ
  used : List ℕ

/-- The calls a program can make. -/
inductive CondCall where
  | condWait | condSignal | condBroadcast | mutexLock | mutexUnlock | schedYield
  deriving DecidableEq, Repr

/-- An action: agent `a` starts a call, takes `v` out of the queue it is reading,
    or takes its next step otherwise. -/
inductive CondAct (A V : Type) where
  | call (a : A) (f : CondCall)
  | pick (a : A) (v : V)
  | go (a : A)
  deriving DecidableEq, Repr

variable {A V : Type} [DecidableEq A] [DecidableEq V]

/-- The caller that agent `a` runs. -/
def caller (me : Option V) (a : A) : Caller A V :=
  match me with
  | some v => .vthread v
  | none => .raw a

namespace CondState

/-- Agent `a` goes on in the code of `me`. -/
def goto (s : CondState A V) (a : A) (p : Pc V (CondPc V) CondCont Unit) : CondState A V :=
  { s with pc := update s.pc a p }

/-- `vs->vs_queue.enqueue(w)` by a waker of `w`. -/
def wake (s : CondState A V) (w : V) : CondState A V :=
  { s with vsQueue := s.vsQueue ++ [w], puts := update s.puts w (s.puts w + 1) }

/-- Store to `v->cur_status`. -/
def setStatus (s : CondState A V) (v : V) (st : Status) : CondState A V :=
  { s with curStatus := update s.curStatus v st }

end CondState

/-! ## §2. The code. -/

/-- The point after the allocation loop. -/
def CondOp.body : CondOp → CondPc V
  | .wait => .waitNum
  | .signal => .sigLoad
  | .broadcast => .bcCheck

/-- strategy.h:299, 387, 480, the allocation loop. -/
def allocQueue (s : CondState A V) (a : A) (me : Option V) : CondPc V → Option (CondState A V)
  | .readQueue op =>
      some (s.goto a (.exec me (match s.blockedVths with
        | none => .casQueue op
        | some _ => op.body)))
  | .casQueue op =>
      match s.blockedVths with
      | none =>
          some ({ s with
            blockedVths := some s.nextQueue
            nextQueue := s.nextQueue + 1 }.goto a (.exec me op.body))
      | some _ =>
          some ({ s with nextQueue := s.nextQueue + 1 }.goto a (.exec me (.readQueue op)))
  | _ => none

/-- The test-and-set of a lock loop that yields at `k`. -/
def lockLoop (s : CondState A V) (a : A) (me : Option V) (k : CondCont) : CondState A V :=
  if s.c () then s.goto a (yieldMyself me (.status .lockFail) k)
  else { s with c := update s.c () true, holder := some (caller me a) }.goto a (.exec me (.cont .user))

/-- strategy.h:294, `pthread_cond_wait` after the allocation. -/
def pthreadCondWait (s : CondState A V) (a : A) (me : Option V) :
    CondPc V → Option (CondState A V)
  | .waitNum => some ({ s with waiterNum := s.waiterNum + 1 }.goto a (.exec me .waitStatus))
  | .waitStatus =>
      match me with
      | some v => some ((s.setStatus v .blocked).goto a (.exec me .waitRunnable))
      | none => some (s.goto a .crashed)
  | .waitRunnable =>
      match me with
      | some v =>
          some ({ s with runnable := update s.runnable v false }.goto a (.exec me .waitLoad))
      | none => some (s.goto a .crashed)
  | .waitLoad =>
      match s.blockedVths with
      | some q => some (s.goto a (.exec me (.waitPush q)))
      | none => some (s.goto a .crashed)
  | .waitPush q =>
      match me with
      | some v =>
          some ({ s with
            queue := update s.queue q (s.queue q ++ [v])
            pushes := update s.pushes v (s.pushes v + 1)
            used := s.used ++ [q] }.goto a (.switch v (.mutex ()) .woken))
      | none => some (s.goto a .crashed)
  | .cont .woken =>
      match me with
      | some v => some ((s.setStatus v .suspended).goto a (.exec me (.cont .relock)))
      | none => some (s.goto a .crashed)
  | .cont .relock => some (lockLoop s a me .relock)
  | _ => none

/-- strategy.h:378, `pthread_cond_signal` after the allocation; at the pop: it
    fails on an empty queue. -/
def pthreadCondSignal (s : CondState A V) (a : A) (me : Option V) :
    CondPc V → Option (CondState A V)
  | .sigLoad =>
      match s.blockedVths with
      | some q => some (s.goto a (.exec me (.sigPop q)))
      | none => some (s.goto a .crashed)
  | .sigPop q =>
      if s.queue q = [] then some ({ s with used := s.used ++ [q] }.goto a (.exec me (.cont .user)))
      else none
  | .sigNum w => some ({ s with waiterNum := s.waiterNum - 1 }.goto a (.exec me (.sigStatus w)))
  | .sigStatus w => some ((s.setStatus w .suspended).goto a (.exec me (.sigEnqueue w)))
  | .sigEnqueue w => some ((s.wake w).goto a (.exec me (.cont .user)))
  | _ => none

/-- strategy.h:475, `pthread_cond_broadcast` after the allocation. -/
def pthreadCondBroadcast (s : CondState A V) (a : A) (me : Option V) :
    CondPc V → Option (CondState A V)
  | .bcCheck =>
      some (s.goto a (.exec me (if s.blockedVths.isSome then .bcLoad else .cont .user)))
  | .bcLoad =>
      match s.blockedVths with
      | some q => some (s.goto a (.exec me (.bcPop q)))
      | none => some (s.goto a .crashed)
  | .bcPop q =>
      if s.queue q = [] then some ({ s with used := s.used ++ [q] }.goto a (.exec me .bcStatus))
      else none
  | .bcNum w => some ({ s with waiterNum := s.waiterNum - 1 }.goto a (.exec me (.bcEnqueue w)))
  | .bcEnqueue w => some ((s.wake w).goto a (.exec me .bcLoad))
  | .bcStatus =>
      match me with
      | some v => some ((s.setStatus v .suspended).goto a (.exec me (.cont .user)))
      | none => some (s.goto a .crashed)
  | _ => none

/-- strategy.h:558, `pthread_mutex_lock`. -/
def pthreadMutexLock (s : CondState A V) (a : A) (me : Option V) :
    CondPc V → Option (CondState A V)
  | .cont .lock => some (lockLoop s a me .lock)
  | _ => none

/-- One step in the code of `me`. -/
def condCode (s : CondState A V) (a : A) (me : Option V) (p : CondPc V) :
    Option (CondState A V) :=
  match p with
  | .readQueue _ | .casQueue _ => allocQueue s a me p
  | .sigLoad | .sigPop _ | .sigNum _ | .sigStatus _ | .sigEnqueue _ => pthreadCondSignal s a me p
  | .bcCheck | .bcLoad | .bcPop _ | .bcNum _ | .bcEnqueue _ | .bcStatus =>
      pthreadCondBroadcast s a me p
  | .cont .lock => pthreadMutexLock s a me p
  | _ => pthreadCondWait s a me p

/-- A successful pop from `blocked_vths`. -/
def popBlocked (s : CondState A V) (a : A) (me : Option V) (w : V) (p : CondPc V) :
    Option (CondState A V) :=
  let pop (q : ℕ) (next : CondPc V) : Option (CondState A V) :=
    if w ∈ s.queue q then
      some ({ s with
        queue := update s.queue q ((s.queue q).erase w)
        pops := update s.pops w (s.pops w + 1)
        used := s.used ++ [q] }.goto a (.exec me next))
    else none
  match p with
  | .sigPop q => pop q (.sigNum w)
  | .bcPop q => pop q (.bcNum w)
  | _ => none

/-- The program calls `f`. -/
def condCall (s : CondState A V) (a : A) (me : Option V) (f : CondCall) : CondState A V :=
  match f with
  | .condWait =>
      { s with waits := match me with
          | some v => update s.waits v (s.waits v + 1)
          | none => s.waits }.goto a (.exec me (.readQueue .wait))
  | .condSignal => s.goto a (.exec me (.readQueue .signal))
  | .condBroadcast => s.goto a (.exec me (.readQueue .broadcast))
  | .mutexLock => s.goto a (.exec me (.cont .lock))
  -- strategy.h:637, the call is one store
  | .mutexUnlock => { s with c := update s.c () false, holder := none }
  | .schedYield => s.goto a (yieldMyself me (.status .suspended) .user)

/-- The shape of the condvar code, for the scheduler's rules. -/
def condShape : Shape V (CondPc V) CondCont where
  enter := .cont
  hand
    | .sigNum w | .sigStatus w | .sigEnqueue w | .bcNum w | .bcEnqueue w => some w
    | _ => none
  armed
    | .waitLoad | .waitPush _ => true
    | _ => false
  hand_enter _ := rfl
  armed_enter _ := rfl

/-- A step of `worker_routine`; no vthread of this model finishes. -/
def condWorker (s : CondState A V) (a : A) : Option (CondState A V) :=
  (workerRoutine CondPc.cont (fun _ => .top) s.toSched a (s.pc a)).map fun σ =>
    { s with
      toSched := σ
      holder := match s.pc a with
        | .ret _ (.mutex _) => none
        | _ => s.holder }

/-- One step of one agent. -/
def condStep (s : CondState A V) : CondAct A V → Option (CondState A V)
  | .call a f =>
      match s.pc a with
      | .exec me (.cont .user) => some (condCall s a me f)
      | _ => none
  | .pick a v =>
      match s.pc a with
      | .exec me p => popBlocked s a me v p
      | _ => (getAndWork s.toSched a v).map fun σ => { s with toSched := σ }
  | .go a =>
      match s.pc a with
      | .exec me p => condCode s a me p
      | _ => condWorker s a

/-- The condvar all zero, the mutex free; `raw a` tells raw threads from workers
    and `ready` lists the vthreads in the run queue. -/
def condInit (raw : A → Bool) (ready : List V) : CondState A V where
  vsQueue := ready
  runnable _ := true
  curStatus _ := .suspended
  ctx _ := .user
  c _ := false
  pc a := if raw a then .exec none (.cont .user) else .top
  releases _ := 0
  selfPuts _ := 0
  blockedVths := none
  queue _ := []
  nextQueue := 0
  waiterNum := 0
  holder := none
  waits _ := 0
  pushes _ := 0
  pops _ := 0
  puts _ := 0
  used := []

/-- One condvar, one mutex, any workers, raw threads and vthreads. -/
def condvar : Machine (CondState A V) (CondAct A V) where
  init s := ∃ raw ready, ready.Nodup ∧ s = condInit raw ready
  step := condStep

/-! ## §3. What a step in the code can do. -/

namespace CondPc

/-- Inside `pthread_cond_wait`, before the switch. -/
def inWait : CondPc V → Bool
  | readQueue .wait | casQueue .wait | waitNum | waitStatus | waitRunnable | waitLoad
  | waitPush _ => true
  | _ => false

/-- Inside `pthread_cond_signal` or `pthread_cond_broadcast`. -/
def waking : CondPc V → Bool
  | readQueue .signal | casQueue .signal | sigLoad | sigPop _ | sigNum _ | sigStatus _
  | sigEnqueue _ => true
  | readQueue .broadcast | casQueue .broadcast | bcCheck | bcLoad | bcPop _ | bcNum _ | bcEnqueue _
  | bcStatus => true
  | _ => false

/-- After the allocation loop. -/
def past : CondPc V → Bool
  | readQueue _ | casQueue _ | cont _ => false
  | _ => true

/-- The queue a push or pop goes to. -/
def pointer : CondPc V → Option ℕ
  | waitPush q | sigPop q | bcPop q => some q
  | _ => none

/-- At a load of `blocked_vths` that is followed at once. -/
def loads : CondPc V → Bool
  | waitLoad | sigLoad | bcLoad => true
  | _ => false

end CondPc

/-- Moving from `p` to `p'` changes nothing that others depend on. -/
structure Quiet (s : CondState A V) (p p' : CondPc V) : Prop where
  hand : condShape.hand p' = condShape.hand p
  armed : condShape.armed p' = condShape.armed p
  inWait : p'.inWait = p.inWait
  waking : p'.waking = true → p.waking = true
  past : p'.past = true → p.past = true ∨ s.blockedVths ≠ none
  pointer : ∀ q, p'.pointer = some q → s.blockedVths = some q

/-- The effects of one step in the code of `me` at `p`. -/
inductive CodeEffect (s : CondState A V) (a : A) (me : Option V) (p : CondPc V) :
    CondState A V → Prop
  | quiet (st n q p') (h : Quiet s p p') :
      CodeEffect s a me p { s with
        curStatus := st
        waiterNum := n
        nextQueue := q
        pc := update s.pc a (.exec me p') }
  | install (op) (hp : p = .casQueue op) (hnone : s.blockedVths = none) :
      CodeEffect s a me p { s with
        blockedVths := some s.nextQueue
        nextQueue := s.nextQueue + 1
        pc := update s.pc a (.exec me op.body) }
  | arm (v) (hme : me = some v) (hp : p = .waitRunnable) :
      CodeEffect s a me p { s with
        runnable := update s.runnable v false
        pc := update s.pc a (.exec me .waitLoad) }
  | push (v q) (hme : me = some v) (hp : p = .waitPush q) :
      CodeEffect s a me p { s with
        queue := update s.queue q (s.queue q ++ [v])
        pushes := update s.pushes v (s.pushes v + 1)
        used := s.used ++ [q]
        pc := update s.pc a (.switch v (.mutex ()) .woken) }
  | empty (q p') (hq : s.queue q = []) (hp : p = .sigPop q ∧ p' = .cont .user ∨
      p = .bcPop q ∧ p' = .bcStatus) :
      CodeEffect s a me p { s with
        used := s.used ++ [q]
        pc := update s.pc a (.exec me p') }
  | wake (w p') (hp : p = .sigEnqueue w ∧ p' = .cont .user ∨ p = .bcEnqueue w ∧ p' = .bcLoad) :
      CodeEffect s a me p { s.wake w with pc := update s.pc a (.exec me p') }
  | acquire (k) (hp : p = .cont k) (hc : s.c () = false) :
      CodeEffect s a me p { s with
        c := update s.c () true
        holder := some (caller me a)
        pc := update s.pc a (.exec me (.cont .user)) }
  | yield (k k') (hp : p = .cont k) :
      CodeEffect s a me p { s with
        pc := update s.pc a (yieldMyself me (.status .lockFail) k') }
  | crash (hp : me = none ∨ s.blockedVths = none ∧ p.loads = true)
      (hhand : condShape.hand p = none) :
      CodeEffect s a me p { s with pc := update s.pc a .crashed }

theorem allocQueue_effect {s s' : CondState A V} {a : A} {me : Option V} {p : CondPc V}
    (hs : allocQueue s a me p = some s') : CodeEffect s a me p s' := by
  cases p with
  | readQueue op =>
      obtain rfl := Option.some.inj hs
      cases hb : s.blockedVths with
      | none =>
          refine .quiet _ _ _ (.casQueue op) ⟨rfl, rfl, ?_, ?_, by simp [CondPc.past], ?_⟩
          · cases op <;> rfl
          · cases op <;> exact id
          · intro q hq
            cases hq
      | some q₀ =>
          refine .quiet _ _ _ op.body ⟨?_, ?_, ?_, ?_, fun _ => .inr (by simp [hb]), ?_⟩
          · cases op <;> rfl
          · cases op <;> rfl
          · cases op <;> rfl
          · cases op <;> simp [CondPc.waking, CondOp.body]
          · intro q hq
            cases op <;> cases hq
  | casQueue op =>
      simp only [allocQueue] at hs
      split at hs
      · next hb =>
          obtain rfl := Option.some.inj hs
          exact .install op rfl hb
      · obtain rfl := Option.some.inj hs
        refine .quiet _ _ _ (.readQueue op) ⟨rfl, rfl, ?_, ?_, by simp [CondPc.past], ?_⟩
        · cases op <;> rfl
        · cases op <;> exact id
        · intro q hq
          cases hq
  | _ => cases hs

omit [DecidableEq A] [DecidableEq V] in
/-- Between two points of the same kind, both without a queue in hand. -/
theorem Quiet.of_rfl {s : CondState A V} {p p' : CondPc V}
    (hhand : condShape.hand p' = condShape.hand p) (harmed : condShape.armed p' = condShape.armed p)
    (hwait : p'.inWait = p.inWait) (hwaking : p'.waking = true → p.waking = true)
    (hpast : p'.past = true → p.past = true) (hptr : p'.pointer = none) : Quiet s p p' where
  hand := hhand
  armed := harmed
  inWait := hwait
  waking := hwaking
  past h := .inl (hpast h)
  pointer q hq := by
    rw [hptr] at hq
    cases hq

theorem lockLoop_effect (s : CondState A V) (a : A) (me : Option V) (k : CondCont) :
    CodeEffect s a me (.cont k) (lockLoop s a me k) := by
  unfold lockLoop
  split
  · exact .yield k k rfl
  · next hc => exact .acquire k rfl (by simpa using hc)

theorem pthreadCondWait_effect {s s' : CondState A V} {a : A} {me : Option V} {p : CondPc V}
    (hs : pthreadCondWait s a me p = some s') : CodeEffect s a me p s' := by
  cases p with
  | waitNum =>
      obtain rfl := Option.some.inj hs
      exact .quiet _ _ _ .waitStatus (.of_rfl rfl rfl rfl id id rfl)
  | waitStatus =>
      cases me with
      | none => exact Option.some.inj hs ▸ .crash (.inl rfl) rfl
      | some v =>
          obtain rfl := Option.some.inj hs
          exact .quiet _ _ _ .waitRunnable (.of_rfl rfl rfl rfl id id rfl)
  | waitRunnable =>
      cases me with
      | none => exact Option.some.inj hs ▸ .crash (.inl rfl) rfl
      | some v =>
          obtain rfl := Option.some.inj hs
          exact .arm v rfl rfl
  | waitLoad =>
      simp only [pthreadCondWait] at hs
      split at hs
      · next q hq =>
          obtain rfl := Option.some.inj hs
          refine .quiet _ _ _ (.waitPush q) ⟨rfl, rfl, rfl, id, fun _ => .inl rfl, fun q' hq' => ?_⟩
          rw [hq, ← hq']
          rfl
      · next hnone => exact Option.some.inj hs ▸ .crash (.inr ⟨hnone, rfl⟩) rfl
  | waitPush q =>
      cases me with
      | none => exact Option.some.inj hs ▸ .crash (.inl rfl) rfl
      | some v =>
          obtain rfl := Option.some.inj hs
          exact .push v q rfl rfl
  | cont k =>
      cases k with
      | woken =>
          cases me with
          | none => exact Option.some.inj hs ▸ .crash (.inl rfl) rfl
          | some v =>
              obtain rfl := Option.some.inj hs
              exact .quiet _ _ _ (.cont .relock) (.of_rfl rfl rfl rfl id id rfl)
      | relock => exact Option.some.inj hs ▸ lockLoop_effect s a me .relock
      | user | lock => cases hs
  | _ => cases hs

theorem pthreadCondSignal_effect {s s' : CondState A V} {a : A} {me : Option V} {p : CondPc V}
    (hs : pthreadCondSignal s a me p = some s') : CodeEffect s a me p s' := by
  cases p with
  | sigLoad =>
      simp only [pthreadCondSignal] at hs
      split at hs
      · next q hq =>
          obtain rfl := Option.some.inj hs
          refine .quiet _ _ _ (.sigPop q) ⟨rfl, rfl, rfl, id, fun _ => .inl rfl, fun q' hq' => ?_⟩
          rw [hq, ← hq']
          rfl
      · next hnone => exact Option.some.inj hs ▸ .crash (.inr ⟨hnone, rfl⟩) rfl
  | sigPop q =>
      simp only [pthreadCondSignal, Option.ite_none_right_eq_some] at hs
      obtain ⟨hq, hs⟩ := hs
      obtain rfl := Option.some.inj hs
      exact .empty q _ hq (.inl ⟨rfl, rfl⟩)
  | sigNum w =>
      obtain rfl := Option.some.inj hs
      exact .quiet _ _ _ (.sigStatus w) (.of_rfl rfl rfl rfl id id rfl)
  | sigStatus w =>
      obtain rfl := Option.some.inj hs
      exact .quiet _ _ _ (.sigEnqueue w) (.of_rfl rfl rfl rfl id id rfl)
  | sigEnqueue w =>
      obtain rfl := Option.some.inj hs
      exact .wake w _ (.inl ⟨rfl, rfl⟩)
  | _ => cases hs

theorem pthreadCondBroadcast_effect {s s' : CondState A V} {a : A} {me : Option V} {p : CondPc V}
    (hs : pthreadCondBroadcast s a me p = some s') : CodeEffect s a me p s' := by
  cases p with
  | bcCheck =>
      obtain rfl := Option.some.inj hs
      by_cases hb : s.blockedVths.isSome = true
      · rw [if_pos hb]
        exact .quiet _ _ _ .bcLoad (.of_rfl rfl rfl rfl id id rfl)
      · rw [if_neg hb]
        exact .quiet _ _ _ (.cont .user) (.of_rfl rfl rfl rfl (by simp [CondPc.waking])
          (by simp [CondPc.past]) rfl)
  | bcLoad =>
      simp only [pthreadCondBroadcast] at hs
      split at hs
      · next q hq =>
          obtain rfl := Option.some.inj hs
          refine .quiet _ _ _ (.bcPop q) ⟨rfl, rfl, rfl, id, fun _ => .inl rfl, fun q' hq' => ?_⟩
          rw [hq, ← hq']
          rfl
      · next hnone => exact Option.some.inj hs ▸ .crash (.inr ⟨hnone, rfl⟩) rfl
  | bcPop q =>
      simp only [pthreadCondBroadcast, Option.ite_none_right_eq_some] at hs
      obtain ⟨hq, hs⟩ := hs
      obtain rfl := Option.some.inj hs
      exact .empty q _ hq (.inr ⟨rfl, rfl⟩)
  | bcNum w =>
      obtain rfl := Option.some.inj hs
      exact .quiet _ _ _ (.bcEnqueue w) (.of_rfl rfl rfl rfl id id rfl)
  | bcEnqueue w =>
      obtain rfl := Option.some.inj hs
      exact .wake w _ (.inr ⟨rfl, rfl⟩)
  | bcStatus =>
      cases me with
      | none => exact Option.some.inj hs ▸ .crash (.inl rfl) rfl
      | some v =>
          obtain rfl := Option.some.inj hs
          exact .quiet _ _ _ (.cont .user) (.of_rfl rfl rfl rfl (by simp [CondPc.waking])
            (by simp [CondPc.past]) rfl)
  | _ => cases hs

/-- **Every step in the code has one of nine effects.** -/
theorem condCode_effect {s s' : CondState A V} {a : A} {me : Option V} {p : CondPc V}
    (hs : condCode s a me p = some s') : CodeEffect s a me p s' := by
  unfold condCode at hs
  split at hs
  · exact allocQueue_effect hs
  · exact allocQueue_effect hs
  · exact pthreadCondSignal_effect hs
  · exact pthreadCondSignal_effect hs
  · exact pthreadCondSignal_effect hs
  · exact pthreadCondSignal_effect hs
  · exact pthreadCondSignal_effect hs
  · exact pthreadCondBroadcast_effect hs
  · exact pthreadCondBroadcast_effect hs
  · exact pthreadCondBroadcast_effect hs
  · exact pthreadCondBroadcast_effect hs
  · exact pthreadCondBroadcast_effect hs
  · exact pthreadCondBroadcast_effect hs
  · exact Option.some.inj hs ▸ lockLoop_effect s a me .lock
  · exact pthreadCondWait_effect hs

/-- A pop hands out an entry of the queue the agent points to. -/
theorem popBlocked_cases {s s' : CondState A V} {a : A} {me : Option V} {w : V} {p : CondPc V}
    (hs : popBlocked s a me w p = some s') :
    ∃ q p', w ∈ s.queue q ∧ (p = .sigPop q ∧ p' = .sigNum w ∨ p = .bcPop q ∧ p' = .bcNum w)
      ∧ s' = { s with
          queue := update s.queue q ((s.queue q).erase w)
          pops := update s.pops w (s.pops w + 1)
          used := s.used ++ [q]
          pc := update s.pc a (.exec me p') } := by
  cases p with
  | sigPop q =>
      simp only [popBlocked, Option.ite_none_right_eq_some] at hs
      obtain ⟨hw, hs⟩ := hs
      exact ⟨q, _, hw, .inl ⟨rfl, rfl⟩, (Option.some.inj hs).symm⟩
  | bcPop q =>
      simp only [popBlocked, Option.ite_none_right_eq_some] at hs
      obtain ⟨hw, hs⟩ := hs
      exact ⟨q, _, hw, .inr ⟨rfl, rfl⟩, (Option.some.inj hs).symm⟩
  | _ => cases hs

/-- The effects of one action. -/
inductive StepEffect (s : CondState A V) : CondAct A V → CondState A V → Prop
  | call (a me f) (hpc : s.pc a = .exec me (.cont .user)) :
      StepEffect s (.call a f) (condCall s a me f)
  | pop (a me w q p p') (hpc : s.pc a = .exec me p) (hw : w ∈ s.queue q)
      (hp : p = .sigPop q ∧ p' = .sigNum w ∨ p = .bcPop q ∧ p' = .bcNum w) :
      StepEffect s (.pick a w) { s with
        queue := update s.queue q ((s.queue q).erase w)
        pops := update s.pops w (s.pops w + 1)
        used := s.used ++ [q]
        pc := update s.pc a (.exec me p') }
  | dequeue (a v) (hpc : s.pc a = .top) :
      StepEffect s (.pick a v) { s with
        vsQueue := s.vsQueue.erase v
        pc := update s.pc a (.got v) }
  | code (a me p s') (hpc : s.pc a = .exec me p) (h : CodeEffect s a me p s') :
      StepEffect s (.go a) s'
  | release (a v) (hpc : s.pc a = .ret v (.mutex ())) :
      StepEffect s (.go a) { s with
        c := update s.c () false
        releases := update s.releases v (s.releases v + 1)
        holder := none
        pc := update s.pc a (.setRunnable v) }
  | move (a q run k n p') (h : WorkerMove CondPc.cont (fun _ => .top) (s.pc a) p') :
      StepEffect s (.go a) { s with
        vsQueue := q
        runnable := run
        ctx := k
        selfPuts := n
        pc := update s.pc a p' }

/-- **Every step is one of these.** -/
theorem condStep_effect {s s' : CondState A V} {act : CondAct A V}
    (hs : condStep s act = some s') : StepEffect s act s' := by
  cases act with
  | call a f =>
      simp only [condStep] at hs
      split at hs
      · next me hpc =>
          obtain rfl := Option.some.inj hs
          exact .call a me f hpc
      · cases hs
  | pick a w =>
      simp only [condStep] at hs
      split at hs
      · next me p hpc =>
          obtain ⟨q, p', hw, hp, rfl⟩ := popBlocked_cases hs
          exact .pop a me w q p p' hpc hw hp
      · rw [Option.map_eq_some_iff] at hs
        obtain ⟨σ, hσ, rfl⟩ := hs
        obtain ⟨hpc, -, rfl⟩ := getAndWork_cases hσ
        exact .dequeue a w hpc
  | go a =>
      simp only [condStep] at hs
      split at hs
      · next me p hpc => exact .code a me p s' hpc (condCode_effect hs)
      · simp only [condWorker, Option.map_eq_some_iff] at hs
        obtain ⟨σ, hσ, rfl⟩ := hs
        rcases worker_cases hσ with ⟨v, m, hpc, rfl⟩ | ⟨q, run, k, n, p', hmove, rfl⟩
        · simp only [hpc]
          exact .release a v hpc
        · have hholder : (match s.pc a with
              | .ret _ (.mutex _) => none
              | _ => s.holder) = s.holder := by
            split
            · next v m hpc => exact absurd hpc (hmove.ne_mutex v m)
            · rfl
          rw [hholder]
          exact .move a q run k n p' hmove

end HThread.Cond
