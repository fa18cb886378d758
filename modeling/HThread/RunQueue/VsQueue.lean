/-
  HThread.RunQueue.VsQueue — `vs_queue`, the queue of virtual threads that can run.

  In the build with BLOCKING_QUEUE it is a `BlockingConcurrentQueue`: a list of
  sub-queues, one for each thread that has enqueued, and a semaphore that counts
  the elements.  A worker waits for a permit (`get_wait`) and then looks for an
  element until it has one: it compares the sizes of up to three sub-queues that
  are not empty, tries the longest, and then the others.

  The code of the sub-queue and of the semaphore is that of the other modules; a
  step here is a step there, or one between the calls.

  Key lemma:
    * `queueStep_effect` — what one step does, to which part.
-/
import HThread.RunQueue.LightweightSemaphore
import HThread.RunQueue.SubQueue

namespace HThread.RunQueue

open Interleave
open Function (update)

/-! ## §1. The code. -/

/-- blockingconcurrentqueue.h:318, `BlockingConcurrentQueue`. -/
structure VsQueue (T E : Type) where
  /-- The sub-queue of each thread. -/
  sub : T → Producer E
  /-- concurrentqueue.h:3531, `producerListTail`, and the list that starts there. -/
  producerListTail : List T
  sema : LightweightSemaphore

/-- The places from which the code of a sub-queue is called: `enqueue` for the thread's
    own one, `best->dequeue`, and `ptr->dequeue` with the list after `ptr`. -/
inductive Site (T : Type) where
  | own
  | best (best : T)
  | others (best ptr : T) (next : List T)
  deriving DecidableEq, Repr

/-- Program points. -/
inductive QueuePc (T E : Type) where
  | elsewhere
  /-- concurrentqueue.h:1281, `get_or_add_implicit_producer`. -/
  | getProducer (element : E)
  | inSub (site : Site T) (q : ProducerPc E)
  /-- blockingconcurrentqueue.h:433, `sema->signal`. -/
  | signal (q : SemaPc)
  | enqueued (ret : Bool)
  /-- blockingconcurrentqueue.h:654, `sema->wait`, and line 589, `sema->tryWait`. -/
  | wait (q : SemaPc)
  /-- concurrentqueue.h:1041, the load of `producerListTail`. -/
  | score
  /-- concurrentqueue.h:1658, the load of `tailIndex` in `size_approx`. -/
  | scoreTail (ptr : T) (next : List T) (nonEmptyCount : ℕ) (best : Option T) (bestSize : BitVec 64)
  /-- concurrentqueue.h:1659, the load of `headIndex`, and the comparison. -/
  | scoreHead (ptr : T) (next : List T) (nonEmptyCount : ℕ) (best : Option T) (bestSize : BitVec 64)
      (tail : ℕ)
  | dequeued (ret : Option E)
  /-- A null pointer was used. -/
  | garbage
  deriving DecidableEq, Repr

variable {T E : Type}

/-- concurrentqueue.h:1656, `size_approx`. -/
def sizeApprox (tail head : ℕ) : BitVec 64 :=
  if circularLessThan (word head) (word tail) then word tail - word head else 0

/-- After the first loop of `try_dequeue`. -/
def scoreEnd (nonEmptyCount : ℕ) (best : Option T) : QueuePc T E :=
  if 0 < nonEmptyCount then
    match best with
    | some b => .inSub (.best b) .deqTail
    | none => .garbage
  else .score

/-- concurrentqueue.h:1041, the test of the first loop. -/
def scoreFrom (ptrs : List T) (nonEmptyCount : ℕ) (best : Option T) (bestSize : BitVec 64) :
    QueuePc T E :=
  match ptrs with
  | [] => scoreEnd nonEmptyCount best
  | ptr :: next =>
      if nonEmptyCount < 3 then .scoreTail ptr next nonEmptyCount best bestSize
      else scoreEnd nonEmptyCount best

variable [DecidableEq T]

/-- concurrentqueue.h:1058, the second loop; at its end `try_dequeue` is called again. -/
def othersFrom (best : T) : List T → QueuePc T E
  | [] => .score
  | ptr :: next => if ptr = best then othersFrom best next else .inSub (.others best ptr next) .deqTail

/-- The sub-queue that is used at a site by thread `t`. -/
def Site.producer (t : T) : Site T → T
  | own => t
  | best b => b
  | others _ ptr _ => ptr

/-- A step between the calls. -/
def queueLocal (s : VsQueue T E) (t : T) (alloc : Bool) : QueuePc T E → Option (VsQueue T E × QueuePc T E)
  | .getProducer element =>
      if t ∈ s.producerListTail then some (s, .inSub .own (.enqTail element))
      else if alloc then
        some ({ s with producerListTail := t :: s.producerListTail }, .inSub .own (.enqTail element))
      else some (s, .enqueued false)
  | .inSub .own (.enqueued ret) => some (s, if ret then .signal (.signal 1) else .enqueued false)
  | .signal .signalled => some (s, .enqueued true)
  | .wait (.acquired n) => some (s, if n = 0 then .dequeued none else .score)
  | .score => some (s, scoreFrom s.producerListTail 0 none 0)
  | .scoreTail ptr next n best bestSize =>
      some (s, .scoreHead ptr next n best bestSize (s.sub ptr).tailIndex)
  | .scoreHead ptr next n best bestSize tail =>
      let size := sizeApprox tail (s.sub ptr).headIndex
      some (s,
        if 0 < size then
          if bestSize < size then scoreFrom next (n + 1) (some ptr) size
          else scoreFrom next (n + 1) best bestSize
        else scoreFrom next n best bestSize)
  | .inSub (.best _) (.dequeued (some e)) => some (s, .dequeued (some e))
  | .inSub (.best b) (.dequeued none) => some (s, othersFrom b s.producerListTail)
  | .inSub (.others _ _ _) (.dequeued (some e)) => some (s, .dequeued (some e))
  | .inSub (.others b _ next) (.dequeued none) => some (s, othersFrom b next)
  | _ => none

/-- One step of thread `t`; `ok` tells whether an allocation has memory, and whether a weak
    exchange does not fail without a reason. -/
def queueStep (s : VsQueue T E) (t : T) (ok : Bool) (q : QueuePc T E) :
    Option (VsQueue T E × QueuePc T E) :=
  match q with
  | .inSub site x =>
      match producerStep (s.sub (site.producer t)) ok x with
      | some r => some ({ s with sub := update s.sub (site.producer t) r.1 }, .inSub site r.2)
      | none => queueLocal s t ok q
  | .signal x =>
      match semaStep s.sema (!ok) x with
      | some r => some ({ s with sema := r.1 }, .signal r.2)
      | none => queueLocal s t ok q
  | .wait x =>
      match semaStep s.sema (!ok) x with
      | some r => some ({ s with sema := r.1 }, .wait r.2)
      | none => queueLocal s t ok q
  | _ => queueLocal s t ok q

/-! ## §2. The machine. -/

/-- The queue and its threads. -/
structure QueueState (T E : Type) where
  queue : VsQueue T E
  pc : T → QueuePc T E

/-- An action of thread `t`: `enqueue`, `wait_dequeue`, `try_dequeue`, the next step, or
    going on elsewhere. -/
inductive QueueAct (T E : Type) where
  | enqueue (t : T) (element : E)
  | waitDequeue (t : T)
  | tryDequeue (t : T)
  | go (t : T) (ok : Bool)
  | leave (t : T)
  deriving DecidableEq, Repr

/-- No call is in progress. -/
def QueuePc.free : QueuePc T E → Bool
  | elsewhere | enqueued _ | dequeued _ => true
  | _ => false

/-- A new call of thread `t`, or none. -/
def QueueState.call (s : QueueState T E) (t : T) (q : QueuePc T E) : Option (QueueState T E) :=
  if (s.pc t).free = true then some { s with pc := update s.pc t q } else none

/-- It begins between two calls. -/
theorem QueueState.call_cases {s s' : QueueState T E} {t : T} {q : QueuePc T E}
    (h : s.call t q = some s') :
    (s.pc t).free = true ∧ s' = { s with pc := update s.pc t q } := by
  simp only [QueueState.call, Option.ite_none_right_eq_some] at h
  exact ⟨h.1, (Option.some.inj h.2).symm⟩

def queueThreadStep (s : QueueState T E) : QueueAct T E → Option (QueueState T E)
  | .enqueue t element => s.call t (.getProducer element)
  | .waitDequeue t => s.call t (.wait .wait)
  | .tryDequeue t => s.call t (.wait .tryWait)
  | .go t ok => (queueStep s.queue t ok (s.pc t)).map fun r => ⟨r.1, update s.pc t r.2⟩
  | .leave t => s.call t .elsewhere

/-- blockingconcurrentqueue.h:351, the constructor. -/
def VsQueue.new (T E : Type) : VsQueue T E where
  sub _ := Producer.new E
  producerListTail := []
  sema := ⟨0, 0⟩

/-- vthreads.cpp:16, `vs_queue`. -/
def vsQueue : Machine (QueueState T E) (QueueAct T E) where
  init s := s = ⟨VsQueue.new T E, fun _ => .elsewhere⟩
  step := queueThreadStep

/-! ## §3. The parts. -/

/-- Where thread `t` is in the code of the sub-queue of thread `k`. -/
def QueuePc.inProducer (t k : T) : QueuePc T E → ProducerPc E
  | inSub site q => if site.producer t = k then q else .elsewhere
  | _ => .elsewhere

/-- Where a thread is in the code of the semaphore. -/
def QueuePc.inSema : QueuePc T E → SemaPc
  | signal q | wait q => q
  | _ => .elsewhere

/-- What a step between the calls does. -/
inductive Between (s : VsQueue T E) (t : T) : QueuePc T E → VsQueue T E → QueuePc T E → Prop
  | known e : t ∈ s.producerListTail → Between s t (.getProducer e) s (.inSub .own (.enqTail e))
  | added e : t ∉ s.producerListTail → Between s t (.getProducer e)
      { s with producerListTail := t :: s.producerListTail } (.inSub .own (.enqTail e))
  | noMemory e : Between s t (.getProducer e) s (.enqueued false)
  | published : Between s t (.inSub .own (.enqueued true)) s (.signal (.signal 1))
  | refused : Between s t (.inSub .own (.enqueued false)) s (.enqueued false)
  | signalled : Between s t (.signal .signalled) s (.enqueued true)
  | noPermit : Between s t (.wait (.acquired 0)) s (.dequeued none)
  | permit n : Between s t (.wait (.acquired (n + 1))) s .score
  | score : Between s t .score s (scoreFrom s.producerListTail 0 none 0)
  | tail ptr next n best bestSize : Between s t (.scoreTail ptr next n best bestSize) s
      (.scoreHead ptr next n best bestSize (s.sub ptr).tailIndex)
  | longer ptr next n best bestSize tail :
      bestSize < sizeApprox tail (s.sub ptr).headIndex →
      Between s t (.scoreHead ptr next n best bestSize tail) s
        (scoreFrom next (n + 1) (some ptr) (sizeApprox tail (s.sub ptr).headIndex))
  | shorter ptr next n best bestSize tail :
      0 < sizeApprox tail (s.sub ptr).headIndex → ¬bestSize < sizeApprox tail (s.sub ptr).headIndex →
      Between s t (.scoreHead ptr next n best bestSize tail) s (scoreFrom next (n + 1) best bestSize)
  | nothing ptr next n best bestSize tail : sizeApprox tail (s.sub ptr).headIndex = 0 →
      Between s t (.scoreHead ptr next n best bestSize tail) s (scoreFrom next n best bestSize)
  | foundBest b e : Between s t (.inSub (.best b) (.dequeued (some e))) s (.dequeued (some e))
  | noneBest b : Between s t (.inSub (.best b) (.dequeued none)) s (othersFrom b s.producerListTail)
  | foundOther b ptr next e :
      Between s t (.inSub (.others b ptr next) (.dequeued (some e))) s (.dequeued (some e))
  | noneOther b ptr next :
      Between s t (.inSub (.others b ptr next) (.dequeued none)) s (othersFrom b next)

/-- What a step does. -/
inductive QueueEffect (s : VsQueue T E) (t : T) : QueuePc T E → VsQueue T E → QueuePc T E → Prop
  | sub site x p' x' : Effect (s.sub (site.producer t)) x p' x' →
      QueueEffect s t (.inSub site x) { s with sub := update s.sub (site.producer t) p' }
        (.inSub site x')
  | signal x σ' x' spurious : semaStep s.sema spurious x = some (σ', x') →
      QueueEffect s t (.signal x) { s with sema := σ' } (.signal x')
  | wait x σ' x' spurious : semaStep s.sema spurious x = some (σ', x') →
      QueueEffect s t (.wait x) { s with sema := σ' } (.wait x')
  | between q s' q' : Between s t q s' q' → QueueEffect s t q s' q'

theorem queueLocal_between {s s' : VsQueue T E} {t : T} (alloc : Bool) {q q' : QueuePc T E}
    (h : queueLocal s t alloc q = some (s', q')) : Between s t q s' q' := by
  cases q with
  | getProducer e =>
      simp only [queueLocal] at h
      split at h
      case isTrue hmem =>
        obtain ⟨rfl, rfl⟩ := Prod.mk.inj (Option.some.inj h)
        exact .known e hmem
      case isFalse hmem =>
        split at h
        · obtain ⟨rfl, rfl⟩ := Prod.mk.inj (Option.some.inj h)
          exact .added e hmem
        · obtain ⟨rfl, rfl⟩ := Prod.mk.inj (Option.some.inj h)
          exact .noMemory e
  | inSub site x =>
      cases x with
      | enqueued ret =>
          cases site with
          | own =>
              obtain ⟨rfl, rfl⟩ := Prod.mk.inj (Option.some.inj h)
              cases ret with
              | true => exact .published
              | false => exact .refused
          | best | others => cases h
      | dequeued ret =>
          cases site with
          | own => cases h
          | best b =>
              cases ret with
              | none =>
                  obtain ⟨rfl, rfl⟩ := Prod.mk.inj (Option.some.inj h)
                  exact .noneBest b
              | some e =>
                  obtain ⟨rfl, rfl⟩ := Prod.mk.inj (Option.some.inj h)
                  exact .foundBest b e
          | others b ptr next =>
              cases ret with
              | none =>
                  obtain ⟨rfl, rfl⟩ := Prod.mk.inj (Option.some.inj h)
                  exact .noneOther b ptr next
              | some e =>
                  obtain ⟨rfl, rfl⟩ := Prod.mk.inj (Option.some.inj h)
                  exact .foundOther b ptr next e
      | _ => cases site <;> cases h
  | signal x =>
      cases x with
      | signalled =>
          obtain ⟨rfl, rfl⟩ := Prod.mk.inj (Option.some.inj h)
          exact .signalled
      | _ => cases h
  | wait x =>
      cases x with
      | acquired n =>
          obtain ⟨rfl, rfl⟩ := Prod.mk.inj (Option.some.inj h)
          cases n with
          | zero => exact .noPermit
          | succ n => exact .permit n
      | _ => cases h
  | score =>
      obtain ⟨rfl, rfl⟩ := Prod.mk.inj (Option.some.inj h)
      exact .score
  | scoreTail ptr next n best bestSize =>
      obtain ⟨rfl, rfl⟩ := Prod.mk.inj (Option.some.inj h)
      exact .tail ptr next n best bestSize
  | scoreHead ptr next n best bestSize tail =>
      obtain ⟨rfl, rfl⟩ := Prod.mk.inj (Option.some.inj h)
      split
      case isTrue hpos =>
        split
        case isTrue hlt => exact .longer ptr next n best bestSize tail hlt
        case isFalse hle => exact .shorter ptr next n best bestSize tail hpos hle
      case isFalse hzero =>
        exact .nothing ptr next n best bestSize tail (by simpa using hzero)
  | elsewhere | enqueued | dequeued | garbage => cases h

/-- **What a step does, and to which part.** -/
theorem queueStep_effect {s s' : VsQueue T E} {t : T} {ok : Bool} {q q' : QueuePc T E}
    (h : queueStep s t ok q = some (s', q')) : QueueEffect s t q s' q' := by
  cases q with
  | inSub site x =>
      simp only [queueStep] at h
      cases hsub : producerStep (s.sub (site.producer t)) ok x with
      | some r =>
          rw [hsub] at h
          obtain ⟨rfl, rfl⟩ := Prod.mk.inj (Option.some.inj h)
          exact .sub site x _ _ (producerStep_effect hsub)
      | none =>
          rw [hsub] at h
          exact .between _ _ _ (queueLocal_between ok h)
  | signal x =>
      simp only [queueStep] at h
      cases hsema : semaStep s.sema (!ok) x with
      | some r =>
          rw [hsema] at h
          obtain ⟨rfl, rfl⟩ := Prod.mk.inj (Option.some.inj h)
          exact .signal x _ _ _ hsema
      | none =>
          rw [hsema] at h
          exact .between _ _ _ (queueLocal_between ok h)
  | wait x =>
      simp only [queueStep] at h
      cases hsema : semaStep s.sema (!ok) x with
      | some r =>
          rw [hsema] at h
          obtain ⟨rfl, rfl⟩ := Prod.mk.inj (Option.some.inj h)
          exact .wait x _ _ _ hsema
      | none =>
          rw [hsema] at h
          exact .between _ _ _ (queueLocal_between ok h)
  | elsewhere | getProducer | enqueued | score | scoreTail | scoreHead | dequeued | garbage =>
      exact .between _ _ _ (queueLocal_between ok h)

end HThread.RunQueue
