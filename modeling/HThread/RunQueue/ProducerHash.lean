/-
  HThread.RunQueue.ProducerHash — how a thread finds its sub-queue.

  A thread that enqueues looks for its sub-queue in a hash table under its thread
  id.  When a table is half full the next one is made, twice as large at least; the
  old ones stay, linked through `prev`, and a thread that is found in an old table
  is put into the newest one too.  A thread that is in no table makes a sub-queue,
  adds it to the list that dequeuing threads go through, and puts itself into the
  table.

  Every access to a shared variable is one step of the machine `producerHash`.  A
  table is filled before it is published, so making it is one step with that.

  Thread ids are the threads themselves; `home` is `hash_thread_id`.
-/
import HThread.Interleave.Machine

namespace HThread.RunQueue

open Interleave
open Function (update)

/-- concurrentqueue.h:3226, `ImplicitProducerHash`; an empty slot has the key
    `invalid_thread_id`. -/
structure Hash (T : Type) where
  capacity : ℕ
  key : ℕ → Option T
  value : ℕ → Option ℕ
  prev : Option ℕ

/-- concurrentqueue.h:296, `INITIAL_IMPLICIT_PRODUCER_HASH_SIZE`. -/
def initialHashSize : ℕ := 32

/-- Program points of `get_or_add_implicit_producer` and `add_producer`. -/
inductive HashPc where
  | elsewhere
  /-- concurrentqueue.h:3302, the load of `implicitProducerHash`. -/
  | loadMain
  /-- concurrentqueue.h:3309, the load of a key, in table `hash`. -/
  | probe (main hash index : ℕ)
  /-- concurrentqueue.h:3316, the load of the value. -/
  | readValue (main hash index : ℕ)
  /-- concurrentqueue.h:3347, `fetch_add`. -/
  | count (main : ℕ)
  /-- concurrentqueue.h:3349, `test_and_set`. -/
  | lock (main newCount : ℕ)
  /-- concurrentqueue.h:3354, the load of `implicitProducerHash`. -/
  | reload (newCount : ℕ)
  /-- concurrentqueue.h:3356, a table is made and published. -/
  | grow (main newCount : ℕ)
  /-- concurrentqueue.h:3377 and 3381, `clear`. -/
  | unlock (main newCount : ℕ)
  /-- concurrentqueue.h:3363, `fetch_add(-1)`. -/
  | uncountGrow
  /-- concurrentqueue.h:3364, `clear`. -/
  | unlockFail
  /-- concurrentqueue.h:3429, the load of `implicitProducerHash`. -/
  | wait (newCount : ℕ)
  /-- concurrentqueue.h:3390, `create<ImplicitProducer>`. -/
  | create (main newCount : ℕ)
  /-- concurrentqueue.h:3392, `fetch_add(-1)`. -/
  | uncount
  /-- concurrentqueue.h:3157, the load of `producerListTail`. -/
  | pushTail (main producer : ℕ)
  /-- concurrentqueue.h:3159, the store of `next`. -/
  | pushLink (main producer : ℕ) (prevTail : Option ℕ)
  /-- concurrentqueue.h:3160, the exchange. -/
  | pushCas (main producer : ℕ) (prevTail : Option ℕ)
  /-- concurrentqueue.h:3321 and 3408, the load of a key. -/
  | insProbe (main : ℕ) (value : Option ℕ) (index : ℕ)
  /-- concurrentqueue.h:3328 and 3416, the exchange of the key. -/
  | insCas (main : ℕ) (value : Option ℕ) (index : ℕ)
  /-- concurrentqueue.h:3330 and 3418, the store of the value. -/
  | insStore (main : ℕ) (value : Option ℕ) (index : ℕ)
  | got (producer : Option ℕ)
  deriving DecidableEq, Repr

/-- The tables and the list of the sub-queues; `producers` counts those that have
    been made.  History: the number that a thread has drawn from
    `implicitProducerHashCount` and not given back, the sub-queue it has made, and
    what its calls have returned. -/
structure HashState (T : Type) where
  hashes : ℕ → Hash T
  made : ℕ
  implicitProducerHash : ℕ
  implicitProducerHashCount : ℕ
  resizeInProgress : Bool
  producerListTail : Option ℕ
  next : ℕ → Option ℕ
  producers : ℕ
  pc : T → HashPc
  number : T → Option ℕ
  own : T → Option ℕ
  returned : T → List ℕ

/-- `while (newCount >= (newCapacity >> 1)) newCapacity <<= 1`. -/
def growCapacity (newCount newCapacity : ℕ) : ℕ :=
  if 0 < newCapacity ∧ newCapacity / 2 ≤ newCount then growCapacity newCount (2 * newCapacity)
  else newCapacity
termination_by 2 * newCount + 2 - newCapacity
decreasing_by omega

/-- `newCount < (capacity >> 1) + (capacity >> 2)`. -/
def Hash.room {T : Type} (h : Hash T) : ℕ := h.capacity / 2 + h.capacity / 4

/-- `index &= capacity - 1`. -/
def Hash.slotOf {T : Type} (h : Hash T) (index : ℕ) : ℕ := index &&& (h.capacity - 1)

variable {T : Type} [DecidableEq T]

/-- A table that nobody is in. -/
def Hash.new (T : Type) (capacity : ℕ) (prev : Option ℕ) : Hash T where
  capacity := capacity
  key _ := none
  value _ := none
  prev := prev

def HashState.goto (s : HashState T) (t : T) (p : HashPc) : HashState T :=
  { s with pc := update s.pc t p }

/-- concurrentqueue.h:3388: there is room for the thread, or it waits for the next table. -/
def HashState.afterLock (s : HashState T) (main newCount : ℕ) : HashPc :=
  if newCount < (s.hashes main).room then .create main newCount else .wait newCount

def Hash.setKey (h : Hash T) (i : ℕ) (t : T) : Hash T := { h with key := update h.key i (some t) }

def Hash.setValue (h : Hash T) (i : ℕ) (v : Option ℕ) : Hash T :=
  { h with value := update h.value i v }

/-- Table `h` is changed. -/
def HashState.store (s : HashState T) (h : ℕ) (x : Hash T) : HashState T :=
  { s with hashes := update s.hashes h x }

/-- concurrentqueue.h:3302, the search through the tables. -/
def search (home : T → ℕ) (s : HashState T) (t : T) : HashPc → Option (HashState T)
  | .loadMain =>
      some (s.goto t (.probe s.implicitProducerHash s.implicitProducerHash (home t)))
  | .probe main hash index =>
      let slot := (s.hashes hash).slotOf index
      some (s.goto t (match (s.hashes hash).key slot with
        | some u => if u = t then .readValue main hash slot else .probe main hash (slot + 1)
        | none => match (s.hashes hash).prev with
          | some prev => .probe main prev (home t)
          | none => .count main))
  | .readValue main hash index =>
      some (s.goto t (if hash = main then .got ((s.hashes hash).value index)
        else .insProbe main ((s.hashes hash).value index) (home t)))
  | _ => none

/-- concurrentqueue.h:3347, the number of the thread and a new table, if it is time for one. -/
def resize (s : HashState T) (t : T) (alloc : Bool) : HashPc → Option (HashState T)
  | .count main =>
      some ({ s with
        implicitProducerHashCount := s.implicitProducerHashCount + 1
        number := update s.number t (some (s.implicitProducerHashCount + 1)) }.goto t
          (.lock main (s.implicitProducerHashCount + 1)))
  | .lock main newCount =>
      -- `test_and_set` of a flag that is set changes nothing
      if (s.hashes main).capacity / 2 ≤ newCount ∧ s.resizeInProgress = false then
        some ({ s with resizeInProgress := true }.goto t (.reload newCount))
      else some (s.goto t (s.afterLock main newCount))
  | .reload newCount =>
      some (s.goto t (if (s.hashes s.implicitProducerHash).capacity / 2 ≤ newCount then
        .grow s.implicitProducerHash newCount else .unlock s.implicitProducerHash newCount))
  | .grow main newCount =>
      if alloc = true then
        some ({ s with
          hashes := update s.hashes s.made
            (.new T (growCapacity newCount (2 * (s.hashes main).capacity)) (some main))
          made := s.made + 1
          implicitProducerHash := s.made }.goto t (.unlock s.made newCount))
      else some (s.goto t .uncountGrow)
  | .unlock main newCount =>
      some ({ s with resizeInProgress := false }.goto t (s.afterLock main newCount))
  | .uncountGrow =>
      some ({ s with
        implicitProducerHashCount := s.implicitProducerHashCount - 1
        number := update s.number t none }.goto t .unlockFail)
  | .unlockFail => some ({ s with resizeInProgress := false }.goto t (.got none))
  | .wait newCount => some (s.goto t (.lock s.implicitProducerHash newCount))
  | _ => none

/-- concurrentqueue.h:3126 and 3147, a new sub-queue; `ok` tells whether there is memory,
    or whether the weak exchange fails without a reason. -/
def addProducer (home : T → ℕ) (s : HashState T) (t : T) (ok : Bool) :
    HashPc → Option (HashState T)
  | .create main _ =>
      if ok = true then
        some ({ s with
          producers := s.producers + 1
          own := update s.own t (some s.producers) }.goto t (.pushTail main s.producers))
      else some (s.goto t .uncount)
  | .uncount =>
      some ({ s with
        implicitProducerHashCount := s.implicitProducerHashCount - 1
        number := update s.number t none }.goto t (.got none))
  | .pushTail main producer => some (s.goto t (.pushLink main producer s.producerListTail))
  | .pushLink main producer prevTail =>
      some ({ s with next := update s.next producer prevTail }.goto t
        (.pushCas main producer prevTail))
  | .pushCas main producer prevTail =>
      -- a failed exchange loads the tail, and `next` is stored again
      if s.producerListTail = prevTail ∧ ok = true then
        some ({ s with producerListTail := some producer }.goto t
          (.insProbe main (some producer) (home t)))
      else some (s.goto t (.pushLink main producer s.producerListTail))
  | _ => none

/-- concurrentqueue.h:3318 and 3405, the thread is put into table `main`. -/
def insertKey (s : HashState T) (t : T) : HashPc → Option (HashState T)
  | .insProbe main value index =>
      let slot := (s.hashes main).slotOf index
      some (s.goto t (if (s.hashes main).key slot = none then .insCas main value slot
        else .insProbe main value (slot + 1)))
  | .insCas main value index =>
      if (s.hashes main).key index = none then
        some ((s.store main ((s.hashes main).setKey index t)).goto t (.insStore main value index))
      else some (s.goto t (.insProbe main value (index + 1)))
  | .insStore main value index =>
      some ((s.store main ((s.hashes main).setValue index value)).goto t (.got value))
  | _ => none

/-- An action of thread `t`: call the function, take the next step, or go off with the
    sub-queue. -/
inductive HashAct (T : Type) where
  | call (t : T)
  | go (t : T) (ok : Bool)
  | leave (t : T)
  deriving DecidableEq, Repr

def hashStep (home : T → ℕ) (s : HashState T) : HashAct T → Option (HashState T)
  | .call t => if s.pc t = .elsewhere then some (s.goto t .loadMain) else none
  | .go t ok =>
      match s.pc t with
      | .loadMain => search home s t .loadMain
      | .probe main hash index => search home s t (.probe main hash index)
      | .readValue main hash index => search home s t (.readValue main hash index)
      | .create main newCount => addProducer home s t ok (.create main newCount)
      | .uncount => addProducer home s t ok .uncount
      | .pushTail main producer => addProducer home s t ok (.pushTail main producer)
      | .pushLink main producer prevTail => addProducer home s t ok (.pushLink main producer prevTail)
      | .pushCas main producer prevTail => addProducer home s t ok (.pushCas main producer prevTail)
      | .insProbe main value index => insertKey s t (.insProbe main value index)
      | .insCas main value index => insertKey s t (.insCas main value index)
      | .insStore main value index => insertKey s t (.insStore main value index)
      | p => resize s t ok p
  | .leave t =>
      match s.pc t with
      | .got none => some (s.goto t .elsewhere)
      | .got (some p) =>
          some ({ s with returned := update s.returned t (p :: s.returned t) }.goto t .elsewhere)
      | _ => none

/-- concurrentqueue.h:3233, `populate_initial_implicit_producer_hash`. -/
def HashState.new (T : Type) : HashState T where
  hashes _ := .new T initialHashSize none
  made := 1
  implicitProducerHash := 0
  implicitProducerHashCount := 0
  resizeInProgress := false
  producerListTail := none
  next _ := none
  producers := 0
  pc _ := .elsewhere
  number _ := none
  own _ := none
  returned _ := []

/-- A new queue and the threads that enqueue. -/
def producerHash (home : T → ℕ) : Machine (HashState T) (HashAct T) where
  init s := s = .new T
  step := hashStep home

end HThread.RunQueue
