/-
  HThread.RunQueue.Producer — the sub-queue of one enqueuing thread.

  `vs_queue` is a collection of sub-queues (`ImplicitProducer` of
  concurrentqueue.h), one for each thread that enqueues.  Only that thread, the
  owner, adds elements; every thread takes them out.  An index is claimed in two
  rounds: a thread draws a number from `dequeueOptimisticCount`, compares it
  with `tailIndex`, and takes an index from `headIndex` or, if it drew too high,
  counts itself in `dequeueOvercommit`.

  The indices are words of 64 bits; the state has the numbers they are the words
  of.  Elements lie in blocks of 32.  Blocks are numbered in the order in which
  they are started, and `blockIndex` has those that are in use: a map stands for
  the ring of index entries.  Every access to one of the four counters is one
  step; so are starting a block, moving an element out and giving a block back,
  each with its accesses to the index.

  Key lemmas:
    * `circularLessThan_word` — the comparison of indices, below 2 ^ 63.
    * `producerStep_effect`   — what one step does.
-/
import Mathlib.Data.Finset.Basic
import Mathlib.Logic.Function.Basic
import HThread.Interleave.Machine

namespace HThread.RunQueue

open Interleave
open Function (update)

/-! ## §1. The code. -/

/-- concurrentqueue.h:399, `circular_less_than` at `index_t`. -/
def circularLessThan (a b : BitVec 64) : Bool := (1#64 <<< 63).ult (a - b)

/-- The word of an index. -/
def word (n : ℕ) : BitVec 64 := .ofNat 64 n

/-- concurrentqueue.h:275, `BLOCK_SIZE`. -/
def blockSize : ℕ := 32

/-- concurrentqueue.h:1465, `Block`. -/
structure Block (E : Type) where
  slot : ℕ → Option E
  elementsCompletelyDequeued : ℕ

/-- concurrentqueue.h:1617, `ProducerBase`, with the blocks in the block index.
    History: the elements in the order of `enqueue`; the numbers that were drawn and
    found good (`wins`) or too high (`losses`), those of them that went on to
    `headIndex` (`claimed`) or `dequeueOvercommit` (`returned`); the indices whose
    element has been moved out (`moved`) and counted in its block (`finished`), and
    the blocks given back. -/
structure Producer (E : Type) where
  tailIndex : ℕ
  headIndex : ℕ
  dequeueOptimisticCount : ℕ
  dequeueOvercommit : ℕ
  tailBlock : Option ℕ
  blockIndex : ℕ → Option (Block E)
  log : List E
  wins : Finset ℕ
  losses : Finset ℕ
  claimed : Finset ℕ
  returned : Finset ℕ
  moved : Finset ℕ
  finished : Finset ℕ
  released : Finset ℕ

/-- Program points of `enqueue` and `dequeue`. -/
inductive ProducerPc (E : Type) where
  /-- Not in the code of this sub-queue. -/
  | elsewhere
  /-- concurrentqueue.h:2402, the load of `tailIndex`, and the test for a full block. -/
  | enqTail (element : E)
  /-- concurrentqueue.h:2406, a new block. -/
  | enqBlock (element : E) (currentTailIndex : ℕ)
  /-- concurrentqueue.h:2457, the element is constructed in its slot. -/
  | enqConstruct (element : E) (currentTailIndex : ℕ)
  /-- concurrentqueue.h:2459, the store to `tailIndex`. -/
  | enqPublish (element : E) (currentTailIndex : ℕ)
  | enqueued (ret : Bool)
  /-- concurrentqueue.h:2467, the load of `tailIndex`. -/
  | deqTail
  /-- concurrentqueue.h:2468, the load of `dequeueOvercommit`. -/
  | deqOvercommit (tail : ℕ)
  /-- concurrentqueue.h:2469, the load of `dequeueOptimisticCount`, and the first test. -/
  | deqTest (tail overcommit : ℕ)
  /-- concurrentqueue.h:2472, `dequeueOptimisticCount.fetch_add`. -/
  | deqCount (overcommit : ℕ)
  /-- concurrentqueue.h:2474, `tailIndex` again, and the second test. -/
  | deqRetest (overcommit myDequeueCount : ℕ)
  /-- concurrentqueue.h:2476, `headIndex.fetch_add`. -/
  | deqHead (myDequeueCount : ℕ)
  /-- concurrentqueue.h:2528, `dequeueOvercommit.fetch_add`. -/
  | deqGiveUp (myDequeueCount : ℕ)
  /-- concurrentqueue.h:2510, the element is moved out and destroyed. -/
  | deqMove (index : ℕ)
  /-- concurrentqueue.h:2513, `set_empty`. -/
  | deqSetEmpty (index : ℕ) (element : E)
  /-- concurrentqueue.h:2519, the block goes back to the pool. -/
  | deqRelease (index : ℕ) (element : E)
  | dequeued (ret : Option E)
  /-- A slot or a block was used that is not there. -/
  | garbage
  deriving DecidableEq, Repr

/-- concurrentqueue.h:1619, the constructor. -/
def Producer.new (E : Type) : Producer E where
  tailIndex := 0
  headIndex := 0
  dequeueOptimisticCount := 0
  dequeueOvercommit := 0
  tailBlock := none
  blockIndex _ := none
  log := []
  wins := ∅
  losses := ∅
  claimed := ∅
  returned := ∅
  moved := ∅
  finished := ∅
  released := ∅

/-- A block from the pool, after `reset_empty`. -/
def Block.empty (E : Type) : Block E where
  slot _ := none
  elementsCompletelyDequeued := 0

variable {E : Type}

/-- The slot of an index, if its block is in use. -/
def Producer.slotAt (p : Producer E) (index : ℕ) : Option E :=
  (p.blockIndex (index / blockSize)).bind fun b => b.slot (index % blockSize)

/-- Block `k` becomes `b`. -/
def Producer.setBlock (p : Producer E) (k : ℕ) (b : Option (Block E)) : Producer E :=
  { p with blockIndex := update p.blockIndex k b }

/-- The slot `offset` of a block becomes `r`. -/
def Block.put (b : Block E) (offset : ℕ) (r : Option E) : Block E :=
  { b with slot := update b.slot offset r }

/-- concurrentqueue.h:2400, `ImplicitProducer::enqueue`.  `alloc` tells whether there
    is room in the block index and a block in the pool, or memory for them. -/
def enqueue (p : Producer E) (alloc : Bool) : ProducerPc E → Option (Producer E × ProducerPc E)
  | .enqTail element =>
      some (p, if word p.tailIndex &&& word (blockSize - 1) = 0 then .enqBlock element p.tailIndex
        else .enqConstruct element p.tailIndex)
  | .enqBlock element tail =>
      if !circularLessThan (word p.headIndex) (word tail + word blockSize) || !alloc then
        some (p, .enqueued false)
      else
        some ({ p.setBlock (tail / blockSize) (some (Block.empty E)) with
          tailBlock := some (tail / blockSize) }, .enqConstruct element tail)
  | .enqConstruct element tail =>
      match p.tailBlock with
      | none => some (p, .garbage)
      | some k =>
          match p.blockIndex k with
          | none => some (p, .garbage)
          | some b =>
              some (p.setBlock k (some (b.put (tail % blockSize) (some element))),
                .enqPublish element tail)
  | .enqPublish element tail =>
      some ({ p with
        tailIndex := 1 + tail
        log := p.log ++ [element] }, .enqueued true)
  | _ => none

/-- concurrentqueue.h:2464, `ImplicitProducer::dequeue`. -/
def dequeue (p : Producer E) : ProducerPc E → Option (Producer E × ProducerPc E)
  | .deqTail => some (p, .deqOvercommit p.tailIndex)
  | .deqOvercommit tail => some (p, .deqTest tail p.dequeueOvercommit)
  | .deqTest tail overcommit =>
      some (p, if circularLessThan (word p.dequeueOptimisticCount - word overcommit) (word tail) then
        .deqCount overcommit else .dequeued none)
  | .deqCount overcommit =>
      some ({ p with dequeueOptimisticCount := p.dequeueOptimisticCount + 1 },
        .deqRetest overcommit p.dequeueOptimisticCount)
  | .deqRetest overcommit myDequeueCount =>
      if circularLessThan (word myDequeueCount - word overcommit) (word p.tailIndex) then
        some ({ p with wins := insert myDequeueCount p.wins }, .deqHead myDequeueCount)
      else
        some ({ p with losses := insert myDequeueCount p.losses }, .deqGiveUp myDequeueCount)
  | .deqHead myDequeueCount =>
      some ({ p with
        headIndex := p.headIndex + 1
        claimed := insert myDequeueCount p.claimed }, .deqMove p.headIndex)
  | .deqGiveUp myDequeueCount =>
      some ({ p with
        dequeueOvercommit := p.dequeueOvercommit + 1
        returned := insert myDequeueCount p.returned }, .dequeued none)
  | .deqMove index =>
      match p.blockIndex (index / blockSize) with
      | none => some (p, .garbage)
      | some b =>
          match b.slot (index % blockSize) with
          | none => some (p, .garbage)
          | some element =>
              some ({ p.setBlock (index / blockSize) (some (b.put (index % blockSize) none)) with
                moved := insert index p.moved }, .deqSetEmpty index element)
  | .deqSetEmpty index element =>
      match p.blockIndex (index / blockSize) with
      | none => some (p, .garbage)
      | some b =>
          some ({ p.setBlock (index / blockSize)
              (some { b with elementsCompletelyDequeued := b.elementsCompletelyDequeued + 1 }) with
            finished := insert index p.finished },
            if b.elementsCompletelyDequeued = blockSize - 1 then .deqRelease index element
            else .dequeued (some element))
  | .deqRelease index element =>
      some ({ p.setBlock (index / blockSize) none with
        released := insert (index / blockSize) p.released }, .dequeued (some element))
  | _ => none

/-- One step in the code of the sub-queue. -/
def producerStep (p : Producer E) (alloc : Bool) (q : ProducerPc E) :
    Option (Producer E × ProducerPc E) :=
  match enqueue p alloc q with
  | some r => some r
  | none => dequeue p q

/-- A sub-queue and the threads that use it. -/
structure ProducerState (T E : Type) where
  prod : Producer E
  pc : T → ProducerPc E

/-- An action of thread `t`: call `enqueue` or `dequeue`, take the next step (with
    the outcome of an allocation), or go on elsewhere after a call. -/
inductive ProducerAct (T E : Type) where
  | enqueue (t : T) (element : E)
  | dequeue (t : T)
  | go (t : T) (alloc : Bool)
  | leave (t : T)
  deriving DecidableEq, Repr

variable {T : Type} [DecidableEq T]

/-- No call is in progress. -/
def ProducerPc.free : ProducerPc E → Bool
  | elsewhere | enqueued _ | dequeued _ => true
  | _ => false

/-- One step of one thread.  Only the owner calls `enqueue`. -/
def threadStep (owner : T) (s : ProducerState T E) : ProducerAct T E → Option (ProducerState T E)
  | .enqueue t element =>
      if t = owner ∧ (s.pc t).free = true then
        some { s with pc := update s.pc t (.enqTail element) }
      else none
  | .dequeue t =>
      if (s.pc t).free = true then some { s with pc := update s.pc t .deqTail } else none
  | .go t alloc =>
      (producerStep s.prod alloc (s.pc t)).map fun r => ⟨r.1, update s.pc t r.2⟩
  | .leave t =>
      if (s.pc t).free = true then some { s with pc := update s.pc t .elsewhere } else none

/-- The sub-queue of thread `owner`. -/
def subQueue (owner : T) : Machine (ProducerState T E) (ProducerAct T E) where
  init s := s = ⟨Producer.new E, fun _ => .elsewhere⟩
  step := threadStep owner

/-! ## §2. Words of indices. -/

/-- Among numbers below 2 ^ 63 the comparison is that of the numbers. -/
theorem circularLessThan_word {a b : ℕ} (ha : a < 2 ^ 63) (hb : b < 2 ^ 63) :
    circularLessThan (word a) (word b) = decide (a < b) := by
  have hhalf : (1#64 <<< 63).toNat = 2 ^ 63 := rfl
  unfold circularLessThan word
  rw [BitVec.ult, hhalf, BitVec.toNat_sub, BitVec.toNat_ofNat, BitVec.toNat_ofNat]
  apply decide_eq_decide.mpr
  omega

theorem word_sub {a b : ℕ} (h : b ≤ a) : word a - word b = word (a - b) := by
  apply BitVec.eq_of_toNat_eq
  simp only [word, BitVec.toNat_sub, BitVec.toNat_ofNat]
  omega

/-- The low bits of an index are its place in its block. -/
theorem word_mask (n : ℕ) : word n &&& word (blockSize - 1) = 0 ↔ n % blockSize = 0 := by
  have hmask : (word n &&& word (blockSize - 1)).toNat = n % blockSize := by
    have hone : (word (blockSize - 1)).toNat = 2 ^ 5 - 1 := rfl
    rw [BitVec.toNat_and, hone, Nat.and_two_pow_sub_one_eq_mod, word, BitVec.toNat_ofNat]
    show n % 2 ^ 64 % 2 ^ 5 = n % 32
    omega
  constructor
  · intro h
    rw [← hmask, h]
    rfl
  · intro h
    apply BitVec.eq_of_toNat_eq
    rw [hmask, h]
    rfl

/-! ## §3. The steps. -/

/-- What one step in the code of a sub-queue does. -/
inductive Effect (p : Producer E) : ProducerPc E → Producer E → ProducerPc E → Prop
  | full e : p.tailIndex % blockSize = 0 → Effect p (.enqTail e) p (.enqBlock e p.tailIndex)
  | room e : p.tailIndex % blockSize ≠ 0 → Effect p (.enqTail e) p (.enqConstruct e p.tailIndex)
  | refuse e tail : Effect p (.enqBlock e tail) p (.enqueued false)
  | start e tail : Effect p (.enqBlock e tail)
      { p.setBlock (tail / blockSize) (some (Block.empty E)) with
        tailBlock := some (tail / blockSize) } (.enqConstruct e tail)
  | noTail e tail : p.tailBlock.bind p.blockIndex = none → Effect p (.enqConstruct e tail) p .garbage
  | construct e tail k b : p.tailBlock = some k → p.blockIndex k = some b →
      Effect p (.enqConstruct e tail)
        (p.setBlock k (some (b.put (tail % blockSize) (some e)))) (.enqPublish e tail)
  | publish e tail : Effect p (.enqPublish e tail)
      { p with
        tailIndex := 1 + tail
        log := p.log ++ [e] } (.enqueued true)
  | tail : Effect p .deqTail p (.deqOvercommit p.tailIndex)
  | overcommit tail : Effect p (.deqOvercommit tail) p (.deqTest tail p.dequeueOvercommit)
  | trying tail overcommit :
      circularLessThan (word p.dequeueOptimisticCount - word overcommit) (word tail) = true →
      Effect p (.deqTest tail overcommit) p (.deqCount overcommit)
  | empty tail overcommit :
      circularLessThan (word p.dequeueOptimisticCount - word overcommit) (word tail) = false →
      Effect p (.deqTest tail overcommit) p (.dequeued none)
  | count overcommit : Effect p (.deqCount overcommit)
      { p with dequeueOptimisticCount := p.dequeueOptimisticCount + 1 }
      (.deqRetest overcommit p.dequeueOptimisticCount)
  | win overcommit c : circularLessThan (word c - word overcommit) (word p.tailIndex) = true →
      Effect p (.deqRetest overcommit c) { p with wins := insert c p.wins } (.deqHead c)
  | lose overcommit c : circularLessThan (word c - word overcommit) (word p.tailIndex) = false →
      Effect p (.deqRetest overcommit c) { p with losses := insert c p.losses } (.deqGiveUp c)
  | head c : Effect p (.deqHead c)
      { p with
        headIndex := p.headIndex + 1
        claimed := insert c p.claimed } (.deqMove p.headIndex)
  | giveUp c : Effect p (.deqGiveUp c)
      { p with
        dequeueOvercommit := p.dequeueOvercommit + 1
        returned := insert c p.returned } (.dequeued none)
  | noSlot i : p.slotAt i = none → Effect p (.deqMove i) p .garbage
  | move i b e : p.blockIndex (i / blockSize) = some b → b.slot (i % blockSize) = some e →
      Effect p (.deqMove i)
        { p.setBlock (i / blockSize) (some (b.put (i % blockSize) none)) with
          moved := insert i p.moved } (.deqSetEmpty i e)
  | noBlock i e : p.blockIndex (i / blockSize) = none → Effect p (.deqSetEmpty i e) p .garbage
  | setEmpty i e b : p.blockIndex (i / blockSize) = some b →
      Effect p (.deqSetEmpty i e)
        { p.setBlock (i / blockSize)
            (some { b with elementsCompletelyDequeued := b.elementsCompletelyDequeued + 1 }) with
          finished := insert i p.finished }
        (if b.elementsCompletelyDequeued = blockSize - 1 then .deqRelease i e else .dequeued (some e))
  | release i e : Effect p (.deqRelease i e)
      { p.setBlock (i / blockSize) none with released := insert (i / blockSize) p.released }
      (.dequeued (some e))

theorem enqueue_effect {p p' : Producer E} {alloc : Bool} {q q' : ProducerPc E}
    (h : enqueue p alloc q = some (p', q')) : Effect p q p' q' := by
  cases q with
  | enqTail e =>
      obtain ⟨rfl, rfl⟩ := Prod.mk.inj (Option.some.inj h)
      by_cases hfull : word p.tailIndex &&& word (blockSize - 1) = 0
      · rw [if_pos hfull]
        exact .full e ((word_mask _).mp hfull)
      · rw [if_neg hfull]
        exact .room e fun hz => hfull ((word_mask _).mpr hz)
  | enqBlock e tail =>
      simp only [enqueue] at h
      by_cases hno : (!circularLessThan (word p.headIndex) (word tail + word blockSize) || !alloc) = true
      · rw [if_pos hno] at h
        obtain ⟨rfl, rfl⟩ := Prod.mk.inj (Option.some.inj h)
        exact .refuse e tail
      · rw [if_neg hno] at h
        obtain ⟨rfl, rfl⟩ := Prod.mk.inj (Option.some.inj h)
        exact .start e tail
  | enqConstruct e tail =>
      cases hk : p.tailBlock with
      | none =>
          simp only [enqueue, hk] at h
          obtain ⟨rfl, rfl⟩ := Prod.mk.inj (Option.some.inj h)
          exact .noTail e tail (by rw [hk]; rfl)
      | some k =>
          cases hb : p.blockIndex k with
          | none =>
              simp only [enqueue, hk, hb] at h
              obtain ⟨rfl, rfl⟩ := Prod.mk.inj (Option.some.inj h)
              exact .noTail e tail (by rw [hk]; exact hb)
          | some b =>
              simp only [enqueue, hk, hb] at h
              obtain ⟨rfl, rfl⟩ := Prod.mk.inj (Option.some.inj h)
              exact .construct e tail k b hk hb
  | enqPublish e tail =>
      obtain ⟨rfl, rfl⟩ := Prod.mk.inj (Option.some.inj h)
      exact .publish e tail
  | elsewhere | enqueued | deqTail | deqOvercommit | deqTest | deqCount | deqRetest | deqHead
  | deqGiveUp | deqMove | deqSetEmpty | deqRelease | dequeued | garbage => cases h

theorem dequeue_effect {p p' : Producer E} {q q' : ProducerPc E}
    (h : dequeue p q = some (p', q')) : Effect p q p' q' := by
  cases q with
  | deqTail =>
      obtain ⟨rfl, rfl⟩ := Prod.mk.inj (Option.some.inj h)
      exact .tail
  | deqOvercommit tail =>
      obtain ⟨rfl, rfl⟩ := Prod.mk.inj (Option.some.inj h)
      exact .overcommit tail
  | deqTest tail overcommit =>
      obtain ⟨rfl, rfl⟩ := Prod.mk.inj (Option.some.inj h)
      cases htest : circularLessThan (word p.dequeueOptimisticCount - word overcommit) (word tail) with
      | true => exact .trying tail overcommit htest
      | false => exact .empty tail overcommit htest
  | deqCount overcommit =>
      obtain ⟨rfl, rfl⟩ := Prod.mk.inj (Option.some.inj h)
      exact .count overcommit
  | deqRetest overcommit c =>
      simp only [dequeue] at h
      cases htest : circularLessThan (word c - word overcommit) (word p.tailIndex) with
      | true =>
          rw [if_pos htest] at h
          obtain ⟨rfl, rfl⟩ := Prod.mk.inj (Option.some.inj h)
          exact .win overcommit c htest
      | false =>
          rw [if_neg (by rw [htest]; simp)] at h
          obtain ⟨rfl, rfl⟩ := Prod.mk.inj (Option.some.inj h)
          exact .lose overcommit c htest
  | deqHead c =>
      obtain ⟨rfl, rfl⟩ := Prod.mk.inj (Option.some.inj h)
      exact .head c
  | deqGiveUp c =>
      obtain ⟨rfl, rfl⟩ := Prod.mk.inj (Option.some.inj h)
      exact .giveUp c
  | deqMove i =>
      cases hb : p.blockIndex (i / blockSize) with
      | none =>
          simp only [dequeue, hb] at h
          obtain ⟨rfl, rfl⟩ := Prod.mk.inj (Option.some.inj h)
          exact .noSlot i (by rw [Producer.slotAt, hb]; rfl)
      | some b =>
          cases he : b.slot (i % blockSize) with
          | none =>
              simp only [dequeue, hb, he] at h
              obtain ⟨rfl, rfl⟩ := Prod.mk.inj (Option.some.inj h)
              exact .noSlot i (by rw [Producer.slotAt, hb]; exact he)
          | some e =>
              simp only [dequeue, hb, he] at h
              obtain ⟨rfl, rfl⟩ := Prod.mk.inj (Option.some.inj h)
              exact .move i b e hb he
  | deqSetEmpty i e =>
      cases hb : p.blockIndex (i / blockSize) with
      | none =>
          simp only [dequeue, hb] at h
          obtain ⟨rfl, rfl⟩ := Prod.mk.inj (Option.some.inj h)
          exact .noBlock i e hb
      | some b =>
          simp only [dequeue, hb] at h
          obtain ⟨rfl, rfl⟩ := Prod.mk.inj (Option.some.inj h)
          exact .setEmpty i e b hb
  | deqRelease i e =>
      obtain ⟨rfl, rfl⟩ := Prod.mk.inj (Option.some.inj h)
      exact .release i e
  | elsewhere | enqTail | enqBlock | enqConstruct | enqPublish | enqueued | dequeued | garbage =>
      cases h

theorem producerStep_effect {p p' : Producer E} {alloc : Bool} {q q' : ProducerPc E}
    (h : producerStep p alloc q = some (p', q')) : Effect p q p' q' := by
  unfold producerStep at h
  cases henq : enqueue p alloc q with
  | some r =>
      rw [henq] at h
      obtain rfl := Option.some.inj h
      exact enqueue_effect henq
  | none =>
      rw [henq] at h
      exact dequeue_effect h

end HThread.RunQueue
