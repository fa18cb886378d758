/-
  HThread.RunQueue.FreeList — the blocks of the sub-queues, and where they come from.

  A sub-queue that needs a block asks `requisition_block`: first the array that the
  constructor has allocated, then the list of blocks that are not used any more,
  last the allocator.  A block whose elements are all dequeued goes to that list.

  The list is linked through its nodes, and taking the first one compares nothing
  but the head.  What saves it is a count in each node: whoever reads a node's
  successor has raised the count before, which is possible only while it is not
  zero; and a node goes to the list only when its count is zero.  A node that is to
  be added while somebody still looks at it gets a mark, and the one that drops the
  count to zero adds it.

  Every access to a shared variable is one step of the machine `blockPool`.
-/
import HThread.Interleave.Machine

namespace HThread.RunQueue

open Interleave
open Function (update)

/-! ## §1. The list. -/

/-- concurrentqueue.h:1450, `REFS_MASK`. -/
def refsMask : BitVec 32 := 0x7FFFFFFF

/-- concurrentqueue.h:1451, `SHOULD_BE_ON_FREELIST`. -/
def shouldBeOnFreelist : BitVec 32 := 0x80000000

/-- concurrentqueue.h:1356, `FreeList`, with the fields of its nodes (1344). -/
structure FreeList (N : Type) where
  freeListHead : Option N
  freeListNext : N → Option N
  freeListRefs : N → BitVec 32

/-- What `add_knowing_refcount_is_zero` is followed by: the end of `add`, or the
    loop of `try_get` with the head it has read. -/
inductive AddThen (N : Type) where
  | ret
  | loop (head : Option N)
  deriving DecidableEq, Repr

/-- Program points of the methods. -/
inductive FreePc (N : Type) where
  /-- concurrentqueue.h:1372, the `fetch_add` of `add`. -/
  | add (node : N)
  /-- concurrentqueue.h:1384 and 1389, the load of the head. -/
  | load
  /-- concurrentqueue.h:1387, the load of the count. -/
  | refs (head : N)
  /-- concurrentqueue.h:1388, the test of the count and the exchange that raises it. -/
  | raise (head : N) (refs : BitVec 32)
  /-- concurrentqueue.h:1395, the load of the successor. -/
  | next (head : N)
  /-- concurrentqueue.h:1396, the exchange of the head. -/
  | swap (head : N) (next : Option N)
  /-- concurrentqueue.h:1402, `fetch_add(-2)`. -/
  | settle (head : N)
  /-- concurrentqueue.h:1409, `fetch_add(-1)`; `head` is what the exchange has found. -/
  | drop (prevHead : N) (head : Option N)
  /-- concurrentqueue.h:1432, the load of the head. -/
  | addHead (node : N) (after : AddThen N)
  /-- concurrentqueue.h:1434, the store of the successor. -/
  | addNext (node : N) (head : Option N) (after : AddThen N)
  /-- concurrentqueue.h:1435, the count is set to 1. -/
  | addRefs (node : N) (head : Option N) (after : AddThen N)
  /-- concurrentqueue.h:1436, the exchange of the head. -/
  | addSwap (node : N) (head : Option N) (after : AddThen N)
  /-- concurrentqueue.h:1438, `fetch_add(SHOULD_BE_ON_FREELIST - 1)`. -/
  | addAgain (node : N) (head : Option N) (after : AddThen N)
  | added
  | got (node : Option N)
  deriving DecidableEq, Repr

/-- `while (head != nullptr)`. -/
def whileHead {N : Type} : Option N → FreePc N
  | none => .got none
  | some head => .refs head

def AddThen.pc {N : Type} : AddThen N → FreePc N
  | ret => .added
  | loop head => whileHead head

variable {N : Type} [DecidableEq N]

/-- `fetch_add` of a node's count. -/
def FreeList.addRefs (σ : FreeList N) (node : N) (d : BitVec 32) : FreeList N :=
  { σ with freeListRefs := update σ.freeListRefs node (σ.freeListRefs node + d) }

/-- concurrentqueue.h:1365, `add`; the block is empty when this is called. -/
def FreeList.add (σ : FreeList N) (node : N) : FreeList N × FreePc N :=
  (σ.addRefs node shouldBeOnFreelist,
    if σ.freeListRefs node = 0 then .addHead node .ret else .added)

/-- concurrentqueue.h:1379, `try_get`. -/
def tryGet (σ : FreeList N) : FreePc N → Option (FreeList N × FreePc N)
  | .load => some (σ, whileHead σ.freeListHead)
  | .refs head => some (σ, .raise head (σ.freeListRefs head))
  | .raise head refs =>
      if refs &&& refsMask = 0 ∨ σ.freeListRefs head ≠ refs then some (σ, .load)
      else some (σ.addRefs head 1, .next head)
  | .next head => some (σ, .swap head (σ.freeListNext head))
  | .swap head next =>
      if σ.freeListHead = some head then some ({ σ with freeListHead := next }, .settle head)
      else some (σ, .drop head σ.freeListHead)
  | .settle head => some (σ.addRefs head (-2), .got (some head))
  | .drop prevHead head =>
      some (σ.addRefs prevHead (-1),
        if σ.freeListRefs prevHead = shouldBeOnFreelist + 1 then .addHead prevHead (.loop head)
        else whileHead head)
  | _ => none

/-- concurrentqueue.h:1422, `add_knowing_refcount_is_zero`. -/
def addKnowingRefcountIsZero (σ : FreeList N) : FreePc N → Option (FreeList N × FreePc N)
  | .addHead node after => some (σ, .addNext node σ.freeListHead after)
  | .addNext node head after =>
      some ({ σ with freeListNext := update σ.freeListNext node head }, .addRefs node head after)
  | .addRefs node head after =>
      some ({ σ with freeListRefs := update σ.freeListRefs node 1 }, .addSwap node head after)
  | .addSwap node head after =>
      if σ.freeListHead = head then some ({ σ with freeListHead := some node }, after.pc)
      else some (σ, .addAgain node σ.freeListHead after)
  | .addAgain node head after =>
      some (σ.addRefs node (shouldBeOnFreelist - 1),
        if σ.freeListRefs node = 1 then .addNext node head after else after.pc)
  | _ => none

/-- One step in the code of the list. -/
def freeListStep (σ : FreeList N) : FreePc N → Option (FreeList N × FreePc N)
  | .add node => some (σ.add node)
  | .addHead node after => addKnowingRefcountIsZero σ (.addHead node after)
  | .addNext node head after => addKnowingRefcountIsZero σ (.addNext node head after)
  | .addRefs node head after => addKnowingRefcountIsZero σ (.addRefs node head after)
  | .addSwap node head after => addKnowingRefcountIsZero σ (.addSwap node head after)
  | .addAgain node head after => addKnowingRefcountIsZero σ (.addAgain node head after)
  | q => tryGet σ q

/-! ## §2. The blocks. -/

/-- A block: one of the array of the constructor, or one made later. -/
inductive BlockId where
  | initial (i : ℕ)
  | created (k : ℕ)
  deriving DecidableEq, Repr

/-- Program points of `requisition_block` and `add_block_to_free_list`. -/
inductive PoolPc where
  | elsewhere
  /-- concurrentqueue.h:2957, the load of `initialBlockPoolIndex`. -/
  | poolLoad
  /-- concurrentqueue.h:2961, `fetch_add` of `initialBlockPoolIndex`. -/
  | poolAdd
  /-- In the code of the list. -/
  | list (q : FreePc BlockId)
  /-- concurrentqueue.h:3003, `create<Block>()`. -/
  | create
  | got (block : Option BlockId)
  deriving DecidableEq, Repr

/-- The blocks.  `made` counts those that the allocator has made.  History: the
    blocks in use, from the return of `requisition_block` to the call that gives
    them back. -/
structure BlockPool where
  list : FreeList BlockId
  initialBlockPoolIndex : ℕ
  made : ℕ
  used : BlockId → Bool

/-- What `requisition_block` does with the result of `try_get`. -/
def afterList : FreePc BlockId → PoolPc
  | .added => .elsewhere
  | .got none => .create
  | .got (some block) => .got (some block)
  | q => .list q

/-- concurrentqueue.h:2955 and 2990, one step; `alloc` tells whether there is memory. -/
def requisitionBlock (size : ℕ) (σ : BlockPool) (alloc : Bool) : PoolPc → Option (BlockPool × PoolPc)
  | .poolLoad => some (σ, if size ≤ σ.initialBlockPoolIndex then .list .load else .poolAdd)
  | .poolAdd =>
      some ({ σ with initialBlockPoolIndex := σ.initialBlockPoolIndex + 1 },
        if σ.initialBlockPoolIndex < size then .got (some (.initial σ.initialBlockPoolIndex))
        else .list .load)
  | .list q => (freeListStep σ.list q).map fun r => ({ σ with list := r.1 }, afterList r.2)
  | .create =>
      if alloc = true then some ({ σ with made := σ.made + 1 }, .got (some (.created σ.made)))
      else some (σ, .got none)
  | _ => none

/-- The blocks and the threads that use them. -/
structure PoolState (T : Type) where
  blocks : BlockPool
  pc : T → PoolPc

/-- An action of thread `t`: ask for a block, give back one that is in use, take the
    next step, or go off with what it has got. -/
inductive BlockAct (T : Type) where
  | requisition (t : T)
  | giveBack (t : T) (block : BlockId)
  | go (t : T) (alloc : Bool)
  | leave (t : T)
  deriving DecidableEq, Repr

variable {T : Type} [DecidableEq T]

def poolThreadStep (size : ℕ) (s : PoolState T) : BlockAct T → Option (PoolState T)
  | .requisition t =>
      if s.pc t = .elsewhere then some { s with pc := update s.pc t .poolLoad } else none
  | .giveBack t b =>
      if s.pc t = .elsewhere ∧ s.blocks.used b = true then
        some ⟨{ s.blocks with used := update s.blocks.used b false },
          update s.pc t (.list (.add b))⟩
      else none
  | .go t alloc =>
      (requisitionBlock size s.blocks alloc (s.pc t)).map fun r => ⟨r.1, update s.pc t r.2⟩
  | .leave t =>
      match s.pc t with
      | .got none => some { s with pc := update s.pc t .elsewhere }
      | .got (some b) =>
          some ⟨{ s.blocks with used := update s.blocks.used b true }, update s.pc t .elsewhere⟩
      | _ => none

/-- A new queue: the blocks of the array are there, their counts are zero. -/
def BlockPool.new : BlockPool where
  list := ⟨none, fun _ => none, fun _ => 0⟩
  initialBlockPoolIndex := 0
  made := 0
  used _ := false

/-- The pool of a queue whose constructor has allocated `size` blocks. -/
def blockPool (T : Type) [DecidableEq T] (size : ℕ) : Machine (PoolState T) (BlockAct T) where
  init s := s = ⟨.new, fun _ => .elsewhere⟩
  step := poolThreadStep size

end HThread.RunQueue
