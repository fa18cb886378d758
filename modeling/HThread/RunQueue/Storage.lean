/-
  HThread.RunQueue.Storage — the elements of a sub-queue and their blocks.

  The owner writes an element into the slot of the tail index before it moves
  the tail; the thread that claimed an index moves the element out.  A block
  goes back to the pool when its 32 elements have been counted, and then no
  thread needs it any more: an index that is claimed or still to be claimed is
  not counted.

  Key lemmas:
    * `block_full`   — when the counter of a block reaches 32, all its indices
      are counted.
    * `Sound.effect` — one step keeps the slots, the draws and the indices.
  Main result:
    * `sub_queue_indices` — every index is moved out once, in the order of the
      indices, and its element is there until then.
-/
import HThread.RunQueue.Draws

namespace HThread.RunQueue

open Interleave
open Function (update)

/-! ## §1. The shelf. -/

/-- What a sub-queue has in store. -/
structure Shelf (E : Type) where
  tail : ℕ
  head : ℕ
  tailBlock : Option ℕ
  blockIndex : ℕ → Option (Block E)
  log : List E
  moved : Finset ℕ
  finished : Finset ℕ
  released : Finset ℕ

variable {E T : Type}

def Producer.shelf (p : Producer E) : Shelf E where
  tail := p.tailIndex
  head := p.headIndex
  tailBlock := p.tailBlock
  blockIndex := p.blockIndex
  log := p.log
  moved := p.moved
  finished := p.finished
  released := p.released

/-- In the code of `enqueue`. -/
def ProducerPc.enq : ProducerPc E → Bool
  | enqTail _ | enqBlock .. | enqConstruct .. | enqPublish .. => true
  | _ => false

/-- A block for the tail index has been started. -/
def ProducerPc.opened : ProducerPc E → Bool
  | enqConstruct .. | enqPublish .. => true
  | _ => false

/-- The slot of an index. -/
def Shelf.slotAt (s : Shelf E) (i : ℕ) : Option E :=
  (s.blockIndex (i / blockSize)).bind fun b => b.slot (i % blockSize)

/-- What is in the slot of an index: an element that has not been moved out, or the
    one the owner is about to publish. -/
def Shelf.content (s : Shelf E) (q : ProducerPc E) (i : ℕ) : Option E :=
  if i < s.tail then if i ∈ s.moved then none else s.log[i]?
  else match q with
    | .enqPublish e _ => if i = s.tail then some e else none
    | _ => none

/-- Block `k` has been taken from the pool. -/
def Shelf.Started (s : Shelf E) (q : ProducerPc E) (k : ℕ) : Prop :=
  k * blockSize < s.tail ∨ (k * blockSize = s.tail ∧ q.opened = true)

/-- What the owner knows inside `enqueue`. -/
def OwnerOk (s : Shelf E) : ProducerPc E → Prop
  | .enqBlock _ tail => tail = s.tail ∧ tail % blockSize = 0
  | .enqConstruct _ tail | .enqPublish _ tail =>
      tail = s.tail ∧ s.tailBlock = some (tail / blockSize)
  | _ => True

/-- The slots hold what is in the queue, `q` being the point of the owner. -/
structure Stored (s : Shelf E) (q : ProducerPc E) : Prop where
  length : s.log.length = s.tail
  slots : ∀ i, s.slotAt i = s.content q i
  blocks : ∀ k, s.blockIndex k = none ↔ ¬s.Started q k ∨ k ∈ s.released
  counts : ∀ k b, s.blockIndex k = some b →
    b.elementsCompletelyDequeued = (s.finished.filter (· / blockSize = k)).card
  done : ∀ k ∈ s.released, ∀ i, i / blockSize = k → i ∈ s.finished
  tailBlock : s.tail % blockSize ≠ 0 → s.tailBlock = some (s.tail / blockSize)
  owner : OwnerOk s q

/-- The index that a thread at this point has claimed and not yet counted. -/
def ProducerPc.index : ProducerPc E → Option ℕ
  | deqMove i | deqSetEmpty i _ => some i
  | _ => none

/-- The block that a thread at this point gives back. -/
def ProducerPc.releasing : ProducerPc E → Option ℕ
  | deqRelease i _ => some (i / blockSize)
  | _ => none

/-- What a thread inside `dequeue` knows of its index. -/
def IndexOk (s : Shelf E) : ProducerPc E → Prop
  | .deqMove i => i < s.head ∧ i ∉ s.moved
  | .deqSetEmpty i e => i ∈ s.moved ∧ i ∉ s.finished ∧ s.log[i]? = some e
  | .deqRelease i e =>
      i ∈ s.moved ∧ s.log[i]? = some e ∧ i / blockSize ∉ s.released
        ∧ ∀ j, j / blockSize = i / blockSize → j ∈ s.finished
  | .dequeued (some e) => ∃ i ∈ s.moved, s.log[i]? = some e
  | .garbage => False
  | _ => True

/-- Every index is moved out once, by the thread that claimed it. -/
structure Taken (s : Shelf E) (pc : T → ProducerPc E) : Prop where
  movedHead : ∀ i ∈ s.moved, i < s.head
  finishedMoved : s.finished ⊆ s.moved
  holds : ∀ t, IndexOk s (pc t)
  unique : ∀ t u i, (pc t).index = some i → (pc u).index = some i → t = u
  releasing : ∀ t u k, (pc t).releasing = some k → (pc u).releasing = some k → t = u
  claimed : ∀ i < s.head, i ∈ s.moved ∨ ∃ t, pc t = .deqMove i

/-! ## §2. Blocks. -/

/-- A block of which 32 elements are counted has no other ones. -/
theorem block_full {finished : Finset ℕ} {k : ℕ}
    (h : (finished.filter (· / blockSize = k)).card = blockSize) (i : ℕ)
    (hi : i / blockSize = k) : i ∈ finished := by
  have hsub : finished.filter (· / blockSize = k) ⊆ Finset.Ico (32 * k) (32 * k + 32) := by
    intro j hj
    have hj := (Finset.mem_filter.mp hj).2
    simp only [blockSize] at hj
    rw [Finset.mem_Ico]
    omega
  have hcard : (Finset.Ico (32 * k) (32 * k + 32)).card
      ≤ (finished.filter (· / blockSize = k)).card := by
    rw [h, Nat.card_Ico]
    simp only [blockSize]
    omega
  have hmem : i ∈ Finset.Ico (32 * k) (32 * k + 32) := by
    simp only [blockSize] at hi
    rw [Finset.mem_Ico]
    omega
  rw [← Finset.eq_of_subset_of_card_le hsub hcard] at hmem
  exact (Finset.mem_filter.mp hmem).1

theorem index_split (i : ℕ) : i / blockSize * blockSize + i % blockSize = i := by
  simp only [blockSize]
  omega

/-- One slot of one block changes. -/
theorem slotAt_put {s : Shelf E} {b : Block E} {i : ℕ} {r : Option E}
    (hb : s.blockIndex (i / blockSize) = some b) (j : ℕ) :
    Shelf.slotAt { s with
      blockIndex := update s.blockIndex (i / blockSize) (some (b.put (i % blockSize) r)) } j
      = if j = i then r else s.slotAt j := by
  unfold Shelf.slotAt
  show (update s.blockIndex (i / blockSize) (some (b.put (i % blockSize) r)) (j / blockSize)).bind _
    = _
  by_cases hblock : j / blockSize = i / blockSize
  · rw [hblock, Function.update_self, hb]
    show update b.slot (i % blockSize) r (j % blockSize) = _
    by_cases hoff : j % blockSize = i % blockSize
    · have hji : j = i := by rw [← index_split j, ← index_split i, hblock, hoff]
      rw [if_pos hji, hoff, Function.update_self]
    · have hji : j ≠ i := fun he => hoff (by rw [he])
      rw [if_neg hji, Function.update_of_ne hoff]
      rfl
  · have hji : j ≠ i := fun he => hblock (by rw [he])
    rw [if_neg hji, Function.update_of_ne hblock]

namespace Stored

variable {s : Shelf E} {q q' : ProducerPc E} {i : ℕ} {e : E}

/-! ## §3. What the slots hold. -/

/-- An index whose element is in the queue is stored. -/
theorem slot_of_lt (h : Stored s q) (hi : i < s.tail) (hmoved : i ∉ s.moved) :
    s.slotAt i = s.log[i]? := by
  rw [h.slots]
  unfold Shelf.content
  rw [if_pos hi, if_neg hmoved]

/-- A block is in use as long as one of its elements has not been counted. -/
theorem block_of_unfinished (h : Stored s q) (hi : i < s.tail) (hno : i ∉ s.finished) :
    ∃ b, s.blockIndex (i / blockSize) = some b := by
  cases hb : s.blockIndex (i / blockSize) with
  | some b => exact ⟨b, rfl⟩
  | none =>
      rcases (h.blocks _).mp hb with hno' | hrel
      · refine absurd (.inl ?_) hno'
        simp only [blockSize]
        omega
      · exact absurd (h.done _ hrel i rfl) hno

/-- Outside `enqueue` it does not matter where the owner is. -/
theorem congr (h : Stored s q) (hq : q.enq = false) (hq' : q'.enq = false) : Stored s q' := by
  have hopen : q.opened = false ∧ q'.opened = false := by
    constructor
    · cases q with
      | enqConstruct | enqPublish => cases hq
      | _ => rfl
    · cases q' with
      | enqConstruct | enqPublish => cases hq'
      | _ => rfl
  have hcontent : ∀ i, s.content q i = s.content q' i := by
    intro i
    unfold Shelf.content
    by_cases hi : i < s.tail
    · rw [if_pos hi, if_pos hi]
    · rw [if_neg hi, if_neg hi]
      cases q with
      | enqPublish => cases hq
      | _ =>
          cases q' with
          | enqPublish => cases hq'
          | _ => rfl
  have hstarted : ∀ k, s.Started q k ↔ s.Started q' k := by
    intro k
    unfold Shelf.Started
    rw [hopen.1, hopen.2]
  refine ⟨h.length, fun i => (h.slots i).trans (hcontent i), fun k => ?_, h.counts, h.done,
    h.tailBlock, ?_⟩
  · rw [h.blocks k, hstarted k]
  · cases q' with
    | enqBlock | enqConstruct | enqPublish => cases hq'
    | _ => trivial

/-! ## §4. The steps of the owner. -/

/-- A new block for the tail index. -/
theorem start (h : Stored s (.enqBlock e i)) (htaken : ∀ j ∈ s.finished, j < s.tail) :
    Stored { s with
      blockIndex := update s.blockIndex (i / blockSize) (some (Block.empty E))
      tailBlock := some (i / blockSize) } (.enqConstruct e i) := by
  obtain ⟨rfl, hfull⟩ := h.owner
  have hk : s.tail / blockSize * blockSize = s.tail := by
    simp only [blockSize] at hfull ⊢
    omega
  have hfresh : s.tail / blockSize ∉ s.released := fun hrel =>
    absurd (htaken _ (h.done _ hrel s.tail rfl)) (Nat.lt_irrefl _)
  refine ⟨h.length, fun j => ?_, fun k => ?_, fun k b hb => ?_, h.done, fun hno => absurd hfull hno,
    rfl, rfl⟩
  · unfold Shelf.slotAt
    show (update s.blockIndex (s.tail / blockSize) (some (Block.empty E)) (j / blockSize)).bind _ = _
    by_cases hj : j / blockSize = s.tail / blockSize
    · -- the block is empty, and so is the queue from the tail on
      rw [hj, Function.update_self]
      have hge : ¬j < s.tail := by
        simp only [blockSize] at hfull hj
        omega
      show none = Shelf.content _ _ j
      unfold Shelf.content
      rw [if_neg hge]
    · rw [Function.update_of_ne hj]
      exact h.slots j
  · show update s.blockIndex (s.tail / blockSize) (some (Block.empty E)) k = none ↔ _
    by_cases hks : k = s.tail / blockSize
    · rw [hks, Function.update_self]
      refine iff_of_false (by simp) ?_
      rintro (hno | hrel)
      · exact hno (.inr ⟨hk, rfl⟩)
      · exact hfresh hrel
    · rw [Function.update_of_ne hks, h.blocks k]
      refine or_congr_left (not_congr ⟨.inl ∘ fun hs => ?_, fun hs => ?_⟩)
      · rcases hs with hs | ⟨-, ho⟩
        · exact hs
        · cases ho
      · rcases hs with hs | ⟨heq, -⟩
        · exact .inl hs
        · have heq : k * blockSize = s.tail := heq
          refine absurd ?_ hks
          simp only [blockSize] at heq ⊢
          omega
  · have hb : update s.blockIndex (s.tail / blockSize) (some (Block.empty E)) k = some b := hb
    by_cases hks : k = s.tail / blockSize
    · rw [hks, Function.update_self] at hb
      obtain rfl := Option.some.inj hb
      -- no index of the block has been handed out
      have hnone : s.finished.filter (· / blockSize = k) = ∅ := by
        refine Finset.filter_eq_empty_iff.mpr fun j hj hjk => ?_
        have hlt := htaken j hj
        simp only [blockSize] at hks hjk hfull
        omega
      show 0 = _
      rw [hnone]
      rfl
    · rw [Function.update_of_ne hks] at hb
      exact h.counts k b hb

/-- The element is written into the slot of the tail index. -/
theorem construct (h : Stored s (.enqConstruct e i)) {b : Block E}
    (hb : s.blockIndex (i / blockSize) = some b) :
    Stored { s with
      blockIndex := update s.blockIndex (i / blockSize) (some (b.put (i % blockSize) (some e))) }
      (.enqPublish e i) := by
  obtain ⟨rfl, htail⟩ := h.owner
  refine ⟨h.length, fun j => ?_, fun k => ?_, fun k b' hb' => ?_, h.done, h.tailBlock, rfl, htail⟩
  · rw [slotAt_put hb, h.slots j]
    by_cases hj : j = s.tail
    · rw [if_pos hj, hj]
      simp [Shelf.content]
    · rw [if_neg hj]
      unfold Shelf.content
      by_cases hlt : j < s.tail
      · rw [if_pos hlt, if_pos hlt]
      · rw [if_neg hlt, if_neg hlt]
        exact (if_neg hj).symm
  · show update s.blockIndex _ _ k = none ↔ _
    have hold := h.blocks k
    by_cases hk : k = s.tail / blockSize
    · rw [hk] at hold ⊢
      rw [Function.update_self]
      rw [hb] at hold
      exact iff_of_false (by simp) (hold.not.mp (by simp))
    · rw [Function.update_of_ne hk]
      exact hold
  · have hb' : update s.blockIndex _ _ k = some b' := hb'
    by_cases hk : k = s.tail / blockSize
    · rw [hk, Function.update_self] at hb'
      obtain rfl := Option.some.inj hb'
      rw [hk]
      exact h.counts _ b hb
    · rw [Function.update_of_ne hk] at hb'
      exact h.counts k b' hb'

/-- The tail moves over the element. -/
theorem publish (h : Stored s (.enqPublish e i)) (hmoved : i ∉ s.moved) :
    Stored { s with
      tail := 1 + i
      log := s.log ++ [e] } (.enqueued true) := by
  obtain ⟨rfl, htail⟩ := h.owner
  have hlen := h.length
  refine ⟨?_, fun j => ?_, fun k => ?_, h.counts, h.done, fun hno => ?_, trivial⟩
  · show (s.log ++ [e]).length = 1 + s.tail
    rw [List.length_append, hlen]
    exact Nat.add_comm _ _
  · show s.slotAt j = _
    rw [h.slots j]
    unfold Shelf.content
    show _ = if j < 1 + s.tail then if j ∈ s.moved then none else (s.log ++ [e])[j]? else none
    by_cases hj : j = s.tail
    · rw [hj, if_neg (Nat.lt_irrefl _), if_pos (show s.tail < 1 + s.tail by omega), if_neg hmoved]
      show (if s.tail = s.tail then some e else none) = _
      rw [if_pos rfl, List.getElem?_append_right (by omega), hlen]
      simp
    · by_cases hlt : j < s.tail
      · rw [if_pos hlt, if_pos (show j < 1 + s.tail by omega), List.getElem?_append_left (by omega)]
      · rw [if_neg hlt, if_neg (show ¬j < 1 + s.tail by omega)]
        exact if_neg hj
  · rw [h.blocks k]
    refine or_congr_left (not_congr ⟨fun hs => .inl ?_, fun hs => ?_⟩)
    · show k * blockSize < 1 + s.tail
      rcases hs with hs | ⟨hs, -⟩
      · omega
      · omega
    · rcases hs with hs | ⟨-, ho⟩
      · have hs : k * blockSize < 1 + s.tail := hs
        by_cases heq : k * blockSize = s.tail
        · exact .inr ⟨heq, rfl⟩
        · exact .inl (by omega)
      · cases ho
  · have hno : (1 + s.tail) % blockSize ≠ 0 := hno
    show s.tailBlock = some ((1 + s.tail) / blockSize)
    rw [htail]
    simp only [blockSize] at hno ⊢
    congr 1
    omega

/-! ## §5. The steps of the threads that take elements out. -/

/-- The head does not matter for the slots. -/
theorem head (h : Stored s q) (n : ℕ) : Stored { s with head := n } q :=
  ⟨h.length, h.slots, h.blocks, h.counts, h.done, h.tailBlock, h.owner⟩

/-- An element is moved out of its slot. -/
theorem move (h : Stored s q) (hi : i < s.tail) {b : Block E}
    (hb : s.blockIndex (i / blockSize) = some b) :
    Stored { s with
      blockIndex := update s.blockIndex (i / blockSize) (some (b.put (i % blockSize) none))
      moved := insert i s.moved } q := by
  refine ⟨h.length, fun j => ?_, fun k => ?_, fun k b' hb' => ?_, h.done, h.tailBlock, h.owner⟩
  · have hslot := slotAt_put (r := none) hb j
    show Shelf.slotAt { s with
      blockIndex := update s.blockIndex (i / blockSize) (some (b.put (i % blockSize) none)) } j = _
    rw [hslot]
    unfold Shelf.content
    show _ = if j < s.tail then if j ∈ insert i s.moved then none else s.log[j]? else _
    by_cases hj : j = i
    · rw [if_pos hj, hj, if_pos hi, if_pos (Finset.mem_insert_self _ _)]
    · rw [if_neg hj, h.slots j]
      unfold Shelf.content
      by_cases hmem : j ∈ s.moved
      · rw [if_pos hmem, if_pos (Finset.mem_insert_of_mem hmem)]
      · have hno : j ∉ insert i s.moved := by
          rw [Finset.mem_insert]
          exact not_or.mpr ⟨hj, hmem⟩
        rw [if_neg hmem, if_neg hno]
  · show update s.blockIndex _ _ k = none ↔ _
    have hold := h.blocks k
    by_cases hk : k = i / blockSize
    · rw [hk] at hold ⊢
      rw [Function.update_self]
      rw [hb] at hold
      exact iff_of_false (by simp) (hold.not.mp (by simp))
    · rw [Function.update_of_ne hk]
      exact hold
  · have hb' : update s.blockIndex _ _ k = some b' := hb'
    by_cases hk : k = i / blockSize
    · rw [hk, Function.update_self] at hb'
      obtain rfl := Option.some.inj hb'
      rw [hk]
      exact h.counts _ b hb
    · rw [Function.update_of_ne hk] at hb'
      exact h.counts k b' hb'

/-- An element is counted in its block. -/
theorem setEmpty (h : Stored s q) (hi : i ∉ s.finished) {b : Block E}
    (hb : s.blockIndex (i / blockSize) = some b) :
    Stored { s with
      blockIndex := update s.blockIndex (i / blockSize)
        (some { b with elementsCompletelyDequeued := b.elementsCompletelyDequeued + 1 })
      finished := insert i s.finished } q := by
  have hcount := h.counts _ b hb
  refine ⟨h.length, fun j => ?_, fun k => ?_, fun k b' hb' => ?_,
    fun k hk j hj => Finset.mem_insert_of_mem (h.done k hk j hj), h.tailBlock, h.owner⟩
  · -- the slots stay as they are
    show (update s.blockIndex (i / blockSize) _ (j / blockSize)).bind _ = _
    have hslots := h.slots j
    unfold Shelf.slotAt at hslots
    by_cases hk : j / blockSize = i / blockSize
    · rw [hk, hb] at hslots
      rw [hk, Function.update_self]
      exact hslots
    · rw [Function.update_of_ne hk]
      exact hslots
  · show update s.blockIndex _ _ k = none ↔ _
    have hold := h.blocks k
    by_cases hk : k = i / blockSize
    · rw [hk] at hold ⊢
      rw [Function.update_self]
      rw [hb] at hold
      exact iff_of_false (by simp) (hold.not.mp (by simp))
    · rw [Function.update_of_ne hk]
      exact hold
  · have hb' : update s.blockIndex _ _ k = some b' := hb'
    show _ = ((insert i s.finished).filter (· / blockSize = k)).card
    by_cases hk : k = i / blockSize
    · rw [hk, Function.update_self] at hb'
      obtain rfl := Option.some.inj hb'
      have hno : i ∉ s.finished.filter (· / blockSize = k) := fun hm =>
        hi (Finset.mem_filter.mp hm).1
      rw [Finset.filter_insert, if_pos hk.symm, Finset.card_insert_of_notMem hno, hk]
      show b.elementsCompletelyDequeued + 1 = _
      rw [hcount]
    · rw [Function.update_of_ne hk] at hb'
      rw [Finset.filter_insert, if_neg (fun he => hk he.symm)]
      exact h.counts k b' hb'

/-- A block goes back, all of its elements counted. -/
theorem release (h : Stored s q) {k : ℕ} (hk : ∀ j, j / blockSize = k → j ∈ s.finished)
    (hmoved : s.finished ⊆ s.moved) (hlt : ∀ j ∈ s.moved, j < s.tail) :
    Stored { s with
      blockIndex := update s.blockIndex k none
      released := insert k s.released } q := by
  refine ⟨h.length, fun j => ?_, fun k' => ?_, fun k' b hb => ?_, fun k' hk' j hj => ?_, h.tailBlock,
    h.owner⟩
  · show (update s.blockIndex k none (j / blockSize)).bind _ = _
    by_cases hj : j / blockSize = k
    · have hm := hmoved (hk j hj)
      rw [hj, Function.update_self]
      show none = Shelf.content _ _ j
      unfold Shelf.content
      rw [if_pos (hlt j hm), if_pos hm]
    · rw [Function.update_of_ne hj]
      exact h.slots j
  · show update s.blockIndex k none k' = none ↔ ¬s.Started q k' ∨ k' ∈ insert k s.released
    by_cases hk' : k' = k
    · rw [hk', Function.update_self]
      exact iff_of_true rfl (.inr (Finset.mem_insert_self _ _))
    · rw [Function.update_of_ne hk', h.blocks k', Finset.mem_insert]
      exact or_congr_right (or_iff_right hk').symm
  · have hb : update s.blockIndex k none k' = some b := hb
    by_cases hk' : k' = k
    · rw [hk', Function.update_self] at hb
      cases hb
    · rw [Function.update_of_ne hk'] at hb
      exact h.counts k' b hb
  · rcases Finset.mem_insert.mp hk' with rfl | hk'
    · exact hk j hj
    · exact h.done k' hk' j hj

end Stored

namespace Taken

variable {s s' : Shelf E} {pc : T → ProducerPc E} {t u : T} {q : ProducerPc E} {i : ℕ} {e : E}

/-! ## §6. The indices. -/

/-- A thread keeps what it knows of its index when others move on. -/
theorem indexOk_mono (hq : IndexOk s q) (hhead : s.head ≤ s'.head)
    (hlog : ∀ (i : ℕ) (x : E), s.log[i]? = some x → s'.log[i]? = some x) (hmoved : s.moved ⊆ s'.moved)
    (hfinished : s.finished ⊆ s'.finished)
    (hmove : ∀ i, q.index = some i → i ∈ s'.moved → i ∈ s.moved)
    (hfinish : ∀ i, q.index = some i → i ∈ s'.finished → i ∈ s.finished)
    (hrelease : ∀ k, q.releasing = some k → k ∈ s'.released → k ∈ s.released) : IndexOk s' q := by
  cases q with
  | deqMove i => exact ⟨hq.1.trans_le hhead, fun hm => hq.2 (hmove i rfl hm)⟩
  | deqSetEmpty i e =>
      exact ⟨hmoved hq.1, fun hf => hq.2.1 (hfinish i rfl hf), hlog i e hq.2.2⟩
  | deqRelease i e =>
      obtain ⟨hm, hl, hr, hall⟩ := hq
      exact ⟨hmoved hm, hlog i e hl, fun hr' => hr (hrelease _ rfl hr'),
        fun j hj => hfinished (hall j hj)⟩
  | dequeued r =>
      cases r with
      | none => trivial
      | some e =>
          obtain ⟨i, hm, hl⟩ := hq
          exact ⟨i, hmoved hm, hlog i e hl⟩
  | garbage => exact hq
  | elsewhere | enqTail | enqBlock | enqConstruct | enqPublish | enqueued | deqTail | deqOvercommit
  | deqTest | deqCount | deqRetest | deqHead | deqGiveUp => trivial

variable [DecidableEq T]

/-- No two threads have the same value of `f`, if `t` does not get that of another. -/
theorem unique_update {f : ProducerPc E → Option ℕ}
    (h : ∀ t u x, f (pc t) = some x → f (pc u) = some x → t = u)
    (hq : ∀ x, f q = some x → ∀ u, u ≠ t → f (pc u) ≠ some x) (u v : T) (x : ℕ)
    (hu : f (update pc t q u) = some x) (hv : f (update pc t q v) = some x) : u = v := by
  by_cases hut : u = t
  · rw [hut, Function.update_self] at hu
    by_contra hne
    have hvt : v ≠ t := fun he => hne (hut.trans he.symm)
    rw [Function.update_of_ne hvt] at hv
    exact hq x hu v hvt hv
  · rw [Function.update_of_ne hut] at hu
    by_cases hvt : v = t
    · rw [hvt, Function.update_self] at hv
      exact absurd hu (hq x hv u hut)
    · rw [Function.update_of_ne hvt] at hv
      exact h u v x hu hv

theorem claimed_update (h : ∃ u, pc u = .deqMove i) (ht : pc t ≠ .deqMove i) :
    ∃ u, update pc t q u = .deqMove i := by
  obtain ⟨u, hu⟩ := h
  have hut : u ≠ t := fun he => ht (he ▸ hu)
  exact ⟨u, by rw [Function.update_of_ne hut, hu]⟩

/-- A step that changes no index, and of the shelf at most the tail and the blocks. -/
theorem pass (h : Taken s pc) (hhead : s'.head = s.head)
    (hlog : ∀ (i : ℕ) (x : E), s.log[i]? = some x → s'.log[i]? = some x) (hmoved : s'.moved = s.moved)
    (hfinished : s'.finished = s.finished) (hreleased : s'.released = s.released)
    (hq : IndexOk s' q) (hqi : q.index = none) (hqr : q.releasing = none)
    (ht : (pc t).index = none) : Taken s' (update pc t q) := by
  refine ⟨?_, ?_, fun u => ?_, unique_update h.unique (by simp [hqi]),
    unique_update h.releasing (by simp [hqr]), fun i hi => ?_⟩
  · rw [hmoved, hhead]
    exact h.movedHead
  · rw [hfinished, hmoved]
    exact h.finishedMoved
  · by_cases hu : u = t
    · rw [hu, Function.update_self]
      exact hq
    · rw [Function.update_of_ne hu]
      exact indexOk_mono (h.holds u) hhead.ge hlog (hmoved ▸ fun _ hx => hx)
        (hfinished ▸ fun _ hx => hx) (fun _ _ hx => hmoved ▸ hx) (fun _ _ hx => hfinished ▸ hx)
        (fun _ _ hx => hreleased ▸ hx)
  · rw [hhead] at hi
    rcases h.claimed i hi with hm | hheld
    · exact .inl (hmoved ▸ hm)
    · exact .inr (claimed_update hheld fun he => by rw [he] at ht; cases ht)

/-- The next index is claimed. -/
theorem head (h : Taken s pc) (ht : (pc t).index = none) :
    Taken { s with head := s.head + 1 } (update pc t (.deqMove s.head)) := by
  have hnew : s.head ∉ s.moved := fun hm => Nat.lt_irrefl _ (h.movedHead _ hm)
  have hother : ∀ u, (pc u).index ≠ some s.head := by
    intro u hu
    have hp := h.holds u
    cases hpc : pc u with
    | deqMove i =>
        rw [hpc] at hp hu
        obtain rfl := Option.some.inj hu
        exact Nat.lt_irrefl _ hp.1
    | deqSetEmpty i e =>
        rw [hpc] at hp hu
        obtain rfl := Option.some.inj hu
        exact hnew hp.1
    | elsewhere | enqTail | enqBlock | enqConstruct | enqPublish | enqueued | deqTail
    | deqOvercommit | deqTest | deqCount | deqRetest | deqHead | deqGiveUp | deqRelease | dequeued
    | garbage =>
        rw [hpc] at hu
        cases hu
  refine ⟨fun i hi => Nat.lt_succ_of_lt (h.movedHead i hi), h.finishedMoved, fun u => ?_,
    unique_update h.unique ?_, unique_update h.releasing (by intro x hx; cases hx), fun i hi => ?_⟩
  · by_cases hu : u = t
    · rw [hu, Function.update_self]
      exact ⟨Nat.lt_succ_self _, hnew⟩
    · rw [Function.update_of_ne hu]
      exact indexOk_mono (h.holds u) (Nat.le_succ _) (fun _ _ hx => hx) (fun _ hx => hx)
        (fun _ hx => hx) (fun _ _ hx => hx) (fun _ _ hx => hx) (fun _ _ hx => hx)
  · rintro x hx u -
    obtain rfl := Option.some.inj hx
    exact hother u
  · rcases Nat.lt_succ_iff_lt_or_eq.mp hi with hi | rfl
    · rcases h.claimed i hi with hm | hheld
      · exact .inl hm
      · exact .inr (claimed_update hheld fun he => by rw [he] at ht; cases ht)
    · exact .inr ⟨t, Function.update_self ..⟩

/-- The element of an index is moved out. -/
theorem move (h : Taken s pc) (ht : pc t = .deqMove i) (hlog : s.log[i]? = some e)
    (blockIndex : ℕ → Option (Block E)) :
    Taken { s with
      blockIndex := blockIndex
      moved := insert i s.moved } (update pc t (.deqSetEmpty i e)) := by
  have hp := h.holds t
  rw [ht] at hp
  have hti : (pc t).index = some i := by rw [ht]; rfl
  have hno : i ∉ s.finished := fun hf => hp.2 (h.finishedMoved hf)
  refine ⟨fun j hj => ?_, h.finishedMoved.trans (Finset.subset_insert _ _), fun u => ?_,
    unique_update h.unique ?_, unique_update h.releasing (by intro x hx; cases hx), fun j hj => ?_⟩
  · rcases Finset.mem_insert.mp hj with rfl | hj
    · exact hp.1
    · exact h.movedHead j hj
  · by_cases hu : u = t
    · rw [hu, Function.update_self]
      exact ⟨Finset.mem_insert_self _ _, hno, hlog⟩
    · rw [Function.update_of_ne hu]
      refine indexOk_mono (h.holds u) (le_refl _) (fun _ _ hx => hx) (Finset.subset_insert _ _)
        (fun _ hx => hx) (fun j hj hm => ?_) (fun _ _ hx => hx) (fun _ _ hx => hx)
      rcases Finset.mem_insert.mp hm with rfl | hm
      · exact absurd (h.unique u t j hj hti) hu
      · exact hm
  · rintro x hx u hu hux
    obtain rfl := Option.some.inj hx
    exact hu (h.unique u t _ hux hti)
  · by_cases hji : j = i
    · exact .inl (hji ▸ Finset.mem_insert_self _ _)
    · rcases h.claimed j hj with hm | hheld
      · exact .inl (Finset.mem_insert_of_mem hm)
      · refine .inr (claimed_update hheld fun he => ?_)
        rw [ht] at he
        exact hji (ProducerPc.deqMove.inj he).symm

/-- An element is counted; the thread that counts the last one of a block has to
    give the block back. -/
theorem setEmpty (h : Taken s pc) (ht : pc t = .deqSetEmpty i e)
    (hdone : ∀ k ∈ s.released, ∀ j, j / blockSize = k → j ∈ s.finished)
    {last : Prop} [Decidable last]
    (hlast : last → ∀ j, j / blockSize = i / blockSize → j ∈ insert i s.finished)
    (blockIndex : ℕ → Option (Block E)) :
    Taken { s with
      blockIndex := blockIndex
      finished := insert i s.finished }
      (update pc t (if last then .deqRelease i e else .dequeued (some e))) := by
  have hp := h.holds t
  rw [ht] at hp
  obtain ⟨hm, hf, hl⟩ := hp
  have hti : (pc t).index = some i := by rw [ht]; rfl
  refine ⟨h.movedHead, Finset.insert_subset hm h.finishedMoved, fun u => ?_,
    unique_update h.unique ?_, unique_update h.releasing ?_, fun j hj => ?_⟩
  · by_cases hu : u = t
    · rw [hu, Function.update_self]
      by_cases hend : last
      · rw [if_pos hend]
        exact ⟨hm, hl, fun hr => hf (hdone _ hr i rfl), hlast hend⟩
      · rw [if_neg hend]
        exact ⟨i, hm, hl⟩
    · rw [Function.update_of_ne hu]
      refine indexOk_mono (h.holds u) (le_refl _) (fun _ _ hx => hx) (fun _ hx => hx)
        (Finset.subset_insert _ _) (fun _ _ hx => hx) (fun j hj hm => ?_) (fun _ _ hx => hx)
      rcases Finset.mem_insert.mp hm with rfl | hm
      · exact absurd (h.unique u t j hj hti) hu
      · exact hm
  · intro x hx
    split at hx <;> cases hx
  · -- another thread that gives the same block back would have seen `i` counted
    intro x hx u hu hux
    by_cases hend : last
    · rw [if_pos hend] at hx
      obtain rfl := Option.some.inj hx
      have hpu := h.holds u
      cases hpc : pc u with
      | deqRelease j e' =>
          rw [hpc] at hux hpu
          exact hf (hpu.2.2.2 i (Option.some.inj hux).symm)
      | elsewhere | enqTail | enqBlock | enqConstruct | enqPublish | enqueued | deqTail
      | deqOvercommit | deqTest | deqCount | deqRetest | deqHead | deqGiveUp | deqMove
      | deqSetEmpty | dequeued | garbage =>
          rw [hpc] at hux
          cases hux
    · rw [if_neg hend] at hx
      cases hx
  · rcases h.claimed j hj with hmj | hheld
    · exact .inl hmj
    · exact .inr (claimed_update hheld fun he => by rw [ht] at he; cases he)

/-- A block is given back. -/
theorem release (h : Taken s pc) (ht : pc t = .deqRelease i e)
    (blockIndex : ℕ → Option (Block E)) :
    Taken { s with
      blockIndex := blockIndex
      released := insert (i / blockSize) s.released } (update pc t (.dequeued (some e))) := by
  have hp := h.holds t
  rw [ht] at hp
  have htr : (pc t).releasing = some (i / blockSize) := by rw [ht]; rfl
  refine ⟨h.movedHead, h.finishedMoved, fun u => ?_,
    unique_update h.unique (by intro x hx; cases hx),
    unique_update h.releasing (by intro x hx; cases hx), fun j hj => ?_⟩
  · by_cases hu : u = t
    · rw [hu, Function.update_self]
      exact ⟨i, hp.1, hp.2.1⟩
    · rw [Function.update_of_ne hu]
      refine indexOk_mono (h.holds u) (le_refl _) (fun _ _ hx => hx) (fun _ hx => hx)
        (fun _ hx => hx) (fun _ _ hx => hx) (fun _ _ hx => hx) (fun k hk hm => ?_)
      rcases Finset.mem_insert.mp hm with rfl | hm
      · exact absurd (h.releasing u t _ hk htr) hu
      · exact hm
  · rcases h.claimed j hj with hm | hheld
    · exact .inl hm
    · exact .inr (claimed_update hheld fun he => by rw [ht] at he; cases he)

end Taken

/-! ## §7. The sub-queue. -/

/-- The invariant of a sub-queue. -/
structure Sound (owner : T) (s : ProducerState T E) : Prop where
  drawn : Drawn s.prod.draws s.pc
  taken : Taken s.prod.shelf s.pc
  stored : Stored s.prod.shelf (s.pc owner)
  others : ∀ t, t ≠ owner → (s.pc t).enq = false

namespace Sound

variable {owner t : T} {s : ProducerState T E} {p' : Producer E} {q q' : ProducerPc E} {i : ℕ}

theorem moved_lt (h : Sound owner s) (hi : i ∈ s.prod.moved) : i < s.prod.tailIndex :=
  (h.taken.movedHead i hi).trans_le h.drawn.head_le

theorem finished_lt (h : Sound owner s) (hi : i ∈ s.prod.finished) : i < s.prod.tailIndex :=
  h.moved_lt (h.taken.finishedMoved hi)

/-- The element of an index that is claimed is where it should be. -/
theorem element (h : Sound owner s) (hi : i < s.prod.tailIndex) (hmoved : i ∉ s.prod.moved) :
    ∃ e, s.prod.slotAt i = some e ∧ s.prod.log[i]? = some e := by
  have hslot : s.prod.slotAt i = s.prod.log[i]? := h.stored.slot_of_lt hi hmoved
  have hlen : s.prod.log.length = s.prod.tailIndex := h.stored.length
  have hlt : i < s.prod.log.length := by omega
  refine ⟨s.prod.log[i], ?_, List.getElem?_eq_getElem hlt⟩
  rw [hslot]
  exact List.getElem?_eq_getElem hlt

/-- The block of the tail index is there while the owner writes into it. -/
theorem tail_block (h : Sound owner s) {e : E} {tail : ℕ}
    (hq : s.pc owner = .enqConstruct e tail) :
    ∃ b, s.prod.tailBlock = some (tail / blockSize)
      ∧ s.prod.blockIndex (tail / blockSize) = some b := by
  have hst := h.stored
  rw [hq] at hst
  have htail : tail = s.prod.tailIndex := hst.owner.1
  cases hb : s.prod.blockIndex (tail / blockSize) with
  | some b => exact ⟨b, hst.owner.2, rfl⟩
  | none =>
      rcases (hst.blocks _).mp hb with hno | hrel
      · refine absurd ?_ hno
        by_cases hfull : tail % blockSize = 0
        · refine .inr ⟨?_, rfl⟩
          show tail / blockSize * blockSize = s.prod.tailIndex
          have hsplit := index_split tail
          omega
        · refine .inl ?_
          show tail / blockSize * blockSize < s.prod.tailIndex
          have hsplit := index_split tail
          omega
      · have hlt := h.finished_lt (hst.done _ hrel tail rfl)
        omega

variable [DecidableEq T]

/-- A step outside `enqueue`. -/
theorem stored_update (hst : Stored p'.shelf (s.pc owner)) (hpc : s.pc t = q) (hq : q.enq = false)
    (hq' : q'.enq = false) : Stored p'.shelf (update s.pc t q' owner) := by
  by_cases ht : owner = t
  · rw [ht, Function.update_self]
    rw [ht, hpc] at hst
    exact hst.congr hq hq'
  · rw [Function.update_of_ne ht]
    exact hst

theorem others_update (h : Sound owner s) (hq' : t ≠ owner → q'.enq = false) (u : T)
    (hu : u ≠ owner) : (update s.pc t q' u).enq = false := by
  by_cases hut : u = t
  · rw [hut, Function.update_self]
    exact hq' (hut ▸ hu)
  · rw [Function.update_of_ne hut]
    exact h.others u hu

/-- **One step in the code of the sub-queue.** -/
theorem effect (h : Sound owner s) (hearly : Early s.prod) (hpc : s.pc t = q)
    (hs : Effect s.prod q p' q') : Sound owner ⟨p', update s.pc t q'⟩ := by
  have hmine : q.enq = true → t = owner := by
    intro henq
    by_contra hne
    have hno := h.others t hne
    rw [hpc, henq] at hno
    cases hno
  have hown : ∀ e tail, q = .enqPublish e tail → tail = s.prod.tailIndex := by
    rintro e tail rfl
    obtain rfl := hmine rfl
    have hst := h.stored
    rw [hpc] at hst
    exact hst.owner.1
  have hdrawn := drawn_step h.drawn hearly hpc hown hs
  have hindex := h.taken.holds t
  rw [hpc] at hindex
  have htaken := h.taken
  have hstored := h.stored
  refine ⟨hdrawn, ?_, ?_, h.others_update ?_⟩
  · -- the indices
    show Taken p'.shelf (update s.pc t q')
    cases hs with
    | noTail e tail hb =>
        obtain rfl := hmine rfl
        obtain ⟨b, htb, hbi⟩ := h.tail_block hpc
        rw [htb] at hb
        have hb : s.prod.blockIndex (tail / blockSize) = none := hb
        rw [hbi] at hb
        cases hb
    | noSlot i hslot =>
        obtain ⟨e, he, -⟩ := h.element (hindex.1.trans_le h.drawn.head_le) hindex.2
        rw [hslot] at he
        cases he
    | noBlock i e hb =>
        obtain ⟨b, hbi⟩ := h.stored.block_of_unfinished (h.moved_lt hindex.1) hindex.2.1
        have hbi : s.prod.blockIndex (i / blockSize) = some b := hbi
        rw [hb] at hbi
        cases hbi
    | head c => exact htaken.head (by rw [hpc]; rfl)
    | move i b e hb he =>
        obtain ⟨e', he', hlog⟩ := h.element (hindex.1.trans_le h.drawn.head_le) hindex.2
        have hsame : s.prod.slotAt i = some e := by
          rw [Producer.slotAt, hb]
          exact he
        obtain rfl := Option.some.inj (hsame.symm.trans he')
        exact htaken.move hpc hlog _
    | setEmpty i e b hb =>
        refine htaken.setEmpty hpc hstored.done (fun hlast => ?_) _
        have hcount : b.elementsCompletelyDequeued
          = (s.prod.finished.filter (· / blockSize = i / blockSize)).card := hstored.counts _ b hb
        have hno : i ∉ s.prod.finished.filter (· / blockSize = i / blockSize) := fun hm =>
          hindex.2.1 (Finset.mem_filter.mp hm).1
        refine block_full ?_
        show ((insert i s.prod.finished).filter (· / blockSize = i / blockSize)).card = blockSize
        rw [Finset.filter_insert, if_pos rfl, Finset.card_insert_of_notMem hno, ← hcount, hlast]
        rfl
    | release i e => exact htaken.release hpc _
    | publish e tail =>
        refine htaken.pass rfl (fun i x hx => ?_) rfl rfl rfl trivial rfl rfl (by rw [hpc]; rfl)
        exact (List.getElem?_append_left (List.getElem?_eq_some_iff.mp hx).1).trans hx
    | full | room | refuse | start | construct | tail | overcommit | trying | empty | count | win
    | lose | giveUp =>
        exact htaken.pass rfl (fun _ _ hx => hx) rfl rfl rfl trivial rfl rfl (by rw [hpc]; rfl)
  · -- the slots
    show Stored p'.shelf (update s.pc t q' owner)
    cases hs with
    | full e hfull =>
        obtain rfl := hmine rfl
        rw [hpc] at hstored
        rw [Function.update_self]
        exact ⟨hstored.length, hstored.slots, hstored.blocks, hstored.counts, hstored.done,
          hstored.tailBlock, rfl, hfull⟩
    | room e hroom =>
        obtain rfl := hmine rfl
        rw [hpc] at hstored
        rw [Function.update_self]
        refine ⟨hstored.length, hstored.slots, fun k => ?_, hstored.counts, hstored.done,
          hstored.tailBlock, rfl, hstored.tailBlock hroom⟩
        rw [hstored.blocks k]
        refine or_congr_left (not_congr ⟨fun hk => ?_, fun hk => ?_⟩)
        · rcases hk with hk | ⟨-, ho⟩
          · exact .inl hk
          · cases ho
        · rcases hk with hk | ⟨heq, -⟩
          · exact .inl hk
          · refine absurd ?_ hroom
            have heq : k * blockSize = s.prod.tailIndex := heq
            rw [← heq]
            exact Nat.mul_mod_left k blockSize
    | refuse e tail =>
        obtain rfl := hmine rfl
        rw [hpc] at hstored
        rw [Function.update_self]
        exact ⟨hstored.length, hstored.slots, hstored.blocks, hstored.counts, hstored.done,
          hstored.tailBlock, trivial⟩
    | start e tail =>
        obtain rfl := hmine rfl
        rw [hpc] at hstored
        rw [Function.update_self]
        exact hstored.start fun j hj => h.finished_lt hj
    | noTail e tail hb =>
        obtain rfl := hmine rfl
        obtain ⟨b, htb, hbi⟩ := h.tail_block hpc
        rw [htb] at hb
        have hb : s.prod.blockIndex (tail / blockSize) = none := hb
        rw [hbi] at hb
        cases hb
    | construct e tail k b hk hb =>
        obtain rfl := hmine rfl
        obtain ⟨-, htb, -⟩ := h.tail_block hpc
        obtain rfl : k = tail / blockSize := Option.some.inj (hk.symm.trans htb)
        rw [hpc] at hstored
        rw [Function.update_self]
        exact hstored.construct hb
    | publish e tail =>
        obtain rfl := hown e tail rfl
        obtain rfl := hmine rfl
        rw [hpc] at hstored
        rw [Function.update_self]
        exact hstored.publish fun hm => Nat.lt_irrefl _ (h.moved_lt hm)
    | head c => exact stored_update (hstored.head _) hpc rfl rfl
    | move i b e hb he =>
        exact stored_update (hstored.move (hindex.1.trans_le h.drawn.head_le) hb) hpc rfl rfl
    | setEmpty i e b hb =>
        refine stored_update (hstored.setEmpty hindex.2.1 hb) hpc rfl ?_
        split <;> rfl
    | release i e =>
        exact stored_update (hstored.release hindex.2.2.2 h.taken.finishedMoved fun j hj =>
          h.moved_lt hj) hpc rfl rfl
    | tail | overcommit | trying | empty | count | win | lose | giveUp | noSlot | noBlock =>
        exact stored_update hstored hpc rfl rfl
  · intro hne
    have hq : q.enq = false := by
      rw [← hpc]
      exact h.others t hne
    cases hs with
    | full | room | start | construct => cases hq
    | setEmpty => split <;> rfl
    | _ => rfl

end Sound

section Machine

variable [DecidableEq T] {owner t : T} {s s' : ProducerState T E}

/-- A call begins or is left. -/
theorem Sound.between (h : Sound owner s) {q : ProducerPc E} (hfree : (s.pc t).free = true)
    (hq : q = .elsewhere ∨ q = .deqTail ∨ (t = owner ∧ ∃ e, q = .enqTail e)) :
    Sound owner ⟨s.prod, update s.pc t q⟩ := by
  have hold : (s.pc t).draw = none ∧ (s.pc t).index = none ∧ (s.pc t).enq = false := by
    cases hpc : s.pc t with
    | elsewhere | enqueued | dequeued => exact ⟨rfl, rfl, rfl⟩
    | _ =>
        rw [hpc] at hfree
        cases hfree
  obtain ⟨hdraw, hindex, henq⟩ := hold
  have hnew : DrawOk s.prod.draws q ∧ q.draw = none ∧ IndexOk s.prod.shelf q ∧ q.index = none
      ∧ q.releasing = none ∧ OwnerOk s.prod.shelf q ∧ q.opened = false := by
    rcases hq with rfl | rfl | ⟨-, e, rfl⟩ <;> exact ⟨trivial, rfl, trivial, rfl, rfl, trivial, rfl⟩
  obtain ⟨hok, hqd, hiok, hqi, hqr, howner, hopen⟩ := hnew
  refine ⟨h.drawn.pass s.prod.tailIndex (le_refl _) hdraw hok hqd,
    h.taken.pass rfl (fun _ _ hx => hx) rfl rfl rfl hiok hqi hqr hindex, ?_, fun u hu => ?_⟩
  · show Stored s.prod.shelf (update s.pc t q owner)
    by_cases ht : owner = t
    · rw [ht, Function.update_self]
      have hst := h.stored
      rw [ht] at hst
      have hst : Stored s.prod.shelf .elsewhere := hst.congr henq rfl
      rcases hq with rfl | rfl | ⟨-, e, rfl⟩ <;>
        exact ⟨hst.length, hst.slots, hst.blocks, hst.counts, hst.done, hst.tailBlock, trivial⟩
    · rw [Function.update_of_ne ht]
      exact h.stored
  · refine h.others_update (fun hne => ?_) u hu
    rcases hq with rfl | rfl | ⟨ht, -⟩
    · rfl
    · rfl
    · exact absurd ht hne

/-- **One step.** -/
theorem sound_step {act : ProducerAct T E} (h : Sound owner s) (hearly : Early s.prod)
    (hs : threadStep owner s act = some s') : Sound owner s' := by
  cases act with
  | enqueue t e =>
      simp only [threadStep, Option.ite_none_right_eq_some] at hs
      obtain ⟨⟨ht, hfree⟩, hs⟩ := hs
      obtain rfl := Option.some.inj hs
      exact h.between hfree (.inr (.inr ⟨ht, e, rfl⟩))
  | dequeue t =>
      simp only [threadStep, Option.ite_none_right_eq_some] at hs
      obtain ⟨hfree, hs⟩ := hs
      obtain rfl := Option.some.inj hs
      exact h.between hfree (.inr (.inl rfl))
  | leave t =>
      simp only [threadStep, Option.ite_none_right_eq_some] at hs
      obtain ⟨hfree, hs⟩ := hs
      obtain rfl := Option.some.inj hs
      exact h.between hfree (.inl rfl)
  | go t alloc =>
      obtain ⟨⟨p', q'⟩, hp, rfl⟩ := Option.map_eq_some_iff.mp hs
      exact h.effect hearly rfl (producerStep_effect hp)

end Machine

theorem sound_new [DecidableEq T] (owner : T) :
    Sound owner (⟨Producer.new E, fun _ => .elsewhere⟩ : ProducerState T E) where
  drawn :=
    { winsDrawn := fun c hc => absurd hc (Finset.notMem_empty c)
      lossesDrawn := fun c hc => absurd hc (Finset.notMem_empty c)
      disjoint := Finset.disjoint_empty_left _
      claimedWon := Finset.Subset.refl _
      returnedLost := Finset.Subset.refl _
      heads := rfl
      overs := rfl
      covered := Covered.empty
      holds := fun _ => trivial
      unique := fun _ _ _ hc => by cases hc
      settled := fun _ hc => absurd hc (Nat.not_lt_zero _) }
  taken :=
    { movedHead := fun i hi => absurd hi (Finset.notMem_empty i)
      finishedMoved := Finset.Subset.refl _
      holds := fun _ => trivial
      unique := fun _ _ _ hi => by cases hi
      releasing := fun _ _ _ hk => by cases hk
      claimed := fun _ hi => absurd hi (Nat.not_lt_zero _) }
  stored :=
    { length := rfl
      slots := fun _ => rfl
      blocks := fun k => by
        refine iff_of_true rfl (.inl ?_)
        rintro (hlt | ⟨-, ho⟩)
        · exact Nat.not_lt_zero _ hlt
        · cases ho
      counts := fun _ _ hb => by cases hb
      done := fun k hk => absurd hk (Finset.notMem_empty k)
      tailBlock := fun hno => absurd rfl hno
      owner := trivial }
  others _ _ := rfl

theorem subQueue_keeps [DecidableEq T] (owner : T) :
    (subQueue (E := E) owner).Keeps (fun s _ => Early s.prod) (Sound owner) where
  start s hs := by
    obtain rfl : s = ⟨Producer.new E, fun _ => .elsewhere⟩ := hs
    exact sound_new owner
  step _ _ _ h hearly hs := sound_step h hearly hs

/-- **The elements of a sub-queue.**  With any number of threads that take elements
    out: the head never passes the tail; every index below the head has been moved
    out, or exactly one thread is about to do it, and no other index is being moved
    out; the slot of an index holds its element from before the tail passes it until
    it is moved out, whatever blocks have gone back to the pool; and no thread uses a
    slot or a block that is not there. -/
theorem sub_queue_indices [DecidableEq T] {owner : T} {s : ProducerState T E}
    (hr : (subQueue owner).ReachableVia (fun s _ => Early s.prod) s) :
    s.prod.headIndex ≤ s.prod.tailIndex
      ∧ (∀ i, i < s.prod.headIndex ↔ i ∈ s.prod.moved ∨ ∃ t, s.pc t = .deqMove i)
      ∧ (∀ t u i, s.pc t = .deqMove i → (s.pc u = .deqMove i → t = u) ∧ i ∉ s.prod.moved)
      ∧ (∀ i < s.prod.tailIndex, i ∉ s.prod.moved →
          ∃ e, s.prod.slotAt i = some e ∧ s.prod.log[i]? = some e)
      ∧ ∀ t, s.pc t ≠ .garbage := by
  have h := (subQueue_keeps owner).reachable hr
  have hmove : ∀ {t : T} {i : ℕ}, s.pc t = .deqMove i → i < s.prod.headIndex ∧ i ∉ s.prod.moved := by
    intro t i ht
    have hp := h.taken.holds t
    rw [ht] at hp
    exact hp
  refine ⟨h.drawn.head_le, fun i => ⟨h.taken.claimed i, ?_⟩, fun t u i ht => ⟨fun hu => ?_, ?_⟩,
    fun i hi hm => h.element hi hm, fun t ht => ?_⟩
  · rintro (hm | ⟨t, ht⟩)
    · exact h.taken.movedHead i hm
    · exact (hmove ht).1
  · exact h.taken.unique t u i (by rw [ht]; rfl) (by rw [hu]; rfl)
  · exact (hmove ht).2
  · have hp := h.taken.holds t
    rw [ht] at hp
    exact hp

/-- Thread 0 enqueues 7 and 8; thread 1 goes as far as to claim an index. -/
def claimingActs : List (ProducerAct (Fin 2) ℕ) :=
  [.enqueue 0 7, .go 0 true, .go 0 true, .go 0 true, .go 0 true, .dequeue 1, .go 1 true, .go 1 true,
    .enqueue 0 8, .go 0 true, .go 0 true, .go 0 true, .go 1 true, .go 1 true, .go 1 true, .go 1 true]

theorem sub_queue_indices_claiming :
    ∃ s, (subQueue 0).run (⟨Producer.new ℕ, fun _ => .elsewhere⟩ : ProducerState (Fin 2) ℕ)
        claimingActs = some s
      ∧ s.pc 1 = .deqMove 0
      ∧ 0 ∉ s.prod.moved
      ∧ ∃ e, s.prod.slotAt 1 = some e ∧ s.prod.log[1]? = some e := by
  have hok : ∀ (s : ProducerState (Fin 2) ℕ) (_ : ProducerAct (Fin 2) ℕ),
      decide (Early s.prod) = true → Early s.prod := fun _ _ => of_decide_eq_true
  have hr := Machine.ReachableVia.run (M := subQueue 0) hok (.start rfl) claimingActs rfl rfl
  obtain ⟨-, -, hmove, hslot, -⟩ := sub_queue_indices hr
  exact ⟨_, rfl, rfl, (hmove 1 1 0 rfl).2, hslot 1 (by decide) (by decide)⟩

end HThread.RunQueue
