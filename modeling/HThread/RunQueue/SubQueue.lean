/-
  HThread.RunQueue.SubQueue — a sub-queue is a queue.

  The elements between the head and the tail wait; a thread has one in its hand
  from the moment it claims an index until it goes on with what `dequeue` has
  returned.  Seen like this, the store to `tailIndex` puts an element at the end of
  a lane, the claim of an index takes the first one, the thread's next call gives
  it away, and no other step is seen at all (Interleave.Fifo).

  Key lemmas:
    * `Sound.lane_effect` — what one step does to the lane.
    * `alone_run`         — the steps of a thread that is left alone.
  Main results:
    * `subQueue_refines`   — a sub-queue implements a lane.
    * `sub_queue_complete` — a thread that is alone with the sub-queue finds an
      element iff there is one.
-/
import HThread.Interleave.Fifo
import HThread.Interleave.Refinement
import HThread.RunQueue.Storage

namespace HThread.RunQueue

open Interleave
open Function (update)

variable {E T : Type}

/-! ## §1. The lane. -/

/-- The elements that wait in a sub-queue. -/
def Producer.waiting (p : Producer E) : List E := p.log.drop p.headIndex

/-- The element that a thread at this point has taken out. -/
def Producer.inHand (p : Producer E) : ProducerPc E → Option E
  | .deqMove i => p.log[i]?
  | .deqSetEmpty _ e | .deqRelease _ e => some e
  | .dequeued ret => ret
  | _ => none

/-- What the lane `k` sees of a step of thread `t` at this point. -/
def Producer.laneLabel {P : Type} (p : Producer E) (t : T) (k : P) :
    ProducerPc E → List (LaneAct P T E)
  | .enqPublish element _ => [.put k element]
  | .deqHead _ => p.log[p.headIndex]?.toList.map (.take t k)
  | _ => []

/-- What a step of one thread does to a lane and to its hand. -/
inductive LaneEffect {P : Type} (t : T) (k : P) (es : List E) (h : Option E) (es' : List E)
    (h' : Option E) : List (LaneAct P T E) → Prop
  | same : es' = es → h' = h → LaneEffect t k es h es' h' []
  | put e : es' = es ++ [e] → h' = h → LaneEffect t k es h es' h' [.put k e]
  | take e : h = none → es.head? = some e → es' = es.tail → h' = some e →
      LaneEffect t k es h es' h' [.take t k e]

variable {owner t : T} {s : ProducerState T E} {p' : Producer E} {q q' : ProducerPc E}

/-- **One step, as the lane sees it.** -/
theorem Sound.lane_effect {P : Type} (k : P) (h : Sound owner s) (hpc : s.pc t = q)
    (hs : Effect s.prod q p' q') :
    LaneEffect t k s.prod.waiting (s.prod.inHand q) p'.waiting (p'.inHand q')
      (s.prod.laneLabel t k q) := by
  have hindex := h.taken.holds t
  rw [hpc] at hindex
  have hle : s.prod.headIndex ≤ s.prod.tailIndex := h.drawn.head_le
  have hlen : s.prod.log.length = s.prod.tailIndex := h.stored.length
  cases hs with
  | publish e tail =>
      refine .put e ?_ rfl
      show (s.prod.log ++ [e]).drop s.prod.headIndex = _
      exact List.drop_append_of_le_length (by omega)
  | head c =>
      have hlt : s.prod.headIndex < s.prod.tailIndex := h.drawn.head_lt hpc
      obtain ⟨e, he⟩ : ∃ e, s.prod.log[s.prod.headIndex]? = some e :=
        ⟨_, List.getElem?_eq_getElem (by omega)⟩
      show LaneEffect t k _ _ _ _ (s.prod.log[s.prod.headIndex]?.toList.map (.take t k))
      rw [he]
      refine .take e rfl ?_ ?_ he
      · rw [Producer.waiting, List.head?_drop]
        exact he
      · rw [Producer.waiting, Producer.waiting, List.tail_drop]
  | move i b e hb he =>
      obtain ⟨e', he', hlog⟩ := h.element (hindex.1.trans_le hle) hindex.2
      have hsame : s.prod.slotAt i = some e := by
        rw [Producer.slotAt, hb]
        exact he
      obtain rfl := Option.some.inj (hsame.symm.trans he')
      exact .same rfl hlog.symm
  | setEmpty i e b hb =>
      refine .same rfl ?_
      split <;> rfl
  | noSlot i hslot =>
      obtain ⟨e, he, -⟩ := h.element (hindex.1.trans_le hle) hindex.2
      rw [hslot] at he
      cases he
  | noBlock i e hb =>
      obtain ⟨b, hbi⟩ := h.stored.block_of_unfinished (h.moved_lt hindex.1) hindex.2.1
      have hbi : s.prod.blockIndex (i / blockSize) = some b := hbi
      rw [hb] at hbi
      cases hbi
  | full | room | refuse | start | noTail | construct | tail | overcommit | trying | empty | count
  | win | lose | giveUp | release => exact .same rfl rfl

/-- The log only grows. -/
theorem Effect.log_grows (hs : Effect s.prod q p' q') : ∃ es, p'.log = s.prod.log ++ es := by
  cases hs with
  | publish e tail => exact ⟨[e], rfl⟩
  | _ => exact ⟨[], (List.append_nil _).symm⟩

/-- The hands of the others stay as they are. -/
theorem Sound.inHand_other (h : Sound owner s) (hs : Effect s.prod q p' q') (u : T) :
    p'.inHand (s.pc u) = s.prod.inHand (s.pc u) := by
  have hindex := h.taken.holds u
  cases hu : s.pc u with
  | deqMove i =>
      rw [hu] at hindex
      have hi : i < s.prod.headIndex := hindex.1
      have hle : s.prod.headIndex ≤ s.prod.tailIndex := h.drawn.head_le
      have hlen : s.prod.log.length = s.prod.tailIndex := h.stored.length
      obtain ⟨es, hes⟩ := hs.log_grows
      show p'.log[i]? = s.prod.log[i]?
      rw [hes]
      exact List.getElem?_append_left (by omega)
  | _ => rfl

/-! ## §2. The refinement. -/

/-- The lane that a sub-queue stands for. -/
def ProducerState.lane (s : ProducerState T E) : Lanes Unit T E where
  items _ := s.prod.waiting
  hand t := s.prod.inHand (s.pc t)

variable [DecidableEq T]

/-- The hands after a step in the code. -/
theorem Sound.hand_update (h : Sound owner s) (hs : Effect s.prod (s.pc t) p' q') :
    (fun u => p'.inHand (update s.pc t q' u))
      = update (fun u => s.prod.inHand (s.pc u)) t (p'.inHand q') := by
  funext u
  by_cases hu : u = t
  · rw [hu, Function.update_self, Function.update_self]
  · rw [Function.update_of_ne hu, Function.update_of_ne hu]
    exact h.inHand_other hs u

section Lanes

variable [DecidableEq E]

/-- What a step does to one lane, as a run of the lanes. -/
theorem LaneEffect.run {P : Type} [DecidableEq P] {l : Lanes P T E} {k : P} {es' : List E}
    {h' : Option E} {as : List (LaneAct P T E)}
    (hl : LaneEffect t k (l.items k) (l.hand t) es' h' as) :
    lanes.run l as = some ⟨update l.items k es', update l.hand t h'⟩ := by
  cases hl with
  | same hes hh =>
      rw [hes, hh, Function.update_eq_self, Function.update_eq_self]
      rfl
  | put e hes hh =>
      rw [hes, hh, Function.update_eq_self]
      rfl
  | take e hh hhead hes hh' =>
      have hstep : lanes.step l (.take t k e)
          = some ⟨update l.items k (l.items k).tail, update l.hand t (some e)⟩ :=
        if_pos ⟨hh, hhead⟩
      rw [hes, hh']
      show (lanes.step l (.take t k e)).bind _ = _
      rw [hstep]
      rfl

/-- What the lane sees of a step: the stores to `tailIndex`, the claims of indices, and the
    calls of threads that go on with what `dequeue` has returned. -/
def ProducerState.label (s : ProducerState T E) : ProducerAct T E → List (LaneAct Unit T E)
  | .go t _ => s.prod.laneLabel t () (s.pc t)
  | .enqueue t _ | .dequeue t | .leave t =>
      match s.pc t with
      | .dequeued (some element) => [.give t element]
      | _ => []

omit [DecidableEq T] [DecidableEq E] in
theorem ProducerState.label_call (s : ProducerState T E) {act : ProducerAct T E}
    (hact : act = .dequeue t ∨ act = .leave t ∨ ∃ e, act = .enqueue t e)
    (hfree : (s.pc t).free = true) :
    s.label act = (s.lane.hand t).toList.map (.give t) := by
  have hlabel : s.label act = match s.pc t with
      | .dequeued (some element) => [.give t element]
      | _ => [] := by
    rcases hact with rfl | rfl | ⟨e, rfl⟩ <;> rfl
  rw [hlabel]
  show _ = (s.prod.inHand (s.pc t)).toList.map _
  cases hpc : s.pc t with
  | elsewhere | enqueued => rfl
  | dequeued ret => cases ret <;> rfl
  | _ =>
      rw [hpc] at hfree
      cases hfree

/-- A thread goes on with what it has in its hand. -/
theorem lanes_give {P : Type} [DecidableEq P] (l : Lanes P T E) (t : T) :
    lanes.run l ((l.hand t).toList.map (.give t)) = some { l with hand := update l.hand t none } := by
  cases hhand : l.hand t with
  | none =>
      have hsame : update l.hand t none = l.hand :=
        (congrArg (update l.hand t) hhand.symm).trans (Function.update_eq_self ..)
      rw [hsame]
      rfl
  | some e =>
      have hstep : lanes.step l (.give t e) = some { l with hand := update l.hand t none } :=
        if_pos hhand
      show (lanes.step l (.give t e)).bind _ = _
      rw [hstep]
      rfl

/-- **A sub-queue implements a lane**: the stores to `tailIndex` put the elements of the calls
    of `enqueue` into it, a claimed index takes the first one for the thread that has claimed
    it, and `dequeue` returns that; no other step changes the lane or a hand. -/
theorem subQueue_refines (owner : T) :
    (subQueue owner).RefinesBy (lanes (P := Unit) (A := T) (E := E)) (fun s _ => Early s.prod)
      ProducerState.lane (fun s act _ => s.label act) where
  start s hs := by
    obtain rfl : s = ⟨Producer.new E, fun _ => .elsewhere⟩ := hs
    rfl
  step s act s' hr hearly hs := by
    have h := (subQueue_keeps owner).reachable hr
    have hcall : ∀ t q, (act = .dequeue t ∨ act = .leave t ∨ ∃ e, act = .enqueue t e) →
        (s.pc t).free = true → s.prod.inHand q = none → s' = ⟨s.prod, update s.pc t q⟩ →
        lanes.run s.lane (s.label act) = some s'.lane := by
      rintro t q hact hfree hnone rfl
      rw [s.label_call hact hfree, lanes_give, ← hnone]
      exact congrArg (fun hand => some (⟨_, hand⟩ : Lanes Unit T E))
        (Function.comp_update s.prod.inHand s.pc t q).symm
    cases act with
    | enqueue t e =>
        simp only [subQueue, threadStep, Option.ite_none_right_eq_some] at hs
        exact hcall t _ (.inr (.inr ⟨e, rfl⟩)) hs.1.2 rfl (Option.some.inj hs.2).symm
    | dequeue t =>
        simp only [subQueue, threadStep, Option.ite_none_right_eq_some] at hs
        exact hcall t _ (.inl rfl) hs.1 rfl (Option.some.inj hs.2).symm
    | leave t =>
        simp only [subQueue, threadStep, Option.ite_none_right_eq_some] at hs
        exact hcall t _ (.inr (.inl rfl)) hs.1 rfl (Option.some.inj hs.2).symm
    | go t alloc =>
        obtain ⟨⟨p', q'⟩, hp, rfl⟩ := Option.map_eq_some_iff.mp hs
        have heff := producerStep_effect hp
        have hlane : (⟨p', update s.pc t q'⟩ : ProducerState T E).lane
            = ⟨update s.lane.items () p'.waiting, update s.lane.hand t (p'.inHand q')⟩ := by
          show (⟨fun _ => p'.waiting, fun u => p'.inHand (update s.pc t q' u)⟩ : Lanes Unit T E) = _
          rw [h.hand_update heff]
          congr 1
        rw [hlane]
        exact (h.lane_effect () rfl heff).run

omit [DecidableEq T] [DecidableEq E] in
/-- Two elements are put, and thread 1 takes the first one. -/
theorem subQueue_refines_claiming :
    ∃ s, (subQueue 0).run (⟨Producer.new ℕ, fun _ => .elsewhere⟩ : ProducerState (Fin 2) ℕ)
        claimingActs = some s
      ∧ lanes.run (⟨Producer.new ℕ, fun _ => .elsewhere⟩ : ProducerState (Fin 2) ℕ).lane
        [.put () 7, .put () 8, .take 1 () 7] = some s.lane := by
  have hok : ∀ (s : ProducerState (Fin 2) ℕ) (_ : ProducerAct (Fin 2) ℕ),
      decide (Early s.prod) = true → Early s.prod := fun _ _ => of_decide_eq_true
  exact ⟨_, rfl, (subQueue_refines 0).run (.start rfl) rfl
    (Machine.stepsMeet_of_check hok claimingActs _ rfl)⟩

end Lanes

/-! ## §3. A thread that is alone. -/

/-- The steps of one thread in the code, the others standing still. -/
def alone (alloc : Bool) (x : Producer E × ProducerPc E) : Option (Producer E × ProducerPc E) :=
  producerStep x.1 alloc x.2

/-- They are steps of the machine. -/
theorem alone_run {alloc : Bool} {n : ℕ} {p : Producer E} (pc : T → ProducerPc E)
    (h : Machine.stepN (alone alloc) n (p, q) = some (p', q')) :
    Machine.stepN ((subQueue owner).drive fun _ => .go t alloc) n ⟨p, update pc t q⟩
      = some ⟨p', update pc t q'⟩ := by
  refine Machine.stepN_lift (fun x => (⟨x.1, update pc t x.2⟩ : ProducerState T E)) ?_ h
  intro x y hxy
  show (producerStep x.1 alloc (update pc t x.2 t)).map _ = _
  rw [Function.update_self, show producerStep x.1 alloc x.2 = some y from hxy, Option.map_some,
    Function.update_idem]

/-- `dequeue` up to the claim, when the counters show an element. -/
theorem dequeue_claims {p : Producer E} (alloc : Bool) (hearly : Early p)
    (hcount : p.dequeueOptimisticCount = p.headIndex + p.dequeueOvercommit)
    (hlt : p.headIndex < p.tailIndex) :
    Machine.stepN (alone alloc) 6 (p, .deqTail)
      = some ({ p with
          dequeueOptimisticCount := p.dequeueOptimisticCount + 1
          wins := insert p.dequeueOptimisticCount p.wins
          headIndex := p.headIndex + 1
          claimed := insert p.dequeueOptimisticCount p.claimed }, .deqMove p.headIndex) := by
  have htail := hearly.1
  have hopt := hearly.2
  have hle : p.dequeueOvercommit ≤ p.dequeueOptimisticCount := by omega
  have hcmp : circularLessThan (word p.dequeueOptimisticCount - word p.dequeueOvercommit)
      (word p.tailIndex) = true := by
    rw [word_sub hle, circularLessThan_word (by omega) (by omega)]
    exact decide_eq_true (by omega)
  simp [Machine.stepN, alone, producerStep, enqueue, dequeue, hcmp]

/-- `dequeue` when the counters show nothing. -/
theorem dequeue_refuses {p : Producer E} (alloc : Bool) (hearly : Early p)
    (hcount : p.dequeueOptimisticCount = p.headIndex + p.dequeueOvercommit)
    (hle : p.tailIndex ≤ p.headIndex) :
    Machine.stepN (alone alloc) 3 (p, .deqTail) = some (p, .dequeued none) := by
  have htail := hearly.1
  have hopt := hearly.2
  have hover : p.dequeueOvercommit ≤ p.dequeueOptimisticCount := by omega
  have hcmp : circularLessThan (word p.dequeueOptimisticCount - word p.dequeueOvercommit)
      (word p.tailIndex) = false := by
    rw [word_sub hover, circularLessThan_word (by omega) (by omega)]
    exact decide_eq_false (by omega)
  simp [Machine.stepN, alone, producerStep, enqueue, dequeue, hcmp]

/-- `dequeue` after the move: the element is counted, and the block may go back. -/
theorem dequeue_counts {p : Producer E} (alloc : Bool) {i : ℕ} {b : Block E} (e : E)
    (hb : p.blockIndex (i / blockSize) = some b) :
    ∃ n p', Machine.stepN (alone alloc) n (p, .deqSetEmpty i e) = some (p', .dequeued (some e))
      ∧ p'.log = p.log ∧ p'.headIndex = p.headIndex := by
  by_cases hlast : b.elementsCompletelyDequeued = blockSize - 1
  · have hstep : alone alloc (p, .deqSetEmpty i e)
        = some ({ p.setBlock (i / blockSize)
            (some { b with elementsCompletelyDequeued := b.elementsCompletelyDequeued + 1 }) with
          finished := insert i p.finished }, .deqRelease i e) := by
      simp [alone, producerStep, enqueue, dequeue, hb, hlast]
    exact ⟨2, _, Machine.stepN_cons hstep rfl, rfl, rfl⟩
  · have hstep : alone alloc (p, .deqSetEmpty i e)
        = some ({ p.setBlock (i / blockSize)
            (some { b with elementsCompletelyDequeued := b.elementsCompletelyDequeued + 1 }) with
          finished := insert i p.finished }, .dequeued (some e)) := by
      simp [alone, producerStep, enqueue, dequeue, hb, hlast]
    exact ⟨1, _, Machine.stepN_cons hstep rfl, rfl, rfl⟩

/-- `dequeue` from the claim to its end. -/
theorem dequeue_moves {p : Producer E} (alloc : Bool) {i : ℕ} {e : E}
    (hslot : p.slotAt i = some e) :
    ∃ n p', Machine.stepN (alone alloc) n (p, .deqMove i) = some (p', .dequeued (some e))
      ∧ p'.log = p.log ∧ p'.headIndex = p.headIndex := by
  obtain ⟨b, hb, he⟩ := Option.bind_eq_some_iff.mp hslot
  have hmove : alone alloc (p, .deqMove i)
      = some ({ p.setBlock (i / blockSize) (some (b.put (i % blockSize) none)) with
          moved := insert i p.moved }, .deqSetEmpty i e) := by
    simp [alone, producerStep, enqueue, dequeue, hb, he]
  obtain ⟨n, p', hn, hlog, hhead⟩ := dequeue_counts
    (p := { p.setBlock (i / blockSize) (some (b.put (i % blockSize) none)) with
      moved := insert i p.moved }) alloc e (Function.update_self _ _ _)
  exact ⟨n + 1, p', Machine.stepN_cons hmove hn, hlog, hhead⟩

omit [DecidableEq T] in
/-- `dequeue` of a thread that is alone takes the first element. -/
theorem Sound.dequeue_alone (h : Sound owner s) (alloc : Bool) (hearly : Early s.prod)
    (hidle : ∀ u, (s.pc u).draw = none) :
    ∃ n p', Machine.stepN (alone alloc) n (s.prod, .deqTail)
        = some (p', .dequeued s.prod.waiting.head?)
      ∧ p'.waiting = s.prod.waiting.tail := by
  have hcount : s.prod.dequeueOptimisticCount = s.prod.headIndex + s.prod.dequeueOvercommit :=
    h.drawn.count_eq hidle
  have hlen : s.prod.log.length = s.prod.tailIndex := h.stored.length
  by_cases hlt : s.prod.headIndex < s.prod.tailIndex
  · obtain ⟨e, hslot, hlog⟩ := h.element hlt fun hm =>
      Nat.lt_irrefl _ (h.taken.movedHead _ hm)
    obtain ⟨n, p', hn, hlog', hhead'⟩ := dequeue_moves
      (p := { s.prod with
        dequeueOptimisticCount := s.prod.dequeueOptimisticCount + 1
        wins := insert s.prod.dequeueOptimisticCount s.prod.wins
        headIndex := s.prod.headIndex + 1
        claimed := insert s.prod.dequeueOptimisticCount s.prod.claimed }) alloc hslot
    have hfirst : s.prod.waiting.head? = some e := by
      rw [Producer.waiting, List.head?_drop]
      exact hlog
    rw [hfirst]
    refine ⟨_, p', Machine.stepN_add (dequeue_claims alloc hearly hcount hlt) hn, ?_⟩
    show p'.log.drop p'.headIndex = _
    rw [hlog', hhead', Producer.waiting, List.tail_drop]
  · have hnone : s.prod.waiting = [] := List.drop_eq_nil_of_le (by omega)
    rw [hnone]
    exact ⟨3, s.prod, dequeue_refuses alloc hearly hcount (by omega), hnone⟩

/-- **Alone with the sub-queue.**  A thread that calls `dequeue` while nobody else
    is between drawing a number and settling it gets the first element that waits, and
    nothing if none waits. -/
theorem sub_queue_complete (t : T) (alloc : Bool)
    (hr : (subQueue owner).ReachableVia (fun s _ => Early s.prod) s) (hearly : Early s.prod)
    (hidle : ∀ u, (s.pc u).draw = none) :
    ∃ s', Machine.Ends ((subQueue owner).drive fun _ => .go t alloc)
        ⟨s.prod, update s.pc t .deqTail⟩ s'
      ∧ s'.pc = update s.pc t (.dequeued s.prod.waiting.head?)
      ∧ s'.prod.waiting = s.prod.waiting.tail := by
  obtain ⟨n, p', hrun, hrest⟩ :=
    ((subQueue_keeps owner).reachable hr).dequeue_alone alloc hearly hidle
  refine ⟨_, ⟨⟨n, alone_run s.pc hrun⟩, ?_⟩, rfl, hrest⟩
  show (producerStep p' alloc (update s.pc t _ t)).map _ = none
  rw [Function.update_self]
  rfl

/-- Thread 0 enqueues 7 and 8, and thread 1 has claimed the 7; then thread 1 is done and
    thread 0 takes the 8. -/
theorem sub_queue_complete_two :
    ∃ s s', (subQueue 0).run (⟨Producer.new ℕ, fun _ => .elsewhere⟩ : ProducerState (Fin 2) ℕ)
        claimingActs = some s
      ∧ Machine.Ends ((subQueue 0).drive fun _ => .go 0 true)
        ⟨s.prod, update s.pc 0 .deqTail⟩ s'
      ∧ s'.pc = update s.pc 0 (.dequeued (some 8)) := by
  have hok : ∀ (s : ProducerState (Fin 2) ℕ) (_ : ProducerAct (Fin 2) ℕ),
      decide (Early s.prod) = true → Early s.prod := fun _ _ => of_decide_eq_true
  have hr := Machine.ReachableVia.run (M := subQueue 0) hok (.start rfl) claimingActs rfl rfl
  obtain ⟨s', hend, hpc, -⟩ := sub_queue_complete 0 true hr (by decide) (by decide)
  exact ⟨_, s', rfl, hend, hpc⟩

end HThread.RunQueue
