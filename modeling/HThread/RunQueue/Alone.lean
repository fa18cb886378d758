/-
  HThread.RunQueue.Alone — a worker that is left alone gets an element.

  `wait_dequeue` looks for an element again and again once it has a permit.  The
  account of the permits says that there is one, somewhere in the list.  If
  nobody else is in the middle of a claim, the first loop of `try_dequeue` finds
  a sub-queue that is not empty, and `dequeue` succeeds there.

  Key lemmas:
    * `score_alone`       — the first loop ends at a sub-queue with an element.
    * `try_dequeue_alone` — one round is enough.
  Main result:
    * `get_wait_alone`    — `wait_dequeue` returns an element if `m_count` shows one.
-/
import HThread.RunQueue.Elements

namespace HThread.RunQueue

open Interleave
open Function (update)

variable {T E : Type} [DecidableEq T]

/-- The steps of one thread, the others standing still. -/
def queueAlone (t : T) (x : VsQueue T E × QueuePc T E) : Option (VsQueue T E × QueuePc T E) :=
  queueStep x.1 t true x.2

section Lift

variable {s s' : VsQueue T E} {t : T} {n : ℕ} {q q' : QueuePc T E}

/-- They are steps of the machine. -/
theorem queueAlone_run (pc : T → QueuePc T E)
    (h : Machine.stepN (queueAlone t) n (s, q) = some (s', q')) :
    Machine.stepN (vsQueue.drive fun _ => .go t true) n ⟨s, update pc t q⟩
      = some ⟨s', update pc t q'⟩ := by
  refine Machine.stepN_lift (fun x => (⟨x.1, update pc t x.2⟩ : QueueState T E)) ?_ h
  intro x y hxy
  show (queueStep x.1 t true (update pc t x.2 t)).map _ = _
  rw [Function.update_self, show queueStep x.1 t true x.2 = some y from hxy, Option.map_some,
    Function.update_idem]

/-- The steps in a sub-queue. -/
theorem sub_alone (site : Site T) {p p' : Producer E} {x x' : ProducerPc E}
    (h : Machine.stepN (alone true) n (p, x) = some (p', x')) :
    Machine.stepN (queueAlone t) n ({ s with sub := update s.sub (site.producer t) p }, .inSub site x)
      = some ({ s with sub := update s.sub (site.producer t) p' }, .inSub site x') := by
  refine Machine.stepN_lift (fun y : Producer E × ProducerPc E =>
    (({ s with sub := update s.sub (site.producer t) y.1 } : VsQueue T E), QueuePc.inSub site y.2))
    ?_ h
  intro y z hyz
  show queueStep _ t true (.inSub site y.2) = _
  simp only [queueStep]
  rw [Function.update_self, show producerStep y.1 true y.2 = some z from hyz]
  show some (({ s with sub := update (update s.sub _ y.1) _ z.1 } : VsQueue T E), _) = _
  rw [Function.update_idem]

/-- The steps in the semaphore. -/
theorem sema_alone {σ σ' : LightweightSemaphore} {x x' : SemaPc}
    (h : Machine.stepN semaAlone n (σ, x) = some (σ', x')) :
    Machine.stepN (queueAlone t) n (({ s with sema := σ } : VsQueue T E), .wait x)
      = some ({ s with sema := σ' }, .wait x') := by
  refine Machine.stepN_lift (fun y : LightweightSemaphore × SemaPc =>
    (({ s with sema := y.1 } : VsQueue T E), (QueuePc.wait y.2 : QueuePc T E))) ?_ h
  intro y z hyz
  show queueStep _ t true (.wait y.2) = _
  simp only [queueStep, Bool.not_true]
  rw [show semaStep y.1 false y.2 = some z from hyz]

end Lift

/-! ## §1. The first loop. -/

/-- The size of a sub-queue that stands still. -/
theorem sizeApprox_pos {p : Producer E} (hearly : Early p) (hlen : p.log.length = p.tailIndex)
    (hle : p.headIndex ≤ p.tailIndex) :
    (0 < sizeApprox p.tailIndex p.headIndex ↔ p.waiting ≠ []) := by
  have htail := hearly.1
  have hne : p.waiting ≠ [] ↔ p.headIndex < p.tailIndex := by
    unfold Producer.waiting
    rw [Ne, List.drop_eq_nil_iff, hlen, Nat.not_le]
  unfold sizeApprox
  rw [hne, circularLessThan_word (by omega) (by omega), word_sub hle]
  by_cases hlt : p.headIndex < p.tailIndex
  · rw [if_pos (decide_eq_true hlt)]
    refine iff_of_true ?_ hlt
    show 0 < (word (p.tailIndex - p.headIndex)).toNat
    rw [word, BitVec.toNat_ofNat, Nat.mod_eq_of_lt (by omega)]
    omega
  · rw [if_neg (by simpa using hlt)]
    exact iff_of_false (by decide) hlt

variable {s : VsQueue T E} {t : T}

/-- Two steps compare one sub-queue. -/
theorem scoreTail_alone (ptr : T) (next : List T) (n : ℕ) (best : Option T) (size : BitVec 64) :
    Machine.stepN (queueAlone t) 2 (s, .scoreTail ptr next n best size)
      = some (s,
        if 0 < sizeApprox (s.sub ptr).tailIndex (s.sub ptr).headIndex then
          if size < sizeApprox (s.sub ptr).tailIndex (s.sub ptr).headIndex then
            scoreFrom next (n + 1) (some ptr)
              (sizeApprox (s.sub ptr).tailIndex (s.sub ptr).headIndex)
          else scoreFrom next (n + 1) best size
        else scoreFrom next n best size) := rfl

/-- **The first loop.**  It ends at a sub-queue with an element, if it has seen one or there
    is one still to come. -/
theorem score_alone (hsize : ∀ k, 0 < sizeApprox (s.sub k).tailIndex (s.sub k).headIndex
      ↔ (s.sub k).waiting ≠ []) (ptrs : List T) :
    ∀ (n : ℕ) (best : Option T) (size : BitVec 64), (best = none → n = 0 ∧ size = 0) →
      (∀ b, best = some b → (s.sub b).waiting ≠ []) →
      (0 < n ∨ ∃ k ∈ ptrs, (s.sub k).waiting ≠ []) →
      ∃ m b, Machine.stepN (queueAlone t) m (s, scoreFrom ptrs n best size)
          = some (s, .inSub (.best b) .deqTail)
        ∧ (s.sub b).waiting ≠ [] := by
  have hend : ∀ (n : ℕ) (best : Option T), (best = none → n = 0) →
      (∀ b, best = some b → (s.sub b).waiting ≠ []) → 0 < n →
      ∃ m b, Machine.stepN (queueAlone t) m (s, scoreEnd n best)
          = some (s, .inSub (.best b) .deqTail)
        ∧ (s.sub b).waiting ≠ [] := by
    intro n best hnone hbest hpos
    cases best with
    | none => exact absurd (hnone rfl) (Nat.pos_iff_ne_zero.mp hpos)
    | some b =>
        refine ⟨0, b, ?_, hbest b rfl⟩
        unfold scoreEnd
        rw [if_pos hpos]
        rfl
  induction ptrs with
  | nil =>
      rintro n best size hnone hbest (hpos | ⟨k, hk, -⟩)
      · exact hend n best (fun hb => (hnone hb).1) hbest hpos
      · cases hk
  | cons ptr next ih =>
      intro n best size hnone hbest hsome
      by_cases hn : n < 3
      · have hfrom : (scoreFrom (ptr :: next) n best size : QueuePc T E)
            = .scoreTail ptr next n best size := if_pos hn
        rw [hfrom]
        -- the rest of the loop, from wherever the comparison leads
        have hcompare := scoreTail_alone (s := s) (t := t) ptr next n best size
        by_cases hptr : (s.sub ptr).waiting ≠ []
        · rw [if_pos ((hsize ptr).mpr hptr)] at hcompare
          by_cases hlonger : size < sizeApprox (s.sub ptr).tailIndex (s.sub ptr).headIndex
          · rw [if_pos hlonger] at hcompare
            obtain ⟨m, b, hm, hb⟩ := ih (n + 1) (some ptr) _ (fun he => by cases he)
              (fun b he => Option.some.inj he ▸ hptr) (.inl (Nat.succ_pos n))
            exact ⟨2 + m, b, Machine.stepN_add hcompare hm, hb⟩
          · rw [if_neg hlonger] at hcompare
            have hnone' : best = none → n + 1 = 0 ∧ size = 0 := by
              intro he
              rw [(hnone he).2] at hlonger
              exact absurd ((hsize ptr).mpr hptr) hlonger
            obtain ⟨m, b, hm, hb⟩ := ih (n + 1) best size hnone' hbest (.inl (Nat.succ_pos n))
            exact ⟨2 + m, b, Machine.stepN_add hcompare hm, hb⟩
        · rw [if_neg fun hpos => hptr ((hsize ptr).mp hpos)] at hcompare
          have hsome' : 0 < n ∨ ∃ k ∈ next, (s.sub k).waiting ≠ [] := by
            rcases hsome with hpos | ⟨k, hk, hkw⟩
            · exact .inl hpos
            · rcases List.mem_cons.mp hk with rfl | hk
              · exact absurd hkw hptr
              · exact .inr ⟨k, hk, hkw⟩
          obtain ⟨m, b, hm, hb⟩ := ih n best size hnone hbest hsome'
          exact ⟨2 + m, b, Machine.stepN_add hcompare hm, hb⟩
      · have hfrom : (scoreFrom (ptr :: next) n best size : QueuePc T E) = scoreEnd n best := if_neg hn
        rw [hfrom]
        exact hend n best (fun hb => (hnone hb).1) hbest (by omega)

/-! ## §2. One round. -/

variable [Fintype T] {pc : T → QueuePc T E}

/-- A thread with a permit has an element to find, in a sub-queue of the list. -/
theorem QueueOk.some_waiting (h : QueueOk s pc) (ht : (pc t).holding = 1) :
    ∃ k ∈ s.producerListTail, (s.sub k).waiting ≠ [] := by
  by_contra hno
  -- then no sub-queue has an element: those outside the list are new
  have hall : ∀ k, (s.sub k).tailIndex = (s.sub k).headIndex := by
    intro k
    have hle : (s.sub k).headIndex ≤ (s.sub k).tailIndex := (h.subs k).drawn.head_le
    have hlen : (s.sub k).log.length = (s.sub k).tailIndex := (h.subs k).stored.length
    by_cases hk : k ∈ s.producerListTail
    · have hempty : (s.sub k).waiting = [] := by
        by_contra hne
        exact hno ⟨k, hk, hne⟩
      have hdrop : (s.sub k).log.length ≤ (s.sub k).headIndex := List.drop_eq_nil_iff.mp hempty
      omega
    · have hzero := (h.listed k hk).1
      omega
  have hsum : tally Producer.tailIndex s.sub = tally Producer.headIndex s.sub :=
    Finset.sum_congr rfl fun k _ => hall k
  have hmine := le_tally QueuePc.holding pc t
  have haccount := h.account
  omega

/-- **One round is enough** for a thread with a permit, if nobody else is in the middle of a
    claim. -/
theorem try_dequeue_alone (h : QueueOk s pc) (hearly : AllEarly s) (ht : pc t = .score)
    (hidle : ∀ u k, ((pc u).inProducer u k).draw = none) :
    ∃ m s' k e, Machine.stepN (queueAlone t) m (s, .score) = some (s', .dequeued (some e))
      ∧ (s.sub k).waiting = e :: (s'.sub k).waiting ∧ ∀ j, j ≠ k → s'.sub j = s.sub j := by
  have hsize : ∀ k, 0 < sizeApprox (s.sub k).tailIndex (s.sub k).headIndex
      ↔ (s.sub k).waiting ≠ [] := fun k =>
    sizeApprox_pos (hearly k) (h.subs k).stored.length (h.subs k).drawn.head_le
  have hload : queueAlone t (s, .score) = some (s, scoreFrom s.producerListTail 0 none 0) := rfl
  obtain ⟨m, b, hscan, hb⟩ := score_alone (t := t) hsize s.producerListTail 0 none 0
    (fun _ => ⟨rfl, rfl⟩) (fun _ hb => by cases hb)
    (.inr (h.some_waiting (by rw [ht]; rfl)))
  obtain ⟨e, es, hes⟩ := List.exists_cons_of_ne_nil hb
  obtain ⟨n, p', hdeq, hrest⟩ := (h.subs b).dequeue_alone true (hearly b) fun u => hidle u b
  have hfirst : (s.sub b).waiting.head? = some e := by
    rw [hes]
    rfl
  have hrest : p'.waiting = (s.sub b).waiting.tail := hrest
  have hdeq : Machine.stepN (alone true) n (s.sub b, .deqTail) = some (p', .dequeued (some e)) :=
    hfirst ▸ hdeq
  have hsub := sub_alone (s := s) (t := t) (.best b) hdeq
  have hself : ({ s with sub := update s.sub (Site.producer t (.best b)) (s.sub b) } : VsQueue T E)
      = s := by
    rw [show Site.producer t (.best b) = b from rfl, Function.update_eq_self]
  rw [hself] at hsub
  have hfound : Machine.stepN (queueAlone t) 1
      (({ s with sub := update s.sub b p' } : VsQueue T E), .inSub (.best b) (.dequeued (some e)))
      = some (({ s with sub := update s.sub b p' } : VsQueue T E), .dequeued (some e)) := rfl
  refine ⟨_, _, b, e,
    Machine.stepN_cons hload (Machine.stepN_add (Machine.stepN_add hscan hsub) hfound), ?_, ?_⟩
  · show (s.sub b).waiting = e :: (update s.sub b p' b).waiting
    rw [Function.update_self, hrest, hes]
    rfl
  · intro j hj
    exact Function.update_of_ne hj _ _

/-! ## §3. From the call to the return. -/

/-- The steps in the semaphore keep the queue in order. -/
theorem QueueOk.sema_alone {n : ℕ} {σ σ' : LightweightSemaphore} {x x' : SemaPc}
    (h : QueueOk { s with sema := σ } (update pc t (.wait x))) (hearly : AllEarly s)
    (hrun : Machine.stepN semaAlone n (σ, x) = some (σ', x')) :
    QueueOk { s with sema := σ' } (update pc t (.wait x')) := by
  induction n generalizing σ x with
  | zero =>
      obtain ⟨rfl, rfl⟩ := Prod.mk.inj (Option.some.inj hrun)
      exact h
  | succ n ih =>
      obtain ⟨⟨σ₁, x₁⟩, hstep, hrest⟩ := Machine.stepN_succ hrun
      refine ih ?_ hrest
      have heff : QueueEffect { s with sema := σ } t (.wait x) { s with sema := σ₁ } (.wait x₁) :=
        .wait x σ₁ x₁ false hstep
      have hnext := h.step hearly (Function.update_self t _ _) heff
      rwa [Function.update_idem] at hnext

/-- **A worker that is alone.**  It calls `wait_dequeue` while `m_count` shows a permit and
    nobody else is in the middle of a claim: it returns with the first element of a
    sub-queue, and the other sub-queues are as before. -/
theorem get_wait_alone {s : QueueState T E} (t : T)
    (hr : vsQueue.ReachableVia (fun s _ => AllEarly s.queue) s) (hearly : AllEarly s.queue)
    (hfree : (s.pc t).free = true) (hpos : 0 < s.queue.sema.mCount)
    (hidle : ∀ u k, ((s.pc u).inProducer u k).draw = none) :
    ∃ s' k e, Machine.Ends (vsQueue.drive fun _ => .go t true)
        { s with pc := update s.pc t (.wait .wait) } s'
      ∧ s'.pc = update s.pc t (.dequeued (some e))
      ∧ (s.queue.sub k).waiting = e :: (s'.queue.sub k).waiting
      ∧ ∀ j, j ≠ k → s'.queue.sub j = s.queue.sub j := by
  have h := (vsQueue_keeps.reachable hr).call hfree (.inr (.inl rfl))
  -- two steps in the semaphore
  have hone : min s.queue.sema.mCount (1 : ℕ) = 1 := by omega
  have hwait := (wait_alone s.queue.sema Nat.one_pos).1 hpos
  rw [hone] at hwait
  have hwait : Machine.stepN semaAlone 2 (s.queue.sema, .wait)
      = some ({ s.queue.sema with mCount := s.queue.sema.mCount - 1 }, .acquired 1) := hwait
  have hcalled : QueueOk { s.queue with sema := s.queue.sema } (update s.pc t (.wait .wait)) := h
  have hgot := hcalled.sema_alone hearly hwait
  -- the permit, and one round
  have hscore := hgot.step hearly (Function.update_self t _ _)
    (.between _ _ _ (.permit 0))
  rw [Function.update_idem] at hscore
  obtain ⟨m, s', k, e, hround, hk, hother⟩ := try_dequeue_alone hscore hearly
    (Function.update_self t _ _) fun u j => by
      by_cases hu : u = t
      · rw [hu, Function.update_self]
        rfl
      · rw [Function.update_of_ne hu]
        exact hidle u j
  have hturn : Machine.stepN (queueAlone t) 1
      (({ s.queue with sema := { s.queue.sema with mCount := s.queue.sema.mCount - 1 } } : VsQueue T E),
        .wait (.acquired 1))
      = some ({ s.queue with sema := { s.queue.sema with mCount := s.queue.sema.mCount - 1 } }, .score) :=
    rfl
  have hrun := Machine.stepN_add (Machine.stepN_add (sema_alone (s := s.queue) (t := t) hwait) hturn)
    hround
  refine ⟨_, k, e, ⟨⟨_, queueAlone_run s.pc hrun⟩, ?_⟩, rfl, hk, hother⟩
  show (queueStep s' t true (update s.pc t (.dequeued (some e)) t)).map _ = none
  rw [Function.update_self]
  rfl

theorem get_wait_alone_one :
    ∃ s s' k e, vsQueue.run (⟨VsQueue.new (Fin 2) ℕ, fun _ => .elsewhere⟩) oneElementActs = some s
      ∧ Machine.Ends (vsQueue.drive fun _ => .go 1 true)
        { s with pc := update s.pc 1 (.wait .wait) } s'
      ∧ s'.pc = update s.pc 1 (.dequeued (some e))
      ∧ (s.queue.sub k).waiting = e :: (s'.queue.sub k).waiting := by
  have hok : ∀ (s : QueueState (Fin 2) ℕ) (_ : QueueAct (Fin 2) ℕ),
      decide (AllEarly s.queue) = true → AllEarly s.queue := fun _ _ => of_decide_eq_true
  have hr := Machine.ReachableVia.run (M := vsQueue) hok (.start rfl) oneElementActs rfl rfl
  obtain ⟨s', k, e, hend, hpc, hk, -⟩ :=
    get_wait_alone 1 hr (by decide) rfl (by decide) (by decide)
  exact ⟨_, s', k, e, rfl, hend, hpc, hk⟩

end HThread.RunQueue
