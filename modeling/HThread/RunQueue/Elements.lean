/-
  HThread.RunQueue.Elements — the elements of `vs_queue` and the permits for them.

  Every sub-queue keeps its own invariant, whatever the threads do elsewhere, and
  so does the semaphore.  Between the two there is an account: an element that
  waits is covered by a permit that is free, by a thread that has a permit and
  has not claimed an element yet, or by one that has put it there and has not
  signalled yet.

  Key lemmas:
    * `QueueOk.sub`, `QueueOk.sema`, `QueueOk.between` — the three kinds of steps.
  Main results:
    * `vs_queue_account` — a thread that looks for an element has one to find, and
      nobody sleeps while one waits that nobody is after.
    * `vs_queue_refines` — the queue implements one lane for each enqueuing thread.
-/
import HThread.RunQueue.VsQueue

namespace HThread.RunQueue

open Interleave
open Function (update)

variable {T E : Type}

/-! ## §1. Points of the sub-queue and of the semaphore. -/

/-- In a call of `enqueue`, or at its end. -/
def ProducerPc.enqueuing : ProducerPc E → Bool
  | enqTail _ | enqBlock .. | enqConstruct .. | enqPublish .. | enqueued _ | garbage => true
  | _ => false

/-- In a call of `dequeue`, or at its end. -/
def ProducerPc.dequeuing : ProducerPc E → Bool
  | deqTail | deqOvercommit _ | deqTest .. | deqCount _ | deqRetest .. | deqHead _ | deqGiveUp _
  | deqMove _ | deqSetEmpty .. | deqRelease .. | dequeued _ | garbage => true
  | _ => false

/-- An element has been put in. -/
def ProducerPc.published : ProducerPc E → ℕ
  | enqueued true => 1
  | _ => 0

/-- No element has been claimed. -/
def ProducerPc.seeking : ProducerPc E → ℕ
  | deqMove _ | deqSetEmpty .. | deqRelease .. | dequeued (some _) => 0
  | _ => 1

theorem Effect.enqueuing {p p' : Producer E} {q q' : ProducerPc E} (h : Effect p q p' q')
    (hq : q.enqueuing = true) (hown : ∀ e tail, q = .enqPublish e tail → tail = p.tailIndex) :
    q'.enqueuing = true ∧ p'.headIndex = p.headIndex
      ∧ p'.tailIndex + q.published = p.tailIndex + q'.published := by
  cases h with
  | publish e tail =>
      obtain rfl := hown e tail rfl
      exact ⟨rfl, rfl, Nat.add_comm 1 _⟩
  | full | room | refuse | start | noTail | construct => exact ⟨rfl, rfl, rfl⟩
  | tail | overcommit | trying | empty | count | win | lose | head | giveUp | noSlot | move | noBlock
  | setEmpty | release => cases hq

theorem Effect.dequeuing {p p' : Producer E} {q q' : ProducerPc E} (h : Effect p q p' q')
    (hq : q.dequeuing = true) (hno : q' ≠ .garbage) :
    q'.dequeuing = true ∧ p'.tailIndex = p.tailIndex
      ∧ p'.headIndex + q'.seeking = p.headIndex + q.seeking := by
  cases h with
  | setEmpty i e b hb => split <;> exact ⟨rfl, rfl, rfl⟩
  | noTail | noSlot | noBlock => exact absurd rfl hno
  | tail | overcommit | trying | empty | count | win | lose | head | giveUp | move | release =>
      exact ⟨rfl, rfl, rfl⟩
  | full | room | refuse | start | construct | publish => cases hq

/-- In a call for one permit. -/
def SemaPc.Single : SemaPc → Prop
  | tryLoad next max | tryCas next max _ => next.got = 0 ∧ max = 1
  | spinLoad _ max | spinCas _ max _ | fetchSub max | kernelWait max => max = 1
  | acquired n => n ≤ 1
  | _ => False

/-- In a call that brings permits. -/
def SemaPc.bringing : SemaPc → Bool
  | fetchAdd _ | post _ | signalled => true
  | _ => false

theorem spinFrom_single (spin : ℕ) : (spinFrom spin 1).Single := by
  unfold spinFrom
  split <;> exact rfl

theorem tryFrom_single {next : TryThen} (hgot : next.got = 0) (oldCount : ℤ) :
    (tryFrom next 1 oldCount).Single := by
  unfold tryFrom
  split
  case isTrue => exact ⟨hgot, rfl⟩
  case isFalse =>
    cases next with
    | spin => exact spinFrom_single 10000
    | done got =>
        show got ≤ 1
        rw [show got = 0 from hgot]
        exact Nat.zero_le 1

/-- An exchange for one permit takes one. -/
theorem newCount_one {oldCount : ℤ} (hpos : 0 < oldCount) :
    (oldCount - newCount oldCount 1).toNat = 1 := by
  unfold newCount
  split <;> omega

theorem semaStep_single {σ σ' : LightweightSemaphore} {spurious : Bool} {q q' : SemaPc} (hok : q.Ok)
    (hq : q.Single) (h : semaStep σ spurious q = some (σ', q')) : q'.Single := by
  cases q with
  | tryLoad next max =>
      obtain ⟨rfl, rfl⟩ := Prod.mk.inj (Option.some.inj h)
      obtain ⟨hgot, rfl⟩ := hq
      exact tryFrom_single hgot _
  | tryCas next max oldCount =>
      obtain ⟨hgot, rfl⟩ := hq
      simp only [semaStep] at h
      split at h
      · obtain ⟨rfl, rfl⟩ := Prod.mk.inj (Option.some.inj h)
        show next.got + (oldCount - newCount oldCount 1).toNat ≤ 1
        rw [hgot, newCount_one hok]
      · obtain ⟨rfl, rfl⟩ := Prod.mk.inj (Option.some.inj h)
        exact tryFrom_single hgot _
  | spinLoad spin max =>
      obtain ⟨rfl, rfl⟩ := Prod.mk.inj (Option.some.inj h)
      obtain rfl : max = 1 := hq
      split
      · exact rfl
      · exact spinFrom_single _
  | spinCas spin max oldCount =>
      obtain rfl : max = 1 := hq
      simp only [semaStep] at h
      split at h
      · obtain ⟨rfl, rfl⟩ := Prod.mk.inj (Option.some.inj h)
        show (oldCount - newCount oldCount 1).toNat ≤ 1
        rw [newCount_one hok]
      · obtain ⟨rfl, rfl⟩ := Prod.mk.inj (Option.some.inj h)
        exact spinFrom_single _
  | fetchSub max =>
      obtain rfl : max = 1 := hq
      obtain ⟨rfl, rfl⟩ := Prod.mk.inj (Option.some.inj h)
      split
      · exact rfl
      · exact le_refl 1
  | kernelWait max =>
      obtain rfl : max = 1 := hq
      simp only [semaStep, Option.ite_none_right_eq_some] at h
      obtain ⟨-, h⟩ := h
      obtain ⟨rfl, rfl⟩ := Prod.mk.inj (Option.some.inj h)
      exact le_refl 1
  | elsewhere | fetchAdd | post | signalled => cases hq
  | acquired => cases h

theorem semaStep_bringing {σ σ' : LightweightSemaphore} {spurious : Bool} {q q' : SemaPc}
    (hq : q.bringing = true) (h : semaStep σ spurious q = some (σ', q')) : q'.bringing = true := by
  cases q with
  | fetchAdd count =>
      obtain ⟨rfl, rfl⟩ := Prod.mk.inj (Option.some.inj h)
      split <;> rfl
  | post left =>
      cases left with
      | zero => cases h
      | succ left =>
          obtain ⟨rfl, rfl⟩ := Prod.mk.inj (Option.some.inj h)
          split <;> rfl
  | signalled => cases h
  | elsewhere | tryLoad | tryCas | spinLoad | spinCas | fetchSub | kernelWait | acquired => cases hq

/-- A thread that brings permits has none. -/
theorem SemaPc.held_of_bringing {q : SemaPc} (hq : q.bringing = true) : q.held = 0 := by
  cases q with
  | fetchAdd | post | signalled => rfl
  | _ => cases hq

/-- A thread that wants one brings none. -/
theorem SemaPc.giving_of_single {q : SemaPc} (hq : q.Single) : q.giving = 0 := by
  cases q with
  | fetchAdd => cases hq
  | _ => rfl

/-! ## §2. The invariant. -/

/-- The permits that a thread has, for which it has not claimed an element. -/
def QueuePc.holding : QueuePc T E → ℕ
  | wait q => q.held
  | score | scoreTail .. | scoreHead .. => 1
  | inSub .own _ => 0
  | inSub (.best _) q | inSub (.others _ _ _) q => q.seeking
  | _ => 0

/-- The elements that a thread has put in and not signalled. -/
def QueuePc.pending : QueuePc T E → ℕ
  | inSub .own q => q.published
  | signal q => q.giving
  | _ => 0

/-- In the code of a sub-queue, to enqueue. -/
def QueuePc.enqueues : QueuePc T E → Bool
  | inSub .own _ => true
  | _ => false

/-- What a thread knows. -/
def QueuePc.Ok : QueuePc T E → Prop
  | inSub .own q => q.enqueuing = true
  | inSub (.best _) q | inSub (.others _ _ _) q => q.dequeuing = true
  | signal q => q.bringing = true
  | wait q => q.Single
  | scoreTail _ _ n best size | scoreHead _ _ n best size _ => best = none → n = 0 ∧ size = 0
  | garbage => False
  | _ => True

variable [DecidableEq T]

theorem holds_update {pc : T → QueuePc T E} {t : T} {q' : QueuePc T E} (h : ∀ u, (pc u).Ok)
    (hq : q'.Ok) (u : T) : (update pc t q' u).Ok := by
  by_cases hu : u = t
  · rw [hu, Function.update_self]
    exact hq
  · rw [Function.update_of_ne hu]
    exact h u

theorem inProducer_update (pc : T → QueuePc T E) (t k : T) (q' : QueuePc T E) :
    (fun u => (update pc t q' u).inProducer u k)
      = update (fun u => (pc u).inProducer u k) t (q'.inProducer t k) := by
  funext u
  by_cases hu : u = t
  · rw [hu, Function.update_self, Function.update_self]
  · rw [Function.update_of_ne hu, Function.update_of_ne hu]

theorem inSema_update (pc : T → QueuePc T E) (t : T) (q' : QueuePc T E) :
    (fun u => (update pc t q' u).inSema) = update (fun u => (pc u).inSema) t q'.inSema :=
  Function.comp_update QueuePc.inSema pc t q'

variable [Fintype T]

/-- The permits that are free. -/
def VsQueue.permits (s : VsQueue T E) (pc : T → QueuePc T E) : ℕ :=
  s.sema.mCount.toNat + s.sema.mSema + tally (fun q => q.inSema.posting) pc

/-- The parts are in order, and their numbers agree. -/
structure QueueOk (s : VsQueue T E) (pc : T → QueuePc T E) : Prop where
  subs : ∀ k, Sound k ⟨s.sub k, fun t => (pc t).inProducer t k⟩
  sema : SemaOk s.sema fun t => (pc t).inSema
  holds : ∀ t, (pc t).Ok
  account : tally Producer.tailIndex s.sub = tally Producer.headIndex s.sub + s.permits pc
    + tally QueuePc.holding pc + tally QueuePc.pending pc
  listed : ∀ k, k ∉ s.producerListTail → (s.sub k).tailIndex = 0 ∧ (pc k).enqueues = false

/-- No counter has come near the end of its word. -/
def AllEarly (s : VsQueue T E) : Prop := ∀ k, Early (s.sub k)

instance (s : VsQueue T E) : Decidable (AllEarly s) := inferInstanceAs (Decidable (∀ _, _))

/-! ## §3. The steps. -/

section Steps

variable {s : VsQueue T E} {pc : T → QueuePc T E} {t : T} {q' : QueuePc T E}

omit [Fintype T] in
/-- The owner publishes at the tail. -/
theorem Sound.publish_tail {owner : T} {s : ProducerState T E} (h : Sound owner s) {e : E} {tail : ℕ}
    (ht : s.pc t = .enqPublish e tail) : t = owner ∧ tail = s.prod.tailIndex := by
  by_cases hown : t = owner
  · have hst := h.stored
    rw [← hown, ht] at hst
    exact ⟨hown, hst.owner.1⟩
  · have hno := h.others t hown
    rw [ht] at hno
    cases hno

/-- **A step in the code of a sub-queue.** -/
theorem QueueOk.sub (h : QueueOk s pc) (hearly : AllEarly s) {site : Site T}
    {x x' : ProducerPc E} {p' : Producer E} (hpc : pc t = .inSub site x)
    (hs : Effect (s.sub (site.producer t)) x p' x') :
    QueueOk { s with sub := update s.sub (site.producer t) p' } (update pc t (.inSub site x')) := by
  have hold := h.subs (site.producer t)
  have hat : (pc t).inProducer t (site.producer t) = x := by
    rw [hpc]
    exact if_pos rfl
  have hnew := hold.effect (hearly _) hat hs
  have hno : x' ≠ .garbage := by
    intro hx
    have hg : IndexOk p'.shelf (update (fun u => (pc u).inProducer u (site.producer t)) t x' t) :=
      hnew.taken.holds t
    rw [Function.update_self, hx] at hg
    exact hg
  have hown : ∀ e tail, x = .enqPublish e tail → tail = (s.sub (site.producer t)).tailIndex :=
    fun e tail hx => (hold.publish_tail (hat.trans hx)).2
  have hok := h.holds t
  rw [hpc] at hok
  have htail := tally_update Producer.tailIndex s.sub (site.producer t) p'
  have hhead := tally_update Producer.headIndex s.sub (site.producer t) p'
  have hhold := tally_update QueuePc.holding pc t (.inSub site x')
  have hpend := tally_update QueuePc.pending pc t (.inSub site x')
  have hpost : tally (fun q : QueuePc T E => q.inSema.posting) (update pc t (.inSub site x'))
      = tally (fun q : QueuePc T E => q.inSema.posting) pc :=
    tally_update_same _ _ _ (by rw [hpc]; rfl)
  have haccount := h.account
  rw [hpc] at hhold hpend
  -- what the step means for the account, and for the knowledge of the thread
  have hstep : (QueuePc.inSub site x' : QueuePc T E).Ok
      ∧ p'.tailIndex + (s.sub (site.producer t)).headIndex
          + (QueuePc.inSub site x : QueuePc T E).holding
          + (QueuePc.inSub site x : QueuePc T E).pending
        = (s.sub (site.producer t)).tailIndex + p'.headIndex
          + (QueuePc.inSub site x' : QueuePc T E).holding
          + (QueuePc.inSub site x' : QueuePc T E).pending
      ∧ (site ≠ .own → p'.tailIndex = (s.sub (site.producer t)).tailIndex) := by
    cases site with
    | own =>
        obtain ⟨henq, hh, ht⟩ := hs.enqueuing hok hown
        refine ⟨henq, ?_, fun hne => absurd rfl hne⟩
        show _ + _ + 0 + x.published = _ + _ + 0 + x'.published
        omega
    | best b =>
        obtain ⟨hdeq, ht, hh⟩ := hs.dequeuing hok hno
        refine ⟨hdeq, ?_, fun _ => ht⟩
        show _ + _ + x.seeking + 0 = _ + _ + x'.seeking + 0
        omega
    | others b ptr next =>
        obtain ⟨hdeq, ht, hh⟩ := hs.dequeuing hok hno
        refine ⟨hdeq, ?_, fun _ => ht⟩
        show _ + _ + x.seeking + 0 = _ + _ + x'.seeking + 0
        omega
  obtain ⟨hok', hsum, hkeep⟩ := hstep
  constructor
  · intro k
    rw [inProducer_update]
    by_cases hk : k = site.producer t
    · subst hk
      show Sound _ ⟨update s.sub _ p' _, update _ t (if _ then x' else _)⟩
      rw [Function.update_self, if_pos rfl]
      exact hnew
    · show Sound _ ⟨update s.sub _ p' k, update _ t (if _ then x' else _)⟩
      have hsame : (.elsewhere : ProducerPc E) = (pc t).inProducer t k := by
        rw [hpc]
        exact (if_neg (Ne.symm hk)).symm
      rw [Function.update_of_ne hk, if_neg (Ne.symm hk), hsame]
      have hid := Function.update_eq_self t fun u => (pc u).inProducer u k
      rw [hid]
      exact h.subs k
  · rw [inSema_update]
    have hid := Function.update_eq_self t fun u => (pc u).inSema
    have hsame : (QueuePc.inSub site x' : QueuePc T E).inSema = (pc t).inSema := by
      rw [hpc]
      rfl
    rw [hsame, hid]
    exact h.sema
  · exact holds_update h.holds hok'
  · unfold VsQueue.permits at haccount
    show tally Producer.tailIndex (update s.sub _ p') = tally Producer.headIndex (update s.sub _ p')
      + (s.sema.mCount.toNat + s.sema.mSema
        + tally (fun q : QueuePc T E => q.inSema.posting) (update pc t (.inSub site x')))
      + tally QueuePc.holding (update pc t (.inSub site x'))
      + tally QueuePc.pending (update pc t (.inSub site x'))
    rw [hpost]
    omega
  · intro k hk
    obtain ⟨hzero, hen⟩ := h.listed k hk
    have hkt : k = t → site ≠ .own := by
      rintro rfl rfl
      rw [hpc] at hen
      cases hen
    constructor
    · show (update s.sub _ p' k).tailIndex = 0
      by_cases hkp : k = site.producer t
      · rw [hkp, Function.update_self, hkeep, ← hkp, hzero]
        rintro rfl
        exact hkt hkp rfl
      · rw [Function.update_of_ne hkp]
        exact hzero
    · by_cases hkt' : k = t
      · rw [hkt', Function.update_self]
        cases site with
        | own => exact absurd rfl (hkt hkt')
        | best | others => rfl
      · rw [Function.update_of_ne hkt']
        exact hen

/-- **A step in the code of the semaphore**, that keeps what the thread has and what it
    brings in balance. -/
theorem QueueOk.sema_step (h : QueueOk s pc) {σ' : LightweightSemaphore}
    (heff : SemaEffect s.sema (pc t).inSema σ' q'.inSema)
    (hsub : ∀ k, q'.inProducer t k = (pc t).inProducer t k) (hok : q'.Ok)
    (hsum : q'.holding + q'.pending + σ'.permits q'.inSema
      = (pc t).holding + (pc t).pending + s.sema.permits (pc t).inSema)
    (hen : q'.enqueues = false) : QueueOk { s with sema := σ' } (update pc t q') := by
  have hhold := tally_update QueuePc.holding pc t q'
  have hpend := tally_update QueuePc.pending pc t q'
  have hpost := tally_update (fun q : QueuePc T E => q.inSema.posting) pc t q'
  have haccount := h.account
  unfold LightweightSemaphore.permits at hsum
  unfold VsQueue.permits at haccount
  constructor
  · intro k
    rw [inProducer_update, hsub k]
    have hid := Function.update_eq_self t fun u => (pc u).inProducer u k
    rw [hid]
    exact h.subs k
  · rw [inSema_update]
    exact h.sema.effect heff
  · exact holds_update h.holds hok
  · show tally Producer.tailIndex s.sub = tally Producer.headIndex s.sub
      + (σ'.mCount.toNat + σ'.mSema
        + tally (fun q : QueuePc T E => q.inSema.posting) (update pc t q'))
      + tally QueuePc.holding (update pc t q') + tally QueuePc.pending (update pc t q')
    omega
  · intro k hk
    refine ⟨(h.listed k hk).1, ?_⟩
    by_cases hkt : k = t
    · rw [hkt, Function.update_self]
      exact hen
    · rw [Function.update_of_ne hkt]
      exact (h.listed k hk).2

omit [Fintype T] in
/-- A point where thread `t` may turn to another part. -/
structure Stops (t : T) (q : QueuePc T E) : Prop where
  free : ∀ k, (q.inProducer t k).free = true
  sleeping : q.inSema.sleeping = 0
  posting : q.inSema.posting = 0

omit [Fintype T] in
/-- A point where thread `t` has just turned to a part. -/
structure Starts (t : T) (q : QueuePc T E) : Prop where
  begins : ∀ k, q.inProducer t k = .elsewhere ∨ q.inProducer t k = .deqTail
    ∨ (t = k ∧ ∃ e, q.inProducer t k = .enqTail e)
  sleeping : q.inSema.sleeping = 0
  posting : q.inSema.posting = 0
  sema : q.inSema.Ok

/-- **A step between the calls.** -/
theorem QueueOk.between (h : QueueOk s pc) (list : List T) (hq : Stops t (pc t)) (hq' : Starts t q')
    (hok : q'.Ok) (hhold : q'.holding = (pc t).holding) (hpend : q'.pending = (pc t).pending)
    (hlist : ∀ k, k ∉ list → k ∉ s.producerListTail)
    (hen : q'.enqueues = true → t ∈ list) :
    QueueOk { s with producerListTail := list } (update pc t q') := by
  constructor
  · intro k
    rw [inProducer_update]
    exact (h.subs k).between (hq.free k) (hq'.begins k)
  · rw [inSema_update]
    exact h.sema.stay ⟨hq.sleeping, hq.posting⟩ hq'.sleeping hq'.posting hq'.sema
  · exact holds_update h.holds hok
  · have haccount := h.account
    unfold VsQueue.permits at haccount
    show tally Producer.tailIndex s.sub = tally Producer.headIndex s.sub
      + (s.sema.mCount.toNat + s.sema.mSema
        + tally (fun q : QueuePc T E => q.inSema.posting) (update pc t q'))
      + tally QueuePc.holding (update pc t q') + tally QueuePc.pending (update pc t q')
    rw [tally_update_same _ _ _ hhold, tally_update_same _ _ _ hpend,
      tally_update_same (fun q : QueuePc T E => q.inSema.posting) _ _
        (hq'.posting.trans hq.posting.symm)]
    exact haccount
  · intro k hk
    refine ⟨(h.listed k (hlist k hk)).1, ?_⟩
    by_cases hkt : k = t
    · rw [hkt, Function.update_self]
      cases henq : q'.enqueues with
      | false => rfl
      | true => exact absurd (hen henq) (hkt ▸ hk)
    · rw [Function.update_of_ne hkt]
      exact (h.listed k (hlist k hk)).2

end Steps

/-! ## §4. The machine. -/

section Points

omit [Fintype T]

variable {t : T}

/-- A point that is in no part. -/
theorem starts_of_none {q : QueuePc T E} (hsub : ∀ k, q.inProducer t k = .elsewhere)
    (hsema : q.inSema = .elsewhere) : Starts t q where
  begins k := .inl (hsub k)
  sleeping := by rw [hsema]; rfl
  posting := by rw [hsema]; rfl
  sema := by rw [hsema]; trivial

theorem starts_dequeue (site : Site T) : Starts t (.inSub site .deqTail : QueuePc T E) where
  begins k := by
    by_cases hk : site.producer t = k
    · exact .inr (.inl (if_pos hk))
    · exact .inl (if_neg hk)
  sleeping := rfl
  posting := rfl
  sema := trivial

theorem starts_enqueue (e : E) : Starts t (.inSub .own (.enqTail e) : QueuePc T E) where
  begins k := by
    by_cases hk : t = k
    · exact .inr (.inr ⟨hk, e, if_pos hk⟩)
    · exact .inl (if_neg hk)
  sleeping := rfl
  posting := rfl
  sema := trivial

/-- A point where a thread that has a permit goes on to look for an element. -/
structure Seeks (t : T) (q : QueuePc T E) : Prop where
  starts : Starts t q
  ok : q.Ok
  holding : q.holding = 1
  pending : q.pending = 0
  enqueues : q.enqueues = false

theorem scoreEnd_seeks {n : ℕ} {best : Option T} (h : best = none → n = 0) :
    Seeks t (scoreEnd n best : QueuePc T E) := by
  unfold scoreEnd
  split
  case isFalse => exact ⟨starts_of_none (fun _ => rfl) rfl, trivial, rfl, rfl, rfl⟩
  case isTrue hpos =>
    cases best with
    | some b => exact ⟨starts_dequeue _, rfl, rfl, rfl, rfl⟩
    | none => exact absurd (h rfl) (Nat.pos_iff_ne_zero.mp hpos)

/-- The point in the first loop, or after it. -/
theorem scoreFrom_seeks (ptrs : List T) {n : ℕ} {best : Option T} {size : BitVec 64}
    (h : best = none → n = 0 ∧ size = 0) : Seeks t (scoreFrom ptrs n best size : QueuePc T E) := by
  cases ptrs with
  | nil => exact scoreEnd_seeks fun hb => (h hb).1
  | cons ptr next =>
      show Seeks t (if n < 3 then _ else scoreEnd n best)
      split
      · exact ⟨starts_of_none (fun _ => rfl) rfl, h, rfl, rfl, rfl⟩
      · exact scoreEnd_seeks fun hb => (h hb).1

/-- The point in the second loop, or after it. -/
theorem othersFrom_seeks (b : T) (ptrs : List T) :
    Seeks t (othersFrom b ptrs : QueuePc T E) := by
  induction ptrs with
  | nil => exact ⟨starts_of_none (fun _ => rfl) rfl, trivial, rfl, rfl, rfl⟩
  | cons ptr next ih =>
      unfold othersFrom
      split
      · exact ih
      · exact ⟨starts_dequeue _, rfl, rfl, rfl, rfl⟩

theorem stops_of_none {q : QueuePc T E} (hsub : ∀ k, q.inProducer t k = .elsewhere)
    (hsema : q.inSema.sleeping = 0 ∧ q.inSema.posting = 0) : Stops t q where
  free k := by rw [hsub k]; rfl
  sleeping := hsema.1
  posting := hsema.2

theorem stops_sub (site : Site T) {x : ProducerPc E} (hx : x.free = true) :
    Stops t (.inSub site x : QueuePc T E) where
  free k := by
    show (if _ then x else .elsewhere).free = true
    split
    · exact hx
    · rfl
  sleeping := rfl
  posting := rfl

/-- A thread in no call of `vs_queue` is in none of its parts. -/
theorem stops_free {q : QueuePc T E} (h : q.free = true) :
    Stops t q ∧ q.holding = 0 ∧ q.pending = 0 := by
  cases q with
  | elsewhere | enqueued | dequeued =>
      exact ⟨stops_of_none (fun _ => rfl) ⟨rfl, rfl⟩, rfl, rfl⟩
  | _ => cases h

end Points

variable {s : VsQueue T E} {pc : T → QueuePc T E} {t : T}

/-- A thread that looks for an element goes on looking. -/
theorem QueueOk.seek (h : QueueOk s pc) {q q' : QueuePc T E} (hpc : pc t = q) (hstop : Stops t q)
    (hhold : q.holding = 1) (hpend : q.pending = 0) (hq' : Seeks t q') :
    QueueOk s (update pc t q') := by
  subst hpc
  refine h.between s.producerListTail hstop hq'.starts hq'.ok
    (hq'.holding.trans hhold.symm) (hq'.pending.trans hpend.symm) (fun _ hk => hk) fun hen => ?_
  rw [hq'.enqueues] at hen
  cases hen

/-- A thread ends a call, or turns from one part to another, with nothing changed. -/
theorem QueueOk.turn (h : QueueOk s pc) {q q' : QueuePc T E} (hpc : pc t = q) (hstop : Stops t q)
    (hstart : Starts t q') (hok : q'.Ok) (hhold : q'.holding = q.holding)
    (hpend : q'.pending = q.pending) (hen : q'.enqueues = false) : QueueOk s (update pc t q') := by
  subst hpc
  refine h.between s.producerListTail hstop hstart hok hhold hpend (fun _ hk => hk) fun htrue => ?_
  rw [hen] at htrue
  cases htrue

/-- A thread calls `enqueue` of its sub-queue, which is in the list. -/
theorem QueueOk.enter (h : QueueOk s pc) {e : E} (hpc : pc t = .getProducer e) (list : List T)
    (hlist : ∀ k, k ∉ list → k ∉ s.producerListTail) (hmem : t ∈ list) :
    QueueOk { s with producerListTail := list } (update pc t (.inSub .own (.enqTail e))) := by
  refine h.between list ?_ (starts_enqueue e) rfl ?_ ?_ hlist fun _ => hmem
  · rw [hpc]
    exact stops_of_none (fun _ => rfl) ⟨rfl, rfl⟩
  · rw [hpc]
    rfl
  · rw [hpc]
    rfl

/-- **A step between the calls.** -/
theorem QueueOk.local_step (h : QueueOk s pc) {s' : VsQueue T E} {q q' : QueuePc T E}
    (hpc : pc t = q) (hb : Between s t q s' q') : QueueOk s' (update pc t q') := by
  have hok := h.holds t
  rw [hpc] at hok
  cases hb with
  | known e hmem => exact h.enter hpc s.producerListTail (fun _ hk => hk) hmem
  | added e hmem =>
      exact h.enter hpc _ (fun k hk hmem => hk (List.mem_cons_of_mem _ hmem)) List.mem_cons_self
  | noMemory e =>
      exact h.turn hpc (stops_of_none (fun _ => rfl) ⟨rfl, rfl⟩) (starts_of_none (fun _ => rfl) rfl)
        trivial rfl rfl rfl
  | published =>
      exact h.turn hpc (stops_sub _ rfl) ⟨fun _ => .inl rfl, rfl, rfl, trivial⟩ rfl rfl rfl rfl
  | refused =>
      exact h.turn hpc (stops_sub _ rfl) (starts_of_none (fun _ => rfl) rfl) trivial rfl rfl rfl
  | signalled =>
      exact h.turn hpc (stops_of_none (fun _ => rfl) ⟨rfl, rfl⟩) (starts_of_none (fun _ => rfl) rfl)
        trivial rfl rfl rfl
  | noPermit =>
      exact h.turn hpc (stops_of_none (fun _ => rfl) ⟨rfl, rfl⟩) (starts_of_none (fun _ => rfl) rfl)
        trivial rfl rfl rfl
  | permit n =>
      have hone : n + 1 = 1 := Nat.le_antisymm hok (Nat.le_add_left 1 n)
      exact h.turn hpc (stops_of_none (fun _ => rfl) ⟨rfl, rfl⟩) (starts_of_none (fun _ => rfl) rfl)
        trivial hone.symm rfl rfl
  | score =>
      exact h.seek hpc (stops_of_none (fun _ => rfl) ⟨rfl, rfl⟩) rfl rfl
        (scoreFrom_seeks _ fun _ => ⟨rfl, rfl⟩)
  | tail ptr next n best size =>
      exact h.turn hpc (stops_of_none (fun _ => rfl) ⟨rfl, rfl⟩) (starts_of_none (fun _ => rfl) rfl)
        hok rfl rfl rfl
  | longer ptr next n best size tail hlt =>
      exact h.seek hpc (stops_of_none (fun _ => rfl) ⟨rfl, rfl⟩) rfl rfl
        (scoreFrom_seeks _ fun hb => by cases hb)
  | shorter ptr next n best size tail hpos hle =>
      refine h.seek hpc (stops_of_none (fun _ => rfl) ⟨rfl, rfl⟩) rfl rfl
        (scoreFrom_seeks _ fun hb => ?_)
      -- the first sub-queue with elements is longer than none
      rw [(hok hb).2] at hle
      exact absurd hpos hle
  | nothing ptr next n best size tail hzero =>
      exact h.seek hpc (stops_of_none (fun _ => rfl) ⟨rfl, rfl⟩) rfl rfl (scoreFrom_seeks _ hok)
  | foundBest b e =>
      exact h.turn hpc (stops_sub _ rfl) (starts_of_none (fun _ => rfl) rfl) trivial rfl rfl rfl
  | foundOther b ptr next e =>
      exact h.turn hpc (stops_sub _ rfl) (starts_of_none (fun _ => rfl) rfl) trivial rfl rfl rfl
  | noneBest b => exact h.seek hpc (stops_sub _ rfl) rfl rfl (othersFrom_seeks _ _)
  | noneOther b ptr next => exact h.seek hpc (stops_sub _ rfl) rfl rfl (othersFrom_seeks _ _)

/-- **One step.** -/
theorem QueueOk.step (h : QueueOk s pc) (hearly : AllEarly s) {s' : VsQueue T E} {q q' : QueuePc T E}
    (hpc : pc t = q) (heff : QueueEffect s t q s' q') : QueueOk s' (update pc t q') := by
  have hok := h.holds t
  have hsema := h.sema.holds t
  cases heff with
  | sub site x p' x' hs => exact h.sub hearly hpc hs
  | signal x σ' x' spurious hs =>
      rw [hpc] at hok hsema
      have heff : SemaEffect s.sema x σ' x' := semaStep_effect hsema hs
      have hbring := semaStep_bringing hok hs
      refine h.sema_step ?_ ?_ hbring ?_ rfl
      · rw [hpc]
        exact heff
      · rw [hpc]
        exact fun _ => rfl
      · have hheld : x.held = 0 := SemaPc.held_of_bringing hok
        have hheld' : x'.held = 0 := SemaPc.held_of_bringing hbring
        rw [hpc]
        show 0 + x'.giving + σ'.permits x' = 0 + x.giving + s.sema.permits x
        rcases heff.permits with ⟨n, hn, hgot, hg, hg'⟩ | ⟨hmore, -, hg'⟩ <;> omega
  | wait x σ' x' spurious hs =>
      rw [hpc] at hok hsema
      have heff : SemaEffect s.sema x σ' x' := semaStep_effect hsema hs
      have hsingle := semaStep_single hsema hok hs
      refine h.sema_step ?_ ?_ hsingle ?_ rfl
      · rw [hpc]
        exact heff
      · rw [hpc]
        exact fun _ => rfl
      · have hg : x.giving = 0 := SemaPc.giving_of_single hok
        rw [hpc]
        show x'.held + 0 + σ'.permits x' = x.held + 0 + s.sema.permits x
        rcases heff.permits with ⟨n, hn, hgot, -, -⟩ | ⟨hmore, hsame, -⟩ <;> omega
  | between _ _ _ hb => exact h.local_step hpc hb

/-- A call of `vs_queue` begins, or is left. -/
theorem QueueOk.call (h : QueueOk s pc) {q' : QueuePc T E} (hfree : (pc t).free = true)
    (hq' : (∃ e, q' = .getProducer e) ∨ q' = .wait .wait ∨ q' = .wait .tryWait ∨ q' = .elsewhere) :
    QueueOk s (update pc t q') := by
  obtain ⟨hstop, hhold, hpend⟩ := stops_free (t := t) hfree
  have hnew : Starts t q' ∧ q'.Ok ∧ q'.holding = 0 ∧ q'.pending = 0 ∧ q'.enqueues = false := by
    rcases hq' with ⟨e, rfl⟩ | rfl | rfl | rfl
    · exact ⟨starts_of_none (fun _ => rfl) rfl, trivial, rfl, rfl, rfl⟩
    · exact ⟨⟨fun _ => .inl rfl, rfl, rfl, trivial⟩, ⟨rfl, rfl⟩, rfl, rfl, rfl⟩
    · exact ⟨⟨fun _ => .inl rfl, rfl, rfl, trivial⟩, ⟨rfl, rfl⟩, rfl, rfl, rfl⟩
    · exact ⟨starts_of_none (fun _ => rfl) rfl, trivial, rfl, rfl, rfl⟩
  obtain ⟨hstart, hok, hhold', hpend', hen⟩ := hnew
  exact h.turn rfl hstop hstart hok (hhold'.trans hhold.symm) (hpend'.trans hpend.symm) hen

omit [Fintype T] in
/-- What an action is: a call, or a step in the code. -/
theorem queueThreadStep_cases {s s' : QueueState T E} {act : QueueAct T E}
    (h : queueThreadStep s act = some s') :
    ∃ t, (∃ q, ((∃ e, q = .getProducer e) ∨ q = .wait .wait ∨ q = .wait .tryWait ∨ q = .elsewhere)
        ∧ (s.pc t).free = true ∧ s' = { s with pc := update s.pc t q })
      ∨ ∃ v q', QueueEffect s.queue t (s.pc t) v q' ∧ s' = ⟨v, update s.pc t q'⟩ := by
  have hcall : ∀ t q,
      ((∃ e, q = .getProducer e) ∨ q = .wait .wait ∨ q = .wait .tryWait ∨ q = .elsewhere) →
      s.call t q = some s' →
      ∃ t, (∃ q, ((∃ e, q = .getProducer e) ∨ q = .wait .wait ∨ q = .wait .tryWait ∨ q = .elsewhere)
          ∧ (s.pc t).free = true ∧ s' = { s with pc := update s.pc t q })
        ∨ ∃ v q', QueueEffect s.queue t (s.pc t) v q' ∧ s' = ⟨v, update s.pc t q'⟩ := by
    intro t q hq hs
    obtain ⟨hfree, rfl⟩ := QueueState.call_cases hs
    exact ⟨t, .inl ⟨q, hq, hfree, rfl⟩⟩
  cases act with
  | enqueue t e => exact hcall t _ (.inl ⟨e, rfl⟩) h
  | waitDequeue t => exact hcall t _ (.inr (.inl rfl)) h
  | tryDequeue t => exact hcall t _ (.inr (.inr (.inl rfl))) h
  | leave t => exact hcall t _ (.inr (.inr (.inr rfl))) h
  | go t ok =>
      obtain ⟨⟨v, q'⟩, hstep, rfl⟩ := Option.map_eq_some_iff.mp h
      exact ⟨t, .inr ⟨v, q', queueStep_effect hstep, rfl⟩⟩

theorem queueOk_new : QueueOk (VsQueue.new T E) fun _ => .elsewhere where
  subs k := sound_new k
  sema := by
    refine ⟨fun _ => trivial, ?_⟩
    have hsleep : tally SemaPc.sleeping (fun _ : T => SemaPc.elsewhere) = 0 :=
      (tally_eq_zero _ _).mpr fun _ => rfl
    have hpost : tally SemaPc.posting (fun _ : T => SemaPc.elsewhere) = 0 :=
      (tally_eq_zero _ _).mpr fun _ => rfl
    show tally SemaPc.sleeping (fun _ : T => SemaPc.elsewhere)
      = 0 + tally SemaPc.posting (fun _ : T => SemaPc.elsewhere) + 0
    rw [hsleep, hpost]
  holds _ := trivial
  account := by
    have hzero : ∀ w : QueuePc T E → ℕ, w .elsewhere = 0 →
        tally w (fun _ : T => .elsewhere) = 0 := fun w hw => (tally_eq_zero _ _).mpr fun _ => hw
    unfold VsQueue.permits
    rw [hzero QueuePc.holding rfl, hzero QueuePc.pending rfl,
      hzero (fun q : QueuePc T E => q.inSema.posting) rfl]
    rfl
  listed _ _ := ⟨rfl, rfl⟩

theorem vsQueue_keeps :
    (vsQueue (T := T) (E := E)).Keeps (fun s _ => AllEarly s.queue) fun s => QueueOk s.queue s.pc where
  start s hs := by
    obtain rfl : s = ⟨VsQueue.new T E, fun _ => .elsewhere⟩ := hs
    exact queueOk_new
  step s act s' h hearly hs := by
    obtain ⟨t, ⟨q, hq, hfree, rfl⟩ | ⟨v, q', heff, rfl⟩⟩ := queueThreadStep_cases hs
    · exact h.call hfree hq
    · exact h.step hearly rfl heff

/-! ## §5. The account. -/

/-- The elements that wait. -/
def VsQueue.waiting (s : VsQueue T E) : ℕ := tally (fun p : Producer E => p.waiting.length) s.sub

/-- **Permits and elements.**  The elements that wait are as many as the permits that are
    free, the threads that have a permit and no element yet, and the elements not yet
    signalled.  If more threads sleep than are being woken, then all the other elements
    that wait are spoken for. -/
theorem vs_queue_account {s : QueueState T E}
    (hr : vsQueue.ReachableVia (fun s _ => AllEarly s.queue) s) :
    s.queue.waiting = s.queue.permits s.pc + tally QueuePc.holding s.pc + tally QueuePc.pending s.pc
      ∧ s.queue.sema.mSema + tally (fun q => q.inSema.posting) s.pc
          ≤ tally (fun q => q.inSema.sleeping) s.pc
      ∧ (s.queue.sema.mSema + tally (fun q => q.inSema.posting) s.pc
          < tally (fun q => q.inSema.sleeping) s.pc →
        s.queue.waiting = s.queue.sema.mSema + tally (fun q => q.inSema.posting) s.pc
          + tally QueuePc.holding s.pc + tally QueuePc.pending s.pc)
      ∧ ∀ t, s.pc t ≠ .garbage ∧ ∀ k, (s.pc t).inProducer t k ≠ .garbage := by
  have h := vsQueue_keeps.reachable hr
  have hsleep : tally (fun q : QueuePc T E => q.inSema.sleeping) s.pc
      = s.queue.sema.mSema + tally (fun q : QueuePc T E => q.inSema.posting) s.pc
        + (-s.queue.sema.mCount).toNat := h.sema.sleepers
  have hwaiting : s.queue.waiting + tally Producer.headIndex s.queue.sub
      = tally Producer.tailIndex s.queue.sub := by
    unfold VsQueue.waiting tally
    rw [← Finset.sum_add_distrib]
    refine Finset.sum_congr rfl fun k _ => ?_
    have hlen : (s.queue.sub k).log.length = (s.queue.sub k).tailIndex := (h.subs k).stored.length
    have hle : (s.queue.sub k).headIndex ≤ (s.queue.sub k).tailIndex := (h.subs k).drawn.head_le
    show ((s.queue.sub k).log.drop (s.queue.sub k).headIndex).length + (s.queue.sub k).headIndex = _
    rw [List.length_drop]
    omega
  have haccount := h.account
  have hfree : s.queue.permits s.pc = s.queue.sema.mCount.toNat + s.queue.sema.mSema
      + tally (fun q : QueuePc T E => q.inSema.posting) s.pc := rfl
  refine ⟨by omega, by omega, fun hlt => by omega, fun t => ⟨fun hg => ?_, fun k hg => ?_⟩⟩
  · have hok := h.holds t
    rw [hg] at hok
    exact hok
  · have hok : IndexOk (s.queue.sub k).shelf ((s.pc t).inProducer t k) := (h.subs k).taken.holds t
    rw [hg] at hok
    exact hok

/-- Thread 0 enqueues 7. -/
def oneElementActs : List (QueueAct (Fin 2) ℕ) :=
  [.enqueue 0 7, .go 0 true, .go 0 true, .go 0 true, .go 0 true, .go 0 true, .go 0 true, .go 0 true,
    .go 0 true]

theorem vs_queue_account_one :
    ∃ s, vsQueue.run (⟨VsQueue.new (Fin 2) ℕ, fun _ => .elsewhere⟩) oneElementActs = some s
      ∧ s.pc 0 = .enqueued true
      ∧ s.queue.waiting = s.queue.permits s.pc + tally QueuePc.holding s.pc
        + tally QueuePc.pending s.pc := by
  have hok : ∀ (s : QueueState (Fin 2) ℕ) (_ : QueueAct (Fin 2) ℕ),
      decide (AllEarly s.queue) = true → AllEarly s.queue := fun _ _ => of_decide_eq_true
  have hr := Machine.ReachableVia.run (M := vsQueue) hok (.start rfl) oneElementActs rfl rfl
  exact ⟨_, rfl, rfl, (vs_queue_account hr).1⟩

end HThread.RunQueue
