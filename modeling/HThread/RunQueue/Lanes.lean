/-
  HThread.RunQueue.Lanes — `vs_queue` delivers what is put in.

  There is one lane for each thread that enqueues.  A thread that dequeues has
  an element in its hand from the claim of an index until it returns the element.

  Key lemmas:
    * `vs_queue_refines` — every step of `vs_queue` is the step of the lanes that
      its label names.
    * `QueueOk.shows`    — the lanes see a put where a call of `enqueue` is accepted,
      and a gift where a call returns an element.
  Main result:
    * `vs_queue_delivers` — the elements of the calls of `enqueue` that were not
      refused are claimed in the order of the calls, each by one thread, which
      returns it; the others still wait.
-/
import HThread.RunQueue.Elements

namespace HThread.RunQueue

open Interleave
open Function (update)

variable {T E : Type} [DecidableEq T]

/-- The element that a thread at this point has taken out. -/
def VsQueue.inHand (s : VsQueue T E) (t : T) : QueuePc T E → Option E
  | .inSub site q => (s.sub (site.producer t)).inHand q
  | _ => none

/-- The lanes that the queue stands for. -/
def QueueState.lanes (s : QueueState T E) : Lanes T T E where
  items k := (s.queue.sub k).waiting
  hand t := s.queue.inHand t (s.pc t)

omit [DecidableEq T] in
theorem scoreFrom_hand (s : VsQueue T E) (t : T) (ptrs : List T) (n : ℕ) (best : Option T)
    (size : BitVec 64) : s.inHand t (scoreFrom ptrs n best size) = none := by
  have hend : s.inHand t (scoreEnd n best) = none := by
    unfold scoreEnd
    split
    · cases best <;> rfl
    · rfl
  cases ptrs with
  | nil => exact hend
  | cons ptr next =>
      show s.inHand t (if n < 3 then _ else scoreEnd n best) = none
      split
      · rfl
      · exact hend

theorem othersFrom_hand (s : VsQueue T E) (t b : T) (ptrs : List T) :
    s.inHand t (othersFrom b ptrs) = none := by
  induction ptrs with
  | nil => rfl
  | cons ptr next ih =>
      unfold othersFrom
      split
      · exact ih
      · rfl

/-- What the lanes see of a step of thread `t` at this point. -/
def VsQueue.laneLabel (s : VsQueue T E) (t : T) : QueuePc T E → List (LaneAct T T E)
  | .inSub _ (.dequeued (some element)) => [.give t element]
  | .inSub site q => (s.sub (site.producer t)).laneLabel t (site.producer t) q
  | _ => []

/-- Between the calls an element is given, or nothing happens. -/
theorem Between.lanes {s s' : VsQueue T E} {t : T} {q q' : QueuePc T E} (h : Between s t q s' q') :
    s'.sub = s.sub ∧ (s.laneLabel t q = [] ∧ s.inHand t q' = s.inHand t q
      ∨ s.laneLabel t q = (s.inHand t q).toList.map (.give t) ∧ s.inHand t q' = none) := by
  cases h with
  | score | longer | shorter | nothing => exact ⟨rfl, .inl ⟨rfl, scoreFrom_hand _ _ _ _ _ _⟩⟩
  | noneBest | noneOther => exact ⟨rfl, .inl ⟨rfl, othersFrom_hand _ _ _ _⟩⟩
  | foundBest | foundOther => exact ⟨rfl, .inr ⟨rfl, rfl⟩⟩
  | known | added | noMemory | published | refused | signalled | noPermit | permit | tail =>
      exact ⟨rfl, .inl ⟨rfl, rfl⟩⟩

/-- The hands, when one thread has come to another point. -/
theorem hands_update {s s' : VsQueue T E} (hsub : s'.sub = s.sub) (pc : T → QueuePc T E) (t : T)
    (q' : QueuePc T E) :
    (fun u => s'.inHand u (update pc t q' u))
      = update (fun u => s.inHand u (pc u)) t (s.inHand t q') := by
  have hsame : ∀ u q, s'.inHand u q = s.inHand u q := by
    intro u q
    cases q with
    | inSub site x =>
        show (s'.sub _).inHand x = (s.sub _).inHand x
        rw [hsub]
    | _ => rfl
  funext u
  by_cases hu : u = t
  · rw [hu, Function.update_self, Function.update_self]
    exact hsame t q'
  · rw [Function.update_of_ne hu, Function.update_of_ne hu]
    exact hsame u (pc u)

variable [Fintype T] {s : VsQueue T E} {pc : T → QueuePc T E} {t : T}

/-- The hands, after a step in the code of a sub-queue. -/
theorem QueueOk.hands_sub (h : QueueOk s pc) {site : Site T} {x x' : ProducerPc E} {p' : Producer E}
    (hs : Effect (s.sub (site.producer t)) x p' x') :
    (fun u => ({ s with sub := update s.sub (site.producer t) p' } : VsQueue T E).inHand u
        (update pc t (.inSub site x') u))
      = update (fun u => s.inHand u (pc u)) t (p'.inHand x') := by
  funext u
  by_cases hu : u = t
  · rw [hu, Function.update_self, Function.update_self]
    show (update s.sub (site.producer t) p' (site.producer t)).inHand x' = _
    rw [Function.update_self]
  · rw [Function.update_of_ne hu, Function.update_of_ne hu]
    cases hpc : pc u with
    | inSub site' y =>
        show (update s.sub (site.producer t) p' (site'.producer u)).inHand y
          = (s.sub (site'.producer u)).inHand y
        by_cases hk : site'.producer u = site.producer t
        · rw [hk, Function.update_self]
          have hother := (h.subs (site.producer t)).inHand_other hs u
          have hat : (pc u).inProducer u (site.producer t) = y := by
            rw [hpc]
            exact if_pos hk
          rwa [show (⟨s.sub (site.producer t), fun u => (pc u).inProducer u (site.producer t)⟩
            : ProducerState T E).pc u = y from hat] at hother
        · rw [Function.update_of_ne hk]
    | _ => rfl

variable [DecidableEq E]

/-- What the lanes see of a step. -/
def QueueState.label (s : QueueState T E) : QueueAct T E → List (LaneAct T T E)
  | .go t _ => s.queue.laneLabel t (s.pc t)
  | _ => []

omit [DecidableEq T] [Fintype T] [DecidableEq E] in
/-- Between two calls nothing is in hand. -/
theorem inHand_free {q : QueuePc T E} (h : q.free = true) : s.inHand t q = none := by
  cases q with
  | elsewhere | enqueued | dequeued => rfl
  | _ => cases h

omit [Fintype T] [DecidableEq E] in
/-- The lanes, after a step that changes no sub-queue. -/
theorem QueueState.lanes_stay (s : QueueState T E) {v : VsQueue T E} {t : T} {q' : QueuePc T E}
    (hsub : v.sub = s.queue.sub) : (⟨v, update s.pc t q'⟩ : QueueState T E).lanes
      = { s.lanes with hand := update s.lanes.hand t (s.queue.inHand t q') } := by
  show (⟨fun k => (v.sub k).waiting, fun u => v.inHand u (update s.pc t q' u)⟩ : Lanes T T E) = _
  rw [hands_update hsub, hsub]
  rfl

/-- **The queue implements lanes.** -/
theorem vs_queue_refines :
    (vsQueue (T := T) (E := E)).RefinesBy (lanes (P := T) (A := T)) (fun s _ => AllEarly s.queue)
      QueueState.lanes (fun s act _ => s.label act) where
  start s hs := by
    obtain rfl : s = ⟨VsQueue.new T E, fun _ => .elsewhere⟩ := hs
    rfl
  step s act s' hr hearly hs := by
    have h := vsQueue_keeps.reachable hr
    -- a call begins: the hand is empty before and after
    have hcall : ∀ t q, s.queue.inHand t q = none → s.call t q = some s' →
        some s.lanes = some s'.lanes := by
      intro t q hnone hs
      obtain ⟨hfree, rfl⟩ := QueueState.call_cases hs
      rw [s.lanes_stay rfl, hnone, ← inHand_free (s := s.queue) (t := t) hfree]
      exact congrArg (fun hand => some (⟨_, hand⟩ : Lanes T T E))
        (Function.update_eq_self t s.lanes.hand).symm
    cases act with
    | enqueue t e => exact hcall t _ rfl hs
    | waitDequeue t => exact hcall t _ rfl hs
    | tryDequeue t => exact hcall t _ rfl hs
    | leave t => exact hcall t _ rfl hs
    | go t ok =>
        obtain ⟨⟨v, q'⟩, hstep, rfl⟩ := Option.map_eq_some_iff.mp hs
        have heff := queueStep_effect hstep
        show lanes.run s.lanes (s.queue.laneLabel t (s.pc t)) = _
        have hhand : s.lanes.hand t = s.queue.inHand t (s.pc t) := rfl
        generalize hpc : s.pc t = q at heff hhand
        -- a step that changes no sub-queue and leaves the hand
        have hstay : s.queue.laneLabel t q = [] → v.sub = s.queue.sub →
            s.queue.inHand t q' = s.queue.inHand t q →
            lanes.run s.lanes (s.queue.laneLabel t q)
              = some (⟨v, update s.pc t q'⟩ : QueueState T E).lanes := by
          intro hlabel hsub hsame
          rw [hlabel, s.lanes_stay hsub, hsame, ← hhand, Function.update_eq_self]
          rfl
        cases heff with
        | sub site x p' x' hsub =>
            have hat : (s.pc t).inProducer t (site.producer t) = x := by
              rw [hpc]
              exact if_pos rfl
            have hlabel : s.queue.laneLabel t (.inSub site x)
                = (s.queue.sub (site.producer t)).laneLabel t (site.producer t) x := by
              cases hsub <;> rfl
            have hl : LaneEffect t (site.producer t) (s.lanes.items (site.producer t))
                (s.lanes.hand t) p'.waiting (p'.inHand x')
                (s.queue.laneLabel t (.inSub site x)) := by
              rw [hhand, hlabel]
              exact (h.subs (site.producer t)).lane_effect _ hat hsub
            rw [hl.run]
            show _ = some (⟨fun k => (update s.queue.sub (site.producer t) p' k).waiting, fun u =>
              ({ s.queue with sub := update s.queue.sub (site.producer t) p' } : VsQueue T E).inHand u
                (update s.pc t (.inSub site x') u)⟩ : Lanes T T E)
            rw [h.hands_sub hsub]
            exact congrArg (fun items => some (⟨items, _⟩ : Lanes T T E))
              (Function.comp_update Producer.waiting s.queue.sub (site.producer t) p').symm
        | signal x σ' x' spurious hs => exact hstay rfl rfl rfl
        | wait x σ' x' spurious hs => exact hstay rfl rfl rfl
        | between _ _ _ hb =>
            obtain ⟨hsub, ⟨hlabel, hsame⟩ | ⟨hlabel, hnone⟩⟩ := hb.lanes
            · exact hstay hlabel hsub hsame
            · rw [hlabel, ← hhand, lanes_give, s.lanes_stay hsub, hnone]

/-! ## §2. The calls of a run. -/

/-- The element of the call of `enqueue` that is in progress, until it is in the sub-queue or
    refused. -/
def ProducerPc.element : ProducerPc E → Option E
  | .enqTail element | .enqBlock element _ | .enqConstruct element _ | .enqPublish element _ =>
      some element
  | _ => none

def QueuePc.element : QueuePc T E → Option E
  | .getProducer element => some element
  | .inSub _ q => q.element
  | _ => none

/-- The elements that thread `k` calls `enqueue` with. -/
def enqueueCalls (k : T) (as : List (QueueAct T E)) : List E :=
  as.filterMap fun
    | .enqueue t element => if t = k then some element else none
    | _ => none

/-- Whether the `enqueue` of the sub-queue has returned true. -/
def QueuePc.accepted : QueuePc T E → Bool
  | .inSub _ (.enqueued ret) => ret
  | _ => false

/-- What `wait_dequeue` or `try_dequeue` has returned. -/
def QueuePc.result : QueuePc T E → List E
  | .dequeued ret => ret.toList
  | _ => []

/-- A step at which a call of `enqueue` by thread `k` is decided: its element, and whether
    the sub-queue has taken it. -/
def decision (k : T) (s : QueueState T E) (act : QueueAct T E) (s' : QueueState T E) :
    List (E × Bool) :=
  match act with
  | .go t _ =>
      if t = k then
        match (s.pc k).element, (s'.pc k).element with
        | some element, none => [(element, (s'.pc k).accepted)]
        | _, _ => []
      else []
  | _ => []

/-- A step at which `wait_dequeue` or `try_dequeue` returns an element to thread `u`. -/
def returning (u : T) (_ : QueueState T E) (act : QueueAct T E) (s' : QueueState T E) : List E :=
  match act with
  | .go t _ => if t = u then (s'.pc u).result else []
  | _ => []

/-- What a run shows to the lanes. -/
def laneTrace (s : QueueState T E) (as : List (QueueAct T E)) : List (LaneAct T T E) :=
  vsQueue.trace (fun s act _ => s.label act) s as

/-- The calls of `enqueue` by thread `k` that are decided in a run. -/
def decisions (k : T) (s : QueueState T E) (as : List (QueueAct T E)) : List (E × Bool) :=
  vsQueue.trace (decision k) s as

/-- The elements that a run returns to thread `u`. -/
def returned (u : T) (s : QueueState T E) (as : List (QueueAct T E)) : List E :=
  vsQueue.trace (returning u) s as

/-- The elements of the calls that the sub-queue has not refused. -/
def accepted (calls : List (E × Bool)) : List E := (calls.filter (·.2)).map Prod.fst

omit [DecidableEq T] [Fintype T] [DecidableEq E] in
theorem scoreFrom_shows (ptrs : List T) (n : ℕ) (best : Option T) (size : BitVec 64) :
    (scoreFrom ptrs n best size : QueuePc T E).element = none
      ∧ (scoreFrom ptrs n best size : QueuePc T E).result = [] := by
  have hend : (scoreEnd n best : QueuePc T E).element = none
      ∧ (scoreEnd n best : QueuePc T E).result = [] := by
    unfold scoreEnd
    split
    · cases best <;> exact ⟨rfl, rfl⟩
    · exact ⟨rfl, rfl⟩
  unfold scoreFrom
  split
  · exact hend
  · split
    · exact ⟨rfl, rfl⟩
    · exact hend

omit [Fintype T] [DecidableEq E] in
theorem othersFrom_shows (b : T) (ptrs : List T) :
    (othersFrom b ptrs : QueuePc T E).element = none
      ∧ (othersFrom b ptrs : QueuePc T E).result = [] := by
  induction ptrs with
  | nil => exact ⟨rfl, rfl⟩
  | cons ptr next ih =>
      unfold othersFrom
      split
      · exact ih
      · exact ⟨rfl, rfl⟩

omit [Fintype T] [DecidableEq E] in
/-- A claim is neither a put nor a gift. -/
theorem take_only (t k : T) (o : Option E) :
    (∀ p, puts p (o.toList.map (LaneAct.take t k)) = [])
      ∧ ∀ u, givenBy u (o.toList.map (LaneAct.take t k)) = [] := by
  cases o <;> exact ⟨fun _ => rfl, fun _ => rfl⟩

variable {v : VsQueue T E} {q q' : QueuePc T E}

omit [Fintype T] [DecidableEq E] in
/-- A call of `enqueue` goes on with its element, or is decided: the lanes see a put iff the
    sub-queue has taken the element. -/
theorem QueueEffect.decided (h : QueueEffect s t q v q')
    (hown : ∀ site e tail, q = .inSub site (.enqPublish e tail) → site.producer t = t) :
    (q'.element = q.element ∧ ∀ k, puts k (s.laneLabel t q) = [])
      ∨ ∃ e, q.element = some e ∧ q'.element = none
        ∧ ∀ k, puts k (s.laneLabel t q) = if t = k then accepted [(e, q'.accepted)] else [] := by
  cases h with
  | sub site x p' x' hsub =>
      cases hsub with
      | publish e tail =>
          refine .inr ⟨e, rfl, rfl, fun k => ?_⟩
          show puts k [LaneAct.put (site.producer t) e] = if t = k then [e] else []
          rw [hown site e tail rfl]
          by_cases hk : t = k <;> simp [puts, hk]
      | refuse e tail => exact .inr ⟨e, rfl, rfl, fun k => (ite_self _).symm⟩
      | noTail e tail => exact .inr ⟨e, rfl, rfl, fun k => (ite_self _).symm⟩
      | head c => exact .inl ⟨rfl, (take_only t _ _).1⟩
      | setEmpty i e b hb => exact .inl ⟨by split <;> rfl, fun k => rfl⟩
      | _ => exact .inl ⟨rfl, fun k => rfl⟩
  | signal x σ' x' spurious hs => exact .inl ⟨rfl, fun k => rfl⟩
  | wait x σ' x' spurious hs => exact .inl ⟨rfl, fun k => rfl⟩
  | between _ _ _ hb =>
      cases hb with
      | noMemory e => exact .inr ⟨e, rfl, rfl, fun k => (ite_self _).symm⟩
      | score | longer | shorter | nothing =>
          exact .inl ⟨(scoreFrom_shows _ _ _ _).1, fun k => rfl⟩
      | noneBest | noneOther => exact .inl ⟨(othersFrom_shows _ _).1, fun k => rfl⟩
      | _ => exact .inl ⟨rfl, fun k => rfl⟩

omit [Fintype T] [DecidableEq E] in
/-- The lanes see a gift iff the call returns an element. -/
theorem QueueEffect.returns (h : QueueEffect s t q v q') (u : T) :
    givenBy u (s.laneLabel t q) = if t = u then q'.result else [] := by
  have hnone : q'.result = [] → [] = if t = u then q'.result else [] := by
    intro hresult
    rw [hresult, ite_self]
  have hgive : ∀ e : E, givenBy u [LaneAct.give (P := T) t e] = if t = u then [e] else [] := by
    intro e
    by_cases hu : t = u <;> simp [givenBy, hu]
  cases h with
  | sub site x p' x' hsub =>
      have hresult := hnone rfl
      cases hsub with
      | head c => exact ((take_only t _ _).2 u).trans hresult
      | _ => exact hresult
  | signal x σ' x' spurious hs => exact hnone rfl
  | wait x σ' x' spurious hs => exact hnone rfl
  | between _ _ _ hb =>
      cases hb with
      | score | longer | shorter | nothing => exact hnone (scoreFrom_shows _ _ _ _).2
      | noneBest | noneOther => exact hnone (othersFrom_shows _ _).2
      | foundBest b e => exact hgive e
      | foundOther b ptr next e => exact hgive e
      | _ => exact hnone rfl

/-- What one step of a run shows. -/
structure StepShows (s : QueueState T E) (act : QueueAct T E) (s' : QueueState T E) : Prop where
  calls : ∀ k, (s.pc k).element.toList ++ enqueueCalls k [act]
    = (decision k s act s').map Prod.fst ++ (s'.pc k).element.toList
  puts : ∀ k, puts k (s.label act) = accepted (decision k s act s')
  gives : ∀ u, givenBy u (s.label act) = returning u s act s'

omit [DecidableEq T] [Fintype T] [DecidableEq E] in
theorem element_free (h : q.free = true) : q.element = none := by
  cases q with
  | elsewhere | enqueued | dequeued => rfl
  | _ => cases h

omit [Fintype T] [DecidableEq E] in
/-- A call begins with the element it brings. -/
theorem QueueState.call_element {s s' : QueueState T E} (hs : s.call t q = some s') (k : T) :
    (s.pc k).element.toList ++ (if t = k then q.element.toList else [])
      = (s'.pc k).element.toList := by
  obtain ⟨hfree, rfl⟩ := QueueState.call_cases hs
  by_cases hk : t = k
  · subst hk
    show _ = (update s.pc t q t).element.toList
    rw [Function.update_self, element_free hfree, if_pos rfl]
    rfl
  · show _ = (update s.pc t q k).element.toList
    rw [Function.update_of_ne (Ne.symm hk), if_neg hk, List.append_nil]

omit [Fintype T] [DecidableEq E] in
theorem decision_other {s s' : QueueState T E} {k : T} (ok : Bool) (hk : t ≠ k) :
    decision k s (.go t ok) s' = [] := if_neg hk

omit [Fintype T] [DecidableEq E] in
theorem decision_none {s : QueueState T E} (ok : Bool)
    (hsame : q'.element = (s.pc t).element) :
    decision t s (.go t ok) ⟨v, update s.pc t q'⟩ = [] := by
  simp only [decision, if_true, Function.update_self, hsame]
  cases (s.pc t).element <;> rfl

omit [Fintype T] [DecidableEq E] in
theorem decision_some {s : QueueState T E} (ok : Bool) {e : E}
    (hcall : (s.pc t).element = some e) (hend : q'.element = none) :
    decision t s (.go t ok) ⟨v, update s.pc t q'⟩ = [(e, q'.accepted)] := by
  simp only [decision, if_true, Function.update_self, hcall, hend]

omit [DecidableEq E] in
/-- **What one step shows.** -/
theorem QueueOk.shows {s s' : QueueState T E} {act : QueueAct T E} (h : QueueOk s.queue s.pc)
    (hs : vsQueue.step s act = some s') : StepShows s act s' := by
  cases act with
  | enqueue t e =>
      refine ⟨fun k => ?_, fun k => rfl, fun u => rfl⟩
      have hcalls : enqueueCalls k [QueueAct.enqueue t e] = if t = k then [e] else [] := by
        by_cases hk : t = k <;> simp [enqueueCalls, hk]
      rw [hcalls]
      exact QueueState.call_element hs k
  | waitDequeue t | tryDequeue t | leave t =>
      refine ⟨fun k => ?_, fun k => rfl, fun u => rfl⟩
      have hcall : (s.pc k).element.toList ++ (if t = k then [] else []) = (s'.pc k).element.toList :=
        QueueState.call_element hs k
      rwa [ite_self] at hcall
  | go t ok =>
      obtain ⟨⟨v, q'⟩, hstep, rfl⟩ := Option.map_eq_some_iff.mp hs
      have heff := queueStep_effect hstep
      -- only the owner of a sub-queue publishes in it
      have hown : ∀ site e tail, s.pc t = .inSub site (.enqPublish e tail) →
          site.producer t = t := by
        intro site e tail hpc
        have hat : (s.pc t).inProducer t (site.producer t) = .enqPublish e tail := by
          rw [hpc]
          exact if_pos rfl
        exact ((h.subs (site.producer t)).publish_tail hat).1.symm
      have hdecided := heff.decided hown
      show StepShows s (.go t ok) ⟨v, update s.pc t q'⟩
      refine ⟨fun k => ?_, fun k => ?_, fun u => ?_⟩
      · show (s.pc k).element.toList ++ [] = _ ++ (update s.pc t q' k).element.toList
        rw [List.append_nil]
        by_cases hk : t = k
        · subst hk
          rw [Function.update_self]
          rcases hdecided with ⟨hsame, -⟩ | ⟨e, hcall, hend, -⟩
          · rw [decision_none ok hsame, hsame]
            rfl
          · rw [decision_some ok hcall hend, hcall, hend]
            rfl
        · rw [decision_other ok hk, Function.update_of_ne (Ne.symm hk)]
          rfl
      · show puts k (s.queue.laneLabel t (s.pc t)) = _
        rcases hdecided with ⟨hsame, hputs⟩ | ⟨e, hcall, hend, hputs⟩
        · rw [hputs]
          by_cases hk : t = k
          · subst hk
            rw [decision_none ok hsame]
            rfl
          · rw [decision_other ok hk]
            rfl
        · rw [hputs]
          by_cases hk : t = k
          · subst hk
            rw [decision_some ok hcall hend, if_pos rfl]
          · rw [decision_other ok hk, if_neg hk]
            rfl
      · show givenBy u (s.queue.laneLabel t (s.pc t))
          = if t = u then (update s.pc t q' u).result else []
        rw [heff.returns]
        by_cases hu : t = u
        · subst hu
          rw [Function.update_self]
        · rw [if_neg hu, if_neg hu]

/-! ## §3. Whole runs. -/

/-- What a run of the queue shows of the calls in it. -/
structure RunShows (s t : QueueState T E) (as : List (QueueAct T E)) : Prop where
  calls : ∀ k, (s.pc k).element.toList ++ enqueueCalls k as
    = (decisions k s as).map Prod.fst ++ (t.pc k).element.toList
  puts : ∀ k, puts k (laneTrace s as) = accepted (decisions k s as)
  gives : ∀ u, givenBy u (laneTrace s as) = returned u s as

omit [DecidableEq E] in
/-- Step by step. -/
theorem runShows {s t : QueueState T E} {as : List (QueueAct T E)}
    (hr : vsQueue.ReachableVia (fun s _ => AllEarly s.queue) s) (hrun : vsQueue.run s as = some t)
    (hearly : vsQueue.StepsMeet (fun s _ => AllEarly s.queue) s as) : RunShows s t as := by
  induction as generalizing s with
  | nil =>
      obtain rfl : s = t := Option.some.inj hrun
      exact ⟨fun k => List.append_nil _, fun k => rfl, fun u => rfl⟩
  | cons act as ih =>
      obtain ⟨r, hstep, hrest⟩ := Machine.run_cons hrun
      have hone := (vsQueue_keeps.reachable hr).shows hstep
      have hall := ih (hr.step hearly.1 hstep) hrest (hearly.2 r hstep)
      have hdecisions : ∀ k, decisions k s (act :: as) = decision k s act r ++ decisions k r as :=
        fun k => Machine.trace_cons (decision k) hstep as
      have htrace : laneTrace s (act :: as) = s.label act ++ laneTrace r as :=
        Machine.trace_cons (fun s act _ => QueueState.label s act) hstep as
      refine ⟨fun k => ?_, fun k => ?_, fun u => ?_⟩
      · have hcalls : enqueueCalls k (act :: as) = enqueueCalls k [act] ++ enqueueCalls k as :=
          (List.filterMap_append : ([act] ++ as).filterMap _ = _)
        rw [hcalls, hdecisions, List.map_append, List.append_assoc, ← hall.calls k,
          ← List.append_assoc, ← List.append_assoc, hone.calls k]
      · have happend : ∀ xs ys : List (E × Bool),
            accepted (xs ++ ys) = accepted xs ++ accepted ys := by
          intro xs ys
          simp [accepted]
        rw [htrace, hdecisions, happend, ← hone.puts k, ← hall.puts k]
        exact List.filterMap_append
      · have hreturned : returned u s (act :: as) = returning u s act r ++ returned u r as :=
          Machine.trace_cons (returning u) hstep as
        rw [htrace, hreturned, ← hone.gives u, ← hall.gives u]
        exact List.filterMap_append

/-- Every element that is put in comes out once, in the order of its lane. -/
structure Delivered (s t : QueueState T E) (as : List (QueueAct T E)) : Prop where
  /-- The puts, claims and returns of the run are those of lanes. -/
  lanes : lanes.run s.lanes (laneTrace s as) = some t.lanes
  /-- A call of `enqueue` is decided, or is in progress. -/
  calls : ∀ k, enqueueCalls k as = (decisions k s as).map Prod.fst ++ (t.pc k).element.toList
  /-- What a thread has put in is what is claimed, in this order, and what still waits. -/
  order : ∀ k, accepted (decisions k s as) = takes k (laneTrace s as) ++ (t.queue.sub k).waiting
  /-- What a thread has claimed is returned to it, or is in its hand. -/
  once : ∀ u, takenBy u (laneTrace s as)
    = returned u s as ++ (t.queue.inHand u (t.pc u)).toList

/-- **What is put in comes out, once and in order.** -/
theorem vs_queue_delivers {s t : QueueState T E} {as : List (QueueAct T E)}
    (hs : vsQueue.init s) (hrun : vsQueue.run s as = some t)
    (hearly : vsQueue.StepsMeet (fun s _ => AllEarly s.queue) s as) : Delivered s t as := by
  have hr : vsQueue.ReachableVia (fun s _ => AllEarly s.queue) s := .start hs
  have hlanes := vs_queue_refines.run hr hrun hearly
  have hshows := runShows hr hrun hearly
  obtain rfl : s = ⟨VsQueue.new T E, fun _ => .elsewhere⟩ := hs
  refine ⟨hlanes, fun k => hshows.calls k, fun k => ?_, fun u => ?_⟩
  · rw [← hshows.puts k]
    exact lanes_conserve_init rfl hlanes k
  · rw [← hshows.gives u]
    exact hands_conserve hlanes u

/-- Thread 0 enqueues 7, and thread 1 dequeues it. -/
def handedOverActs : List (QueueAct (Fin 2) ℕ) :=
  oneElementActs ++ .waitDequeue 1 :: List.replicate 15 (.go 1 true)

theorem vs_queue_delivers_one :
    ∃ s, vsQueue.run (⟨VsQueue.new (Fin 2) ℕ, fun _ => .elsewhere⟩) handedOverActs = some s
      ∧ Delivered ⟨VsQueue.new (Fin 2) ℕ, fun _ => .elsewhere⟩ s handedOverActs
      ∧ enqueueCalls 0 handedOverActs = [7]
      ∧ returned 1 ⟨VsQueue.new (Fin 2) ℕ, fun _ => .elsewhere⟩ handedOverActs = [7] := by
  have hok : ∀ (s : QueueState (Fin 2) ℕ) (_ : QueueAct (Fin 2) ℕ),
      decide (AllEarly s.queue) = true → AllEarly s.queue := fun _ _ => of_decide_eq_true
  exact ⟨_, rfl, vs_queue_delivers rfl rfl (Machine.stepsMeet_of_check hok handedOverActs _ rfl),
    rfl, rfl⟩

end HThread.RunQueue
