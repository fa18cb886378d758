/-
  HThread.NodeStack — `safe_enqueue` and `safe_dequeue` of `typed_node` (htypes.hpp).

  A stack linked through the nodes themselves.  `safe_enqueue` points the new
  node to the head it has read and exchanges the head for the node;
  `safe_dequeue` exchanges the head it has read for that node's successor.  The
  head is read twice before it is dereferenced, and the exchange compares
  nothing but the head: a head that has left and come back with another
  successor passes for the old one.

  Every load, store and compare-and-swap is one step of the machine `nodeStack`.

  Key lemmas:
    * `sound_step`     — a step keeps the stack, unless it loads a null head to
      dereference it, or exchanges a head whose successor has changed.
    * `not_stackOk_of_disturbed` — such a step is wrong at once.
  Main result:
    * `stack_iff` — for which threads and nodes the stack is right, and the exact
      condition on a run.
-/
import Mathlib.Logic.IsEmpty.Basic
import HThread.Interleave.Chain
import HThread.Interleave.Histories
import HThread.Interleave.Machine

namespace HThread.NodeStack

open Interleave
open Function (update)

/-! ## §1. The code. -/

/-- Program points of the two functions. -/
inductive NodePc (V : Type) where
  /-- Not inside any call. -/
  | idle
  /-- htypes.hpp:391, `old_head = *phead`. -/
  | enqHead (pnewNode : V)
  /-- htypes.hpp:392, `pnew_node->next = old_head`. -/
  | enqLink (pnewNode : V) (oldHead : Option V)
  /-- htypes.hpp:393, the compare-and-swap. -/
  | enqCas (pnewNode : V) (oldHead : Option V)
  /-- htypes.hpp:410, `if (!*phead)`. -/
  | deqTest
  /-- htypes.hpp:411, `cur_head = *phead`. -/
  | deqHead
  /-- htypes.hpp:412, `new_head = cur_head->next`. -/
  | deqNext (curHead : Option V)
  /-- htypes.hpp:413, the compare-and-swap. -/
  | deqCas (curHead : V) (newHead : Option V)
  /-- htypes.hpp:414, `cur_head->next = nullptr`. -/
  | deqClear (curHead : V)
  /-- The call has returned null. -/
  | gotNull
  /-- A null pointer has been dereferenced. -/
  | crashed
  deriving DecidableEq, Repr

/-- May start a call. -/
def NodePc.free {V : Type} : NodePc V → Bool
  | idle | gotNull => true
  | _ => false

/-- Inside `safe_dequeue`, before its result is settled. -/
def NodePc.dequeuing {V : Type} : NodePc V → Bool
  | deqTest | deqHead | deqNext _ | deqCas .. => true
  | _ => false

/-- The head, the `next` fields and the threads' program points.  History: who owns
    a node that is not in the stack, the successful exchanges, and for a thread's
    last call of `safe_dequeue`, whether the stack has been empty since it began. -/
structure StackState (T V : Type) where
  head : Option V
  next : V → Option V
  pc : T → NodePc V
  owner : V → Option T
  log : List (LifoEvent V)
  sawEmpty : T → Bool

/-- An action of thread `t`: start a call, hand its node `v` to thread `u`, or take
    the next step of the call it is in. -/
inductive StackAct (T V : Type) where
  | enqueue (t : T) (v : V)
  | dequeue (t : T)
  | give (t u : T) (v : V)
  | go (t : T)
  deriving DecidableEq, Repr

variable {T V : Type} [DecidableEq T] [DecidableEq V]

/-- Thread `t` moves to `p`. -/
def StackState.goto (s : StackState T V) (t : T) (p : NodePc V) : StackState T V :=
  { s with pc := update s.pc t p }

/-- htypes.hpp:388, `safe_enqueue`. -/
def safeEnqueue (s : StackState T V) (t : T) : NodePc V → Option (StackState T V)
  | .enqHead pnewNode => some (s.goto t (.enqLink pnewNode s.head))
  | .enqLink pnewNode oldHead =>
      some ({ s with next := update s.next pnewNode oldHead }.goto t (.enqCas pnewNode oldHead))
  | .enqCas pnewNode oldHead =>
      some (if s.head = oldHead then
          { s with
            head := some pnewNode
            owner := update s.owner pnewNode none
            log := .push pnewNode :: s.log }.goto t .idle
        else s.goto t (.enqHead pnewNode))
  | _ => none

/-- htypes.hpp:407, `safe_dequeue`. -/
def safeDequeue (s : StackState T V) (t : T) : NodePc V → Option (StackState T V)
  | .deqTest => some (s.goto t (if s.head = none then .gotNull else .deqHead))
  | .deqHead => some (s.goto t (.deqNext s.head))
  | .deqNext none => some (s.goto t .crashed)
  | .deqNext (some curHead) => some (s.goto t (.deqCas curHead (s.next curHead)))
  | .deqCas curHead newHead =>
      some (if s.head = some curHead then
          { s with
            head := newHead
            owner := update s.owner curHead (some t)
            log := .pop curHead :: s.log }.goto t (.deqClear curHead)
        else s.goto t .deqTest)
  | .deqClear curHead => some ({ s with next := update s.next curHead none }.goto t .idle)
  | _ => none

/-- The history after a step: the calls of `safe_dequeue` see whether the stack is empty. -/
def StackState.watch (s : StackState T V) : StackState T V :=
  { s with sawEmpty := fun t =>
      s.sawEmpty t || (s.pc t).dequeuing && decide (replay s.log = some []) }

/-- One step of one thread.  Only its owner pushes a node, or hands it on. -/
def stackMove (s : StackState T V) : StackAct T V → Option (StackState T V)
  | .enqueue t v =>
      if (s.pc t).free = true ∧ s.owner v = some t then some (s.goto t (.enqHead v)) else none
  | .dequeue t =>
      if (s.pc t).free = true then
        some ({ s with sawEmpty := update s.sawEmpty t false }.goto t .deqTest)
      else none
  | .give t u v =>
      if (s.pc t).free = true ∧ s.owner v = some t then
        some { s with owner := update s.owner v (some u) }
      else none
  | .go t =>
      match s.pc t with
      | .enqHead v => safeEnqueue s t (.enqHead v)
      | .enqLink v old => safeEnqueue s t (.enqLink v old)
      | .enqCas v old => safeEnqueue s t (.enqCas v old)
      | p => safeDequeue s t p

/-- The step, with the history. -/
def stackStep (s : StackState T V) (act : StackAct T V) : Option (StackState T V) :=
  (stackMove s act).map StackState.watch

/-- An empty stack; node `v` belongs to `own v`. -/
def stackInit (own : V → T) : StackState T V where
  head := none
  next _ := none
  pc _ := .idle
  owner v := some (own v)
  log := []
  sawEmpty _ := false

/-- The stack and its users. -/
def nodeStack (own : V → T) : Machine (StackState T V) (StackAct T V) where
  init s := s = stackInit own
  step := stackStep

/-! ## §2. What a stack is. -/

/-- The state of a stack that works. -/
structure StackOk (s : StackState T V) : Prop where
  /-- The history is that of a stack, and its nodes are linked from the head. -/
  lifo : ∃ l, replay s.log = some l ∧ Chain s.next s.head l ∧ l.Nodup
  /-- No node is handed out more often than it was put in. -/
  once : ∀ v, s.log.count (.pop v) ≤ s.log.count (.push v)
  /-- Nobody is about to read the `next` field of a null head, or has done it. -/
  noNull : ∀ t, s.pc t ≠ .deqNext none ∧ s.pc t ≠ .crashed
  /-- A call that returns null has seen the stack empty. -/
  nulls : ∀ t, s.pc t = .gotNull → s.sawEmpty t = true

/-- The second load of the head finds a node, and a successful exchange of
    `safe_dequeue` one that has kept its successor. -/
def UndisturbedAt (s : StackState T V) : NodePc V → Prop
  | .deqHead => s.head ≠ none
  | .deqCas curHead newHead => s.head = some curHead → s.next curHead = newHead
  | _ => True

def Undisturbed (s : StackState T V) : StackAct T V → Prop
  | .go t => UndisturbedAt s (s.pc t)
  | _ => True

instance (s : StackState T V) : ∀ p, Decidable (UndisturbedAt s p)
  | .deqHead => inferInstanceAs (Decidable (s.head ≠ none))
  | .deqCas cur new => inferInstanceAs (Decidable (s.head = some cur → s.next cur = new))
  | .idle | .enqHead _ | .enqLink .. | .enqCas .. | .deqTest | .deqNext _ | .deqClear _ | .gotNull
  | .crashed => .isTrue trivial

instance (s : StackState T V) : ∀ act, Decidable (Undisturbed s act)
  | .go t => inferInstanceAs (Decidable (UndisturbedAt s (s.pc t)))
  | .enqueue .. | .dequeue _ | .give .. => .isTrue trivial

/-! ## §3. The invariant. -/

/-- What a thread knows at a point: the node it works on is its own, and points where
    it has made it point to. -/
def PointOk (s : StackState T V) (t : T) : NodePc V → Prop
  | .enqHead v | .enqLink v _ => s.owner v = some t
  | .enqCas v old => s.owner v = some t ∧ s.next v = old
  | .deqNext cur => cur ≠ none
  | .deqClear cur => s.owner cur = some t
  | .crashed => False
  | .gotNull => s.sawEmpty t = true
  | .idle | .deqTest | .deqHead | .deqCas .. => True

/-- The nodes linked from the head are those of the history, and nobody owns them. -/
def Content (s : StackState T V) (l : List V) : Prop :=
  replay s.log = some l ∧ Chain s.next s.head l ∧ l.Nodup ∧ ∀ v, v ∈ l ↔ s.owner v = none

structure Sound (s : StackState T V) : Prop where
  content : ∃ l, Content s l
  points : ∀ t, PointOk s t (s.pc t)
  now : ∀ t, (s.pc t).dequeuing = true → replay s.log = some [] → s.sawEmpty t = true

section Steps

variable {s s' r : StackState T V} {act : StackAct T V} {t u x : T} {v : V} {p : NodePc V}

omit [DecidableEq T] in
theorem stackOk_of_sound (h : Sound s) : StackOk s := by
  obtain ⟨l, hl, hchain, hnodup, -⟩ := h.content
  refine ⟨⟨l, hl, hchain, hnodup⟩, fun v => ?_, fun t => ⟨fun ht => ?_, fun ht => ?_⟩, fun t ht => ?_⟩
  · have hcount := count_replay hl v
    omega
  · have hp := h.points t
    rw [ht] at hp
    exact hp rfl
  · have hp := h.points t
    rw [ht] at hp
    exact hp
  · have hp := h.points t
    rw [ht] at hp
    exact hp

omit [DecidableEq T] [DecidableEq V] in
/-- A thread keeps what it knows while nobody touches its nodes. -/
theorem pointOk_frame (h : PointOk s x p) (hsaw : r.sawEmpty x = s.sawEmpty x)
    (hown : ∀ w, s.owner w = some x → r.owner w = some x ∧ r.next w = s.next w) :
    PointOk r x p := by
  cases p with
  | enqHead v | deqClear v => exact (hown v h).1
  | enqLink v old => exact (hown v h).1
  | enqCas v old => exact ⟨(hown v h.1).1, (hown v h.1).2.trans h.2⟩
  | deqNext cur => exact h
  | gotNull => exact hsaw.trans h
  | crashed => exact h
  | idle | deqTest | deqHead | deqCas => trivial

omit [DecidableEq T] [DecidableEq V] in
/-- Outside a call there is nothing to know about nodes. -/
theorem pointOk_free (hfree : p.free = true) (hsaw : r.sawEmpty x = s.sawEmpty x)
    (h : PointOk s x p) : PointOk r x p := by
  cases p with
  | idle => trivial
  | gotNull => exact hsaw.trans h
  | enqHead | enqLink | enqCas | deqTest | deqHead | deqNext | deqCas | deqClear | crashed =>
      cases hfree

/-- So a step of `t` has to look at `t` only. -/
theorem points_of (h : Sound s) (hpc : r.pc = update s.pc t p)
    (hsaw : ∀ x, x ≠ t → r.sawEmpty x = s.sawEmpty x)
    (hown : ∀ x, x ≠ t → ∀ w, s.owner w = some x → r.owner w = some x ∧ r.next w = s.next w)
    (hp : PointOk r t p) (x : T) : PointOk r x (r.pc x) := by
  rw [hpc]
  by_cases hx : x = t
  · rw [hx, Function.update_self]
    exact hp
  · rw [Function.update_of_ne hx]
    exact pointOk_frame (h.points x) (hsaw x hx) (hown x hx)

omit [DecidableEq T] [DecidableEq V] in
theorem ne_of_owner {w : V} (hx : x ≠ t) (ht : s.owner v = some t) (hw : s.owner w = some x) :
    w ≠ v := by
  rintro rfl
  exact hx (Option.some.inj (hw.symm.trans ht))

/-- A step that only moves `t`. -/
theorem points_goto (h : Sound s) (hp : PointOk s t p) (x : T) :
    PointOk (s.goto t p) x ((s.goto t p).pc x) :=
  points_of (r := s.goto t p) h rfl (fun _ _ => rfl) (fun _ _ _ hw => ⟨hw, rfl⟩) hp x

/-- A store to the `next` field of the thread's own node. -/
theorem points_store (h : Sound s) (hv : s.owner v = some t) (n : Option V)
    (hp : PointOk { s with next := update s.next v n } t p) (x : T) :
    PointOk ({ s with next := update s.next v n }.goto t p) x
      (({ s with next := update s.next v n }.goto t p).pc x) := by
  refine points_of (r := { s with next := update s.next v n }.goto t p) h rfl (fun _ _ => rfl)
    (fun y hy w hw => ⟨hw, ?_⟩) hp x
  show update s.next v n w = s.next w
  rw [Function.update_of_ne (ne_of_owner hy hv hw)]

omit [DecidableEq T] in
theorem content_store {l : List V} (h : Content s l) (hv : s.owner v ≠ none) (n : Option V) :
    Content { s with next := update s.next v n } l :=
  ⟨h.1, h.2.1.update_of_not_mem (fun hmem => hv ((h.2.2.2 v).mp hmem)) n, h.2.2⟩

omit [DecidableEq T] in
/-- The exchange of `safe_enqueue` links the node in front of the others. -/
theorem content_push {l : List V} (h : Content s l) (hv : s.owner v ≠ none)
    (hnext : s.next v = s.head) :
    Content { s with
      head := some v
      owner := update s.owner v none
      log := .push v :: s.log } (v :: l) := by
  obtain ⟨hreplay, hchain, hnodup, hmem⟩ := h
  have hnotin : v ∉ l := fun hl => hv ((hmem v).mp hl)
  refine ⟨replay_push hreplay, ⟨rfl, ?_⟩, List.nodup_cons.mpr ⟨hnotin, hnodup⟩, fun w => ?_⟩
  · show Chain s.next (s.next v) l
    rw [hnext]
    exact hchain
  · show w ∈ v :: l ↔ update s.owner v none w = none
    by_cases hw : w = v
    · rw [hw, Function.update_self]
      exact iff_of_true List.mem_cons_self rfl
    · rw [Function.update_of_ne hw, List.mem_cons, ← hmem w]
      exact or_iff_right hw

omit [DecidableEq T] in
/-- That of `safe_dequeue` makes the successor of the first node the head. -/
theorem content_pop {l : List V} (h : Content s l) (hhead : s.head = some v) (t : T) :
    ∃ l', Content { s with
      head := s.next v
      owner := update s.owner v (some t)
      log := .pop v :: s.log } l' := by
  obtain ⟨hreplay, hchain, hnodup, hmem⟩ := h
  rw [hhead] at hchain
  obtain ⟨l', rfl, hrest⟩ := hchain.uncons
  obtain ⟨hnotin, hnodup⟩ := List.nodup_cons.mp hnodup
  refine ⟨l', replay_pop hreplay, hrest, hnodup, fun w => ?_⟩
  show w ∈ l' ↔ update s.owner v (some t) w = none
  by_cases hw : w = v
  · rw [hw, Function.update_self]
    exact iff_of_false hnotin (by simp)
  · rw [Function.update_of_ne hw, ← hmem w, List.mem_cons]
    exact (or_iff_right hw).symm

omit [DecidableEq T] in
/-- Nobody owns the first node. -/
theorem owner_of_head (h : ∃ l, Content s l) (hhead : s.head = some v) : s.owner v = none := by
  obtain ⟨l, -, hchain, -, hmem⟩ := h
  rw [hhead] at hchain
  obtain ⟨l', rfl, -⟩ := hchain.uncons
  exact (hmem v).mp List.mem_cons_self

/-- A step that changes the owner of a node which no other thread owned. -/
theorem points_own (h : Sound s) {o : Option T} (hv : ∀ x, x ≠ t → s.owner v ≠ some x)
    (hr : r.owner = update s.owner v o) (hnext : r.next = s.next) (hsaw : r.sawEmpty = s.sawEmpty)
    (hpc : r.pc = update s.pc t p) (hp : PointOk r t p) (x : T) : PointOk r x (r.pc x) := by
  refine points_of h hpc (fun y _ => congrFun hsaw y) (fun y hy w hw => ⟨?_, congrFun hnext w⟩) hp x
  have hne : w ≠ v := by
    rintro rfl
    exact hv y hy hw
  rw [hr, Function.update_of_ne hne]
  exact hw

/-- A step of `safe_enqueue`, before the history is recorded. -/
theorem safeEnqueue_sound (h : Sound s) (hs : safeEnqueue s t (s.pc t) = some s') :
    (∃ l, Content s' l) ∧ ∀ x, PointOk s' x (s'.pc x) := by
  have hp := h.points t
  obtain ⟨l, hl⟩ := h.content
  cases hpc : s.pc t with
  | enqHead v =>
      rw [hpc] at hs hp
      obtain rfl := Option.some.inj hs
      exact ⟨⟨l, hl⟩, points_goto h hp⟩
  | enqLink v old =>
      rw [hpc] at hs hp
      obtain rfl := Option.some.inj hs
      have hown : s.owner v = some t := hp
      refine ⟨⟨l, content_store hl (by rw [hown]; simp) old⟩, points_store h hown old ⟨hp, ?_⟩⟩
      exact Function.update_self ..
  | enqCas v old =>
      rw [hpc] at hs hp
      obtain rfl := Option.some.inj hs
      have hown : s.owner v = some t := hp.1
      by_cases hhead : s.head = old
      · rw [if_pos hhead]
        refine ⟨⟨v :: l, content_push hl (by rw [hown]; simp) (hp.2.trans hhead.symm)⟩, ?_⟩
        refine points_own h (fun y hy hw => hy ?_) rfl rfl rfl rfl trivial
        exact Option.some.inj (hw.symm.trans hown)
      · rw [if_neg hhead]
        exact ⟨⟨l, hl⟩, points_goto h hown⟩
  | idle | deqTest | deqHead | deqNext | deqCas | deqClear | gotNull | crashed =>
      rw [hpc] at hs
      cases hs

/-- The same for `safe_dequeue`, as long as nobody disturbs it. -/
theorem safeDequeue_sound (h : Sound s) (hok : Undisturbed s (.go t))
    (hs : safeDequeue s t (s.pc t) = some s') :
    (∃ l, Content s' l) ∧ ∀ x, PointOk s' x (s'.pc x) := by
  have hp := h.points t
  obtain ⟨l, hl⟩ := h.content
  cases hpc : s.pc t with
  | deqTest =>
      have hnow := h.now t
      rw [hpc] at hs hnow
      obtain rfl := Option.some.inj hs
      refine ⟨⟨l, hl⟩, points_goto h ?_⟩
      by_cases hhead : s.head = none
      · -- the head is null, so the stack is empty now
        have hchain := hl.2.1
        rw [hhead] at hchain
        obtain rfl := Chain.nil_iff.mp hchain
        rw [if_pos hhead]
        exact hnow rfl hl.1
      · rw [if_neg hhead]
        trivial
  | deqHead =>
      simp only [Undisturbed, UndisturbedAt, hpc] at hok
      rw [hpc] at hs
      obtain rfl := Option.some.inj hs
      exact ⟨⟨l, hl⟩, points_goto h hok⟩
  | deqNext cur =>
      rw [hpc] at hs hp
      cases cur with
      | none => exact absurd rfl hp
      | some c =>
          obtain rfl := Option.some.inj hs
          exact ⟨⟨l, hl⟩, points_goto h trivial⟩
  | deqCas cur new =>
      simp only [Undisturbed, UndisturbedAt, hpc] at hok
      rw [hpc] at hs
      obtain rfl := Option.some.inj hs
      by_cases hhead : s.head = some cur
      · rw [if_pos hhead]
        obtain rfl := hok hhead
        have hcur : s.owner cur = none := owner_of_head h.content hhead
        refine ⟨content_pop hl hhead t, ?_⟩
        refine points_own h (fun y _ hw => ?_) rfl rfl rfl rfl (Function.update_self ..)
        rw [hcur] at hw
        cases hw
      · rw [if_neg hhead]
        exact ⟨⟨l, hl⟩, points_goto h trivial⟩
  | deqClear cur =>
      rw [hpc] at hs hp
      obtain rfl := Option.some.inj hs
      have hown : s.owner cur = some t := hp
      exact ⟨⟨l, content_store hl (by rw [hown]; simp) none⟩, points_store h hown none trivial⟩
  | idle | enqHead | enqLink | enqCas | gotNull | crashed =>
      rw [hpc] at hs
      cases hs

/-- **One step**, before the history is recorded. -/
theorem stackMove_sound (h : Sound s) (hok : Undisturbed s act) (hs : stackMove s act = some s') :
    (∃ l, Content s' l) ∧ ∀ x, PointOk s' x (s'.pc x) := by
  obtain ⟨l, hl⟩ := h.content
  cases act with
  | enqueue t v =>
      simp only [stackMove, Option.ite_none_right_eq_some] at hs
      obtain ⟨⟨-, hown⟩, hs⟩ := hs
      obtain rfl := Option.some.inj hs
      exact ⟨⟨l, hl⟩, points_goto h hown⟩
  | dequeue t =>
      simp only [stackMove, Option.ite_none_right_eq_some] at hs
      obtain ⟨-, hs⟩ := hs
      obtain rfl := Option.some.inj hs
      refine ⟨⟨l, hl⟩, points_of h rfl (fun y hy => ?_) (fun _ _ _ hw => ⟨hw, rfl⟩) trivial⟩
      exact Function.update_of_ne hy false s.sawEmpty
  | give t u v =>
      simp only [stackMove, Option.ite_none_right_eq_some] at hs
      obtain ⟨⟨hfree, hown⟩, hs⟩ := hs
      obtain rfl := Option.some.inj hs
      refine ⟨⟨l, hl.1, hl.2.1, hl.2.2.1, fun w => ?_⟩, fun x => ?_⟩
      · show w ∈ l ↔ update s.owner v (some u) w = none
        rw [hl.2.2.2 w]
        by_cases hw : w = v
        · rw [hw, Function.update_self, hown]
          simp
        · rw [Function.update_of_ne hw]
      · -- the node is not one that a call works on
        by_cases hx : x = t
        · rw [hx]
          exact pointOk_free (s := s) hfree rfl (h.points t)
        · refine pointOk_frame (h.points x) rfl fun w hw => ⟨?_, rfl⟩
          show update s.owner v (some u) w = some x
          rw [Function.update_of_ne (ne_of_owner hx hown hw)]
          exact hw
  | go t =>
      cases hpc : s.pc t with
      | enqHead | enqLink | enqCas =>
          simp only [stackMove, hpc] at hs
          exact safeEnqueue_sound h (hpc ▸ hs)
      | idle | deqTest | deqHead | deqNext | deqCas | deqClear | gotNull | crashed =>
          simp only [stackMove, hpc] at hs
          exact safeDequeue_sound h hok (hpc ▸ hs)

theorem sound_step (h : Sound s) (hok : Undisturbed s act) (hs : stackStep s act = some s') :
    Sound s' := by
  obtain ⟨r, hr, rfl⟩ := Option.map_eq_some_iff.mp hs
  obtain ⟨⟨l, hl⟩, hpoints⟩ := stackMove_sound h hok hr
  refine ⟨⟨l, hl⟩, fun x => ?_, fun x hx hempty => ?_⟩
  · have hp := hpoints x
    show PointOk r.watch x (r.pc x)
    cases hpc : r.pc x with
    | gotNull =>
        rw [hpc] at hp
        have hsaw : r.sawEmpty x = true := hp
        show (r.sawEmpty x || _) = true
        rw [hsaw]
        rfl
    | idle | enqHead | enqLink | enqCas | deqTest | deqHead | deqNext | deqCas | deqClear
    | crashed =>
        rw [hpc] at hp
        exact hp
  · have hx : (r.pc x).dequeuing = true := hx
    show (r.sawEmpty x || (r.pc x).dequeuing && decide (replay r.log = some [])) = true
    have hempty : replay r.log = some [] := hempty
    rw [hx, decide_eq_true hempty, Bool.true_and, Bool.or_true]

/-- A step that is disturbed is wrong at once. -/
theorem not_stackOk_of_disturbed (h : Sound s) (hbad : ¬Undisturbed s act)
    (hs : stackStep s act = some s') : ¬StackOk s' := by
  obtain ⟨r, hr, rfl⟩ := Option.map_eq_some_iff.mp hs
  intro hok
  cases act with
  | enqueue | dequeue | give => exact hbad trivial
  | go t =>
      cases hpc : s.pc t with
      | deqHead =>
          simp only [Undisturbed, UndisturbedAt, hpc, not_not] at hbad
          simp only [stackMove, hpc, safeDequeue] at hr
          obtain rfl := Option.some.inj hr
          refine (hok.noNull t).1 ?_
          show update s.pc t (.deqNext s.head) t = .deqNext none
          rw [Function.update_self, hbad]
      | deqCas cur new =>
          simp only [Undisturbed, UndisturbedAt, hpc, Classical.not_imp] at hbad
          obtain ⟨hhead, hnext⟩ := hbad
          simp only [stackMove, hpc, safeDequeue] at hr
          rw [if_pos hhead] at hr
          obtain rfl := Option.some.inj hr
          -- the new head is not the one that the history asks for
          obtain ⟨l, hl, hchain, -⟩ := h.content
          rw [hhead] at hchain
          obtain ⟨l', rfl, hrest⟩ := hchain.uncons
          obtain ⟨k, hk, hkchain, -⟩ := hok.lifo
          obtain rfl := Option.some.inj ((replay_pop hl).symm.trans hk)
          exact hnext (hrest.head_eq.trans (Chain.head_eq hkchain).symm)
      | idle | enqHead | enqLink | enqCas | deqTest | deqNext | deqClear | gotNull | crashed =>
          simp [Undisturbed, UndisturbedAt, hpc] at hbad

end Steps

omit [DecidableEq T] in
theorem sound_start (own : V → T) : Sound (stackInit own) where
  content := ⟨[], rfl, rfl, .nil, fun v => iff_of_false (by simp) (by simp [stackInit])⟩
  points _ := trivial
  now _ ht := by cases ht

theorem stack_keeps (own : V → T) : (nodeStack own).Keeps Undisturbed Sound where
  start s hs := by
    obtain rfl : s = stackInit own := hs
    exact sound_start own
  step _ _ _ h hok hs := sound_step h hok hs

/-! ## §4. One thread, or no nodes. -/

/-- What a thread has read of the head is still so. -/
def AtHead (s : StackState T V) : NodePc V → Prop
  | .deqHead => s.head ≠ none
  | .deqNext cur => s.head = cur ∧ cur ≠ none
  | .deqCas cur new => s.head = some cur ∧ s.next cur = new
  | _ => True

section Alone

variable {s s' r : StackState T V} {act : StackAct T V} {p : NodePc V}

omit [DecidableEq T] [DecidableEq V] in
theorem undisturbed_of_atHead (h : ∀ t, AtHead s (s.pc t)) (act : StackAct T V) :
    Undisturbed s act := by
  cases act with
  | go t =>
      have hp := h t
      cases hpc : s.pc t with
      | deqHead =>
          rw [hpc] at hp
          simp only [Undisturbed, UndisturbedAt, hpc]
          exact hp
      | deqCas cur new =>
          rw [hpc] at hp
          simp only [Undisturbed, UndisturbedAt, hpc]
          exact fun _ => hp.2
      | _ => simp only [Undisturbed, UndisturbedAt, hpc]
  | enqueue | dequeue | give => trivial

/-- A step moves one thread, and that one has read what is there. -/
theorem atHead_move (hs : stackMove s act = some r) :
    ∃ t p, r.pc = update s.pc t p ∧ (AtHead s (s.pc t) → AtHead r p) := by
  cases act with
  | enqueue t v | dequeue t =>
      simp only [stackMove, Option.ite_none_right_eq_some] at hs
      obtain rfl := Option.some.inj hs.2
      exact ⟨t, _, rfl, fun _ => trivial⟩
  | give t u v =>
      simp only [stackMove, Option.ite_none_right_eq_some] at hs
      obtain rfl := Option.some.inj hs.2
      exact ⟨t, s.pc t, (Function.update_eq_self t s.pc).symm, id⟩
  | go t =>
      cases hpc : s.pc t with
      | enqHead | enqLink =>
          simp only [stackMove, hpc, safeEnqueue] at hs
          obtain rfl := Option.some.inj hs
          exact ⟨t, _, rfl, fun _ => trivial⟩
      | enqCas v old =>
          simp only [stackMove, hpc, safeEnqueue] at hs
          obtain rfl := Option.some.inj hs
          by_cases hhead : s.head = old
          · rw [if_pos hhead]
            exact ⟨t, _, rfl, fun _ => trivial⟩
          · rw [if_neg hhead]
            exact ⟨t, _, rfl, fun _ => trivial⟩
      | deqTest =>
          simp only [stackMove, hpc, safeDequeue] at hs
          obtain rfl := Option.some.inj hs
          refine ⟨t, _, rfl, fun _ => ?_⟩
          by_cases hhead : s.head = none
          · rw [if_pos hhead]
            trivial
          · rw [if_neg hhead]
            exact hhead
      | deqHead =>
          simp only [stackMove, hpc, safeDequeue] at hs
          obtain rfl := Option.some.inj hs
          refine ⟨t, _, rfl, fun h => ⟨rfl, ?_⟩⟩
          rw [hpc] at h
          exact h
      | deqNext cur =>
          cases cur with
          | none =>
              simp only [stackMove, hpc, safeDequeue] at hs
              obtain rfl := Option.some.inj hs
              exact ⟨t, _, rfl, fun _ => trivial⟩
          | some c =>
              simp only [stackMove, hpc, safeDequeue] at hs
              obtain rfl := Option.some.inj hs
              refine ⟨t, _, rfl, fun h => ⟨?_, rfl⟩⟩
              rw [hpc] at h
              exact h.1
      | deqCas cur new =>
          simp only [stackMove, hpc, safeDequeue] at hs
          obtain rfl := Option.some.inj hs
          by_cases hhead : s.head = some cur
          · rw [if_pos hhead]
            exact ⟨t, _, rfl, fun _ => trivial⟩
          · rw [if_neg hhead]
            exact ⟨t, _, rfl, fun _ => trivial⟩
      | deqClear =>
          simp only [stackMove, hpc, safeDequeue] at hs
          obtain rfl := Option.some.inj hs
          exact ⟨t, _, rfl, fun _ => trivial⟩
      | idle | gotNull | crashed => simp [stackMove, hpc, safeDequeue] at hs

omit [DecidableEq T] [DecidableEq V] in
/-- Without nodes there is nothing to read. -/
theorem atHead_of_empty [IsEmpty V] (h : AtHead s p) : AtHead r p := by
  cases p with
  | deqHead => exact absurd (Subsingleton.elim s.head none) h
  | deqNext cur => exact absurd (Subsingleton.elim cur none) h.2
  | deqCas cur new => exact isEmptyElim cur
  | idle | enqHead | enqLink | enqCas | deqTest | deqClear | gotNull | crashed => trivial

theorem atHead_step (hfew : Subsingleton T ∨ IsEmpty V) (h : ∀ t, AtHead s (s.pc t))
    (hs : stackStep s act = some s') (x : T) : AtHead s' (s'.pc x) := by
  obtain ⟨r, hr, rfl⟩ := Option.map_eq_some_iff.mp hs
  obtain ⟨t, p, hpc, hp⟩ := atHead_move hr
  show AtHead r (r.pc x)
  rw [hpc]
  by_cases hx : x = t
  · rw [hx, Function.update_self]
    exact hp (h t)
  · rw [Function.update_of_ne hx]
    rcases hfew with hone | hnone
    · exact absurd (Subsingleton.elim x t) hx
    · exact atHead_of_empty (h x)

theorem stackOk_of_few (own : V → T) (hfew : Subsingleton T ∨ IsEmpty V)
    (hr : (nodeStack own).Reachable s) : StackOk s := by
  have hkeeps : (nodeStack own).Keeps (fun _ _ => True)
      fun s => Sound s ∧ ∀ t, AtHead s (s.pc t) := by
    refine ⟨fun s hs => ?_, fun s act s' h _ hs => ⟨?_, atHead_step hfew h.2 hs⟩⟩
    · obtain rfl : s = stackInit own := hs
      exact ⟨sound_start own, fun _ => trivial⟩
    · exact sound_step h.1 (undisturbed_of_atHead h.2 act) hs
  exact stackOk_of_sound (hkeeps.reachable hr).1

end Alone

/-! ## §5. Two threads and a node. -/

section Two

variable {own : V → T} {act : StackAct T V} {t u : T} {v : V} {a b p : NodePc V}
  {h n h' n' : Option V}

/-- A state can be reached with thread `t` at `a` and thread `u` at `b`, this head, and
    this successor of `v`. -/
def Seen (own : V → T) (t u : T) (v : V) (a b : NodePc V) (h n : Option V) : Prop :=
  ∃ s, (nodeStack own).Reachable s ∧ s.pc t = a ∧ s.pc u = b ∧ s.head = h ∧ s.next v = n

/-- A step of `t`. -/
theorem seen_left (hne : u ≠ t) (act : StackAct T V) (hs : Seen own t u v a b h n)
    (hmove : ∀ s, s.pc t = a → s.head = h → s.next v = n →
      ∃ r, stackMove s act = some r ∧ r.pc = update s.pc t p ∧ r.head = h' ∧ r.next v = n') :
    Seen own t u v p b h' n' := by
  obtain ⟨s, hr, ht, hu, hh, hn⟩ := hs
  obtain ⟨r, hmoved, hpc, hh', hn'⟩ := hmove s ht hh hn
  refine ⟨r.watch, hr.step (a := act) (Option.map_eq_some_iff.mpr ⟨r, hmoved, rfl⟩), ?_, ?_, hh', hn'⟩
  · show r.pc t = p
    rw [hpc, Function.update_self]
  · show r.pc u = b
    rw [hpc, Function.update_of_ne hne, hu]

/-- The two threads change places. -/
theorem Seen.swap (hs : Seen own t u v a b h n) : Seen own u t v b a h n := by
  obtain ⟨s, hr, ht, hu, hh, hn⟩ := hs
  exact ⟨s, hr, hu, ht, hh, hn⟩

/-- `t` pushes `v`. -/
theorem seen_pushed (v : V) (hne : u ≠ own v) :
    Seen own (own v) u v .idle .idle (some v) none := by
  have hs : Seen own (own v) u v (.enqHead v) .idle none none := by
    refine ⟨_, .after (t := ((stackInit own).goto (own v) (.enqHead v)).watch) rfl
      [.enqueue (own v) v] ?_, Function.update_self .., ?_, rfl, rfl⟩
    · simp [Machine.run, nodeStack, stackStep, stackMove, stackInit, NodePc.free]
    · exact Function.update_of_ne hne _ _
  have hs : Seen own (own v) u v (.enqLink v none) .idle none none :=
    seen_left hne (.go (own v)) hs fun s ht hh hn =>
      ⟨s.goto (own v) (.enqLink v none), by simp only [stackMove, ht, safeEnqueue, hh], rfl, hh, hn⟩
  have hs : Seen own (own v) u v (.enqCas v none) .idle none none :=
    seen_left hne (.go (own v)) hs fun s ht hh hn =>
      ⟨{ s with next := update s.next v none }.goto (own v) (.enqCas v none),
        by simp only [stackMove, ht, safeEnqueue], rfl, hh, Function.update_self v none s.next⟩
  exact seen_left hne (.go (own v)) hs fun s ht hh hn =>
    ⟨{ s with head := some v, owner := update s.owner v none, log := .push v :: s.log }.goto (own v)
      .idle, by simp only [stackMove, ht, safeEnqueue, if_pos hh], rfl, rfl, hn⟩

/-- `t` calls `safe_dequeue` and finds a node. -/
theorem seen_deqHead (hne : u ≠ t) (hfree : a.free = true)
    (hs : Seen own t u v a b (some v) n) : Seen own t u v .deqHead b (some v) n := by
  have hs : Seen own t u v .deqTest b (some v) n :=
    seen_left hne (.dequeue t) hs fun s ht hh hn =>
      ⟨{ s with sawEmpty := update s.sawEmpty t false }.goto t .deqTest,
        by simp only [stackMove, ht, hfree, if_true], rfl, hh, hn⟩
  exact seen_left hne (.go t) hs fun s ht hh hn =>
    ⟨s.goto t .deqHead, by simp only [stackMove, ht, safeDequeue, hh, reduceCtorEq, if_false],
      rfl, hh, hn⟩

/-- It pops it. -/
theorem seen_popped (hne : u ≠ t) (hs : Seen own t u v .deqHead b (some v) n) :
    Seen own t u v (.deqClear v) b n n := by
  have hs : Seen own t u v (.deqNext (some v)) b (some v) n :=
    seen_left hne (.go t) hs fun s ht hh hn =>
      ⟨s.goto t (.deqNext (some v)), by simp only [stackMove, ht, safeDequeue, hh], rfl, hh, hn⟩
  have hs : Seen own t u v (.deqCas v n) b (some v) n :=
    seen_left hne (.go t) hs fun s ht hh hn =>
      ⟨s.goto t (.deqCas v n), by simp only [stackMove, ht, safeDequeue, hn], rfl, hh, hn⟩
  exact seen_left hne (.go t) hs fun s ht hh hn =>
    ⟨{ s with head := n, owner := update s.owner v (some t), log := .pop v :: s.log }.goto t
      (.deqClear v), by simp only [stackMove, ht, safeDequeue, if_pos hh], rfl, rfl, hn⟩

/-- `t` pushes `v`, and starts to pop it; `u` pops it between the two loads of the head. -/
theorem not_stackOk_of_two (v : V) (hne : u ≠ own v) :
    ∃ s : StackState T V, (nodeStack own).Reachable s ∧ ¬StackOk s := by
  have hs := seen_deqHead hne rfl (seen_pushed v hne)
  have hs := seen_popped hne.symm (seen_deqHead hne.symm rfl hs.swap)
  have hs : Seen own (own v) u v (.deqNext none) (.deqClear v) none none :=
    seen_left hne (.go (own v)) hs.swap fun s ht hh hn =>
      ⟨s.goto (own v) (.deqNext none), by simp only [stackMove, ht, safeDequeue, hh], rfl, hh, hn⟩
  obtain ⟨s, hr, ht, -⟩ := hs
  exact ⟨s, hr, fun hok => (hok.noNull (own v)).1 ht⟩

end Two

/-- **The node stack breaks.**  It is a stack in all runs iff there are fewer than two
    threads, or no nodes; and a run with any number of threads is that of a stack
    throughout iff no step of it is disturbed: no second load of the head finds null,
    and no pop takes a head whose successor has changed since it was read. -/
theorem stack_iff (own : V → T) :
    ((∀ s : StackState T V, (nodeStack own).Reachable s → StackOk s)
        ↔ Subsingleton T ∨ IsEmpty V)
      ∧ ∀ {as : List (StackAct T V)} {s : StackState T V},
          (nodeStack own).run (stackInit own) as = some s →
            ((nodeStack own).Always StackOk (stackInit own) as
              ↔ (nodeStack own).StepsMeet Undisturbed (stackInit own) as) := by
  refine ⟨⟨fun h => ?_, fun hfew s hr => stackOk_of_few own hfew hr⟩, fun {as s} hrun => ?_⟩
  · by_contra hmany
    rw [not_or, not_subsingleton_iff_nontrivial, not_isEmpty_iff] at hmany
    obtain ⟨hnontrivial, ⟨v⟩⟩ := hmany
    obtain ⟨u, hu⟩ := exists_ne (own v)
    obtain ⟨s, hr, hbad⟩ := not_stackOk_of_two v hu
    exact hbad (h s hr)
  · exact Machine.always_iff_stepsMeet (stack_keeps own) (fun _ => stackOk_of_sound)
      (fun _ _ _ => not_stackOk_of_disturbed) rfl hrun

/-- Between the two loads of thread 0 the stack becomes empty. -/
def nullActs : List (StackAct (Fin 2) (Fin 2)) :=
  [.enqueue 0 0, .go 0, .go 0, .go 0, .dequeue 0, .go 0, .dequeue 1, .go 1, .go 1, .go 1, .go 1,
    .go 0, .go 0]

/-- Thread 1 finds node 0 with node 1 behind it; thread 0 pops both and pushes node 0
    again.  The exchange of thread 1 takes node 0 for the one it has read, and makes
    node 1 the head, which belongs to thread 0. -/
def abaActs : List (StackAct (Fin 2) (Fin 2)) :=
  [.enqueue 0 1, .go 0, .go 0, .go 0, .enqueue 0 0, .go 0, .go 0, .go 0, .dequeue 1, .go 1, .go 1,
    .go 1, .dequeue 0, .go 0, .go 0, .go 0, .go 0, .go 0, .dequeue 0, .go 0, .go 0, .go 0, .go 0, .go 0,
    .enqueue 0 0, .go 0, .go 0, .go 0, .go 1]

theorem stack_breaks :
    (∃ s, (nodeStack fun _ => 0).run (stackInit fun _ => 0) nullActs = some s
        ∧ s.pc 0 = .crashed ∧ ¬StackOk s)
      ∧ ∃ s, (nodeStack fun _ => 0).run (stackInit fun _ => 0) abaActs = some s
        ∧ s.head = some 1 ∧ s.owner 1 = some 0 ∧ replay s.log = some [] ∧ ¬StackOk s := by
  refine ⟨⟨_, rfl, rfl, fun hok => (hok.noNull 0).2 rfl⟩, _, rfl, rfl, rfl, rfl, fun hok => ?_⟩
  obtain ⟨l, hl, hchain, -⟩ := hok.lifo
  obtain rfl : [] = l := Option.some.inj hl
  cases hchain

/-- Two threads push a node each, pop one each, and thread 1 finds the stack empty. -/
def calmActs : List (StackAct (Fin 2) (Fin 2)) :=
  [.give 0 1 0, .enqueue 0 1, .go 0, .enqueue 1 0, .go 1, .go 1, .go 1, .go 0, .go 0, .go 0, .go 0,
    .go 0, .dequeue 1, .go 1, .go 1, .go 1, .go 1, .go 1, .dequeue 0, .go 0, .go 0, .go 0, .go 0, .go 0,
    .dequeue 1, .go 1]

theorem stack_calm :
    ∃ s, (nodeStack fun _ => 0).run (stackInit fun _ => 0) calmActs = some s
      ∧ s.log = [.pop 0, .pop 1, .push 1, .push 0] ∧ s.pc 1 = .gotNull
      ∧ (nodeStack fun _ => 0).Always StackOk (stackInit fun _ => 0) calmActs :=
  ⟨_, rfl, rfl, rfl, ((stack_iff fun _ => 0).2 rfl).mpr
    (Machine.stepsMeet_of_check (fun _ _ => of_decide_eq_true) _ _ rfl)⟩

end HThread.NodeStack
