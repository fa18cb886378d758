/-
  HThread.Worker — `worker_routine` and the context switches.

  Agents are the threads of the kernel: workers, which run `worker_routine`,
  and raw threads of the program.  A worker dequeues a vthread, resumes its
  saved context and, when the vthread switches out, decodes the value it was
  handed.  What vthreads do between two switches is the code of a subsystem:
  `C` are its program points, `K` the points at which it may be resumed, `M`
  the mutexes whose address it may hand over.

  Every field access, queue operation and context switch is one step.  The
  build is the default one: SPIN_LOCK_STYLE, no LOCKFREE_COND.

  Key lemmas:
    * `worker_custody`   — the worker's steps handle one vthread at a time,
      except the enqueue at line 162.
    * `worker_handshake` — the worker resumes only runnable vthreads and makes
      them runnable after they switched out.
-/
import Mathlib.Data.List.Nodup
import HThread.Interleave.Custody
import HThread.Interleave.Handshake

namespace HThread

open Interleave
open Function (update)

/-! ## §1. The worker. -/

/-- vthread.hpp:43, `hcoroutine_ret_t`. -/
inductive Status where
  | finished | suspended | blocked | lockFail
  deriving DecidableEq, Repr

/-- What `yield_myself` hands to the worker: a status, or (`ret > 5`) the address
    of a mutex that the worker is to release. -/
inductive Ret (M : Type) where
  | status (st : Status)
  | mutex (m : M)
  deriving DecidableEq, Repr

/-- Where an agent is. -/
inductive Pc (V C K M : Type) where
  /-- mgr_thread.cpp:125, before `get_and_work`. -/
  | top
  /-- mgr_thread.cpp:126, `if (!pvth->runnable)`. -/
  | got (v : V)
  /-- mgr_thread.cpp:127, the vthread goes back into `vs_queue`. -/
  | putBack (v : V)
  /-- mgr_thread.cpp:136, the switch into the vthread. -/
  | resume (v : V)
  /-- In the code of a vthread, or (`none`) of a raw thread. -/
  | exec (me : Option V) (c : C)
  /-- vthread.hpp:320, in `yield_myself`, before the switch out of the vthread. -/
  | switch (v : V) (r : Ret M) (k : K)
  /-- mgr_thread.cpp:141, back from `resume` with `r`. -/
  | ret (v : V) (r : Ret M)
  /-- mgr_thread.cpp:160, `pvth->runnable = true`. -/
  | setRunnable (v : V)
  /-- mgr_thread.cpp:161, `if (pvth->cur_status == STATUS_SUSPENDED)`. -/
  | readStatus (v : V)
  /-- mgr_thread.cpp:162, the worker enqueues the vthread itself. -/
  | wakeSelf (v : V)
  /-- A null pointer was dereferenced. -/
  | crashed
  deriving DecidableEq, Repr

/-- What the worker and the subsystems share: the run queue, the fields of the
    vthreads, the words of the mutexes and the agents.  History: how often a
    worker released a mutex for a vthread and enqueued it at line 162. -/
structure Sched (A V C K M : Type) where
  vsQueue : List V
  runnable : V → Bool
  curStatus : V → Status
  ctx : V → K
  c : M → Bool
  pc : A → Pc V C K M
  releases : V → ℕ
  selfPuts : V → ℕ

variable {A V C K M B : Type} [DecidableEq A] [DecidableEq V]

/-- Agent `a` moves to `p`. -/
def Sched.goto (s : Sched A V C K M) (a : A) (p : Pc V C K M) : Sched A V C K M :=
  { s with pc := update s.pc a p }

/-- `vs->vs_queue.enqueue(v)`. -/
def Sched.enqueue (s : Sched A V C K M) (v : V) : Sched A V C K M :=
  { s with vsQueue := s.vsQueue ++ [v] }

/-- `me->yield_myself(r)`, to be resumed at `k`; a raw thread has a null `me`. -/
def yieldMyself (me : Option V) (r : Ret M) (k : K) : Pc V C K M :=
  match me with
  | some v => .switch v r k
  | none => .crashed

/-- vthreads.cpp:79, `get_and_work`: any entry of the queue may be handed out. -/
def getAndWork (s : Sched A V C K M) (a : A) (v : V) : Option (Sched A V C K M) :=
  match s.pc a with
  | .top => if v ∈ s.vsQueue then some ({ s with vsQueue := s.vsQueue.erase v }.goto a (.got v))
      else none
  | _ => none

/-- mgr_thread.cpp:117, `worker_routine` after `get_and_work`, one step at program
    point `p`.  `enter` is the code at a resumption point, `finish` the entry of
    `finish_vthread`. -/
def workerRoutine [DecidableEq M] (enter : K → C) (finish : V → Pc V C K M)
    (s : Sched A V C K M) (a : A) : Pc V C K M → Option (Sched A V C K M)
  | .got v => some (s.goto a (if s.runnable v then .resume v else .putBack v))
  | .putBack v => some ((s.enqueue v).goto a .top)
  | .resume v => some (s.goto a (.exec (some v) (enter (s.ctx v))))
  | .switch v r k => some ({ s with ctx := update s.ctx v k }.goto a (.ret v r))
  | .ret v (.status .finished) => some (s.goto a (finish v))
  | .ret v (.status .blocked) =>
      some ({ s with runnable := update s.runnable v true }.goto a .top)
  | .ret v (.status .suspended) => some ((s.enqueue v).goto a .top)
  | .ret v (.status .lockFail) => some ((s.enqueue v).goto a .top)
  | .ret v (.mutex m) =>
      some ({ s with
        c := update s.c m false
        releases := update s.releases v (s.releases v + 1) }.goto a (.setRunnable v))
  | .setRunnable v =>
      some ({ s with runnable := update s.runnable v true }.goto a (.readStatus v))
  | .readStatus v =>
      some (s.goto a (if s.curStatus v = .suspended then .wakeSelf v else .top))
  | .wakeSelf v =>
      some ({ s.enqueue v with selfPuts := update s.selfPuts v (s.selfPuts v + 1) }.goto a .top)
  | .top | .exec _ _ | .crashed => none

/-! ## §2. Whose hands a vthread is in. -/

/-- How the code of a subsystem treats vthreads: where it resumes, which other
    vthread (one it wakes) it has in hand at a point, and at which points its
    own vthread has been marked not runnable. -/
structure Shape (V C K : Type) where
  enter : K → C
  hand : C → Option V
  armed : C → Bool
  hand_enter : ∀ k, hand (enter k) = none
  armed_enter : ∀ k, armed (enter k) = false

/-- The worker still has the vthread in hand after it was handed this value. -/
def Ret.keeps : Ret M → Bool
  | .status .blocked => false
  | .mutex _ => false
  | _ => true

namespace Pc

/-- The agent runs `v`, on its stack. -/
def Runs : Pc V C K M → V → Prop
  | exec me _, w => me = some w
  | switch v _ _, w => w = v
  | _, _ => False

/-- The agent has `v` in hand: nobody else may run or enqueue it. -/
def Holds (sh : Shape V C K) : Pc V C K M → V → Prop
  | got v, w => w = v
  | putBack v, w => w = v
  | resume v, w => w = v
  | exec me c, w => me = some w ∨ sh.hand c = some w
  | switch v r _, w => w = v ∧ r.keeps = true
  | ret v r, w => w = v ∧ r.keeps = true
  | _, _ => False

/-- The agent is about to leave `v`, which has been marked not runnable. -/
def Leaving (sh : Shape V C K) : Pc V C K M → V → Prop
  | exec me c, w => me = some w ∧ sh.armed c = true
  | switch v r _, w => w = v ∧ r.keeps = false
  | ret v r, w => w = v ∧ r.keeps = false
  | setRunnable v, w => w = v
  | _, _ => False

/-- The agent runs `v`, or is about to, and is not leaving it. -/
def Active (sh : Shape V C K) : Pc V C K M → V → Prop
  | resume v, w => w = v
  | exec me c, w => me = some w ∧ sh.armed c = false
  | switch v r _, w => w = v ∧ r.keeps = true
  | _, _ => False

/-- The agent has `v` in hand without running it: it took `v` out of a wait queue. -/
def InHand (sh : Shape V C K) : Pc V C K M → V → Prop
  | exec _ c, w => sh.hand c = some w
  | _, _ => False

end Pc

/-- The bags of vthreads: `vs_queue` and the wait queues of the subsystem. -/
def bags (vsQueue : List V) (waiting : B → List V) : Option B → List V
  | none => vsQueue
  | some b => waiting b

omit [DecidableEq V] in
/-- Changing a wait queue is changing its bag. -/
theorem bags_update [DecidableEq B] (vsQueue : List V) (waiting : B → List V) (b : B)
    (l : List V) : bags vsQueue (update waiting b l) = update (bags vsQueue waiting) (some b) l := by
  funext x
  cases x with
  | none => exact (Function.update_of_ne (by simp) _ _).symm
  | some x =>
      by_cases hx : x = b
      · subst hx
        rw [Function.update_self]
        exact Function.update_self ..
      · rw [Function.update_of_ne fun he => hx (Option.some.inj he)]
        exact Function.update_of_ne hx ..

/-! ## §3. The steps of the worker. -/

section Steps

variable {T gone : V → Prop} {sh : Shape V C K} {waiting : B → List V} {s s' : Sched A V C K M}
  {a : A}

/-- A step that leaves the queues alone. -/
theorem custody_goto (h : Custody T (Pc.Holds sh) s.pc (bags s.vsQueue waiting) gone) {p : Pc V C K M}
    (hp : ∀ w, T w → p.Holds sh w → (s.pc a).Holds sh w) :
    Custody T (Pc.Holds sh) (update s.pc a p) (bags s.vsQueue waiting) gone :=
  h.stay hp rfl

/-- The agent enqueues a vthread it has in hand. -/
theorem custody_enqueue (h : Custody T (Pc.Holds sh) s.pc (bags s.vsQueue waiting) gone)
    {p : Pc V C K M} {v : V} (hv : T v → (s.pc a).Holds sh v)
    (hp : ∀ w, T w → p.Holds sh w → w ≠ v ∧ (s.pc a).Holds sh w) :
    Custody T (Pc.Holds sh) (update s.pc a p) (bags (s.vsQueue ++ [v]) waiting) gone := by
  refine h.put (b := none) hv hp (List.perm_append_singleton _ _) fun x hx => ?_
  cases x with
  | none => exact absurd rfl hx
  | some b => rfl

theorem getAndWork_custody (h : Custody T (Pc.Holds sh) s.pc (bags s.vsQueue waiting) gone) {v : V}
    (hs : getAndWork s a v = some s') :
    Custody T (Pc.Holds sh) s'.pc (bags s'.vsQueue waiting) gone := by
  unfold getAndWork at hs
  split at hs
  · next hpc =>
      rw [Option.ite_none_right_eq_some] at hs
      obtain ⟨hv, hs⟩ := hs
      obtain rfl := Option.some.inj hs
      refine h.take (b := none) (fun w _ hw => .inl hw) (List.perm_cons_erase hv) fun x hx => ?_
      cases x with
      | none => exact absurd rfl hx
      | some b => rfl
  · cases hs

/-- **One vthread at a time.**  A step of the worker keeps every tracked vthread
    in one place, unless it is the enqueue at line 162. -/
theorem worker_custody [DecidableEq M] {finish : V → Pc V C K M}
    (h : Custody T (Pc.Holds sh) s.pc (bags s.vsQueue waiting) gone)
    (hfin : ∀ v w, (finish v).Holds sh w → w = v) (hwake : ∀ v, s.pc a = .wakeSelf v → ¬T v)
    (hs : workerRoutine sh.enter finish s a (s.pc a) = some s') :
    Custody T (Pc.Holds sh) s'.pc (bags s'.vsQueue waiting) gone := by
  cases hpc : s.pc a with
  | got v =>
      rw [hpc] at hs
      obtain rfl := Option.some.inj hs
      refine custody_goto h fun w _ hw => ?_
      rw [hpc]
      split at hw <;> exact hw
  | putBack v =>
      rw [hpc] at hs
      obtain rfl := Option.some.inj hs
      exact custody_enqueue h (fun _ => hpc ▸ rfl) fun w _ hw => hw.elim
  | resume v =>
      rw [hpc] at hs
      obtain rfl := Option.some.inj hs
      refine custody_goto h fun w _ hw => ?_
      rw [hpc]
      rcases hw with hw | hw
      · exact (Option.some.inj hw).symm
      · rw [sh.hand_enter] at hw
        cases hw
  | switch v r k =>
      rw [hpc] at hs
      obtain rfl := Option.some.inj hs
      refine custody_goto h fun w _ hw => ?_
      rw [hpc]
      exact hw
  | ret v r =>
      rw [hpc] at hs
      match r, hs with
      | .status .finished, hs =>
          obtain rfl := Option.some.inj hs
          refine custody_goto h fun w _ hw => ?_
          rw [hpc]
          exact ⟨hfin v w hw, rfl⟩
      | .status .blocked, hs =>
          obtain rfl := Option.some.inj hs
          exact custody_goto h fun w _ hw => hw.elim
      | .status .suspended, hs =>
          obtain rfl := Option.some.inj hs
          exact custody_enqueue h (fun _ => hpc ▸ ⟨rfl, rfl⟩) fun w _ hw => hw.elim
      | .status .lockFail, hs =>
          obtain rfl := Option.some.inj hs
          exact custody_enqueue h (fun _ => hpc ▸ ⟨rfl, rfl⟩) fun w _ hw => hw.elim
      | .mutex m, hs =>
          obtain rfl := Option.some.inj hs
          exact custody_goto h fun w _ hw => hw.elim
  | setRunnable v =>
      rw [hpc] at hs
      obtain rfl := Option.some.inj hs
      exact custody_goto h fun w _ hw => hw.elim
  | readStatus v =>
      rw [hpc] at hs
      obtain rfl := Option.some.inj hs
      refine custody_goto h fun w _ hw => ?_
      split at hw <;> exact hw.elim
  | wakeSelf v =>
      -- the vthread is not in the worker's hands: only an untracked one may come here
      rw [hpc] at hs
      obtain rfl := Option.some.inj hs
      have hv := hwake v hpc
      exact custody_enqueue h (fun hT => absurd hT hv) fun w _ hw => hw.elim
  | top => simp [hpc, workerRoutine] at hs
  | exec me c => simp [hpc, workerRoutine] at hs
  | crashed => simp [hpc, workerRoutine] at hs

theorem getAndWork_handshake (h : Handshake T (Pc.Leaving sh) (Pc.Active sh) s.pc s.runnable)
    {v : V} (hs : getAndWork s a v = some s') :
    Handshake T (Pc.Leaving sh) (Pc.Active sh) s'.pc s'.runnable := by
  unfold getAndWork at hs
  split at hs
  · rw [Option.ite_none_right_eq_some] at hs
    obtain ⟨-, hs⟩ := hs
    obtain rfl := Option.some.inj hs
    exact h.stay (fun w _ hw => hw.elim) (fun w _ hw => hw.elim) rfl
  · cases hs

/-- **The runnable flag.**  The worker resumes a vthread only after it found it
    runnable, and makes it runnable only after it has left it. -/
theorem worker_handshake [DecidableEq M] {finish : V → Pc V C K M}
    (h : Handshake T (Pc.Leaving sh) (Pc.Active sh) s.pc s.runnable)
    (hfinl : ∀ v w, ¬(finish v).Leaving sh w) (hfina : ∀ v w, ¬(finish v).Active sh w)
    (hs : workerRoutine sh.enter finish s a (s.pc a) = some s') :
    Handshake T (Pc.Leaving sh) (Pc.Active sh) s'.pc s'.runnable := by
  cases hpc : s.pc a with
  | got v =>
      rw [hpc] at hs
      obtain rfl := Option.some.inj hs
      by_cases hrun : s.runnable v = true
      · show Handshake T _ _ (update s.pc a (if s.runnable v then .resume v else .putBack v)) _
        rw [if_pos hrun]
        exact h.check hrun (fun w _ hw => hw.elim) (fun w _ hw => .inl hw) rfl
      · show Handshake T _ _ (update s.pc a (if s.runnable v then .resume v else .putBack v)) _
        rw [if_neg hrun]
        exact h.stay (fun w _ hw => hw.elim) (fun w _ hw => hw.elim) rfl
  | putBack v =>
      rw [hpc] at hs
      obtain rfl := Option.some.inj hs
      exact h.stay (fun w _ hw => hw.elim) (fun w _ hw => hw.elim) rfl
  | resume v =>
      rw [hpc] at hs
      obtain rfl := Option.some.inj hs
      refine h.stay (fun w _ hw => ?_) (fun w _ hw => ?_) rfl
      · obtain ⟨-, harm⟩ := hw
        rw [sh.armed_enter] at harm
        cases harm
      · rw [hpc]
        exact (Option.some.inj hw.1).symm
  | switch v r k =>
      rw [hpc] at hs
      obtain rfl := Option.some.inj hs
      refine h.stay (fun w _ hw => ?_) (fun w _ hw => hw.elim) rfl
      rw [hpc]
      exact hw
  | ret v r =>
      rw [hpc] at hs
      match r, hs with
      | .status .finished, hs =>
          obtain rfl := Option.some.inj hs
          exact h.stay (fun w _ hw => absurd hw (hfinl v w)) (fun w _ hw => absurd hw (hfina v w)) rfl
      | .status .blocked, hs =>
          obtain rfl := Option.some.inj hs
          exact h.settle (fun _ => hpc ▸ ⟨rfl, rfl⟩) (fun w _ hw => hw.elim) (fun w _ hw => hw.elim)
            rfl
      | .status .suspended, hs =>
          obtain rfl := Option.some.inj hs
          exact h.stay (fun w _ hw => hw.elim) (fun w _ hw => hw.elim) rfl
      | .status .lockFail, hs =>
          obtain rfl := Option.some.inj hs
          exact h.stay (fun w _ hw => hw.elim) (fun w _ hw => hw.elim) rfl
      | .mutex m, hs =>
          obtain rfl := Option.some.inj hs
          refine h.stay (fun w _ hw => ?_) (fun w _ hw => hw.elim) rfl
          rw [hpc]
          exact ⟨hw, rfl⟩
  | setRunnable v =>
      rw [hpc] at hs
      obtain rfl := Option.some.inj hs
      exact h.settle (fun _ => hpc ▸ rfl) (fun w _ hw => hw.elim) (fun w _ hw => hw.elim) rfl
  | readStatus v =>
      rw [hpc] at hs
      obtain rfl := Option.some.inj hs
      refine h.stay (fun w _ hw => ?_) (fun w _ hw => ?_) rfl
      · split at hw <;> exact hw.elim
      · split at hw <;> exact hw.elim
  | wakeSelf v =>
      rw [hpc] at hs
      obtain rfl := Option.some.inj hs
      exact h.stay (fun w _ hw => hw.elim) (fun w _ hw => hw.elim) rfl
  | top => simp [hpc, workerRoutine] at hs
  | exec me c => simp [hpc, workerRoutine] at hs
  | crashed => simp [hpc, workerRoutine] at hs

/-- The other vthread in an agent's hand is not the one it runs. -/
def Distinct (T : V → Prop) (sh : Shape V C K) (pc : A → Pc V C K M) : Prop :=
  ∀ a me c w, T w → pc a = .exec me c → sh.hand c = some w → me ≠ some w

omit [DecidableEq V] in
/-- A step to a point where the agent has no other vthread in hand. -/
theorem Distinct.move {pc : A → Pc V C K M} (h : Distinct T sh pc) {p : Pc V C K M}
    (hp : ∀ me c w, T w → p = .exec me c → sh.hand c = some w → me ≠ some w) :
    Distinct T sh (update pc a p) := by
  intro x me c w hw hx hhand
  by_cases hxa : x = a
  · subst hxa
    rw [Function.update_self] at hx
    exact hp me c w hw hx hhand
  · rw [Function.update_of_ne hxa] at hx
    exact h x me c w hw hx hhand

omit [DecidableEq V] in
/-- A step out of any code. -/
theorem Distinct.leave {pc : A → Pc V C K M} (h : Distinct T sh pc) {p : Pc V C K M}
    (hp : ∀ me c, p ≠ .exec me c) : Distinct T sh (update pc a p) :=
  h.move fun me c _ _ hx => absurd hx (hp me c)

theorem getAndWork_distinct (h : Distinct T sh s.pc) {v : V} (hs : getAndWork s a v = some s') :
    Distinct T sh s'.pc := by
  unfold getAndWork at hs
  split at hs
  · rw [Option.ite_none_right_eq_some] at hs
    obtain ⟨-, hs⟩ := hs
    obtain rfl := Option.some.inj hs
    exact h.leave fun _ _ hx => by cases hx
  · cases hs

theorem worker_distinct [DecidableEq M] {finish : V → Pc V C K M} (h : Distinct T sh s.pc)
    (hfin : ∀ v me c, finish v = .exec me c → sh.hand c = none)
    (hs : workerRoutine sh.enter finish s a (s.pc a) = some s') : Distinct T sh s'.pc := by
  generalize s.pc a = q at hs
  match q, hs with
  | .got v, hs =>
      obtain rfl := Option.some.inj hs
      refine h.leave fun me c hx => ?_
      split at hx <;> cases hx
  | .putBack v, hs => exact Option.some.inj hs ▸ h.leave (fun _ _ hx => by cases hx)
  | .resume v, hs =>
      obtain rfl := Option.some.inj hs
      refine h.move fun me c w _ hx hhand => ?_
      obtain ⟨-, rfl⟩ := Pc.exec.inj hx
      rw [sh.hand_enter] at hhand
      cases hhand
  | .switch v r k, hs => exact Option.some.inj hs ▸ h.leave (fun _ _ hx => by cases hx)
  | .ret v (.status .finished), hs =>
      obtain rfl := Option.some.inj hs
      refine h.move fun me c w _ hx hhand => ?_
      rw [hfin v me c hx] at hhand
      cases hhand
  | .ret v (.status .blocked), hs => exact Option.some.inj hs ▸ h.leave (fun _ _ hx => by cases hx)
  | .ret v (.status .suspended), hs =>
      exact Option.some.inj hs ▸ h.leave (fun _ _ hx => by cases hx)
  | .ret v (.status .lockFail), hs =>
      exact Option.some.inj hs ▸ h.leave (fun _ _ hx => by cases hx)
  | .ret v (.mutex m), hs => exact Option.some.inj hs ▸ h.leave (fun _ _ hx => by cases hx)
  | .setRunnable v, hs => exact Option.some.inj hs ▸ h.leave (fun _ _ hx => by cases hx)
  | .readStatus v, hs =>
      obtain rfl := Option.some.inj hs
      refine h.leave fun me c hx => ?_
      split at hx <;> cases hx
  | .wakeSelf v, hs => exact Option.some.inj hs ▸ h.leave (fun _ _ hx => by cases hx)
  | .top, hs => cases hs
  | .exec _ _, hs => cases hs
  | .crashed, hs => cases hs

/-- The count of enqueues at line 162 after the worker's step at a point. -/
def Pc.countSelf (selfPuts : V → ℕ) : Pc V C K M → V → ℕ
  | wakeSelf v => update selfPuts v (selfPuts v + 1)
  | _ => selfPuts

omit [DecidableEq V] in
/-- A step between two points without a vthread in hand. -/
theorem inHand_update {pc : A → Pc V C K M} {p : Pc V C K M} (hp : ∀ w, ¬p.InHand sh w)
    (hq : ∀ w, ¬(pc a).InHand sh w) (x : A) (w : V) :
    (update pc a p x).InHand sh w ↔ (pc x).InHand sh w := by
  by_cases hxa : x = a
  · subst hxa
    rw [Function.update_self]
    exact iff_of_false (hp w) (hq w)
  · rw [Function.update_of_ne hxa]

variable (sh) in
/-- The worker takes nothing out of wait queues, and its own enqueues are those
    of line 162. -/
theorem worker_inHand [DecidableEq M] {finish : V → Pc V C K M}
    (hfin : ∀ v w, ¬(finish v).InHand sh w)
    (h : workerRoutine sh.enter finish s a (s.pc a) = some s') :
    (∀ x w, (s'.pc x).InHand sh w ↔ (s.pc x).InHand sh w)
      ∧ s'.selfPuts = (s.pc a).countSelf s.selfPuts := by
  have hstay : ∀ p : Pc V C K M, (∀ w, ¬p.InHand sh w) → (∀ w, ¬(s.pc a).InHand sh w) →
      ∀ x w, (update s.pc a p x).InHand sh w ↔ (s.pc x).InHand sh w :=
    fun p hp hq => inHand_update hp hq
  cases hpc : s.pc a with
  | got v =>
      rw [hpc] at h hstay
      obtain rfl := Option.some.inj h
      refine ⟨hstay _ (fun w => ?_) (fun _ => id), rfl⟩
      split <;> exact id
  | resume v =>
      rw [hpc] at h hstay
      obtain rfl := Option.some.inj h
      refine ⟨hstay _ (fun w hw => ?_) (fun _ => id), rfl⟩
      have hn : sh.hand (sh.enter (s.ctx v)) = some w := hw
      rw [sh.hand_enter] at hn
      cases hn
  | readStatus v =>
      rw [hpc] at h hstay
      obtain rfl := Option.some.inj h
      refine ⟨hstay _ (fun w => ?_) (fun _ => id), rfl⟩
      split <;> exact id
  | ret v r =>
      rw [hpc] at h hstay
      match r, h with
      | .status .finished, h => exact Option.some.inj h ▸ ⟨hstay _ (hfin v) (fun _ => id), rfl⟩
      | .status .blocked, h | .status .suspended, h | .status .lockFail, h | .mutex m, h =>
          exact Option.some.inj h ▸ ⟨hstay _ (fun _ => id) (fun _ => id), rfl⟩
  | putBack v | switch v r k | setRunnable v | wakeSelf v =>
      rw [hpc] at h hstay
      exact Option.some.inj h ▸ ⟨hstay _ (fun _ => id) (fun _ => id), rfl⟩
  | top | exec me c | crashed => simp [hpc, workerRoutine] at h

variable (sh) in
theorem getAndWork_inHand {v : V} (h : getAndWork s a v = some s') :
    (∀ x w, (s'.pc x).InHand sh w ↔ (s.pc x).InHand sh w) ∧ s'.selfPuts = s.selfPuts := by
  unfold getAndWork at h
  split at h
  · next hpc =>
      rw [Option.ite_none_right_eq_some] at h
      obtain ⟨-, h⟩ := h
      obtain rfl := Option.some.inj h
      refine ⟨inHand_update (fun _ => id) fun w => ?_, rfl⟩
      rw [hpc]
      exact id
  · cases h

/-- How a worker moves, its releases of mutexes aside. -/
inductive WorkerMove (enter : K → C) (finish : V → Pc V C K M) :
    Pc V C K M → Pc V C K M → Prop
  | switchOut (v r k) : WorkerMove enter finish (.switch v r k) (.ret v r)
  | resume (v k) : WorkerMove enter finish (.resume v) (.exec (some v) (enter k))
  | settle (v) : WorkerMove enter finish (.setRunnable v) (.readStatus v)
  | own (v) : WorkerMove enter finish (.readStatus v) (.wakeSelf v)
  | finish (v) : WorkerMove enter finish (.ret v (.status .finished)) (finish v)
  | plain {p p'} (hexec : ∀ me c, p ≠ .exec me c) (hswitch : ∀ v r k, p ≠ .switch v r k)
      (hret : ∀ v m, p ≠ .ret v (.mutex m)) (hfin : ∀ v, p ≠ .ret v (.status .finished))
      (hp' : p' = .top ∨ (∃ v, p' = .putBack v) ∨ ∃ v, p' = .resume v) :
      WorkerMove enter finish p p'

omit [DecidableEq V] [DecidableEq A] in
theorem WorkerMove.ne_mutex {enter : K → C} {finish : V → Pc V C K M} {p p' : Pc V C K M}
    (h : WorkerMove enter finish p p') (v : V) (m : M) : p ≠ .ret v (.mutex m) := by
  cases h with
  | plain _ _ hret _ _ => exact hret v m
  | _ => simp

/-- **A worker's step** releases a mutex, or moves and touches no mutex. -/
theorem worker_cases [DecidableEq M] {enter : K → C} {finish : V → Pc V C K M}
    (h : workerRoutine enter finish s a (s.pc a) = some s') :
    (∃ v m, s.pc a = .ret v (.mutex m) ∧ s' = { s with
        c := update s.c m false
        releases := update s.releases v (s.releases v + 1)
        pc := update s.pc a (.setRunnable v) })
      ∨ ∃ q run k n p', WorkerMove enter finish (s.pc a) p' ∧ s' = { s with
        vsQueue := q
        runnable := run
        ctx := k
        selfPuts := n
        pc := update s.pc a p' } := by
  cases hpc : s.pc a with
  | got v =>
      rw [hpc] at h
      obtain rfl := Option.some.inj h
      refine .inr ⟨_, _, _, _, _, .plain (by simp) (by simp) (by simp) (by simp) ?_, rfl⟩
      by_cases hr : s.runnable v = true
      · exact .inr (.inr ⟨v, if_pos hr⟩)
      · exact .inr (.inl ⟨v, if_neg hr⟩)
  | putBack v | wakeSelf v =>
      rw [hpc] at h
      obtain rfl := Option.some.inj h
      exact .inr ⟨_, _, _, _, _, .plain (by simp) (by simp) (by simp) (by simp) (.inl rfl), rfl⟩
  | resume v =>
      rw [hpc] at h
      obtain rfl := Option.some.inj h
      exact .inr ⟨_, _, _, _, _, .resume v _, rfl⟩
  | switch v r k =>
      rw [hpc] at h
      obtain rfl := Option.some.inj h
      exact .inr ⟨_, _, _, _, _, .switchOut v r k, rfl⟩
  | ret v r =>
      rw [hpc] at h
      match r, h with
      | .status .finished, h =>
          obtain rfl := Option.some.inj h
          exact .inr ⟨_, _, _, _, _, .finish v, rfl⟩
      | .status .blocked, h | .status .suspended, h | .status .lockFail, h =>
          obtain rfl := Option.some.inj h
          exact .inr ⟨_, _, _, _, _, .plain (by simp) (by simp) (by simp) (by simp) (.inl rfl), rfl⟩
      | .mutex m, h =>
          obtain rfl := Option.some.inj h
          exact .inl ⟨v, m, rfl, rfl⟩
  | setRunnable v =>
      rw [hpc] at h
      obtain rfl := Option.some.inj h
      exact .inr ⟨_, _, _, _, _, .settle v, rfl⟩
  | readStatus v =>
      rw [hpc] at h
      obtain rfl := Option.some.inj h
      by_cases hst : s.curStatus v = .suspended
      · rw [if_pos hst]
        exact .inr ⟨_, _, _, _, _, .own v, rfl⟩
      · rw [if_neg hst]
        exact .inr ⟨_, _, _, _, _, .plain (by simp) (by simp) (by simp) (by simp) (.inl rfl), rfl⟩
  | top | exec me c | crashed => simp [hpc, workerRoutine] at h

/-- A dequeue changes only the queue and the worker's point. -/
theorem getAndWork_cases {v : V} (h : getAndWork s a v = some s') :
    s.pc a = .top ∧ v ∈ s.vsQueue ∧ s' = { s with
      vsQueue := s.vsQueue.erase v
      pc := update s.pc a (.got v) } := by
  unfold getAndWork at h
  split at h
  · next hpc =>
      rw [Option.ite_none_right_eq_some] at h
      exact ⟨hpc, h.1, (Option.some.inj h.2).symm⟩
  · cases h

end Steps

/-! ## §4. Handing vthreads over through wait queues. -/

/-- Every tracked vthread is in one place at a time, nobody runs one that is
    being left, and an agent does not wake the vthread it runs. -/
structure HandOff (T : V → Prop) (sh : Shape V C K) (pc : A → Pc V C K M) (vsQueue : List V)
    (runnable : V → Bool) (waiting : B → List V) : Prop where
  custody : Custody T (Pc.Holds sh) pc (bags vsQueue waiting) fun _ => False
  handshake : Handshake T (Pc.Leaving sh) (Pc.Active sh) pc runnable
  distinct : Distinct T sh pc

namespace HandOff

variable {T : V → Prop} {sh : Shape V C K} {pc : A → Pc V C K M} {vsQueue : List V}
  {runnable : V → Bool} {waiting : B → List V} {a : A} {me : Option V} {c c' : C} {v w : V}

omit [DecidableEq A] [DecidableEq V] in
/-- Whoever is active on a vthread has it in hand. -/
theorem holds_of_active {p : Pc V C K M} (h : p.Active sh v) : p.Holds sh v := by
  cases p with
  | exec me c => exact .inl h.1
  | resume _ | switch _ _ _ => exact h
  | _ => exact h.elim

omit [DecidableEq A] in
/-- Nobody in the middle of anything, all vthreads in `vs_queue` or nowhere. -/
theorem start (hpc : ∀ a, pc a = .top ∨ ∃ c, pc a = .exec none c ∧ sh.hand c = none)
    (hq : vsQueue.Nodup) (hw : ∀ b, waiting b = []) :
    HandOff T sh pc vsQueue runnable waiting := by
  have hnone : ∀ a w, ¬(pc a).Holds sh w ∧ ¬(pc a).Leaving sh w ∧ ¬(pc a).Active sh w := by
    intro a w
    rcases hpc a with h | ⟨c, h, hc⟩
    · rw [h]
      exact ⟨id, id, id⟩
    · rw [h]
      exact ⟨fun hh => by simp [Pc.Holds, hc] at hh, fun hh => by simp [Pc.Leaving] at hh,
        fun hh => by simp [Pc.Active] at hh⟩
  refine ⟨⟨fun _ => .bag none, ?_, ?_, ?_, fun _ _ hg => hg.elim⟩,
    ⟨fun _ => none, ?_, ?_, ?_⟩, ?_⟩
  · intro v b _ hv
    cases b with
    | none => rfl
    | some b =>
        rw [bags, hw] at hv
        cases hv
  · intro v b _
    cases b with
    | none => exact List.nodup_iff_count_le_one.mp hq v
    | some b => simp [bags, hw]
  · exact fun v a _ hh => absurd hh (hnone a v).1
  · exact fun v a _ hh => absurd hh (hnone a v).2.1
  · exact fun v _ hne => absurd rfl hne
  · exact fun v a _ hh => rfl
  · intro a me c w _ hx hh
    rcases hpc a with h | ⟨c', h, hc⟩
    · rw [h] at hx
      cases hx
    · rw [h] at hx
      obtain ⟨-, rfl⟩ := Pc.exec.inj hx
      rw [hc] at hh
      cases hh

/-- Within the code of `me`. -/
theorem next (h : HandOff T sh pc vsQueue runnable waiting) (hpc : pc a = .exec me c)
    (hhand : sh.hand c' = none ∨ sh.hand c' = sh.hand c) (harm : sh.armed c' = sh.armed c) :
    HandOff T sh (update pc a (.exec me c')) vsQueue runnable waiting := by
  have hhand' : ∀ w, sh.hand c' = some w → sh.hand c = some w := by
    intro w hw
    rcases hhand with hn | he
    · rw [hn] at hw
      cases hw
    · rw [← he, hw]
  refine ⟨h.custody.stay (fun w _ hw => ?_) rfl, h.handshake.stay (fun w _ hw => ?_)
    (fun w _ hw => ?_) rfl, h.distinct.move fun me' x w hT hx hw => ?_⟩
  · rw [hpc]
    exact hw.imp id (hhand' w)
  · rw [hpc]
    exact ⟨hw.1, harm ▸ hw.2⟩
  · rw [hpc]
    exact ⟨hw.1, harm ▸ hw.2⟩
  · obtain ⟨rfl, rfl⟩ := Pc.exec.inj hx
    exact h.distinct a me c w hT hpc (hhand' w hw)

/-- `me` yields and stays in its worker's hands; a raw thread crashes. -/
theorem yield {r : Ret M} {k : K} (h : HandOff T sh pc vsQueue runnable waiting)
    (hpc : pc a = .exec me c) (harm : sh.armed c = false) (hr : r.keeps = true) :
    HandOff T sh (update pc a (yieldMyself me r k)) vsQueue runnable waiting := by
  cases me with
  | none =>
      exact ⟨h.custody.stay (fun w _ hw => hw.elim) rfl,
        h.handshake.stay (fun w _ hw => hw.elim) (fun w _ hw => hw.elim) rfl,
        h.distinct.leave fun _ _ hx => by cases hx⟩
  | some v =>
      refine ⟨h.custody.stay (fun w _ hw => ?_) rfl, h.handshake.stay (fun w _ hw => ?_)
        (fun w _ hw => ?_) rfl, h.distinct.leave fun _ _ hx => by cases hx⟩
      · rw [hpc]
        exact .inl (congrArg some hw.1.symm)
      · obtain ⟨-, hk⟩ := hw
        rw [hr] at hk
        cases hk
      · rw [hpc]
        exact ⟨congrArg some hw.1.symm, harm⟩

/-- A null pointer ends the agent. -/
theorem crash (h : HandOff T sh pc vsQueue runnable waiting) :
    HandOff T sh (update pc a .crashed) vsQueue runnable waiting :=
  ⟨h.custody.stay (fun _ _ hw => hw.elim) rfl,
    h.handshake.stay (fun _ _ hw => hw.elim) (fun _ _ hw => hw.elim) rfl,
    h.distinct.leave fun _ _ hx => by cases hx⟩

/-- A vthread marks itself not runnable. -/
theorem arm (h : HandOff T sh pc vsQueue runnable waiting) (hpc : pc a = .exec (some v) c)
    (harm : sh.armed c = false) (hhand : sh.hand c' = none) (harm' : sh.armed c' = true) :
    HandOff T sh (update pc a (.exec (some v) c')) vsQueue (update runnable v false) waiting := by
  have hact : (pc a).Active sh v := hpc ▸ ⟨rfl, harm⟩
  refine ⟨h.custody.stay (fun w _ hw => ?_) rfl, h.handshake.arm (fun _ => hact)
    (fun hT x hx => ?_) (fun w _ hw => ?_) (fun w _ hw => ?_) rfl,
    h.distinct.move fun me' x w hT hx hw => ?_⟩
  · rw [hpc]
    refine hw.imp id fun hn => ?_
    rw [hhand] at hn
    cases hn
  · exact h.custody.holder_unique hT (holds_of_active hx) (holds_of_active hact)
  · exact .inl (Option.some.inj hw.1).symm
  · obtain ⟨-, hn⟩ := hw
    rw [harm'] at hn
    cases hn
  · obtain ⟨-, rfl⟩ := Pc.exec.inj hx
    rw [hhand] at hw
    cases hw

omit [DecidableEq A] in
/-- Only one agent is leaving a vthread or active on it. -/
theorem side_unique (h : HandOff T sh pc vsQueue runnable waiting) {a a' : A} (hT : T v)
    (ha : (pc a).Leaving sh v ∨ (pc a).Active sh v)
    (ha' : (pc a').Leaving sh v ∨ (pc a').Active sh v) : a = a' := by
  rcases ha with hl | hl <;> rcases ha' with hl' | hl'
  · exact h.handshake.leaver_unique hT hl hl'
  · exact absurd hl' (h.handshake.not_active_of_leaving hT hl)
  · exact absurd hl (h.handshake.not_active_of_leaving hT hl')
  · exact h.custody.holder_unique hT (holds_of_active hl) (holds_of_active hl')

omit [DecidableEq A] [DecidableEq V] in
/-- Who runs a vthread is either leaving it or active on it. -/
theorem side_of_runs {p : Pc V C K M} (hp : p.Runs v) : p.Leaving sh v ∨ p.Active sh v := by
  cases p with
  | exec me c =>
      cases harm : sh.armed c with
      | true => exact .inl ⟨hp, harm⟩
      | false => exact .inr ⟨hp, harm⟩
  | switch w r k =>
      cases hr : r.keeps with
      | true => exact .inr ⟨hp, hr⟩
      | false => exact .inl ⟨hp, hr⟩
  | _ => exact hp.elim

omit [DecidableEq A] in
/-- **No two workers run one vthread.** -/
theorem runs_unique (h : HandOff T sh pc vsQueue runnable waiting) {a a' : A} (hT : T v)
    (ha : (pc a).Runs v) (ha' : (pc a').Runs v) : a = a' :=
  h.side_unique hT (side_of_runs ha) (side_of_runs ha')

variable [DecidableEq B]

/-- A vthread that is not runnable enters wait queue `b` and switches out. -/
theorem push {b : B} {r : Ret M} {k : K} (h : HandOff T sh pc vsQueue runnable waiting)
    (hpc : pc a = .exec (some v) c) (harm : sh.armed c = true) (hr : r.keeps = false) :
    HandOff T sh (update pc a (.switch v r k)) vsQueue runnable
      (update waiting b (waiting b ++ [v])) := by
  refine ⟨h.custody.put (v := v) (b := some b) (fun _ => ?_) (fun w _ hw => ?_) ?_ fun x hx => ?_,
    h.handshake.stay (fun w _ hw => ?_) (fun w _ hw => ?_) rfl,
    h.distinct.leave fun _ _ hx => by cases hx⟩
  · rw [hpc]
    exact .inl rfl
  · obtain ⟨-, hk⟩ := hw
    rw [hr] at hk
    cases hk
  · show (update waiting b (waiting b ++ [v]) b).Perm _
    rw [Function.update_self]
    exact List.perm_append_singleton _ _
  · cases x with
    | none => rfl
    | some x => exact Function.update_of_ne (fun he => hx (congrArg some he)) _ _
  · rw [hpc]
    exact ⟨congrArg some hw.1.symm, harm⟩
  · obtain ⟨-, hk⟩ := hw
    rw [hr] at hk
    cases hk

/-- The agent takes `w` out of wait queue `b`. -/
theorem pop {b : B} (h : HandOff T sh pc vsQueue runnable waiting) (hpc : pc a = .exec me c)
    (hw : w ∈ waiting b) (hhand : sh.hand c' = some w) (harm : sh.armed c' = sh.armed c) :
    HandOff T sh (update pc a (.exec me c')) vsQueue runnable
      (update waiting b ((waiting b).erase w)) := by
  have hin : w ∈ bags vsQueue waiting (some b) := hw
  refine ⟨h.custody.take (v := w) (b := some b) (fun x _ hx => ?_) ?_ fun x hx => ?_,
    h.handshake.stay (fun x _ hx => ?_) (fun x _ hx => ?_) rfl,
    h.distinct.move fun me' c'' x hT hx hh hme => ?_⟩
  · rw [hpc]
    rcases hx with hx | hx
    · exact .inr (.inl hx)
    · rw [hhand] at hx
      exact .inl (Option.some.inj hx).symm
  · show (waiting b).Perm (w :: update waiting b ((waiting b).erase w) b)
    rw [Function.update_self]
    exact List.perm_cons_erase hw
  · cases x with
    | none => rfl
    | some x => exact Function.update_of_ne (fun he => hx (congrArg some he)) _ _
  · rw [hpc]
    exact ⟨hx.1, harm ▸ hx.2⟩
  · rw [hpc]
    exact ⟨hx.1, harm ▸ hx.2⟩
  · obtain ⟨rfl, rfl⟩ := Pc.exec.inj hx
    rw [hhand] at hh
    obtain rfl := Option.some.inj hh
    exact h.custody.not_mem_of_holds (a := a) hT (hpc ▸ .inl hme) hin

omit [DecidableEq B]

/-- The agent puts the vthread in its hand into `vs_queue`. -/
theorem wake (h : HandOff T sh pc vsQueue runnable waiting) (hpc : pc a = .exec me c)
    (hw : sh.hand c = some w) (hhand : sh.hand c' = none) (harm : sh.armed c' = sh.armed c) :
    HandOff T sh (update pc a (.exec me c')) (vsQueue ++ [w]) runnable waiting := by
  refine ⟨h.custody.put (v := w) (b := none) (fun _ => ?_) (fun x hT hx => ?_)
      (List.perm_append_singleton _ _) fun x hx => ?_,
    h.handshake.stay (fun x _ hx => ?_) (fun x _ hx => ?_) rfl,
    h.distinct.move fun _ _ _ _ hx hh => ?_⟩
  · rw [hpc]
    exact .inr hw
  · have hme : me = some x := hx.resolve_right fun hn => by simp [hhand] at hn
    refine ⟨?_, hpc ▸ .inl hme⟩
    rintro rfl
    exact h.distinct a me c x hT hpc hw hme
  · cases x with
    | none => exact absurd rfl hx
    | some b => rfl
  · rw [hpc]
    exact ⟨hx.1, harm ▸ hx.2⟩
  · rw [hpc]
    exact ⟨hx.1, harm ▸ hx.2⟩
  · obtain ⟨-, rfl⟩ := Pc.exec.inj hx
    rw [hhand] at hh
    cases hh

/-- A dequeue by a worker. -/
theorem getAndWork {s s' : Sched A V C K M} (h : HandOff T sh s.pc s.vsQueue s.runnable waiting)
    (hs : HThread.getAndWork s a v = some s') :
    HandOff T sh s'.pc s'.vsQueue s'.runnable waiting :=
  ⟨getAndWork_custody h.custody hs, getAndWork_handshake h.handshake hs,
    getAndWork_distinct h.distinct hs⟩

/-- A step of a worker whose vthreads do not finish. -/
theorem worker [DecidableEq M] {s s' : Sched A V C K M}
    (h : HandOff T sh s.pc s.vsQueue s.runnable waiting)
    (hwake : ∀ v, s.pc a = .wakeSelf v → ¬T v)
    (hs : workerRoutine sh.enter (fun _ => .top) s a (s.pc a) = some s') :
    HandOff T sh s'.pc s'.vsQueue s'.runnable waiting :=
  ⟨worker_custody h.custody (fun _ w (hw : Pc.Holds sh .top w) => hw.elim) hwake hs,
    worker_handshake h.handshake (fun _ w (hw : Pc.Leaving sh .top w) => hw.elim)
      (fun _ w (hw : Pc.Active sh .top w) => hw.elim) hs,
    worker_distinct h.distinct (fun _ _ _ hx => by cases hx) hs⟩

end HandOff

/-! ## §5. Every pop answered by one enqueue. -/

/-- Some agent has taken `v` out of a wait queue and not yet enqueued it. -/
def Popped (sh : Shape V C K) (pc : A → Pc V C K M) (v : V) : Prop := ∃ a, (pc a).InHand sh v

/-- The pops of `v` are the enqueues that answer them; one may still be to come. -/
def Settled (sh : Shape V C K) (pc : A → Pc V C K M) (pops puts : V → ℕ) (v : V) : Prop :=
  (¬Popped sh pc v ∧ pops v = puts v) ∨ (Popped sh pc v ∧ pops v = puts v + 1)

section Settling

variable {T gone : V → Prop} {sh : Shape V C K} {pc : A → Pc V C K M} {bag : Option B → List V}
  {pops puts pops' puts' : V → ℕ} {a : A} {me : Option V} {c c' : C} {v w : V} {p : Pc V C K M}

omit [DecidableEq A] [DecidableEq V] in
theorem Settled.of_iff {pc' : A → Pc V C K M} (h : Settled sh pc pops puts v)
    (hpc : ∀ x, (pc' x).InHand sh v ↔ (pc x).InHand sh v) (hpops : pops' v = pops v)
    (hputs : puts' v = puts v) : Settled sh pc' pops' puts' v := by
  have hiff : Popped sh pc' v ↔ Popped sh pc v := exists_congr hpc
  unfold Settled
  rw [hiff, hpops, hputs]
  exact h

omit [DecidableEq V] in
/-- The agent keeps what it has in hand. -/
theorem Settled.stay (h : Settled sh pc pops puts v)
    (hp : p.InHand sh v ↔ (pc a).InHand sh v) : Settled sh (update pc a p) pops puts v := by
  refine h.of_iff (fun x => ?_) rfl rfl
  by_cases hxa : x = a
  · subst hxa
    rw [Function.update_self]
    exact hp
  · rw [Function.update_of_ne hxa]

omit [DecidableEq A] [DecidableEq V] in
theorem holds_of_inHand (h : p.InHand sh v) : p.Holds sh v := by
  cases p with
  | exec me c => exact .inr h
  | _ => exact h.elim

/-- The agent takes `w` out of a bag. -/
theorem Settled.pop {b : Option B} (hc : Custody T (Pc.Holds sh) pc bag gone) (hT : T w)
    (h : Settled sh pc pops puts v) (hpc : pc a = .exec me c) (hnone : sh.hand c = none)
    (hw : w ∈ bag b) (hhand : sh.hand c' = some w) :
    Settled sh (update pc a (.exec me c')) (update pops w (pops w + 1)) puts v := by
  by_cases hvw : v = w
  · subst hvw
    -- what is in a bag is in nobody's hand
    have hno : ¬Popped sh pc v := by
      rintro ⟨x, hx⟩
      exact hc.not_mem_of_holds hT (holds_of_inHand hx) hw
    have hyes : Popped sh (update pc a (.exec me c')) v := by
      refine ⟨a, ?_⟩
      rw [Function.update_self]
      exact hhand
    rcases h with ⟨-, hcount⟩ | ⟨hpop, -⟩
    · refine .inr ⟨hyes, ?_⟩
      rw [Function.update_self, hcount]
    · exact absurd hpop hno
  · refine (h.stay ?_).of_iff (fun _ => Iff.rfl) (Function.update_of_ne hvw _ _) rfl
    rw [hpc]
    show sh.hand c' = some v ↔ sh.hand c = some v
    rw [hhand, hnone]
    exact iff_of_false (fun he => hvw (Option.some.inj he).symm) (fun he => by cases he)

/-- The agent enqueues the vthread in its hand. -/
theorem Settled.give (hc : Custody T (Pc.Holds sh) pc bag gone) (hT : T w)
    (h : Settled sh pc pops puts v) (hpc : pc a = .exec me c) (hhand : sh.hand c = some w)
    (hnone : ∀ x, ¬p.InHand sh x) :
    Settled sh (update pc a p) pops (update puts w (puts w + 1)) v := by
  have hin : (pc a).InHand sh w := hpc ▸ hhand
  by_cases hvw : v = w
  · subst hvw
    -- nobody else has it in hand
    have hno : ¬Popped sh (update pc a p) v := by
      rintro ⟨x, hx⟩
      by_cases hxa : x = a
      · subst hxa
        rw [Function.update_self] at hx
        exact hnone v hx
      · rw [Function.update_of_ne hxa] at hx
        exact hxa (hc.holder_unique hT (holds_of_inHand hx) (holds_of_inHand hin))
    rcases h with ⟨hnot, -⟩ | ⟨-, hcount⟩
    · exact absurd ⟨a, hin⟩ hnot
    · refine .inl ⟨hno, ?_⟩
      rw [Function.update_self, hcount]
  · refine (h.stay ?_).of_iff (fun _ => Iff.rfl) rfl (Function.update_of_ne hvw _ _)
    refine iff_of_false (hnone v) fun hv => hvw ?_
    rw [hpc] at hv
    have he : sh.hand c = some v := hv
    rw [hhand] at he
    exact (Option.some.inj he).symm

omit [DecidableEq A] in
/-- An enqueue that answers no pop is noticed at once. -/
theorem Settled.not_extra {pc' : A → Pc V C K M} (h : Settled sh pc pops puts v)
    (hpc : ∀ x, (pc' x).InHand sh v ↔ (pc x).InHand sh v) :
    ¬Settled sh pc' pops (update puts v (puts v + 1)) v := by
  have hiff : Popped sh pc' v ↔ Popped sh pc v := exists_congr hpc
  unfold Settled
  rw [hiff, Function.update_self]
  rcases h with ⟨hno, hcount⟩ | ⟨hyes, hcount⟩
  · rintro (⟨-, h'⟩ | ⟨hyes, -⟩)
    · omega
    · exact hno hyes
  · rintro (⟨hno, -⟩ | ⟨-, h'⟩)
    · exact hno hyes
    · omega

end Settling

/-! ## §6. Where a vthread is in its code. -/

/-- `here v` is the point of `v`'s code that is next: where an agent executes it,
    where it is to be resumed once it has switched out, where its context is. -/
structure Tracked (sh : Shape V C K) (pc : A → Pc V C K M) (ctx : V → K) (here : V → C) :
    Prop where
  exec : ∀ a v c, pc a = .exec (some v) c → here v = c
  switch : ∀ a v r k, pc a = .switch v r k → here v = sh.enter k
  rest : ∀ v, (∀ a, ¬(pc a).Runs v) → here v = sh.enter (ctx v)

namespace Tracked

variable {sh : Shape V C K} {pc : A → Pc V C K M} {ctx : V → K} {here : V → C} {a : A} {v : V}
  {c c' : C}

/-- The agent goes on running `v`: the vthreads that nobody runs are where they were. -/
theorem rest_update {p : Pc V C K M} {w : V} (h : Tracked sh pc ctx here)
    (hpc : pc a = .exec (some v) c) (hw : ∀ b, ¬(update pc a p b).Runs w) (hp : p.Runs v) :
    update here v c' w = sh.enter (ctx w) := by
  have hwv : w ≠ v := by
    intro he
    have hno := hw a
    rw [he, Function.update_self] at hno
    exact hno hp
  rw [Function.update_of_ne hwv]
  refine h.rest w fun b hb => ?_
  by_cases hba : b = a
  · rw [hba, hpc] at hb
    exact hwv (Option.some.inj hb).symm
  · have hno := hw b
    rw [Function.update_of_ne hba] at hno
    exact hno hb

/-- A step within the code of `v`, which the agent alone runs. -/
theorem next (h : Tracked sh pc ctx here) (hpc : pc a = .exec (some v) c)
    (halone : ∀ b, (pc b).Runs v → b = a) :
    Tracked sh (update pc a (.exec (some v) c')) ctx (update here v c') := by
  refine ⟨fun b w c₀ hb => ?_, fun b w r k hb => ?_, fun w hw => ?_⟩
  · by_cases hba : b = a
    · subst hba
      rw [Function.update_self] at hb
      obtain ⟨hwv, rfl⟩ := Pc.exec.inj hb
      obtain rfl := Option.some.inj hwv
      rw [Function.update_self]
    · rw [Function.update_of_ne hba] at hb
      have hwv : w ≠ v := fun he => hba (halone b (by rw [hb, he]; rfl))
      rw [Function.update_of_ne hwv]
      exact h.exec b w c₀ hb
  · obtain ⟨hba, hb⟩ := eq_of_update (by simp) hb
    have hwv : w ≠ v := fun he => hba (halone b (by rw [hb, he]; rfl))
    rw [Function.update_of_ne hwv]
    exact h.switch b w r k hb
  · exact h.rest_update hpc hw rfl

/-- `v` switches out, to be resumed at `k`. -/
theorem leave {r : Ret M} {k : K} (h : Tracked sh pc ctx here) (hpc : pc a = .exec (some v) c)
    (halone : ∀ b, (pc b).Runs v → b = a) :
    Tracked sh (update pc a (.switch v r k)) ctx (update here v (sh.enter k)) := by
  refine ⟨fun b w c₀ hb => ?_, fun b w r' k' hb => ?_, fun w hw => ?_⟩
  · obtain ⟨hba, hb⟩ := eq_of_update (by simp) hb
    have hwv : w ≠ v := fun he => hba (halone b (by rw [hb, he]; rfl))
    rw [Function.update_of_ne hwv]
    exact h.exec b w c₀ hb
  · by_cases hba : b = a
    · subst hba
      rw [Function.update_self] at hb
      obtain ⟨rfl, -, rfl⟩ := Pc.switch.inj hb
      rw [Function.update_self]
    · rw [Function.update_of_ne hba] at hb
      have hwv : w ≠ v := fun he => hba (halone b (by rw [hb, he]; rfl))
      rw [Function.update_of_ne hwv]
      exact h.switch b w r' k' hb
  · exact h.rest_update hpc hw rfl

omit [DecidableEq V] in
/-- An agent outside the code moves on, neither into it nor out of it. -/
theorem idle {p : Pc V C K M} (h : Tracked sh pc ctx here) (hold : ∀ w, ¬(pc a).Runs w)
    (hnew : ∀ w, ¬p.Runs w) : Tracked sh (update pc a p) ctx here := by
  have hother : ∀ b w, (update pc a p b).Runs w → b ≠ a := by
    rintro b w hb rfl
    rw [Function.update_self] at hb
    exact hnew w hb
  refine ⟨fun b w c₀ hb => ?_, fun b w r k hb => ?_, fun w hw => h.rest w fun b hb => ?_⟩
  · have hba := hother b w (by rw [hb]; rfl)
    rw [Function.update_of_ne hba] at hb
    exact h.exec b w c₀ hb
  · have hba := hother b w (by rw [hb]; rfl)
    rw [Function.update_of_ne hba] at hb
    exact h.switch b w r k hb
  · have hba : b ≠ a := by
      rintro rfl
      exact hold w hb
    exact hw b (by rw [Function.update_of_ne hba]; exact hb)

theorem getAndWork {s s' : Sched A V C K M} (h : Tracked sh s.pc s.ctx here)
    (hs : HThread.getAndWork s a v = some s') : Tracked sh s'.pc s'.ctx here := by
  obtain ⟨hpc, -, rfl⟩ := getAndWork_cases hs
  exact h.idle (fun w => hpc ▸ id) fun _ => id

/-- **A worker's step** leaves every vthread where it is in its code. -/
theorem worker [DecidableEq M] {s s' : Sched A V C K M} (h : Tracked sh s.pc s.ctx here)
    (hresume : ∀ w, s.pc a = .resume w → ∀ b, ¬(s.pc b).Runs w)
    (hs : workerRoutine sh.enter (fun _ => .top) s a (s.pc a) = some s') :
    Tracked sh s'.pc s'.ctx here := by
  cases hpc : s.pc a with
  | got w =>
      rw [hpc] at hs
      obtain rfl := Option.some.inj hs
      refine h.idle (fun x => hpc ▸ id) fun x => ?_
      split <;> exact id
  | putBack w | setRunnable w | wakeSelf w =>
      rw [hpc] at hs
      obtain rfl := Option.some.inj hs
      exact h.idle (fun x => hpc ▸ id) fun _ => id
  | readStatus w =>
      rw [hpc] at hs
      obtain rfl := Option.some.inj hs
      refine h.idle (fun x => hpc ▸ id) fun x => ?_
      split <;> exact id
  | ret w r =>
      rw [hpc] at hs
      match r, hs with
      | .status .finished, hs | .status .blocked, hs | .status .suspended, hs
      | .status .lockFail, hs | .mutex m, hs =>
          obtain rfl := Option.some.inj hs
          exact h.idle (fun x => hpc ▸ id) fun _ => id
  | resume w =>
      -- nobody runs `w`, so it is where its context is
      rw [hpc] at hs
      obtain rfl := Option.some.inj hs
      have hw := h.rest w (hresume w hpc)
      refine ⟨fun b x c₀ hb => ?_, fun b x r k hb => ?_, fun x hx => h.rest x fun b hb => ?_⟩
      · have hb : update s.pc a (.exec (some w) (sh.enter (s.ctx w))) b = .exec (some x) c₀ := hb
        by_cases hba : b = a
        · subst hba
          rw [Function.update_self] at hb
          obtain ⟨hwx, rfl⟩ := Pc.exec.inj hb
          obtain rfl := Option.some.inj hwx
          exact hw
        · rw [Function.update_of_ne hba] at hb
          exact h.exec b x c₀ hb
      · have hb : update s.pc a (.exec (some w) (sh.enter (s.ctx w))) b = .switch x r k := hb
        exact h.switch b x r k (eq_of_update (by simp) hb).2
      · have hba : b ≠ a := by
          rintro rfl
          rw [hpc] at hb
          exact hb
        refine hx b ?_
        show (update s.pc a _ b).Runs x
        rw [Function.update_of_ne hba]
        exact hb
  | switch w r k =>
      -- the context of `w` is where it was to be resumed
      rw [hpc] at hs
      obtain rfl := Option.some.inj hs
      have hrun : (s.pc a).Runs w := hpc ▸ rfl
      refine ⟨fun b x c₀ hb => ?_, fun b x r' k' hb => ?_, fun x hx => ?_⟩
      · have hb : update s.pc a (.ret w r) b = .exec (some x) c₀ := hb
        exact h.exec b x c₀ (eq_of_update (by simp) hb).2
      · have hb : update s.pc a (.ret w r) b = .switch x r' k' := hb
        exact h.switch b x r' k' (eq_of_update (by simp) hb).2
      · show here x = sh.enter (update s.ctx w k x)
        by_cases hxw : x = w
        · subst hxw
          rw [Function.update_self]
          exact h.switch a x r k hpc
        · rw [Function.update_of_ne hxw]
          refine h.rest x fun b hb => ?_
          have hba : b ≠ a := by
            rintro rfl
            rw [hpc] at hb
            exact hxw hb
          refine hx b ?_
          show (update s.pc a (.ret w r) b).Runs x
          rw [Function.update_of_ne hba]
          exact hb
  | top | exec me c | crashed => simp [hpc, workerRoutine] at hs

end Tracked

end HThread
