/-
  HThread.Cond.Waking — no wake-up is lost.

  Signals and broadcasts made by the holder of the mutex.  While such a call goes
  on no mutex is released for anybody, so the waiters that the waker finds are
  those that were blocked when it called; what it pops it puts into `vs_queue`.

  Key lemmas:
    * `wakersInv_keeps`    — whoever is inside such a call has the mutex.
    * `WaitInv.others_leave` — meanwhile the others pop and release nothing.
    * `InCall.own_step`    — what the waker's own steps do.
    * `overWithin`         — a call is over after a bounded number of them.
  Main result:
    * `wait_atomic` — one queue serves all callers; the worker releases the
      mutex once for each waiter, which holds it and has been pushed; no waiter
      is resumed before; wakers that hold the mutex find in the queue just the
      waiters that have released it; a signal puts one of them into `vs_queue`
      if there is one, a broadcast all of them; a call is never stuck and ends.
-/
import HThread.Cond.Waiting

namespace HThread.Cond

open Interleave
open Function (update)

variable {A V : Type} [DecidableEq A] [DecidableEq V]

/-! ## §1. Wakers that hold the mutex. -/

/-- Signals and broadcasts are made by the holder of the mutex. -/
def WakersHold (s : CondState A V) : CondAct A V → Prop
  | .call a .condSignal | .call a .condBroadcast =>
      ∀ me p, s.pc a = .exec me p → s.holder = some (caller me a)
  | _ => True

/-- Whoever is inside a signal or a broadcast has the mutex. -/
def WakersInv (s : CondState A V) : Prop :=
  ∀ a me p, s.pc a = .exec me p → p.waking = true →
    s.holder = some (caller me a) ∧ ∀ v, me = some v → s.releases v = 0

omit [DecidableEq V] in
/-- A waker runs its own vthread. -/
theorem active_of_waking {p : CondPc V} {v : V} (hp : p.waking = true) :
    (Pc.exec (some v) p : Pc V (CondPc V) CondCont Unit).Active condShape v := by
  refine ⟨rfl, ?_⟩
  cases p with
  | waitLoad => cases hp
  | waitPush q => cases hp
  | _ => rfl

omit [DecidableEq V] in
/-- A step that touches neither the mutex nor a release. -/
theorem WakersInv.move {s s' : CondState A V} (h : WakersInv s) {a : A}
    {p' : Pc V (CondPc V) CondCont Unit} (hpc : s'.pc = update s.pc a p')
    (hsame : s'.holder = s.holder ∧ s'.releases = s.releases)
    (hp' : ∀ me p, p' = .exec me p → p.waking = true →
      s.holder = some (caller me a) ∧ ∀ v, me = some v → s.releases v = 0) : WakersInv s' := by
  intro x me p hx hp
  rw [hsame.1, hsame.2]
  rw [hpc] at hx
  by_cases hxa : x = a
  · subst hxa
    rw [Function.update_self] at hx
    exact hp' me p hx hp
  · rw [Function.update_of_ne hxa] at hx
    exact h x me p hx hp

omit [DecidableEq A] in
/-- Two agents that run one caller, which is still followed, are one. -/
theorem WaitInv.caller_unique {s : CondState A V} (h : WaitInv s) {a x : A} {me me' : Option V}
    (hcall : caller me' x = caller me a)
    (ha : ∀ v, me = some v → s.releases v = 0 ∧
      ((s.pc a).Leaving condShape v ∨ (s.pc a).Active condShape v))
    (hx : ∀ v, me' = some v → (s.pc x).Leaving condShape v ∨ (s.pc x).Active condShape v) :
    x = a := by
  cases me with
  | none =>
      cases me' with
      | none => exact Caller.raw.inj hcall
      | some v => cases hcall
  | some w =>
      cases me' with
      | none => cases hcall
      | some v =>
          obtain rfl : v = w := Caller.vthread.inj hcall
          obtain ⟨hrel, hside⟩ := ha v rfl
          exact h.handed.side_unique hrel (hx v rfl) hside

omit [DecidableEq A] in
/-- Nobody is waking when `a`, which is not, runs the caller that has the mutex. -/
theorem WakersInv.not_waking {s : CondState A V} (hw : WaitInv s) (h : WakersInv s) {a x : A}
    {me me' : Option V} {p : CondPc V} (hholder : s.holder = some (caller me' a))
    (hside : ∀ v, me' = some v →
      (s.pc a).Leaving condShape v ∨ (s.pc a).Active condShape v)
    (hnot : ∀ me p, s.pc a = .exec me p → p.waking = false) (hx : s.pc x = .exec me p) :
    p.waking = false := by
  by_contra hp
  rw [Bool.not_eq_false] at hp
  obtain ⟨hh, hrel⟩ := h x me p hx hp
  rw [hholder] at hh
  obtain rfl : a = x := hw.caller_unique (Option.some.inj hh)
    (fun v hv => ⟨hrel v hv, .inr (by rw [hx, hv]; exact active_of_waking hp)⟩) hside
  rw [hnot me p hx] at hp
  cases hp

theorem wakersInv_code {s s' : CondState A V} {a : A} {me : Option V} {p : CondPc V}
    (hw : WaitInv s) (h : WakersInv s) (hpc : s.pc a = .exec me p) (hs : CodeEffect s a me p s') :
    WakersInv s' := by
  have hstay : ∀ p', (p'.waking = true → p.waking = true) → s'.pc = update s.pc a (.exec me p') →
      s'.holder = s.holder ∧ s'.releases = s.releases → WakersInv s' := by
    intro p' hp' hpc' hsame
    refine h.move hpc' hsame fun me' p'' hx hp => ?_
    obtain ⟨rfl, rfl⟩ := Pc.exec.inj hx
    exact h a me p hpc (hp' hp)
  cases hs with
  | quiet st n q p' hq => exact hstay p' hq.waking rfl ⟨rfl, rfl⟩
  | install op hp hnone =>
      subst hp
      exact hstay op.body (by cases op <;> simp [CondPc.waking, CondOp.body]) rfl ⟨rfl, rfl⟩
  | arm v hme hp => exact hstay .waitLoad (fun hp => by cases hp) rfl ⟨rfl, rfl⟩
  | push v q hme hp => exact h.move rfl ⟨rfl, rfl⟩ fun _ _ hx => by cases hx
  | empty q p' hq hp =>
      refine hstay p' (fun hp' => ?_) rfl ⟨rfl, rfl⟩
      rcases hp with ⟨rfl, rfl⟩ | ⟨rfl, rfl⟩ <;> rfl
  | wake w p' hp =>
      refine hstay p' (fun hp' => ?_) rfl ⟨rfl, rfl⟩
      rcases hp with ⟨rfl, rfl⟩ | ⟨rfl, rfl⟩ <;> rfl
  | acquire k hp hc =>
      -- the mutex was free, so nobody was waking
      intro x me' p' hx hp'
      have hx' : update s.pc a (.exec me (.cont .user)) x = .exec me' p' := hx
      rcases exec_update hx' with hx' | hx'
      · obtain ⟨-, rfl⟩ := Pc.exec.inj hx'
        cases hp'
      · have hl := hw.locked (by rw [(h x me' p' hx' hp').1]; exact Option.some_ne_none _)
        rw [hc] at hl
        cases hl
  | yield k k' hp =>
      refine h.move rfl ⟨rfl, rfl⟩ fun _ _ hx => ?_
      cases me <;> cases hx
  | crash hp hhand => exact h.move rfl ⟨rfl, rfl⟩ fun _ _ hx => by cases hx

theorem wakersInv_step {s s' : CondState A V} {act : CondAct A V} (hw : WaitInv s)
    (h : WakersInv s) (hok : Disciplined s act) (hhold : WakersHold s act)
    (hs : StepEffect s act s') : WakersInv s' := by
  cases hs with
  | call a me f hpc =>
      cases f with
      | condWait | mutexLock =>
          refine h.move rfl ⟨rfl, rfl⟩ fun _ _ hx hp => ?_
          obtain ⟨-, rfl⟩ := Pc.exec.inj hx
          cases hp
      | condSignal | condBroadcast =>
          refine h.move rfl ⟨rfl, rfl⟩ fun me' p hx hp => ?_
          obtain ⟨rfl, rfl⟩ := Pc.exec.inj hx
          exact ⟨hhold me _ hpc, fun v hv => hok.followed v _ (hv ▸ hpc)⟩
      | mutexUnlock =>
          intro x me' p hx hp
          have hno := h.not_waking hw (hok.unlock a me _ rfl hpc)
            (fun v hv => .inr (by rw [hpc, hv]; exact ⟨rfl, rfl⟩))
            (fun me'' p'' hx' => by
              rw [hpc] at hx'
              obtain ⟨-, rfl⟩ := Pc.exec.inj hx'
              rfl) hx
          rw [hno] at hp
          cases hp
      | schedYield =>
          refine h.move rfl ⟨rfl, rfl⟩ fun _ _ hx => ?_
          cases me <;> cases hx
  | pop a me w q p p' hpc hmem hp =>
      refine h.move rfl ⟨rfl, rfl⟩ fun me' p'' hx hp' => ?_
      obtain ⟨rfl, rfl⟩ := Pc.exec.inj hx
      refine h a me p hpc ?_
      rcases hp with ⟨rfl, rfl⟩ | ⟨rfl, rfl⟩ <;> rfl
  | dequeue a v hpc => exact h.move rfl ⟨rfl, rfl⟩ fun _ _ hx => by cases hx
  | code a me p s' hpc hcode => exact wakersInv_code hw h hpc hcode
  | release a v hpc =>
      intro x me p hx hp
      have hx' : update s.pc a (.setRunnable v) x = .exec me p := hx
      rcases exec_update hx' with hx' | hx'
      · cases hx'
      · have hwait : Waiting (s.pc a) v := hpc ▸ ⟨rfl, rfl⟩
        have hholder : s.holder = some (caller (some v) a) := (hw.owns a v hwait).holder
        have hno := h.not_waking hw hholder
          (fun w hv => by
            obtain rfl := Option.some.inj hv
            exact side_of_waiting hwait)
          (fun me'' p'' hx'' => by
            rw [hpc] at hx''
            cases hx'') hx'
        rw [hno] at hp
        cases hp
  | move a q run k n p' hmove =>
      refine h.move rfl ⟨rfl, rfl⟩ fun me p hx hp => ?_
      subst hx
      generalize s.pc a = p₀ at hmove
      cases hmove with
      | resume v k => cases hp
      | plain _ _ _ _ hp' => rcases hp' with h | ⟨v, h⟩ | ⟨v, h⟩ <;> cases h

theorem wakersInv_keeps : (condvar (A := A) (V := V)).Keeps
    (fun s act => Disciplined s act ∧ WakersHold s act) fun s => WaitInv s ∧ WakersInv s :=
  (waitInv_keeps.mono fun _ _ h => h.1).and
    (fun s hs a me p ha hp => by
      obtain ⟨raw, ready, hnd, rfl⟩ := hs
      cases hr : raw a with
      | true =>
          simp only [condInit, hr, if_true] at ha
          obtain ⟨-, rfl⟩ := Pc.exec.inj ha
          cases hp
      | false => simp [condInit, hr] at ha)
    (fun _ _ _ hw h hok hs => wakersInv_step hw h hok.1 hok.2 (condStep_effect hs))

/-! ## §2. What a call does. -/

/-- The mutex has been released for `v`, and no waker has popped it. -/
def Blocked (s : CondState A V) (v : V) : Prop := s.releases v = 1 ∧ s.pops v = 0

omit [DecidableEq A] in
/-- At its pops a waker finds the waiters that are blocked. -/
theorem WakersInv.queue {s : CondState A V} (hw : WaitInv s) (h : WakersInv s) {a : A}
    {me : Option V} {p : CondPc V} {q : ℕ} (ha : s.pc a = .exec me p)
    (hp : p = .sigPop q ∨ p = .bcPop q) (v : V) : v ∈ s.queue q ↔ Blocked s v := by
  have hptr : s.blockedVths = some q := by
    rcases hp with rfl | rfl <;> exact hw.queues.pointer a me _ q ha rfl
  have hwaking : p.waking = true := by
    rcases hp with rfl | rfl <;> rfl
  have hcount := hw.queues.count hptr v
  have hb := hw.bounds v
  rw [← List.count_pos_iff]
  constructor
  · intro hpos
    refine ⟨?_, by omega⟩
    by_contra hne
    obtain ⟨x, hx⟩ := hw.found v (by omega) (by omega)
    -- the waiter still has the mutex, so it would be the waker
    obtain ⟨hholder, -⟩ := h a me p ha hwaking
    rw [(hw.owns x v hx).holder] at hholder
    cases me with
    | none => cases hholder
    | some w =>
        obtain rfl : v = w := Caller.vthread.inj (Option.some.inj hholder)
        have hact : (s.pc a).Active condShape v := ha ▸ active_of_waking hwaking
        obtain rfl := hw.waiting_unique hx (.inr hact)
        rw [ha] at hx
        rcases hp with rfl | rfl <;> cases hx.2
  · rintro ⟨hr, hpop⟩
    omega

/-- What agent `a` puts into `vs_queue` in a step. -/
def enqueuedBy (a : A) (s : CondState A V) (act : CondAct A V) (s' : CondState A V) : List V :=
  if act.agent = a then s'.vsQueue.drop s.vsQueue.length else []

/-- From `s` to `u` the vthreads `l`, which were blocked, and no others have been popped. -/
structure Woken (s u : CondState A V) (l : List V) : Prop where
  nodup : l.Nodup
  blocked : ∀ v ∈ l, Blocked s v
  left : ∀ v, Blocked u v ↔ Blocked s v ∧ v ∉ l

/-- How far the call is at `p`, when it has enqueued `l`. -/
def CondOp.At (u : CondState A V) (l : List V) : CondOp → CondPc V → Prop
  | .signal, .readQueue .signal | .signal, .casQueue .signal | .signal, .sigLoad
  | .signal, .sigPop _ | .signal, .sigNum _ | .signal, .sigStatus _ | .signal, .sigEnqueue _ =>
      l = []
  | .signal, .cont .user => (∃ w, l = [w]) ∨ l = [] ∧ ∀ v, ¬Blocked u v
  | .broadcast, .readQueue .broadcast | .broadcast, .casQueue .broadcast | .broadcast, .bcCheck
  | .broadcast, .bcLoad | .broadcast, .bcPop _ | .broadcast, .bcNum _
  | .broadcast, .bcEnqueue _ => True
  | .broadcast, .bcStatus | .broadcast, .cont .user => ∀ v, ¬Blocked u v
  | _, _ => False

/-- Agent `a` is at `p` in the call that it began in `s`, and has enqueued `l`. -/
structure InCall (op : CondOp) (s u : CondState A V) (a : A) (me : Option V) (p : CondPc V)
    (l : List V) : Prop where
  pc : u.pc a = .exec me p
  holder : u.holder = some (caller me a)
  followed : ∀ v, me = some v → u.releases v = 0
  woken : Woken s u (l ++ (condShape.hand p).toList)
  stage : op.At u l p

section Call

variable {s u u' : CondState A V} {a : A} {me : Option V} {p p' : CondPc V} {l : List V}
  {op : CondOp}

omit [DecidableEq A] [DecidableEq V] in
theorem blocked_of_same (hr : u'.releases = u.releases) (hp : u'.pops = u.pops) (v : V) :
    Blocked u' v ↔ Blocked u v := by
  unfold Blocked
  rw [hr, hp]

omit [DecidableEq A] [DecidableEq V] in
theorem Woken.stay (h : Woken s u l) (hr : u'.releases = u.releases) (hp : u'.pops = u.pops) :
    Woken s u' l where
  nodup := h.nodup
  blocked := h.blocked
  left v := (blocked_of_same hr hp v).trans (h.left v)

omit [DecidableEq A] in
/-- A waiter that is blocked is popped. -/
theorem Woken.take (h : Woken s u l) {w : V} (hw : Blocked u w) (hr : u'.releases = u.releases)
    (hp : u'.pops = update u.pops w (u.pops w + 1)) : Woken s u' (l ++ [w]) where
  nodup := by
    have hnew := ((h.left w).mp hw).2
    rw [List.nodup_append]
    refine ⟨h.nodup, List.nodup_singleton w, fun v hv x hx => ?_⟩
    rw [List.mem_singleton.mp hx]
    rintro rfl
    exact hnew hv
  blocked v hv := by
    rcases List.mem_append.mp hv with hv | hv
    · exact h.blocked v hv
    · rw [List.mem_singleton.mp hv]
      exact ((h.left w).mp hw).1
  left v := by
    rw [List.mem_append, List.mem_singleton, not_or, ← and_assoc, ← h.left v]
    unfold Blocked
    rw [hr, hp]
    by_cases hv : v = w
    · subst hv
      rw [Function.update_self]
      refine iff_of_false (fun hb => ?_) fun hb => hb.2 rfl
      omega
    · rw [Function.update_of_ne hv]
      exact ⟨fun hb => ⟨hb, hv⟩, fun hb => hb.1⟩

omit [DecidableEq A] [DecidableEq V] in
theorem CondOp.At.stay (h : op.At u l p) (hr : u'.releases = u.releases) (hp : u'.pops = u.pops) :
    op.At u' l p := by
  have hnone : (∀ v, ¬Blocked u v) → ∀ v, ¬Blocked u' v := fun hno v hv =>
    hno v ((blocked_of_same hr hp v).mp hv)
  unfold CondOp.At at h ⊢
  split at h
  all_goals first
    | exact h
    | exact h.imp id (And.imp_right hnone)
    | exact hnone h

omit [DecidableEq V] in
/-- A step of agent `a` in its call that pops nothing. -/
theorem InCall.goto (h : InCall op s u a me p l) (hpc : u'.pc = update u.pc a (.exec me p'))
    (hholder : u'.holder = u.holder) (hr : u'.releases = u.releases) (hp : u'.pops = u.pops)
    {l' : List V} (hl : l' ++ (condShape.hand p').toList = l ++ (condShape.hand p).toList)
    (hstage : op.At u' l' p') : InCall op s u' a me p' l' where
  pc := by
    rw [hpc, Function.update_self]
  holder := hholder.trans h.holder
  followed v hv := by
    rw [hr]
    exact h.followed v hv
  woken := by
    rw [hl]
    exact h.woken.stay hr hp
  stage := hstage

omit [DecidableEq A] [DecidableEq V] in
/-- What the call has popped, when it has no waiter in hand. -/
theorem InCall.empty_hand (h : InCall op s u a me p l) (hhand : condShape.hand p = none) :
    Woken s u l := by
  have hwoken := h.woken
  rw [hhand] at hwoken
  exact (List.append_nil l).symm ▸ hwoken

omit [DecidableEq A] [DecidableEq V] in
/-- Agent `a` runs its own vthread, which is followed. -/
theorem InCall.active (h : InCall op s u a me p l) (v : V) (hv : me = some v) :
    u.releases v = 0 ∧ ((u.pc a).Leaving condShape v ∨ (u.pc a).Active condShape v) := by
  refine ⟨h.followed v hv, .inr ?_⟩
  rw [h.pc, hv]
  refine ⟨rfl, ?_⟩
  have hstage := h.stage
  cases op <;> cases p <;> first | rfl | exact hstage.elim

/-- An agent stands still while the others take their steps. -/
theorem agent_pc {act : CondAct A V} (hact : act.agent ≠ a) (hs : condStep u act = some u') :
    u'.pc a = u.pc a := by
  have hne : ∀ x, x ≠ a → ∀ q, update u.pc x q a = u.pc a := fun x hx q =>
    Function.update_of_ne hx.symm ..
  cases condStep_effect hs with
  | call x me' f hpc =>
      cases f with
      | mutexUnlock => rfl
      | _ => exact hne x hact _
  | pop x _ _ _ _ _ _ _ _ => exact hne x hact _
  | dequeue x v hpc => exact hne x hact _
  | code x me' p₁ _ hpc hcode => cases hcode <;> exact hne x hact _
  | release x v hpc => exact hne x hact _
  | move x q run k n p₁ hmove => exact hne x hact _

/-- A step that leaves the waiters of a waker as they are: at most the queue is installed. -/
structure Undisturbed (u u' : CondState A V) : Prop where
  holder : u'.holder = u.holder
  releases : u'.releases = u.releases
  pops : u'.pops = u.pops
  queue : u'.queue = u.queue
  installed : u.blockedVths ≠ none → u'.blockedVths = u.blockedVths

/-- While agent `a` runs the holder of the mutex, the others push and pop nothing and release
    the mutex for nobody. -/
theorem WaitInv.others_leave (hw : WaitInv u) (hk : WakersInv u)
    (hholder : u.holder = some (caller me a))
    (hactive : ∀ v, me = some v → u.releases v = 0 ∧
      ((u.pc a).Leaving condShape v ∨ (u.pc a).Active condShape v))
    {act : CondAct A V} (hok : Disciplined u act) (hact : act.agent ≠ a)
    (hs : condStep u act = some u') : Undisturbed u u' := by
  -- an agent that runs the holder of the mutex is `a`
  have hcaller : ∀ x me', x ≠ a → u.holder = some (caller me' x) →
      (∀ v, me' = some v → (u.pc x).Leaving condShape v ∨ (u.pc x).Active condShape v) →
      False := by
    intro x me' hx hholder' hside
    rw [hholder] at hholder'
    exact hx (hw.caller_unique (Option.some.inj hholder').symm hactive hside)
  have hwaiting : ∀ x v, x ≠ a → ¬Waiting (u.pc x) v := by
    intro x v hx hwait
    refine hcaller x (some v) hx (hw.owns x v hwait).holder fun v' hv => ?_
    obtain rfl := Option.some.inj hv
    exact side_of_waiting hwait
  cases condStep_effect hs with
  | call x me' f hpc =>
      cases f with
      | mutexUnlock =>
          refine (hcaller x me' hact (hok.unlock x me' _ rfl hpc) fun v hv => ?_).elim
          rw [hpc, hv]
          exact .inr ⟨rfl, rfl⟩
      | _ => exact ⟨rfl, rfl, rfl, rfl, fun _ => rfl⟩
  | pop x me' w q p₁ p₂ hpc hw' hp =>
      have hwaking : p₁.waking = true := by
        rcases hp with ⟨rfl, -⟩ | ⟨rfl, -⟩ <;> rfl
      refine (hcaller x me' hact (hk x me' p₁ hpc hwaking).1 fun v hv => ?_).elim
      rw [hpc, hv]
      exact .inr (active_of_waking hwaking)
  | dequeue x v hpc => exact ⟨rfl, rfl, rfl, rfl, fun _ => rfl⟩
  | code x me' p₁ _ hpc hcode =>
      cases hcode with
      | acquire k hp hc =>
          have hlocked := hw.locked (by rw [hholder]; exact Option.some_ne_none _)
          rw [hc] at hlocked
          cases hlocked
      | push v q hme hp =>
          subst hme hp
          exact absurd (hpc ▸ ⟨rfl, rfl⟩) (hwaiting x v hact)
      | install op hp hnone => exact ⟨rfl, rfl, rfl, rfl, absurd hnone⟩
      | _ => exact ⟨rfl, rfl, rfl, rfl, fun _ => rfl⟩
  | release x v hpc => exact absurd (hpc ▸ ⟨rfl, rfl⟩) (hwaiting x v hact)
  | move x q run k n p₁ hmove => exact ⟨rfl, rfl, rfl, rfl, fun _ => rfl⟩

omit [DecidableEq V] in
theorem enqueuedBy_same {act : CondAct A V} (h : u'.vsQueue = u.vsQueue) :
    enqueuedBy a u act u' = [] := by
  unfold enqueuedBy
  rw [h, List.drop_length]
  exact ite_self _

omit [DecidableEq V] in
theorem enqueuedBy_wake {act : CondAct A V} (hact : act.agent = a) {w : V}
    (h : u'.vsQueue = u.vsQueue ++ [w]) : enqueuedBy a u act u' = [w] := by
  rw [enqueuedBy, if_pos hact, h, List.drop_left]

omit [DecidableEq V] in
/-- A step of agent `a` in its call that neither pops nor enqueues. -/
theorem InCall.walk (h : InCall op s u a me p l) (p' : CondPc V) {act : CondAct A V}
    (hpc : u'.pc = update u.pc a (.exec me p')) (hholder : u'.holder = u.holder)
    (hr : u'.releases = u.releases) (hp : u'.pops = u.pops) (hq : u'.vsQueue = u.vsQueue)
    (hhand : condShape.hand p' = condShape.hand p) (hstage : op.At u' l p') :
    ∃ p', InCall op s u' a me p' (l ++ enqueuedBy a u act u') := by
  refine ⟨p', ?_⟩
  rw [enqueuedBy_same hq, List.append_nil]
  exact h.goto hpc hholder hr hp (by rw [hhand]) hstage

/-- Agent `a` pops a waiter that is blocked. -/
theorem InCall.pop (h : InCall op s u a me p l) (p' : CondPc V) {act : CondAct A V}
    (hhand : condShape.hand p = none) {w : V} (hw : Blocked u w)
    (hpc : u'.pc = update u.pc a (.exec me p')) (hholder : u'.holder = u.holder)
    (hr : u'.releases = u.releases) (hp : u'.pops = update u.pops w (u.pops w + 1))
    (hq : u'.vsQueue = u.vsQueue) (hhand' : condShape.hand p' = some w) (hstage : op.At u' l p') :
    ∃ p', InCall op s u' a me p' (l ++ enqueuedBy a u act u') := by
  refine ⟨p', ?_⟩
  rw [enqueuedBy_same hq, List.append_nil]
  refine ⟨?_, hholder.trans h.holder, fun v hv => ?_, ?_, hstage⟩
  · rw [hpc, Function.update_self]
  · rw [hr]
    exact h.followed v hv
  · rw [hhand']
    exact (h.empty_hand hhand).take hw hr hp

omit [DecidableEq V] in
/-- Agent `a` enqueues the waiter in its hand. -/
theorem InCall.wake (h : InCall op s u a me p l) (p' : CondPc V) {act : CondAct A V}
    (hact : act.agent = a) {w : V} (hhand : condShape.hand p = some w)
    (hpc : u'.pc = update u.pc a (.exec me p')) (hholder : u'.holder = u.holder)
    (hr : u'.releases = u.releases) (hp : u'.pops = u.pops)
    (hq : u'.vsQueue = u.vsQueue ++ [w]) (hhand' : condShape.hand p' = none)
    (hstage : op.At u' (l ++ [w]) p') :
    ∃ p', InCall op s u' a me p' (l ++ enqueuedBy a u act u') := by
  refine ⟨p', ?_⟩
  rw [enqueuedBy_wake hact hq]
  refine h.goto hpc hholder hr hp ?_ hstage
  rw [hhand, hhand']
  exact List.append_nil _

/-- The steps of `pthread_cond_signal`, but for its pop. -/
theorem InCall.signal_step (h : InCall .signal s u a me p l) (hw : WaitInv u) (hk : WakersInv u)
    (hs : condCode u a me p = some u') :
    ∃ p', InCall .signal s u' a me p' (l ++ enqueuedBy a u (.go a) u') := by
  have hstage := h.stage
  cases p with
  | readQueue op =>
      cases op with
      | signal =>
          obtain rfl := Option.some.inj hs
          cases hb : u.blockedVths with
          | none => exact h.walk (.casQueue .signal) rfl rfl rfl rfl rfl rfl hstage
          | some q => exact h.walk (.sigLoad) rfl rfl rfl rfl rfl rfl hstage
      | wait | broadcast => exact hstage.elim
  | casQueue op =>
      cases op with
      | signal =>
          simp only [condCode, allocQueue] at hs
          split at hs
          · obtain rfl := Option.some.inj hs
            exact h.walk (.sigLoad) rfl rfl rfl rfl rfl rfl hstage
          · obtain rfl := Option.some.inj hs
            exact h.walk (.readQueue .signal) rfl rfl rfl rfl rfl rfl hstage
      | wait | broadcast => exact hstage.elim
  | sigLoad =>
      simp only [condCode, pthreadCondSignal] at hs
      split at hs
      · next q hb =>
          obtain rfl := Option.some.inj hs
          exact h.walk (.sigPop q) rfl rfl rfl rfl rfl rfl hstage
      · next hb => exact absurd hb (hw.queues.past a me _ h.pc rfl)
  | sigPop q =>
      simp only [condCode, pthreadCondSignal, Option.ite_none_right_eq_some] at hs
      obtain ⟨hempty, hs⟩ := hs
      obtain rfl := Option.some.inj hs
      refine h.walk (.cont .user) rfl rfl rfl rfl rfl rfl (.inr ⟨hstage, fun v hv => ?_⟩)
      have hmem := (hk.queue hw h.pc (.inl rfl) v).mpr hv
      rw [hempty] at hmem
      cases hmem
  | sigNum w =>
      obtain rfl := Option.some.inj hs
      exact h.walk (.sigStatus w) rfl rfl rfl rfl rfl rfl hstage
  | sigStatus w =>
      obtain rfl := Option.some.inj hs
      exact h.walk (.sigEnqueue w) rfl rfl rfl rfl rfl rfl hstage
  | sigEnqueue w =>
      obtain rfl := Option.some.inj hs
      obtain rfl : l = [] := hstage
      exact h.wake (.cont .user) rfl rfl rfl rfl rfl rfl rfl rfl (.inl ⟨w, rfl⟩)
  | cont k =>
      cases k with
      | user => cases hs
      | woken | relock | lock => exact hstage.elim
  | _ => exact hstage.elim

/-- The steps of `pthread_cond_broadcast`, but for its pops that find somebody. -/
theorem InCall.broadcast_step (h : InCall .broadcast s u a me p l) (hw : WaitInv u)
    (hk : WakersInv u) (hs : condCode u a me p = some u') :
    u'.pc a = .crashed ∨ ∃ p', InCall .broadcast s u' a me p' (l ++ enqueuedBy a u (.go a) u') := by
  have hstage := h.stage
  cases p with
  | readQueue op =>
      cases op with
      | broadcast =>
          obtain rfl := Option.some.inj hs
          cases hb : u.blockedVths with
          | none => exact .inr (h.walk (.casQueue .broadcast) rfl rfl rfl rfl rfl rfl trivial)
          | some q => exact .inr (h.walk (.bcCheck) rfl rfl rfl rfl rfl rfl trivial)
      | wait | signal => exact hstage.elim
  | casQueue op =>
      cases op with
      | broadcast =>
          simp only [condCode, allocQueue] at hs
          split at hs
          · obtain rfl := Option.some.inj hs
            exact .inr (h.walk (.bcCheck) rfl rfl rfl rfl rfl rfl trivial)
          · obtain rfl := Option.some.inj hs
            exact .inr (h.walk (.readQueue .broadcast) rfl rfl rfl rfl rfl rfl trivial)
      | wait | signal => exact hstage.elim
  | bcCheck =>
      -- the queue is installed, so the call does not return here
      obtain ⟨q, hb⟩ := Option.ne_none_iff_exists'.mp (hw.queues.past a me _ h.pc rfl)
      simp only [condCode, pthreadCondBroadcast, hb, Option.isSome_some, if_true] at hs
      obtain rfl := Option.some.inj hs
      exact .inr (h.walk (.bcLoad) rfl rfl rfl rfl rfl rfl trivial)
  | bcLoad =>
      simp only [condCode, pthreadCondBroadcast] at hs
      split at hs
      · next q hb =>
          obtain rfl := Option.some.inj hs
          exact .inr (h.walk (.bcPop q) rfl rfl rfl rfl rfl rfl trivial)
      · next hb => exact absurd hb (hw.queues.past a me _ h.pc rfl)
  | bcPop q =>
      simp only [condCode, pthreadCondBroadcast, Option.ite_none_right_eq_some] at hs
      obtain ⟨hempty, hs⟩ := hs
      obtain rfl := Option.some.inj hs
      refine .inr (h.walk (.bcStatus) rfl rfl rfl rfl rfl rfl fun v hv => ?_)
      have hmem := (hk.queue hw h.pc (.inr rfl) v).mpr hv
      rw [hempty] at hmem
      cases hmem
  | bcNum w =>
      obtain rfl := Option.some.inj hs
      exact .inr (h.walk (.bcEnqueue w) rfl rfl rfl rfl rfl rfl trivial)
  | bcEnqueue w =>
      obtain rfl := Option.some.inj hs
      exact .inr (h.wake (.bcLoad) rfl rfl rfl rfl rfl rfl rfl rfl trivial)
  | bcStatus =>
      cases me with
      | none =>
          obtain rfl := Option.some.inj hs
          exact .inl (Function.update_self ..)
      | some v =>
          obtain rfl := Option.some.inj hs
          exact .inr (h.walk (.cont .user) rfl rfl rfl rfl rfl rfl hstage)
  | cont k =>
      cases k with
      | user => cases hs
      | woken | relock | lock => exact hstage.elim
  | _ => exact hstage.elim

/-- The waker's own steps. -/
theorem InCall.own_step (h : InCall op s u a me p l) (hw : WaitInv u) (hk : WakersInv u)
    {act : CondAct A V} (hact : act.agent = a) (hsingle : ∀ f, act ≠ .call a f)
    (hs : condStep u act = some u') :
    u'.pc a = .crashed ∨ ∃ p', InCall op s u' a me p' (l ++ enqueuedBy a u act u') := by
  cases act with
  | call x f =>
      obtain rfl : x = a := hact
      exact absurd rfl (hsingle f)
  | pick x w =>
      obtain rfl : x = a := hact
      simp only [condStep, h.pc] at hs
      obtain ⟨q, p', hmem, hp, rfl⟩ := popBlocked_cases hs
      have hstage := h.stage
      rcases hp with ⟨rfl, rfl⟩ | ⟨rfl, rfl⟩
      · have hb := (hk.queue hw h.pc (.inl rfl) w).mp hmem
        cases op with
        | signal => exact .inr (h.pop (.sigNum w) rfl hb rfl rfl rfl rfl rfl rfl hstage)
        | wait | broadcast => exact hstage.elim
      · have hb := (hk.queue hw h.pc (.inr rfl) w).mp hmem
        cases op with
        | broadcast => exact .inr (h.pop (.bcNum w) rfl hb rfl rfl rfl rfl rfl rfl trivial)
        | wait | signal => exact hstage.elim
  | go x =>
      obtain rfl : x = a := hact
      simp only [condStep, h.pc] at hs
      cases op with
      | wait => cases p <;> exact h.stage.elim
      | signal => exact .inr (h.signal_step hw hk hs)
      | broadcast => exact h.broadcast_step hw hk hs

omit [DecidableEq V] in
/-- A raw thread that has crashed takes no step. -/
theorem not_step_of_crashed (h : u.pc a = .crashed) {act : CondAct A V} (hact : act.agent = a)
    [DecidableEq V] : condStep u act = none := by
  cases act with
  | call x f =>
      obtain rfl : x = a := hact
      simp [condStep, h]
  | pick x w =>
      obtain rfl : x = a := hact
      simp [condStep, h, getAndWork]
  | go x =>
      obtain rfl : x = a := hact
      simp [condStep, h, condWorker, workerRoutine]

end Call

/-! ## §3. A call comes to its end. -/

/-- The length of the queue that is installed. -/
def CondState.queueLength (s : CondState A V) : ℕ :=
  match s.blockedVths with
  | some q => (s.queue q).length
  | none => 0

/-- The steps of its own that a waker at `p` still takes, at most. -/
def CondPc.stepsLeft (s : CondState A V) : CondPc V → ℕ
  | readQueue _ => 4 * s.queueLength + if s.blockedVths = none then 8 else 6
  | casQueue _ => 4 * s.queueLength + 7
  | sigLoad => 5
  | sigPop _ => 4
  | sigNum _ => 3
  | sigStatus _ => 2
  | sigEnqueue _ => 1
  | bcCheck | bcEnqueue _ => 4 * s.queueLength + 4
  | bcLoad => 4 * s.queueLength + 3
  | bcPop _ => 4 * s.queueLength + 2
  | bcNum _ => 4 * s.queueLength + 5
  | bcStatus => 1
  | _ => 0

/-- The call of agent `a` is over. -/
def CallOver (s : CondState A V) (a : A) (me : Option V) : Prop :=
  s.pc a = .exec me (.cont .user) ∨ s.pc a = .crashed

section Ends

variable {s s' : CondState A V} {a : A} {me : Option V} {p : CondPc V} {act : CondAct A V}

omit [DecidableEq A] [DecidableEq V] in
theorem queueLength_of_same (hb : s'.blockedVths = s.blockedVths) (hq : s'.queue = s.queue) :
    s'.queueLength = s.queueLength := by
  unfold CondState.queueLength
  rw [hb, hq]

omit [DecidableEq A] in
/-- The queue that a call installs is empty. -/
theorem queueLength_of_install (hw : WaitInv s) {q : ℕ} (hnone : s.blockedVths = none)
    (hb : s'.blockedVths = some q) (hq : s'.queue = s.queue) :
    s'.queueLength = s.queueLength := by
  unfold CondState.queueLength
  rw [hb, hq, hnone]
  show (s.queue q).length = 0
  rw [hw.queues.empty q (by rw [hnone]; exact Option.some_ne_none q ∘ Eq.symm)]
  rfl

omit [DecidableEq A] [DecidableEq V] in
/-- An installed queue is not uninstalled, and then there is less to do. -/
theorem stepsLeft_le_of (hlen : s'.queueLength = s.queueLength)
    (hb : s'.blockedVths = none → s.blockedVths = none) (p : CondPc V) :
    p.stepsLeft s' ≤ p.stepsLeft s := by
  cases p with
  | readQueue op =>
      show 4 * s'.queueLength + (if s'.blockedVths = none then 8 else 6)
        ≤ 4 * s.queueLength + if s.blockedVths = none then 8 else 6
      rw [hlen]
      split
      · next hnone =>
          exact Nat.add_le_add_left (Nat.le_of_eq (if_pos (hb hnone)).symm) _
      · split <;> omega
  | _ => simp only [CondPc.stepsLeft, hlen, Nat.le_refl]

omit [DecidableEq A] [DecidableEq V] in
theorem stepsLeft_le (p : CondPc V) : p.stepsLeft s ≤ 4 * s.queueLength + 8 := by
  cases p with
  | readQueue op =>
      show 4 * s.queueLength + (if s.blockedVths = none then 8 else 6) ≤ _
      split <;> omega
  | _ =>
      simp only [CondPc.stepsLeft]
      omega

/-- A step of the waker's own. -/
theorem code_stepsLeft (hw : WaitInv s) (hpc : s.pc a = .exec me p) (hp : p.waking = true)
    (hs : condCode s a me p = some s') :
    CallOver s' a me
      ∨ ∃ p', s'.pc a = .exec me p' ∧ p'.waking = true ∧ p'.stepsLeft s' < p.stepsLeft s := by
  have hpast : p.past = true → s.blockedVths ≠ none := hw.queues.past a me p hpc
  cases p with
  | readQueue op =>
      obtain rfl := Option.some.inj hs
      refine .inr ?_
      cases hb : s.blockedVths with
      | none =>
          refine ⟨.casQueue op, Function.update_self .., ?_, ?_⟩
          · cases op <;> first | rfl | cases hp
          · show 4 * s.queueLength + 7 < 4 * s.queueLength + if s.blockedVths = none then 8 else 6
            rw [if_pos hb]
            omega
      | some q =>
          refine ⟨op.body, Function.update_self .., ?_, ?_⟩
          · cases op <;> first | rfl | cases hp
          · have hstart : (CondPc.readQueue op).stepsLeft s = 4 * s.queueLength + 6 := by
              show 4 * s.queueLength + (if s.blockedVths = none then 8 else 6) = _
              rw [hb]
              rfl
            rw [hstart]
            cases op with
            | wait => cases hp
            | signal =>
                show 5 < _
                omega
            | broadcast =>
                show 4 * s.queueLength + 4 < _
                omega
  | casQueue op =>
      simp only [condCode, allocQueue] at hs
      refine .inr ?_
      split at hs
      · next hb =>
          obtain rfl := Option.some.inj hs
          refine ⟨op.body, Function.update_self .., ?_, ?_⟩
          · cases op <;> first | rfl | cases hp
          · cases op with
            | wait => cases hp
            | signal =>
                show 5 < 4 * s.queueLength + 7
                omega
            | broadcast =>
                suffices hlen : CondState.queueLength _ = s.queueLength by
                  show 4 * CondState.queueLength _ + 4 < 4 * s.queueLength + 7
                  rw [hlen]
                  omega
                exact queueLength_of_install hw hb rfl rfl
      · next q hb =>
          obtain rfl := Option.some.inj hs
          refine ⟨.readQueue op, Function.update_self .., ?_, ?_⟩
          · cases op <;> first | rfl | cases hp
          · show 4 * s.queueLength + (if s.blockedVths = none then 8 else 6) < 4 * s.queueLength + 7
            rw [hb]
            exact Nat.lt_succ_self _
  | sigLoad =>
      obtain ⟨q, hb⟩ := Option.ne_none_iff_exists'.mp (hpast rfl)
      simp only [condCode, pthreadCondSignal, hb] at hs
      obtain rfl := Option.some.inj hs
      exact .inr ⟨.sigPop q, Function.update_self .., rfl, Nat.lt_succ_self _⟩
  | sigPop q =>
      simp only [condCode, pthreadCondSignal, Option.ite_none_right_eq_some] at hs
      obtain rfl := Option.some.inj hs.2
      exact .inl (.inl (Function.update_self ..))
  | sigNum w =>
      obtain rfl := Option.some.inj hs
      exact .inr ⟨.sigStatus w, Function.update_self .., rfl, Nat.lt_succ_self _⟩
  | sigStatus w =>
      obtain rfl := Option.some.inj hs
      exact .inr ⟨.sigEnqueue w, Function.update_self .., rfl, Nat.lt_succ_self _⟩
  | sigEnqueue w =>
      obtain rfl := Option.some.inj hs
      exact .inl (.inl (Function.update_self ..))
  | bcCheck =>
      obtain ⟨q, hb⟩ := Option.ne_none_iff_exists'.mp (hpast rfl)
      simp only [condCode, pthreadCondBroadcast, hb, Option.isSome_some, if_true] at hs
      obtain rfl := Option.some.inj hs
      exact .inr ⟨.bcLoad, Function.update_self .., rfl, Nat.lt_succ_self _⟩
  | bcLoad =>
      obtain ⟨q, hb⟩ := Option.ne_none_iff_exists'.mp (hpast rfl)
      simp only [condCode, pthreadCondBroadcast, hb] at hs
      obtain rfl := Option.some.inj hs
      exact .inr ⟨.bcPop q, Function.update_self .., rfl, Nat.lt_succ_self _⟩
  | bcPop q =>
      simp only [condCode, pthreadCondBroadcast, Option.ite_none_right_eq_some] at hs
      obtain rfl := Option.some.inj hs.2
      refine .inr ⟨.bcStatus, Function.update_self .., rfl, ?_⟩
      show 1 < 4 * s.queueLength + 2
      omega
  | bcNum w =>
      obtain rfl := Option.some.inj hs
      exact .inr ⟨.bcEnqueue w, Function.update_self .., rfl, Nat.lt_succ_self _⟩
  | bcEnqueue w =>
      obtain rfl := Option.some.inj hs
      exact .inr ⟨.bcLoad, Function.update_self .., rfl, Nat.lt_succ_self _⟩
  | bcStatus =>
      cases me with
      | none =>
          obtain rfl := Option.some.inj hs
          exact .inl (.inr (Function.update_self ..))
      | some v =>
          obtain rfl := Option.some.inj hs
          exact .inl (.inl (Function.update_self ..))
  | _ => cases hp

theorem own_stepsLeft (hw : WaitInv s) (hpc : s.pc a = .exec me p) (hp : p.waking = true)
    (hact : act.agent = a) (hs : condStep s act = some s') :
    CallOver s' a me
      ∨ ∃ p', s'.pc a = .exec me p' ∧ p'.waking = true ∧ p'.stepsLeft s' < p.stepsLeft s := by
  cases act with
  | call x f =>
      obtain rfl : x = a := hact
      simp only [condStep, hpc] at hs
      split at hs
      · next hq =>
          obtain ⟨-, rfl⟩ := Pc.exec.inj hq
          cases hp
      · cases hs
  | pick x w =>
      obtain rfl : x = a := hact
      simp only [condStep, hpc] at hs
      obtain ⟨q, p', hmem, hp', rfl⟩ := popBlocked_cases hs
      rcases hp' with ⟨rfl, rfl⟩ | ⟨rfl, rfl⟩
      · exact .inr ⟨.sigNum w, Function.update_self .., rfl, Nat.lt_succ_self _⟩
      · refine .inr ⟨.bcNum w, Function.update_self .., rfl, ?_⟩
        have hb : s.blockedVths = some q := hw.queues.pointer x me _ q hpc rfl
        have hpos := List.length_pos_of_mem hmem
        have herase := List.length_erase_of_mem hmem
        have hlen : s.queueLength = (s.queue q).length := by
          rw [CondState.queueLength, hb]
        show 4 * CondState.queueLength _ + 5 < 4 * s.queueLength + 2
        have hnew : CondState.queueLength ({ s with
            queue := update s.queue q ((s.queue q).erase w)
            pops := update s.pops w (s.pops w + 1)
            used := s.used ++ [q]
            pc := update s.pc x (.exec me (.bcNum w)) } : CondState A V)
            = ((s.queue q).erase w).length := by
          rw [CondState.queueLength]
          simp only [hb, Function.update_self]
        omega
  | go x =>
      obtain rfl : x = a := hact
      simp only [condStep, hpc] at hs
      exact code_stepsLeft hw hpc hp hs

/-- The steps of the others bring no more work. -/
theorem other_stepsLeft (hw : WaitInv s) (hk : WakersInv s) (hpc : s.pc a = .exec me p)
    (hp : p.waking = true) (hok : Disciplined s act) (hact : act.agent ≠ a)
    (hs : condStep s act = some s') :
    s'.pc a = .exec me p ∧ p.stepsLeft s' ≤ p.stepsLeft s := by
  refine ⟨(agent_pc hact hs).trans hpc, ?_⟩
  obtain ⟨hholder, hrel⟩ := hk a me p hpc hp
  have hsame := hw.others_leave hk hholder (fun v hv => ⟨hrel v hv, by
    rw [hpc, hv]
    exact .inr (active_of_waking hp)⟩) hok hact hs
  cases hb : s.blockedVths with
  | some q =>
      have hb' := hsame.installed (by rw [hb]; exact Option.some_ne_none q)
      exact stepsLeft_le_of (queueLength_of_same hb' hsame.queue) (fun h => hb' ▸ h) p
  | none =>
      cases hb' : s'.blockedVths with
      | some q =>
          exact stepsLeft_le_of (queueLength_of_install hw hb hb' hsame.queue) (fun _ => hb) p
      | none =>
          exact stepsLeft_le_of (queueLength_of_same (hb'.trans hb.symm) hsame.queue)
            (fun _ => hb) p

/-- A waker can always take a step. -/
theorem waker_canStep (hw : WaitInv s) (hpc : s.pc a = .exec me p)
    (hp : p.waking = true) : ∃ act, act.agent = a ∧ (condStep s act).isSome = true := by
  have hgo : condStep s (.go a) = condCode s a me p := by
    simp only [condStep, hpc]
  have hpast : p.past = true → s.blockedVths ≠ none := hw.queues.past a me p hpc
  -- a pop takes somebody from the queue, or finds it empty
  have hpop : ∀ q, (∀ w, w ∈ s.queue q → (condStep s (.pick a w)).isSome = true) →
      (s.queue q = [] → (condStep s (.go a)).isSome = true) →
      ∃ act, act.agent = a ∧ (condStep s act).isSome = true := by
    intro q hpick hempty
    cases hq : s.queue q with
    | nil => exact ⟨.go a, rfl, hempty hq⟩
    | cons w l => exact ⟨.pick a w, rfl, hpick w (hq ▸ List.mem_cons_self)⟩
  cases p with
  | readQueue op => exact ⟨.go a, rfl, by rw [hgo]; rfl⟩
  | casQueue op =>
      refine ⟨.go a, rfl, ?_⟩
      rw [hgo]
      simp only [condCode, allocQueue]
      split <;> rfl
  | sigLoad =>
      obtain ⟨q, hb⟩ := Option.ne_none_iff_exists'.mp (hpast rfl)
      refine ⟨.go a, rfl, ?_⟩
      rw [hgo]
      simp only [condCode, pthreadCondSignal, hb]
      rfl
  | bcLoad =>
      obtain ⟨q, hb⟩ := Option.ne_none_iff_exists'.mp (hpast rfl)
      refine ⟨.go a, rfl, ?_⟩
      rw [hgo]
      simp only [condCode, pthreadCondBroadcast, hb]
      rfl
  | sigPop q =>
      refine hpop q (fun w hw => ?_) fun hempty => ?_
      · simp only [condStep, hpc, popBlocked, if_pos hw]
        rfl
      · rw [hgo]
        simp only [condCode, pthreadCondSignal, if_pos hempty]
        rfl
  | bcPop q =>
      refine hpop q (fun w hw => ?_) fun hempty => ?_
      · simp only [condStep, hpc, popBlocked, if_pos hw]
        rfl
      · rw [hgo]
        simp only [condCode, pthreadCondBroadcast, if_pos hempty]
        rfl
  | sigNum w | sigStatus w | sigEnqueue w | bcCheck | bcNum w | bcEnqueue w =>
      refine ⟨.go a, rfl, ?_⟩
      rw [hgo]
      rfl
  | bcStatus =>
      refine ⟨.go a, rfl, ?_⟩
      rw [hgo]
      cases me <;> rfl
  | _ => cases hp

/-- However the run goes on, the call of agent `a` is over by the time `a` has made more than
    `n` steps. -/
def OverWithin (n : ℕ) (s : CondState A V) (a : A) (me : Option V) : Prop :=
  ∀ acts t, condvar.StepsMeet (fun s act => Disciplined s act ∧ WakersHold s act) s acts →
    condvar.run s acts = some t → n < acts.countP (fun act => act.agent = a) →
    ∃ start u, start <+: acts ∧ condvar.run s start = some u ∧ CallOver u a me

theorem overWithin (hw : WaitInv s) (hk : WakersInv s) (hpc : s.pc a = .exec me p)
    (hp : p.waking = true) : OverWithin (p.stepsLeft s) s a me := by
  intro acts t hok hrun hlt
  induction acts generalizing s p with
  | nil => exact absurd hlt (Nat.not_lt_zero _)
  | cons act acts ih =>
      obtain ⟨u, hs, hrest⟩ := Machine.run_cons hrun
      obtain ⟨hw', hk'⟩ := wakersInv_keeps.step s act u ⟨hw, hk⟩ hok.1 hs
      -- a call that is over later in the run
      have hlater : (∃ start x, start <+: acts ∧ condvar.run u start = some x ∧ CallOver x a me) →
          ∃ start x, start <+: act :: acts ∧ condvar.run s start = some x ∧ CallOver x a me := by
        rintro ⟨start, x, hpre, hx, hover⟩
        refine ⟨act :: start, x, List.cons_prefix_cons.mpr ⟨rfl, hpre⟩, ?_, hover⟩
        show (condvar.step s act).bind _ = some x
        rw [hs]
        exact hx
      by_cases ha : act.agent = a
      · rw [List.countP_cons_of_pos (by simpa using ha)] at hlt
        rcases own_stepsLeft hw hpc hp ha hs with hover | ⟨p', hpc', hp', hless⟩
        · exact hlater ⟨[], u, List.nil_prefix, rfl, hover⟩
        · exact hlater (ih hw' hk' hpc' hp' (hok.2 u hs) hrest (by omega))
      · rw [List.countP_cons_of_neg (by simpa using ha)] at hlt
        obtain ⟨hpc', hle⟩ := other_stepsLeft hw hk hpc hp hok.1.1 ha hs
        exact hlater (ih hw' hk' hpc' hp (hok.2 u hs) hrest (by omega))

end Ends

/-! ## §4. The claims about waiting. -/

/-- One queue for all; one release for each waiter, by the worker it has handed
    the mutex to, after its push; no resumption before. -/
structure WaitAtomic (s : CondState A V) : Prop where
  used : ∀ q ∈ s.used, s.blockedVths = some q
  pointer : ∀ a me p q, s.pc a = .exec me p → p.pointer = some q → s.blockedVths = some q
  release : ∀ a v, s.pc a = .ret v (.mutex ()) →
    s.holder = some (.vthread v) ∧ s.pushes v = 1 ∧ s.releases v = 0
  once : ∀ v, s.releases v ≤ 1
  resume : ∀ a v, s.pc a = .resume v → s.waits v = 1 → s.releases v = 1

/-- At its pops a waker finds the waiters that have released the mutex, and no
    others: a signal takes one of them if there is one, a broadcast stops when
    there is none. -/
structure WakeExact (s : CondState A V) : Prop where
  queue : ∀ a me p q, s.pc a = .exec me p → (p = .sigPop q ∨ p = .bcPop q) →
    ∀ v, v ∈ s.queue q ↔ Blocked s v
  signal : ∀ a me q act s', s.pc a = .exec me (.sigPop q) → act.agent = a →
    condStep s act = some s' → (∃ v, Blocked s v) →
    ∃ w, Blocked s w ∧ s'.pc a = .exec me (.sigNum w)
  broadcast : ∀ a me q act s', s.pc a = .exec me (.bcPop q) → act.agent = a →
    condStep s act = some s' →
    (∃ w, Blocked s w ∧ s'.pc a = .exec me (.bcNum w))
      ∨ ((∀ v, ¬Blocked s v) ∧ s'.pc a = .exec me .bcStatus)

omit [DecidableEq A] in
theorem WaitInv.atomic {s : CondState A V} (h : WaitInv s) : WaitAtomic s where
  used := h.queues.used
  pointer := h.queues.pointer
  release a v ha := by
    have hown := h.owns a v (ha ▸ ⟨rfl, rfl⟩)
    refine ⟨hown.holder, ?_, hown.releases⟩
    have := hown.pushes
    rwa [ha] at this
  once v := by
    have := h.bounds v
    omega
  resume a v ha hv := by
    have hb := h.bounds v
    by_contra hne
    have h0 : s.releases v = 0 := by omega
    -- somebody would still be in the wait of `v`, and here an agent resumes it
    obtain ⟨x, hx⟩ := h.found v hv h0
    have hact : (s.pc a).Active condShape v := ha ▸ rfl
    obtain rfl := h.waiting_unique hx (.inr hact)
    rw [ha] at hx
    exact hx.elim

theorem WakersInv.exact {s : CondState A V} (hw : WaitInv s) (h : WakersInv s) : WakeExact s where
  queue a me p q ha hp v := h.queue hw ha hp v
  signal a me q act s' ha hact hs hex := by
    have hq := fun v => h.queue hw ha (.inl rfl) v
    cases act with
    | call x f =>
        obtain rfl : x = a := hact
        simp [condStep, ha] at hs
    | pick x w =>
        obtain rfl : x = a := hact
        simp only [condStep, ha, popBlocked, Option.ite_none_right_eq_some] at hs
        obtain ⟨hmem, hs⟩ := hs
        obtain rfl := Option.some.inj hs
        exact ⟨w, (hq w).mp hmem, Function.update_self _ _ _⟩
    | go x =>
        obtain rfl : x = a := hact
        simp only [condStep, ha, condCode, pthreadCondSignal, Option.ite_none_right_eq_some] at hs
        obtain ⟨v, hv⟩ := hex
        have hmem := (hq v).mpr hv
        rw [hs.1] at hmem
        cases hmem
  broadcast a me q act s' ha hact hs := by
    have hq := fun v => h.queue hw ha (.inr rfl) v
    cases act with
    | call x f =>
        obtain rfl : x = a := hact
        simp [condStep, ha] at hs
    | pick x w =>
        obtain rfl : x = a := hact
        simp only [condStep, ha, popBlocked, Option.ite_none_right_eq_some] at hs
        obtain ⟨hmem, hs⟩ := hs
        obtain rfl := Option.some.inj hs
        exact .inl ⟨w, (hq w).mp hmem, Function.update_self _ _ _⟩
    | go x =>
        obtain rfl : x = a := hact
        simp only [condStep, ha, condCode, pthreadCondBroadcast,
          Option.ite_none_right_eq_some] at hs
        obtain ⟨hempty, hs⟩ := hs
        obtain rfl := Option.some.inj hs
        refine .inr ⟨fun v hv => ?_, Function.update_self _ _ _⟩
        have hmem := (hq v).mpr hv
        rw [hempty] at hmem
        cases hmem

/-- The function that allocates the queue and goes on to `op`. -/
def CondOp.call : CondOp → CondCall
  | .wait => .condWait
  | .signal => .condSignal
  | .broadcast => .condBroadcast

/-- A run of disciplined steps from `s` to `t` that begins with the call of `op` by agent `a`,
    who makes no other, and has found its last waiter at the end. -/
structure CallRun (op : CondOp) (a : A) (me : Option V) (s : CondState A V)
    (acts : List (CondAct A V)) (t : CondState A V) : Prop where
  before : s.pc a = .exec me (.cont .user)
  meets : condvar.StepsMeet (fun s act => Disciplined s act ∧ WakersHold s act) s
    (.call a op.call :: acts)
  run : condvar.run s (.call a op.call :: acts) = some t
  single : ∀ f, .call a f ∉ acts
  done : t.pc a = .exec me (.cont .user) ∨ t.pc a = .exec me .bcStatus

/-- What agent `a` has put into `vs_queue` by the end of its call. -/
def wokenBy (op : CondOp) (a : A) (s : CondState A V) (acts : List (CondAct A V)) : List V :=
  condvar.trace (enqueuedBy a) s (.call a op.call :: acts)

/-- A signal puts one waiter that was blocked when it was called into `vs_queue`, and leaves
    the others blocked; it puts nobody there only if nobody was blocked.  A broadcast puts
    all there, each once. -/
structure CallsWake (s : CondState A V) : Prop where
  signal : ∀ a me acts t, CallRun .signal a me s acts t →
    (∃ w, Blocked s w ∧ wokenBy .signal a s acts = [w] ∧ ∀ v, Blocked t v ↔ Blocked s v ∧ v ≠ w)
      ∨ (∀ v, ¬Blocked s v) ∧ wokenBy .signal a s acts = [] ∧ ∀ v, ¬Blocked t v
  broadcast : ∀ a me acts t, CallRun .broadcast a me s acts t →
    (wokenBy .broadcast a s acts).Nodup ∧ (∀ v, v ∈ wokenBy .broadcast a s acts ↔ Blocked s v)
      ∧ ∀ v, ¬Blocked t v

/-- A waker can always take a step, and its call is over after a number of its own steps
    that the length of the queue bounds. -/
structure CallsEnd (s : CondState A V) : Prop where
  enabled : ∀ a me p, s.pc a = .exec me p → p.waking = true →
    ∃ act, act.agent = a ∧ (condStep s act).isSome = true
  bounded : ∀ a me p, s.pc a = .exec me p → p.waking = true →
    OverWithin (4 * s.queueLength + 8) s a me

/-- The call, step by step. -/
theorem WakersInv.call_run {s t : CondState A V} (hw : WaitInv s) (hk : WakersInv s) {op : CondOp}
    (hop : op = .signal ∨ op = .broadcast) {a : A} {me : Option V} {acts : List (CondAct A V)}
    (h : CallRun op a me s acts t) :
    ∃ p, InCall op s t a me p (wokenBy op a s acts) ∧ (p = .cont .user ∨ p = .bcStatus) := by
  obtain ⟨u, hcall, hrest⟩ := Machine.run_cons h.run
  have hstart : InCall op s u a me (.readQueue op) []
      ∧ enqueuedBy a s (.call a op.call) u = [] := by
    have hmeets := h.meets.1
    have hcall : condStep s (.call a op.call) = some u := hcall
    simp only [condStep, h.before] at hcall
    obtain rfl := Option.some.inj hcall
    have hwoken : Woken s s [] := ⟨List.nodup_nil, fun v hv => absurd hv List.not_mem_nil,
      fun v => by simp⟩
    rcases hop with rfl | rfl
    · refine ⟨⟨Function.update_self .., hmeets.2 me _ h.before, fun v hv => ?_,
        hwoken.stay rfl rfl, rfl⟩, enqueuedBy_same rfl⟩
      exact hmeets.1.followed v _ (hv ▸ h.before)
    · refine ⟨⟨Function.update_self .., hmeets.2 me _ h.before, fun v hv => ?_,
        hwoken.stay rfl rfl, trivial⟩, enqueuedBy_same rfl⟩
      exact hmeets.1.followed v _ (hv ▸ h.before)
  have hmeets := (h.meets.2 u hcall).and
    (Machine.StepsMeet.of_mem (P := fun act => ∀ f, act ≠ .call a f) fun act hact f hf =>
      h.single f (hf ▸ hact))
  have hkeep := wakersInv_keeps.step s _ u ⟨hw, hk⟩ h.meets.1 hcall
  -- what holds all along: the call goes on, or the caller has crashed
  have hend : (WaitInv t ∧ WakersInv t) ∧ (t.pc a = .crashed ∨ ∃ p, InCall op s t a me p
      ([] ++ condvar.trace (enqueuedBy a) u acts)) := by
    refine Machine.trace_keeps (I := fun x l => (WaitInv x ∧ WakersInv x)
      ∧ (x.pc a = .crashed ∨ ∃ p, InCall op s x a me p l)) ?_ ⟨hkeep, .inr ⟨_, hstart.1⟩⟩ hmeets
      hrest
    rintro x act x' l ⟨hx, hin⟩ ⟨hok, hsingle⟩ hstep
    refine ⟨wakersInv_keeps.step x act x' hx hok hstep, ?_⟩
    rcases hin with hcrash | ⟨p, hin⟩
    · by_cases hact : act.agent = a
      · have hnone := not_step_of_crashed hcrash hact
        rw [show condStep x act = some x' from hstep] at hnone
        cases hnone
      · exact .inl ((agent_pc hact hstep).trans hcrash)
    · by_cases hact : act.agent = a
      · exact hin.own_step hx.1 hx.2 hact hsingle hstep
      · have hsame := hx.1.others_leave hx.2 hin.holder hin.active hok.1 hact hstep
        refine .inr ⟨p, (agent_pc hact hstep).trans hin.pc, hsame.holder.trans hin.holder,
          fun v hv => ?_, ?_, ?_⟩
        · rw [hsame.releases]
          exact hin.followed v hv
        · rw [enqueuedBy, if_neg hact, List.append_nil]
          exact hin.woken.stay hsame.releases hsame.pops
        · rw [enqueuedBy, if_neg hact, List.append_nil]
          exact hin.stage.stay hsame.releases hsame.pops
  have htrace : wokenBy op a s acts = condvar.trace (enqueuedBy a) u acts := by
    unfold wokenBy
    rw [Machine.trace_cons _ hcall, hstart.2, List.nil_append]
  rw [htrace]
  obtain ⟨-, hcrash | ⟨p, hin⟩⟩ := hend
  · rcases h.done with hd | hd <;> rw [hcrash] at hd <;> cases hd
  · refine ⟨p, hin, ?_⟩
    rcases h.done with hd | hd
    · exact .inl (Pc.exec.inj (hin.pc.symm.trans hd)).2
    · exact .inr (Pc.exec.inj (hin.pc.symm.trans hd)).2

theorem WakersInv.calls_wake {s : CondState A V} (hw : WaitInv s) (hk : WakersInv s) :
    CallsWake s where
  signal a me acts t h := by
    obtain ⟨p, hin, rfl | rfl⟩ := hk.call_run hw (.inl rfl) h
    · have hwoken := hin.empty_hand rfl
      rcases hin.stage with ⟨w, hw⟩ | ⟨hnil, hnone⟩
      · refine .inl ⟨w, hwoken.blocked w ?_, hw, fun v => ?_⟩
        · rw [hw]
          exact List.mem_singleton_self w
        · rw [hwoken.left v, hw, List.mem_singleton]
      · refine .inr ⟨fun v hv => hnone v ((hwoken.left v).mpr ⟨hv, ?_⟩), hnil, hnone⟩
        rw [hnil]
        exact List.not_mem_nil
    · exact hin.stage.elim
  broadcast a me acts t h := by
    obtain ⟨p, hin, hp⟩ := hk.call_run hw (.inr rfl) h
    have hnone : ∀ v, ¬Blocked t v := by
      rcases hp with rfl | rfl <;> exact hin.stage
    have hwoken : Woken s t (wokenBy .broadcast a s acts) := by
      rcases hp with rfl | rfl <;> exact hin.empty_hand rfl
    refine ⟨hwoken.nodup, fun v => ⟨hwoken.blocked v, fun hv => ?_⟩, hnone⟩
    by_contra hno
    exact hnone v ((hwoken.left v).mpr ⟨hv, hno⟩)

theorem WakersInv.calls_end {s : CondState A V} (hw : WaitInv s) (hk : WakersInv s) :
    CallsEnd s where
  enabled _ _ _ hpc hp := waker_canStep hw hpc hp
  bounded _ _ p hpc hp acts t hok hrun hlt :=
    overWithin hw hk hpc hp acts t hok hrun (Nat.lt_of_le_of_lt (stepsLeft_le p) hlt)

/-- **Waiting is atomic and no wake-up is lost**, in every state that disciplined
    steps reach; the second part when signals and broadcasts are made holding
    the mutex. -/
theorem wait_atomic {s : CondState A V} (hr : condvar.ReachableVia Disciplined s) :
    WaitAtomic s ∧
      (condvar.ReachableVia (fun s act => Disciplined s act ∧ WakersHold s act) s →
        WakeExact s ∧ CallsWake s ∧ CallsEnd s) :=
  ⟨(waitInv_keeps.reachable hr).atomic, fun hr' =>
    have h := wakersInv_keeps.reachable hr'
    ⟨h.2.exact h.1, h.2.calls_wake h.1, h.2.calls_end h.1⟩⟩

/-- The discipline, executable. -/
def disciplined (s : CondState A V) (act : CondAct A V) : Bool :=
  match s.pc act.agent with
  | .exec me _ =>
      (match me with
        | some v => s.releases v == 0
        | none => true) &&
      (match act, me with
        | .call _ .condWait, some v => s.holder == some (.vthread v) && s.waits v == 0
        | .call a .mutexUnlock, me => s.holder == some (caller me a)
        | _, _ => true)
  | _ => true

theorem disciplined_sound {s : CondState A V} {act : CondAct A V} (h : disciplined s act = true) :
    Disciplined s act where
  followed v p hp := by
    simp only [disciplined, hp, Bool.and_eq_true, beq_iff_eq] at h
    exact h.1
  wait a v p ha hp := by
    subst ha
    have hp' : s.pc (CondAct.call a .condWait : CondAct A V).agent = .exec (some v) p := hp
    simp only [disciplined, hp', Bool.and_eq_true, beq_iff_eq] at h
    exact h.2
  unlock a me p ha hp := by
    subst ha
    have hp' : s.pc (CondAct.call a .mutexUnlock : CondAct A V).agent = .exec me p := hp
    simp only [disciplined, hp', Bool.and_eq_true, beq_iff_eq] at h
    exact h.2

/-- Wakers hold the mutex, executable. -/
def wakersHold (s : CondState A V) : CondAct A V → Bool
  | .call a .condSignal | .call a .condBroadcast =>
      match s.pc a with
      | .exec me _ => s.holder == some (caller me a)
      | _ => true
  | _ => true

theorem wakersHold_sound {s : CondState A V} {act : CondAct A V} (h : wakersHold s act = true) :
    WakersHold s act := by
  unfold WakersHold
  split
  · intro me p hp
    simpa [wakersHold, hp] using h
  · intro me p hp
    simpa [wakersHold, hp] using h
  · trivial

/-- Three workers and three vthreads in the run queue. -/
def threeVthreads : CondState (Fin 3) (Fin 3) := condInit (fun _ => false) [0, 1, 2]

/-- Worker `v` runs vthread `v`, which takes the mutex. -/
def lockActs (v : Fin 3) : List (CondAct (Fin 3) (Fin 3)) :=
  [.pick v v, .go v, .go v, .call v .mutexLock, .go v]

/-- Vthreads 0 and 1 wait, up to the release of the mutex, and vthread 2 takes the mutex. -/
def twoBlocked : List (CondAct (Fin 3) (Fin 3)) :=
  lockActs 0 ++ .call 0 .condWait :: List.replicate 9 (.go 0)
    ++ lockActs 1 ++ .call 1 .condWait :: List.replicate 8 (.go 1) ++ lockActs 2

/-- Vthread 2 signals. -/
def signalOne : List (CondAct (Fin 3) (Fin 3)) :=
  [.go 2, .go 2, .pick 2 1, .go 2, .go 2, .go 2]

/-- Vthread 2 broadcasts. -/
def broadcastBoth : List (CondAct (Fin 3) (Fin 3)) :=
  [.go 2, .go 2, .go 2, .pick 2 1, .go 2, .go 2, .go 2, .pick 2 0, .go 2, .go 2, .go 2, .go 2, .go 2]

theorem wait_atomic_broadcast :
    ∃ s t u, condvar.run threeVthreads twoBlocked = some s
      ∧ CallRun .signal 2 (some 2) s signalOne t ∧ wokenBy .signal 2 s signalOne = [1]
      ∧ CallRun .broadcast 2 (some 2) s broadcastBoth u ∧ u.vsQueue = [1, 0]
      ∧ WaitAtomic s ∧ WakeExact s ∧ CallsEnd s
      ∧ (wokenBy .broadcast 2 s broadcastBoth).Nodup
      ∧ (∀ v, v ∈ wokenBy .broadcast 2 s broadcastBoth ↔ Blocked s v) ∧ ∀ v, ¬Blocked u v := by
  have hinit : condvar.init threeVthreads := ⟨_, _, by decide, rfl⟩
  have hboth : ∀ s : CondState (Fin 3) (Fin 3), ∀ act,
      (disciplined s act && wakersHold s act) = true → Disciplined s act ∧ WakersHold s act := by
    intro s act h
    rw [Bool.and_eq_true] at h
    exact ⟨disciplined_sound h.1, wakersHold_sound h.2⟩
  have hr : condvar.ReachableVia _ _ :=
    Machine.ReachableVia.run hboth (.start hinit) twoBlocked rfl rfl
  have hone : ∀ s : CondState (Fin 3) (Fin 3), ∀ act, disciplined s act = true →
      Disciplined s act := fun _ _ => disciplined_sound
  have hr₁ : condvar.ReachableVia _ _ :=
    Machine.ReachableVia.run hone (.start hinit) twoBlocked rfl rfl
  obtain ⟨hexact, hcalls, hends⟩ := (wait_atomic hr₁).2 hr
  have hsingle : ∀ acts : List (CondAct (Fin 3) (Fin 3)), acts.all (fun act =>
      match act with
        | .call .. => false
        | _ => true) = true → ∀ f, .call 2 f ∉ acts := fun acts h f hf =>
    absurd (List.all_eq_true.mp h _ hf) Bool.false_ne_true
  refine ⟨_, _, _, rfl, ⟨rfl, Machine.stepsMeet_of_check hboth _ _ rfl, rfl, hsingle _ rfl, .inl rfl⟩,
    rfl, ⟨rfl, Machine.stepsMeet_of_check hboth _ _ rfl, rfl, hsingle _ rfl, .inl rfl⟩, rfl,
    (wait_atomic hr₁).1, hexact, hends, hcalls.broadcast 2 (some 2) _ _ ?_⟩
  exact ⟨rfl, Machine.stepsMeet_of_check hboth _ _ rfl, rfl, hsingle _ rfl, .inl rfl⟩

end HThread.Cond
