/-
  HThread.Join.Calls — what the callers of `join` asked for and what they found.

  The machine of HThread.Join.Vthread with its calls written down: which target
  and which result variable each caller gave, with which value each vthread
  ended, and, each time a call of `join` returns, what its result variable
  holds.  The log has no effect on the run.

  A target that has stored its result in `wake_up_joined` has stored it for
  good: `Stored`.  `Knows` says what an agent can rely on point by point, `Leaves`
  what a step must leave to the other agents for that.

  Key lemmas:
    * `logged_run`    — a run with the log is a run.
    * `others_leaves` — what the others know survives such a step.
    * `others_ask`    — and so it does when the agent's own call is written down.
-/
import HThread.Join.Posts

namespace HThread.Join

open Interleave
open Function (update)

variable {A V : Type} [DecidableEq A] [DecidableEq V]

/-! ## §1. The log. -/

/-- A raw thread, or the vthread that the agent runs. -/
def caller {A V : Type} (a : A) : Option V → A ⊕ V
  | some v => .inr v
  | none => .inl a

/-- The pending call of `join` of each caller, its target and `_retval`; the value
    that each vthread returned or passed to `pthread_exit`; for each call that has
    returned and was given a variable, the target and the value found. -/
structure Logged (A V : Type) where
  st : JoinState A V
  asked : A ⊕ V → Option (V × Option ℕ)
  ended : V → Option ℕ
  found : List (V × ℕ)

/-- Agent `a`, which runs `me`, calls `f`. -/
def Logged.call (w : Logged A V) (a : A) (me : Option V) : JoinCall V → Logged A V
  | .join t r => { w with asked := update w.asked (caller a me) (some (t, r)) }
  | .pthreadExit val | .ret val =>
      match me with
      | some v => { w with ended := update w.ended v (some val) }
      | none => w
  | .schedYield => w

/-- If agent `a` is back in the program, its call of `join` has returned. -/
def Logged.back (w : Logged A V) (a : A) : Logged A V :=
  match w.st.pc a with
  | .exec me (.cont .user) =>
      match w.asked (caller a me) with
      | some (t, r) => { w with
          asked := update w.asked (caller a me) none
          found := (r.map fun x => (t, w.st.cell x)).toList ++ w.found }
      | none => w
  | _ => w

/-- What the step to `s` adds to the log. -/
def Logged.note (w : Logged A V) (s : JoinState A V) : JoinAct A V → Logged A V
  | .call a f =>
      match w.st.pc a with
      | .exec me _ => Logged.call { w with st := s } a me f
      | _ => { w with st := s }
  | act => Logged.back { w with st := s } act.agent

/-- Joining, with the log. -/
def logged : Machine (Logged A V) (JoinAct A V) where
  init w := joining.init w.st ∧ w.asked = (fun _ => none) ∧ w.ended = (fun _ => none) ∧ w.found = []
  step w act := (joinStep w.st act).map fun s => w.note s act

/-- Every call of `join` that has returned and was given a variable found there
    the value with which its target ended. -/
def Delivered (w : Logged A V) : Prop := ∀ e ∈ w.found, w.ended e.1 = some e.2

@[simp] theorem call_st (w : Logged A V) (a : A) (me : Option V) (f : JoinCall V) :
    (w.call a me f).st = w.st := by
  cases f with
  | pthreadExit val | ret val => cases me <;> rfl
  | _ => rfl

@[simp] theorem back_st (w : Logged A V) (a : A) : (w.back a).st = w.st := by
  unfold Logged.back
  split
  · split <;> rfl
  · rfl

@[simp] theorem note_st (w : Logged A V) (s : JoinState A V) (act : JoinAct A V) :
    (w.note s act).st = s := by
  cases act with
  | call a f =>
      show (match w.st.pc a with
        | .exec me _ => Logged.call { w with st := s } a me f
        | _ => { w with st := s }).st = s
      split
      · exact call_st ..
      · rfl
  | _ => exact back_st ..

theorem note_call {w : Logged A V} {s : JoinState A V} {a : A} {me : Option V} {p : JoinPc V}
    (f : JoinCall V) (hpc : w.st.pc a = .exec me p) :
    w.note s (.call a f) = Logged.call { w with st := s } a me f := by
  simp only [Logged.note, hpc]

/-- The log has no effect on the run. -/
theorem logged_run (w : Logged A V) (acts : List (JoinAct A V)) :
    (logged.run w acts).map Logged.st = joining.run w.st acts := by
  induction acts generalizing w with
  | nil => rfl
  | cons act acts ih =>
      show ((Option.map (fun s => w.note s act) (joinStep w.st act)).bind fun w' =>
          logged.run w' acts).map Logged.st
        = (joinStep w.st act).bind fun s => joining.run s acts
      cases joinStep w.st act with
      | none => rfl
      | some s =>
          show (logged.run (w.note s act) acts).map Logged.st = joining.run s acts
          rw [ih, note_st]

/-! ## §2. What an agent knows. -/

/-- `wake_up_joined` has stored the result. -/
def JoinPc.stored : JoinPc V → Bool
  | .wakeStatus => true
  | p => p.past

/-- The agent runs `wake_up_joined` of `t` and has stored the result. -/
def StoredAt : Pc V (JoinPc V) (JoinCont V) V → V → Prop
  | .exec me p, t => me = some t ∧ p.stored = true
  | _, _ => False

/-- `t` has stored its result for the joiners. -/
def Stored (s : JoinState A V) (t : V) : Prop :=
  s.done t = true ∨ ∃ a, StoredAt (s.pc a) t

/-- The variable that a joiner of `t` gave, if any, holds the result. -/
def Filled (s : JoinState A V) (t : V) (r : Option ℕ) : Prop :=
  ∀ x, r = some x → s.cell x = s.routineRet t

/-- The caller is a joiner of `t` that waits, registered before `t` finished. -/
def Registered (s : JoinState A V) (t : V) : A ⊕ V → Prop
  | .inl a => waitsFor t (s.pc a) ≠ 0
  | .inr u => u ∈ s.linked (.queue t)

/-- All registered joiners of `t` that gave a variable gave `x`. -/
def OnlyVariable (w : Logged A V) (t : V) (x : ℕ) : Prop :=
  ∀ c y, Registered w.st t c → w.asked c = some (t, some y) → y = x

/-- At `p` in the code of `me`, the caller `c`. -/
def Knows (w : Logged A V) (c : A ⊕ V) (me : Option V) : JoinPc V → Prop
  | .cont .user => ∀ t r, w.asked c = some (t, r) → Stored w.st t ∧ Filled w.st t r
  | .cont .dead => False
  | .cont (.joinLock t r) | .joinRetval t r | .joinTest t r => w.asked c = some (t, r)
  | .joinNum t | .joinInc t _ | .joinStatus t | .joinHead t | .joinPush t _ | .joinLink t _ =>
      ¬Stored w.st t ∧ ∃ r, w.asked c = some (t, r)
  | .joinRelease t => me = none ∧ ¬Stored w.st t ∧ ∃ r, w.asked c = some (t, r)
  | .semCas t | .semFutex t | .semSleep t =>
      me = none ∧ ∃ r, w.asked c = some (t, r) ∧ (Stored w.st t → Filled w.st t r)
  | .joinOut t r => w.asked c = some (t, r) ∧ Stored w.st t
  | .joinStore t x val => w.asked c = some (t, some x) ∧ Stored w.st t ∧ val = w.st.routineRet t
  | .joinUnlock t => ∃ r, w.asked c = some (t, r) ∧ Stored w.st t ∧ Filled w.st t r
  | .cont (.exitLock val) | .exitSet val | .manageRet val => ∀ v, me = some v → w.ended v = some val
  | .wakeOut x => ∀ v, me = some v → w.ended v = some (w.st.routineRet v) ∧ OnlyVariable w v x
  | .wakeStore x val => ∀ v, me = some v → w.ended v = some (w.st.routineRet v) ∧ OnlyVariable w v x
      ∧ val = w.st.routineRet v
  | _ => ∀ v, me = some v → w.ended v = some (w.st.routineRet v)

/-- Of `v`, to be resumed at `k`. -/
def KnowsCont (w : Logged A V) (v : V) : JoinCont V → Prop
  | .user => ∀ t r, w.asked (.inr v) = some (t, r) →
      (v ∈ w.st.linked (.queue t) ∨ Stored w.st t) ∧ (Stored w.st t → Filled w.st t r)
  | .joinLock t r => w.asked (.inr v) = some (t, r)
  | .exitLock val => w.ended v = some val
  | .wakeLock => w.ended v = some (w.st.routineRet v)
  | .dead => False

/-- At `q`, agent `a`. -/
def At (w : Logged A V) (a : A) : Pc V (JoinPc V) (JoinCont V) V → Prop
  | .exec me p => Knows w (caller a me) me p
  | .switch v (.status .finished) _ => w.ended v = some (w.st.routineRet v)
  | .switch v _ k => KnowsCont w v k
  | .ret v (.status .finished) => w.ended v = some (w.st.routineRet v)
  | _ => True

/-- The vthread that the agent runs, or that has just finished there. -/
def runner : Pc V (JoinPc V) (JoinCont V) V → Option V
  | .exec me _ => me
  | .switch v _ _ => some v
  | .ret v (.status .finished) => some v
  | _ => none

/-- What all agents but `a` know. -/
structure Others (w : Logged A V) (a : A) : Prop where
  once : Once w.st
  others : ∀ b, b ≠ a → At w b (w.st.pc b)
  back : ∀ b, b ≠ a → ∀ me, w.st.pc b = .exec me (.cont .user) → w.asked (caller b me) = none
  off : ∀ v, w.st.done v = false → (∀ b, runner (w.st.pc b) ≠ some v) →
    KnowsCont w v (w.st.ctx v)
  posts : ∀ t, w.st.fut t ≠ 0 → Stored w.st t
  marked : ∀ t, w.st.curStatus t = .finished → Stored w.st t
  gone : ∀ t, w.st.done t = true → w.ended t = some (w.st.routineRet t)
  found : ∀ e ∈ w.found, Stored w.st e.1 ∧ w.ended e.1 = some e.2

/-- What a step of agent `a` leaves of the values that others rely on, -/
structure Values (w : Logged A V) (s : JoinState A V) (a : A) : Prop where
  own : ∀ v, runner (w.st.pc a) ≠ some v →
    s.routineRet v = w.st.routineRet v ∧ s.ctx v = w.st.ctx v
  fixed : ∀ t, Stored w.st t → s.routineRet t = w.st.routineRet t
  cell : ∀ c t x, w.asked c = some (t, some x) → Stored w.st t →
    w.st.cell x = w.st.routineRet t → s.cell x = w.st.routineRet t

/-- of the marks on the targets, -/
structure Marks (w : Logged A V) (s : JoinState A V) (a : A) : Prop where
  stored : ∀ t, Stored w.st t → Stored s t
  fresh : ∀ t, Stored s t → Stored w.st t ∨ Locked (w.st.pc a) t ∧ ∀ c x,
    Registered w.st t c → w.asked c = some (t, some x) → s.cell x = s.routineRet t
  posts : ∀ t, s.fut t ≠ 0 → w.st.fut t ≠ 0 ∨ Stored s t
  marked : ∀ t, s.curStatus t = .finished → w.st.curStatus t = .finished ∨ Stored s t
  gone : ∀ t, s.done t = true → w.st.done t = true ∨ w.ended t = some (s.routineRet t)

/-- and of the places where joiners wait. -/
structure Places (w : Logged A V) (s : JoinState A V) (a : A) : Prop where
  linked : ∀ u t, u ∈ w.st.linked (.queue t) → u ∈ s.linked (.queue t) ∨ Stored s t
  registers : ∀ t c, Registered s t c → Locked (w.st.pc a) t ∨ Registered w.st t c

/-! ## §3. What survives a step of another agent. -/

section Frame

variable {w : Logged A V} {s : JoinState A V} {act : JoinAct A V} {a b : A}

omit [DecidableEq A] in
theorem holds_or_passing (h : Once w.st) {v : V} (hv : runner (w.st.pc a) = some v) :
    (w.st.pc a).Holds joinShape v ∨ ∃ t, Passing (w.st.pc a) v t := by
  have hruns : (w.st.pc a).Runs v → (w.st.pc a).Holds joinShape v ∨ ∃ t, Passing (w.st.pc a) v t :=
    h.holds_or_passing
  cases hpc : w.st.pc a with
  | exec me p =>
      rw [hpc] at hv hruns
      exact hruns hv
  | switch u r k =>
      rw [hpc] at hv hruns
      exact hruns (Option.some.inj hv).symm
  | ret u r =>
      rw [hpc] at hv
      cases r with
      | status st =>
          cases st with
          | finished => exact .inl ⟨(Option.some.inj hv).symm, rfl⟩
          | _ => cases hv
      | mutex m => cases hv
  | _ =>
      rw [hpc] at hv
      cases hv

omit [DecidableEq A] in
theorem runner_unique (h : Once w.st) {v : V} (ha : runner (w.st.pc a) = some v)
    (hb : runner (w.st.pc b) = some v) : a = b := by
  -- it is held, or passing from `join` into a list; nobody has it both ways
  rcases holds_or_passing h ha with ha | ⟨t, ha⟩
  · rcases holds_or_passing h hb with hb | ⟨t, hb⟩
    · exact h.lists.inPlace.holder_unique trivial ha hb
    · exact absurd ha (h.not_holds_of_passing hb)
  · rcases holds_or_passing h hb with hb | ⟨t', hb⟩
    · exact absurd hb (h.not_holds_of_passing ha)
    · exact h.passing_unique ha hb

omit [DecidableEq A] [DecidableEq V] in
/-- A filled variable stays filled. -/
theorem filled_leaves (hv : Values w s a) {c : A ⊕ V} {t : V} {r : Option ℕ}
    (hc : w.asked c = some (t, r)) (hst : Stored w.st t) (hf : Filled w.st t r) : Filled s t r := by
  intro x hx
  subst hx
  rw [hv.fixed t hst]
  exact hv.cell c t x hc hst (hf x rfl)

omit [DecidableEq A] in
/-- Whoever waited when the result was stored has it. -/
theorem filled_fresh (hv : Values w s a) (hm : Marks w s a) {c : A ⊕ V} {t : V} {r : Option ℕ}
    (hc : w.asked c = some (t, r)) (hreg : ¬Stored w.st t → Registered w.st t c)
    (hf : Stored w.st t → Filled w.st t r) (hst : Stored s t) : Filled s t r := by
  by_cases hold : Stored w.st t
  · exact filled_leaves hv hc hold (hf hold)
  · intro x hx
    subst hx
    -- the store was made by this step, for all that were registered
    rcases hm.fresh t hst with h | ⟨-, h⟩
    · exact absurd h hold
    · exact h c x (hreg hold) hc

omit [DecidableEq A] in
theorem knowsCont_leaves (hv : Values w s a) (hm : Marks w s a) (hp : Places w s a) {v : V}
    {k : JoinCont V} (hret : s.routineRet v = w.st.routineRet v) (hk : KnowsCont w v k) :
    KnowsCont { w with st := s } v k := by
  cases k with
  | user =>
      intro t r hc
      obtain ⟨hl, hf⟩ := hk t r hc
      -- a joiner that left its list was let go of after the store
      refine ⟨?_, filled_fresh hv hm hc (fun hno => hl.resolve_right hno) hf⟩
      rcases hl with hl | hst
      · exact hp.linked v t hl
      · exact .inr (hm.stored t hst)
  | joinLock t r => exact hk
  | exitLock val => exact hk
  | wakeLock =>
      show w.ended v = some (s.routineRet v)
      rw [hret]
      exact hk
  | dead => exact hk.elim

omit [DecidableEq A] in
/-- In the code: the results in the caller's variable, and what the mutex protects. -/
theorem knows_leaves (hv : Values w s a) (hm : Marks w s a) {c : A ⊕ V} {me : Option V}
    {p : JoinPc V} (hret : ∀ v, me = some v → s.routineRet v = w.st.routineRet v)
    (hreg : ∀ t, p.waitsFor t = true → me = none → Registered w.st t c)
    (hnot : ∀ t, p.lock me = some t → ¬Stored w.st t → ¬Stored s t)
    (honly : ∀ v x, p.lock me = some v → OnlyVariable w v x →
      OnlyVariable { w with st := s } v x)
    (hk : Knows w c me p) : Knows { w with st := s } c me p := by
  have hend : (∀ v, me = some v → w.ended v = some (w.st.routineRet v)) →
      ∀ v, me = some v → w.ended v = some (s.routineRet v) := by
    intro hk v hv'
    rw [hret v hv']
    exact hk v hv'
  cases p with
  | cont k =>
      cases k with
      | user =>
          intro t r hc
          obtain ⟨hst, hf⟩ := hk t r hc
          exact ⟨hm.stored t hst, filled_leaves hv hc hst hf⟩
      | joinLock t r => exact hk
      | exitLock val => exact hk
      | wakeLock => exact hend hk
      | dead => exact hk.elim
  | joinRetval t r | joinTest t r => exact hk
  -- it has the mutex of `t`, so `t` has not stored in the meantime
  | joinNum t | joinInc t n | joinStatus t | joinHead t | joinPush t prev | joinLink t prev =>
      exact ⟨hnot t rfl hk.1, hk.2⟩
  | joinRelease t => exact ⟨hk.1, hnot t rfl hk.2.1, hk.2.2⟩
  -- a raw thread is registered as long as it waits
  | semCas t | semFutex t | semSleep t =>
      obtain ⟨hme, r, hc, hf⟩ := hk
      exact ⟨hme, r, hc, filled_fresh hv hm hc (fun _ => hreg t (decide_eq_true rfl) hme) hf⟩
  | joinOut t r => exact ⟨hk.1, hm.stored t hk.2⟩
  | joinStore t x val =>
      obtain ⟨hc, hst, hval⟩ := hk
      refine ⟨hc, hm.stored t hst, ?_⟩
      show val = s.routineRet t
      rw [hv.fixed t hst]
      exact hval
  | joinUnlock t =>
      obtain ⟨r, hc, hst, hf⟩ := hk
      exact ⟨r, hc, hm.stored t hst, filled_leaves hv hc hst hf⟩
  | exitSet val | manageRet val => exact hk
  | wakeOut x =>
      intro v hv'
      exact ⟨hend (fun u hu => (hk u hu).1) v hv', honly v x hv' (hk v hv').2⟩
  | wakeStore x val =>
      intro v hv'
      obtain ⟨-, ho, hval⟩ := hk v hv'
      refine ⟨hend (fun u hu => (hk u hu).1) v hv', honly v x hv' ho, ?_⟩
      show val = s.routineRet v
      rw [hret v hv']
      exact hval
  | _ => exact hend hk

omit [DecidableEq A] in
/-- At a point `q` of agent `b`, likewise. -/
theorem at_leaves (hv : Values w s a) (hm : Marks w s a) (hp : Places w s a)
    {q : Pc V (JoinPc V) (JoinCont V) V}
    (hret : ∀ v, runner q = some v → s.routineRet v = w.st.routineRet v)
    (hreg : ∀ t, waitsFor t q ≠ 0 → waitsFor t (w.st.pc b) ≠ 0)
    (hnot : ∀ t, Locked q t → ¬Stored w.st t → ¬Stored s t)
    (honly : ∀ v x, Locked q v → OnlyVariable w v x → OnlyVariable { w with st := s } v x)
    (hk : At w b q) : At { w with st := s } b q := by
  have hend : ∀ v, runner q = some v → w.ended v = some (w.st.routineRet v) →
      w.ended v = some (s.routineRet v) := by
    intro v hbv hk
    rw [hret v hbv]
    exact hk
  cases q with
  | exec me p =>
      refine knows_leaves hv hm hret (fun t ht hme => ?_) hnot honly hk
      subst hme
      exact hreg t (by simp [waitsFor, ht])
  | switch v r k =>
      have hcont : KnowsCont w v k → KnowsCont { w with st := s } v k :=
        knowsCont_leaves hv hm hp (hret v rfl)
      cases r with
      | mutex m => exact hcont hk
      | status st =>
          cases st with
          | finished => exact hend v rfl hk
          | _ => exact hcont hk
  | ret v r =>
      cases r with
      | mutex m => trivial
      | status st =>
          cases st with
          | finished => exact hend v rfl hk
          | _ => trivial
  | _ => trivial

omit [DecidableEq A] in
/-- **Another agent keeps what it knows.** -/
theorem at_other (h : Once w.st) (hv : Values w s a) (hm : Marks w s a) (hp : Places w s a)
    (hb : b ≠ a) (hk : At w b (w.st.pc b)) : At { w with st := s } b (w.st.pc b) := by
  have hmutex : ∀ t, Locked (w.st.pc b) t → ¬Locked (w.st.pc a) t := by
    intro t ht ha
    exact hb (h.lists.guarded.unique t b a ht ha)
  refine at_leaves hv hm hp (fun v hbv => ?_) (fun _ => id) (fun t ht hno hst => ?_)
    (fun v x hl ho c y hreg hc => ?_) hk
  · exact (hv.own v fun ha => hb (runner_unique h hbv ha)).1
  -- a new mark is made by the agent that has the mutex
  · rcases hm.fresh t hst with hold | ⟨ha, -⟩
    · exact hno hold
    · exact hmutex t ht ha
  -- and so is a new registration
  · rcases hp.registers v c hreg with ha | hreg
    · exact absurd ha (hmutex v hl)
    · exact ho c y hreg hc

/-- **What the others know survives** a step that leaves them what they need. -/
theorem others_leaves (h : Others w a) (ha : act.agent = a) (hok : SkipsOwnEnqueue w.st act)
    (hs : joinStep w.st act = some s) (hv : Values w s a) (hm : Marks w s a) (hp : Places w s a)
    (hoff : ∀ v, runner (w.st.pc a) = some v → s.done v = false →
      (∀ b, runner (s.pc b) ≠ some v) → KnowsCont { w with st := s } v (s.ctx v)) :
    Others { w with st := s } a := by
  subst ha
  have hpc : ∀ b, b ≠ act.agent → s.pc b = w.st.pc b := fun b hb => pc_other hs hb
  refine ⟨once_step h.once hok hs, fun b hb => ?_, fun b hb me hme => ?_, fun v hd hno => ?_,
    fun t ht => ?_, fun t ht => ?_, fun t ht => ?_, fun e he => ?_⟩
  · show At { w with st := s } b (s.pc b)
    rw [hpc b hb]
    exact at_other h.once hv hm hp hb (h.others b hb)
  · exact h.back b hb me ((hpc b hb).symm.trans hme)
  -- a vthread that nobody runs: the agent has just left it, or nobody ran it before
  · by_cases hrun : runner (w.st.pc act.agent) = some v
    · exact hoff v hrun hd hno
    · have hold : w.st.done v = false := by
        rw [← Bool.not_eq_true]
        intro hv
        have := done_mono hs hv
        rw [hd] at this
        cases this
      have hidle : ∀ b, runner (w.st.pc b) ≠ some v := by
        intro b hb
        by_cases hba : b = act.agent
        · subst hba
          exact hrun hb
        · exact hno b (hpc b hba ▸ hb)
      show KnowsCont { w with st := s } v (s.ctx v)
      rw [(hv.own v hrun).2]
      exact knowsCont_leaves hv hm hp (hv.own v hrun).1 (h.off v hold hidle)
  · rcases hm.posts t ht with hold | hst
    · exact hm.stored t (h.posts t hold)
    · exact hst
  · rcases hm.marked t ht with hold | hst
    · exact hm.stored t (h.marked t hold)
    · exact hst
  · rcases hm.gone t ht with hold | hst
    · show w.ended t = some (s.routineRet t)
      rw [hv.fixed t (.inl hold)]
      exact h.gone t hold
    · exact hst
  · obtain ⟨hst, hval⟩ := h.found e he
    exact ⟨hm.stored e.1 hst, hval⟩

end Frame

/-! ## §4. What survives when the agent's own calls are written down. -/

section Note

variable {w : Logged A V} {a : A} {me : Option V} {p : JoinPc V}
  {asked : A ⊕ V → Option (V × Option ℕ)} {ended : V → Option ℕ}

omit [DecidableEq A] in
theorem knows_note {c : A ⊕ V} (hc : asked c = w.asked c)
    (he : ∀ v, me = some v → ended v = w.ended v)
    (ho : ∀ v x, OnlyVariable w v x → OnlyVariable { w with asked := asked, ended := ended } v x)
    (hk : Knows w c me p) : Knows { w with asked := asked, ended := ended } c me p := by
  cases p with
  | cont k =>
      cases k with
      | user => exact fun t r ha => hk t r (hc.symm.trans ha)
      | joinLock t r => exact hc.trans hk
      | exitLock val => exact fun v hv => (he v hv).trans (hk v hv)
      | wakeLock => exact fun v hv => (he v hv).trans (hk v hv)
      | dead => exact hk.elim
  | joinRetval t r | joinTest t r => exact hc.trans hk
  | joinNum t | joinInc t n | joinStatus t | joinHead t | joinPush t prev | joinLink t prev =>
      obtain ⟨hno, r, hr⟩ := hk
      exact ⟨hno, r, hc.trans hr⟩
  | joinRelease t =>
      obtain ⟨hm, hno, r, hr⟩ := hk
      exact ⟨hm, hno, r, hc.trans hr⟩
  | semCas t | semFutex t | semSleep t =>
      obtain ⟨hm, r, hr, hf⟩ := hk
      exact ⟨hm, r, hc.trans hr, hf⟩
  | joinOut t r => exact ⟨hc.trans hk.1, hk.2⟩
  | joinStore t x val => exact ⟨hc.trans hk.1, hk.2⟩
  | joinUnlock t =>
      obtain ⟨r, hr, hrest⟩ := hk
      exact ⟨r, hc.trans hr, hrest⟩
  | wakeOut x => exact fun v hv => ⟨(he v hv).trans (hk v hv).1, ho v x (hk v hv).2⟩
  | wakeStore x val =>
      intro v hv
      obtain ⟨hend, hx, hval⟩ := hk v hv
      exact ⟨(he v hv).trans hend, ho v x hx, hval⟩
  | _ => exact fun v hv => (he v hv).trans (hk v hv)

omit [DecidableEq A] [DecidableEq V] in
theorem knowsCont_note {v : V} {k : JoinCont V} (hc : asked (.inr v) = w.asked (.inr v))
    (he : ended v = w.ended v) (hk : KnowsCont w v k) :
    KnowsCont { w with asked := asked, ended := ended } v k := by
  cases k with
  | user => exact fun t r ha => hk t r (hc.symm.trans ha)
  | joinLock t r => exact hc.trans hk
  | exitLock val => exact he.trans hk
  | wakeLock => exact he.trans hk
  | dead => exact hk.elim

omit [DecidableEq A] in
/-- Two agents in the code are two callers. -/
theorem caller_ne {b : A} {me' : Option V} {p' : JoinPc V} (h : Once w.st)
    (ha : w.st.pc a = .exec me p) (hb : w.st.pc b = .exec me' p') (hne : b ≠ a) :
    caller b me' ≠ caller a me := by
  intro he
  cases me with
  | none =>
      cases me' with
      | none => exact hne (Sum.inl.inj he)
      | some v => cases he
  | some u =>
      cases me' with
      | none => cases he
      | some v =>
          obtain rfl := Sum.inr.inj he
          exact hne (runner_unique h (v := v) (hb ▸ rfl) (ha ▸ rfl))

omit [DecidableEq A] in
/-- Whoever is on its way is not registered. -/
theorem not_registered (h : Once w.st) (hpc : w.st.pc a = .exec me p)
    (hp : ∀ t, p.waitsFor t = false) (t : V) : ¬Registered w.st t (caller a me) := by
  cases me with
  -- a vthread in a list is in nobody's hands
  | some u => exact h.lists.not_linked_of_exec hpc (.queue t)
  | none =>
      show ¬waitsFor t (w.st.pc a) ≠ 0
      rw [hpc]
      simp [waitsFor, hp t]

omit [DecidableEq A] in
theorem not_done (h : Once w.st) {v : V} (hpc : w.st.pc a = .exec (some v) p) :
    w.st.done v = false := by
  rw [← Bool.not_eq_true]
  intro hd
  exact h.lists.inPlace.not_holds_of_gone (a := a) (v := v) trivial hd (hpc ▸ .inl rfl)

omit [DecidableEq A] in
/-- A vthread that runs other code has not stored its result. -/
theorem not_stored (h : Once w.st) {v : V} (hpc : w.st.pc a = .exec (some v) p)
    (hp : p.stored = false) : ¬Stored w.st v := by
  -- only its own worker marks it
  rintro (hd | ⟨b, hb⟩)
  · rw [not_done h hpc] at hd
    cases hd
  · cases hb' : w.st.pc b with
    | exec me' p' =>
        rw [hb'] at hb
        obtain ⟨rfl, hp'⟩ := hb
        obtain rfl := runner_unique h (a := a) (b := b) (v := v) (hpc ▸ rfl) (hb' ▸ rfl)
        rw [hpc] at hb'
        obtain ⟨-, rfl⟩ := Pc.exec.inj hb'
        rw [hp] at hp'
        cases hp'
    | _ =>
        rw [hb'] at hb
        exact hb

omit [DecidableEq A] in
/-- **What the others know survives** when a call of the agent itself is written
    down, or its return. -/
theorem others_note (asked : A ⊕ V → Option (V × Option ℕ)) (ended : V → Option ℕ)
    (h : Others w a) (hpc : w.st.pc a = .exec me p) (hst : p.stored = false)
    (hw : ∀ t, p.waitsFor t = false) (hasked : ∀ c, c ≠ caller a me → asked c = w.asked c)
    (hended : ∀ v, me ≠ some v → ended v = w.ended v) :
    Others { w with asked := asked, ended := ended } a := by
  have hother : ∀ b v, b ≠ a → runner (w.st.pc b) = some v → me ≠ some v := by
    intro b v hb hv hme
    exact hb (runner_unique h.once hv (hpc ▸ hme))
  have hcont : ∀ v k, me ≠ some v → KnowsCont w v k →
      KnowsCont { w with asked := asked, ended := ended } v k := by
    intro v k hv hk
    -- a vthread that is off is not the caller
    refine knowsCont_note (hasked _ fun he => ?_) (hended v hv) hk
    cases me with
    | none => cases he
    | some u => exact hv (congrArg some (Sum.inr.inj he).symm)
  have honly : ∀ v x, OnlyVariable w v x →
      OnlyVariable { w with asked := asked, ended := ended } v x := by
    intro v x ho c y hreg hc
    -- the caller is not registered, so its variable does not matter
    have hne : c ≠ caller a me := by
      rintro rfl
      exact not_registered h.once hpc hw v hreg
    exact ho c y hreg ((hasked c hne).symm.trans hc)
  refine ⟨h.once, fun b hb => ?_, fun b hb me' hme' => ?_, fun v hd hno => ?_, h.posts, h.marked,
    fun t ht => ?_, fun e he => ?_⟩
  · have hk := h.others b hb
    show At { w with asked := asked, ended := ended } b (w.st.pc b)
    cases hb' : w.st.pc b with
    | exec me' p' =>
        rw [hb'] at hk
        have he : ∀ v, me' = some v → ended v = w.ended v :=
          fun v hv => hended v (hother b v hb (hb' ▸ hv))
        exact knows_note (hasked _ (caller_ne h.once hpc hb' hb)) he honly hk
    | switch v r k =>
        rw [hb'] at hk
        have hv : me ≠ some v := hother b v hb (hb' ▸ rfl)
        cases r with
        | mutex m => exact hcont v k hv hk
        | status st =>
            cases st with
            | finished => exact (hended v hv).trans hk
            | _ => exact hcont v k hv hk
    | ret v r =>
        rw [hb'] at hk
        cases r with
        | mutex m => trivial
        | status st =>
            cases st with
            | finished => exact (hended v (hother b v hb (hb' ▸ rfl))).trans hk
            | _ => trivial
    | _ => trivial
  · exact (hasked _ (caller_ne h.once hpc hme' hb)).trans (h.back b hb me' hme')
  · exact hcont v _ (fun hme => hno a (hpc ▸ hme)) (h.off v hd hno)
  -- the one that ends now has neither stored nor finished
  · refine (hended t fun hme => ?_).trans (h.gone t ht)
    have hnot := not_done h.once (v := t) (hme ▸ hpc)
    rw [ht] at hnot
    cases hnot
  · obtain ⟨hstored, hval⟩ := h.found e he
    refine ⟨hstored, (hended e.1 fun hme => ?_).trans hval⟩
    exact not_stored h.once (v := e.1) (hme ▸ hpc) hst hstored

end Note

end HThread.Join
