/-
  HThread.Join.Finish — a vthread that has handed over STATUS_FINISHED.

  Its worker runs `wake_up_joined` for it, on the worker's own stack.  The lock
  loop there yields as if it were the vthread: if some joiner has `join_mutex`
  at that moment, the worker is told STATUS_LOCKFAIL and enqueues the finished
  vthread, which another worker will resume.  Where that does not happen, and
  no vthread was enqueued by line 162, finished is final, and the worker is
  done with `wake_up_joined` after a number of steps that it can tell as soon
  as it has the mutex.

  Key lemmas:
    * `left_own`, `left_other` — each step of the worker brings it closer to the
      end of `wake_up_joined`, no other step pushes it back.
    * `finished_final`         — runs without the two accidents.
    * `finished_enqueued`      — the run in which a finished vthread is resumed.
-/
import HThread.Join.HandOff

namespace HThread.Join

open Interleave
open Function (update)

variable {A V : Type} [DecidableEq A] [DecidableEq V]

/-! ## §1. Finished is final. -/

/-- The worker that comes to `wake_up_joined` finds the mutex free. -/
def Uncontended (s : JoinState A V) : JoinAct A V → Prop
  | .go a => ∀ v, s.pc a = .exec (some v) (.cont .wakeLock) → s.c v = false
  | _ => True

/-- The step is none of the two accidents. -/
def Calm (s : JoinState A V) (act : JoinAct A V) : Prop :=
  Uncontended s act ∧ SkipsOwnEnqueue s act

/-- In `wake_up_joined`, with the mutex taken. -/
def JoinPc.late : JoinPc V → Bool
  | .cont _ => false
  | p => p.wakes

/-- A bound on the steps that `wake_up_joined` of `v` still takes: four for each
    joiner in the list, two for each post. -/
def left (s : JoinState A V) (a : A) (v : V) : JoinPc V → ℕ
  | .wakeRetval =>
      13 + 4 * (s.linked (.queue v)).length + 2 * (s.joinWaitersNum v).toNat
  | .wakeOut _ => 12 + 4 * (s.linked (.queue v)).length + 2 * (s.joinWaitersNum v).toNat
  | .wakeStore _ _ => 11 + 4 * (s.linked (.queue v)).length + 2 * (s.joinWaitersNum v).toNat
  | .wakeStatus => 10 + 4 * (s.linked (.queue v)).length + 2 * (s.joinWaitersNum v).toNat
  | .wakeNum => 9 + 4 * (s.linked (.queue v)).length + 2 * (s.joinWaitersNum v).toNat
  | .wakeWaiters => 8 + 4 * (s.linked (.queue v)).length + 2 * (s.joinWaitersNum v).toNat
  | .wakeZero n => 7 + 4 * (s.linked (.queue v)).length + 2 * n.toNat
  | .wakeHead n => 6 + 4 * (s.linked (.queue v)).length + 2 * n.toNat
  | .wakeNull n _ => 5 + 4 * (s.linked (.queue v)).length + 2 * n.toNat
  | .wakeUnlock n _ => 4 + 4 * (s.linked (.cut a)).length + 2 * n.toNat
  | .wakeCheck n _ => 3 + 4 * (s.linked (.cut a)).length + 2 * n.toNat
  | .wakeDeq n _ => 2 + 4 * (s.linked (.cut a)).length + 2 * n.toNat
  | .wakeClear n _ _ => 5 + 4 * (s.linked (.cut a)).length + 2 * n.toNat
  | .wakeSet n _ _ => 4 + 4 * (s.linked (.cut a)).length + 2 * n.toNat
  | .wakeEnq n _ _ => 3 + 4 * (s.linked (.cut a)).length + 2 * n.toNat
  | .wakeFutex n => 2 + 2 * n.toNat
  | .wakePost n => 1 + 2 * n.toNat
  | _ => 0

/-- However the run goes on from `s`, once agent `a` has made more than `n` steps
    `v` has had its joiners woken. -/
def DoneWithin (n : ℕ) (s : JoinState A V) (a : A) (v : V) : Prop :=
  ∀ acts u, joining.run s acts = some u → joining.StepsMeet Calm s acts →
    n < acts.countP (fun act => act.agent = a) → u.done v = true

/-- Agent `a`, at `p` in `wake_up_joined` of `v`, will come to its end: its next
    step takes the mutex, or the rest is bounded. -/
def Proceeds (s : JoinState A V) (a : A) (v : V) (p : JoinPc V) : Prop :=
  (∃ act, act.agent = a ∧ (joinStep s act).isSome = true)
    ∧ if p.late then DoneWithin (left s a v p) s a v
      else ∀ act s', act.agent = a → Calm s act → joinStep s act = some s' →
        s'.pc a = .exec (some v) .wakeRetval

/-- A vthread that handed over STATUS_FINISHED is not in `vs_queue`, in no
    worker's hands and does not run again, and its joiners are being woken or
    have been. -/
structure Final (s : JoinState A V) (v : V) : Prop where
  away : v ∉ s.vsQueue
  unseen : ∀ a, s.pc a ≠ .got v ∧ s.pc a ≠ .putBack v ∧ s.pc a ≠ .resume v
  still : ∀ a p, s.pc a = .exec (some v) p → p.wakes = true
  served : s.done v = true ∨ ∃ a p, s.pc a = .exec (some v) p ∧ p.wakes = true ∧ Proceeds s a v p

/-- Finished is final. -/
def FinishedFinal (s : JoinState A V) : Prop := ∀ v, s.handed v = true → Final s v

/-- What calm runs keep. -/
structure Ended (s : JoinState A V) : Prop where
  lists : Lists s
  handed : ∀ v, s.handed v = true →
    s.done v = true ∨ ∃ a p, s.pc a = .exec (some v) p ∧ p.wakes = true

/-! ## §2. The invariant. -/

section Keep

variable {s s' : JoinState A V} {act : JoinAct A V}

/-- What is done stays done. -/
theorem done_mono (hs : joinStep s act = some s') {v : V} (hv : s.done v = true) :
    s'.done v = true := by
  cases joinStep_effect hs with
  | code me p _ hpc hcode =>
      cases hcode with
      | finish w hme hp =>
          show update s.done w true v = true
          by_cases hvw : v = w
          · rw [hvw, Function.update_self]
          · rw [Function.update_of_ne hvw]
            exact hv
      | _ => exact hv
  | _ => exact hv

/-- A step in `wake_up_joined` stays there or ends it, if the mutex is free. -/
theorem wakes_code {a : A} {v : V} {p : JoinPc V} (hpc : s.pc a = .exec (some v) p)
    (hw : p.wakes = true) (hfree : p = .cont .wakeLock → s.c v = false)
    (hcode : CodeEffect s a (some v) p s') :
    s'.done v = true ∨ ∃ p', s'.pc a = .exec (some v) p' ∧ p'.wakes = true := by
  have hgo : ∀ p' : JoinPc V, p'.wakes = true →
      ∃ q, update s.pc a (.exec (some v) p') a = .exec (some v) q ∧ q.wakes = true := by
    intro p' hp'
    exact ⟨p', by rw [Function.update_self], hp'⟩
  cases hcode with
  | quiet rv rr cl ft sl p' hq => exact .inr (hgo p' (hq.wakes.trans hw))
  | acquire t p' hp hc =>
      cases hp with
      | wake => exact .inr (hgo _ rfl)
      | _ => cases hw
  | unlock t p' hp =>
      cases hp with
      | wake n h => exact .inr (hgo _ rfl)
      | _ => cases hw
  | mark w hme hp | zero w n hme hp | cut w n h hme hp | take w n x hme hp | clear w n x h hme hp
  | suspend w n x h hme hp | wake w n x h hme hp => exact .inr (hgo _ rfl)
  | finish w hme hp =>
      obtain rfl := Option.some.inj hme
      exact .inl (Function.update_self ..)
  | yield w st k k' hme hk hst =>
      obtain rfl := Option.some.inj hme
      subst hk
      rcases hst with ⟨-, rfl⟩ | ⟨-, t, p', hp, hc⟩
      · cases hw
      · cases hp with
        | wake =>
            rw [hfree rfl] at hc
            cases hc
        | _ => cases hw
  | crash k hk hne =>
      subst hk
      cases k with
      | wakeLock => exact absurd rfl hne
      | _ => cases hw
  | exit w hme hp | ret w val hme hp | block w t hme hp | push w t prev hme hp
  | link w t prev hme hp =>
      subst hp
      cases hw
  | count t n p' hp hp' =>
      subst hp
      cases hw

/-- Another agent's point stays. -/
theorem pc_other (hs : joinStep s act = some s') {b : A} (hb : b ≠ act.agent) :
    s'.pc b = s.pc b := by
  cases joinStep_effect hs with
  | code me p _ hpc hcode => cases hcode <;> exact Function.update_of_ne hb _ _
  | _ => exact Function.update_of_ne hb _ _

/-- The step in the code that an action of an agent there is. -/
theorem code_of_exec {a : A} {me : Option V} {p : JoinPc V} (hs : joinStep s act = some s')
    (ha : act.agent = a) (hpc : s.pc a = .exec me p) : CodeEffect s a me p s' := by
  subst ha
  cases joinStep_effect hs with
  | code me' p' _ hpc' hcode =>
      rw [hpc] at hpc'
      obtain ⟨rfl, rfl⟩ := Pc.exec.inj hpc'
      exact hcode
  | dequeue v hpc' hv =>
      rw [hpc] at hpc'
      cases hpc'
  | release v t hpc' =>
      rw [hpc] at hpc'
      cases hpc'
  | move q run k n p' hgo hwork hmove => exact absurd hpc ((move_facts hmove).2.2.1 me p)

/-- In a calm run a step from the lock loop finds the mutex free. -/
theorem Calm.free (hok : Calm s act) (hs : joinStep s act = some s') {v : V} {p : JoinPc V}
    (hpc : s.pc act.agent = .exec (some v) p) (hp : p = .cont .wakeLock) : s.c v = false := by
  subst hp
  cases act with
  | go a => exact hok.1 v hpc
  | call a f =>
      simp only [JoinAct.agent] at hpc
      simp only [joinStep, hpc] at hs
      cases hs
  | pick a w =>
      simp only [JoinAct.agent] at hpc
      simp only [joinStep, getAndWork, hpc] at hs
      cases hs
  | rouse a b =>
      simp only [JoinAct.agent] at hpc
      simp only [joinStep, hpc] at hs
      cases hs

theorem ended_step (h : Ended s) (hok : Calm s act) (hs : joinStep s act = some s') :
    Ended s' := by
  refine ⟨lists_step h.lists hok.2 hs, fun v hv => ?_⟩
  -- a vthread handed over before
  have hold : s.handed v = true →
      s'.done v = true ∨ ∃ a p, s'.pc a = .exec (some v) p ∧ p.wakes = true := by
    intro hv
    rcases h.handed v hv with hd | ⟨a, p, hpc, hw⟩
    · exact .inl (done_mono hs hd)
    · by_cases ha : a = act.agent
      · subst ha
        have hcode := code_of_exec hs rfl hpc
        exact (wakes_code hpc hw (hok.free hs hpc) hcode).imp id
          fun ⟨p', hp', hw'⟩ => ⟨_, p', hp', hw'⟩
      · exact .inr ⟨a, p, (pc_other hs ha).trans hpc, hw⟩
  cases joinStep_effect hs with
  | code me p _ hpc hcode =>
      refine hold ?_
      cases hcode <;> exact hv
  | dequeue w hpc hw => exact hold hv
  | release w t hpc => exact hold hv
  | move q run k n p' hgo hwork hmove =>
      cases hpc : s.pc act.agent with
      | ret w r =>
          cases r with
          | status st =>
              cases st with
              | finished =>
                  by_cases hvw : v = w
                  · -- the worker turns to `wake_up_joined`
                    subst hvw
                    have hp' : p' = finishVthread v := by
                      rw [hpc] at hmove
                      cases hmove with
                      | finish => rfl
                      | plain _ _ _ hfin _ => exact absurd rfl (hfin v)
                    refine .inr ⟨act.agent, .cont .wakeLock, ?_, rfl⟩
                    show update s.pc act.agent p' act.agent = _
                    rw [Function.update_self, hp']
                    rfl
                  · refine hold ?_
                    simp only [hpc] at hv
                    rw [Function.update_of_ne hvw] at hv
                    exact hv
              | _ =>
                  simp only [hpc] at hv
                  exact hold hv
          | mutex m =>
              simp only [hpc] at hv
              exact hold hv
      | _ =>
          simp only [hpc] at hv
          exact hold hv

theorem ended_keeps : (joining (A := A) (V := V)).Keeps Calm Ended where
  start s hs := by
    refine ⟨lists_keeps.start s hs, fun v hv => ?_⟩
    obtain ⟨raw, ready, -, rfl⟩ := hs
    cases hv
  step _ _ _ h hok hs := ended_step h hok hs

end Keep

/-! ## §3. To the end. -/

section Left

variable {s s' : JoinState A V} {act : JoinAct A V} {a : A} {v : V} {p : JoinPc V}

omit [DecidableEq A] [DecidableEq V] in
/-- Late points are points of `wake_up_joined`. -/
theorem wakes_of_late (hp : p.late = true) : p.wakes = true := by
  cases p with
  | cont k => cases hp
  | _ => exact hp

/-- The worker's own step from a late point is one of `wake_up_joined`, or the
    wake-up call inside it. -/
theorem late_step (ha : act.agent = a) (hpc : s.pc a = .exec (some v) p) (hp : p.late = true)
    (hs : joinStep s act = some s') :
    wakeUpJoined s a v p = some s' ∨ ∃ b, futexWake s a v b p = some s' := by
  cases act with
  | go b =>
      obtain rfl : b = a := ha
      simp only [joinStep, hpc, joinCode, wakes_of_late hp, if_true] at hs
      exact .inl hs
  | rouse b x =>
      obtain rfl : b = a := ha
      simp only [joinStep, hpc] at hs
      exact .inr ⟨x, hs⟩
  | call b f =>
      -- no call starts from inside `wake_up_joined`
      obtain rfl : b = a := ha
      simp only [joinStep, hpc] at hs
      split at hs
      · next me he =>
          obtain ⟨-, rfl⟩ := Pc.exec.inj he
          cases hp
      · cases hs
  | pick b w =>
      obtain rfl : b = a := ha
      simp only [joinStep, getAndWork, hpc] at hs
      cases hs

/-- A step of the worker itself. -/
theorem left_own (h : Lists s) (ha : act.agent = a) (hpc : s.pc a = .exec (some v) p)
    (hp : p.late = true) (hs : joinStep s act = some s') :
    s'.done v = true ∨ ∃ p', s'.pc a = .exec (some v) p' ∧ p'.late = true
      ∧ left s' a v p' < left s a v p := by
  have hcuts := h.cuts a
  rw [hpc] at hcuts
  have hcut : p.cutHead = none → (s.linked (.cut a)).length = 0 := by
    intro hnone
    rw [h.cut_nil (by rw [hpc]; exact hnone)]
    rfl
  have hcov : p.Covers (s.linked (.cut a)).length := hcuts.2
  have hgo : ∀ (t : JoinState A V) (p' : JoinPc V), t.pc = update s.pc a (.exec (some v) p') →
      p'.late = true → left t a v p' < left s a v p →
      ∃ q, t.pc a = .exec (some v) q ∧ q.late = true ∧ left t a v q < left s a v p := by
    intro t p' ht hl hlt
    refine ⟨p', ?_, hl, hlt⟩
    rw [ht, Function.update_self]
  have hstep := late_step ha hpc hp hs
  rcases hstep with hstep | ⟨b, hstep⟩
  · cases p with
    | cont k => cases hp
    | wakeOut _ | wakeStore _ _ | wakeStatus | wakeWaiters | wakeZero _ | wakeHead _
    | wakeUnlock _ _ | wakeClear _ _ _ | wakeSet _ _ _ =>
        obtain rfl := Option.some.inj hstep
        refine .inr (hgo _ _ rfl rfl ?_)
        simp only [left, JoinState.goto]
        omega
    | wakeRetval =>
        obtain rfl := Option.some.inj hstep
        refine .inr ?_
        cases s.retval v with
        | some x =>
            refine hgo _ (.wakeOut x) rfl rfl ?_
            simp only [left, JoinState.goto]
            omega
        | none =>
            refine hgo _ .wakeStatus rfl rfl ?_
            simp only [left, JoinState.goto]
            omega
    | wakeNum =>
        obtain rfl := Option.some.inj hstep
        refine .inr ?_
        by_cases hn : s.joinWaitersNum v = 0
        · rw [if_pos hn]
          have hlen := hcut rfl
          refine hgo _ _ rfl rfl ?_
          simp only [left, JoinState.goto]
          omega
        · rw [if_neg hn]
          refine hgo _ _ rfl rfl ?_
          simp only [left, JoinState.goto]
          omega
    | wakeNull n hd =>
        obtain rfl := Option.some.inj hstep
        refine .inr (hgo _ _ rfl rfl ?_)
        simp only [left, JoinState.goto, Function.update_self]
        omega
    | wakeCheck n hd =>
        obtain rfl := Option.some.inj hstep
        by_cases hn : n = 0
        · rw [if_pos hn]
          exact .inl (Function.update_self ..)
        · rw [if_neg hn]
          refine .inr (hgo _ _ rfl rfl ?_)
          simp only [left, JoinState.goto]
          omega
    | wakeDeq n hd =>
        cases hd with
        | none =>
            obtain rfl := Option.some.inj hstep
            refine .inr (hgo _ _ rfl rfl ?_)
            simp only [left]
            omega
        | some w =>
            obtain rfl := Option.some.inj hstep
            obtain ⟨l, hl, -⟩ := hcuts.1.uncons
            refine .inr (hgo _ _ rfl rfl ?_)
            simp only [left, JoinState.goto, Function.update_self]
            rw [hl, List.erase_cons_head, List.length_cons]
            omega
    | wakeEnq n w hd =>
        obtain rfl := Option.some.inj hstep
        have hn : ((s.linked (.cut a)).length : ℤ) + 1 ≤ n := hcov
        refine .inr (hgo _ _ rfl rfl ?_)
        simp only [left, JoinState.goto]
        omega
    | wakePost n =>
        obtain rfl := Option.some.inj hstep
        have hn : 0 ≤ n := hcov
        by_cases h0 : n = 0
        · rw [if_pos h0]
          exact .inl (Function.update_self ..)
        · rw [if_neg h0]
          refine .inr ?_
          split
          · refine hgo _ _ rfl rfl ?_
            simp only [left]
            omega
          · refine hgo _ _ rfl rfl ?_
            simp only [left]
            omega
    | wakeFutex n =>
        simp only [wakeUpJoined, Option.ite_none_right_eq_some] at hstep
        obtain ⟨-, hstep⟩ := hstep
        obtain rfl := Option.some.inj hstep
        refine .inr (hgo _ _ rfl rfl ?_)
        simp only [left]
        omega
    | _ => cases hp
  · cases p with
    | wakeFutex n =>
        simp only [futexWake, Option.ite_none_right_eq_some] at hstep
        obtain ⟨-, hstep⟩ := hstep
        obtain rfl := Option.some.inj hstep
        refine .inr (hgo _ _ rfl rfl ?_)
        simp only [left]
        omega
    | _ => cases hstep

/-- A step of anybody else. -/
theorem left_other (h : Lists s) (hne : a ≠ act.agent) (hpc : s.pc a = .exec (some v) p)
    (hs : joinStep s act = some s') : left s' a v p = left s a v p := by
  have hcut : s'.linked (.cut a) = s.linked (.cut a) := by
    cases joinStep_effect hs with
    | code me q _ hpc' hcode =>
        cases hcode with
        | link w t prev hme hq =>
            show update s.linked (.queue t) (w :: s.linked (.queue t)) (.cut a) = _
            rw [Function.update_of_ne (cut_ne_queue a t)]
        | cut w n hd hme hq =>
            show update (update s.linked (.queue w) []) (.cut act.agent) (s.linked (.queue w)) (.cut a)
              = _
            rw [Function.update_of_ne fun he => hne (JoinList.cut.inj he),
              Function.update_of_ne (by simp)]
        | take w n x hme hq =>
            exact Function.update_of_ne (fun he => hne (JoinList.cut.inj he)) _ _
        | _ => rfl
    | _ => rfl
  by_cases hlock : p.lock (some v) = some v
  · -- the other agent does not have the mutex of `v`
    have hno : ∀ me q, s.pc act.agent = .exec me q → q.lock me ≠ some v := by
      intro me q hq hl
      exact hne (h.guarded.unique v a act.agent (hpc ▸ hlock) (hq ▸ hl))
    have hqueue : s'.linked (.queue v) = s.linked (.queue v)
        ∧ s'.joinWaitersNum v = s.joinWaitersNum v := by
      cases joinStep_effect hs with
      | code me q _ hpc' hcode =>
          have hnl := hno me q hpc'
          cases hcode with
          | count t n q' hq hq' =>
              subst hq
              have htv : v ≠ t := fun he => hnl (congrArg some he.symm)
              exact ⟨rfl, Function.update_of_ne htv _ _⟩
          | link w t prev hme hq =>
              subst hq
              have htv : v ≠ t := fun he => hnl (congrArg some he.symm)
              exact ⟨Function.update_of_ne (fun he => htv (JoinList.queue.inj he)) _ _, rfl⟩
          | zero w n hme hq =>
              subst hq
              have htv : v ≠ w := fun he => hnl (hme.trans (congrArg some he.symm))
              exact ⟨rfl, Function.update_of_ne htv _ _⟩
          | cut w n hd hme hq =>
              subst hq
              have htv : v ≠ w := fun he => hnl (hme.trans (congrArg some he.symm))
              refine ⟨?_, rfl⟩
              show update (update s.linked (.queue w) []) (.cut act.agent) (s.linked (.queue w))
                (.queue v) = _
              rw [Function.update_of_ne (by simp),
                Function.update_of_ne fun he => htv (JoinList.queue.inj he)]
          | take w n x hme hq =>
              refine ⟨?_, rfl⟩
              show update s.linked (.cut act.agent) ((s.linked (.cut act.agent)).erase x) (.queue v) = _
              rw [Function.update_of_ne (cut_ne_queue act.agent v).symm]
          | _ => exact ⟨rfl, rfl⟩
      | _ => exact ⟨rfl, rfl⟩
    cases p <;> simp only [left, hcut, hqueue.1, hqueue.2]
  · cases p with
    | wakeRetval | wakeOut _ | wakeStore _ _ | wakeStatus | wakeNum | wakeWaiters | wakeZero _
    | wakeHead _ | wakeNull _ _ => exact absurd rfl hlock
    | _ => simp only [left, hcut]

/-- **Bounded from the mutex on.** -/
theorem doneWithin : ∀ (acts : List (JoinAct A V)) (s u : JoinState A V) (p : JoinPc V), Ended s →
    s.pc a = .exec (some v) p → p.late = true → joining.run s acts = some u →
    joining.StepsMeet Calm s acts → left s a v p < acts.countP (fun act => act.agent = a) →
    u.done v = true := by
  have hdone : ∀ (acts : List (JoinAct A V)) (s u : JoinState A V), s.done v = true →
      joining.run s acts = some u → u.done v = true := by
    intro acts
    induction acts with
    | nil =>
        intro s u hd hrun
        obtain rfl := Option.some.inj hrun
        exact hd
    | cons act acts ih =>
        intro s u hd hrun
        obtain ⟨t, hs, hrest⟩ := Machine.run_cons hrun
        exact ih t u (done_mono hs hd) hrest
  intro acts
  induction acts with
  | nil =>
      intro s u p h hpc hp hrun hok hlt
      exact absurd hlt (Nat.not_lt_zero _)
  | cons act acts ih =>
      intro s u p h hpc hp hrun hok hlt
      obtain ⟨t, hs, hrest⟩ := Machine.run_cons hrun
      have ht := ended_step h hok.1 hs
      have hok' := hok.2 t hs
      by_cases ha : act.agent = a
      · rw [List.countP_cons_of_pos (by simpa using ha)] at hlt
        rcases left_own h.lists ha hpc hp hs with hd | ⟨p', hpc', hp', hlt'⟩
        · exact hdone acts t u hd hrest
        · exact ih t u p' ht hpc' hp' hrest hok' (by omega)
      · rw [List.countP_cons_of_neg (by simpa using ha)] at hlt
        have hne : a ≠ act.agent := fun he => ha he.symm
        rw [← left_other h.lists hne hpc hs] at hlt
        exact ih t u p ht ((pc_other hs hne).trans hpc) hp hrest hok' hlt

/-- A worker in `wake_up_joined` can always take a step. -/
theorem canStep (hpc : s.pc a = .exec (some v) p) (hw : p.wakes = true) :
    ∃ act, act.agent = a ∧ (joinStep s act).isSome = true := by
  have hgo : joinStep s (.go a) = wakeUpJoined s a v p := by
    simp only [joinStep, hpc, joinCode, hw, if_true]
    rfl
  cases p with
  | cont k =>
      cases k with
      | wakeLock => exact ⟨.go a, rfl, by rw [hgo]; rfl⟩
      | _ => cases hw
  | wakeDeq n hd => cases hd <;> exact ⟨.go a, rfl, by rw [hgo]; rfl⟩
  | wakeFutex n =>
      cases hsl : s.sleepers v with
      | nil =>
          refine ⟨.go a, rfl, ?_⟩
          rw [hgo]
          simp only [wakeUpJoined, hsl, if_true]
          rfl
      | cons b l =>
          refine ⟨.rouse a b, rfl, ?_⟩
          have hb : b ∈ s.sleepers v := hsl ▸ List.mem_cons_self
          simp only [joinStep, hpc, futexWake, if_pos hb]
          rfl
  | wakeRetval | wakeOut _ | wakeStore _ _ | wakeStatus | wakeNum | wakeWaiters | wakeZero _
  | wakeHead _ | wakeNull _ _ | wakeUnlock _ _ | wakeCheck _ _ | wakeClear _ _ _ | wakeSet _ _ _
  | wakeEnq _ _ _ | wakePost _ => exact ⟨.go a, rfl, by rw [hgo]; rfl⟩
  | _ => cases hw

theorem proceeds (h : Ended s) (hpc : s.pc a = .exec (some v) p) (hw : p.wakes = true) :
    Proceeds s a v p := by
  refine ⟨canStep hpc hw, ?_⟩
  split
  · next hp => exact fun acts u hrun hok hlt => doneWithin acts s u p h hpc hp hrun hok hlt
  · next hp =>
      intro act s' ha hok hs
      have hlock : p = .cont .wakeLock := by
        cases p with
        | cont k =>
            cases k with
            | wakeLock => rfl
            | _ => cases hw
        | _ => exact absurd hw hp
      subst ha
      have hc := hok.free hs hpc hlock
      subst hlock
      cases act with
      | go b =>
          simp only [JoinAct.agent] at hpc ⊢
          simp only [joinStep, hpc, joinCode, hw, if_true] at hs
          obtain rfl := Option.some.inj hs
          simp [lockLoop, hc, JoinState.goto]
      | call b f =>
          simp only [JoinAct.agent] at hpc
          simp only [joinStep, hpc] at hs
          cases hs
      | pick b w =>
          simp only [JoinAct.agent] at hpc
          simp only [joinStep, getAndWork, hpc] at hs
          cases hs
      | rouse b x =>
          simp only [JoinAct.agent] at hpc
          simp only [joinStep, hpc] at hs
          cases hs

end Left

/-! ## §4. Calm runs, and one that is not. -/

theorem Ended.final {s : JoinState A V} (h : Ended s) : FinishedFinal s := by
  intro v hv
  rcases h.handed v hv with hd | ⟨a, p, hpc, hw⟩
  · have hgone : ∀ a, ¬(s.pc a).Holds joinShape v := fun a =>
      h.lists.inPlace.not_holds_of_gone trivial hd
    refine ⟨h.lists.inPlace.not_mem_of_gone (b := none) trivial hd, fun a => ⟨?_, ?_, ?_⟩,
      fun a p hp => ?_, .inl hd⟩
    · exact fun he => hgone a (he ▸ rfl)
    · exact fun he => hgone a (he ▸ rfl)
    · exact fun he => hgone a (he ▸ rfl)
    · have hno := hgone a
      rw [hp] at hno
      exact (hno (.inl rfl)).elim
  · have hheld : (s.pc a).Holds joinShape v := hpc ▸ .inl rfl
    -- everybody who has it is that worker
    have honly : ∀ b, (s.pc b).Holds joinShape v → s.pc b = .exec (some v) p := by
      intro b hb
      rw [h.lists.inPlace.holder_unique trivial hb hheld]
      exact hpc
    have hnot : ∀ b (q : Pc V (JoinPc V) (JoinCont V) V), q.Holds joinShape v →
        (∀ p, q ≠ .exec (some v) p) → s.pc b ≠ q := by
      intro b q hq hne he
      have heq := honly b (he ▸ hq)
      exact hne p (he ▸ heq)
    refine ⟨h.lists.inPlace.not_mem_of_holds (b := none) trivial hheld, fun b => ⟨?_, ?_, ?_⟩,
      fun b q hq => ?_, .inr ⟨a, p, hpc, hw, proceeds h hpc hw⟩⟩
    · exact hnot b _ rfl (by simp)
    · exact hnot b _ rfl (by simp)
    · exact hnot b _ rfl (by simp)
    · have heq := honly b (hq ▸ .inl rfl)
      rw [hq] at heq
      obtain ⟨-, rfl⟩ := Pc.exec.inj heq
      exact hw

/-- **Finished is final** in every run in which no worker finds the mutex taken in
    `wake_up_joined` and none comes to line 162. -/
theorem finished_final {s : JoinState A V} {acts : List (JoinAct A V)} (hs : joining.init s)
    (hok : joining.StepsMeet Calm s acts) : joining.Always FinishedFinal s acts :=
  ended_keeps.always (fun _ => Ended.final) hs hok

/-- `Calm`, computed. -/
def calmB (s : JoinState A V) : JoinAct A V → Bool
  | .go a =>
      match s.pc a with
      | .exec (some v) (.cont .wakeLock) => !s.c v
      | .wakeSelf _ => false
      | _ => true
  | _ => true

omit [DecidableEq A] [DecidableEq V] in
theorem calm_of_calmB (s : JoinState A V) (act : JoinAct A V) (h : calmB s act = true) :
    Calm s act := by
  cases act with
  | go a =>
      simp only [calmB] at h
      refine ⟨fun v hv => ?_, fun v hv => ?_⟩
      · simpa [hv] using h
      · simp [hv] at h
  | _ => exact ⟨trivial, trivial⟩

/-- Vthread 0 joins vthread 1, which returns and has its joiners woken. -/
def quietActs : List (JoinAct (Fin 3) (Fin 2)) := joinActs 13 ++ finishActs 19

/-- Vthread 0 has the mutex of vthread 1 when the worker of vthread 1 comes to
    `wake_up_joined`; then worker 2 dequeues the finished vthread. -/
def contendedActs : List (JoinAct (Fin 3) (Fin 2)) :=
  joinActs 1 ++ finishActs 6 ++ [.pick 2 1, .go 2]

theorem finished_final_quiet :
    ∃ t, joining.run threeWorkers quietActs = some t ∧ t.handed 1 = true ∧ t.done 1 = true
      ∧ t.vsQueue = [0] ∧ joining.Always FinishedFinal threeWorkers quietActs :=
  ⟨_, rfl, rfl, rfl, rfl, finished_final threeWorkers_init
    (Machine.stepsMeet_of_check calm_of_calmB quietActs threeWorkers rfl)⟩

/-- A finished vthread is enqueued, and a worker is about to resume it. -/
theorem finished_enqueued :
    ∃ t u, joining.init threeWorkers
      ∧ joining.run threeWorkers (joinActs 1 ++ finishActs 6) = some t
      ∧ t.handed 1 = true ∧ t.vsQueue = [1]
      ∧ joining.run threeWorkers contendedActs = some u ∧ u.handed 1 = true ∧ u.pc 2 = .resume 1
      ∧ ¬joining.Always FinishedFinal threeWorkers contendedActs := by
  refine ⟨_, _, threeWorkers_init, rfl, rfl, rfl, rfl, rfl, rfl, fun hA => ?_⟩
  exact ((hA.last rfl 1 rfl).unseen 2).2.2 rfl

end HThread.Join
