/-
  HThread.Join.HandOff — every joiner is handed over once, but for line 162.

  A joiner registers in the list of its target and leaves; its worker releases
  `join_mutex` and then looks at `cur_status`, whether it is to enqueue the
  joiner itself (line 162).  In between the target may finish: its
  `wake_up_joined` gets the mutex, sets the joiner's `cur_status` and enqueues
  it.  The worker then enqueues it a second time.  This is the only way in
  which the hand-over fails.

  Key lemmas:
    * `once_keeps`    — the invariant of the runs without line 162.
    * `joined_iff`    — the exact condition on a run.
    * `finish_in_gap` — the run in which two workers run one joiner.
-/
import HThread.Interleave.Tally
import HThread.Join.Lists

namespace HThread.Join

open Interleave
open Function (update)

variable {A V : Type} [DecidableEq A] [DecidableEq V]

/-! ## §1. What a hand-over should be. -/

/-- `v` is registered as a joiner, or `wake_up_joined` has taken it out of a list
    and not yet enqueued it. -/
def Waits (s : JoinState A V) (v : V) : Prop :=
  (∃ b, v ∈ s.linked b) ∨ ∃ a, (s.pc a).InHand joinShape v

/-- Every registration of `v` is answered by one enqueue: by `wake_up_joined` or
    by line 162. -/
def Answered (s : JoinState A V) (v : V) : Prop :=
  Ahead (Waits s v) (s.pushes v) (s.puts v + s.selfPuts v)

/-- For every registration of `v` its worker releases the mutex once. -/
def Released (s : JoinState A V) (v : V) : Prop :=
  Ahead (∃ a t, Passing (s.pc a) v t) (s.pushes v) (s.releases v)

/-- A vthread occurs at most once in `vs_queue`, never while it waits to be
    woken, and is run by one agent; each registration of a joiner is answered by
    one enqueue, after its worker has released the mutex for it, and a target
    that is done has no joiner left. -/
structure JoinedOnce (s : JoinState A V) : Prop where
  once : ∀ v, s.vsQueue.count v ≤ 1
  apart : ∀ v, Waits s v → v ∉ s.vsQueue
  alone : ∀ v a a', (s.pc a).Runs v → (s.pc a').Runs v → a = a'
  answered : ∀ v, Answered s v
  after : ∀ a v, (s.pc a).InHand joinShape v → s.releases v = s.pushes v
  served : ∀ t, s.done t = true → s.linked (.queue t) = []

/-- What runs without the enqueue of line 162 keep. -/
structure Once (s : JoinState A V) : Prop where
  lists : Lists s
  answered : ∀ v, Answered s v
  released : ∀ v, Released s v
  moving : ∀ a v k, s.pc a ≠ .switch v (.status .blocked) k

namespace Once

variable {s : JoinState A V}

omit [DecidableEq A]

/-- Whoever is on a vthread's stack has it in hand or passes its mutex on. -/
theorem holds_or_passing (h : Once s) {a : A} {v : V} (hr : (s.pc a).Runs v) :
    (s.pc a).Holds joinShape v ∨ ∃ t, Passing (s.pc a) v t := by
  cases hpc : s.pc a with
  | exec me p =>
      rw [hpc] at hr
      exact .inl (.inl hr)
  | switch w r k =>
      rw [hpc] at hr
      cases r with
      | mutex t => exact .inr ⟨t, hr.symm, rfl⟩
      | status st =>
          cases st with
          | blocked => exact absurd hpc (h.moving a w k)
          | _ => exact .inl ⟨hr, rfl⟩
  | _ =>
      rw [hpc] at hr
      exact hr.elim

/-- A joiner whose mutex is still to be released is in a list, so nobody has it. -/
theorem not_holds_of_passing (h : Once s) {a b : A} {v t : V} (hp : Passing (s.pc a) v t) :
    ¬(s.pc b).Holds joinShape v := fun hb =>
  h.lists.inPlace.not_mem_of_holds (b := some (.queue t)) trivial hb (h.lists.passing a v t hp)

/-- One agent at a time passes on the mutex for a joiner. -/
theorem passing_unique (h : Once s) {a b : A} {v t t' : V} (ha : Passing (s.pc a) v t)
    (hb : Passing (s.pc b) v t') : a = b := by
  have hq := h.lists.inPlace.bag_unique (b := some (.queue t)) (d := some (.queue t')) trivial
    (h.lists.passing a v t ha) (h.lists.passing b v t' hb)
  obtain rfl := JoinList.queue.inj (Option.some.inj hq)
  exact h.lists.guarded.unique t a b (Locked.of_passing ha) (Locked.of_passing hb)

/-- **No two agents on one stack.** -/
theorem runs_unique (h : Once s) {a b : A} {v : V} (ha : (s.pc a).Runs v) (hb : (s.pc b).Runs v) :
    a = b := by
  rcases h.holds_or_passing ha with ha | ⟨t, ha⟩
  · rcases h.holds_or_passing hb with hb | ⟨t, hb⟩
    · exact h.lists.inPlace.holder_unique trivial ha hb
    · exact absurd ha (h.not_holds_of_passing hb)
  · rcases h.holds_or_passing hb with hb | ⟨t', hb⟩
    · exact absurd hb (h.not_holds_of_passing ha)
    · exact h.passing_unique ha hb

/-- A target whose `wake_up_joined` has returned has no joiner left. -/
theorem served (h : Once s) {t : V} (hd : s.done t = true) : s.linked (.queue t) = [] := by
  have hfin := h.lists.settled t hd
  have hgone : ∀ a, ¬(s.pc a).Holds joinShape t := fun a =>
    h.lists.inPlace.not_holds_of_gone trivial hd
  by_cases hno : ∀ a, ¬Locked (s.pc a) t
  · exact (h.lists.guarded.outside t hno).2 hfin
  · rw [not_forall] at hno
    obtain ⟨a, ha⟩ := hno
    rw [not_not] at ha
    have hg := h.lists.guarded.inside t a ha
    cases hpc : s.pc a with
    | exec me p =>
        rw [hpc] at ha hg
        have hl : p.lock me = some t := ha
        have hme : me ≠ some t := fun he => hgone a (hpc ▸ .inl he)
        cases p with
        | joinNum _ => exact absurd hfin hg.2
        | joinInc _ _ => exact absurd hfin hg.2.1
        | joinStatus _ | joinHead _ | joinPush _ _ => exact absurd hfin hg.2
        | joinLink _ _ => exact absurd hfin hg.1.2
        | joinRetval _ _ | joinTest _ _ | joinRelease _ | joinOut _ _ | joinStore _ _ _
        | joinUnlock _ => exact (show Free s t from hg).2 hfin
        -- at the other points the agent runs the target itself
        | exitSet _ | exitUnlock => exact absurd hl hme
        | wakeRetval | wakeOut _ | wakeStore _ _ | wakeStatus | wakeNum | wakeWaiters | wakeZero _
        | wakeHead _ | wakeNull _ _ | wakeUnlock _ _ => exact absurd hl hme
        | _ => cases hl
    | switch w r k =>
        rw [hpc] at hg
        exact (show Free s t from hg).2 hfin
    | ret w r =>
        rw [hpc] at hg
        exact (show Free s t from hg).2 hfin
    | _ =>
        rw [hpc] at ha
        exact ha.elim

theorem joinedOnce (h : Once s) : JoinedOnce s where
  once v := h.lists.inPlace.count_le none trivial
  apart v hv hq := by
    rcases hv with ⟨b, hb⟩ | ⟨a, ha⟩
    · have he : some b = none := h.lists.inPlace.bag_unique trivial hb hq
      cases he
    · exact h.lists.inPlace.not_mem_of_holds (b := none) trivial (holds_of_inHand ha) hq
  alone _ _ _ ha hb := h.runs_unique ha hb
  answered := h.answered
  after a v ha := by
    refine ((h.released v).eq_of_not ?_).symm
    rintro ⟨b, t, hb⟩
    exact h.not_holds_of_passing hb (holds_of_inHand ha)
  served _ hd := h.served hd

end Once

/-! ## §2. Registrations, enqueues and releases, step by step. -/

section Counts

variable {s s' : JoinState A V} {a : A} {me : Option V} {p : JoinPc V} {v : V}

omit [DecidableEq V] in
theorem inHand_exists {pc : A → Pc V (JoinPc V) (JoinCont V) V}
    {q : Pc V (JoinPc V) (JoinCont V) V} (hq : q.InHand joinShape v ↔ (pc a).InHand joinShape v) :
    (∃ x, (update pc a q x).InHand joinShape v) ↔ ∃ x, (pc x).InHand joinShape v := by
  refine exists_congr fun x => ?_
  by_cases hx : x = a
  · subst hx
    rw [Function.update_self]
    exact hq
  · rw [Function.update_of_ne hx]

theorem answered_code (h : Lists s) (ha : Answered s v) (hpc : s.pc a = .exec me p)
    (hs : CodeEffect s a me p s') : Answered s' v := by
  have hsame : ∀ q : Pc V (JoinPc V) (JoinCont V) V,
      (q.InHand joinShape v ↔ joinShape.hand p = some v) →
      ((∃ x, (update s.pc a q x).InHand joinShape v) ↔ ∃ x, (s.pc x).InHand joinShape v) := by
    intro q hq
    refine inHand_exists (hq.trans ?_)
    rw [hpc]
    exact Iff.rfl
  have hstay : ∀ q : Pc V (JoinPc V) (JoinCont V) V,
      (q.InHand joinShape v ↔ joinShape.hand p = some v) →
      Ahead ((∃ b, v ∈ s.linked b) ∨ ∃ x, (update s.pc a q x).InHand joinShape v) (s.pushes v)
        (s.puts v + s.selfPuts v) :=
    fun q hq => ha.of_iff (or_congr Iff.rfl (hsame q hq)) rfl rfl
  cases hs with
  | quiet rv rr cl ft sl p' hq => exact hstay _ (by rw [← hq.hand]; exact Iff.rfl)
  | acquire t p' hp hc =>
      refine hstay _ ?_
      rw [hp.hand.1, ← hp.hand.2]
      exact Iff.rfl
  | unlock t p' hp =>
      refine hstay _ ?_
      rw [hp.hand.1, ← hp.hand.2]
      exact Iff.rfl
  | exit w hme hp | ret w val hme hp =>
      subst hp
      exact hstay _ (iff_of_false id fun hv => by cases hv)
  | count t n p' hp hp' =>
      subst hp
      rcases hp' with rfl | rfl <;> exact hstay _ Iff.rfl
  | block w t hme hp | push w t prev hme hp | mark w hme hp | zero w n hme hp =>
      subst hp
      exact hstay _ Iff.rfl
  | link w t prev hme hp =>
      subst hp hme
      by_cases hvw : v = w
      · -- the joiner registers
        subst hvw
        have hno : ¬Waits s v := by
          rintro (⟨b, hb⟩ | ⟨x, hx⟩)
          · exact h.not_linked_of_exec hpc b hb
          · have hxa : x = a :=
              h.inPlace.holder_unique (v := v) trivial (holds_of_inHand hx) (hpc ▸ .inl rfl)
            subst hxa
            rw [hpc] at hx
            cases hx
        show Ahead _ (update s.pushes v (s.pushes v + 1) v) _
        rw [Function.update_self]
        refine ha.lend hno (.inl ⟨.queue t, ?_⟩)
        show v ∈ update s.linked (.queue t) (v :: s.linked (.queue t)) (.queue t)
        rw [Function.update_self]
        exact List.mem_cons_self
      · have hl : ∀ b, v ∈ update s.linked (.queue t) (w :: s.linked (.queue t)) b
            ↔ v ∈ s.linked b := by
          intro b
          by_cases hb : b = .queue t
          · subst hb
            rw [Function.update_self, List.mem_cons]
            exact or_iff_right hvw
          · rw [Function.update_of_ne hb]
        refine ha.of_iff (or_congr (exists_congr hl) ?_) (Function.update_of_ne hvw _ _) rfl
        exact hsame (.switch w (.mutex t) .user) (iff_of_false id fun hv => by cases hv)
  | cut w n hd hme hp =>
      -- the list changes hands as a whole
      subst hp
      have hnil : s.linked (.cut a) = [] := h.cut_nil (by rw [hpc]; rfl)
      refine ha.of_iff (or_congr ⟨?_, ?_⟩ (hsame (.exec me (.wakeUnlock n hd)) Iff.rfl)) rfl rfl
      · rintro ⟨b, hb⟩
        have hb : v ∈ update (update s.linked (.queue w) []) (.cut a) (s.linked (.queue w)) b := hb
        by_cases hba : b = .cut a
        · subst hba
          rw [Function.update_self] at hb
          exact ⟨_, hb⟩
        · rw [Function.update_of_ne hba] at hb
          by_cases hbw : b = .queue w
          · subst hbw
            rw [Function.update_self] at hb
            cases hb
          · rw [Function.update_of_ne hbw] at hb
            exact ⟨b, hb⟩
      · rintro ⟨b, hb⟩
        show ∃ b, v ∈ update (update s.linked (.queue w) []) (.cut a) (s.linked (.queue w)) b
        by_cases hbw : b = .queue w
        · subst hbw
          refine ⟨.cut a, ?_⟩
          rw [Function.update_self]
          exact hb
        · have hba : b ≠ .cut a := by
            rintro rfl
            rw [hnil] at hb
            cases hb
          refine ⟨b, ?_⟩
          rw [Function.update_of_ne hba, Function.update_of_ne hbw]
          exact hb
  | take w n x hme hp =>
      subst hp
      by_cases hvx : v = x
      · -- it waits on, now in the waker's hand
        subst hvx
        have hc := (h.cuts a).1
        rw [hpc] at hc
        obtain ⟨l, hl, -⟩ := hc.uncons
        refine ha.of_iff (iff_of_true (.inr ⟨a, ?_⟩) (.inl ⟨.cut a, ?_⟩)) rfl rfl
        · show (update s.pc a (.exec me (.wakeClear n v (s.next v))) a).InHand joinShape v
          rw [Function.update_self]
          rfl
        · rw [hl]
          exact List.mem_cons_self
      · have hl : ∀ b, v ∈ update s.linked (.cut a) ((s.linked (.cut a)).erase x) b
            ↔ v ∈ s.linked b := by
          intro b
          by_cases hb : b = .cut a
          · subst hb
            rw [Function.update_self, List.mem_erase_of_ne hvx]
          · rw [Function.update_of_ne hb]
        refine ha.of_iff (or_congr (exists_congr hl) ?_) rfl rfl
        refine hsame (.exec me (.wakeClear n x (s.next x))) (iff_of_false (fun hv => ?_) fun hv => ?_)
        · exact hvx (Option.some.inj hv).symm
        · cases hv
  | clear w n x hd hme hp | suspend w n x hd hme hp =>
      subst hp
      exact hstay _ Iff.rfl
  | wake w n x hd hme hp =>
      subst hp
      have hhand : (s.pc a).InHand joinShape x := hpc ▸ rfl
      by_cases hvx : v = x
      · -- the joiner is back in `vs_queue`
        subst hvx
        show Ahead _ _ (update s.puts v (s.puts v + 1) v + s.selfPuts v)
        rw [Function.update_self, Nat.add_right_comm]
        refine ha.settle (.inr ⟨a, hhand⟩) ?_
        rintro (⟨b, hb⟩ | ⟨y, hy⟩)
        · exact h.not_linked_of_hand hpc rfl b hb
        · have hy : (update s.pc a (.exec me (.wakeDeq (n - 1) hd)) y).InHand joinShape v := hy
          obtain ⟨hya, hy⟩ := of_update (P := fun q => Pc.InHand joinShape q v) (fun hv => by cases hv) hy
          exact hya (h.inPlace.holder_unique trivial (holds_of_inHand hy) (holds_of_inHand hhand))
      · refine ha.of_iff (or_congr Iff.rfl ?_) rfl ?_
        · refine hsame (.exec me (.wakeDeq (n - 1) hd)) (iff_of_false (fun hv => ?_) fun hv => ?_)
          · cases hv
          · exact hvx (Option.some.inj hv).symm
        · show update s.puts x (s.puts x + 1) v + s.selfPuts v = _
          rw [Function.update_of_ne hvx]
  | finish w hme hp =>
      rcases hp with rfl | ⟨hd, rfl⟩
      all_goals exact hstay _ (iff_of_false id fun hv => by cases hv)
  | yield w st k k' hme hk hst =>
      subst hk
      exact hstay _ (iff_of_false id fun hv => by cases hv)
  | crash k hk hw =>
      subst hk
      exact hstay _ (iff_of_false id fun hv => by cases hv)

omit [DecidableEq V] in
theorem passing_exists {pc : A → Pc V (JoinPc V) (JoinCont V) V}
    {q : Pc V (JoinPc V) (JoinCont V) V} (hq : ∀ t, Passing q v t ↔ Passing (pc a) v t) :
    (∃ x t, Passing (update pc a q x) v t) ↔ ∃ x t, Passing (pc x) v t := by
  refine exists_congr fun x => exists_congr fun t => ?_
  by_cases hx : x = a
  · subst hx
    rw [Function.update_self]
    exact hq t
  · rw [Function.update_of_ne hx]

theorem released_code (h : Lists s) (hr : Released s v) (hpc : s.pc a = .exec me p)
    (hs : CodeEffect s a me p s') : Released s' v := by
  have hstay : ∀ q : Pc V (JoinPc V) (JoinCont V) V, (∀ t, ¬Passing q v t) →
      Ahead (∃ x t, Passing (update s.pc a q x) v t) (s.pushes v) (s.releases v) := by
    intro q hq
    refine hr.of_iff (passing_exists fun t => iff_of_false (hq t) ?_) rfl rfl
    rw [hpc]
    exact id
  cases hs with
  | link w t prev hme hp =>
      subst hp hme
      by_cases hvw : v = w
      · subst hvw
        show Ahead _ (update s.pushes v (s.pushes v + 1) v) _
        rw [Function.update_self]
        refine hr.lend ?_ ⟨a, t, ?_⟩
        · rintro ⟨x, t', hx⟩
          exact h.not_linked_of_exec hpc _ (h.passing x v t' hx)
        · show Passing (update s.pc a (.switch v (.mutex t) .user) a) v t
          rw [Function.update_self]
          exact ⟨rfl, rfl⟩
      · refine Ahead.of_iff (hstay (.switch w (.mutex t) .user) fun t' hq => hvw hq.1.symm) Iff.rfl ?_ rfl
        exact Function.update_of_ne hvw _ _
  | _ => exact hstay _ fun _ => id

theorem moving_code (h : ∀ b v k, s.pc b ≠ .switch v (.status .blocked) k)
    (hs : CodeEffect s a me p s') (b : A) (k : JoinCont V) :
    s'.pc b ≠ .switch v (.status .blocked) k := by
  have hstay : ∀ q : Pc V (JoinPc V) (JoinCont V) V, q ≠ .switch v (.status .blocked) k →
      update s.pc a q b ≠ .switch v (.status .blocked) k := by
    intro q hq
    by_cases hb : b = a
    · subst hb
      rw [Function.update_self]
      exact hq
    · rw [Function.update_of_ne hb]
      exact h b v k
  cases hs with
  | yield w st k' k'' hme hk hst =>
      refine hstay _ ?_
      rcases hst with ⟨rfl, -⟩ | ⟨rfl, -⟩ <;> simp
  | _ => exact hstay _ (by simp)

/-- A worker leaves hands alone; line 162 alone counts. -/
theorem worker_counts (hs : joinWorker s a = some s') :
    (∀ x v, (s'.pc x).InHand joinShape v ↔ (s.pc x).InHand joinShape v)
      ∧ s'.linked = s.linked ∧ s'.pushes = s.pushes ∧ s'.puts = s.puts
      ∧ s'.selfPuts = (s.pc a).countSelf s.selfPuts := by
  simp only [joinWorker, Option.map_eq_some_iff] at hs
  obtain ⟨σ, hσ, rfl⟩ := hs
  obtain ⟨hin, hself⟩ := worker_inHand joinShape (fun _ _ hv => by cases hv) hσ
  exact ⟨hin, rfl, rfl, rfl, hself⟩

end Counts

/-! ## §3. Exactly once. -/

theorem once_step {s s' : JoinState A V} {act : JoinAct A V} (h : Once s)
    (hok : SkipsOwnEnqueue s act) (hs : joinStep s act = some s') : Once s' := by
  have hl := lists_step h.lists hok hs
  cases joinStep_effect hs with
  | code me p _ hpc hcode =>
      exact ⟨hl, fun v => answered_code h.lists (h.answered v) hpc hcode,
        fun v => released_code h.lists (h.released v) hpc hcode,
        fun b v k => moving_code h.moving hcode b k⟩
  | dequeue v hpc hv =>
      refine ⟨hl, fun w => ?_, fun w => ?_, fun b w k => ?_⟩
      · refine (h.answered w).of_iff (or_congr Iff.rfl (inHand_exists (iff_of_false id ?_))) rfl rfl
        rw [hpc]
        exact id
      · refine (h.released w).of_iff (passing_exists fun t => iff_of_false id ?_) rfl rfl
        rw [hpc]
        exact id
      · show update s.pc act.agent (.got v) b ≠ _
        by_cases hb : b = act.agent
        · subst hb
          simp
        · rw [Function.update_of_ne hb]
          exact h.moving b w k
  | release v t hpc =>
      have hpass : Passing (s.pc act.agent) v t := by
        rw [hpc]
        exact ⟨rfl, rfl⟩
      refine ⟨hl, fun w => ?_, fun w => ?_, fun b w k => ?_⟩
      · refine (h.answered w).of_iff (or_congr Iff.rfl (inHand_exists (iff_of_false id ?_))) rfl rfl
        rw [hpc]
        exact id
      · by_cases hwv : w = v
        · subst hwv
          show Ahead _ _ (update s.releases w (s.releases w + 1) w)
          rw [Function.update_self]
          refine (h.released w).settle ⟨_, t, hpass⟩ ?_
          rintro ⟨x, t', hx⟩
          have hx : Passing (update s.pc act.agent (.setRunnable w) x) w t' := hx
          by_cases hxa : x = act.agent
          · subst hxa
            rw [Function.update_self] at hx
            exact hx
          · rw [Function.update_of_ne hxa] at hx
            exact hxa (h.passing_unique hx hpass)
        · refine (h.released w).of_iff (passing_exists fun t' => iff_of_false id ?_) rfl
            (Function.update_of_ne hwv _ _)
          rw [hpc]
          exact fun hp => hwv hp.1.symm
      · show update s.pc act.agent (.setRunnable v) b ≠ _
        by_cases hb : b = act.agent
        · subst hb
          simp
        · rw [Function.update_of_ne hb]
          exact h.moving b w k
  | move q run k n p' hgo hwork hmove =>
      obtain ⟨hin, hself⟩ := worker_inHand joinShape (fun _ _ hv => by cases hv) hwork
      have hsame : n = s.selfPuts := by
        have hn : n = (s.pc act.agent).countSelf s.selfPuts := hself
        rw [hn]
        cases hpc : s.pc act.agent with
        | wakeSelf v =>
            rw [hgo] at hok
            exact absurd hpc (hok v)
        | _ => rfl
      obtain ⟨-, hpass, -, -⟩ := move_facts hmove
      refine ⟨hl, fun w => ?_, fun w => ?_, fun b w k => ?_⟩
      · refine (h.answered w).of_iff (or_congr Iff.rfl (exists_congr fun x => hin x w)) rfl ?_
        show s.puts w + n w = _
        rw [hsame]
      · exact (h.released w).of_iff (passing_exists fun t => hpass w t) rfl rfl
      · show update s.pc act.agent p' b ≠ _
        by_cases hb : b = act.agent
        · subst hb
          rw [Function.update_self]
          generalize s.pc act.agent = p₀ at hmove
          cases hmove with
          | plain _ _ _ _ hp' => rcases hp' with rfl | ⟨x, rfl⟩ | ⟨x, rfl⟩ <;> simp
          | _ => simp [finishVthread]
        · rw [Function.update_of_ne hb]
          exact h.moving b w k

theorem once_keeps : (joining (A := A) (V := V)).Keeps SkipsOwnEnqueue Once where
  start s hs := by
    have hl := lists_keeps.start s hs
    obtain ⟨raw, ready, hnd, rfl⟩ := hs
    have hpc : ∀ a, (joinInit (V := V) raw ready).pc a = .top
        ∨ (joinInit (V := V) raw ready).pc a = .exec none (.cont .user) := by
      intro a
      cases hr : raw a with
      | true => exact .inr (by simp [joinInit, hr])
      | false => exact .inl (by simp [joinInit, hr])
    refine ⟨hl, fun v => Ahead.start ?_, fun v => Ahead.start ?_, fun a v k hp => ?_⟩
    · rintro (⟨b, hb⟩ | ⟨a, ha⟩)
      · cases hb
      · rcases hpc a with h | h
        · rw [h] at ha
          exact ha
        · rw [h] at ha
          cases ha
    · rintro ⟨a, t, ha⟩
      rcases hpc a with h | h
      · rw [h] at ha
        exact ha
      · rw [h] at ha
        exact ha
    · rcases hpc a with h | h
      · rw [h] at hp
        cases hp
      · rw [h] at hp
        cases hp
  step _ _ _ h hok hs := once_step h hok hs

/-- Line 162 answers no registration. -/
theorem not_joinedOnce_of_ownEnqueue {s s' : JoinState A V} {act : JoinAct A V} (h : Once s)
    (hno : ¬SkipsOwnEnqueue s act) (hs : joinStep s act = some s') : ¬JoinedOnce s' := by
  cases act with
  | go a =>
      simp only [SkipsOwnEnqueue, not_forall, not_not] at hno
      obtain ⟨v, hv⟩ := hno
      simp only [joinStep, hv] at hs
      obtain ⟨hin, hlink, hpush, hputs, hself⟩ := worker_counts hs
      rw [hv] at hself
      intro hP
      refine (h.answered v).not_extra ((hP.answered v).of_iff ?_ (by rw [hpush]) ?_)
      · unfold Waits
        rw [hlink]
        exact or_congr Iff.rfl (exists_congr fun x => (hin x v).symm)
      · rw [hputs, hself]
        show s.puts v + s.selfPuts v + 1 = s.puts v + update s.selfPuts v (s.selfPuts v + 1) v
        rw [Function.update_self]
        omega
  | _ => exact absurd trivial hno

/-- **The exact condition.**  Throughout a run each joiner is put into `vs_queue`
    once for each join, sits there once and is run by one agent, iff no step of
    the run is the enqueue of line 162. -/
theorem joined_iff {s t : JoinState A V} {acts : List (JoinAct A V)} (hs : joining.init s)
    (hrun : joining.run s acts = some t) :
    joining.Always JoinedOnce s acts ↔ joining.StepsMeet SkipsOwnEnqueue s acts :=
  Machine.always_iff_stepsMeet once_keeps (fun _ => Once.joinedOnce)
    (fun _ _ _ => not_joinedOnce_of_ownEnqueue) hs hrun

/-! ## §4. A target that finishes in the gap. -/

/-- Three workers and two vthreads in the run queue. -/
def threeWorkers : JoinState (Fin 3) (Fin 2) := joinInit (fun _ => false) [0, 1]

/-- Worker `a` dequeues vthread `v` and switches to it. -/
def runActs (a : Fin 3) (v : Fin 2) : List (JoinAct (Fin 3) (Fin 2)) := [.pick a v, .go a, .go a]

/-- On worker 0, vthread 0 joins vthread 1 and takes `n` steps. -/
def joinActs (n : ℕ) : List (JoinAct (Fin 3) (Fin 2)) :=
  runActs 0 0 ++ [.call 0 (.join 1 none)] ++ List.replicate n (.go 0)

/-- On worker 1, vthread 1 returns and the worker takes `n` steps. -/
def finishActs (n : ℕ) : List (JoinAct (Fin 3) (Fin 2)) :=
  runActs 1 1 ++ [.call 1 (.ret 7)] ++ List.replicate n (.go 1)

/-- The target finishes after worker 0 has looked at `cur_status`. -/
def calmActs : List (JoinAct (Fin 3) (Fin 2)) := joinActs 13 ++ finishActs 18

/-- It finishes between the release and that look; then workers 0 and 2 dequeue
    the joiner. -/
def gapActs : List (JoinAct (Fin 3) (Fin 2)) :=
  joinActs 11 ++ finishActs 17 ++ [.go 0, .go 0, .go 0] ++ runActs 0 0 ++ runActs 2 0

theorem threeWorkers_init : joining.init threeWorkers :=
  ⟨_, _, by decide, rfl⟩

theorem joined_iff_calm :
    ∃ t, joining.run threeWorkers calmActs = some t ∧ t.pushes 0 = 1 ∧ t.puts 0 = 1
      ∧ t.selfPuts 0 = 0
      ∧ (joining.Always JoinedOnce threeWorkers calmActs ↔
          joining.StepsMeet SkipsOwnEnqueue threeWorkers calmActs) :=
  ⟨_, rfl, rfl, rfl, rfl, joined_iff threeWorkers_init (t := _) rfl⟩

/-- One join, two enqueues, two workers on the stack of vthread 0. -/
theorem finish_in_gap :
    ∃ t, joining.init threeWorkers ∧ joining.run threeWorkers gapActs = some t
      ∧ t.pushes 0 = 1 ∧ t.puts 0 = 1 ∧ t.selfPuts 0 = 1
      ∧ (t.pc 0).Runs 0 ∧ (t.pc 2).Runs 0
      ∧ ¬joining.Always JoinedOnce threeWorkers gapActs := by
  refine ⟨_, threeWorkers_init, rfl, rfl, rfl, rfl, rfl, rfl, fun hA => ?_⟩
  have h02 := (hA.last rfl).alone 0 0 2 rfl rfl
  exact absurd h02 (by decide)

end HThread.Join
