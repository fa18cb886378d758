/-
  HThread.Join.Results — how a result gets to the joiners, step by step.

  The result travels through one `retval` field of the target, which every
  joiner overwrites: `wake_up_joined` stores the result in one variable, that of
  the joiner who came last.  `Delivers` excludes the steps at which this is not
  the variable of every joiner that waits for one.

  Key lemmas:
    * `goes_leaves`, `goes_silent` — the rules for one step.
    * `told_join`, `told_semaWait`, `told_pthreadExit`, `told_manage`, `told_wake`,
      `told_worker` — one spec for each function of the source.
-/
import HThread.Join.Calls

namespace HThread.Join

open Interleave
open Function (update)

variable {A V : Type} [DecidableEq A] [DecidableEq V]

/-! ## §1. The condition. -/

/-- No other target's pending joiner gave the variable `x`. -/
def OnlyFor (w : Logged A V) (x : ℕ) (t : V) : Prop := ∀ c t', w.asked c = some (t', some x) → t' = t

/-- The step is not the enqueue of line 162; if `wake_up_joined` reads `retval` then
    all joiners that wait, and gave a variable, gave this one; and a result goes
    to no variable that a pending joiner of another target gave. -/
def Delivers (w : Logged A V) : JoinAct A V → Prop
  | .go a =>
      match w.st.pc a with
      | .wakeSelf _ => False
      | .exec (some v) .wakeRetval =>
          ∀ c x, Registered w.st v c → w.asked c = some (v, some x) → w.st.retval v = some x
      | .exec (some v) (.wakeStore x _) => OnlyFor w x v
      | .exec _ (.joinStore t x _) => OnlyFor w x t
      | _ => True
  | _ => True

omit [DecidableEq A] in
theorem Delivers.skips {w : Logged A V} {act : JoinAct A V} (hok : Delivers w act) :
    SkipsOwnEnqueue w.st act := by
  cases act with
  | go a =>
      intro v hv
      simp only [Delivers, hv] at hok
  | _ => trivial

/-- What all agents know, and what holds of the vthreads that nobody runs. -/
structure Told (w : Logged A V) : Prop where
  once : Once w.st
  known : ∀ a, At w a (w.st.pc a)
  back : ∀ a me, w.st.pc a = .exec me (.cont .user) → w.asked (caller a me) = none
  off : ∀ v, w.st.done v = false → (∀ b, runner (w.st.pc b) ≠ some v) →
    KnowsCont w v (w.st.ctx v)
  posts : ∀ t, w.st.fut t ≠ 0 → Stored w.st t
  marked : ∀ t, w.st.curStatus t = .finished → Stored w.st t
  gone : ∀ t, w.st.done t = true → w.ended t = some (w.st.routineRet t)
  found : ∀ e ∈ w.found, Stored w.st e.1 ∧ w.ended e.1 = some e.2

/-- After its step agent `a` knows what it is to know, and so do the others. -/
def Goes (w : Logged A V) (s : JoinState A V) (a : A) : Prop :=
  Others { w with st := s } a ∧ At { w with st := s } a (s.pc a)

/-- A step of agent `a` leads to `s`. -/
structure Steps (w : Logged A V) (s : JoinState A V) (a : A) : Prop where
  told : Told w
  step : ∃ act : JoinAct A V, act.agent = a ∧ SkipsOwnEnqueue w.st act ∧ joinStep w.st act = some s

/-! ## §2. The rules. -/

section Rules

variable {w : Logged A V} {s : JoinState A V} {a : A} {me : Option V} {p p' : JoinPc V} {v t : V}

omit [DecidableEq A] in
theorem Told.others (h : Told w) (a : A) : Others w a :=
  ⟨h.once, fun b _ => h.known b, fun b _ => h.back b, h.off, h.posts, h.marked, h.gone, h.found⟩

omit [DecidableEq A] in
theorem Told.knows (h : Told w) (hpc : w.st.pc a = .exec me p) : Knows w (caller a me) me p := by
  have hk := h.known a
  rw [hpc] at hk
  exact hk

theorem Others.told (h : Others w a) (hk : At w a (w.st.pc a))
    (hb : ∀ me, w.st.pc a = .exec me (.cont .user) → w.asked (caller a me) = none) : Told w := by
  refine ⟨h.once, fun b => ?_, fun b => ?_, h.off, h.posts, h.marked, h.gone, h.found⟩
  · by_cases hba : b = a
    · exact hba ▸ hk
    · exact h.others b hba
  · by_cases hba : b = a
    · exact hba ▸ hb
    · exact h.back b hba

theorem Steps.pc (h : Steps w s a) {b : A} (hb : b ≠ a) : s.pc b = w.st.pc b := by
  obtain ⟨act, rfl, -, hs⟩ := h.step
  exact pc_other hs hb

theorem Steps.waits (h : Steps w s a) {b : A} (ha : waitsFor t (s.pc a) = 0)
    (hb : waitsFor t (s.pc b) ≠ 0) : waitsFor t (w.st.pc b) ≠ 0 := by
  have hba : b ≠ a := by
    intro he
    rw [he] at hb
    exact hb ha
  rw [← h.pc hba]
  exact hb

/-- A step that leaves the others what they need. -/
theorem goes_leaves (h : Steps w s a) (hv : Values w s a) (hm : Marks w s a) (hp : Places w s a)
    (hoff : ∀ v, runner (w.st.pc a) = some v → s.done v = false →
      (∀ b, runner (s.pc b) ≠ some v) → KnowsCont { w with st := s } v (s.ctx v))
    (hk : At { w with st := s } a (s.pc a)) : Goes w s a := by
  obtain ⟨act, ha, hok, hs⟩ := h.step
  exact ⟨others_leaves (h.told.others a) ha hok hs hv hm hp hoff, hk⟩

omit [DecidableEq A] [DecidableEq V] in
/-- The agent goes on running what it runs. -/
theorem off_of_runner (hr : ∀ v, runner (w.st.pc a) = some v → runner (s.pc a) = some v) :
    ∀ v, runner (w.st.pc a) = some v → s.done v = false →
      (∀ b, runner (s.pc b) ≠ some v) → KnowsCont { w with st := s } v (s.ctx v) :=
  fun v hv _ hno => absurd (hr v hv) (hno a)

theorem stored_congr (h : Steps w s a) (hdone : s.done = w.st.done)
    (hown : ∀ t, StoredAt (s.pc a) t ↔ StoredAt (w.st.pc a) t) (t : V) :
    Stored s t ↔ Stored w.st t := by
  unfold Stored
  rw [hdone]
  refine or_congr Iff.rfl (exists_congr fun b => ?_)
  -- the other agents stay where they are
  by_cases hb : b = a
  · rw [hb]
    exact hown t
  · rw [h.pc hb]

omit [DecidableEq A] [DecidableEq V] in
theorem values_same (hret : s.routineRet = w.st.routineRet) (hcell : s.cell = w.st.cell)
    (hctx : s.ctx = w.st.ctx) : Values w s a := by
  refine ⟨fun v _ => ⟨by rw [hret], by rw [hctx]⟩, fun t _ => by rw [hret], fun c t x _ _ hx => ?_⟩
  rw [hcell]
  exact hx

omit [DecidableEq A] in
theorem marks_same (hst : ∀ t, Stored s t ↔ Stored w.st t) (hdone : s.done = w.st.done)
    (hfut : ∀ t, s.fut t ≠ 0 → w.st.fut t ≠ 0 ∨ Stored s t)
    (hcur : ∀ t, s.curStatus t = .finished → w.st.curStatus t = .finished ∨ Stored s t) :
    Marks w s a := by
  refine ⟨fun t => (hst t).mpr, fun t ht => .inl ((hst t).mp ht), hfut, hcur, fun t ht => ?_⟩
  rw [hdone] at ht
  exact .inl ht

theorem marks_still (h : Steps w s a) (hdone : s.done = w.st.done) (hfut : s.fut = w.st.fut)
    (hcur : s.curStatus = w.st.curStatus)
    (hown : ∀ t, StoredAt (s.pc a) t ↔ StoredAt (w.st.pc a) t) :
    (∀ t, Stored s t ↔ Stored w.st t) ∧ Marks w s a := by
  have hst := stored_congr h hdone hown
  refine ⟨hst, marks_same hst hdone (fun t ht => .inl ?_) fun t ht => .inl ?_⟩
  · rw [← hfut]
    exact ht
  · rw [← hcur]
    exact ht

theorem places_same (h : Steps w s a) (hl : ∀ t, s.linked (.queue t) = w.st.linked (.queue t))
    (hw : ∀ t, waitsFor t (s.pc a) ≠ 0 → Locked (w.st.pc a) t ∨ waitsFor t (w.st.pc a) ≠ 0) :
    Places w s a := by
  refine ⟨fun u t hu => .inl ?_, fun t c hc => ?_⟩
  · rw [hl]
    exact hu
  · cases c with
    | inr u =>
        refine .inr ?_
        show u ∈ w.st.linked (.queue t)
        rw [← hl]
        exact hc
    | inl b =>
        -- raw threads wait where they are, and only agent `a` moves
        by_cases hb : b = a
        · subst hb
          exact hw t hc
        · refine .inr ?_
          show waitsFor t (w.st.pc b) ≠ 0
          rw [← h.pc hb]
          exact hc

/-- A step from `s` to `s'` that changes no value, mark or place that others rely on;
    agent `a` goes on running what it runs. -/
structure Silent (s s' : JoinState A V) (a : A) : Prop where
  routineRet : s'.routineRet = s.routineRet
  cell : s'.cell = s.cell
  done : s'.done = s.done
  ctx : s'.ctx = s.ctx
  linked : ∀ t, s'.linked (.queue t) = s.linked (.queue t)
  fut : ∀ t, s'.fut t ≠ 0 → s.fut t ≠ 0 ∨ StoredAt (s'.pc a) t
  curStatus : ∀ t, s'.curStatus t = .finished → s.curStatus t = .finished ∨ StoredAt (s'.pc a) t
  stored : ∀ t, StoredAt (s'.pc a) t ↔ StoredAt (s.pc a) t
  waits : ∀ t, waitsFor t (s'.pc a) ≠ 0 → waitsFor t (s.pc a) ≠ 0
  runner : ∀ v, runner (s.pc a) = some v → runner (s'.pc a) = some v

theorem silent_stored (h : Steps w s a) (hsil : Silent w.st s a) (t : V) :
    Stored s t ↔ Stored w.st t := stored_congr h hsil.done hsil.stored t

omit [DecidableEq A] in
theorem silent_values (hsil : Silent w.st s a) : Values w s a :=
  values_same hsil.routineRet hsil.cell hsil.ctx

theorem silent_marks (h : Steps w s a) (hsil : Silent w.st s a) : Marks w s a :=
  marks_same (silent_stored h hsil) hsil.done
    (fun t ht => (hsil.fut t ht).imp id fun hs => .inr ⟨a, hs⟩)
    fun t ht => (hsil.curStatus t ht).imp id fun hs => .inr ⟨a, hs⟩

theorem silent_places (h : Steps w s a) (hsil : Silent w.st s a) : Places w s a :=
  places_same h hsil.linked fun t ht => .inr (hsil.waits t ht)

theorem others_silent (h : Steps w s a) (hsil : Silent w.st s a) : Others { w with st := s } a := by
  obtain ⟨act, ha, hok, hs⟩ := h.step
  exact others_leaves (h.told.others a) ha hok hs (silent_values hsil) (silent_marks h hsil)
    (silent_places h hsil) (off_of_runner hsil.runner)

/-- After a silent step it is enough that the agent knows it already. -/
theorem goes_silent (h : Steps w s a) (hsil : Silent w.st s a) (hk : At w a (s.pc a)) :
    Goes w s a := by
  refine ⟨others_silent h hsil, ?_⟩
  have hst := silent_stored h hsil
  -- nobody registers in a silent step
  have hreg : ∀ t c, Registered s t c → Registered w.st t c := by
    intro t c hc
    cases c with
    | inr u =>
        show u ∈ w.st.linked (.queue t)
        rw [← hsil.linked]
        exact hc
    | inl b =>
        by_cases hb : b = a
        · subst hb
          exact hsil.waits t hc
        · show waitsFor t (w.st.pc b) ≠ 0
          rw [← h.pc hb]
          exact hc
  refine at_leaves (silent_values hsil) (silent_marks h hsil) (silent_places h hsil)
    (fun v _ => ?_) hsil.waits (fun t _ hno ht => ?_) (fun v x _ ho c y hc => ?_) hk
  · rw [hsil.routineRet]
  · exact hno ((hst t).mp ht)
  · exact ho c y (hreg v c hc)

/-- The fields that others rely on, but for the agents' points, stay. -/
structure Kept (s s' : JoinState A V) : Prop where
  routineRet : s'.routineRet = s.routineRet
  cell : s'.cell = s.cell
  done : s'.done = s.done
  ctx : s'.ctx = s.ctx
  linked : ∀ t, s'.linked (.queue t) = s.linked (.queue t)
  fut : ∀ t, s'.fut t ≠ 0 → s.fut t ≠ 0
  curStatus : ∀ t, s'.curStatus t = .finished → s.curStatus t = .finished

omit [DecidableEq A] [DecidableEq V] in
theorem Kept.of_eq {s s' : JoinState A V} (hret : s'.routineRet = s.routineRet)
    (hcell : s'.cell = s.cell) (hdone : s'.done = s.done) (hctx : s'.ctx = s.ctx)
    (hl : s'.linked = s.linked) (hfut : s'.fut = s.fut) (hcur : s'.curStatus = s.curStatus) :
    Kept s s' := by
  refine ⟨hret, hcell, hdone, hctx, fun t => by rw [hl], fun t ht => ?_, fun t ht => ?_⟩
  · rw [← hfut]
    exact ht
  · rw [← hcur]
    exact ht

omit [DecidableEq A] in
/-- The agent moves from `q` to `q'`. -/
theorem Kept.silent (hsame : Kept w.st s) {q q' : Pc V (JoinPc V) (JoinCont V) V}
    (hpc : w.st.pc a = q) (hq : s.pc a = q') (hst : ∀ t, StoredAt q' t ↔ StoredAt q t)
    (hw : ∀ t, waitsFor t q' ≠ 0 → waitsFor t q ≠ 0)
    (hr : ∀ v, runner q = some v → runner q' = some v) : Silent w.st s a := by
  subst hpc hq
  exact ⟨hsame.routineRet, hsame.cell, hsame.done, hsame.ctx, hsame.linked,
    fun t ht => .inl (hsame.fut t ht), fun t ht => .inl (hsame.curStatus t ht), hst, hw, hr⟩

omit [DecidableEq A] in
/-- It moves on in the code. -/
theorem Kept.exec (hsame : Kept w.st s) (hpc : w.st.pc a = .exec me p) (hq : s.pc a = .exec me p')
    (hst : p'.stored = p.stored) (hw : ∀ t, p'.waitsFor t = true → p.waitsFor t = true) :
    Silent w.st s a := by
  refine hsame.silent hpc hq (fun t => ?_) (fun t => ?_) fun v hv => hv
  · show _ ∧ p'.stored = true ↔ _ ∧ p.stored = true
    rw [hst]
  · cases me with
    | some v => exact id
    | none =>
        show (if p'.waitsFor t then 1 else 0) ≠ 0 → (if p.waitsFor t then 1 else 0) ≠ 0
        intro hne
        rw [if_pos (hw t (by_contra fun hno => hne (if_neg hno)))]
        exact Nat.one_ne_zero

theorem goes_exec (h : Steps w s a) (hpc : w.st.pc a = .exec me p) (hq : s.pc a = .exec me p')
    (hsame : Kept w.st s) (hst : p'.stored = p.stored)
    (hw : ∀ t, p'.waitsFor t = true → p.waitsFor t = true) (hk : Knows w (caller a me) me p') :
    Goes w s a := by
  refine goes_silent h (hsame.exec hpc hq hst hw) ?_
  rw [hq]
  exact hk

theorem goes_goto (h : Steps w (w.st.goto a (.exec me p')) a) (hpc : w.st.pc a = .exec me p)
    (hst : p'.stored = p.stored) (hw : ∀ t, p'.waitsFor t = true → p.waitsFor t = true)
    (hk : Knows w (caller a me) me p') : Goes w (w.st.goto a (.exec me p')) a :=
  goes_exec h hpc (Function.update_self ..)
    (.of_eq rfl rfl rfl rfl rfl rfl rfl) hst hw hk

/-- It is about to leave the vthread it runs. -/
theorem goes_switch (h : Steps w s a) (hpc : w.st.pc a = .exec (some v) p) {r : Ret V}
    {k : JoinCont V} (hq : s.pc a = .switch v r k) (hsame : Kept w.st s) (hst : p.stored = false)
    (hk : At w a (.switch v r k)) : Goes w s a := by
  refine goes_silent h (hsame.silent hpc hq (fun t => iff_of_false id fun hs => ?_)
    (fun t ht => absurd rfl ht) fun u hu => hu) ?_
  · have hp : p.stored = true := hs.2
    rw [hst] at hp
    cases hp
  · rw [hq]
    exact hk

/-- A raw thread follows a null pointer. -/
theorem goes_crash (h : Steps w s a) (hpc : w.st.pc a = .exec none p) (hq : s.pc a = .crashed)
    (hsame : Kept w.st s) : Goes w s a := by
  refine goes_silent h (hsame.silent hpc hq (fun t => iff_of_false id fun hs => ?_)
    (fun t ht => absurd rfl ht) fun u hu => ?_) ?_
  · cases hs.1
  · cases hu
  · rw [hq]
    trivial

/-- The lock loop at `k`, with `p'` behind it. -/
theorem goes_lockLoop {k : JoinCont V} (h : Steps w (lockLoop w.st a me t k p') a)
    (hpc : w.st.pc a = .exec me (.cont k)) (hst : p'.stored = false)
    (hw : ∀ t, p'.waitsFor t = false) (hk : Knows w (caller a me) me p')
    (hspin : me = none → Knows w (caller a me) me (.cont k))
    (hyield : ∀ v, me = some v → KnowsCont w v k) : Goes w (lockLoop w.st a me t k p') a := by
  by_cases hc : w.st.c t = true
  · have hkept : Kept w.st (lockLoop w.st a me t k p') := by
      unfold lockLoop
      rw [if_pos hc]
      exact .of_eq rfl rfl rfl rfl rfl rfl rfl
    -- a vthread yields, a raw thread spins
    cases me with
    | some v =>
        refine goes_switch (r := .status .lockFail) (k := k) h hpc ?_ hkept rfl (hyield v rfl)
        unfold lockLoop
        rw [if_pos hc]
        exact Function.update_self ..
    | none =>
        refine goes_exec h hpc ?_ hkept rfl (fun _ => id) (hspin rfl)
        unfold lockLoop
        rw [if_pos hc]
        exact Function.update_self ..
  · have hkept : Kept w.st (lockLoop w.st a me t k p') := by
      unfold lockLoop
      rw [if_neg hc]
      exact .of_eq rfl rfl rfl rfl rfl rfl rfl
    refine goes_exec h hpc ?_ hkept hst (fun t ht => ?_) hk
    · unfold lockLoop
      rw [if_neg hc]
      exact Function.update_self ..
    · rw [hw t] at ht
      cases ht

omit [DecidableEq A] [DecidableEq V] in
/-- A store of the result of `t` to the variable `x`. -/
theorem values_store {x val : ℕ} (hx : OnlyFor w x t) (hval : val = w.st.routineRet t)
    (hret : s.routineRet = w.st.routineRet) (hcell : s.cell = update w.st.cell x val)
    (hctx : s.ctx = w.st.ctx) : Values w s a := by
  refine ⟨fun v _ => ⟨by rw [hret], by rw [hctx]⟩, fun t _ => by rw [hret],
    fun c t' y hc _ hy => ?_⟩
  rw [hcell]
  -- only joiners of `t` gave `x`, and they are to find this value
  by_cases hyx : y = x
  · subst hyx
    rw [Function.update_self, hx c t' hc]
    exact hval
  · rw [Function.update_of_ne hyx]
    exact hy

end Rules

/-! ## §3. The steps in the code. -/

section Code

variable {w : Logged A V} {s : JoinState A V} {a : A} {me : Option V} {p : JoinPc V} {v t : V}

omit [DecidableEq A] in
/-- Nobody has stored the result of a target that has not finished, if the agent has
    its mutex. -/
theorem not_stored_of_lock (h : Lists w.st) (hl : Locked (w.st.pc a) t)
    (hp : ∀ me, w.st.pc a ≠ .exec me .wakeStatus) (hst : w.st.curStatus t ≠ .finished) :
    ¬Stored w.st t := by
  rintro (hd | ⟨b, hb⟩)
  · exact hst (h.settled t hd)
  · cases hpc : w.st.pc b with
    | exec me' q =>
        rw [hpc] at hb
        obtain ⟨rfl, hq⟩ := hb
        by_cases hw : q = .wakeStatus
        · subst hw
          have hab := h.guarded.unique t a b hl (hpc ▸ rfl)
          exact hp _ (hab ▸ hpc)
        · refine hst (h.marked b t q hpc ?_)
          cases q with
          | wakeStatus => exact absurd rfl hw
          | _ => exact hq
    | _ =>
        rw [hpc] at hb
        exact hb

/-- A vthread registers as a joiner. -/
theorem goes_link {prev : Option V} (h : Steps w s a)
    (hpc : w.st.pc a = .exec (some v) (.joinLink t prev))
    (hs : join w.st a (some v) (.joinLink t prev) = some s) : Goes w s a := by
  have hs := Option.some.inj hs
  have hq : s.pc a = .switch v (.mutex t) .user := by
    subst hs
    exact Function.update_self ..
  have hl : s.linked = update w.st.linked (.queue t) (v :: w.st.linked (.queue t)) := by
    subst hs
    rfl
  have hother : ∀ t', t' ≠ t → s.linked (.queue t') = w.st.linked (.queue t') := by
    intro t' ht
    rw [hl, Function.update_of_ne fun he => ht (JoinList.queue.inj he)]
  obtain ⟨hno, r, hc⟩ := h.told.knows hpc
  obtain ⟨hst, hm⟩ := marks_still h (by subst hs; rfl) (by subst hs; rfl) (by subst hs; rfl)
    fun t' => by rw [hpc, hq]; exact iff_of_false id fun hs => by cases hs.2
  have hp : Places w s a := by
    refine ⟨fun u t' hu => .inl ?_, fun t' c hreg => ?_⟩
    · by_cases ht : t' = t
      · subst ht
        rw [hl, Function.update_self]
        exact List.mem_cons_of_mem v hu
      · rw [hother t' ht]
        exact hu
    · by_cases ht : t' = t
      · -- the agent has the mutex of `t`
        subst ht
        rw [hpc]
        exact .inl rfl
      · refine .inr ?_
        cases c with
        | inr u =>
            show u ∈ w.st.linked (.queue t')
            rw [← hother t' ht]
            exact hreg
        | inl b => exact h.waits (by rw [hq]; rfl) hreg
  refine goes_leaves h (values_same (by subst hs; rfl) (by subst hs; rfl) (by subst hs; rfl)) hm hp
    (off_of_runner fun u hu => ?_) ?_
  · rw [hpc] at hu
    rw [hq]
    exact hu
  · rw [hq]
    intro t' r' hc'
    obtain ⟨rfl, rfl⟩ := Prod.mk.inj (Option.some.inj (hc.symm.trans hc'))
    refine ⟨.inl ?_, fun hs => absurd ((hst t).mp hs) hno⟩
    show v ∈ s.linked (.queue t)
    rw [hl, Function.update_self]
    exact List.mem_cons_self

/-- So does a raw thread, which has been counted and releases the mutex. -/
theorem goes_release (h : Steps w s a) (hpc : w.st.pc a = .exec me (.joinRelease t))
    (hs : join w.st a me (.joinRelease t) = some s) : Goes w s a := by
  have hs := Option.some.inj hs
  obtain ⟨rfl, hno, r, hc⟩ := h.told.knows hpc
  have hq : s.pc a = .exec none (.semCas t) := by
    subst hs
    exact Function.update_self ..
  obtain ⟨hst, hm⟩ := marks_still h (by subst hs; rfl) (by subst hs; rfl) (by subst hs; rfl)
    fun t' => by
      rw [hpc, hq]
      exact iff_of_false (fun hs => by cases hs.2) fun hs => by cases hs.2
  refine goes_leaves h (values_same (by subst hs; rfl) (by subst hs; rfl) (by subst hs; rfl)) hm
    (places_same h (fun t' => by subst hs; rfl) fun t' ht' => .inl ?_) (off_of_runner fun u hu => ?_) ?_
  · rw [hq] at ht'
    rw [hpc]
    -- the agent registers for `t`, whose mutex it has
    by_cases ht : t = t'
    · exact congrArg some ht
    · exact absurd (if_neg fun he => ht (of_decide_eq_true he)) ht'
  · rw [hpc] at hu
    cases hu
  · rw [hq]
    exact ⟨rfl, r, hc, fun hs => absurd ((hst t).mp hs) hno⟩

/-- A late joiner takes the result of a finished target itself. -/
theorem goes_store {x val : ℕ} (h : Steps w s a) (hok : OnlyFor w x t)
    (hpc : w.st.pc a = .exec me (.joinStore t x val))
    (hs : join w.st a me (.joinStore t x val) = some s) : Goes w s a := by
  have hs := Option.some.inj hs
  obtain ⟨hc, hstored, hval⟩ := h.told.knows hpc
  have hq : s.pc a = .exec me (.joinUnlock t) := by
    subst hs
    exact Function.update_self ..
  obtain ⟨hst, hm⟩ := marks_still h (by subst hs; rfl) (by subst hs; rfl) (by subst hs; rfl)
    fun t' => by
      rw [hpc, hq]
      exact iff_of_false (fun hs => by cases hs.2) fun hs => by cases hs.2
  have hret : s.routineRet = w.st.routineRet := by
    subst hs
    rfl
  have hcell : s.cell = update w.st.cell x val := by
    subst hs
    rfl
  refine goes_leaves h (values_store hok hval hret hcell (by subst hs; rfl)) hm
    (places_same h (fun t' => by subst hs; rfl) fun t' ht' => ?_) (off_of_runner fun u hu => ?_) ?_
  · rw [hq] at ht'
    cases me <;> exact absurd rfl ht'
  · rw [hpc] at hu
    rw [hq]
    exact hu
  · rw [hq]
    -- it will find in the variable what it has just stored
    refine ⟨some x, hc, (hst t).mpr hstored, fun y hy => ?_⟩
    obtain rfl := Option.some.inj hy
    show s.cell x = s.routineRet t
    rw [hcell, hret, Function.update_self]
    exact hval

theorem told_join (h : Steps w s a) (hok : ∀ t x val, p = .joinStore t x val → OnlyFor w x t)
    (hpc : w.st.pc a = .exec me p) (hs : join w.st a me p = some s) : Goes w s a := by
  have hk := h.told.knows hpc
  cases p with
  | cont k =>
      cases k with
      | joinLock t r =>
          obtain rfl := Option.some.inj hs
          refine goes_lockLoop h hpc rfl (fun _ => rfl) hk (fun _ => hk) fun v hv => ?_
          subst hv
          exact hk
      | _ => cases hs
  | joinRetval t r =>
      obtain rfl := Option.some.inj hs
      exact goes_exec h hpc (Function.update_self ..)
        (.of_eq rfl rfl rfl rfl rfl rfl rfl) rfl (fun _ => id) hk
  | joinTest t r =>
      obtain rfl := Option.some.inj hs
      by_cases hst : w.st.curStatus t = .finished
      -- a finished target has stored its result
      · rw [if_pos hst] at h ⊢
        exact goes_goto h hpc rfl (fun _ => id) ⟨hk, h.told.marked t hst⟩
      · rw [if_neg hst] at h ⊢
        refine goes_goto h hpc rfl (fun _ => id) ⟨?_, r, hk⟩
        -- the target cannot store it while the joiner has the mutex
        have hl : Locked (w.st.pc a) t := by
          rw [hpc]
          rfl
        refine not_stored_of_lock h.told.once.lists hl (fun me' he => ?_) hst
        rw [hpc] at he
        cases he
  | joinNum t | joinHead t =>
      obtain rfl := Option.some.inj hs
      exact goes_goto h hpc rfl (fun _ => id) hk
  | joinInc t n =>
      obtain rfl := Option.some.inj hs
      have hkept : Kept w.st { w.st with
          joinWaitersNum := update w.st.joinWaitersNum t (n + 1)
          pc := update w.st.pc a (.exec me (if me.isSome then .joinStatus t else .joinRelease t)) } :=
        .of_eq rfl rfl rfl rfl rfl rfl rfl
      cases me with
      | some v => exact goes_exec h hpc (Function.update_self ..) hkept rfl (fun _ => id) hk
      | none => exact goes_exec h hpc (Function.update_self ..) hkept rfl (fun _ => id) ⟨rfl, hk⟩
  | joinStatus t =>
      simp only [join, Option.map_eq_some_iff] at hs
      obtain ⟨v, rfl, rfl⟩ := hs
      exact goes_exec h hpc (Function.update_self ..)
        ⟨rfl, rfl, rfl, rfl, fun _ => rfl, fun _ => id, fun _ => finished_of_update (by decide)⟩ rfl
        (fun _ => id) hk
  | joinPush t prev =>
      simp only [join, Option.map_eq_some_iff] at hs
      obtain ⟨v, rfl, rfl⟩ := hs
      exact goes_exec h hpc (Function.update_self ..)
        (.of_eq rfl rfl rfl rfl rfl rfl rfl) rfl (fun _ => id) hk
  | joinLink t prev =>
      cases me with
      | some v => exact goes_link h hpc hs
      | none => cases hs
  | joinRelease t => exact goes_release h hpc hs
  | joinOut t r =>
      obtain rfl := Option.some.inj hs
      cases r with
      | some x => exact goes_goto h hpc rfl (fun _ => id) ⟨hk.1, hk.2, rfl⟩
      | none =>
          exact goes_goto h hpc rfl (fun _ => id) ⟨none, hk.1, hk.2, fun x hx => by cases hx⟩
  | joinStore t x val => exact goes_store h (hok t x val rfl) hpc hs
  | joinUnlock t =>
      obtain rfl := Option.some.inj hs
      obtain ⟨r, hc, hst, hf⟩ := hk
      refine goes_exec h hpc (Function.update_self ..)
        (.of_eq rfl rfl rfl rfl rfl rfl rfl) rfl (fun _ => id)
        fun t' r' hc' => ?_
      rw [hc] at hc'
      obtain ⟨rfl, rfl⟩ := Prod.mk.inj (Option.some.inj hc')
      exact ⟨hst, hf⟩
  | _ => cases hs

theorem told_semaWait (h : Steps w s a) (hpc : w.st.pc a = .exec me p)
    (hs : semaWait w.st a me p = some s) : Goes w s a := by
  have hk := h.told.knows hpc
  cases p with
  | semCas t =>
      obtain ⟨hme, r, hc, hf⟩ := hk
      by_cases hfut : w.st.fut t = 1
      · -- the permit is the target's
        simp only [semaWait, if_pos hfut, Option.some.injEq] at hs
        have hst : Stored w.st t := h.told.posts t (by rw [hfut]; exact Nat.one_ne_zero)
        have hq : s.pc a = .exec me (.cont .user) := by
          subst hs
          exact Function.update_self ..
        refine goes_exec h hpc hq ?_ rfl (fun t' ht' => by cases ht') fun t' r' hc' => ?_
        · subst hs
          refine ⟨rfl, rfl, rfl, rfl, fun _ => rfl, fun t' ht' => ?_, fun _ => id⟩
          by_cases htt : t' = t
          · rw [htt, hfut]
            exact Nat.one_ne_zero
          · have hne : update w.st.fut t 0 t' ≠ 0 := ht'
            rw [Function.update_of_ne htt] at hne
            exact hne
        · rw [hc] at hc'
          obtain ⟨rfl, rfl⟩ := Prod.mk.inj (Option.some.inj hc')
          exact ⟨hst, hf hst⟩
      · simp only [semaWait, if_neg hfut, Option.some.injEq] at hs
        subst hs
        exact goes_goto h hpc rfl (fun _ => id) ⟨hme, r, hc, hf⟩
  | semFutex t =>
      by_cases hfut : w.st.fut t = 0
      · simp only [semaWait, if_pos hfut, Option.some.injEq] at hs
        subst hs
        exact goes_exec h hpc (Function.update_self ..)
          (.of_eq rfl rfl rfl rfl rfl rfl rfl) rfl (fun _ => id) hk
      · simp only [semaWait, if_neg hfut, Option.some.injEq] at hs
        subst hs
        exact goes_goto h hpc rfl (fun _ => id) hk
  | semSleep t =>
      simp only [semaWait, Option.ite_none_left_eq_some, Option.some.injEq] at hs
      obtain ⟨-, rfl⟩ := hs
      exact goes_goto h hpc rfl (fun _ => id) hk
  | _ => cases hs

/-- The result of the vthread is set, at the end of its program. -/
theorem goes_ends {val : ℕ} {q : Pc V (JoinPc V) (JoinCont V) V} (h : Steps w s a)
    (hpc : w.st.pc a = .exec (some v) p) (hp : p.stored = false)
    (hk : w.ended v = some val) (hq : q = .exec (some v) .exitUnlock
      ∨ q = .switch v (.status .finished) .dead)
    (hs : s = { w.st with
      routineRet := update w.st.routineRet v val
      pc := update w.st.pc a q }) : Goes w s a := by
  -- nobody relies on `routine_ret` before the store
  have hno : ¬Stored w.st v := not_stored h.told.once hpc hp
  have hself : s.pc a = q := by
    subst hs
    exact Function.update_self ..
  have hret : ∀ u, u ≠ v → s.routineRet u = w.st.routineRet u := by
    intro u hu
    subst hs
    exact Function.update_of_ne hu ..
  have hval : w.ended v = some (s.routineRet v) := by
    subst hs
    show w.ended v = some (update w.st.routineRet v val v)
    rw [Function.update_self]
    exact hk
  have hown : ∀ t, StoredAt (s.pc a) t ↔ StoredAt (w.st.pc a) t := by
    intro t
    rw [hpc, hself]
    refine iff_of_false ?_ fun hs => ?_
    · rcases hq with rfl | rfl
      · exact fun hs => by cases hs.2
      · exact id
    · have hp' : p.stored = true := hs.2
      rw [hp] at hp'
      cases hp'
  obtain ⟨-, hm⟩ := marks_still h (by subst hs; rfl) (by subst hs; rfl) (by subst hs; rfl) hown
  have hvs : Values w s a := by
    refine ⟨fun u hu => ⟨hret u fun he => hu ?_, by subst hs; rfl⟩, fun t ht => hret t fun he => ?_,
      fun c t x _ _ hx => ?_⟩
    · rw [hpc, he]
      rfl
    · exact hno (he ▸ ht)
    · subst hs
      exact hx
  refine goes_leaves h hvs hm (places_same h (fun t => by subst hs; rfl) fun t ht => ?_)
    (off_of_runner fun u hu => ?_) ?_
  · rw [hself] at ht
    rcases hq with rfl | rfl <;> exact absurd rfl ht
  · rw [hpc] at hu
    rw [hself]
    rcases hq with rfl | rfl <;> exact hu
  · rw [hself]
    rcases hq with rfl | rfl
    · intro u hu
      obtain rfl := Option.some.inj hu
      exact hval
    · exact hval

theorem told_pthreadExit (h : Steps w s a) (hpc : w.st.pc a = .exec me p)
    (hs : pthreadExit w.st a me p = some s) : Goes w s a := by
  have hk := h.told.knows hpc
  cases p with
  | cont k =>
      cases k with
      | exitLock val =>
          cases me with
          | some v =>
              obtain rfl := Option.some.inj hs
              refine goes_lockLoop h hpc rfl (fun _ => rfl) hk (fun hme => by cases hme)
                fun u hu => ?_
              exact hk u hu
          | none =>
              obtain rfl := Option.some.inj hs
              exact goes_crash h hpc (Function.update_self ..)
                (.of_eq rfl rfl rfl rfl rfl rfl rfl)
      | _ => cases hs
  | exitSet val =>
      cases me with
      | some v => exact goes_ends h hpc rfl (hk v rfl) (.inl rfl) (Option.some.inj hs).symm
      | none => cases hs
  | exitUnlock =>
      cases me with
      | some v =>
          have hs := Option.some.inj hs
          refine goes_switch (r := .status .finished) (k := .dead) h hpc ?_ ?_ rfl (hk v rfl)
          · subst hs
            exact Function.update_self ..
          · subst hs
            exact .of_eq rfl rfl rfl rfl rfl rfl rfl
      | none => cases hs
  | _ => cases hs

theorem told_manage (h : Steps w s a) (hpc : w.st.pc a = .exec me p)
    (hs : manage w.st a me p = some s) : Goes w s a := by
  have hk := h.told.knows hpc
  cases p with
  | cont k =>
      cases k with
      | dead => exact hk.elim
      | _ => cases hs
  | manageRet val =>
      cases me with
      | some v => exact goes_ends h hpc rfl (hk v rfl) (.inr rfl) (Option.some.inj hs).symm
      | none => cases hs
  | _ => cases hs

/-- `wake_up_joined` has stored the result for all joiners that wait. -/
theorem goes_stores (cl : ℕ → ℕ) (h : Steps w s a) (hpc : w.st.pc a = .exec (some v) p)
    (hlock : p.lock (some v) = some v) (hp : p.stored = false) (hv : Values w s a)
    (hend : w.ended v = some (w.st.routineRet v))
    (hfill : ∀ c x, Registered w.st v c → w.asked c = some (v, some x) → cl x = w.st.routineRet v)
    (hs : s = { w.st with
      cell := cl
      pc := update w.st.pc a (.exec (some v) .wakeStatus) }) : Goes w s a := by
  have hq : s.pc a = .exec (some v) .wakeStatus := by
    subst hs
    exact Function.update_self ..
  have hm : Marks w s a := by
    refine ⟨fun t ht => ?_, fun t ht => ?_, fun t ht => .inl ?_, fun t ht => .inl ?_,
      fun t ht => .inl ?_⟩
    · rcases ht with hd | ⟨b, hb⟩
      · subst hs
        exact .inl hd
      · refine .inr ⟨b, ?_⟩
        by_cases hba : b = a
        · rw [hba, hpc] at hb
          have hp' : p.stored = true := hb.2
          rw [hp] at hp'
          cases hp'
        · rw [h.pc hba]
          exact hb
    · rcases ht with hd | ⟨b, hb⟩
      · subst hs
        exact .inl (.inl hd)
      · by_cases hba : b = a
        · -- the mark is new
          rw [hba, hq] at hb
          obtain rfl := Option.some.inj hb.1
          refine .inr ⟨hpc ▸ hlock, fun c x hreg hc => ?_⟩
          subst hs
          exact hfill c x hreg hc
        · rw [h.pc hba] at hb
          exact .inl (.inr ⟨b, hb⟩)
    all_goals
      subst hs
      exact ht
  refine goes_leaves h hv hm (places_same h (fun t => by subst hs; rfl) fun t ht => ?_)
    (off_of_runner fun u hu => ?_) ?_
  · rw [hq] at ht
    exact absurd rfl ht
  · rw [hpc] at hu
    rw [hq]
    exact hu
  · rw [hq]
    intro u hu
    obtain rfl := Option.some.inj hu
    subst hs
    exact hend

/-- `wake_up_joined` returns. -/
theorem goes_finish (h : Steps w (w.st.finish a v) a) (hpc : w.st.pc a = .exec (some v) p)
    (hp : p.stored = true) (hend : w.ended v = some (w.st.routineRet v)) :
    Goes w (w.st.finish a v) a := by
  have hq : (w.st.finish a v).pc a = .top := Function.update_self ..
  have hself : (w.st.finish a v).done v = true := Function.update_self ..
  have hdone : ∀ t, t ≠ v → (w.st.finish a v).done t = w.st.done t :=
    fun t ht => Function.update_of_ne ht ..
  -- the mark moves from the worker's point to `done`
  have hm : Marks w (w.st.finish a v) a := by
    refine ⟨fun t ht => ?_, fun t ht => .inl ?_, fun _ => .inl, fun _ => .inl, fun t ht => ?_⟩
    · by_cases htv : t = v
      · exact .inl (htv ▸ hself)
      · rcases ht with hd | ⟨b, hb⟩
        · exact .inl ((hdone t htv).trans hd)
        · refine .inr ⟨b, ?_⟩
          by_cases hba : b = a
          · rw [hba, hpc] at hb
            exact absurd (Option.some.inj hb.1).symm htv
          · rw [h.pc hba]
            exact hb
    · by_cases htv : t = v
      · refine .inr ⟨a, ?_⟩
        rw [hpc, htv]
        exact ⟨rfl, hp⟩
      · rcases ht with hd | ⟨b, hb⟩
        · exact .inl ((hdone t htv).symm.trans hd)
        · refine .inr ⟨b, ?_⟩
          by_cases hba : b = a
          · rw [hba, hq] at hb
            exact hb.elim
          · rw [h.pc hba] at hb
            exact hb
    · by_cases htv : t = v
      · exact .inr (htv ▸ hend)
      · exact .inl ((hdone t htv).symm.trans ht)
  refine goes_leaves h (values_same rfl rfl rfl) hm (places_same h (fun _ => rfl) fun t ht => ?_)
    (fun u hu hd => ?_) ?_
  · rw [hq] at ht
    exact absurd rfl ht
  · rw [hpc] at hu
    obtain rfl := Option.some.inj hu
    rw [hself] at hd
    cases hd
  · rw [hq]
    trivial

/-- `wake_up_joined` cuts off the list; the result has been stored. -/
theorem goes_cut {n : ℤ} {hd : Option V} (h : Steps w s a)
    (hpc : w.st.pc a = .exec (some v) (.wakeNull n hd)) (hend : w.ended v = some (w.st.routineRet v))
    (hs : wakeUpJoined w.st a v (.wakeNull n hd) = some s) : Goes w s a := by
  have hs := Option.some.inj hs
  have hq : s.pc a = .exec (some v) (.wakeUnlock n hd) := by
    subst hs
    exact Function.update_self ..
  have hl : s.linked = update (update w.st.linked (.queue v) []) (.cut a) (w.st.linked (.queue v)) := by
    subst hs
    rfl
  have hnil : s.linked (.queue v) = [] := by
    rw [hl, Function.update_of_ne (cut_ne_queue a v).symm, Function.update_self]
  have hother : ∀ t, t ≠ v → s.linked (.queue t) = w.st.linked (.queue t) := by
    intro t ht
    rw [hl, Function.update_of_ne (cut_ne_queue a t).symm,
      Function.update_of_ne fun he => ht (JoinList.queue.inj he)]
  obtain ⟨hst, hm⟩ := marks_still h (by subst hs; rfl) (by subst hs; rfl) (by subst hs; rfl)
    fun t => by rw [hpc, hq]; exact Iff.rfl
  have hp : Places w s a := by
    refine ⟨fun u t hu => ?_, fun t c hreg => .inr ?_⟩
    · by_cases ht : t = v
      · refine .inr (.inr ⟨a, ?_⟩)
        rw [hq, ht]
        exact ⟨rfl, rfl⟩
      · refine .inl ?_
        rw [hother t ht]
        exact hu
    · cases c with
      | inr u =>
          have hu : u ∈ s.linked (.queue t) := hreg
          by_cases ht : t = v
          · rw [ht, hnil] at hu
            cases hu
          · rw [hother t ht] at hu
            exact hu
      | inl b => exact h.waits (by rw [hq]; rfl) hreg
  refine goes_leaves h (values_same (by subst hs; rfl) (by subst hs; rfl) (by subst hs; rfl)) hm hp
    (off_of_runner fun u hu => ?_) ?_
  · rw [hpc] at hu
    rw [hq]
    exact hu
  · rw [hq]
    intro u hu
    obtain rfl := Option.some.inj hu
    subst hs
    exact hend

/-- `wake_up_joined` of `v` goes on after it has stored the result; it may set the
    status of `v` and post its `join_sem`. -/
theorem goes_stored (h : Steps w s a) (hpc : w.st.pc a = .exec (some v) p) {p' : JoinPc V}
    (hq : s.pc a = .exec (some v) p') (hp : p.stored = true) (hp' : p'.stored = true)
    (hret : s.routineRet = w.st.routineRet) (hcell : s.cell = w.st.cell)
    (hdone : s.done = w.st.done) (hctx : s.ctx = w.st.ctx) (hl : s.linked = w.st.linked)
    (hfut : ∀ t, t ≠ v → s.fut t = w.st.fut t)
    (hcur : ∀ t, t ≠ v → s.curStatus t = w.st.curStatus t)
    (hk : Knows w (caller a (some v)) (some v) p') : Goes w s a := by
  -- what the step does to `v` itself is backed by the mark
  have hmark : StoredAt (s.pc a) v := by
    rw [hq]
    exact ⟨rfl, hp'⟩
  refine goes_silent h ⟨hret, hcell, hdone, hctx, fun t => by rw [hl], fun t ht => ?_, fun t ht => ?_,
    fun t => ?_, fun t ht => ?_, fun u hu => ?_⟩ ?_
  · by_cases htv : t = v
    · exact .inr (htv ▸ hmark)
    · rw [hfut t htv] at ht
      exact .inl ht
  · by_cases htv : t = v
    · exact .inr (htv ▸ hmark)
    · rw [hcur t htv] at ht
      exact .inl ht
  · rw [hpc, hq]
    show _ ∧ p'.stored = true ↔ _ ∧ p.stored = true
    rw [hp, hp']
  · rw [hq] at ht
    exact absurd rfl ht
  · rw [hpc] at hu
    rw [hq]
    exact hu
  · rw [hq]
    exact hk

theorem told_wake (h : Steps w s a)
    (hread : p = .wakeRetval → ∀ c x, Registered w.st v c → w.asked c = some (v, some x) →
      w.st.retval v = some x)
    (hstore : ∀ x val, p = .wakeStore x val → OnlyFor w x v)
    (hpc : w.st.pc a = .exec (some v) p) (hs : wakeUpJoined w.st a v p = some s) : Goes w s a := by
  have hk := h.told.knows hpc
  have hgo : ∀ p', s = w.st.goto a (.exec (some v) p') → p'.stored = p.stored →
      (∀ t, p'.waitsFor t = false) → Knows w (caller a (some v)) (some v) p' → Goes w s a := by
    intro p' hs' hst hw hk'
    subst hs'
    refine goes_goto h hpc hst (fun t ht => ?_) hk'
    rw [hw t] at ht
    cases ht
  cases p with
  | cont k =>
      cases k with
      | wakeLock =>
          obtain rfl := Option.some.inj hs
          exact goes_lockLoop h hpc rfl (fun _ => rfl) hk (fun hme => by cases hme)
            fun u hu => hk u hu
      | _ => cases hs
  | wakeRetval =>
      have hs := (Option.some.inj hs).symm
      cases hr : w.st.retval v with
      | some x =>
          rw [hr] at hs
          refine hgo (.wakeOut x) hs rfl (fun _ => rfl) fun u hu => ⟨hk u hu, ?_⟩
          obtain rfl := Option.some.inj hu
          intro c y hreg hc
          exact Option.some.inj ((hread rfl c y hreg hc).symm.trans hr)
      | none =>
          rw [hr] at hs
          refine goes_stores w.st.cell h hpc rfl rfl ?_ (hk v rfl) (fun c x hreg hc => ?_) hs
          · subst hs
            exact values_same rfl rfl rfl
          · have hx := hread rfl c x hreg hc
            rw [hr] at hx
            cases hx
  | wakeOut x =>
      refine hgo _ (Option.some.inj hs).symm rfl (fun _ => rfl) fun u hu => ?_
      obtain rfl := Option.some.inj hu
      exact ⟨(hk v rfl).1, (hk v rfl).2, rfl⟩
  | wakeStore x val =>
      have hs := (Option.some.inj hs).symm
      obtain ⟨hend, honly, hval⟩ := hk v rfl
      refine goes_stores (update w.st.cell x val) h hpc rfl rfl ?_ hend
        (fun c y hreg hc => ?_) hs
      · subst hs
        exact values_store (hstore x val rfl) hval rfl rfl rfl
      · rw [honly c y hreg hc, Function.update_self]
        exact hval
  | wakeStatus =>
      obtain rfl := Option.some.inj hs
      exact goes_stored h hpc (Function.update_self ..) rfl rfl rfl rfl rfl rfl rfl (fun _ _ => rfl)
        (fun t ht => Function.update_of_ne ht ..) hk
  | wakeNum =>
      have hs := (Option.some.inj hs).symm
      by_cases hn : w.st.joinWaitersNum v = 0
      · rw [if_pos hn] at hs
        exact hgo _ hs rfl (fun _ => rfl) hk
      · rw [if_neg hn] at hs
        exact hgo _ hs rfl (fun _ => rfl) hk
  | wakeWaiters | wakeHead n => exact hgo _ (Option.some.inj hs).symm rfl (fun _ => rfl) hk
  | wakeZero n | wakeUnlock n hd | wakeClear n u hd | wakeEnq n u hd =>
      obtain rfl := Option.some.inj hs
      exact goes_exec h hpc (Function.update_self ..)
        (.of_eq rfl rfl rfl rfl rfl rfl rfl) rfl (fun t ht => by cases ht) hk
  | wakeNull n hd => exact goes_cut h hpc (hk v rfl) hs
  | wakeCheck n hd =>
      have hs := (Option.some.inj hs).symm
      by_cases hn : n = 0
      · rw [if_pos hn] at hs
        subst hs
        exact goes_finish h hpc rfl (hk v rfl)
      · rw [if_neg hn] at hs
        exact hgo _ hs rfl (fun _ => rfl) hk
  | wakeDeq n hd =>
      cases hd with
      | none => exact hgo _ (Option.some.inj hs).symm rfl (fun _ => rfl) hk
      | some u =>
          obtain rfl := Option.some.inj hs
          refine goes_exec h hpc (Function.update_self ..)
            ⟨rfl, rfl, rfl, rfl, fun t => ?_, fun _ => id, fun _ => id⟩ rfl (fun t ht => by cases ht) hk
          show update w.st.linked (.cut a) ((w.st.linked (.cut a)).erase u) (.queue t) = _
          exact Function.update_of_ne (cut_ne_queue a t).symm ..
  | wakeSet n u hd =>
      obtain rfl := Option.some.inj hs
      exact goes_exec h hpc (Function.update_self ..)
        ⟨rfl, rfl, rfl, rfl, fun _ => rfl, fun _ => id, fun _ => finished_of_update (by decide)⟩ rfl
        (fun t ht => by cases ht) hk
  | wakePost n =>
      have hs := (Option.some.inj hs).symm
      by_cases hn : n = 0
      · rw [if_pos hn] at hs
        subst hs
        exact goes_finish h hpc rfl (hk v rfl)
      · rw [if_neg hn] at hs
        by_cases hf : w.st.fut v = 0
        · rw [if_pos hf] at hs
          subst hs
          exact goes_stored h hpc (Function.update_self ..) rfl rfl rfl rfl rfl rfl rfl
            (fun t ht => Function.update_of_ne ht ..) (fun _ _ => rfl) hk
        · rw [if_neg hf] at hs
          exact hgo _ hs rfl (fun _ => rfl) hk
  | wakeFutex n =>
      simp only [wakeUpJoined, Option.ite_none_right_eq_some, Option.some.injEq] at hs
      exact hgo _ hs.2.symm rfl (fun _ => rfl) hk
  | _ => cases hs

theorem told_futexWake {b : A} (h : Steps w s a) (hpc : w.st.pc a = .exec (some v) p)
    (hs : futexWake w.st a v b p = some s) : Goes w s a := by
  have hk := h.told.knows hpc
  cases p with
  | wakeFutex n =>
      simp only [futexWake, Option.ite_none_right_eq_some, Option.some.injEq] at hs
      obtain ⟨-, rfl⟩ := hs
      exact goes_exec h hpc (Function.update_self ..)
        (.of_eq rfl rfl rfl rfl rfl rfl rfl) rfl (fun t ht => by cases ht) hk
  | _ => cases hs

omit [DecidableEq A] in
/-- What to do at a point of the code, where `v` is to be resumed. -/
theorem knows_of_cont {k : JoinCont V} (hk : KnowsCont w v k)
    (hl : ∀ t, v ∉ w.st.linked (.queue t)) : Knows w (.inr v) (some v) (.cont k) := by
  cases k with
  | user =>
      intro t r hc
      obtain ⟨hin, hf⟩ := hk t r hc
      have hst := hin.resolve_left (hl t)
      exact ⟨hst, hf hst⟩
  | joinLock t r => exact hk
  | exitLock val =>
      intro u hu
      obtain rfl := Option.some.inj hu
      exact hk
  | wakeLock =>
      intro u hu
      obtain rfl := Option.some.inj hu
      exact hk
  | dead => exact hk.elim

omit [DecidableEq A] in
/-- A vthread is resumed: it was not running, and it was in no list. -/
theorem knows_resume (h : Told w) (hpc : w.st.pc a = .resume v) :
    Knows w (.inr v) (some v) (.cont (w.st.ctx v)) := by
  have hheld : (w.st.pc a).Holds joinShape v := hpc ▸ rfl
  -- nobody else runs it, it is not finished and in no list
  refine knows_of_cont (h.off v ?_ fun b hb => ?_) fun t ht => ?_
  · rw [← Bool.not_eq_true]
    exact fun hd => h.once.lists.inPlace.not_holds_of_gone (a := a) trivial hd hheld
  · rcases holds_or_passing h.once hb with hb' | ⟨t, hb'⟩
    · have hab := h.once.lists.inPlace.holder_unique trivial hheld hb'
      rw [← hab, hpc] at hb
      cases hb
    · exact h.once.not_holds_of_passing hb' hheld
  · exact h.once.lists.inPlace.not_mem_of_holds (b := some (.queue t)) trivial hheld ht

/-- The worker saves the context of a vthread that switched out. -/
theorem goes_switchOut {r : Ret V} {k : JoinCont V} (h : Steps w s a)
    (hpc : w.st.pc a = .switch v r k)
    (hs : s = { w.st with ctx := update w.st.ctx v k, pc := update w.st.pc a (.ret v r) }) :
    Goes w s a := by
  have hk := h.told.known a
  rw [hpc] at hk
  have hq : s.pc a = .ret v r := by
    subst hs
    exact Function.update_self ..
  obtain ⟨hst, hm⟩ := marks_still h (by subst hs; rfl) (by subst hs; rfl) (by subst hs; rfl)
    fun t => by rw [hpc, hq]; exact Iff.rfl
  have hv : Values w s a := by
    refine ⟨fun u hu => ⟨by subst hs; rfl, ?_⟩, fun t _ => by subst hs; rfl, fun c t x _ _ hx => ?_⟩
    · have hne : u ≠ v := by
        intro he
        rw [hpc, he] at hu
        exact hu rfl
      subst hs
      exact Function.update_of_ne hne ..
    · subst hs
      exact hx
  have hp : Places w s a := by
    refine places_same h (fun t => by subst hs; rfl) fun t ht => ?_
    rw [hq] at ht
    exact absurd rfl ht
  have hret : s.routineRet v = w.st.routineRet v := by
    subst hs
    rfl
  refine goes_leaves h hv hm hp (fun u hu hd hno => ?_) ?_
  · rw [hpc] at hu
    obtain rfl := Option.some.inj hu
    have hctx : s.ctx v = k := by
      subst hs
      exact Function.update_self ..
    rw [hctx]
    have hcont : KnowsCont w v k := by
      cases r with
      | mutex m => exact hk
      | status st =>
          cases st with
          | finished =>
              -- a finished vthread is still in this worker's hands
              have hbusy := hno a
              rw [hq] at hbusy
              exact absurd rfl hbusy
          | _ => exact hk
    exact knowsCont_leaves hv hm hp hret hcont
  · rw [hq]
    cases r with
    | mutex m => trivial
    | status st =>
        cases st with
        | finished =>
            show w.ended v = some (s.routineRet v)
            rw [hret]
            exact hk
        | _ => trivial

/-- The agent runs no vthread, and none has just finished there. -/
def resting : Pc V (JoinPc V) (JoinCont V) V → Bool
  | .exec _ _ | .switch _ _ _ | .ret _ (.status .finished) | .crashed => false
  | _ => true

omit [DecidableEq A] in
/-- Then there is nothing to know. -/
theorem resting_facts {q : Pc V (JoinPc V) (JoinCont V) V} (hq : resting q = true) :
    (∀ t, ¬StoredAt q t) ∧ (∀ t, waitsFor t q = 0) ∧ runner q = none ∧ At w a q := by
  cases q with
  | ret v r =>
      cases r with
      | mutex m => exact ⟨fun _ => id, fun _ => rfl, rfl, trivial⟩
      | status st =>
          cases st with
          | finished => cases hq
          | _ => exact ⟨fun _ => id, fun _ => rfl, rfl, trivial⟩
  | exec me p => cases hq
  | switch v r k => cases hq
  | crashed => cases hq
  | _ => exact ⟨fun _ => id, fun _ => rfl, rfl, trivial⟩

theorem goes_rest (h : Steps w s a) {q : Pc V (JoinPc V) (JoinCont V) V}
    (hpc : resting (w.st.pc a) = true) (hs : s.pc = update w.st.pc a q) (hq : resting q = true)
    (hsame : Kept w.st s) : Goes w s a := by
  have hself : s.pc a = q := by rw [hs, Function.update_self]
  obtain ⟨hst, -, hr, -⟩ := resting_facts (w := w) (a := a) hpc
  obtain ⟨hst', hw', -, hk'⟩ := resting_facts (w := w) (a := a) hq
  -- nothing is known at either point
  refine goes_silent h (hsame.silent rfl hself (fun t => iff_of_false (hst' t) (hst t))
    (fun t ht => absurd (hw' t) ht) fun v hv => ?_) ?_
  · rw [hr] at hv
    cases hv
  · rw [hself]
    exact hk'

/-- A worker or a vthread without a program goes on. -/
theorem goes_enter {k : JoinCont V} (h : Steps w s a)
    (hpc : ∀ t, ¬StoredAt (w.st.pc a) t) (hr : ∀ u, runner (w.st.pc a) = some u → u = v)
    (hs : s.pc = update w.st.pc a (.exec (some v) (.cont k))) (hsame : Kept w.st s)
    (hk : Knows w (.inr v) (some v) (.cont k)) : Goes w s a := by
  have hself : s.pc a = .exec (some v) (.cont k) := by rw [hs, Function.update_self]
  refine goes_silent h (hsame.silent rfl hself (fun t => iff_of_false (fun hs => by cases hs.2) (hpc t))
    (fun t ht => absurd rfl ht) fun u hu => congrArg some (hr u hu).symm) ?_
  rw [hself]
  exact hk

/-- A worker that rests goes on resting, unless it resumes a vthread. -/
theorem rest_step (hpc : resting (w.st.pc a) = true) (hno : ∀ v, w.st.pc a ≠ .resume v)
    (hs : joinWorker w.st a = some s) :
    ∃ q, s.pc = update w.st.pc a q ∧ resting q = true ∧ Kept w.st s := by
  cases hq : w.st.pc a with
  | got v =>
      simp only [joinWorker, hq, workerRoutine, Option.map_some, Option.some.injEq] at hs
      subst hs
      refine ⟨if w.st.runnable v then .resume v else .putBack v, rfl, ?_,
        .of_eq rfl rfl rfl rfl rfl rfl rfl⟩
      split <;> rfl
  | readStatus v =>
      simp only [joinWorker, hq, workerRoutine, Option.map_some, Option.some.injEq] at hs
      subst hs
      refine ⟨if w.st.curStatus v = .suspended then .wakeSelf v else .top, rfl, ?_,
        .of_eq rfl rfl rfl rfl rfl rfl rfl⟩
      split <;> rfl
  | putBack v | setRunnable v | wakeSelf v =>
      simp only [joinWorker, hq, workerRoutine, Option.map_some, Option.some.injEq] at hs
      subst hs
      exact ⟨_, rfl, rfl, .of_eq rfl rfl rfl rfl rfl rfl rfl⟩
  | ret v r =>
      cases r with
      | mutex m =>
          simp only [joinWorker, hq, workerRoutine, Option.map_some, Option.some.injEq] at hs
          subst hs
          exact ⟨_, rfl, rfl, .of_eq rfl rfl rfl rfl rfl rfl rfl⟩
      | status st =>
          cases st with
          | finished =>
              rw [hq] at hpc
              cases hpc
          | blocked | suspended | lockFail =>
              simp only [joinWorker, hq, workerRoutine, Option.map_some, Option.some.injEq] at hs
              subst hs
              exact ⟨_, rfl, rfl, .of_eq rfl rfl rfl rfl rfl rfl rfl⟩
  | resume v => exact absurd hq (hno v)
  | top => simp [joinWorker, hq, workerRoutine] at hs
  | exec me p | switch v r k | crashed =>
      rw [hq] at hpc
      cases hpc

theorem told_worker (h : Steps w s a) (hs : joinWorker w.st a = some s) : Goes w s a := by
  have hk := h.told.known a
  by_cases hres : ∃ v, w.st.pc a = .resume v
  · obtain ⟨v, hpc⟩ := hres
    simp only [joinWorker, hpc, workerRoutine, Option.map_some, Option.some.injEq] at hs
    subst hs
    refine goes_enter h (fun t => hpc ▸ id) (fun u hu => ?_) rfl
      (.of_eq rfl rfl rfl rfl rfl rfl rfl) (knows_resume h.told hpc)
    rw [hpc] at hu
    cases hu
  by_cases hrest : resting (w.st.pc a) = true
  · obtain ⟨q, hself, hq, hsame⟩ := rest_step hrest (fun v hv => hres ⟨v, hv⟩) hs
    exact goes_rest h hrest hself hq hsame
  cases hpc : w.st.pc a with
  | switch v r k =>
      simp only [joinWorker, hpc, workerRoutine, Option.map_some, Option.some.injEq] at hs
      exact goes_switchOut h hpc hs.symm
  | ret v r =>
      cases r with
      | status st =>
          cases st with
          | finished =>
              -- the worker turns to `wake_up_joined`
              rw [hpc] at hk
              simp only [joinWorker, hpc, workerRoutine, Option.map_some, Option.some.injEq] at hs
              subst hs
              refine goes_enter (v := v) (k := .wakeLock) h (fun t => hpc ▸ id) (fun u hu => ?_)
                rfl (.of_eq rfl rfl rfl rfl rfl rfl rfl) fun u hu => ?_
              · rw [hpc] at hu
                exact (Option.some.inj hu).symm
              · obtain rfl := Option.some.inj hu
                exact hk
          | blocked | suspended | lockFail =>
              rw [hpc] at hrest
              exact absurd rfl hrest
      | mutex m =>
          rw [hpc] at hrest
          exact absurd rfl hrest
  | exec me p | crashed => simp [joinWorker, hpc, workerRoutine] at hs
  | _ =>
      rw [hpc] at hrest
      exact absurd rfl hrest

end Code

end HThread.Join
