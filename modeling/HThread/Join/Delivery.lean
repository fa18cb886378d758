/-
  HThread.Join.Delivery — whether a joiner finds the result of its target.

  Key lemmas:
    * `told_step`     — what the agents know survives every step that `Delivers`
      admits, calls and returns included.
  Main results:
    * `delivered`     — runs of such steps deliver every result.
    * `result_missed` — two joiners, two variables, one result.
-/
import HThread.Join.Results

namespace HThread.Join

open Interleave
open Function (update)

variable {A V : Type} [DecidableEq A] [DecidableEq V]

/-! ## §1. Calls and returns. -/

section Steps

variable {w : Logged A V} {s : JoinState A V} {act : JoinAct A V} {a : A} {me : Option V}
  {p : JoinPc V} {v t : V}

/-- A target that stored its result ended with it. -/
theorem ended_of_stored (h : Others w a) (hk : At w a (w.st.pc a)) (hst : Stored w.st t) :
    w.ended t = some (w.st.routineRet t) := by
  rcases hst with hd | ⟨b, hb⟩
  · exact h.gone t hd
  · have hkb : At w b (w.st.pc b) := by
      by_cases hba : b = a
      · exact hba ▸ hk
      · exact h.others b hba
    -- between the store and the end its worker knows it
    cases hpc : w.st.pc b with
    | exec me p =>
        rw [hpc] at hb hkb
        obtain ⟨rfl, hp⟩ := hb
        cases p with
        | wakeStatus => exact hkb t rfl
        | wakeNum | wakeWaiters | wakeZero n | wakeHead n | wakeNull n hd | wakeUnlock n hd
        | wakeCheck n hd | wakeDeq n hd | wakeClear n u hd | wakeSet n u hd | wakeEnq n u hd
        | wakePost n | wakeFutex n => exact hkb t rfl
        | _ => cases hp
    | _ =>
        rw [hpc] at hb
        exact hb.elim

omit [DecidableEq A] in
/-- What was found does not matter to anybody. -/
theorem others_found (h : Others w a) {l : List (V × ℕ)}
    (hl : ∀ e ∈ l, Stored w.st e.1 ∧ w.ended e.1 = some e.2) :
    Others { w with found := l ++ w.found } a := by
  refine ⟨h.once, h.others, h.back, h.off, h.posts, h.marked, h.gone, fun e he => ?_⟩
  rcases List.mem_append.mp he with he | he
  · exact hl e he
  · exact h.found e he

/-- The return of a call of `join` is written down. -/
theorem told_back (h : Others w a) (hk : At w a (w.st.pc a)) : Told (w.back a) := by
  unfold Logged.back
  split
  · next me hpc =>
      have hk' := hk
      rw [hpc] at hk'
      split
      · next t r hc =>
          -- the call returns: its target has stored the result, in this caller's variable
          obtain ⟨hst, hf⟩ := hk' t r hc
          have hend := ended_of_stored h hk hst
          have hnone : update w.asked (caller a me) none (caller a me) = none := Function.update_self ..
          have hnote := others_note (update w.asked (caller a me) none) w.ended h
            hpc rfl (fun _ => rfl) (fun c hc => Function.update_of_ne hc ..) fun _ _ => rfl
          have hfound := others_found hnote (l := (r.map fun x => (t, w.st.cell x)).toList)
            fun e he => ?_
          · refine hfound.told ?_ fun me' he => ?_
            · show At _ a (w.st.pc a)
              rw [hpc]
              intro t' r' hc'
              have he := hnone.symm.trans hc'
              cases he
            · obtain ⟨rfl, -⟩ := Pc.exec.inj (hpc.symm.trans he)
              exact hnone
          -- what is found in the variable is what the target ended with
          · simp only [Option.mem_toList, Option.map_eq_some_iff] at he
            obtain ⟨x, hx, rfl⟩ := he
            refine ⟨hst, ?_⟩
            show w.ended t = some (w.st.cell x)
            rw [hf x hx]
            exact hend
      · next hc =>
          refine h.told hk fun me' he => ?_
          obtain ⟨rfl, -⟩ := Pc.exec.inj (hpc.symm.trans he)
          exact hc
  · next hno => exact h.told hk fun me he => absurd he (hno me)

/-- So is the value with which a vthread ends, by either way. -/
theorem told_ends {val : ℕ} (h : Others { w with st := s } a) (hq : s.pc a = .exec (some v) p)
    (hp : p = .cont (.exitLock val) ∨ p = .manageRet val) :
    Told { w with st := s, ended := update w.ended v (some val) } := by
  have hfacts : p.stored = false ∧ (∀ t, p.waitsFor t = false) ∧ p ≠ .cont .user := by
    rcases hp with rfl | rfl
    · exact ⟨rfl, fun _ => rfl, by simp⟩
    · exact ⟨rfl, fun _ => rfl, by simp⟩
  obtain ⟨hst, hw, hne⟩ := hfacts
  have hnote := others_note w.asked (update w.ended v (some val)) h hq hst hw
    (fun _ _ => rfl) fun u hu => Function.update_of_ne (fun he => hu (congrArg some he.symm)) ..
  -- the value is read only by the code that ends `v`
  have hself : ∀ u, some v = some u → update w.ended v (some val) u = some val := by
    intro u hu
    obtain rfl := Option.some.inj hu
    exact Function.update_self ..
  refine hnote.told ?_ fun me' he => ?_
  · show At _ a (s.pc a)
    rw [hq]
    rcases hp with rfl | rfl
    · exact hself
    · exact hself
  · obtain ⟨-, hp'⟩ := Pc.exec.inj (hq.symm.trans he)
    exact absurd hp' hne

/-- A call by the program is written down. -/
theorem told_call {f : JoinCall V} (h : Steps w s a) (hpc : w.st.pc a = .exec me (.cont .user))
    (hs : joinCall w.st a me f = some s) : Told (Logged.call { w with st := s } a me f) := by
  have hnone := h.told.back a me hpc
  have hgo : ∀ p', s = w.st.goto a (.exec me p') → p'.stored = false → (∀ t, p'.waitsFor t = false) →
      s.pc a = .exec me p' ∧ Others { w with st := s } a := by
    intro p' hs' hst hw
    have hq : s.pc a = .exec me p' := by
      subst hs'
      exact Function.update_self ..
    have hkept : Kept w.st s := by
      subst hs'
      exact .of_eq rfl rfl rfl rfl rfl rfl rfl
    refine ⟨hq, others_silent h (hkept.exec hpc hq hst fun t ht => ?_)⟩
    rw [hw t] at ht
    cases ht
  cases f with
  | join t r =>
      obtain ⟨hq, hoth⟩ := hgo (.cont (.joinLock t r)) (Option.some.inj hs).symm rfl fun _ => rfl
      have hnote := others_note (update w.asked (caller a me) (some (t, r)))
        w.ended hoth hq rfl (fun _ => rfl) (fun c hc => Function.update_of_ne hc ..)
        fun _ _ => rfl
      refine hnote.told ?_ fun me' he => ?_
      · show At _ a (s.pc a)
        rw [hq]
        exact Function.update_self ..
      · have he := hq.symm.trans he
        cases he
  | pthreadExit val =>
      obtain ⟨hq, hoth⟩ := hgo (.cont (.exitLock val)) (Option.some.inj hs).symm rfl fun _ => rfl
      cases me with
      | some v => exact told_ends hoth hq (.inl rfl)
      | none =>
          refine hoth.told ?_ fun me' he => ?_
          · show At _ a (s.pc a)
            rw [hq]
            exact fun v hv => by cases hv
          · have he := hq.symm.trans he
            cases he
  | ret val =>
      cases me with
      | some v =>
          obtain ⟨hq, hoth⟩ := hgo (.manageRet val) (Option.some.inj hs).symm rfl fun _ => rfl
          exact told_ends hoth hq (.inr rfl)
      | none => cases hs
  -- the only call that leaves the code at once
  | schedYield =>
      have hs := (Option.some.inj hs).symm
      have hkept : Kept w.st s := by
        subst hs
        exact .of_eq rfl rfl rfl rfl rfl rfl rfl
      cases me with
      | some v =>
          have hq : s.pc a = .switch v (.status .suspended) .user := by
            subst hs
            exact Function.update_self ..
          obtain ⟨hoth, hk⟩ := goes_switch h hpc hq hkept rfl fun t r hc => by
            have he := hnone.symm.trans hc
            cases he
          refine hoth.told hk fun me' he => ?_
          have he := hq.symm.trans he
          cases he
      | none =>
          have hq : s.pc a = .crashed := by
            subst hs
            exact Function.update_self ..
          obtain ⟨hoth, hk⟩ := goes_crash h hpc hq hkept
          refine hoth.told hk fun me' he => ?_
          have he := hq.symm.trans he
          cases he

/-- A step in the code. -/
theorem told_code (h : Steps w s a) (hok : Delivers w (.go a)) (hpc : w.st.pc a = .exec me p)
    (hs : joinCode w.st a me p = some s) : Goes w s a := by
  unfold joinCode at hs
  split at hs
  -- one spec for each function of the source
  · rw [Option.bind_eq_some_iff] at hs
    obtain ⟨v, rfl, hs⟩ := hs
    refine told_wake h (fun hp => ?_) (fun x val hp => ?_) hpc hs
    · subst hp
      simp only [Delivers, hpc] at hok
      exact hok
    · subst hp
      simp only [Delivers, hpc] at hok
      exact hok
  · split at hs
    · exact told_semaWait h hpc hs
    · split at hs
      · exact told_pthreadExit h hpc hs
      · split at hs
        · exact told_manage h hpc hs
        · refine told_join h (fun t x val hp => ?_) hpc hs
          subst hp
          cases me <;> simpa only [Delivers, hpc] using hok

/-- **One step.** -/
theorem told_step (h : Told w) (hok : Delivers w act) (hs : joinStep w.st act = some s) :
    Told (w.note s act) := by
  have hsteps : Steps w s act.agent := ⟨h, act, rfl, hok.skips, hs⟩
  cases act with
  | call a f =>
      simp only [joinStep] at hs
      split at hs
      · next me hpc =>
          rw [note_call f hpc]
          exact told_call hsteps hpc hs
      · cases hs
  -- the other actions note a return, if the agent is back in the program
  | pick a v =>
      simp only [joinStep, Option.map_eq_some_iff] at hs
      obtain ⟨σ, hσ, rfl⟩ := hs
      obtain ⟨hpc, -, rfl⟩ := getAndWork_cases hσ
      have hgo := goes_rest (q := .got v) hsteps (hpc ▸ rfl) rfl rfl
        (.of_eq rfl rfl rfl rfl rfl rfl rfl)
      exact told_back hgo.1 hgo.2
  | rouse a b =>
      simp only [joinStep] at hs
      split at hs
      · next v p hpc =>
          have hgo := told_futexWake hsteps hpc hs
          exact told_back hgo.1 hgo.2
      · cases hs
  | go a =>
      have hgo : Goes w s a := by
        simp only [joinStep] at hs
        split at hs
        · next me p hpc => exact told_code hsteps hok hpc hs
        · exact told_worker hsteps hs
      exact told_back hgo.1 hgo.2

theorem told_keeps : (logged (A := A) (V := V)).Keeps Delivers Told where
  start w hw := by
    obtain ⟨hinit, hasked, hended, hfound⟩ := hw
    have honce := once_keeps.start w.st hinit
    obtain ⟨raw, ready, -, hst⟩ := hinit
    have hpc : ∀ a, w.st.pc a = .top ∨ w.st.pc a = .exec none (.cont .user) := by
      intro a
      rw [hst]
      cases hr : raw a with
      | true => exact .inr (by simp [joinInit, hr])
      | false => exact .inl (by simp [joinInit, hr])
    have hnone : ∀ c t r, w.asked c ≠ some (t, r) := by
      intro c t r hc
      rw [hasked] at hc
      cases hc
    refine ⟨honce, fun a => ?_, fun a me _ => by rw [hasked], fun v _ _ => ?_, fun t ht => ?_,
      fun t ht => ?_, fun t ht => ?_, fun e he => ?_⟩
    · rcases hpc a with ha | ha
      · rw [ha]
        trivial
      · rw [ha]
        exact fun t r hc => absurd hc (hnone _ t r)
    · rw [hst]
      exact fun t r hc => absurd hc (hnone _ t r)
    · rw [hst] at ht
      exact absurd rfl ht
    · rw [hst] at ht
      cases ht
    · rw [hst] at ht
      cases ht
    · rw [hfound] at he
      cases he
  step w act w' h hok hs := by
    obtain ⟨s, hstep, rfl⟩ := Option.map_eq_some_iff.mp hs
    exact told_step h hok hstep

end Steps

/-! ## §2. Runs. -/

/-- **Every result is delivered** in every run in which `wake_up_joined` reads a
    `retval` that is good for all joiners, no variable is shared between targets
    and no worker comes to line 162. -/
theorem delivered {w : Logged A V} {acts : List (JoinAct A V)} (hw : logged.init w)
    (hok : logged.StepsMeet Delivers w acts) : logged.Always Delivered w acts :=
  told_keeps.always (fun _ h e he => (h.found e he).2) hw hok

/-- All pending calls that gave a variable meet `P`. -/
def allAsked [Fintype A] [Fintype V] (w : Logged A V) (P : A ⊕ V → V → ℕ → Bool) : Bool :=
  decide (∀ c, ((w.asked c).all fun e => e.2.all fun x => P c e.1 x) = true)

/-- `Delivers`, computed. -/
def deliversB [Fintype A] [Fintype V] (w : Logged A V) : JoinAct A V → Bool
  | .go a =>
      match w.st.pc a with
      | .wakeSelf _ => false
      | .exec (some v) .wakeRetval => allAsked w fun c t x => match c with
          | .inl b => waitsFor v (w.st.pc b) = 0 || t ≠ v || w.st.retval v = some x
          | .inr u => u ∉ w.st.linked (.queue v) || t ≠ v || w.st.retval v = some x
      | .exec (some v) (.wakeStore x _) => allAsked w fun _ t y => y ≠ x || t = v
      | .exec _ (.joinStore t' x _) => allAsked w fun _ t y => y ≠ x || t = t'
      | _ => true
  | _ => true

omit [DecidableEq A] [DecidableEq V] in
theorem allAsked_spec [Fintype A] [Fintype V] {w : Logged A V} {P : A ⊕ V → V → ℕ → Bool}
    (h : allAsked w P = true) {c : A ⊕ V} {t : V} {x : ℕ} (hc : w.asked c = some (t, some x)) :
    P c t x = true := by
  have hall := of_decide_eq_true h c
  rw [hc] at hall
  exact hall

omit [DecidableEq A] in
theorem delivers_of_deliversB [Fintype A] [Fintype V] (w : Logged A V) (act : JoinAct A V)
    (h : deliversB w act = true) : Delivers w act := by
  have honly : ∀ x t', allAsked w (fun _ t y => y ≠ x || t = t') = true → OnlyFor w x t' := by
    intro x t' hall c t hc
    have hx := allAsked_spec hall hc
    simpa using hx
  cases act with
  | go a =>
      simp only [deliversB] at h
      unfold Delivers
      split at h
      · cases h
      · next v hpc =>
          simp only [hpc]
          intro c x hreg hc
          have hx := allAsked_spec h hc
          cases c with
          | inl b => simpa [show waitsFor v (w.st.pc b) ≠ 0 from hreg] using hx
          | inr u => simpa [show u ∈ w.st.linked (.queue v) from hreg] using hx
      · next v x _ hpc =>
          simp only [hpc]
          exact honly x v h
      · next t' x _ hpc =>
          simp only [hpc]
          exact honly x t' h
      · next hself hread hstore hlate =>
          dsimp only
          split
          · next v hpc => exact hself v hpc
          · next v hpc => exact (hread v hpc).elim
          · next v x val hpc => exact (hstore v x val hpc).elim
          · next me t x val hpc => exact (hlate me t x val hpc).elim
          · trivial
  | _ => trivial

/-- The log of a run that has not begun. -/
def Logged.start (s : JoinState A V) : Logged A V := ⟨s, fun _ => none, fun _ => none, []⟩

/-- Vthread 0 joins vthread 1, gives variable `x` and is let go of. -/
def vthreadAsks (x : ℕ) : List (JoinAct (Fin 3) (Fin 2)) :=
  [.pick 0 0, .go 0, .go 0, .call 0 (.join 1 (some x))] ++ List.replicate 13 (.go 0)

/-- Raw thread 1 joins vthread 1 and gives variable 2. -/
def rawAsks (n : ℕ) : List (JoinAct (Fin 3) (Fin 2)) :=
  .call 1 (.join 1 (some 2)) :: List.replicate n (.go 1)

/-- Vthread 1 returns 7, its worker runs `wake_up_joined` and takes `n` steps there,
    then it resumes vthread 0. -/
def targetAnswers (n : ℕ) : List (JoinAct (Fin 3) (Fin 2)) :=
  targetReturns ++ List.replicate n (.go 0) ++ [.pick 0 0, .go 0, .go 0]

/-- The raw thread comes late, and takes the result itself. -/
theorem delivered_late :
    ∃ w, logged.run (.start oneWorker) (vthreadAsks 1 ++ targetAnswers 17 ++ rawAsks 6) = some w
      ∧ w.ended 1 = some 7 ∧ w.found = [(1, 7), (1, 7)]
      ∧ logged.Always Delivered (.start oneWorker) (vthreadAsks 1 ++ targetAnswers 17 ++ rawAsks 6) :=
  ⟨_, rfl, rfl, rfl, delivered ⟨⟨_, _, by decide, rfl⟩, rfl, rfl, rfl⟩
    (Machine.stepsMeet_of_check delivers_of_deliversB _ _ rfl)⟩

/-- It registers before the target returns, and vthread 0 finds no result. -/
theorem result_missed :
    ∃ w, logged.init (.start oneWorker)
      ∧ logged.run (.start oneWorker) (vthreadAsks 1 ++ rawAsks 6 ++ targetAnswers 19) = some w
      ∧ w.ended 1 = some 7 ∧ w.found = [(1, 0)] ∧ w.st.cell 2 = 7
      ∧ ¬logged.Always Delivered (.start oneWorker) (vthreadAsks 1 ++ rawAsks 6 ++ targetAnswers 19) := by
  refine ⟨_, ⟨⟨_, _, by decide, rfl⟩, rfl, rfl, rfl⟩, rfl, rfl, rfl, rfl, fun hA => ?_⟩
  have hend := hA.last rfl (1, 0) List.mem_cons_self
  cases hend

end HThread.Join
