/-
  HThread.Join.Accounts — every registered joiner is accounted for.

  Whenever the mutex is free the list and the count are those of the registered
  joiners, the loop of `wake_up_joined` comes to each registered vthread once,
  the posts are for the raw threads, and both loops end.

  Key lemmas:
    * `booked_keeps`           — the books of every run.
    * `late_own`, `late_other` — each step of `wake_up_joined` brings it closer to
      its end, and no other step pushes it back.
  Main result:
    * `joiners_accounted` — all of it, in every reachable state.
-/
import HThread.Join.Books
import HThread.Join.Posts

namespace HThread.Join

open Interleave
open Function (update)

variable {A V : Type} [DecidableEq A] [DecidableEq V]

/-! ## §1. Every run. -/

theorem booked_start {t : V} {w : Counted A V} (hs : (counting t).init w) : w.Booked t := by
  obtain ⟨st, asked, waiting, taken, visited⟩ := w
  obtain ⟨⟨raw, ready, hnd, hst⟩, hasked, hwait, htaken, hvis⟩ := hs
  obtain rfl : st = joinInit raw ready := hst
  obtain rfl : waiting = [] := hwait
  obtain rfl : taken = [] := htaken
  obtain rfl : visited = [] := hvis
  have hpc : ∀ a, (joinInit (V := V) raw ready).pc a = .top
      ∨ (joinInit (V := V) raw ready).pc a = .exec none (.cont .user) := by
    intro a
    cases hr : raw a with
    | true => exact .inr (by simp [joinInit, hr])
    | false => exact .inl (by simp [joinInit, hr])
  have hidle : ∀ a v, ¬((joinInit (V := V) raw ready).pc a).Holds joinShape v
      ∧ ¬Locked ((joinInit (V := V) raw ready).pc a) v
      ∧ ¬TookOver ((joinInit (V := V) raw ready).pc a) v := by
    intro a v
    rcases hpc a with h | h
    · rw [h]
      exact ⟨id, id, id⟩
    · rw [h]
      exact ⟨by simp [Pc.Holds, joinShape], Counted.Booked.enter_idle none .user v⟩
  have hnot : ¬Over (joinInit (V := V) raw ready) t := by
    rintro (hd | ⟨a, ha⟩)
    · cases hd
    · exact (hidle a t).2.2 ha
  refine ⟨⟨fun _ => .bag none, fun v b _ hv => ?_, fun v b _ => ?_, fun v a _ hh => absurd hh (hidle a v).1,
      fun v _ hg => ?_⟩,
    ⟨fun u a _ ha => absurd ha (hidle a u).2.1, fun u a ha => absurd ha (hidle a u).2.1,
      fun u a ha => absurd ha (hidle a u).2.1, fun _ _ _ => Chain.nil⟩,
    fun a => ?_, rfl, fun _ _ => rfl, List.nodup_nil, fun _ hc => (by cases hc),
    fun _ hc => (by cases hc), fun _ _ _ hc => (by cases hc), ⟨[], rfl⟩, fun hc => (by cases hc),
    fun _ => ⟨rfl, rfl⟩, fun ho => absurd ho hnot, fun hd => (by cases hd)⟩
  · cases b with
    | none => rfl
    | some b => cases hv
  · cases b with
    | none => exact List.nodup_iff_count_le_one.mp hnd v
    | some b => exact Nat.zero_le 1
  · rcases hg with hd | hpush
    · cases hd
    · exact absurd rfl hpush
  · show Counted.PcOk t _ a ((joinInit raw ready).pc a)
    rcases hpc a with h | h
    · rw [h]
      trivial
    · rw [h]
      trivial

theorem booked_keeps (t : V) :
    (counting (A := A) t).Keeps (fun _ _ => True) (Counted.Booked t) where
  start _ hs := booked_start hs
  step _ _ _ h _ hs := h.booked_step hs

/-! ## §2. To the end of `wake_up_joined`. -/

section Late

variable {t : V} {w : Counted A V} {s : JoinState A V} {act : JoinAct A V} {a : A} {p : JoinPc V}

omit [DecidableEq A] in
theorem linked_of_rest (h : w.Booked t) {n : ℤ} {hd : Option V} (hr : w.Rest n hd) :
    Linked w.st (rawsOf w.taken).length hd n := by
  obtain ⟨l, hc, horder, hn⟩ := hr
  have hnd := h.taken_nodup
  rw [horder] at hnd
  exact ⟨l, hc, List.Nodup.of_append_right hnd, hn⟩

omit [DecidableEq A] in
/-- The books say how many posts there are to come. -/
theorem owed_of_booked (h : w.Booked t) (hpc : w.st.pc a = .exec (some t) p) (hp : p.late = true) :
    ∃ k x, Owed w.st t k x p := by
  have hk := h.stands a
  rw [hpc] at hk
  have hqueued : w.Queued t → Linked w.st (rawsOf w.waiting).length (w.st.joinWaitQueue t)
      (w.st.joinWaitersNum t) := by
    refine fun hq => ⟨_, hq, h.waiting_nodup, ?_⟩
    rw [h.num]
    exact length_kinds w.waiting
  have hheld : p.lock (some t) = some t → w.HeldCode t (some t) p := by
    intro hl
    have hheld := h.guarded.inside t a (hpc ▸ hl) rfl
    rw [hpc] at hheld
    exact hheld
  cases p with
  | cont k => cases hp
  | wakeRetval | wakeOut _ | wakeStore _ _ | wakeStatus | wakeNum | wakeWaiters =>
      exact ⟨_, _, rfl, hqueued (hheld rfl)⟩
  | wakeZero n =>
      obtain ⟨hq, rfl⟩ := hheld rfl
      exact ⟨_, _, rfl, hqueued hq⟩
  | wakeHead n | wakeNull n hd =>
      obtain ⟨-, rfl, -, hc⟩ := hk
      exact ⟨(rawsOf w.taken).length, _, rfl, _, hc, h.taken_nodup, length_kinds w.taken⟩
  | wakeUnlock n hd | wakeCheck n hd => exact ⟨_, _, rfl, linked_of_rest h (hk.1 rfl)⟩
  | wakeDeq n hd => exact ⟨_, _, rfl, linked_of_rest h hk.2⟩
  | wakeClear n u hd =>
      obtain ⟨-, hu, l, hc, horder, hn⟩ := hk
      have hnd := h.taken_nodup
      rw [horder] at hnd
      exact ⟨_, _, rfl, l, hc, List.Nodup.of_append_right hnd, h.not_left horder hu, hn⟩
  | wakeSet n u hd | wakeEnq n u hd => exact ⟨_, _, rfl, linked_of_rest h hk.2.2⟩
  | wakePost n | wakeFutex n =>
      have hn : 0 ≤ n := hk.2.2.1
      exact ⟨0, n.toNat, by
        show n = (n.toNat : ℤ)
        omega⟩
  | _ => cases hp

/-- A step of the agent that runs `wake_up_joined`. -/
theorem late_own (h : w.Booked t) (ha : act.agent = a) (hpc : w.st.pc a = .exec (some t) p)
    (hp : p.late = true) (hs : joinStep w.st act = some s) :
    s.done t = true ∨ ∃ p', s.pc a = .exec (some t) p' ∧ p'.late = true
      ∧ rank s t p' < rank w.st t p := by
  obtain ⟨k, x, howed⟩ := owed_of_booked h hpc hp
  have hgo : ∀ p' x', s.pc = update w.st.pc a (.exec (some t) p') → Owed s t k x' p' →
      rank s t p' < rank w.st t p → ∃ p', s.pc a = .exec (some t) p' ∧ p'.late = true
        ∧ rank s t p' < rank w.st t p := by
    intro p' x' hpc' howed' hlt
    refine ⟨p', ?_, howed'.late, hlt⟩
    rw [hpc', Function.update_self]
  cases target_step ha hpc howed hs with
  | on s' p' hpc' hfut hd howed' hlt => exact .inr (hgo p' x hpc' howed' hlt)
  | post s' p' x' hx hzero hpc' hfut hd howed' hlt => exact .inr (hgo p' x' hpc' howed' hlt)
  | lost s' p' x' n hn hne hx hone hpc' hfut hd howed' hlt => exact .inr (hgo p' x' hpc' howed' hlt)
  | ret hx => exact .inl (Function.update_self ..)

/-- A step of another agent: whoever has the mutex keeps the count. -/
theorem late_other (h : w.Booked t) (ha : act.agent ≠ a) (hpc : w.st.pc a = .exec (some t) p)
    (hs : joinStep w.st act = some s) : rank s t p = rank w.st t p := by
  have hnum : p.lock (some t) = some t → s.joinWaitersNum t = w.st.joinWaitersNum t := by
    intro hl
    have hother : ¬Locked (w.st.pc act.agent) t := fun ho =>
      ha (h.guarded.unique t act.agent a ho (hpc ▸ hl))
    cases joinStep_effect hs with
    | code me p' _ hpc' hcode =>
        rw [hpc'] at hother
        cases hcode with
        | count u n q hp hq =>
            refine Function.update_of_ne ?_ ..
            rintro rfl
            exact hother (hp ▸ rfl)
        | zero v n hme hp =>
            refine Function.update_of_ne ?_ ..
            rintro rfl
            exact hother (hp ▸ hme)
        | _ => rfl
    | _ => rfl
  cases p with
  | wakeRetval | wakeOut _ | wakeStore _ _ | wakeStatus | wakeNum | wakeWaiters =>
      unfold rank
      rw [hnum rfl]
  | _ => rfl

/-- However the run goes on, once agent `a` has made more than `n` steps
    `wake_up_joined` of `t` has returned. -/
def ReturnsWithin (n : ℕ) (t : V) (w : Counted A V) (a : A) : Prop :=
  ∀ acts u, (counting t).run w acts = some u → n < acts.countP (fun act => act.agent = a) →
    u.st.done t = true

theorem done_run {acts : List (JoinAct A V)} {u : Counted A V} (hd : w.st.done t = true)
    (hrun : (counting t).run w acts = some u) : u.st.done t = true := by
  induction acts generalizing w with
  | nil => exact Option.some.inj hrun ▸ hd
  | cons act acts ih =>
      obtain ⟨w', hstep, hrest⟩ := Machine.run_cons hrun
      exact ih (done_mono (joinStep_of_counting hstep) hd) hrest

theorem returnsWithin (h : w.Booked t) (hpc : w.st.pc a = .exec (some t) p) (hp : p.late = true) :
    ReturnsWithin (rank w.st t p) t w a := by
  intro acts u hrun hlt
  induction acts generalizing w p with
  | nil => exact absurd hlt (Nat.not_lt_zero _)
  | cons act acts ih =>
      obtain ⟨w', hstep, hrest⟩ := Machine.run_cons hrun
      have hjoin := joinStep_of_counting hstep
      by_cases ha : act.agent = a
      · rw [List.countP_cons_of_pos (by simpa using ha)] at hlt
        rcases late_own h ha hpc hp hjoin with hd | ⟨p', hpc', hp', hless⟩
        · exact done_run hd hrest
        · exact ih (h.booked_step hstep) hpc' hp' hrest (by omega)
      · rw [List.countP_cons_of_neg (by simpa using ha)] at hlt
        refine ih (h.booked_step hstep) ((pc_other hjoin (Ne.symm ha)).trans hpc) hp hrest ?_
        rw [late_other h ha hpc hjoin]
        exact hlt

end Late

/-! ## §3. The accounts. -/

/-- `wake_up_joined` of `t` is out of the loop over the vthreads, or returned. -/
def LoopOver (t : V) (s : JoinState A V) : Prop :=
  s.done t = true ∨ ∃ a n, s.pc a = .exec (some t) (.wakeDeq n none)
    ∨ s.pc a = .exec (some t) (.wakePost n) ∨ s.pc a = .exec (some t) (.wakeFutex n)

/-- While nobody has the mutex the list is one of distinct vthreads, those that
    wait, and the count is that of the vthreads and raw threads that wait.  The
    loop comes to nobody twice, and when it is over it has come to every vthread
    that was ever registered.  The posts start from the number of raw threads,
    and `waiters` is never negative.  Whoever is in `wake_up_joined` with the
    mutex taken, or past it, can go on and will return. -/
structure Accounted (t : V) (w : Counted A V) : Prop where
  queue : w.st.c t = false → ∃ l, Chain w.st.next (w.st.joinWaitQueue t) l ∧ l.Nodup
    ∧ (∀ v, v ∈ l ↔ .inr v ∈ w.waiting)
    ∧ w.st.joinWaitersNum t = l.length + (rawsOf w.waiting).length
  raws : (rawsOf w.registered).Nodup
  visits : w.visited.Nodup ∧ ∀ v, v ∈ w.visited → .inr v ∈ w.registered
  visited : LoopOver t w.st → ∀ v, .inr v ∈ w.registered → w.visited.count v = 1
  posts : ∀ a n, w.st.pc a = .exec (some t) (.wakeDeq n none) →
    w.waiting = [] ∧ n = (rawsOf w.registered).length
  nonneg : ∀ a n, w.st.pc a = .exec (some t) (.wakePost n) ∨ w.st.pc a = .exec (some t) (.wakeFutex n) →
    0 ≤ n
  returns : ∀ a p, w.st.pc a = .exec (some t) p → p.late = true →
    (∃ act, act.agent = a ∧ ((counting t).step w act).isSome = true)
      ∧ ReturnsWithin (rank w.st t p) t w a

section Books

variable {t : V} {w : Counted A V} {a : A} {p : JoinPc V}

omit [DecidableEq A] in
/-- Once the loop is over nobody waits, and it has come to all that were taken. -/
theorem all_of_loopOver (h : w.Booked t) (ho : LoopOver t w.st) :
    w.waiting = [] ∧ vthreadsOf w.taken = w.visited.reverse := by
  rcases ho with hd | ⟨a, n, hpc⟩
  · exact ⟨(h.after (.inl hd)).2, h.ended hd⟩
  · have hk := h.stands a
    rcases hpc with hpc | hpc | hpc
    · rw [hpc] at hk
      obtain ⟨-, l, hc, horder, -⟩ := hk
      rw [Chain.nil_iff] at hc
      rw [hc, List.append_nil] at horder
      exact ⟨(h.after (.inr ⟨a, hpc ▸ ⟨rfl, rfl⟩⟩)).2, horder⟩
    · rw [hpc] at hk
      exact ⟨(h.after (.inr ⟨a, hpc ▸ ⟨rfl, rfl⟩⟩)).2, hk.2.1⟩
    · rw [hpc] at hk
      exact ⟨(h.after (.inr ⟨a, hpc ▸ ⟨rfl, rfl⟩⟩)).2, hk.2.1⟩

/-- In `wake_up_joined` there is a step to take. -/
theorem counting_canStep (hpc : w.st.pc a = .exec (some t) p) (hp : p.late = true) :
    ∃ act, act.agent = a ∧ ((counting t).step w act).isSome = true := by
  obtain ⟨act, ha, hsome⟩ := canStep hpc (wakes_of_late hp)
  have hmay : mayJoin t w act = true := by
    cases act with
    | call b f =>
        -- no call starts from there
        obtain rfl : b = a := ha
        simp only [joinStep, hpc] at hsome
        split at hsome
        · next he =>
            obtain ⟨-, rfl⟩ := Pc.exec.inj he
            cases hp
        · cases hsome
    | _ => rfl
  refine ⟨act, ha, ?_⟩
  obtain ⟨s, hs⟩ := Option.isSome_iff_exists.mp hsome
  simp only [counting, hmay, if_true, hs]
  rfl

theorem accounted_of_booked (h : w.Booked t) : Accounted t w where
  queue hfree := by
    have hqueued : w.Queued t := by
      refine h.guarded.outside t (fun a ha => ?_) rfl
      cases hfree.symm.trans (h.guarded.taken t a ha)
    refine ⟨vthreadsOf w.waiting, hqueued, h.waiting_nodup,
      fun v => mem_vthreadsOf, ?_⟩
    rw [h.num]
    exact length_kinds w.waiting
  raws := nodup_rawsOf h.once
  visits := by
    obtain ⟨l, hl⟩ := h.order
    have hnd := h.taken_nodup
    rw [hl] at hnd
    exact ⟨List.nodup_reverse.mp (List.Nodup.of_append_left hnd),
      fun v hv => List.mem_append_right _ (h.taken_of_visited hv)⟩
  visited ho v hv := by
    obtain ⟨hwait, hall⟩ := all_of_loopOver h ho
    have htaken : .inr v ∈ w.taken := by
      unfold Counted.registered at hv
      rw [hwait] at hv
      exact hv
    have hnd := h.taken_nodup
    rw [← List.count_reverse, ← hall]
    exact List.count_eq_one_of_mem hnd (mem_vthreadsOf.mpr htaken)
  posts a n hpc := by
    obtain ⟨hwait, hall⟩ := all_of_loopOver h (.inr ⟨a, n, .inl hpc⟩)
    have hk := h.stands a
    rw [hpc] at hk
    obtain ⟨-, l, hc, -, hn⟩ := hk
    rw [Chain.nil_iff] at hc
    refine ⟨hwait, ?_⟩
    unfold Counted.registered
    rw [hn, hc, hwait]
    simp
  nonneg a n hpc := by
    have hk := h.stands a
    rcases hpc with hpc | hpc
    · rw [hpc] at hk
      exact hk.2.2.1
    · rw [hpc] at hk
      exact hk.2.2.1
  returns a p hpc hp := ⟨counting_canStep hpc hp, returnsWithin h hpc hp⟩

end Books

/-- **Every joiner is accounted for.** -/
theorem joiners_accounted {t : V} {w : Counted A V} (hr : (counting t).Reachable w) :
    Accounted t w :=
  accounted_of_booked ((booked_keeps t).reachable hr)

/-- Vthread 0 and the raw threads 1 and 2 join vthread 1, and its worker comes to
    the end of the loop. -/
def threeJoin : List (JoinAct (Fin 3) (Fin 2)) :=
  vthreadJoin ++ rawJoin 1 ++ rawJoin 2 ++ targetReturns ++ List.replicate 13 (.go 0)

/-- Two posts are to come. -/
theorem joiners_accounted_three :
    ∃ w, (counting 1).run ⟨oneWorker, fun _ => false, [], [], []⟩ threeJoin = some w
      ∧ w.st.pc 0 = .exec (some 1) (.wakeDeq 2 none) ∧ w.visited = [0] ∧ Accounted 1 w := by
  have hstart : (counting 1).init (⟨oneWorker, fun _ => false, [], [], []⟩ : Counted _ _) :=
    ⟨⟨_, _, by decide, rfl⟩, rfl, rfl, rfl, rfl⟩
  exact ⟨_, rfl, rfl, rfl, joiners_accounted (.after hstart threeJoin rfl)⟩

end HThread.Join
