/-
  HThread.Join.Books — every step keeps the books.

  One lemma for each step of `join` and `wake_up_joined` that changes what
  HThread.Join.Registers is about, one for each way of taking and giving back a
  mutex and of leaving the code, and then all the code.

  Key lemmas:
    * `count`, `link`   — a caller registers.
    * `zero`, `take`    — the callers are taken over, and the loop comes to one.
    * `worker`          — the steps of worker_routine, line 162 included.
    * `booked_step`     — one step of anybody.
-/
import HThread.Join.Registers

namespace HThread.Join

open Interleave
open Function (update)

variable {A V : Type} [DecidableEq A] [DecidableEq V]

namespace Counted.Booked

variable {t : V} {w w' : Counted A V} {s : JoinState A V} {a : A} {me : Option V} {p : JoinPc V}
  {v : V}

/-! ## §1. Registering. -/

/-- vthread.hpp:206, 228, the count. -/
theorem count (h : w.Booked t) {n : ℤ} (hpc : w.st.pc a = .exec me (.joinInc t n))
    (hp : me.isSome = true ∧ p = .joinStatus t ∨ me = none ∧ p = .joinRelease t)
    (hw : w' = { w with
      st := { w.st with joinWaitersNum := update w.st.joinWaitersNum t (n + 1) }.goto a (.exec me p)
      waiting := caller a me :: w.waiting }) : w'.Booked t := by
  have hk := h.stands a
  rw [hpc] at hk
  obtain ⟨-, hfresh⟩ := hk
  have hheld := h.guarded.inside t a (hpc ▸ rfl) rfl
  rw [hpc] at hheld
  obtain ⟨hqueued, hst, rfl⟩ := hheld
  have hl : w.Leaves t w' a := by
    subst hw
    refine ⟨fun _ => id, fun c hc => ?_, fun _ => id, fun _ => id, fun _ _ => .inl rfl,
      fun _ => ⟨rfl, rfl, fun _ _ => rfl⟩, fun hno => absurd (hpc ▸ rfl) hno⟩
    rcases List.mem_cons.mp hc with rfl | hc
    · exact .inr ⟨me, _, hpc, rfl⟩
    · exact .inl hc
  have hplain : joinShape.hand p = none ∧ p.lock me = some t ∧ p.tookOver = false := by
    rcases hp with ⟨-, rfl⟩ | ⟨-, rfl⟩ <;> exact ⟨rfl, rfl, rfl⟩
  -- whoever was registering is not this agent, and the caller is now
  have hold : ∀ v, (∃ b, Registering (w.st.pc b) v) →
      ∃ b, Registering (update w.st.pc a (.exec me p) b) v := by
    refine fun v hany => registering_update hany fun ha => ?_
    rw [hpc] at ha
    cases ha.2
  have hnew : ∀ v, .inr v = caller a me → ∃ b, Registering (update w.st.pc a (.exec me p) b) v := by
    intro v hv
    refine ⟨a, ?_⟩
    rw [Function.update_self]
    rcases hp with ⟨hsome, rfl⟩ | ⟨rfl, -⟩
    · obtain ⟨u, rfl⟩ := Option.isSome_iff_exists.mp hsome
      obtain rfl := Sum.inr.inj hv
      exact ⟨rfl, rfl⟩
    · cases hv
  -- not finished, so nobody has taken over
  have hover : Over w'.st t ↔ Over w.st t := by
    subst hw
    exact over_exec hpc rfl rfl fun _ => hplain.2.2
  have hnot : ¬Over w'.st t := fun ho => hst (h.after (hover.mp ho)).1
  subst hw
  refine ⟨h.custody_exec hpc (by simp [hplain.1]), h.guarded_move hl (fun l => ?_) fun _ _ => ?_,
    h.stands_of hl rfl ?_, ?_, fun v hv => ?_, List.nodup_cons.mpr ⟨hfresh.2, h.once⟩,
    fun c hc => ?_, fun v hv => ?_, fun v u r hjoin => ?_, h.order, h.self,
    fun hno => h.before fun ho => hno (hover.mpr ho), fun ho => absurd ho hnot, h.ended⟩
  · rw [hpc]
    exact Eq.congr_left hplain.2.1
  · rcases hp with ⟨hsome, rfl⟩ | ⟨rfl, rfl⟩
    · obtain ⟨v, rfl⟩ := Option.isSome_iff_exists.mp hsome
      exact ⟨v, _, rfl, rfl, hqueued⟩
    · exact hqueued
  · rcases hp with ⟨-, rfl⟩ | ⟨-, rfl⟩
    · exact (rfl : t = t)
    · exact (rfl : t = t)
  · show update w.st.joinWaitersNum t (w.st.joinWaitersNum t + 1) t = ((caller a me :: w.waiting).length : ℤ)
    rw [Function.update_self, h.num, List.length_cons]
    omega
  · show update w.st.joinWaitersNum t (w.st.joinWaitersNum t + 1) v = 0
    rw [Function.update_of_ne hv]
    exact h.others v hv
  · rcases List.mem_cons.mp hc with rfl | hc
    · exact hfresh.1
    · exact h.asked c hc
  · rcases List.mem_cons.mp hv with hv | hv
    · exact .inr (hnew v hv)
    · exact (h.parked v hv).imp id (hold v)
  · obtain ⟨hu, hasked, hany⟩ := h.ctx v u r hjoin
    refine ⟨hu, hasked, fun hv => ?_⟩
    rcases List.mem_cons.mp hv with hv | hv
    · exact hnew v hv
    · exact hold v (hany hv)

/-- vthread.hpp:207, the status of the joiner. -/
theorem block (h : w.Booked t) (hpc : w.st.pc a = .exec (some v) (.joinStatus t)) :
    { w with
      st := { w.st with curStatus := update w.st.curStatus v .blocked }.goto a
        (.exec (some v) (.joinHead t)) }.Booked t := by
  refine h.moves hpc ⟨rfl, rfl, rfl, rfl, rfl, rfl⟩ rfl
    ⟨fun _ => id, fun _ => .inl, fun _ => id, fun _ => id, fun x _ => ?_,
      fun _ => ⟨rfl, rfl, fun _ _ => rfl⟩, fun hno => absurd (hpc ▸ rfl) hno⟩
    (fun _ hu => by cases hu) rfl (fun _ => id) ⟨rfl, fun u hu _ => ?_⟩ (fun _ => rfl) rfl fun ho => ?_
  · by_cases hx : x = v
    · exact .inr ⟨_, hx ▸ hpc⟩
    · exact .inl (Function.update_of_ne hx ..)
  · obtain rfl := Option.some.inj hu
    exact Function.update_self ..
  · -- a finished target joins nobody
    have hne : t ≠ v := by
      rintro rfl
      exact h.not_over hpc rfl ho
    exact (Function.update_of_ne hne ..).trans (h.after ho).1

/-- htypes.hpp:384, the head of the list. -/
theorem push (h : w.Booked t) {prev : Option V} (hpc : w.st.pc a = .exec (some v) (.joinPush t prev)) :
    { w with
      st := { w.st with joinWaitQueue := update w.st.joinWaitQueue t (some v) }.goto a
        (.exec (some v) (.joinLink t prev)) }.Booked t := by
  have hk := h.stands a
  rw [hpc] at hk
  exact h.moves hpc ⟨rfl, rfl, rfl, rfl, rfl, rfl⟩ rfl
    ⟨fun _ => id, fun _ => .inl, fun _ => id, fun _ => id, fun _ _ => .inl rfl,
      fun _ => ⟨rfl, rfl, fun _ _ => rfl⟩, fun hno => absurd (hpc ▸ rfl) hno⟩
    (fun _ hu => by cases hu) rfl (fun _ hg => ⟨hg, Function.update_self ..⟩) hk (fun _ => rfl) rfl
    fun ho => (h.after ho).1

/-- htypes.hpp:385, the joiner's node; its worker is to release the mutex. -/
theorem link (h : w.Booked t) {prev : Option V} (hpc : w.st.pc a = .exec (some v) (.joinLink t prev))
    (hw : w' = { w with
      st := { w.st with
        next := update w.st.next v prev
        linked := update w.st.linked (.queue t) (v :: w.st.linked (.queue t))
        pushes := update w.st.pushes v (w.st.pushes v + 1) }.goto a
          (.switch v (.mutex t) .user) }) : w'.Booked t := by
  have hk := h.stands a
  have hheld := h.guarded.inside t a (hpc ▸ rfl) rfl
  rw [hpc] at hk hheld
  obtain ⟨⟨u, l, hu, hvl, hchain⟩, hqueue⟩ := hheld
  obtain rfl := Option.some.inj hu
  -- the last in the list that waits, and not among those behind it
  have hwait : .inr v ∈ w.waiting := by
    rw [← mem_vthreadsOf, hvl]
    exact List.mem_cons_self
  have hnot : v ∉ l := by
    have hnd := h.waiting_nodup
    rw [hvl] at hnd
    exact (List.nodup_cons.mp hnd).1
  have hpush : ∀ x, update w.st.pushes v (w.st.pushes v + 1) x ≠ 0 ↔ x = v ∨ w.st.pushes x ≠ 0 := by
    intro x
    by_cases hx : x = v
    · rw [hx, Function.update_self]
      simp
    · rw [Function.update_of_ne hx]
      simp [hx]
  have hl : w.Leaves t w' a := by
    subst hw
    refine ⟨fun _ => id, fun _ => .inl, fun _ => id, fun x hx => (hpush x).mpr (.inr hx),
      fun _ _ => .inl rfl, fun _ => ⟨rfl, rfl, fun x hx => ?_⟩, fun hno => absurd (hpc ▸ rfl) hno⟩
    have hne : x ≠ v := by
      rintro rfl
      exact h.not_taken hwait hx
    exact Function.update_of_ne hne ..
  have hover : Over w'.st t ↔ Over w.st t := by
    subst hw
    refine over_update (a := a) rfl rfl ?_
    rw [hpc]
    exact iff_of_false id fun ho => by cases ho.2
  subst hw
  obtain ⟨hparked, hctx⟩ := h.books_update (a := a) (q := .switch v (.mutex t) .user) fun x hx => by
    rw [hpc] at hx
    exact Option.some.inj hx.1
  refine ⟨?_, h.guarded_move hl (fun x => ?_) fun _ _ => ?_, h.stands_of hl rfl ⟨rfl, rfl, ?_, hk.2 v rfl⟩,
    h.num, h.others, h.once, h.asked, fun x hx => ?_, hctx, h.order, h.self,
    fun hno => h.before fun ho => hno (hover.mpr ho), fun ho => h.after (hover.mp ho), h.ended⟩
  · -- the joiner is in nobody's hands from here on
    refine h.custody.retire (v := v) (fun _ => hpc ▸ .inl rfl) (fun x _ hx => ?_) (fun x hx => ?_) rfl
    · obtain ⟨-, hkeeps⟩ := hx
      cases hkeeps
    · rcases hx with hd | hx
      · exact .inr (.inl hd)
      · exact ((hpush x).mp hx).imp id .inr
  · rw [hpc]
    exact ⟨congrArg some, Option.some.inj⟩
  · refine ⟨?_, hwait⟩
    show Chain (update w.st.next v prev) (w.st.joinWaitQueue t) (vthreadsOf w.waiting)
    rw [hqueue, hvl]
    exact hchain.cons hnot
  · exact (hpush v).mpr (.inl rfl)
  · exact (hparked x hx).imp (fun hx => (hpush x).mpr (.inr hx)) id

/-! ## §2. Taking over. -/

/-- vthread.hpp:257, the status of the target. -/
theorem mark (h : w.Booked t) (hpc : w.st.pc a = .exec (some v) .wakeStatus) :
    { w with
      st := { w.st with curStatus := update w.st.curStatus v .finished }.goto a
        (.exec (some v) .wakeNum) }.Booked t := by
  refine h.moves hpc ⟨rfl, rfl, rfl, rfl, rfl, rfl⟩ rfl
    ⟨fun _ => id, fun _ => .inl, fun _ => id, fun _ => id, fun x _ => ?_,
      fun _ => ⟨rfl, rfl, fun _ _ => rfl⟩, fun hno => ⟨rfl, rfl, rfl, ?_, fun _ _ => rfl⟩⟩
    (fun _ hu => by cases hu) rfl (fun _ => id) (fun hme => ?_) (fun _ => rfl) rfl fun ho => ?_
  · by_cases hx : x = v
    · exact .inr ⟨_, hx ▸ hpc⟩
    · exact .inl (Function.update_of_ne hx ..)
  · have hne : t ≠ v := by
      rintro rfl
      exact hno (hpc ▸ rfl)
    exact (Function.update_of_ne hne .finished w.st.curStatus).symm.trans
  · obtain rfl := Option.some.inj hme
    exact Function.update_self ..
  · show update w.st.curStatus v .finished t = .finished
    by_cases hv : t = v
    · rw [hv, Function.update_self]
    · rw [Function.update_of_ne hv]
      exact (h.after ho).1

/-- vthread.hpp:259, nobody is registered. -/
theorem nobody (h : w.Booked t) (hpc : w.st.pc a = .exec (some t) .wakeNum)
    (hn : w.st.joinWaitersNum t = 0)
    (hw : w' = { w with st := w.st.goto a (.exec (some t) (.wakeUnlock 0 none)) }) :
    w'.Booked t := by
  have hk := h.stands a
  rw [hpc] at hk
  have hl : w.Leaves t w' a := by
    subst hw
    exact SameBooks.leaves ⟨rfl, rfl, rfl, rfl, rfl, rfl⟩
  obtain ⟨htaken, hvis⟩ := h.before (h.not_over hpc rfl)
  have hwait : w.waiting = [] := by
    have hlen := h.num
    rw [hn] at hlen
    exact List.eq_nil_of_length_eq_zero (by omega)
  have hover : Over w'.st t := by
    subst hw
    refine .inr ⟨a, ?_⟩
    show TookOver (update w.st.pc a _ a) t
    rw [Function.update_self]
    exact ⟨rfl, rfl⟩
  subst hw
  obtain ⟨hparked, hctx⟩ := h.books_exec hpc (.wakeUnlock 0 none) fun hp => (by cases hp)
  refine ⟨h.custody_exec hpc (fun _ hu => by cases hu), h.guarded_move hl (fun l => ?_) fun _ hg => ?_,
    h.stands_of hl rfl ⟨fun _ => ⟨[], Chain.nil, ?_, ?_⟩, fun hne => absurd rfl hne⟩, h.num, h.others,
    h.once, h.asked, hparked, hctx, h.order, h.self, fun hno => absurd hover hno,
    fun _ => ⟨hk rfl, hwait⟩, h.ended⟩
  · rw [hpc]
    exact Iff.rfl
  · rw [hpc] at hg
    exact hg
  · show vthreadsOf w.taken = w.visited.reverse ++ []
    rw [htaken, hvis]
    rfl
  · show (0 : ℤ) = ([] : List V).length + (rawsOf w.taken).length
    rw [htaken]
    rfl

/-- vthread.hpp:261, everybody who waits is taken. -/
theorem zero (h : w.Booked t) {n : ℤ} (hpc : w.st.pc a = .exec (some t) (.wakeZero n))
    (hw : w' = { w with
      st := { w.st with joinWaitersNum := update w.st.joinWaitersNum t 0 }.goto a
        (.exec (some t) (.wakeHead n))
      waiting := []
      taken := w.waiting }) : w'.Booked t := by
  have hk := h.stands a
  have hheld := h.guarded.inside t a (hpc ▸ rfl) rfl
  rw [hpc] at hk hheld
  obtain ⟨hqueued, rfl⟩ := hheld
  obtain ⟨htaken, hvis⟩ := h.before (h.not_over hpc rfl)
  have hreg : w.registered = w.waiting := by
    unfold registered
    rw [htaken, List.append_nil]
  have hl : w.Leaves t w' a := by
    subst hw
    exact ⟨fun _ => id, fun c hc => .inl (List.mem_append_left _ hc), fun _ => id, fun _ => id,
      fun _ _ => .inl rfl, fun hno => absurd hpc (hno _), fun hno => absurd (hpc ▸ rfl) hno⟩
  have hover : Over w'.st t := by
    subst hw
    refine .inr ⟨a, ?_⟩
    show TookOver (update w.st.pc a _ a) t
    rw [Function.update_self]
    exact ⟨rfl, rfl⟩
  subst hw
  obtain ⟨hparked, hctx⟩ := h.books_exec hpc (.wakeHead _) fun hp => (by cases hp)
  rw [hreg] at hparked hctx
  refine ⟨h.custody_exec hpc (fun _ hu => by cases hu), h.guarded_move hl (fun l => ?_) fun _ _ => trivial,
    h.stands_of hl rfl ⟨rfl, h.num, hvis, hqueued⟩, Function.update_self .., fun v hv => ?_,
    hreg ▸ h.once, hreg ▸ h.asked, hparked, hctx, ⟨vthreadsOf w.waiting, ?_⟩, fun hself => ?_,
    fun hno => absurd hover hno, fun _ => ⟨hk.2, rfl⟩, fun hd => absurd hd (h.not_done hpc)⟩
  · rw [hpc]
    exact Iff.rfl
  · show update w.st.joinWaitersNum t 0 v = 0
    rw [Function.update_of_ne hv]
    exact h.others v hv
  · show vthreadsOf w.waiting = w.visited.reverse ++ _
    rw [hvis]
    rfl
  · -- a target that waits for itself does not come here
    exact h.not_registered hpc rfl h.target_not_visited (hreg ▸ hself)

/-- vthread.hpp:263, the list is cut off. -/
theorem cutOff (h : w.Booked t) {n : ℤ} {hd : Option V}
    (hpc : w.st.pc a = .exec (some t) (.wakeNull n hd)) :
    { w with
      st := { w.st with
        joinWaitQueue := update w.st.joinWaitQueue t none
        linked := update (update w.st.linked (.queue t) []) (.cut a) (w.st.linked (.queue t)) }.goto a
          (.exec (some t) (.wakeUnlock n hd)) }.Booked t := by
  have hk := h.stands a
  rw [hpc] at hk
  obtain ⟨-, hn, hvis, hchain⟩ := hk
  obtain ⟨-, hwait⟩ := h.after (.inr ⟨a, hpc ▸ ⟨rfl, rfl⟩⟩)
  refine h.moves hpc ⟨rfl, rfl, rfl, rfl, rfl, rfl⟩ rfl
    ⟨fun _ => id, fun _ => .inl, fun _ => id, fun _ => id, fun _ _ => .inl rfl,
      fun _ => ⟨rfl, rfl, fun _ _ => rfl⟩, fun hno => absurd (hpc ▸ rfl) hno⟩
    (fun _ hu => by cases hu) rfl (fun _ _ => ?_)
    ⟨fun _ => ⟨vthreadsOf w.taken, hchain, ?_, ?_⟩, fun hne => absurd rfl hne⟩ (fun _ => rfl) rfl
    fun ho => (h.after ho).1
  · -- the others have been taken already
    show Chain w.st.next (update w.st.joinWaitQueue t none t) (vthreadsOf w.waiting)
    rw [Function.update_self, hwait]
    exact Chain.nil
  · show _ = w.visited.reverse ++ _
    rw [hvis]
    rfl
  · rw [hn]
    exact length_kinds w.taken

/-! ## §3. The loop. -/

/-- htypes.hpp:400, the loop comes to `u`. -/
theorem take (h : w.Booked t) {n : ℤ} {u : V}
    (hpc : w.st.pc a = .exec (some t) (.wakeDeq n (some u)))
    (hw : w' = { w with
      st := { w.st with
        linked := update w.st.linked (.cut a) ((w.st.linked (.cut a)).erase u) }.goto a
          (.exec (some t) (.wakeClear n u (w.st.next u)))
      visited := u :: w.visited }) : w'.Booked t := by
  have hk := h.stands a
  rw [hpc] at hk
  obtain ⟨-, l, hchain, horder, hn⟩ := hk
  obtain ⟨l, rfl, hnext⟩ := hchain.uncons
  have hl : w.Leaves t w' a := by
    subst hw
    exact ⟨fun _ => id, fun _ => .inl, fun _ => List.mem_cons_of_mem u, fun _ => id,
      fun _ _ => .inl rfl, fun hno => absurd hpc (hno _),
      fun _ => ⟨rfl, rfl, rfl, id, fun _ _ => rfl⟩⟩
  have horder' : vthreadsOf w.taken = (u :: w.visited).reverse ++ l := by
    rw [horder, List.reverse_cons, List.append_assoc]
    rfl
  have hover : Over w'.st t ↔ Over w.st t := by
    subst hw
    exact over_exec hpc rfl rfl fun _ => rfl
  have hyes : Over w.st t := .inr ⟨a, hpc ▸ ⟨rfl, rfl⟩⟩
  subst hw
  obtain ⟨hparked, hctx⟩ := h.books_exec hpc (.wakeClear n u _) fun hp => hp
  refine ⟨?_, h.guarded_move hl (fun l => ?_) fun ha _ => ?_,
    h.stands_of hl rfl ⟨rfl, List.mem_cons_self, l, hnext, horder', ?_⟩, h.num, h.others, h.once,
    h.asked, hparked, hctx, ⟨l, horder'⟩, h.self, fun hno => absurd (hover.mpr hyes) hno,
    fun _ => h.after hyes, fun hd => absurd hd (h.not_done hpc)⟩
  · -- from here on `u` may be in two places
    have hcust : Custody (fun x => x ∉ u :: w.visited) _ _ _ _ := h.custody.mono fun x hx hmem =>
      hx (List.mem_cons_of_mem u hmem)
    refine hcust.stay (fun x hx hold => ?_) rfl
    rw [hpc]
    rcases hold with hme | hin
    · exact .inl hme
    · obtain rfl := Option.some.inj hin
      exact absurd List.mem_cons_self hx
  · rw [hpc]
    exact Iff.rfl
  · rw [hpc] at ha
    cases ha
  · rw [hn, List.length_cons]
    push_cast
    omega

/-- htypes.hpp:403, the node taken out. -/
theorem clear (h : w.Booked t) {n : ℤ} {u : V} {hd : Option V}
    (hpc : w.st.pc a = .exec (some t) (.wakeClear n u hd)) :
    { w with
      st := { w.st with next := update w.st.next u none }.goto a
        (.exec (some t) (.wakeSet n u hd)) }.Booked t := by
  have hk := h.stands a
  rw [hpc] at hk
  obtain ⟨-, hu, l, hchain, horder, hn⟩ := hk
  -- it is not among those that are left, nor does anybody wait
  have hnot : u ∉ l := h.not_left horder hu
  obtain ⟨-, hwait⟩ := h.after (.inr ⟨a, hpc ▸ ⟨rfl, rfl⟩⟩)
  refine h.moves hpc ⟨rfl, rfl, rfl, rfl, rfl, rfl⟩ rfl
    ⟨fun _ => id, fun _ => .inl, fun _ => id, fun _ => id, fun _ _ => .inl rfl,
      fun hno => absurd hpc (hno _), fun _ => ⟨rfl, rfl, rfl, id, fun x hx => ?_⟩⟩
    (fun x hx => Option.some.inj hx ▸ hu) rfl (fun ha => by cases ha)
    ⟨rfl, hu, l, hchain.update_of_not_mem hnot none, horder, hn⟩ (fun _ => rfl) rfl
    fun ho => (h.after ho).1
  rw [hwait] at hx
  cases hx

/-- vthread.hpp:277, the status of the joiner taken out. -/
theorem suspend (h : w.Booked t) {n : ℤ} {u : V} {hd : Option V}
    (hpc : w.st.pc a = .exec (some t) (.wakeSet n u hd)) :
    { w with
      st := { w.st with curStatus := update w.st.curStatus u .suspended }.goto a
        (.exec (some t) (.wakeEnq n u hd)) }.Booked t := by
  have hk := h.stands a
  rw [hpc] at hk
  obtain ⟨-, hu, hrest⟩ := hk
  have hne : ∀ x, x ∉ w.visited → update w.st.curStatus u .suspended x = w.st.curStatus x := by
    intro x hx
    refine Function.update_of_ne ?_ ..
    rintro rfl
    exact hx hu
  have ht := hne t h.target_not_visited
  exact h.moves hpc ⟨rfl, rfl, rfl, rfl, rfl, rfl⟩ rfl
    ⟨fun _ => id, fun _ => .inl, fun _ => id, fun _ => id, fun x hx => .inl (hne x hx),
      fun hno => absurd hpc (hno _), fun _ => ⟨rfl, rfl, rfl, ht.symm.trans, fun _ _ => rfl⟩⟩
    (fun x hx => Option.some.inj hx ▸ hu) rfl (fun ha => by cases ha) ⟨rfl, hu, hrest⟩
    (fun _ => rfl) rfl fun ho => ht.trans (h.after ho).1

/-- vthread.hpp:278, the joiner taken out may run again. -/
theorem enqueue (h : w.Booked t) {n : ℤ} {u : V} {hd : Option V}
    (hpc : w.st.pc a = .exec (some t) (.wakeEnq n u hd))
    (hw : w' = { w with
      st := { w.st with
        vsQueue := w.st.vsQueue ++ [u]
        puts := update w.st.puts u (w.st.puts u + 1) }.goto a
          (.exec (some t) (.wakeDeq (n - 1) hd)) }) : w'.Booked t := by
  have hk := h.stands a
  rw [hpc] at hk
  obtain ⟨-, hu, hrest⟩ := hk
  subst hw
  refine h.plain ⟨rfl, rfl, rfl, rfl, rfl, rfl⟩ rfl ?_ ?_ (q := .exec (some t) (.wakeDeq (n - 1) hd))
    ⟨rfl, hrest⟩ ?_ (fun x hx => ?_) fun _ _ _ => .inl
  · refine h.custody.put (v := u) (b := none) (fun hno => absurd hu hno) (fun x hx hold => ?_)
      (List.perm_append_singleton _ _) fun x hx => ?_
    · refine ⟨fun he => hx (he ▸ hu), ?_⟩
      rw [hpc]
      exact .inl (hold.resolve_right fun hno => by cases hno)
    · cases x with
      | none => exact absurd rfl hx
      | some b => rfl
  · refine h.guarded.move (fun l => ?_) (fun l ha _ => ?_) (fun _ _ _ => id) fun _ _ => id
    · rw [hpc]
      exact Iff.rfl
    · rw [hpc] at ha
      cases ha
  · rw [hpc]
    exact Iff.rfl
  · rw [hpc] at hx
    cases hx.2

/-- `wake_up_joined` returns. -/
theorem finish (h : w.Booked t) (hpc : w.st.pc a = .exec (some v) p)
    (hp : p = .wakePost 0 ∨ ∃ hd, p = .wakeCheck 0 hd)
    (hw : w' = { w with st := w.st.finish a v }) : w'.Booked t := by
  have hk := h.stands a
  rw [hpc] at hk
  have hlock : ∀ u, ¬Locked (w.st.pc a) u := by
    rw [hpc]
    rcases hp with rfl | ⟨hd, rfl⟩
    · exact fun u hu => by cases hu
    · exact fun u hu => by cases hu
  have hpoint : p.registers = false ∧ p.tookOver = true := by
    rcases hp with rfl | ⟨hd, rfl⟩ <;> exact ⟨rfl, rfl⟩
  have hall : v = t → vthreadsOf w.taken = w.visited.reverse := by
    rintro rfl
    rcases hp with rfl | ⟨hd, rfl⟩
    · exact hk.2.1
    · -- nobody is left
      obtain ⟨l, -, horder, hn⟩ := hk.1 rfl
      have hnil : l = [] := List.eq_nil_of_length_eq_zero (by omega)
      rw [horder, hnil, List.append_nil]
  have hdone : ∀ x, update w.st.done v true x = true → x = v ∨ w.st.done x = true := by
    intro x hx
    by_cases hxv : x = v
    · exact .inl hxv
    · rw [Function.update_of_ne hxv] at hx
      exact .inr hx
  have hl : w.Leaves t w' a := by
    subst hw
    exact ⟨fun _ => id, fun _ => .inl, fun _ => id, fun _ => id, fun _ _ => .inl rfl,
      fun _ => ⟨rfl, rfl, fun _ _ => rfl⟩, fun _ => ⟨rfl, rfl, rfl, id, fun _ _ => rfl⟩⟩
  have hover : Over w'.st t ↔ Over w.st t := by
    subst hw
    by_cases hv : t = v
    · subst hv
      exact iff_of_true (.inl (Function.update_self ..)) (.inr ⟨a, hpc ▸ ⟨rfl, hpoint.2⟩⟩)
    · -- another vthread has finished
      refine or_congr (by rw [show (w.st.finish a v).done t = _ from Function.update_of_ne hv ..])
        (exists_congr fun b => ?_)
      show TookOver (update w.st.pc a .top b) t ↔ _
      by_cases hba : b = a
      · rw [hba, Function.update_self, hpc]
        exact iff_of_false id fun ho => hv (Option.some.inj ho.1).symm
      · rw [Function.update_of_ne hba]
  subst hw
  obtain ⟨hparked, hctx⟩ := h.books_update (a := a) (q := .top) fun x hx => by
    rw [hpc] at hx
    exact Bool.noConfusion (hpoint.1.symm.trans hx.2)
  refine ⟨?_, h.guarded_move hl (fun l => iff_of_false id (hlock l)) fun ha => absurd ha (hlock t),
    h.stands_of hl rfl trivial, h.num, h.others, h.once, h.asked, hparked, hctx, h.order, h.self,
    fun hno => h.before fun ho => hno (hover.mpr ho), fun ho => h.after (hover.mp ho), fun hd => ?_⟩
  · refine h.custody.retire (v := v) (fun _ => hpc ▸ .inl rfl) (fun _ _ hx => hx.elim)
      (fun x hx => ?_) rfl
    rcases hx with hd | hpush
    · exact (hdone x hd).imp id .inl
    · exact .inr (.inr hpush)
  · rcases hdone t hd with hv | hd
    · exact hall hv.symm
    · exact h.ended hd

/-! ## §4. Calls, locks and workers. -/

/-- The program calls `join`, for the first time. -/
theorem ask (h : w.Booked t) {r : Option ℕ} (hpc : w.st.pc a = .exec me (.cont .user))
    (hno : w.asked (caller a me) = false)
    (hw : w' = { w with
      st := w.st.goto a (.exec me (.cont (.joinLock t r)))
      asked := update w.asked (caller a me) true }) : w'.Booked t := by
  have hasked : ∀ c, w.asked c = true → update w.asked (caller a me) true c = true := by
    intro c hc
    by_cases he : c = caller a me
    · rw [he, Function.update_self]
    · rw [Function.update_of_ne he]
      exact hc
  have hl : w.Leaves t w' a := by
    subst hw
    exact ⟨hasked, fun _ => .inl, fun _ => id, fun _ => id, fun _ _ => .inl rfl,
      fun _ => ⟨rfl, rfl, fun _ _ => rfl⟩, fun _ => ⟨rfl, rfl, rfl, id, fun _ _ => rfl⟩⟩
  have hover : Over w'.st t ↔ Over w.st t := by
    subst hw
    exact over_exec hpc rfl rfl fun _ => rfl
  subst hw
  obtain ⟨hparked, hctx⟩ := h.books_exec hpc (.cont (.joinLock t r)) fun hp => hp
  refine ⟨h.custody_exec hpc (fun _ hu => by cases hu), h.guarded_move hl (fun l => ?_) fun ha _ => ?_,
    h.stands_of hl rfl ⟨rfl, Function.update_self .., fun hreg => ?_⟩, h.num, h.others, h.once,
    fun c hc => hasked c (h.asked c hc), hparked, fun v u r hjoin => ?_, h.order, h.self,
    fun hn => h.before fun ho => hn (hover.mpr ho), fun ho => h.after (hover.mp ho), h.ended⟩
  · rw [hpc]
    exact Iff.rfl
  · rw [hpc] at ha
    cases ha
  · -- whoever is registered has asked
    have hyes := h.asked _ hreg
    rw [hno] at hyes
    cases hyes
  · obtain ⟨hu, hold, hany⟩ := hctx v u r hjoin
    exact ⟨hu, hasked _ hold, hany⟩

/-- The agent gives back the mutex of `u`. -/
theorem unlock (h : w.Booked t) (hpc : w.st.pc a = .exec me p) {u : V} (hlock : p.lock me = some u)
    {q : Pc V (JoinPc V) (JoinCont V) V} (hbooks : SameBooks w.st s) (hq : s.vsQueue = w.st.vsQueue)
    (hc : s.c = update w.st.c u false) (hctx : s.ctx = w.st.ctx) (hpc' : s.pc = update w.st.pc a q)
    (hfree : ∀ x, ¬Locked q x) (hholds : ∀ x, q.Holds joinShape x → me = some x)
    (hheld : u = t → w.HeldCode t me p → w.Queued t) (hown : w.PcOk t a q)
    (hover : TookOver q t ↔ TookOver (w.st.pc a) t) (hreg : p.registers = false) :
    { w with st := s }.Booked t := by
  refine h.plain hbooks hpc' ?_ ?_ hown hover (fun v hv => ?_) fun v u r hjoin => ?_
  · rw [hpc', hq]
    refine h.custody.stay (fun x _ hx => ?_) rfl
    rw [hpc]
    exact .inl (hholds x hx)
  · rw [hpc', hc]
    refine h.guarded.release (hpc ▸ hlock) (fun x hx => ?_) hfree fun hold hut => ?_
    · rw [hpc] at hx
      exact Option.some.inj (hx.symm.trans hlock)
    · rw [hpc] at hold
      exact hheld hut (hold hut)
  · rw [hpc] at hv
    exact Bool.noConfusion (hreg.symm.trans hv.2)
  · rw [hctx] at hjoin
    exact .inl hjoin

/-- The lock loops. -/
theorem loop (h : w.Booked t) {u : V} {k : JoinCont V} (hpc : w.st.pc a = .exec me (.cont k))
    (hp : Locks u me (.cont k) p) : { w with st := lockLoop w.st a me u k p }.Booked t := by
  have hk := h.stands a
  rw [hpc] at hk
  have hpoint : joinShape.hand p = none ∧ p.lock me = some u ∧ p.registers = false
      ∧ p.tookOver = false ∧ (w.Queued t → w.HeldCode t me p) ∧ w.CodeOk t a me p := by
    cases hp with
    | join => exact ⟨rfl, rfl, rfl, rfl, id, hk⟩
    | exit => exact ⟨rfl, rfl, rfl, rfl, id, trivial⟩
    | wake => exact ⟨rfl, rfl, rfl, rfl, id, trivial⟩
  obtain ⟨hhand, hlock, hregs, hover, hheld, hown⟩ := hpoint
  unfold lockLoop
  split
  · next hc =>
      cases me with
      | some v =>
          -- the vthread yields, and is to come back here
          refine h.plain ⟨rfl, rfl, rfl, rfl, rfl, rfl⟩ rfl (q := .switch v (.status .lockFail) k)
            (h.custody.stay (fun x _ hx => ?_) rfl)
            (h.guarded.move (fun l => ?_) (fun l ha => ?_) (fun _ _ _ => id) fun _ _ => id)
            (fun x r hjoin => ?_) ?_ (fun x hx => ?_) fun _ _ _ => .inl
          · rw [hpc]
            exact .inl (congrArg some hx.1.symm)
          · rw [hpc]
            exact iff_of_false id fun ha => by cases ha
          · rw [hpc] at ha
            cases ha
          · subst hjoin
            exact ⟨hk.1, rfl, hk.2⟩
          · rw [hpc]
            exact iff_of_false id fun ho => by cases ho.2
          · rw [hpc] at hx
            cases hx.2
      | none =>
          exact h.goes hpc ⟨rfl, rfl, rfl, rfl, rfl, rfl⟩ ⟨rfl, rfl, rfl, rfl, rfl, rfl⟩ rfl
            (fun _ hu => by cases hu) rfl (fun _ => id) hk (fun _ => rfl) rfl
  · next hc =>
      refine h.plain ⟨rfl, rfl, rfl, rfl, rfl, rfl⟩ rfl (q := .exec me p) (h.custody_exec hpc ?_) ?_
        hown ?_ (fun x hx => ?_) fun _ _ _ => .inl
      · intro x hx
        rw [hhand] at hx
        cases hx
      · refine h.guarded.acquire (by simpa using hc) (fun x hx => ?_) (fun x hx => ?_)
          fun hfree hut => hheld (hfree hut)
        · rw [hpc] at hx
          cases hx
        · exact Option.some.inj (hx.symm.trans hlock)
      · rw [hpc]
        exact iff_of_false (fun ho => Bool.noConfusion (hover.symm.trans ho.2)) fun ho => by cases ho.2
      · rw [hpc] at hx
        cases hx.2

omit [DecidableEq A] in
/-- What the mutex protects is as it should be, at any point outside the code. -/
theorem queued_idle (h : w.Booked t) (hpc : ∀ me p, w.st.pc a ≠ .exec me p)
    (hlock : Locked (w.st.pc a) t) : w.Queued t := by
  have hold := h.guarded.inside t a hlock rfl
  cases hp : w.st.pc a with
  | exec me p => exact absurd hp (hpc me p)
  | switch v r k =>
      rw [hp] at hold
      cases r with
      | mutex m => exact hold.1
      | status st => exact hold
  | _ =>
      rw [hp] at hold
      exact hold

omit [DecidableEq A] [DecidableEq V] in
/-- Where a vthread may be resumed nobody has a mutex. -/
theorem enter_idle (me : Option V) (k : JoinCont V) (u : V) :
    ¬Locked (.exec me (.cont k)) u ∧ ¬TookOver (.exec me (.cont k)) u :=
  ⟨fun hu => (by cases hu), fun hu => (by cases hu.2)⟩

/-- A worker goes on outside the code, or to where it resumes a vthread. -/
theorem idle (h : w.Booked t) {q : Pc V (JoinPc V) (JoinCont V) V} (hpc : ∀ me p, w.st.pc a ≠ .exec me p)
    (hno : ∀ u, ¬Locked (w.st.pc a) u) (hq : ∀ u, ¬Locked q u ∧ ¬TookOver q u)
    (hreg : ∀ v, ¬Registering (w.st.pc a) v) (hbooks : SameBooks w.st s) (hc : s.c = w.st.c)
    (hctx : s.ctx = w.st.ctx) (hpc' : s.pc = update w.st.pc a q)
    (hcust : Custody (fun v => v ∉ w.visited) (Pc.Holds joinShape) s.pc
      (bags s.vsQueue fun _ : Empty => []) fun v => w.st.done v = true ∨ w.st.pushes v ≠ 0)
    (hown : w.PcOk t a q) : { w with st := s }.Booked t := by
  refine h.plain hbooks hpc' hcust ?_ hown (iff_of_false (hq t).2 fun ho => ?_)
    (fun v hv => absurd hv (hreg v)) fun v u r hjoin => ?_
  · rw [hpc', hc]
    exact h.guarded.move (fun l => iff_of_false (hq l).1 (hno l)) (fun l hl => absurd hl (hno l))
      (fun _ _ _ => id) fun _ _ => id
  · cases hp : w.st.pc a with
    | exec me p => exact absurd hp (hpc me p)
    | _ =>
        rw [hp] at ho
        exact ho
  · rw [hctx] at hjoin
    exact .inl hjoin

omit [DecidableEq A] in
/-- A vthread that is resumed in the lock loop of `join` has not been registered. -/
theorem fresh_of_resume (h : w.Booked t) (hpc : w.st.pc a = .resume v) {u : V} {r : Option ℕ}
    (hjoin : w.st.ctx v = .joinLock u r) : u = t ∧ w.Fresh (.inr v) := by
  obtain ⟨hu, hasked, hany⟩ := h.ctx v u r hjoin
  refine ⟨hu, hasked, fun hreg => ?_⟩
  obtain ⟨b, hb⟩ := hany hreg
  have hvis := (h.waits_of_registering hb).2
  have hholds : (w.st.pc a).Holds joinShape v := hpc ▸ rfl
  have hk := h.stands b
  cases hb' : w.st.pc b with
  | exec me p =>
      rw [hb'] at hb
      have hrun : (w.st.pc b).Holds joinShape v := by
        rw [hb']
        exact .inl hb.1
      obtain rfl := h.custody.holder_unique hvis hholds hrun
      rw [hpc] at hb'
      cases hb'
  | switch x r k =>
      rw [hb'] at hb hk
      cases r with
      | mutex m =>
          obtain rfl : x = v := hb
          exact h.custody.not_holds_of_gone hvis (.inr hk.2.2.1) hholds
      | status st => exact hb
  | _ =>
      rw [hb'] at hb
      exact hb

/-- **The steps of worker_routine.** -/
theorem worker (h : w.Booked t) {σ : Sched A V (JoinPc V) (JoinCont V) V} (hd : V → Bool)
    (hs : workerRoutine JoinPc.cont finishVthread w.st.toSched a (w.st.pc a) = some σ) :
    { w with st := { w.st with toSched := σ, handed := hd } }.Booked t := by
  have hk := h.stands a
  have hfin : ∀ v x : V, (finishVthread v).Holds joinShape x → x = v := by
    intro v x hx
    rcases hx with hx | hx
    · exact (Option.some.inj hx).symm
    · cases hx
  have hwake : ∀ v, w.st.pc a = .wakeSelf v → ¬v ∉ w.visited := by
    intro v hv hno
    rw [hv] at hk
    exact hno hk
  have hcust := worker_custody h.custody hfin hwake hs
  cases hpc : w.st.pc a with
  | got v =>
      rw [hpc] at hs hk
      obtain rfl := Option.some.inj hs
      refine h.idle (by simp [hpc]) (fun _ => hpc ▸ id) (fun u => ?_) (fun _ => hpc ▸ id)
        ⟨rfl, rfl, rfl, rfl, rfl, rfl⟩ rfl rfl rfl hcust ?_
      · split <;> exact ⟨id, id⟩
      · split <;> trivial
  | putBack v | wakeSelf v =>
      rw [hpc] at hs
      obtain rfl := Option.some.inj hs
      exact h.idle (by simp [hpc]) (fun _ => hpc ▸ id) (fun u => ⟨id, id⟩) (fun _ => hpc ▸ id)
        ⟨rfl, rfl, rfl, rfl, rfl, rfl⟩ rfl rfl rfl hcust trivial
  | resume v =>
      rw [hpc] at hs
      obtain rfl := Option.some.inj hs
      refine h.idle (q := .exec (some v) (.cont (w.st.ctx v))) (by simp [hpc]) (fun _ => hpc ▸ id)
        (enter_idle _ _) (fun _ => hpc ▸ id)
        ⟨rfl, rfl, rfl, rfl, rfl, rfl⟩ rfl rfl rfl hcust ?_
      cases hctx : w.st.ctx v with
      | joinLock u r => exact h.fresh_of_resume hpc hctx
      | _ => trivial
  | switch v r k =>
      rw [hpc] at hs hk
      obtain rfl := Option.some.inj hs
      refine h.plain ⟨rfl, rfl, rfl, rfl, rfl, rfl⟩ rfl (q := .ret v r) hcust
        (h.guarded.move (fun l => ?_) (fun l hl _ hlt => ?_) (fun _ _ _ => id) fun _ _ => id) ?_ ?_
        (fun x hx => ?_) fun x u i hctx => ?_
      · rw [hpc]
        cases r <;> exact Iff.rfl
      · subst hlt
        exact h.queued_idle (by simp [hpc]) hl
      · cases r with
        | mutex m => exact ⟨hk.1, hk.2.2⟩
        | status st => trivial
      · rw [hpc]
        exact Iff.rfl
      · -- a joiner that was left comes back to the program
        rw [hpc] at hx
        cases r with
        | mutex m =>
            obtain rfl : v = x := hx
            refine .inr ⟨hk.2.2.1, fun u i => ?_⟩
            show update w.st.ctx v k v ≠ _
            rw [Function.update_self, hk.2.1]
            simp
        | status st => exact hx.elim
      · have hjoin : update w.st.ctx v k x = .joinLock u i := hctx
        by_cases hx : x = v
        · rw [hx, Function.update_self] at hjoin
          cases r with
          | mutex m =>
              rw [hk.2.1] at hjoin
              cases hjoin
          | status st =>
              obtain ⟨hu, -, hfresh⟩ := hk u i hjoin
              exact .inr ⟨hu, hx ▸ hfresh⟩
        · rw [Function.update_of_ne hx] at hjoin
          exact .inl hjoin
  | ret v r =>
      rw [hpc] at hs hk
      match r, hs with
      | .status .finished, hs =>
          obtain rfl := Option.some.inj hs
          exact h.idle (q := finishVthread v) (by simp [hpc]) (fun _ => hpc ▸ id)
            (enter_idle _ _) (fun _ => hpc ▸ id)
            ⟨rfl, rfl, rfl, rfl, rfl, rfl⟩ rfl rfl rfl hcust trivial
      | .status .blocked, hs | .status .suspended, hs | .status .lockFail, hs =>
          obtain rfl := Option.some.inj hs
          exact h.idle (by simp [hpc]) (fun _ => hpc ▸ id) (fun u => ⟨id, id⟩) (fun _ => hpc ▸ id)
            ⟨rfl, rfl, rfl, rfl, rfl, rfl⟩ rfl rfl rfl hcust trivial
      | .mutex m, hs =>
          obtain rfl := Option.some.inj hs
          refine h.plain ⟨rfl, rfl, rfl, rfl, rfl, rfl⟩ rfl (q := .setRunnable v) hcust
            (h.guarded.release ?_ (fun x hx => ?_) (fun _ => id) fun hold hlt => ?_) hk.2 ?_
            (fun x hx => ?_) fun _ _ _ => .inl
          · rw [hpc]
            rfl
          · rw [hpc] at hx
            exact hx.symm
          · rw [hpc] at hold
            exact hold hlt
          · rw [hpc]
            exact Iff.rfl
          · rw [hpc] at hx
            exact hx.elim
  | setRunnable v =>
      rw [hpc] at hs hk
      obtain rfl := Option.some.inj hs
      exact h.idle (q := .readStatus v) (by simp [hpc]) (fun _ => hpc ▸ id) (fun u => ⟨id, id⟩)
        (fun _ => hpc ▸ id) ⟨rfl, rfl, rfl, rfl, rfl, rfl⟩ rfl rfl rfl hcust hk
  | readStatus v =>
      rw [hpc] at hs hk
      obtain rfl := Option.some.inj hs
      refine h.idle (by simp [hpc]) (fun _ => hpc ▸ id) (fun u => ?_) (fun _ => hpc ▸ id)
        ⟨rfl, rfl, rfl, rfl, rfl, rfl⟩ rfl rfl rfl hcust ?_
      · split <;> exact ⟨id, id⟩
      · split
        · next hst =>
            -- only the loop sets STATUS_SUSPENDED for a joiner
            show v ∈ w.visited
            by_contra hno
            rw [hk.2 hno] at hst
            cases hst
        · trivial
  | top | exec me c | crashed => simp [hpc, workerRoutine] at hs

/-- vthreads.cpp:79, a worker takes `v`. -/
theorem dequeue (h : w.Booked t) {σ : Sched A V (JoinPc V) (JoinCont V) V}
    (hs : getAndWork w.st.toSched a v = some σ) :
    { w with st := { w.st with toSched := σ } }.Booked t := by
  have hcust := getAndWork_custody h.custody hs
  obtain ⟨hpc, -, rfl⟩ := getAndWork_cases hs
  exact h.idle (q := .got v) (by simp [hpc]) (fun _ => hpc ▸ id) (fun u => ⟨id, id⟩)
    (fun _ => hpc ▸ id) ⟨rfl, rfl, rfl, rfl, rfl, rfl⟩ rfl rfl rfl hcust trivial

/-- A step in the code of `me` to `p'` that leaves the list, the statuses and the
    queues alone. -/
theorem quiet (h : w.Booked t) (hpc : w.st.pc a = .exec me p) {p' : JoinPc V} {rv rr cl ft sl}
    (hs : s = { w.st with
      retval := rv
      routineRet := rr
      cell := cl
      fut := ft
      sleepers := sl
      pc := update w.st.pc a (.exec me p') }) (hhand : joinShape.hand p' = none)
    (hlock : p'.lock me = p.lock me)
    (hheld : p.lock me = some t → w.HeldCode t me p → w.HeldCode t me p')
    (hown : w.CodeOk t a me p') (hover : p'.tookOver = p.tookOver)
    (hreg : p'.registers = p.registers) : { w with st := s }.Booked t := by
  subst hs
  refine h.goes hpc ⟨rfl, rfl, rfl, rfl, rfl, rfl⟩ ⟨rfl, rfl, rfl, rfl, rfl, rfl⟩ rfl (fun u hu => ?_)
    hlock hheld hown (fun _ => hover) hreg
  rw [hhand] at hu
  cases hu

/-- The agent leaves the code of `me`, without a mutex. -/
theorem leave (h : w.Booked t) (hpc : w.st.pc a = .exec me p) {q : Pc V (JoinPc V) (JoinCont V) V}
    {rr} (hs : s = { w.st with
      routineRet := rr
      pc := update w.st.pc a q }) (hlock : p.lock me = none) (hreg : p.registers = false)
    (hover : p.tookOver = false) (hq : ∀ x, ¬Locked q x ∧ ¬TookOver q x)
    (hholds : ∀ x, q.Holds joinShape x → me = some x) (hown : w.PcOk t a q) :
    { w with st := s }.Booked t := by
  subst hs
  have hno : ∀ l, ¬Locked (w.st.pc a) l := by
    intro l hl
    rw [hpc] at hl
    cases hlock.symm.trans hl
  refine h.plain ⟨rfl, rfl, rfl, rfl, rfl, rfl⟩ rfl (h.custody.stay (fun x _ hx => ?_) rfl)
    (h.guarded.move (fun l => iff_of_false (hq l).1 (hno l)) (fun l hl => absurd hl (hno l))
      (fun _ _ _ => id) fun _ _ => id)
    hown (iff_of_false (hq t).2 fun ho => ?_) (fun x hx => ?_) fun _ _ _ => .inl
  · rw [hpc]
    exact .inl (hholds x hx)
  · rw [hpc] at ho
    exact Bool.noConfusion (hover.symm.trans ho.2)
  · rw [hpc] at hx
    exact Bool.noConfusion (hreg.symm.trans hx.2)

/-! ## §5. One step. -/

theorem join_step (h : w.Booked t) (hpc : w.st.pc a = .exec me p) (hs : join w.st a me p = some s) :
    { w.code t a me p with st := s }.Booked t := by
  have hk := h.stands a
  rw [hpc] at hk
  cases p with
  | cont k =>
      cases k with
      | joinLock u r =>
          obtain rfl := Option.some.inj hs
          exact h.loop hpc (.join me r)
      | _ => cases hs
  | joinRetval u r =>
      obtain rfl := Option.some.inj hs
      exact h.quiet hpc rfl rfl rfl (fun _ => id) hk rfl rfl
  | joinTest u r =>
      obtain rfl := Option.some.inj hs
      by_cases hst : w.st.curStatus u = .finished
      · rw [if_pos hst]
        exact h.quiet hpc rfl rfl rfl (fun _ => id) hk.1 rfl rfl
      · rw [if_neg hst]
        exact h.quiet hpc rfl rfl rfl (fun _ hg => ⟨hg, hk.1 ▸ hst⟩) hk rfl rfl
  | joinNum u =>
      obtain rfl := Option.some.inj hs
      obtain ⟨rfl, hfresh⟩ := hk
      exact h.quiet hpc rfl rfl rfl (fun _ hg => ⟨hg.1, hg.2, rfl⟩) ⟨rfl, hfresh⟩ rfl rfl
  | joinInc u n =>
      obtain rfl := Option.some.inj hs
      obtain ⟨rfl, -⟩ := hk
      have hcode : w.code u a me (.joinInc u n) = { w with waiting := caller a me :: w.waiting } :=
        if_pos rfl
      rw [hcode]
      cases me with
      | some v => exact h.count hpc (.inl ⟨rfl, rfl⟩) rfl
      | none => exact h.count hpc (.inr ⟨rfl, rfl⟩) rfl
  | joinStatus u =>
      simp only [join, Option.map_eq_some_iff] at hs
      obtain ⟨v, rfl, rfl⟩ := hs
      obtain rfl : u = t := hk
      exact h.block hpc
  | joinHead u =>
      obtain rfl := Option.some.inj hs
      obtain ⟨rfl, hst⟩ := hk
      exact h.quiet hpc rfl rfl rfl (fun _ => id) ⟨rfl, hst⟩ rfl rfl
  | joinPush u prev =>
      simp only [join, Option.map_eq_some_iff] at hs
      obtain ⟨v, rfl, rfl⟩ := hs
      obtain ⟨rfl, -⟩ := hk
      exact h.push hpc
  | joinLink u prev =>
      simp only [join, Option.map_eq_some_iff] at hs
      obtain ⟨v, rfl, rfl⟩ := hs
      obtain ⟨rfl, -⟩ := hk
      exact h.link hpc rfl
  | joinRelease u =>
      obtain rfl := Option.some.inj hs
      exact h.unlock hpc rfl (q := .exec me (.semCas u)) ⟨rfl, rfl, rfl, rfl, rfl, rfl⟩ rfl rfl rfl rfl
        (fun _ hx => by cases hx) (fun x hx => hx.resolve_right fun hn => by cases hn) (fun _ => id)
        trivial (by rw [hpc]; exact Iff.rfl) rfl
  | joinUnlock u =>
      obtain rfl := Option.some.inj hs
      exact h.unlock hpc rfl (q := .exec me (.cont .user)) ⟨rfl, rfl, rfl, rfl, rfl, rfl⟩ rfl rfl rfl rfl
        (fun _ hx => by cases hx) (fun x hx => hx.resolve_right fun hn => by cases hn) (fun _ => id)
        trivial (by rw [hpc]; exact Iff.rfl) rfl
  | joinOut u r =>
      obtain rfl := Option.some.inj hs
      cases r with
      | some x =>
          exact h.quiet hpc rfl rfl rfl (fun _ => id) hk rfl rfl
      | none =>
          exact h.quiet hpc rfl rfl rfl (fun _ => id) hk rfl rfl
  | joinStore u x val =>
      obtain rfl := Option.some.inj hs
      exact h.quiet hpc rfl rfl rfl (fun _ => id) hk rfl rfl
  | _ => cases hs

theorem semaWait_step (h : w.Booked t) (hpc : w.st.pc a = .exec me p)
    (hs : semaWait w.st a me p = some s) : { w.code t a me p with st := s }.Booked t := by
  cases p with
  | semCas u =>
      simp only [semaWait] at hs
      split at hs
      · exact Option.some.inj hs ▸ h.quiet hpc rfl rfl rfl (fun _ => id) trivial rfl rfl
      · exact Option.some.inj hs ▸ h.quiet hpc rfl rfl rfl (fun _ => id) trivial rfl rfl
  | semFutex u =>
      simp only [semaWait] at hs
      split at hs
      · exact Option.some.inj hs ▸ h.quiet hpc rfl rfl rfl (fun _ => id) trivial rfl rfl
      · exact Option.some.inj hs ▸ h.quiet hpc rfl rfl rfl (fun _ => id) trivial rfl rfl
  | semSleep u =>
      simp only [semaWait, Option.ite_none_left_eq_some] at hs
      exact Option.some.inj hs.2 ▸ h.quiet hpc rfl rfl rfl (fun _ => id) trivial rfl rfl
  | _ => cases hs

theorem pthreadExit_step (h : w.Booked t) (hpc : w.st.pc a = .exec me p)
    (hs : pthreadExit w.st a me p = some s) : { w.code t a me p with st := s }.Booked t := by
  cases p with
  | cont k =>
      cases k with
      | exitLock val =>
          obtain rfl := Option.some.inj hs
          cases me with
          | some v => exact h.loop hpc (.exit val)
          | none =>
              exact h.leave hpc (q := .crashed) rfl rfl rfl rfl (fun _ => ⟨id, id⟩)
                (fun _ hx => hx.elim) trivial
      | _ => cases hs
  | exitSet val =>
      simp only [pthreadExit, Option.map_eq_some_iff] at hs
      obtain ⟨v, rfl, rfl⟩ := hs
      exact h.quiet hpc rfl rfl rfl (fun _ => id) trivial rfl rfl
  | exitUnlock =>
      simp only [pthreadExit, Option.map_eq_some_iff] at hs
      obtain ⟨v, rfl, rfl⟩ := hs
      refine h.unlock hpc rfl (q := .switch v (.status .finished) .dead)
        ⟨rfl, rfl, rfl, rfl, rfl, rfl⟩ rfl rfl rfl rfl (fun _ => id)
        (fun x hx => congrArg some hx.1.symm) (fun _ => id) (fun _ _ hk => by cases hk) ?_ rfl
      rw [hpc]
      exact iff_of_false id fun ho => by cases ho.2
  | _ => cases hs

theorem manage_step (h : w.Booked t) (hpc : w.st.pc a = .exec me p)
    (hs : manage w.st a me p = some s) : { w.code t a me p with st := s }.Booked t := by
  cases p with
  | cont k =>
      cases k with
      | dead =>
          obtain rfl := Option.some.inj hs
          exact h.leave hpc (q := .crashed) rfl rfl rfl rfl (fun _ => ⟨id, id⟩) (fun _ hx => hx.elim)
            trivial
      | _ => cases hs
  | manageRet val =>
      simp only [manage, Option.map_eq_some_iff] at hs
      obtain ⟨v, rfl, rfl⟩ := hs
      exact h.leave hpc (q := .switch v (.status .finished) .dead) rfl rfl rfl rfl (fun _ => ⟨id, id⟩)
        (fun x hx => congrArg some hx.1.symm) fun _ _ hk => by cases hk
  | _ => cases hs

theorem wakeUpJoined_step (h : w.Booked t) (hpc : w.st.pc a = .exec (some v) p)
    (hs : wakeUpJoined w.st a v p = some s) : { w.code t a (some v) p with st := s }.Booked t := by
  have hk := h.stands a
  rw [hpc] at hk
  cases p with
  | cont k =>
      cases k with
      | wakeLock => exact Option.some.inj hs ▸ h.loop hpc .wake
      | _ => cases hs
  | wakeRetval =>
      obtain rfl := Option.some.inj hs
      cases w.st.retval v with
      | some x => exact h.quiet hpc rfl rfl rfl (fun _ => id) trivial rfl rfl
      | none => exact h.quiet hpc rfl rfl rfl (fun _ => id) trivial rfl rfl
  | wakeOut x | wakeStore x val =>
      obtain rfl := Option.some.inj hs
      exact h.quiet hpc rfl rfl rfl (fun _ => id) trivial rfl rfl
  | wakeStatus =>
      obtain rfl := Option.some.inj hs
      exact h.mark hpc
  | wakeNum =>
      obtain rfl := Option.some.inj hs
      by_cases hn : w.st.joinWaitersNum v = 0
      · rw [if_pos hn]
        by_cases hv : v = t
        · subst hv
          exact h.nobody hpc hn rfl
        · -- nobody joins any other vthread
          have hne : some v ≠ some t := fun he => hv (Option.some.inj he)
          exact h.goes hpc ⟨rfl, rfl, rfl, rfl, rfl, rfl⟩ ⟨rfl, rfl, rfl, rfl, rfl, rfl⟩ rfl
            (fun _ hu => by cases hu) rfl (fun _ => id) ⟨fun he => absurd he hne, fun _ => rfl⟩
            (fun he => absurd he hne) rfl
      · rw [if_neg hn]
        have hv : v = t := by
          by_contra hne
          exact hn (h.others v hne)
        subst hv
        exact h.quiet hpc rfl rfl rfl (fun _ => id) ⟨rfl, hk rfl⟩ rfl rfl
  | wakeWaiters =>
      obtain rfl := Option.some.inj hs
      obtain ⟨hv, hst⟩ := hk
      obtain rfl := Option.some.inj hv
      exact h.quiet hpc rfl rfl rfl (fun _ hg => ⟨hg, rfl⟩) ⟨rfl, hst⟩ rfl rfl
  | wakeZero n =>
      obtain rfl := Option.some.inj hs
      obtain rfl := Option.some.inj hk.1
      have hcode : w.code v a (some v) (.wakeZero n) = { w with waiting := [], taken := w.waiting } :=
        if_pos rfl
      rw [hcode]
      exact h.zero hpc rfl
  | wakeHead n =>
      obtain rfl := Option.some.inj hs
      obtain ⟨hv, hn, hvis, hc⟩ := hk
      obtain rfl := Option.some.inj hv
      exact h.quiet hpc rfl rfl rfl (fun _ => id) ⟨rfl, hn, hvis, hc⟩ rfl rfl
  | wakeNull n hd =>
      obtain rfl := Option.some.inj hs
      obtain rfl := Option.some.inj hk.1
      exact h.cutOff hpc
  | wakeUnlock n hd =>
      obtain rfl := Option.some.inj hs
      refine h.unlock hpc rfl (q := .exec (some v) (.wakeCheck n hd)) ⟨rfl, rfl, rfl, rfl, rfl, rfl⟩
        rfl rfl rfl rfl (fun _ hx => by cases hx) (fun x hx => hx.resolve_right fun hn => by cases hn)
        (fun _ => id) hk ?_ rfl
      rw [hpc]
      exact Iff.rfl
  | wakeCheck n hd =>
      obtain rfl := Option.some.inj hs
      by_cases hn : n = 0
      · rw [if_pos hn]
        exact h.finish hpc (.inr ⟨hd, by rw [hn]⟩) rfl
      · rw [if_neg hn]
        have hv : some v = some t := by
          by_contra hne
          exact hn (hk.2 hne)
        exact h.quiet hpc rfl rfl rfl (fun _ => id) ⟨hv, hk.1 hv⟩ rfl rfl
  | wakeDeq n hd =>
      obtain ⟨hv, hrest⟩ := hk
      obtain rfl := Option.some.inj hv
      cases hd with
      | none =>
          obtain rfl := Option.some.inj hs
          obtain ⟨l, hc, horder, hn⟩ := hrest
          rw [Chain.nil_iff] at hc
          rw [hc, List.append_nil] at horder
          rw [hc] at hn
          have hraw : n = (rawsOf w.taken).length := by simpa using hn
          exact h.quiet hpc rfl rfl rfl (fun _ => id) ⟨rfl, horder, by omega, by omega⟩ rfl rfl
      | some u =>
          obtain rfl := Option.some.inj hs
          have hcode : w.code v a (some v) (.wakeDeq n (some u))
              = { w with visited := u :: w.visited } := if_pos rfl
          rw [hcode]
          exact h.take hpc rfl
  | wakeClear n u hd =>
      obtain rfl := Option.some.inj hs
      obtain rfl := Option.some.inj hk.1
      exact h.clear hpc
  | wakeSet n u hd =>
      obtain rfl := Option.some.inj hs
      obtain rfl := Option.some.inj hk.1
      exact h.suspend hpc
  | wakeEnq n u hd =>
      obtain rfl := Option.some.inj hs
      obtain rfl := Option.some.inj hk.1
      exact h.enqueue hpc rfl
  | wakePost n =>
      obtain rfl := Option.some.inj hs
      by_cases hn : n = 0
      · rw [if_pos hn]
        exact h.finish hpc (.inl (by rw [hn])) rfl
      · rw [if_neg hn]
        obtain ⟨hv, hall, hpos, hle⟩ := hk
        split
        · exact h.quiet hpc rfl rfl rfl (fun _ => id) ⟨hv, hall, by omega, by omega⟩ rfl rfl
        · exact h.quiet hpc rfl rfl rfl (fun _ => id) ⟨hv, hall, by omega, by omega⟩ rfl rfl
  | wakeFutex n =>
      simp only [wakeUpJoined, Option.ite_none_right_eq_some] at hs
      obtain ⟨-, hs⟩ := hs
      obtain rfl := Option.some.inj hs
      exact h.quiet hpc rfl rfl rfl (fun _ => id) hk rfl rfl
  | _ => cases hs

theorem code_of_step (h : w.Booked t) (hpc : w.st.pc a = .exec me p)
    (hs : joinCode w.st a me p = some s) : { w.code t a me p with st := s }.Booked t := by
  unfold joinCode at hs
  split at hs
  · rw [Option.bind_eq_some_iff] at hs
    obtain ⟨v, rfl, hs⟩ := hs
    exact h.wakeUpJoined_step hpc hs
  · split at hs
    · exact h.semaWait_step hpc hs
    · split at hs
      · exact h.pthreadExit_step hpc hs
      · split at hs
        · exact h.manage_step hpc hs
        · exact h.join_step hpc hs

/-- The calls of the program, `join` for the first time only. -/
theorem call_step (h : w.Booked t) {f : JoinCall V} (hpc : w.st.pc a = .exec me (.cont .user))
    (hmay : mayJoin t w (.call a f) = true) (hs : joinCall w.st a me f = some s) :
    (w.note t s (.call a f)).Booked t := by
  cases f with
  | join u r =>
      obtain rfl := Option.some.inj hs
      simp only [mayJoin, hpc, Bool.and_eq_true, decide_eq_true_eq, Bool.not_eq_true'] at hmay
      obtain ⟨rfl, hno⟩ := hmay
      simp only [note, hpc]
      exact h.ask hpc hno rfl
  | pthreadExit val =>
      obtain rfl := Option.some.inj hs
      exact h.quiet hpc rfl rfl rfl (fun _ => id) trivial rfl rfl
  | ret val =>
      simp only [joinCall, Option.map_eq_some_iff] at hs
      obtain ⟨v, rfl, rfl⟩ := hs
      exact h.quiet hpc rfl rfl rfl (fun _ => id) trivial rfl rfl
  | schedYield =>
      obtain rfl := Option.some.inj hs
      cases me with
      | some v =>
          exact h.leave hpc (q := .switch v (.status .suspended) .user) rfl rfl rfl rfl
            (fun _ => ⟨id, id⟩) (fun x hx => congrArg some hx.1.symm) fun _ _ hk => by cases hk
      | none =>
          exact h.leave hpc (q := .crashed) rfl rfl rfl rfl (fun _ => ⟨id, id⟩) (fun _ hx => hx.elim)
            trivial

/-- **One step keeps the books.** -/
theorem booked_step (h : w.Booked t) {act : JoinAct A V} (hs : (counting t).step w act = some w') :
    w'.Booked t := by
  simp only [counting, Option.ite_none_right_eq_some, Option.map_eq_some_iff] at hs
  obtain ⟨hmay, s, hs, rfl⟩ := hs
  cases act with
  | call a f =>
      simp only [joinStep] at hs
      split at hs
      · next me hpc => exact h.call_step hpc hmay hs
      · cases hs
  | pick a v =>
      simp only [joinStep, Option.map_eq_some_iff] at hs
      obtain ⟨σ, hσ, rfl⟩ := hs
      exact h.dequeue hσ
  | rouse a b =>
      simp only [joinStep] at hs
      split at hs
      · next v p hpc =>
          have hk := h.stands a
          rw [hpc] at hk
          cases p with
          | wakeFutex n =>
              simp only [futexWake, Option.ite_none_right_eq_some] at hs
              obtain ⟨-, hs⟩ := hs
              obtain rfl := Option.some.inj hs
              exact h.quiet hpc rfl rfl rfl (fun _ => id) hk rfl rfl
          | _ => cases hs
      · cases hs
  | go a =>
      cases hpc : w.st.pc a with
      | exec me p =>
          simp only [joinStep, hpc] at hs
          simp only [note, hpc]
          exact h.code_of_step hpc hs
      | _ =>
          simp only [joinStep, hpc, joinWorker, Option.map_eq_some_iff] at hs
          obtain ⟨σ, hσ, rfl⟩ := hs
          simp only [note, hpc]
          exact h.worker _ (hpc ▸ hσ)

end Counted.Booked

end HThread.Join
