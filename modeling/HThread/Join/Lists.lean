/-
  HThread.Join.Lists — the lists of joiners and who may touch them.

  In every run without the enqueue of line 162 each vthread is in one place:
  in `vs_queue`, in a list of joiners, in the hands of one agent, or finished
  for good.  From this the linked lists stay lists, and `join_mutex` protects
  them.

  Key lemmas:
    * `lists_keeps` — the invariant `Lists` of all runs without that enqueue.
-/
import HThread.Join.Effects

namespace HThread.Join

open Interleave
open Function (update)

variable {A V : Type} [DecidableEq A] [DecidableEq V]

/-! ## §1. What an agent has. -/

/-- The agent has the `join_mutex` of `t`, or is to release it for a joiner. -/
def Locked : Pc V (JoinPc V) (JoinCont V) V → V → Prop
  | .exec me p, t => p.lock me = some t
  | .switch _ (.mutex m) _, t => m = t
  | .ret _ (.mutex m), t => m = t
  | _, _ => False

/-- What the agent knows of `t` then. -/
def Guards (s : JoinState A V) : Pc V (JoinPc V) (JoinCont V) V → V → Prop
  | .exec me p, t => Guard s me t p
  | _, t => Free s t

/-- The agent left `v` and is to release the mutex of `t` for it. -/
def Passing : Pc V (JoinPc V) (JoinCont V) V → V → V → Prop
  | .switch w (.mutex m) _, v, t => w = v ∧ m = t
  | .ret w (.mutex m), v, t => w = v ∧ m = t
  | _, _, _ => False

/-- The head of the list that the agent has cut off. -/
def cutHead : Pc V (JoinPc V) (JoinCont V) V → Option V
  | .exec _ p => p.cutHead
  | _ => none

/-- Its `waiters` cover that list. -/
def Covers (len : ℕ) : Pc V (JoinPc V) (JoinCont V) V → Prop
  | .exec _ p => p.Covers len
  | _ => True

/-- The nodes of the list that the agent has cut off are those of `l`. -/
def CutOff (next : V → Option V) (q : Pc V (JoinPc V) (JoinCont V) V) (l : List V) : Prop :=
  Chain next (cutHead q) l ∧ Covers l.length q

/-- Every vthread is in one place at a time. -/
def InPlace (s : JoinState A V) : Prop :=
  Custody (fun _ => True) (Pc.Holds joinShape) s.pc (bags s.vsQueue s.linked)
    fun v => s.done v = true

/-- The step is not the enqueue at line 162 of worker_routine. -/
def SkipsOwnEnqueue (s : JoinState A V) : JoinAct A V → Prop
  | .go a => ∀ v, s.pc a ≠ .wakeSelf v
  | _ => True

/-- What runs without that enqueue keep. -/
structure Lists (s : JoinState A V) : Prop where
  inPlace : InPlace s
  distinct : Distinct (fun _ => True) joinShape s.pc
  guarded : Guarded Locked (Free s) (Guards s) s.pc s.c
  cuts : ∀ a, CutOff s.next (s.pc a) (s.linked (.cut a))
  passing : ∀ a v t, Passing (s.pc a) v t → v ∈ s.linked (.queue t)
  marked : ∀ a v p, s.pc a = .exec (some v) p → p.past = true → s.curStatus v = .finished
  settled : ∀ v, s.done v = true → s.curStatus v = .finished

omit [DecidableEq A] [DecidableEq V] in
/-- A list that was cut off is not the queue of a vthread. -/
theorem cut_ne_queue (a : A) (t : V) : JoinList.cut a ≠ JoinList.queue t := by simp

section Basics

variable {s : JoinState A V} {a : A} {me : Option V} {p : JoinPc V} {v : V}

omit [DecidableEq A] [DecidableEq V] in
theorem not_locked_iff {q : Pc V (JoinPc V) (JoinCont V) V}
    (hexec : ∀ me p, q = .exec me p → p.lock me = none) (hswitch : ∀ v t k, q ≠ .switch v (.mutex t) k)
    (hret : ∀ v t, q ≠ .ret v (.mutex t)) (t : V) : ¬Locked q t := by
  cases q with
  | exec me p =>
      intro h
      have hn : p.lock me = some t := h
      rw [hexec me p rfl] at hn
      cases hn
  | switch v r k =>
      cases r with
      | mutex m => exact absurd rfl (hswitch v m k)
      | status _ => exact id
  | ret v r =>
      cases r with
      | mutex m => exact absurd rfl (hret v m)
      | status _ => exact id
  | _ => exact id

omit [DecidableEq A] [DecidableEq V] in
theorem Locked.of_passing {q : Pc V (JoinPc V) (JoinCont V) V} {t : V} (h : Passing q v t) :
    Locked q t := by
  cases q with
  | switch w r k => cases r with
    | mutex m => exact h.2
    | status _ => exact h.elim
  | ret w r => cases r with
    | mutex m => exact h.2
    | status _ => exact h.elim
  | _ => exact h.elim

namespace Lists

omit [DecidableEq A] in
/-- Whoever runs a vthread's code has it; it is in no list. -/
theorem not_linked_of_exec (h : Lists s) (hpc : s.pc a = .exec (some v) p) (b : JoinList A V) :
    v ∉ s.linked b :=
  h.inPlace.not_mem_of_holds (a := a) (b := some b) trivial (hpc ▸ .inl rfl)

omit [DecidableEq A] in
/-- Nor is the joiner that `wake_up_joined` has in hand. -/
theorem not_linked_of_hand (h : Lists s) (hpc : s.pc a = .exec me p)
    (hv : joinShape.hand p = some v) (b : JoinList A V) : v ∉ s.linked b :=
  h.inPlace.not_mem_of_holds (a := a) (b := some b) trivial (hpc ▸ .inr hv)

omit [DecidableEq A] in
/-- An agent that has cut off nothing has an empty list. -/
theorem cut_nil (h : Lists s) (hpc : cutHead (s.pc a) = none) : s.linked (.cut a) = [] := by
  have hc := (h.cuts a).1
  rw [hpc] at hc
  exact Chain.nil_iff.mp hc

end Lists

end Basics

/-! ## §2. Everybody in one place. -/

section InPlace

variable {s s' : JoinState A V} {a : A} {me : Option V} {p : JoinPc V}

/-- Points of `me` without another vthread in hand. -/
theorem inPlace_stay (h : InPlace s) (hpc : s.pc a = .exec me p) {q : Pc V (JoinPc V) (JoinCont V) V}
    (hq : ∀ w, q.Holds joinShape w → me = some w ∨ joinShape.hand p = some w) :
    Custody (fun _ => True) (Pc.Holds joinShape) (update s.pc a q) (bags s.vsQueue s.linked)
      fun v => s.done v = true := by
  refine h.stay (fun w _ hw => ?_) rfl
  rw [hpc]
  exact hq w hw

omit [DecidableEq A] [DecidableEq V] in
theorem holds_exec {p' : JoinPc V} (hp' : joinShape.hand p' = none) (w : V)
    (hw : (Pc.exec me p' : Pc V (JoinPc V) (JoinCont V) V).Holds joinShape w) :
    me = some w ∨ joinShape.hand p = some w := by
  rcases hw with hw | hw
  · exact .inl hw
  · rw [hp'] at hw
    cases hw

omit [DecidableEq A] [DecidableEq V] in
theorem Locks.hand {t : V} {p' : JoinPc V} (h : Locks t me p p') :
    joinShape.hand p = none ∧ joinShape.hand p' = none := by
  cases h <;> exact ⟨rfl, rfl⟩

omit [DecidableEq A] [DecidableEq V] in
theorem Unlocks.hand {t : V} {p' : JoinPc V} (h : Unlocks t me p p') :
    joinShape.hand p = none ∧ joinShape.hand p' = none := by
  cases h <;> exact ⟨rfl, rfl⟩

theorem inPlace_code (h : Lists s) (hpc : s.pc a = .exec me p) (hs : CodeEffect s a me p s') :
    InPlace s' := by
  cases hs with
  | quiet rv rr cl ft sl p' hq =>
      exact inPlace_stay h.inPlace hpc fun w hw => hw.imp id fun hw => hq.hand ▸ hw
  | acquire t p' hp hc => exact inPlace_stay h.inPlace hpc (holds_exec hp.hand.2)
  | unlock t p' hp => exact inPlace_stay h.inPlace hpc (holds_exec hp.hand.2)
  | exit v hme hp => exact inPlace_stay h.inPlace hpc fun w hw => .inl (hw.1 ▸ hme)
  | ret v val hme hp => exact inPlace_stay h.inPlace hpc fun w hw => .inl (hw.1 ▸ hme)
  | count t n p' hp hp' =>
      refine inPlace_stay h.inPlace hpc (holds_exec ?_)
      rcases hp' with rfl | rfl <;> rfl
  | block v t hme hp => exact inPlace_stay h.inPlace hpc (holds_exec rfl)
  | push v t prev hme hp => exact inPlace_stay h.inPlace hpc (holds_exec rfl)
  | link v t prev hme hp =>
      -- the joiner passes from its worker's hands into the list
      refine h.inPlace.put (v := v) (b := some (.queue t)) (fun _ => hpc ▸ .inl hme)
        (fun w _ hw => ?_) ?_ fun x hx => ?_
      · obtain ⟨-, hk⟩ := hw
        cases hk
      · show (update s.linked (.queue t) (v :: s.linked (.queue t)) (.queue t)).Perm _
        rw [Function.update_self]
        exact List.Perm.refl _
      · rw [bags_update]
        exact Function.update_of_ne hx _ _
  | mark v hme hp => exact inPlace_stay h.inPlace hpc (holds_exec rfl)
  | zero v n hme hp => exact inPlace_stay h.inPlace hpc (holds_exec rfl)
  | cut v n hd hme hp =>
      have hnil : s.linked (.cut a) = [] := h.cut_nil (by rw [hpc, hp]; rfl)
      refine h.inPlace.pour (b := some (.queue v)) (d := some (.cut a)) (fun w _ hw => ?_)
        (by simp) hnil ?_
      · rw [hpc]
        exact holds_exec rfl w hw
      · rw [bags_update, bags_update]
        rfl
  | take v n w hme hp =>
      have hc := h.cuts a
      rw [hpc, hp] at hc
      obtain ⟨l, hl, -⟩ := hc.1.uncons
      have hw : w ∈ s.linked (.cut a) := hl ▸ List.mem_cons_self
      refine h.inPlace.take (v := w) (b := some (.cut a)) (fun x _ hx => ?_) ?_ fun x hx => ?_
      · rw [hpc]
        rcases hx with hx | hx
        · exact .inr (.inl hx)
        · exact .inl (Option.some.inj hx).symm
      · show (s.linked (.cut a)).Perm (w :: update s.linked (.cut a) _ (.cut a))
        rw [Function.update_self]
        exact List.perm_cons_erase hw
      · rw [bags_update]
        exact Function.update_of_ne hx _ _
  | clear v n w hd hme hp =>
      subst hp
      exact inPlace_stay h.inPlace hpc fun x hx => hx
  | suspend v n w hd hme hp =>
      subst hp
      exact inPlace_stay h.inPlace hpc fun x hx => hx
  | wake v n w hd hme hp =>
      subst hp
      refine h.inPlace.put (v := w) (b := none) (fun _ => hpc ▸ .inr rfl) (fun x _ hx => ?_)
        (List.perm_append_singleton _ _) fun x hx => ?_
      · have hx : me = some x := hx.resolve_right fun hn => by cases hn
        refine ⟨?_, hpc ▸ .inl hx⟩
        rintro rfl
        exact h.distinct a me _ x trivial hpc rfl hx
      · cases x with
        | none => exact absurd rfl hx
        | some b => rfl
  | finish v hme hp =>
      refine h.inPlace.retire (v := v) (fun _ => hpc ▸ .inl hme) (fun w _ hw => hw.elim)
        (fun w hw => ?_) rfl
      by_cases hwv : w = v
      · exact .inl hwv
      · have hd : update s.done v true w = true := hw
        rw [Function.update_of_ne hwv] at hd
        exact .inr hd
  | yield v st k k' hme hk hst => exact inPlace_stay h.inPlace hpc fun w hw => .inl (hw.1 ▸ hme)
  | crash k hk hw => exact inPlace_stay h.inPlace hpc fun w hw => hw.elim

theorem distinct_code (h : Lists s) (hpc : s.pc a = .exec me p) (hs : CodeEffect s a me p s') :
    Distinct (fun _ => True) joinShape s'.pc := by
  have hplain : ∀ p', joinShape.hand p' = none →
      Distinct (fun _ => True) joinShape (update s.pc a (.exec me p')) := by
    intro p' hp'
    refine h.distinct.move fun me' x w _ hx hw => ?_
    obtain ⟨-, rfl⟩ := Pc.exec.inj hx
    rw [hp'] at hw
    cases hw
  have hsame : ∀ p', joinShape.hand p' = joinShape.hand p →
      Distinct (fun _ => True) joinShape (update s.pc a (.exec me p')) := by
    intro p' hp'
    refine h.distinct.move fun me' x w _ hx hw => ?_
    obtain ⟨rfl, rfl⟩ := Pc.exec.inj hx
    exact h.distinct a me p w trivial hpc (hp' ▸ hw)
  cases hs with
  | quiet rv rr cl ft sl p' hq => exact hsame p' hq.hand
  | acquire t p' hp hc => exact hplain p' hp.hand.2
  | unlock t p' hp => exact hplain p' hp.hand.2
  | count t n p' hp hp' =>
      refine hplain p' ?_
      rcases hp' with rfl | rfl <;> rfl
  | block v t hme hp => exact hplain _ rfl
  | push v t prev hme hp => exact hplain _ rfl
  | mark v hme hp => exact hplain _ rfl
  | zero v n hme hp => exact hplain _ rfl
  | cut v n hd hme hp => exact hplain _ rfl
  | take v n w hme hp =>
      -- what comes out of a list is not what the agent runs
      refine h.distinct.move fun me' x u _ hx hu hmeu => ?_
      obtain ⟨rfl, rfl⟩ := Pc.exec.inj hx
      obtain rfl := Option.some.inj hu
      have hc := h.cuts a
      rw [hpc, hp] at hc
      obtain ⟨l, hl, -⟩ := hc.1.uncons
      rw [hmeu] at hpc
      exact h.not_linked_of_exec hpc (.cut a) (hl ▸ List.mem_cons_self)
  | clear v n w hd hme hp =>
      subst hp
      exact hsame _ rfl
  | suspend v n w hd hme hp =>
      subst hp
      exact hsame _ rfl
  | wake v n w hd hme hp => exact hplain _ rfl
  | exit | ret | link | finish | yield | crash =>
      exact h.distinct.leave fun _ _ hx => by cases hx

end InPlace

/-! ## §3. What the mutexes protect. -/

/-- `s'` shows whoever looks at the joiners of `t` what `s` showed. -/
structure Same (s s' : JoinState A V) (t : V) : Prop where
  linked : s'.linked (.queue t) = s.linked (.queue t)
  chain : ∀ h, Chain s.next h (s.linked (.queue t)) → Chain s'.next h (s.linked (.queue t))
  head : s'.joinWaitQueue t = s.joinWaitQueue t
  num : s'.joinWaitersNum t = s.joinWaitersNum t
  status : s'.curStatus t = .finished → s.curStatus t = .finished

namespace Same

variable {s s' : JoinState A V} {t : V}

omit [DecidableEq A] [DecidableEq V]

theorem listed (h : Same s s' t) {hd : Option V} {n : ℤ} (hl : Listed s t hd n) :
    Listed s' t hd n := by
  unfold Listed
  rw [h.linked]
  exact ⟨h.chain hd hl.1, hl.2⟩

theorem free (h : Same s s' t) (hf : Free s t) : Free s' t := by
  unfold Free
  rw [h.head, h.num, h.linked]
  exact ⟨h.listed hf.1, fun hst => hf.2 (h.status hst)⟩

theorem owing (h : Same s s' t) {hd : Option V} (ho : Owing s t hd) : Owing s' t hd := by
  unfold Owing
  rw [h.num]
  exact ⟨h.listed ho.1, fun hst => ho.2 (h.status hst)⟩

theorem guard (h : Same s s' t) {me : Option V} {p : JoinPc V} (hg : Guard s me t p) :
    Guard s' me t p := by
  cases p with
  | joinNum _ => exact ⟨h.free hg.1, fun hst => hg.2 (h.status hst)⟩
  | joinInc _ n => exact ⟨h.free hg.1, fun hst => hg.2.1 (h.status hst), h.num ▸ hg.2.2⟩
  | joinStatus _ | joinHead _ =>
      show Owing s' t (s'.joinWaitQueue t)
      rw [h.head]
      exact h.owing hg
  | joinPush _ prev => exact h.owing hg
  | joinLink _ prev => exact ⟨h.owing hg.1, h.head ▸ hg.2⟩
  | wakeNum | wakeWaiters =>
      show Listed s' t (s'.joinWaitQueue t) (s'.joinWaitersNum t)
      rw [h.head, h.num]
      exact h.listed hg
  | wakeZero n =>
      show Listed s' t (s'.joinWaitQueue t) n
      rw [h.head]
      exact h.listed hg
  | wakeHead n =>
      show Listed s' t (s'.joinWaitQueue t) n ∧ 0 ≤ s'.joinWaitersNum t
      rw [h.head, h.num]
      exact ⟨h.listed hg.1, hg.2⟩
  | wakeNull n hd => exact ⟨h.listed hg.1, h.num ▸ hg.2⟩
  | _ => exact h.free hg

theorem guards (h : Same s s' t) {q : Pc V (JoinPc V) (JoinCont V) V} (hg : Guards s q t) :
    Guards s' q t := by
  cases q with
  | exec me p => exact h.guard hg
  | _ => exact h.free hg

/-- Nothing that concerns joiners changed. -/
theorem of_eq (hl : s'.linked = s.linked) (hn : s'.next = s.next)
    (hh : s'.joinWaitQueue = s.joinWaitQueue) (hnum : s'.joinWaitersNum = s.joinWaitersNum)
    (hst : s'.curStatus = s.curStatus) (t : V) : Same s s' t := by
  refine ⟨by rw [hl], fun h hc => ?_, by rw [hh], by rw [hnum], fun h => ?_⟩
  · rw [hn]
    exact hc
  · rw [← hst]
    exact h

end Same

section Guarded

variable {s s' : JoinState A V} {a : A} {me : Option V} {p : JoinPc V}

/-- The agent goes on within the code, under the same mutex: it may change the
    data behind it, and nothing else. -/
theorem guarded_move (h : Lists s) (hpc : s.pc a = .exec me p) {p' : JoinPc V}
    (hlock : p'.lock me = p.lock me)
    (hown : ∀ t, p.lock me = some t → Guard s me t p → Guard s' me t p')
    (hsame : ∀ t, p.lock me ≠ some t → Same s s' t) :
    Guarded Locked (Free s') (Guards s') (update s.pc a (.exec me p')) s.c := by
  refine h.guarded.move (fun t => ?_) (fun t hl hg => ?_) (fun t q hl hg => ?_) fun t hl hf => ?_
  · rw [hpc]
    show p'.lock me = some t ↔ p.lock me = some t
    rw [hlock]
  · rw [hpc] at hl hg
    exact hown t hl hg
  · rw [hpc] at hl
    exact (hsame t hl).guards hg
  · rw [hpc] at hl
    exact (hsame t hl).free hf

/-- A step between points without a mutex. -/
theorem guarded_plain (h : Lists s) (hpc : s.pc a = .exec me p) (hlock : p.lock me = none)
    {q : Pc V (JoinPc V) (JoinCont V) V} (hq : ∀ t, ¬Locked q t) (hsame : ∀ t, Same s s' t) :
    Guarded Locked (Free s') (Guards s') (update s.pc a q) s.c := by
  have hno : ∀ t, ¬Locked (s.pc a) t := by
    intro t hl
    rw [hpc] at hl
    have hn : p.lock me = some t := hl
    rw [hlock] at hn
    cases hn
  exact h.guarded.move (fun t => iff_of_false (hq t) (hno t)) (fun t hl => absurd hl (hno t))
    (fun t q _ hg => (hsame t).guards hg) fun t _ hf => (hsame t).free hf

/-- The agent releases the mutex of `t`. -/
theorem guarded_release (h : Lists s) (hpc : s.pc a = .exec me p) {t : V}
    (hlock : p.lock me = some t) (hfree : Guard s me t p → Free s t)
    {q : Pc V (JoinPc V) (JoinCont V) V} (hq : ∀ t, ¬Locked q t) (hsame : ∀ t, Same s s' t) :
    Guarded Locked (Free s') (Guards s') (update s.pc a q) (update s.c t false) := by
  have hrel : Guarded Locked (Free s) (Guards s) (update s.pc a q) (update s.c t false) := by
    refine h.guarded.release (hpc ▸ hlock) (fun x hx => ?_) hq fun hg => ?_
    · rw [hpc] at hx
      have hx' : p.lock me = some x := hx
      rw [hlock] at hx'
      exact (Option.some.inj hx').symm
    · rw [hpc] at hg
      exact hfree hg
  exact hrel.mono (fun t hf => (hsame t).free hf) fun t q hg => (hsame t).guards hg

theorem guarded_code (h : Lists s) (hpc : s.pc a = .exec me p) (hs : CodeEffect s a me p s') :
    Guarded Locked (Free s') (Guards s') s'.pc s'.c := by
  cases hs with
  | quiet rv rr cl ft sl p' hq =>
      have hsame : ∀ t, Same s { s with
          retval := rv, routineRet := rr, cell := cl, fut := ft, sleepers := sl,
          pc := update s.pc a (.exec me p') } t := .of_eq rfl rfl rfl rfl rfl
      exact guarded_move h hpc hq.lock (fun t hl hg => (hsame t).guard (hq.guard t hl hg))
        fun t _ => hsame t
  | acquire t p' hp hc =>
      have hlock : p.lock me = none ∧ p'.lock me = some t := by
        cases hp <;> exact ⟨rfl, rfl⟩
      have hacq : Guarded Locked (Free s) (Guards s) (update s.pc a (.exec me p'))
          (update s.c t true) := by
        refine h.guarded.acquire hc (fun x hx => ?_) (fun x hx => ?_) fun hf => ?_
        · rw [hpc] at hx
          have hn : p.lock me = some x := hx
          rw [hlock.1] at hn
          cases hn
        · have hn : p'.lock me = some x := hx
          rw [hlock.2] at hn
          exact (Option.some.inj hn).symm
        · cases hp <;> exact hf
      exact hacq.mono (fun x => (Same.of_eq rfl rfl rfl rfl rfl x).free)
        fun x q => (Same.of_eq rfl rfl rfl rfl rfl x).guards
  | unlock t p' hp =>
      have hlock : p.lock me = some t ∧ p'.lock me = none := by
        cases hp <;> exact ⟨rfl, rfl⟩
      refine guarded_release h hpc hlock.1 (fun hg => ?_) (fun x hx => ?_)
        (.of_eq rfl rfl rfl rfl rfl)
      · cases hp <;> exact hg
      · have hn : p'.lock me = some x := hx
        rw [hlock.2] at hn
        cases hn
  | exit v hme hp =>
      subst hp
      exact guarded_release h hpc hme id (fun _ => id) (.of_eq rfl rfl rfl rfl rfl)
  | ret v val hme hp =>
      subst hp
      exact guarded_plain h hpc rfl (fun _ => id) (.of_eq rfl rfl rfl rfl rfl)
  | count t n p' hp hp' =>
      subst hp
      refine guarded_move h hpc ?_ (fun x hx hg => ?_) fun x hx => ?_
      · rcases hp' with rfl | rfl <;> rfl
      · obtain rfl := Option.some.inj hx
        obtain ⟨hf, hst, hn⟩ := hg
        rcases hp' with rfl | rfl
        · -- one more is counted than is in the list
          refine ⟨⟨hf.1.1, ?_⟩, hst⟩
          have hlen := hf.1.2
          show ((s.linked (.queue t)).length : ℤ) ≤ update s.joinWaitersNum t (n + 1) t - 1
          rw [Function.update_self]
          omega
        · refine ⟨⟨hf.1.1, ?_⟩, hf.2⟩
          have hlen := hf.1.2
          show ((s.linked (.queue t)).length : ℤ) ≤ update s.joinWaitersNum t (n + 1) t
          rw [Function.update_self]
          omega
      · have hne : x ≠ t := fun he => hx (congrArg some he.symm)
        exact ⟨rfl, fun _ => id, rfl, Function.update_of_ne hne _ _, id⟩
  | block v t hme hp =>
      subst hp
      have hsame : ∀ x, Same s { s with
          curStatus := update s.curStatus v .blocked,
          pc := update s.pc a (.exec me (.joinHead t)) } x := by
        intro x
        exact ⟨rfl, fun _ => id, rfl, rfl, finished_of_update (by decide)⟩
      refine guarded_move h hpc rfl (fun x hx hg => ?_) fun x _ => hsame x
      exact Same.guard (p := .joinHead t) (hsame x) hg
  | push v t prev hme hp =>
      subst hp
      refine guarded_move h hpc rfl (fun x hx hg => ?_) fun x hx => ?_
      · obtain rfl := Option.some.inj hx
        refine ⟨hg, ?_⟩
        show update s.joinWaitQueue t (some v) t = me
        rw [Function.update_self, hme]
      · have hne : x ≠ t := fun he => hx (congrArg some he.symm)
        exact ⟨rfl, fun _ => id, Function.update_of_ne hne _ _, rfl, id⟩
  | link v t prev hme hp =>
      subst hp hme
      have hv := h.not_linked_of_exec hpc
      refine h.guarded.move (fun x => ?_) (fun x hx hg => ?_) (fun x q hx hg => ?_)
        fun x hx hf => ?_
      · rw [hpc]
        exact Option.some_inj.symm
      · -- the joiner is the new head of the list
        rw [hpc] at hx hg
        obtain rfl := Option.some.inj hx
        obtain ⟨⟨⟨hchain, hlen⟩, hst⟩, hhead⟩ := hg
        refine ⟨⟨?_, ?_⟩, fun hfin => absurd hfin hst⟩
        · show Chain (update s.next v prev) (s.joinWaitQueue t)
            (update s.linked (.queue t) (v :: s.linked (.queue t)) (.queue t))
          rw [Function.update_self, hhead]
          exact hchain.cons (hv _)
        · show ((update s.linked (.queue t) (v :: s.linked (.queue t)) (.queue t)).length : ℤ) ≤ _
          rw [Function.update_self, List.length_cons]
          push_cast
          have hlen' : ((s.linked (.queue t)).length : ℤ) ≤ s.joinWaitersNum t - 1 := hlen
          show _ ≤ s.joinWaitersNum t
          omega
      all_goals
        have hne : x ≠ t := by
          rintro rfl
          rw [hpc] at hx
          exact hx rfl
        have hsame : Same s { s with
            next := update s.next v prev,
            linked := update s.linked (.queue t) (v :: s.linked (.queue t)),
            pushes := update s.pushes v (s.pushes v + 1),
            pc := update s.pc a (.switch v (.mutex t) .user) } x :=
          ⟨Function.update_of_ne (fun he => hne (JoinList.queue.inj he)) _ _,
            fun _ hc => hc.update_of_not_mem (hv _) _, rfl, rfl, id⟩
      · exact hsame.guards hg
      · exact hsame.free hf
  | mark v hme hp =>
      subst hp
      refine guarded_move h hpc rfl (fun x hx hg => ?_) fun x hx => ?_
      · exact (show Free s x from hg).1
      · have hne : x ≠ v := fun he => hx (hme.trans (congrArg some he.symm))
        refine ⟨rfl, fun _ => id, rfl, rfl, fun hst => ?_⟩
        have hst' : update s.curStatus v .finished x = .finished := hst
        rw [Function.update_of_ne hne] at hst'
        exact hst'
  | zero v n hme hp =>
      subst hp
      refine guarded_move h hpc rfl (fun x hx hg => ?_) fun x hx => ?_
      · obtain rfl := Option.some.inj (hme.symm.trans hx)
        refine ⟨hg, ?_⟩
        show (0 : ℤ) ≤ update s.joinWaitersNum v 0 v
        exact Int.le_of_eq (Function.update_self v (0 : ℤ) s.joinWaitersNum).symm
      · have hne : x ≠ v := fun he => hx (hme.trans (congrArg some he.symm))
        exact ⟨rfl, fun _ => id, rfl, Function.update_of_ne hne _ _, id⟩
  | cut v n hd hme hp =>
      subst hp
      refine guarded_move h hpc rfl (fun x hx hg => ?_) fun x hx => ?_
      · obtain rfl := Option.some.inj (hme.symm.trans hx)
        have hnil : update (update s.linked (.queue v) []) (.cut a) (s.linked (.queue v)) (.queue v)
            = [] := by
          rw [Function.update_of_ne (by simp), Function.update_self]
        refine ⟨⟨?_, ?_⟩, fun _ => hnil⟩
        · show Chain s.next (update s.joinWaitQueue v none v)
            (update (update s.linked (.queue v) []) (.cut a) (s.linked (.queue v)) (.queue v))
          rw [hnil, Function.update_self]
          exact Chain.nil
        · show ((update (update s.linked (.queue v) []) (.cut a) (s.linked (.queue v))
            (.queue v)).length : ℤ) ≤ s.joinWaitersNum v
          rw [hnil]
          exact hg.2
      · have hne : x ≠ v := fun he => hx (hme.trans (congrArg some he.symm))
        have hl : update (update s.linked (.queue v) []) (.cut a) (s.linked (.queue v)) (.queue x)
            = s.linked (.queue x) := by
          rw [Function.update_of_ne (by simp),
            Function.update_of_ne fun he => hne (JoinList.queue.inj he)]
        exact ⟨hl, fun _ => id, Function.update_of_ne hne _ _, rfl, id⟩
  | take v n w hme hp =>
      subst hp
      refine guarded_plain h hpc rfl (fun x hx => by cases hx) fun x => ?_
      have hne : JoinList.queue (A := A) x ≠ .cut a := by simp
      exact ⟨Function.update_of_ne hne ((s.linked (.cut a)).erase w) s.linked, fun _ => id, rfl, rfl,
        id⟩
  | clear v n w hd hme hp =>
      subst hp
      refine guarded_plain h hpc rfl (fun x hx => by cases hx) fun x => ?_
      exact ⟨rfl, fun _ hc => hc.update_of_not_mem (h.not_linked_of_hand hpc rfl _) _, rfl, rfl, id⟩
  | suspend v n w hd hme hp =>
      subst hp
      refine guarded_plain h hpc rfl (fun x hx => by cases hx) fun x => ?_
      exact ⟨rfl, fun _ => id, rfl, rfl, finished_of_update (by decide)⟩
  | wake v n w hd hme hp =>
      subst hp
      exact guarded_plain h hpc rfl (fun x hx => by cases hx) (.of_eq rfl rfl rfl rfl rfl)
  | finish v hme hp =>
      have hlock : p.lock me = none := by
        rcases hp with rfl | ⟨hd, rfl⟩ <;> rfl
      exact guarded_plain h hpc hlock (fun _ => id) (.of_eq rfl rfl rfl rfl rfl)
  | yield v st k k' hme hk hst =>
      subst hk
      exact guarded_plain h hpc rfl (fun _ => id) (.of_eq rfl rfl rfl rfl rfl)
  | crash k hk hw =>
      subst hk
      exact guarded_plain h hpc rfl (fun _ => id) (.of_eq rfl rfl rfl rfl rfl)

end Guarded

/-! ## §4. Lists that were cut off, joiners on their way, finished targets. -/

section Rest

variable {s s' : JoinState A V} {a : A} {me : Option V} {p : JoinPc V}

theorem cuts_code (h : Lists s) (hpc : s.pc a = .exec me p) (hs : CodeEffect s a me p s') (b : A) :
    CutOff s'.next (s'.pc b) (s'.linked (.cut b)) := by
  have ha := h.cuts a
  rw [hpc] at ha
  -- the agent itself, if its list and its list's links stay the same
  have hstay : ∀ q : Pc V (JoinPc V) (JoinCont V) V,
      (cutHead q = p.cutHead ∧ ((p.cutHead = none → (s.linked (.cut a)).length = 0) →
        p.Covers (s.linked (.cut a)).length → Covers (s.linked (.cut a)).length q)) →
      CutOff s.next (update s.pc a q b) (s.linked (.cut b)) := by
    rintro q ⟨hq, hcov⟩
    by_cases hb : b = a
    · subst hb
      rw [Function.update_self]
      refine ⟨hq ▸ ha.1, hcov (fun hnone => ?_) ha.2⟩
      have hnil := ha.1
      rw [show cutHead (.exec me p) = none from hnone, Chain.nil_iff] at hnil
      rw [hnil]
      rfl
    · rw [Function.update_of_ne hb]
      exact h.cuts b
  have hplain : ∀ q : Pc V (JoinPc V) (JoinCont V) V, p.cutHead = none → cutHead q = none →
      (∀ len, Covers len q) → CutOff s.next (update s.pc a q b) (s.linked (.cut b)) :=
    fun q hp hq hcov => hstay q ⟨hq.trans hp.symm, fun _ _ => hcov _⟩
  cases hs with
  | quiet rv rr cl ft sl p' hq => exact hstay _ ⟨hq.cutHead, hq.covers _⟩
  | acquire t p' hp hc =>
      refine hplain _ ?_ ?_ fun len => ?_ <;> cases hp <;> first | rfl | trivial
  | unlock t p' hp =>
      cases hp with
      | join me => exact hplain _ rfl rfl fun _ => trivial
      | raw me => exact hplain _ rfl rfl fun _ => trivial
      | wake n hd => exact hstay _ ⟨rfl, fun _ => id⟩
  | exit v hme hp =>
      subst hp
      exact hplain _ rfl rfl fun _ => trivial
  | ret v val hme hp =>
      subst hp
      exact hplain _ rfl rfl fun _ => trivial
  | count t n p' hp hp' =>
      subst hp
      rcases hp' with rfl | rfl <;> exact hplain _ rfl rfl fun _ => trivial
  | block v t hme hp =>
      subst hp
      exact hplain _ rfl rfl fun _ => trivial
  | push v t prev hme hp =>
      subst hp
      exact hplain _ rfl rfl fun _ => trivial
  | link v t prev hme hp =>
      subst hp hme
      have hold := hplain (.switch v (.mutex t) .user) rfl rfl fun _ => trivial
      show CutOff (update s.next v prev) (update s.pc a (.switch v (.mutex t) .user) b)
        (update s.linked (.queue t) (v :: s.linked (.queue t)) (.cut b))
      have hne : JoinList.cut b ≠ .queue t := by simp
      rw [Function.update_of_ne hne]
      exact ⟨hold.1.update_of_not_mem (h.not_linked_of_exec hpc (.cut b)) _, hold.2⟩
  | mark v hme hp =>
      subst hp
      exact hplain _ rfl rfl fun _ => trivial
  | zero v n hme hp =>
      subst hp
      exact hplain _ rfl rfl fun _ => trivial
  | cut v n hd hme hp =>
      subst hp hme
      by_cases hb : b = a
      · -- the list behind the target's queue is now the agent's own
        subst hb
        have hg : Guard s (some v) v (.wakeNull n hd) := by
          have hin := h.guarded.inside v b (hpc ▸ rfl)
          rw [hpc] at hin
          exact hin
        show CutOff s.next (update s.pc b (.exec (some v) (.wakeUnlock n hd)) b)
          (update (update s.linked (.queue v) []) (.cut b) (s.linked (.queue v)) (.cut b))
        rw [Function.update_self, Function.update_self]
        exact hg.1
      · show CutOff s.next (update s.pc a (.exec (some v) (.wakeUnlock n hd)) b)
          (update (update s.linked (.queue v) []) (.cut a) (s.linked (.queue v)) (.cut b))
        rw [Function.update_of_ne hb, Function.update_of_ne fun he => hb (JoinList.cut.inj he),
          Function.update_of_ne (by simp)]
        exact h.cuts b
  | take v n w hme hp =>
      subst hp
      by_cases hb : b = a
      · subst hb
        obtain ⟨hchain, hcov⟩ := ha
        obtain ⟨l, hl, htail⟩ := hchain.uncons
        have hcov' : ((s.linked (.cut b)).length : ℤ) ≤ n := hcov
        rw [hl, List.length_cons] at hcov'
        push_cast at hcov'
        show CutOff s.next (update s.pc b (.exec me (.wakeClear n w (s.next w))) b)
          (update s.linked (.cut b) ((s.linked (.cut b)).erase w) (.cut b))
        rw [Function.update_self, Function.update_self, hl, List.erase_cons_head]
        exact ⟨htail, hcov'⟩
      · show CutOff s.next (update s.pc a (.exec me (.wakeClear n w (s.next w))) b)
          (update s.linked (.cut a) ((s.linked (.cut a)).erase w) (.cut b))
        rw [Function.update_of_ne hb, Function.update_of_ne fun he => hb (JoinList.cut.inj he)]
        exact h.cuts b
  | clear v n w hd hme hp =>
      subst hp
      have hold := hstay (.exec me (.wakeSet n w hd)) ⟨rfl, fun _ => id⟩
      exact ⟨hold.1.update_of_not_mem (h.not_linked_of_hand hpc rfl (.cut b)) _, hold.2⟩
  | suspend v n w hd hme hp =>
      subst hp
      exact hstay _ ⟨rfl, fun _ => id⟩
  | wake v n w hd hme hp =>
      subst hp
      refine hstay _ ⟨rfl, fun _ hcov => ?_⟩
      have hcov' : ((s.linked (.cut a)).length : ℤ) + 1 ≤ n := hcov
      show ((s.linked (.cut a)).length : ℤ) ≤ n - 1
      omega
  | finish v hme hp =>
      rcases hp with rfl | ⟨hd, rfl⟩
      · exact hplain _ rfl rfl fun _ => trivial
      · -- nobody was to be woken: the list is empty
        have hcov : ((s.linked (.cut a)).length : ℤ) ≤ 0 := ha.2
        have hnil : s.linked (.cut a) = [] := List.eq_nil_of_length_eq_zero (by omega)
        have hhead : hd = none := by
          have hc := ha.1
          rw [hnil] at hc
          exact hc
        subst hhead
        exact hplain _ rfl rfl fun _ => trivial
  | yield v st k k' hme hk hst =>
      subst hk
      exact hplain _ rfl rfl fun _ => trivial
  | crash k hk hw =>
      subst hk
      exact hplain _ rfl rfl fun _ => trivial

theorem passing_code (h : Lists s) (hpc : s.pc a = .exec me p) (hs : CodeEffect s a me p s')
    (b : A) (v t : V) (hb : Passing (s'.pc b) v t) : v ∈ s'.linked (.queue t) := by
  have hstay : ∀ q : Pc V (JoinPc V) (JoinCont V) V, ¬Passing q v t →
      Passing (update s.pc a q b) v t → b ≠ a ∧ v ∈ s.linked (.queue t) := by
    intro q hq hqb
    by_cases hba : b = a
    · subst hba
      rw [Function.update_self] at hqb
      exact absurd hqb hq
    · rw [Function.update_of_ne hba] at hqb
      exact ⟨hba, h.passing b v t hqb⟩
  cases hs with
  | link w t' prev hme hp =>
      by_cases ht : t = t'
      · subst ht
        show v ∈ update s.linked (.queue t) (w :: s.linked (.queue t)) (.queue t)
        rw [Function.update_self]
        by_cases hba : b = a
        · subst hba
          have hq : Passing (update s.pc b (.switch w (.mutex t) .user) b) v t := hb
          rw [Function.update_self] at hq
          exact hq.1 ▸ List.mem_cons_self
        · have hq : Passing (update s.pc a (.switch w (.mutex t) .user) b) v t := hb
          rw [Function.update_of_ne hba] at hq
          exact List.mem_cons_of_mem _ (h.passing b v t hq)
      · show v ∈ update s.linked (.queue t') (w :: s.linked (.queue t')) (.queue t)
        rw [Function.update_of_ne fun he => ht (JoinList.queue.inj he)]
        exact (hstay (.switch w (.mutex t') .user) (fun hq => ht hq.2.symm) hb).2
  | cut w n hd hme hp =>
      -- the agent has the mutex, so nobody is on the way into this list
      subst hp
      obtain ⟨hba, hmem⟩ := hstay (.exec me (.wakeUnlock n hd)) id hb
      have hne : t ≠ w := by
        rintro rfl
        have hq : Passing (update s.pc a (.exec me (.wakeUnlock n hd)) b) v t := hb
        rw [Function.update_of_ne hba] at hq
        exact hba (h.guarded.unique t b a (Locked.of_passing hq) (hpc ▸ hme))
      show v ∈ update (update s.linked (.queue w) []) (.cut a) (s.linked (.queue w)) (.queue t)
      rw [Function.update_of_ne (by simp),
        Function.update_of_ne fun he => hne (JoinList.queue.inj he)]
      exact hmem
  | take w n x hme hp =>
      show v ∈ update s.linked (.cut a) ((s.linked (.cut a)).erase x) (.queue t)
      rw [Function.update_of_ne (by simp)]
      exact (hstay (.exec me (.wakeClear n x (s.next x))) id hb).2
  | _ => exact (hstay _ id hb).2

theorem marked_code (h : Lists s) (hpc : s.pc a = .exec me p) (hs : CodeEffect s a me p s')
    (b : A) (v : V) (q : JoinPc V) (hb : s'.pc b = .exec (some v) q) (hq : q.past = true) :
    s'.curStatus v = .finished := by
  -- an agent that was past the store before, if `v`'s status stays
  have hold : ∀ p' : JoinPc V, (p'.past = true → p.past = true) →
      update s.pc a (.exec me p') b = .exec (some v) q → s.curStatus v = .finished := by
    intro p' hp' hb'
    by_cases hba : b = a
    · subst hba
      rw [Function.update_self] at hb'
      obtain ⟨rfl, rfl⟩ := Pc.exec.inj hb'
      exact h.marked b v p hpc (hp' hq)
    · rw [Function.update_of_ne hba] at hb'
      exact h.marked b v q hb' hq
  have hother : ∀ r : Pc V (JoinPc V) (JoinCont V) V, (∀ me p, r ≠ .exec me p) →
      update s.pc a r b = .exec (some v) q → s.curStatus v = .finished := by
    intro r hr hb'
    by_cases hba : b = a
    · subst hba
      rw [Function.update_self] at hb'
      exact absurd hb' (hr _ _)
    · rw [Function.update_of_ne hba] at hb'
      exact h.marked b v q hb' hq
  cases hs with
  | quiet rv rr cl ft sl p' hqt => exact hold p' (fun hp => hqt.past ▸ hp) hb
  | acquire t p' hp hc => exact hold p' (fun hp' => by cases hp <;> cases hp') hb
  | unlock t p' hp =>
      refine hold p' (fun hp' => ?_) hb
      cases hp with
      | wake n hd => rfl
      | _ => cases hp'
  | count t n p' hp hp' =>
      refine hold p' (fun hpast => ?_) hb
      rcases hp' with rfl | rfl <;> cases hpast
  | block w t hme hp =>
      -- nobody else runs `w`
      subst hp hme
      have hb' : update s.pc a (.exec (some w) (.joinHead t)) b = .exec (some v) q := hb
      have hne : v ≠ w := by
        rintro rfl
        by_cases hba : b = a
        · subst hba
          rw [Function.update_self] at hb'
          obtain ⟨-, rfl⟩ := Pc.exec.inj hb'
          cases hq
        · rw [Function.update_of_ne hba] at hb'
          exact hba (h.inPlace.holder_unique (v := v) trivial (hb' ▸ .inl rfl) (hpc ▸ .inl rfl))
      show update s.curStatus w .blocked v = .finished
      rw [Function.update_of_ne hne]
      exact hold _ (fun hp => by cases hp) hb
  | push w t prev hme hp => exact hold _ (fun hp => by cases hp) hb
  | mark w hme hp =>
      subst hp hme
      show update s.curStatus w .finished v = .finished
      by_cases hvw : v = w
      · rw [hvw, Function.update_self]
      · rw [Function.update_of_ne hvw]
        have hb' : update s.pc a (.exec (some w) .wakeNum) b = .exec (some v) q := hb
        by_cases hba : b = a
        · subst hba
          rw [Function.update_self] at hb'
          obtain ⟨hwv, -⟩ := Pc.exec.inj hb'
          exact absurd (Option.some.inj hwv).symm hvw
        · rw [Function.update_of_ne hba] at hb'
          exact h.marked b v q hb' hq
  | suspend w n x hd hme hp =>
      -- nor does anybody run the joiner in hand
      subst hp
      have hb' : update s.pc a (.exec me (.wakeEnq n x hd)) b = .exec (some v) q := hb
      have hne : v ≠ x := by
        rintro rfl
        by_cases hba : b = a
        · subst hba
          rw [Function.update_self] at hb'
          obtain ⟨hmev, -⟩ := Pc.exec.inj hb'
          exact h.distinct b me _ v trivial hpc rfl hmev
        · rw [Function.update_of_ne hba] at hb'
          exact hba (h.inPlace.holder_unique (v := v) trivial (hb' ▸ .inl rfl) (hpc ▸ .inr rfl))
      show update s.curStatus x .suspended v = .finished
      rw [Function.update_of_ne hne]
      exact hold _ (fun _ => rfl) hb
  | zero w n hme hp | cut w n hd hme hp | take w n x hme hp | clear w n x hd hme hp
  | wake w n x hd hme hp =>
      subst hp
      exact hold _ (fun _ => rfl) hb
  | exit | ret | link | finish | yield | crash => exact hother _ (fun _ _ hr => by cases hr) hb

theorem settled_code (h : Lists s) (hpc : s.pc a = .exec me p) (hs : CodeEffect s a me p s')
    (v : V) (hv : s'.done v = true) : s'.curStatus v = .finished := by
  have hgone : ∀ w, s.done w = true → ¬(s.pc a).Holds joinShape w := fun w hw =>
    h.inPlace.not_holds_of_gone trivial hw
  cases hs with
  | block w t hme hp =>
      have hne : v ≠ w := fun he => hgone v hv (hpc ▸ .inl (he ▸ hme))
      show update s.curStatus w .blocked v = .finished
      rw [Function.update_of_ne hne]
      exact h.settled v hv
  | mark w hme hp =>
      show update s.curStatus w .finished v = .finished
      by_cases hvw : v = w
      · rw [hvw, Function.update_self]
      · rw [Function.update_of_ne hvw]
        exact h.settled v hv
  | suspend w n x hd hme hp =>
      subst hp
      have hne : v ≠ x := fun he => hgone v hv (hpc ▸ .inr (he ▸ rfl))
      show update s.curStatus x .suspended v = .finished
      rw [Function.update_of_ne hne]
      exact h.settled v hv
  | finish w hme hp =>
      by_cases hvw : v = w
      · subst hvw hme
        rcases hp with rfl | ⟨hd, rfl⟩
        · exact h.marked a v _ hpc rfl
        · exact h.marked a v _ hpc rfl
      · have hd : update s.done w true v = true := hv
        rw [Function.update_of_ne hvw] at hd
        exact h.settled v hd
  | _ => exact h.settled v hv

end Rest

/-! ## §5. The steps of workers, and whole runs. -/

section Worker

variable {s : JoinState A V} {a : A} {q q' : Pc V (JoinPc V) (JoinCont V) V}

omit [DecidableEq A] [DecidableEq V] in
/-- A worker's move neither takes nor gives a mutex back, and cuts off nothing. -/
theorem move_facts (h : WorkerMove JoinPc.cont finishVthread q q') :
    (∀ t, Locked q' t ↔ Locked q t) ∧ (∀ v t, Passing q' v t ↔ Passing q v t)
      ∧ (∀ me p, q ≠ .exec me p) ∧ ∀ me p, q' = .exec me p → ∃ k, p = .cont k := by
  cases h with
  | switchOut v r k =>
      refine ⟨fun t => ?_, fun w t => ?_, by simp, by simp⟩
      · cases r <;> exact Iff.rfl
      · cases r <;> exact Iff.rfl
  | resume v k =>
      refine ⟨fun t => iff_of_false (fun h => by cases h) id, fun _ _ => Iff.rfl, by simp, ?_⟩
      rintro me p hp
      exact ⟨k, (Pc.exec.inj hp).2.symm⟩
  | settle v => exact ⟨fun _ => Iff.rfl, fun _ _ => Iff.rfl, by simp, by simp⟩
  | own v => exact ⟨fun _ => Iff.rfl, fun _ _ => Iff.rfl, by simp, by simp⟩
  | finish v =>
      refine ⟨fun t => iff_of_false (fun h => by cases h) id, fun _ _ => Iff.rfl, by simp, ?_⟩
      rintro me p hp
      exact ⟨.wakeLock, (Pc.exec.inj hp).2.symm⟩
  | plain hexec hswitch hret hfin hp' =>
      have hq : ∀ t, ¬Locked q t :=
        not_locked_iff (fun me p he => absurd he (hexec me p)) (fun v t k => hswitch v _ k) hret
      rcases hp' with rfl | ⟨w, rfl⟩ | ⟨w, rfl⟩
      all_goals
        exact ⟨fun t => iff_of_false id (hq t),
          fun v t => iff_of_false id fun hp => hq t (Locked.of_passing hp), hexec, by simp⟩

/-- The part of the invariant that a step of a worker's own cannot disturb. -/
theorem lists_worker {s' : JoinState A V} (h : Lists s) (hin : InPlace s')
    (hdist : Distinct (fun _ => True) joinShape s'.pc)
    (hguard : Guarded Locked (Free s') (Guards s') s'.pc s'.c) (hpc : s'.pc = update s.pc a q)
    (hold : ∀ me p, s.pc a ≠ .exec me p) (hpass : ∀ v t, Passing q v t → Passing (s.pc a) v t)
    (hq : ∀ me p, q = .exec me p → ∃ k, p = .cont k) (hl : s'.linked = s.linked)
    (hn : s'.next = s.next) (hst : s'.curStatus = s.curStatus) (hd : s'.done = s.done) :
    Lists s' := by
  refine ⟨hin, hdist, hguard, fun b => ?_, fun b v t hb => ?_, fun b v p hb hp => ?_, fun v hv => ?_⟩
  · rw [hpc, hn, hl]
    by_cases hba : b = a
    · subst hba
      rw [Function.update_self]
      have hnil : s.linked (.cut b) = [] := by
        refine h.cut_nil ?_
        cases hb : s.pc b with
        | exec me p => exact absurd hb (hold me p)
        | _ => rfl
      rw [hnil]
      cases hqe : q with
      | exec me p =>
          obtain ⟨k, rfl⟩ := hq me p hqe
          exact ⟨Chain.nil, trivial⟩
      | _ => exact ⟨Chain.nil, trivial⟩
    · rw [Function.update_of_ne hba]
      exact h.cuts b
  · rw [hpc] at hb
    rw [hl]
    by_cases hba : b = a
    · subst hba
      rw [Function.update_self] at hb
      exact h.passing b v t (hpass v t hb)
    · rw [Function.update_of_ne hba] at hb
      exact h.passing b v t hb
  · rw [hpc] at hb
    rw [hst]
    by_cases hba : b = a
    · subst hba
      rw [Function.update_self] at hb
      obtain ⟨k, rfl⟩ := hq _ p hb
      cases hp
    · rw [Function.update_of_ne hba] at hb
      exact h.marked b v p hb hp
  · rw [hd] at hv
    rw [hst]
    exact h.settled v hv

end Worker

theorem lists_step {s s' : JoinState A V} {act : JoinAct A V} (h : Lists s)
    (hok : SkipsOwnEnqueue s act) (hs : joinStep s act = some s') : Lists s' := by
  cases joinStep_effect hs with
  | code me p _ hpc hcode =>
      exact ⟨inPlace_code h hpc hcode, distinct_code h hpc hcode, guarded_code h hpc hcode,
        cuts_code h hpc hcode, passing_code h hpc hcode, marked_code h hpc hcode,
        settled_code h hpc hcode⟩
  | dequeue v hpc hv =>
      have hget : getAndWork s.toSched act.agent v = some { s.toSched with
          vsQueue := s.vsQueue.erase v
          pc := update s.pc act.agent (.got v) } := by
        simp [getAndWork, hpc, hv, Sched.goto]
      have hno : ∀ t, ¬Locked (s.pc act.agent) t := fun t => hpc ▸ id
      have hg := h.guarded.move (p := .got v) (fun t => iff_of_false id (hno t))
        (fun t hl => absurd hl (hno t)) (fun _ _ _ hg => hg) fun _ _ hf => hf
      exact lists_worker h (getAndWork_custody h.inPlace hget) (getAndWork_distinct h.distinct hget)
        (hg.mono (fun t => (Same.of_eq rfl rfl rfl rfl rfl t).free)
          fun t q => (Same.of_eq rfl rfl rfl rfl rfl t).guards)
        rfl (by simp [hpc]) (fun _ _ hf => hf.elim) (by simp) rfl rfl rfl rfl
  | release v t hpc =>
      have hl : Locked (s.pc act.agent) t := by
        rw [hpc]
        rfl
      have hg := h.guarded.release (p := .setRunnable v) hl (fun x hx => ?_) (fun _ => id)
        (fun hg => ?_)
      · exact lists_worker h (custody_goto h.inPlace fun _ _ hw => hw.elim)
          (h.distinct.leave fun _ _ hx => by cases hx)
          (hg.mono (fun t => (Same.of_eq rfl rfl rfl rfl rfl t).free)
            fun t q => (Same.of_eq rfl rfl rfl rfl rfl t).guards)
          rfl (by simp [hpc]) (fun _ _ hf => hf.elim) (by simp) rfl rfl rfl rfl
      · rw [hpc] at hx
        exact hx.symm
      · rw [hpc] at hg
        exact hg
  | move q run k n p' hgo hwork hmove =>
      have hwake : ∀ v, s.pc act.agent = .wakeSelf v → ¬True := by
        intro v hv
        rw [hgo] at hok
        exact absurd hv (hok v)
      obtain ⟨hlock, hpass, hexec, hcont⟩ := move_facts hmove
      have hg : Guarded Locked (Free s) (Guards s) (update s.pc act.agent p') s.c :=
        h.guarded.move hlock (fun t hl hg => ?_) (fun _ _ _ hg => hg) fun _ _ hf => hf
      · refine lists_worker h (worker_custody h.inPlace (fun v w hw => ?_) hwake hwork)
          (worker_distinct h.distinct (fun v me c hc => ?_) hwork)
          (hg.mono (fun t => (Same.of_eq rfl rfl rfl rfl rfl t).free)
            fun t q => (Same.of_eq rfl rfl rfl rfl rfl t).guards)
          rfl hexec (fun v t => (hpass v t).mp) hcont rfl rfl rfl rfl
        · rcases hw with hw | hw
          · exact (Option.some.inj hw).symm
          · cases hw
        · obtain ⟨-, rfl⟩ := Pc.exec.inj hc
          rfl
      · -- outside the code both points only know that the data is as it should be
        have hfree : Free s t := by
          cases hp : s.pc act.agent with
          | exec me p => exact absurd hp (hexec me p)
          | _ =>
              rw [hp] at hg
              exact hg
        cases p' with
        | exec me p =>
            obtain ⟨k, rfl⟩ := hcont me p rfl
            exact hfree
        | _ => exact hfree

theorem lists_keeps : (joining (A := A) (V := V)).Keeps SkipsOwnEnqueue Lists where
  start s hs := by
    obtain ⟨raw, ready, hnd, rfl⟩ := hs
    have hpc : ∀ a, (joinInit (V := V) raw ready).pc a = .top
        ∨ (joinInit (V := V) raw ready).pc a = .exec none (.cont .user) := by
      intro a
      cases hr : raw a with
      | true => exact .inr (by simp [joinInit, hr])
      | false => exact .inl (by simp [joinInit, hr])
    have hidle : ∀ a v, ¬((joinInit (V := V) raw ready).pc a).Holds joinShape v
        ∧ ¬Locked ((joinInit (V := V) raw ready).pc a) v := by
      intro a v
      rcases hpc a with h | h
      · rw [h]
        exact ⟨id, id⟩
      · rw [h]
        exact ⟨by simp [Pc.Holds, joinShape], fun hl => by cases hl⟩
    refine ⟨⟨fun _ => .bag none, ?_, ?_, ?_, ?_⟩, ?_, ⟨?_, ?_, ?_, ?_⟩, ?_, ?_, ?_, ?_⟩
    · intro v b _ hv
      cases b with
      | none => rfl
      | some b => cases hv
    · intro v b _
      cases b with
      | none => exact List.nodup_iff_count_le_one.mp hnd v
      | some b => exact Nat.zero_le 1
    · exact fun v a _ hh => absurd hh (hidle a v).1
    · exact fun v _ hd => by cases hd
    · intro a me p w _ hx hh
      rcases hpc a with h | h
      · rw [h] at hx
        cases hx
      · rw [h] at hx
        obtain ⟨-, rfl⟩ := Pc.exec.inj hx
        cases hh
    · exact fun t a _ ha => absurd ha (hidle a t).2
    · exact fun t a ha => absurd ha (hidle a t).2
    · exact fun t a ha => absurd ha (hidle a t).2
    · exact fun t _ => ⟨⟨Chain.nil, Int.le_refl 0⟩, fun _ => rfl⟩
    · intro a
      rcases hpc a with h | h
      · rw [h]
        exact ⟨Chain.nil, trivial⟩
      · rw [h]
        exact ⟨Chain.nil, trivial⟩
    · exact fun a v t hp => absurd (Locked.of_passing hp) (hidle a t).2
    · intro a v p hp
      rcases hpc a with h | h
      · rw [h] at hp
        cases hp
      · rw [h] at hp
        cases hp
    · exact fun v hd => by cases hd
  step _ _ _ h hok hs := lists_step h hok hs

end HThread.Join
