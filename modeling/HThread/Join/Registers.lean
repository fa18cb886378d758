/-
  HThread.Join.Registers — who is registered as a joiner.

  One target, and callers that join it once.  `join` registers a caller by
  counting it in `join_waiters_num`; a vthread also goes into `join_wait_queue`.
  `wake_up_joined` takes both at once, takes the vthreads out of its list one
  by one and posts for whoever is left.

  A vthread that was taken out may be enqueued a second time, at line 162 of
  worker_routine, and be run by two workers from then on.  So the invariant
  places only those that the loop has not come to yet.

  Key lemmas:
    * `Booked.stands_step`  — what a step leaves to the agents that do not make it.
    * `Booked.guarded_move` — the same for what the mutex protects.
    * `Booked.plain`, `goes` — the steps that concern no joiner.
-/
import HThread.Join.Calls

namespace HThread.Join

open Interleave
open Function (update)

/-! ## §1. The register. -/

/-- Callers that have asked to join; those registered and not yet taken by
    `wake_up_joined`, and those taken, the latest first; the vthreads that its
    loop has taken out of the list. -/
structure Counted (A V : Type) where
  st : JoinState A V
  asked : A ⊕ V → Bool
  waiting : List (A ⊕ V)
  taken : List (A ⊕ V)
  visited : List V

section Kinds

variable {A V : Type}

/-- The vthreads among the callers. -/
def vthreadsOf (l : List (A ⊕ V)) : List V := l.filterMap Sum.getRight?

/-- The raw threads among them. -/
def rawsOf (l : List (A ⊕ V)) : List A := l.filterMap Sum.getLeft?

@[simp] theorem mem_vthreadsOf {v : V} {l : List (A ⊕ V)} : v ∈ vthreadsOf l ↔ .inr v ∈ l := by
  simp [vthreadsOf]

/-- Everybody is a vthread or a raw thread. -/
theorem length_kinds (l : List (A ⊕ V)) :
    (l.length : ℤ) = (vthreadsOf l).length + (rawsOf l).length := by
  induction l with
  | nil => rfl
  | cons c l ih =>
      rw [List.length_cons]
      cases c with
      | inl a =>
          show ((l.length + 1 : ℕ) : ℤ) = (vthreadsOf l).length + ((rawsOf l).length + 1 : ℕ)
          omega
      | inr v =>
          show ((l.length + 1 : ℕ) : ℤ) = ((vthreadsOf l).length + 1 : ℕ) + (rawsOf l).length
          omega

theorem nodup_vthreadsOf {l : List (A ⊕ V)} (h : l.Nodup) : (vthreadsOf l).Nodup := by
  refine h.filterMap fun c d v hc hd => ?_
  rw [Option.mem_def, Sum.getRight?_eq_some_iff] at hc hd
  rw [hc, hd]

theorem nodup_rawsOf {l : List (A ⊕ V)} (h : l.Nodup) : (rawsOf l).Nodup := by
  refine h.filterMap fun c d a hc hd => ?_
  rw [Option.mem_def, Sum.getLeft?_eq_some_iff] at hc hd
  rw [hc, hd]

end Kinds

variable {A V : Type} [DecidableEq A] [DecidableEq V]

/-- Whoever has not asked before may join `t`; nobody joins others. -/
def mayJoin (t : V) (w : Counted A V) : JoinAct A V → Bool
  | .call a (.join u _) =>
      match w.st.pc a with
      | .exec me _ => decide (u = t) && !w.asked (caller a me)
      | _ => false
  | _ => true

/-- The register after the step of agent `a` at `p` in the code of `me`. -/
def Counted.code (t : V) (w : Counted A V) (a : A) (me : Option V) : JoinPc V → Counted A V
  | .joinInc u _ => if u = t then { w with waiting := caller a me :: w.waiting } else w
  | .wakeZero _ => if me = some t then { w with waiting := [], taken := w.waiting } else w
  | .wakeDeq _ (some u) => if me = some t then { w with visited := u :: w.visited } else w
  | _ => w

/-- The state and the register after an action. -/
def Counted.note (t : V) (w : Counted A V) (s : JoinState A V) : JoinAct A V → Counted A V
  | .call a (.join _ _) =>
      match w.st.pc a with
      | .exec me _ => { w with st := s, asked := update w.asked (caller a me) true }
      | _ => { w with st := s }
  | .go a =>
      match w.st.pc a with
      | .exec me p => { w.code t a me p with st := s }
      | _ => { w with st := s }
  | _ => { w with st := s }

/-- Any vthreads and raw threads, each of which may join `t` once. -/
def counting (t : V) : Machine (Counted A V) (JoinAct A V) where
  init w := joining.init w.st ∧ w.asked = (fun _ => false) ∧ w.waiting = [] ∧ w.taken = []
    ∧ w.visited = []
  step w act := if mayJoin t w act then (joinStep w.st act).map fun s => w.note t s act else none

theorem counted_st (t : V) (w : Counted A V) (s : JoinState A V) (act : JoinAct A V) :
    (w.note t s act).st = s := by
  unfold Counted.note
  split
  · split <;> rfl
  · split <;> rfl
  · rfl

theorem joinStep_of_counting {t : V} {w w' : Counted A V} {act : JoinAct A V}
    (hs : (counting t).step w act = some w') : joinStep w.st act = some w'.st := by
  simp only [counting, Option.ite_none_right_eq_some, Option.map_eq_some_iff] at hs
  obtain ⟨-, s, hs, rfl⟩ := hs
  rw [counted_st]
  exact hs

/-! ## §2. What an agent knows. -/

namespace JoinPc

/-- Between the count and the end of `enqueue`. -/
def registers : JoinPc V → Bool
  | joinStatus _ | joinHead _ | joinPush _ _ | joinLink _ _ => true
  | _ => false

/-- `wake_up_joined` has taken over the joiners. -/
def tookOver : JoinPc V → Bool
  | wakeHead _ | wakeNull _ _ | wakeUnlock _ _ | wakeCheck _ _ | wakeDeq _ _ | wakeClear _ _ _
  | wakeSet _ _ _ | wakeEnq _ _ _ | wakePost _ | wakeFutex _ => true
  | _ => false

end JoinPc

/-- The agent is registering `v`. -/
def Registering : Pc V (JoinPc V) (JoinCont V) V → V → Prop
  | .exec me p, v => me = some v ∧ p.registers = true
  | .switch u (.mutex _) _, v => u = v
  | _, _ => False

/-- The agent has taken over the joiners of `t`. -/
def TookOver : Pc V (JoinPc V) (JoinCont V) V → V → Prop
  | .exec me p, t => me = some t ∧ p.tookOver = true
  | _, _ => False

/-- The joiners of `t` have been taken over. -/
def Over (s : JoinState A V) (t : V) : Prop :=
  s.done t = true ∨ ∃ a, TookOver (s.pc a) t

namespace Counted

variable (t : V) (w : Counted A V)

/-- Everybody who was ever registered. -/
def registered : List (A ⊕ V) := w.waiting ++ w.taken

/-- The caller is about to register. -/
def Fresh (c : A ⊕ V) : Prop := w.asked c = true ∧ c ∉ w.registered

/-- `v` keeps STATUS_BLOCKED until it is taken out of the list. -/
def Blocked (v : V) : Prop := v ∉ w.visited → w.st.curStatus v = .blocked

/-- `v` went into the list and was left by its worker. -/
def Parked (v : V) : Prop := w.st.pushes v ≠ 0 ∧ w.Blocked v

/-- The loop of `wake_up_joined` is at `h`, with `n` to go. -/
def Rest (n : ℤ) (h : Option V) : Prop :=
  ∃ l, Chain w.st.next h l ∧ vthreadsOf w.taken = w.visited.reverse ++ l
    ∧ n = l.length + (rawsOf w.taken).length

/-- At `p` in the code of `me`. -/
def CodeOk (a : A) (me : Option V) : JoinPc V → Prop
  | .cont (.joinLock u _) | .joinRetval u _ | .joinTest u _ | .joinNum u | .joinInc u _ =>
      u = t ∧ w.Fresh (caller a me)
  | .joinHead u | .joinPush u _ | .joinLink u _ => u = t ∧ ∀ v, me = some v → w.Blocked v
  | .joinStatus u | .joinRelease u | .joinOut u _ | .joinStore u _ _ | .joinUnlock u => u = t
  | .wakeNum => me = some t → w.st.curStatus t = .finished
  | .wakeWaiters | .wakeZero _ => me = some t ∧ w.st.curStatus t = .finished
  | .wakeHead n =>
      me = some t ∧ n = w.taken.length ∧ w.visited = []
        ∧ Chain w.st.next (w.st.joinWaitQueue t) (vthreadsOf w.taken)
  | .wakeNull n h =>
      me = some t ∧ n = w.taken.length ∧ w.visited = [] ∧ Chain w.st.next h (vthreadsOf w.taken)
  | .wakeUnlock n h | .wakeCheck n h => (me = some t → w.Rest n h) ∧ (me ≠ some t → n = 0)
  | .wakeDeq n h => me = some t ∧ w.Rest n h
  | .wakeClear n u h | .wakeSet n u h | .wakeEnq n u h =>
      me = some t ∧ u ∈ w.visited ∧ w.Rest (n - 1) h
  | .wakePost n | .wakeFutex n =>
      me = some t ∧ vthreadsOf w.taken = w.visited.reverse ∧ 0 ≤ n ∧ n ≤ (rawsOf w.taken).length
  | _ => True

/-- At any point of agent `a`. -/
def PcOk (a : A) : Pc V (JoinPc V) (JoinCont V) V → Prop
  | .exec me p => w.CodeOk t a me p
  | .switch v (.mutex m) k => m = t ∧ k = .user ∧ w.Parked v
  | .switch v (.status st) k =>
      ∀ u r, k = .joinLock u r → u = t ∧ st = .lockFail ∧ w.Fresh (.inr v)
  | .ret v (.mutex m) => m = t ∧ w.Parked v
  | .setRunnable v | .readStatus v => w.Parked v
  | .wakeSelf v => v ∈ w.visited
  | _ => True

/-- The list behind `join_wait_queue` has the vthreads that wait. -/
def Queued : Prop := Chain w.st.next (w.st.joinWaitQueue t) (vthreadsOf w.waiting)

/-- The vthread `me` is counted already; the list from `h` has the others. -/
def Behind (me h : Option V) : Prop :=
  ∃ v l, me = some v ∧ vthreadsOf w.waiting = v :: l ∧ Chain w.st.next h l

/-- What the mutex gives whoever has it, at `p` in the code of `me`. -/
def HeldCode (me : Option V) : JoinPc V → Prop
  | .joinNum _ => w.Queued t ∧ w.st.curStatus t ≠ .finished
  | .joinInc _ n => w.Queued t ∧ w.st.curStatus t ≠ .finished ∧ n = w.st.joinWaitersNum t
  | .joinStatus _ | .joinHead _ => w.Behind me (w.st.joinWaitQueue t)
  | .joinPush _ prev => w.Behind me prev
  | .joinLink _ prev => w.Behind me prev ∧ w.st.joinWaitQueue t = me
  | .wakeZero n => w.Queued t ∧ n = w.st.joinWaitersNum t
  | .wakeHead _ | .wakeNull _ _ => True
  | _ => w.Queued t

/-- The same at any point. -/
def Held : Pc V (JoinPc V) (JoinCont V) V → Prop
  | .exec me p => w.HeldCode t me p
  | .switch v (.mutex _) _ => w.Queued t ∧ .inr v ∈ w.waiting
  | _ => w.Queued t

/-- What all these runs keep. -/
structure Booked : Prop where
  custody : Custody (fun v => v ∉ w.visited) (Pc.Holds joinShape) w.st.pc
    (bags w.st.vsQueue fun _ : Empty => []) fun v => w.st.done v = true ∨ w.st.pushes v ≠ 0
  guarded : Guarded Locked (fun l => l = t → w.Queued t) (fun q l => l = t → w.Held t q) w.st.pc
    w.st.c
  stands : ∀ a, w.PcOk t a (w.st.pc a)
  num : w.st.joinWaitersNum t = w.waiting.length
  others : ∀ v, v ≠ t → w.st.joinWaitersNum v = 0
  once : w.registered.Nodup
  asked : ∀ c, c ∈ w.registered → w.asked c = true
  parked : ∀ v, .inr v ∈ w.registered → w.st.pushes v ≠ 0 ∨ ∃ a, Registering (w.st.pc a) v
  ctx : ∀ v u r, w.st.ctx v = .joinLock u r →
    u = t ∧ w.asked (.inr v) = true ∧ (.inr v ∈ w.registered → ∃ a, Registering (w.st.pc a) v)
  order : ∃ l, vthreadsOf w.taken = w.visited.reverse ++ l
  self : .inr t ∉ w.taken
  before : ¬Over w.st t → w.taken = [] ∧ w.visited = []
  after : Over w.st t → w.st.curStatus t = .finished ∧ w.waiting = []
  ended : w.st.done t = true → vthreadsOf w.taken = w.visited.reverse

/-! ## §3. What a step leaves to the others. -/

/-- What the step of agent `a` from `w` to `w'` leaves as it was. -/
structure Leaves (w' : Counted A V) (a : A) : Prop where
  asked : ∀ c, w.asked c = true → w'.asked c = true
  registered : ∀ c, c ∈ w'.registered →
    c ∈ w.registered ∨ ∃ me p, w.st.pc a = .exec me p ∧ c = caller a me
  visited : ∀ v, v ∈ w.visited → v ∈ w'.visited
  pushes : ∀ v, w.st.pushes v ≠ 0 → w'.st.pushes v ≠ 0
  status : ∀ v, v ∉ w'.visited →
    w'.st.curStatus v = w.st.curStatus v ∨ ∃ p, w.st.pc a = .exec (some v) p
  late : (∀ p, w.st.pc a ≠ .exec (some t) p) →
    w'.taken = w.taken ∧ w'.visited = w.visited
      ∧ ∀ v, .inr v ∈ w.taken → w'.st.next v = w.st.next v
  data : ¬Locked (w.st.pc a) t →
    w'.waiting = w.waiting ∧ w'.st.joinWaitQueue t = w.st.joinWaitQueue t
      ∧ w'.st.joinWaitersNum t = w.st.joinWaitersNum t
      ∧ (w'.st.curStatus t = .finished → w.st.curStatus t = .finished)
      ∧ ∀ v, .inr v ∈ w.waiting → w'.st.next v = w.st.next v

namespace Leaves

variable {t : V} {w w' : Counted A V} {a : A} {me : Option V} {v : V}

omit [DecidableEq A] [DecidableEq V]

theorem fresh (hl : w.Leaves t w' a) {c : A ⊕ V} (hc : w.Fresh c)
    (hne : ∀ me p, w.st.pc a = .exec me p → c ≠ caller a me) : w'.Fresh c := by
  refine ⟨hl.asked c hc.1, fun hreg => ?_⟩
  rcases hl.registered c hreg with hold | ⟨me, p, hpc, he⟩
  · exact hc.2 hold
  · exact hne me p hpc he

theorem blocked (hl : w.Leaves t w' a) (hv : w.Blocked v)
    (hne : v ∉ w.visited → ∀ p, w.st.pc a ≠ .exec (some v) p) : w'.Blocked v := by
  intro hvis
  have hold : v ∉ w.visited := fun hmem => hvis (hl.visited v hmem)
  rcases hl.status v hvis with hst | ⟨p, hpc⟩
  · rw [hst]
    exact hv hold
  · exact absurd hpc (hne hold p)

theorem rest (hl : w.Leaves t w' a) (hne : ∀ p, w.st.pc a ≠ .exec (some t) p) {n : ℤ}
    {hd : Option V} (hr : w.Rest n hd) : w'.Rest n hd := by
  obtain ⟨htaken, hvis, hnext⟩ := hl.late hne
  obtain ⟨l, hc, ho, hn⟩ := hr
  refine ⟨l, hc.congr fun v hv => hnext v ?_, by rw [htaken, hvis, ho], by rw [htaken, hn]⟩
  rw [← mem_vthreadsOf, ho]
  exact List.mem_append_right _ hv

/-! ### What the mutex protects. -/

theorem queued (hl : w.Leaves t w' a) (hlock : ¬Locked (w.st.pc a) t) (hq : w.Queued t) :
    w'.Queued t := by
  obtain ⟨hwait, hqueue, -, -, hnext⟩ := hl.data hlock
  unfold Queued
  rw [hwait, hqueue]
  exact hq.congr fun v hv => hnext v (mem_vthreadsOf.mp hv)

theorem behind (hl : w.Leaves t w' a) (hlock : ¬Locked (w.st.pc a) t) {hd : Option V}
    (hb : w.Behind me hd) : w'.Behind me hd := by
  obtain ⟨hwait, -, -, -, hnext⟩ := hl.data hlock
  obtain ⟨v, l, hme, hvl, hc⟩ := hb
  refine ⟨v, l, hme, by rw [hwait, hvl], hc.congr fun u hu => hnext u ?_⟩
  rw [← mem_vthreadsOf, hvl]
  exact List.mem_cons_of_mem v hu

theorem held (hl : w.Leaves t w' a) (hlock : ¬Locked (w.st.pc a) t)
    {q : Pc V (JoinPc V) (JoinCont V) V} (hq : w.Held t q) : w'.Held t q := by
  have hqueued : w.Queued t → w'.Queued t := hl.queued hlock
  obtain ⟨-, hqueue, hnum, hstatus, -⟩ := hl.data hlock
  cases q with
  | exec me p =>
      cases p with
      | joinNum u => exact ⟨hqueued hq.1, fun hst => hq.2 (hstatus hst)⟩
      | joinInc u n => exact ⟨hqueued hq.1, fun hst => hq.2.1 (hstatus hst), hnum ▸ hq.2.2⟩
      | joinStatus u | joinHead u =>
          show w'.Behind me (w'.st.joinWaitQueue t)
          rw [hqueue]
          exact hl.behind hlock hq
      | joinPush u prev => exact hl.behind hlock hq
      | joinLink u prev => exact ⟨hl.behind hlock hq.1, hqueue ▸ hq.2⟩
      | wakeZero n => exact ⟨hqueued hq.1, hnum ▸ hq.2⟩
      | wakeHead n | wakeNull n hd => trivial
      | _ => exact hqueued hq
  | switch v r k =>
      cases r with
      | mutex m =>
          refine ⟨hqueued hq.1, ?_⟩
          rw [(hl.data hlock).1]
          exact hq.2
      | status st => exact hqueued hq
  | _ => exact hqueued hq

end Leaves

namespace Booked

variable {t : V} {w w' : Counted A V} {a b : A} {me : Option V} {p : JoinPc V} {v : V}

section Facts

omit [DecidableEq A]

/-- The loop comes to those that were taken. -/
theorem taken_of_visited (h : w.Booked t) (hv : v ∈ w.visited) : .inr v ∈ w.taken := by
  obtain ⟨l, hl⟩ := h.order
  rw [← mem_vthreadsOf, hl]
  exact List.mem_append_left l (List.mem_reverse.mpr hv)

theorem not_visited (h : w.Booked t) (hv : .inr v ∉ w.registered) : v ∉ w.visited := by
  intro hvis
  exact hv (List.mem_append_right w.waiting (h.taken_of_visited hvis))

theorem target_not_visited (h : w.Booked t) : t ∉ w.visited :=
  fun hvis => h.self (h.taken_of_visited hvis)

/-- Nobody is both waiting and taken. -/
theorem not_taken (h : w.Booked t) {c : A ⊕ V} (hc : c ∈ w.waiting) : c ∉ w.taken :=
  fun hc' => List.disjoint_of_nodup_append h.once hc hc'

theorem waiting_nodup (h : w.Booked t) : (vthreadsOf w.waiting).Nodup :=
  nodup_vthreadsOf (List.Nodup.of_append_left h.once)

theorem taken_nodup (h : w.Booked t) : (vthreadsOf w.taken).Nodup :=
  nodup_vthreadsOf (List.Nodup.of_append_right h.once)

/-- The loop does not come to anybody twice. -/
theorem not_left (h : w.Booked t) {l : List V} (horder : vthreadsOf w.taken = w.visited.reverse ++ l)
    (hv : v ∈ w.visited) : v ∉ l := by
  intro hl
  have hnd := h.taken_nodup
  rw [horder] at hnd
  exact List.disjoint_of_nodup_append hnd (List.mem_reverse.mpr hv) hl

/-- Two agents do not both run `v`, if the loop has not come to it. -/
theorem runner_eq (h : w.Booked t) (hv : v ∉ w.visited) {p' : JoinPc V}
    (ha : w.st.pc a = .exec (some v) p) (hb : w.st.pc b = .exec (some v) p') : a = b :=
  h.custody.holder_unique hv (ha ▸ .inl rfl) (hb ▸ .inl rfl)

/-- Nobody runs one that is in the list. -/
theorem not_run (h : w.Booked t) (hv : v ∉ w.visited) (hpush : w.st.pushes v ≠ 0) :
    w.st.pc a ≠ .exec (some v) p := fun ha =>
  h.custody.not_holds_of_gone (a := a) hv (.inr hpush) (ha ▸ .inl rfl)

theorem not_done (h : w.Booked t) (ha : w.st.pc a = .exec (some t) p) : w.st.done t ≠ true :=
  fun hd => h.custody.not_holds_of_gone (a := a) h.target_not_visited (.inl hd) (ha ▸ .inl rfl)

/-- Whoever runs the target elsewhere shows that nobody took over. -/
theorem not_over (h : w.Booked t) (ha : w.st.pc a = .exec (some t) p) (hp : p.tookOver = false) :
    ¬Over w.st t := by
  rintro (hd | ⟨b, hb⟩)
  · exact h.not_done ha hd
  · cases hb' : w.st.pc b with
    | exec me' p' =>
        rw [hb'] at hb
        obtain ⟨rfl, hp'⟩ := hb
        obtain rfl := h.runner_eq h.target_not_visited ha hb'
        rw [ha] at hb'
        obtain ⟨-, rfl⟩ := Pc.exec.inj hb'
        rw [hp] at hp'
        cases hp'
    | _ =>
        rw [hb'] at hb
        exact hb

theorem parked_step (h : w.Booked t) (hl : w.Leaves t w' a) (hv : w.Parked v) : w'.Parked v :=
  ⟨hl.pushes v hv.1, hl.blocked hv.2 fun hvis _ => h.not_run hvis hv.1⟩

theorem code_step (h : w.Booked t) (hl : w.Leaves t w' a) (hb : b ≠ a)
    (hpc : w.st.pc b = .exec me p) (hk : w.CodeOk t b me p) : w'.CodeOk t b me p := by
  -- the agent that moves does not run the vthread that this one runs
  have hother : ∀ v, me = some v → v ∉ w.visited → ∀ p', w.st.pc a ≠ .exec (some v) p' := by
    rintro v rfl hv p' ha
    exact hb (h.runner_eq hv hpc ha)
  have htarget : me = some t → ∀ p', w.st.pc a ≠ .exec (some t) p' :=
    fun hme => hother t hme h.target_not_visited
  have hfresh : w.Fresh (caller b me) → w'.Fresh (caller b me) := by
    refine fun hf => hl.fresh hf fun me' p' ha he => ?_
    cases me with
    | none =>
        cases me' with
        | none => exact hb (Sum.inl.inj he)
        | some u => cases he
    | some v =>
        cases me' with
        | none => cases he
        | some u =>
            obtain rfl := Sum.inr.inj he
            exact hother v rfl (h.not_visited hf.2) p' ha
  have hstatus : me = some t → w.st.curStatus t = .finished → w'.st.curStatus t = .finished := by
    intro hme hst
    have hvis : t ∉ w'.visited := by
      rw [(hl.late (htarget hme)).2.1]
      exact h.target_not_visited
    rcases hl.status t hvis with he | ⟨p', ha⟩
    · rw [he]
      exact hst
    · exact absurd ha (htarget hme p')
  cases p with
  | cont k =>
      cases k with
      | joinLock u r => exact ⟨hk.1, hfresh hk.2⟩
      | _ => trivial
  | joinRetval u _ | joinTest u _ | joinNum u | joinInc u _ => exact ⟨hk.1, hfresh hk.2⟩
  | joinHead u | joinPush u _ | joinLink u _ =>
      exact ⟨hk.1, fun v hv => hl.blocked (hk.2 v hv) (hother v hv)⟩
  | joinStatus u | joinRelease u | joinOut u _ | joinStore u _ _ | joinUnlock u => exact hk
  | wakeNum => exact fun hme => hstatus hme (hk hme)
  | wakeWaiters | wakeZero _ => exact ⟨hk.1, hstatus hk.1 hk.2⟩
  | wakeHead n =>
      obtain ⟨hme, hn, hvis, hc⟩ := hk
      obtain ⟨htaken, hvis', hnext⟩ := hl.late (htarget hme)
      -- this agent has the mutex
      have hlock : ¬Locked (w.st.pc a) t := by
        intro ha
        refine hb (h.guarded.unique t b a ?_ ha)
        rw [hpc]
        exact hme
      refine ⟨hme, by rw [htaken, hn], by rw [hvis', hvis], ?_⟩
      rw [htaken, (hl.data hlock).2.1]
      exact hc.congr fun v hv => hnext v (mem_vthreadsOf.mp hv)
  | wakeNull n hd =>
      obtain ⟨hme, hn, hvis, hc⟩ := hk
      obtain ⟨htaken, hvis', hnext⟩ := hl.late (htarget hme)
      refine ⟨hme, by rw [htaken, hn], by rw [hvis', hvis], ?_⟩
      rw [htaken]
      exact hc.congr fun v hv => hnext v (mem_vthreadsOf.mp hv)
  | wakeUnlock n hd | wakeCheck n hd =>
      exact ⟨fun hme => hl.rest (htarget hme) (hk.1 hme), hk.2⟩
  | wakeDeq n hd => exact ⟨hk.1, hl.rest (htarget hk.1) hk.2⟩
  | wakeClear n u hd | wakeSet n u hd | wakeEnq n u hd =>
      exact ⟨hk.1, hl.visited u hk.2.1, hl.rest (htarget hk.1) hk.2.2⟩
  | wakePost n | wakeFutex n =>
      obtain ⟨hme, hvis, hn⟩ := hk
      obtain ⟨htaken, hvis', -⟩ := hl.late (htarget hme)
      refine ⟨hme, ?_, ?_⟩
      · rw [htaken, hvis']
        exact hvis
      · rw [htaken]
        exact hn
  | _ => trivial

/-- **What a step leaves to the others.** -/
theorem stands_step (h : w.Booked t) (hl : w.Leaves t w' a) (hb : b ≠ a) :
    w'.PcOk t b (w.st.pc b) := by
  have hk := h.stands b
  cases hpc : w.st.pc b with
  | exec me p =>
      rw [hpc] at hk
      exact h.code_step hl hb hpc hk
  | switch v r k =>
      rw [hpc] at hk
      cases r with
      | mutex m => exact ⟨hk.1, hk.2.1, h.parked_step hl hk.2.2⟩
      | status st =>
          intro u r hjoin
          obtain ⟨hu, rfl, hf⟩ := hk u r hjoin
          refine ⟨hu, rfl, hl.fresh hf fun me p ha he => ?_⟩
          -- a vthread that yields is still in its worker's hands
          cases me with
          | none => cases he
          | some x =>
              obtain rfl := Sum.inr.inj he
              exact hb (h.custody.holder_unique (h.not_visited hf.2) (hpc ▸ ⟨rfl, rfl⟩)
                (ha ▸ .inl rfl))
  | ret v r =>
      rw [hpc] at hk
      cases r with
      | mutex m => exact ⟨hk.1, h.parked_step hl hk.2⟩
      | status st => trivial
  | setRunnable v | readStatus v =>
      rw [hpc] at hk
      exact h.parked_step hl hk
  | wakeSelf v =>
      rw [hpc] at hk
      exact hl.visited v hk
  | _ => trivial

end Facts

/-- All points, once the agent's own is known. -/
theorem stands_of (h : w.Booked t) (hl : w.Leaves t w' a) {q : Pc V (JoinPc V) (JoinCont V) V}
    (hpc : w'.st.pc = update w.st.pc a q) (hown : w'.PcOk t a q) (b : A) :
    w'.PcOk t b (w'.st.pc b) := by
  rw [hpc]
  by_cases hb : b = a
  · rw [hb, Function.update_self]
    exact hown
  · rw [Function.update_of_ne hb]
    exact h.stands_step hl hb

/-- **A step that neither takes nor gives back a mutex**: the agent that has the
    mutex of `t` says what it does to the list. -/
theorem guarded_move (h : w.Booked t) (hl : w.Leaves t w' a) {q : Pc V (JoinPc V) (JoinCont V) V}
    (hlocks : ∀ u, Locked q u ↔ Locked (w.st.pc a) u)
    (hown : Locked (w.st.pc a) t → w.Held t (w.st.pc a) → w'.Held t q) :
    Guarded Locked (fun l => l = t → w'.Queued t) (fun q l => l = t → w'.Held t q)
      (update w.st.pc a q) w.st.c := by
  refine h.guarded.move hlocks (fun l ha hheld hlt => ?_) (fun l q ha hheld hlt => ?_)
    fun l ha hfree hlt => ?_
  · subst hlt
    exact hown ha (hheld rfl)
  · subst hlt
    exact hl.held ha (hheld rfl)
  · subst hlt
    exact hl.queued ha (hfree rfl)

end Booked

end Counted

/-! ## §4. The steps that concern no joiner. -/

/-- Nothing changed that the register is about. -/
structure SameBooks (s s' : JoinState A V) : Prop where
  curStatus : s'.curStatus = s.curStatus
  joinWaitersNum : s'.joinWaitersNum = s.joinWaitersNum
  joinWaitQueue : s'.joinWaitQueue = s.joinWaitQueue
  next : s'.next = s.next
  done : s'.done = s.done
  pushes : s'.pushes = s.pushes

/-- Nothing changed that tells where the vthreads are and how many are counted. -/
structure SamePlaces (s s' : JoinState A V) : Prop where
  vsQueue : s'.vsQueue = s.vsQueue
  c : s'.c = s.c
  ctx : s'.ctx = s.ctx
  joinWaitersNum : s'.joinWaitersNum = s.joinWaitersNum
  done : s'.done = s.done
  pushes : s'.pushes = s.pushes

namespace SameBooks

variable {t : V} {w : Counted A V} {s : JoinState A V} {a : A} {q : Pc V (JoinPc V) (JoinCont V) V}

omit [DecidableEq A] [DecidableEq V]

theorem leaves (h : SameBooks w.st s) : w.Leaves t { w with st := s } a where
  asked _ := id
  registered _ hc := .inl hc
  visited _ := id
  pushes v := by
    rw [h.pushes]
    exact id
  status v _ := .inl (by rw [h.curStatus])
  late _ := ⟨rfl, rfl, fun v _ => by rw [h.next]⟩
  data _ := ⟨rfl, by rw [h.joinWaitQueue], by rw [h.joinWaitersNum], by
    rw [h.curStatus]
    exact id, fun v _ => by rw [h.next]⟩

theorem parked (h : SameBooks w.st s) {v : V} : { w with st := s }.Parked v ↔ w.Parked v := by
  unfold Counted.Parked Counted.Blocked
  rw [h.curStatus, h.pushes]

theorem pcOk (h : SameBooks w.st s) : { w with st := s }.PcOk t a q ↔ w.PcOk t a q := by
  cases q with
  | exec me p =>
      show { w with st := s }.CodeOk t a me p ↔ w.CodeOk t a me p
      unfold Counted.CodeOk Counted.Fresh Counted.Blocked Counted.Rest Counted.registered
      rw [h.curStatus, h.joinWaitQueue, h.next]
  | switch v r k =>
      cases r with
      | mutex m => exact and_congr_right fun _ => and_congr_right fun _ => h.parked
      | status st => exact Iff.rfl
  | ret v r =>
      cases r with
      | mutex m => exact and_congr_right fun _ => h.parked
      | status st => exact Iff.rfl
  | setRunnable v | readStatus v => exact h.parked
  | _ => exact Iff.rfl

theorem held (h : SameBooks w.st s) : { w with st := s }.Held t q ↔ w.Held t q := by
  unfold Counted.Held Counted.HeldCode Counted.Queued Counted.Behind
  rw [h.curStatus, h.joinWaitQueue, h.next, h.joinWaitersNum]

end SameBooks

namespace Counted.Booked

variable {t : V} {w : Counted A V} {s : JoinState A V} {a : A}
  {q : Pc V (JoinPc V) (JoinCont V) V} {me : Option V} {p p' : JoinPc V}

omit [DecidableEq V] in
/-- Another agent is registering `v` if one was, and the agent that moves was not. -/
theorem registering_update {v : V} (hreg : ∃ b, Registering (w.st.pc b) v)
    (hq : Registering (w.st.pc a) v → Registering q v) :
    ∃ b, Registering (update w.st.pc a q b) v := by
  obtain ⟨b, hb⟩ := hreg
  refine ⟨b, ?_⟩
  by_cases hba : b = a
  · subst hba
    rw [Function.update_self]
    exact hq hb
  · rw [Function.update_of_ne hba]
    exact hb

omit [DecidableEq V] in
theorem over_update {s s' : JoinState A V} (hpc : s'.pc = update s.pc a q) (hd : s'.done = s.done)
    (hq : TookOver q t ↔ TookOver (s.pc a) t) : Over s' t ↔ Over s t := by
  unfold Over
  rw [hd, hpc]
  refine or_congr_right (exists_congr fun b => ?_)
  by_cases hba : b = a
  · subst hba
    rw [Function.update_self]
    exact hq
  · rw [Function.update_of_ne hba]

omit [DecidableEq V] in
theorem over_exec {s s' : JoinState A V} (hpc : s.pc a = .exec me p)
    (hpc' : s'.pc = update s.pc a (.exec me p')) (hd : s'.done = s.done)
    (hover : me = some t → p'.tookOver = p.tookOver) : Over s' t ↔ Over s t := by
  refine over_update hpc' hd ?_
  rw [hpc]
  exact and_congr_right fun hme => by rw [hover hme]

/-- **A step that concerns no joiner.** -/
theorem plain (h : w.Booked t) (hs : SameBooks w.st s) (hpc : s.pc = update w.st.pc a q)
    (hcust : Custody (fun v => v ∉ w.visited) (Pc.Holds joinShape) s.pc
      (bags s.vsQueue fun _ : Empty => []) fun v => w.st.done v = true ∨ w.st.pushes v ≠ 0)
    (hguard : Guarded Locked (fun l => l = t → w.Queued t) (fun q l => l = t → w.Held t q) s.pc s.c)
    (hown : w.PcOk t a q) (hover : TookOver q t ↔ TookOver (w.st.pc a) t)
    (hreg : ∀ v, Registering (w.st.pc a) v →
      Registering q v ∨ w.st.pushes v ≠ 0 ∧ ∀ u r, s.ctx v ≠ .joinLock u r)
    (hctx : ∀ v u r, s.ctx v = .joinLock u r →
      w.st.ctx v = .joinLock u r ∨ u = t ∧ w.Fresh (.inr v)) :
    { w with st := s }.Booked t := by
  have hovers : Over s t ↔ Over w.st t := over_update hpc hs.done hover
  refine ⟨?_, ?_, h.stands_of hs.leaves hpc (hs.pcOk.mpr hown), ?_, fun v hv => ?_, h.once, h.asked,
    fun v hv => ?_, fun v u r hjoin => ?_, h.order, h.self, fun hno => ?_, fun hyes => ?_,
    fun hd => ?_⟩
  · show Custody _ _ _ _ fun v => s.done v = true ∨ s.pushes v ≠ 0
    rw [hs.done, hs.pushes]
    exact hcust
  · refine hguard.mono (fun l hfree hlt => ?_) fun l q' hheld hlt => hs.held.mpr (hheld hlt)
    have hq := hfree hlt
    unfold Queued at hq ⊢
    rw [hs.next, hs.joinWaitQueue]
    exact hq
  · show s.joinWaitersNum t = _
    rw [hs.joinWaitersNum]
    exact h.num
  · show s.joinWaitersNum v = 0
    rw [hs.joinWaitersNum]
    exact h.others v hv
  · show s.pushes v ≠ 0 ∨ ∃ b, Registering (s.pc b) v
    rw [hs.pushes, hpc]
    rcases h.parked v hv with hpush | hany
    · exact .inl hpush
    · by_cases hhere : Registering (w.st.pc a) v
      · rcases hreg v hhere with hq | ⟨hpush, -⟩
        · exact .inr (registering_update hany fun _ => hq)
        · exact .inl hpush
      · exact .inr (registering_update hany fun ha => absurd ha hhere)
  · show u = t ∧ w.asked (.inr v) = true ∧ (_ → ∃ b, Registering (s.pc b) v)
    rw [hpc]
    rcases hctx v u r hjoin with hold | ⟨hu, hfresh⟩
    · obtain ⟨hu, hasked, hany⟩ := h.ctx v u r hold
      refine ⟨hu, hasked, fun hv => registering_update (hany hv) fun ha => ?_⟩
      rcases hreg v ha with hq | ⟨-, hno⟩
      · exact hq
      · exact absurd hjoin (hno u r)
    · exact ⟨hu, hfresh.1, fun hv => absurd hv hfresh.2⟩
  · exact h.before fun hyes => hno (hovers.mpr hyes)
  · show s.curStatus t = _ ∧ _
    rw [hs.curStatus]
    exact h.after (hovers.mp hyes)
  · refine h.ended ?_
    rw [← hs.done]
    exact hd

/-- What is known of those that are registered, if the agent that moves goes on
    registering whom it was registering. -/
theorem books_update (h : w.Booked t)
    (hreg : ∀ v, Registering (w.st.pc a) v → Registering q v) :
    (∀ v, .inr v ∈ w.registered → w.st.pushes v ≠ 0 ∨ ∃ b, Registering (update w.st.pc a q b) v)
      ∧ ∀ v u r, w.st.ctx v = .joinLock u r → u = t ∧ w.asked (.inr v) = true
        ∧ (.inr v ∈ w.registered → ∃ b, Registering (update w.st.pc a q b) v) := by
  refine ⟨fun v hv => (h.parked v hv).imp id fun hany => registering_update hany (hreg v),
    fun v u r hjoin => ?_⟩
  obtain ⟨hu, hasked, hany⟩ := h.ctx v u r hjoin
  exact ⟨hu, hasked, fun hv => registering_update (hany hv) (hreg v)⟩

theorem books_exec (h : w.Booked t) (hpc : w.st.pc a = .exec me p) (p' : JoinPc V)
    (hreg : p.registers = true → p'.registers = true) :
    (∀ v, .inr v ∈ w.registered →
        w.st.pushes v ≠ 0 ∨ ∃ b, Registering (update w.st.pc a (.exec me p') b) v)
      ∧ ∀ v u r, w.st.ctx v = .joinLock u r → u = t ∧ w.asked (.inr v) = true
        ∧ (.inr v ∈ w.registered → ∃ b, Registering (update w.st.pc a (.exec me p') b) v) := by
  refine h.books_update fun v ha => ?_
  rw [hpc] at ha
  exact ⟨ha.1, hreg ha.2⟩

omit [DecidableEq A] in
/-- A vthread that runs other code has not been registered, or the loop has come
    to it. -/
theorem not_registered (h : w.Booked t) {v : V} (ha : w.st.pc a = .exec (some v) p)
    (hp : p.registers = false) (hv : v ∉ w.visited) : .inr v ∉ w.registered := by
  intro hreg
  rcases h.parked v hreg with hpush | ⟨b, hb⟩
  · exact h.not_run hv hpush ha
  · have hk := h.stands b
    cases hb' : w.st.pc b with
    | exec me' p' =>
        rw [hb'] at hb
        obtain ⟨rfl, hp'⟩ := hb
        obtain rfl := h.runner_eq hv ha hb'
        rw [ha] at hb'
        obtain ⟨-, rfl⟩ := Pc.exec.inj hb'
        rw [hp] at hp'
        cases hp'
    | switch u r k =>
        rw [hb'] at hb hk
        cases r with
        | mutex m =>
            obtain rfl : u = v := hb
            exact h.not_run hv hk.2.2.1 ha
        | status st => exact hb
    | _ =>
        rw [hb'] at hb
        exact hb

omit [DecidableEq A] in
/-- Whoever is being registered waits already, and has not been taken. -/
theorem waits_of_registering (h : w.Booked t) {v : V} (ha : Registering (w.st.pc a) v) :
    .inr v ∈ w.waiting ∧ v ∉ w.visited := by
  have hwait : .inr v ∈ w.waiting := by
    have hk := h.stands a
    have hheld := h.guarded.inside t a
    cases hpc : w.st.pc a with
    | exec me p =>
        rw [hpc] at ha hk hheld
        obtain ⟨rfl, hp⟩ := ha
        have hbehind : p.lock (some v) = some t ∧ (w.HeldCode t (some v) p →
            ∃ hd, w.Behind (some v) hd) := by
          cases p with
          | joinStatus u => exact ⟨congrArg some hk, fun hb => ⟨_, hb⟩⟩
          | joinHead u => exact ⟨congrArg some hk.1, fun hb => ⟨_, hb⟩⟩
          | joinPush u prev => exact ⟨congrArg some hk.1, fun hb => ⟨_, hb⟩⟩
          | joinLink u prev => exact ⟨congrArg some hk.1, fun hb => ⟨_, hb.1⟩⟩
          | _ => cases hp
        obtain ⟨hd, u, l, hu, hvl, -⟩ := hbehind.2 (hheld hbehind.1 rfl)
        obtain rfl := Option.some.inj hu
        rw [← mem_vthreadsOf, hvl]
        exact List.mem_cons_self
    | switch u r k =>
        rw [hpc] at ha hk hheld
        cases r with
        | mutex m =>
            obtain rfl : u = v := ha
            exact (hheld hk.1 rfl).2
        | status st => exact ha.elim
    | _ =>
        rw [hpc] at ha
        exact ha.elim
  exact ⟨hwait, fun hvis => h.not_taken hwait (h.taken_of_visited hvis)⟩

/-- The agent stays in the code of the vthread it runs. -/
theorem custody_exec (h : w.Booked t) (hpc : w.st.pc a = .exec me p)
    (hhand : ∀ u, joinShape.hand p' = some u → u ∈ w.visited) :
    Custody (fun v => v ∉ w.visited) (Pc.Holds joinShape) (update w.st.pc a (.exec me p'))
      (bags w.st.vsQueue fun _ : Empty => []) fun v => w.st.done v = true ∨ w.st.pushes v ≠ 0 := by
  refine h.custody.stay (fun u hu hold => ?_) rfl
  rw [hpc]
  rcases hold with hme | hin
  · exact .inl hme
  · exact absurd (hhand u hin) hu

/-- **From one point of the code to another**, under the same mutex; what is in
    hand has been taken out of the list. -/
theorem moves (h : w.Booked t) (hpc : w.st.pc a = .exec me p) (hs : SamePlaces w.st s)
    (hpc' : s.pc = update w.st.pc a (.exec me p')) (hl : w.Leaves t { w with st := s } a)
    (hhand : ∀ u, joinShape.hand p' = some u → u ∈ w.visited) (hlock : p'.lock me = p.lock me)
    (hheld : p.lock me = some t → w.HeldCode t me p → { w with st := s }.HeldCode t me p')
    (hown : { w with st := s }.CodeOk t a me p') (hover : me = some t → p'.tookOver = p.tookOver)
    (hreg : p'.registers = p.registers) (hst : Over w.st t → s.curStatus t = .finished) :
    { w with st := s }.Booked t := by
  obtain ⟨hparked, hctx⟩ := h.books_exec hpc p' fun hp => hreg.trans hp
  have hovers : Over s t ↔ Over w.st t := over_exec hpc hpc' hs.done hover
  refine ⟨?_, ?_, h.stands_of hl hpc' hown, ?_, fun v hv => ?_, h.once, h.asked, ?_, ?_, h.order,
    h.self, fun hno => h.before fun ho => hno (hovers.mpr ho),
    fun ho => ⟨hst (hovers.mp ho), (h.after (hovers.mp ho)).2⟩, fun hd => ?_⟩
  · show Custody _ _ s.pc (bags s.vsQueue _) fun v => s.done v = true ∨ s.pushes v ≠ 0
    rw [hpc', hs.vsQueue, hs.done, hs.pushes]
    exact h.custody_exec hpc hhand
  · show Guarded _ _ _ s.pc s.c
    rw [hpc', hs.c]
    refine h.guarded_move hl (fun l => ?_) fun ha hold => ?_
    · rw [hpc]
      show p'.lock me = some l ↔ p.lock me = some l
      rw [hlock]
    · rw [hpc] at ha hold
      exact hheld ha hold
  · show s.joinWaitersNum t = _
    rw [hs.joinWaitersNum]
    exact h.num
  · show s.joinWaitersNum v = 0
    rw [hs.joinWaitersNum]
    exact h.others v hv
  · show ∀ v, _ → s.pushes v ≠ 0 ∨ ∃ b, Registering (s.pc b) v
    rw [hs.pushes, hpc']
    exact hparked
  · show ∀ v u r, s.ctx v = _ → _ ∧ _ ∧ (_ → ∃ b, Registering (s.pc b) v)
    rw [hs.ctx, hpc']
    exact hctx
  · rw [hs.done] at hd
    exact h.ended hd

/-- The same, if it concerns no joiner. -/
theorem goes (h : w.Booked t) (hpc : w.st.pc a = .exec me p) (hbooks : SameBooks w.st s)
    (hs : SamePlaces w.st s) (hpc' : s.pc = update w.st.pc a (.exec me p'))
    (hhand : ∀ u, joinShape.hand p' = some u → u ∈ w.visited) (hlock : p'.lock me = p.lock me)
    (hheld : p.lock me = some t → w.HeldCode t me p → w.HeldCode t me p')
    (hown : w.CodeOk t a me p') (hover : me = some t → p'.tookOver = p.tookOver)
    (hreg : p'.registers = p.registers) : { w with st := s }.Booked t := by
  refine h.moves hpc hs hpc' hbooks.leaves hhand hlock (fun ha hold => ?_) ?_ hover hreg fun ho => ?_
  · exact (hbooks.held (q := .exec me p')).mpr (hheld ha hold)
  · exact (hbooks.pcOk (q := .exec me p')).mpr hown
  · rw [hbooks.curStatus]
    exact (h.after ho).1

end Counted.Booked

end HThread.Join
