/-
  HThread.Cond.Waiting — waiting on a condvar is atomic.

  Runs in which every vthread waits at most once, holding the mutex, and is
  followed up to its first resumption; the mutex is unlocked by its holder
  only.  Signallers and broadcasters are not restricted.  The enqueue of line
  162 is allowed: it concerns vthreads whose mutex has been released.

  Key lemmas:
    * `queues_keeps`  — one queue serves all callers, and has what was pushed.
    * `waitInv_keeps` — whoever is in a wait has the mutex, until the worker
      releases it.
-/
import HThread.Cond.HandOff

namespace HThread.Cond

open Interleave
open Function (update)

variable {A V : Type} [DecidableEq A] [DecidableEq V]

/-! ## §1. One queue for all callers. -/

/-- The entries of `v` in the installed queue. -/
def CondState.inQueue (s : CondState A V) (v : V) : ℕ :=
  match s.blockedVths with
  | some q => (s.queue q).count v
  | none => 0

/-- Everybody past the allocation uses the installed queue; its content is what
    was pushed and not popped. -/
structure Queues (s : CondState A V) : Prop where
  past : ∀ a me p, s.pc a = .exec me p → p.past = true → s.blockedVths ≠ none
  pointer : ∀ a me p q, s.pc a = .exec me p → p.pointer = some q → s.blockedVths = some q
  used : ∀ q ∈ s.used, s.blockedVths = some q
  content : ∀ v, s.pops v + s.inQueue v = s.pushes v
  empty : ∀ q, s.blockedVths ≠ some q → s.queue q = []

omit [DecidableEq V] in
/-- After a move of `a`, an agent in some code is `a` or was there before. -/
theorem exec_update {pc : A → Pc V (CondPc V) CondCont Unit} {a x : A}
    {p' : Pc V (CondPc V) CondCont Unit} {me : Option V} {p : CondPc V}
    (h : update pc a p' x = .exec me p) : p' = .exec me p ∨ pc x = .exec me p := by
  by_cases hxa : x = a
  · subst hxa
    rw [Function.update_self] at h
    exact .inl h
  · rw [Function.update_of_ne hxa] at h
    exact .inr h

/-- A step that uses no queue. -/
theorem Queues.move {s s' : CondState A V} (h : Queues s) {a : A}
    {p' : Pc V (CondPc V) CondCont Unit} (hpc : s'.pc = update s.pc a p')
    (hb : s'.blockedVths = s.blockedVths) (hused : s'.used = s.used) (hqueue : s'.queue = s.queue)
    (hpops : s'.pops = s.pops) (hpushes : s'.pushes = s.pushes)
    (hpast : ∀ me p, p' = .exec me p → p.past = true → s.blockedVths ≠ none)
    (hptr : ∀ me p q, p' = .exec me p → p.pointer = some q → s.blockedVths = some q) :
    Queues s' where
  past x me p hx hp := by
    rw [hpc] at hx
    rw [hb]
    rcases exec_update hx with hx | hx
    · exact hpast me p hx hp
    · exact h.past x me p hx hp
  pointer x me p q hx hp := by
    rw [hpc] at hx
    rw [hb]
    rcases exec_update hx with hx | hx
    · exact hptr me p q hx hp
    · exact h.pointer x me p q hx hp
  used q hq := by
    rw [hused] at hq
    rw [hb]
    exact h.used q hq
  content v := by
    have := h.content v
    unfold CondState.inQueue at *
    rw [hpops, hpushes, hb, hqueue]
    exact this
  empty q hq := by
    rw [hb] at hq
    rw [hqueue]
    exact h.empty q hq

/-- A step to a point without a queue in hand, at which the queue is installed or
    not needed. -/
theorem Queues.goto {s s' : CondState A V} (h : Queues s) {a : A}
    {p' : Pc V (CondPc V) CondCont Unit} (hpc : s'.pc = update s.pc a p')
    (hsame : s'.blockedVths = s.blockedVths ∧ s'.used = s.used ∧ s'.queue = s.queue
      ∧ s'.pops = s.pops ∧ s'.pushes = s.pushes)
    (hp' : ∀ me p, p' = .exec me p → p.pointer = none ∧ (p.past = true → s.blockedVths ≠ none)) :
    Queues s' := by
  obtain ⟨hb, hused, hqueue, hpops, hpushes⟩ := hsame
  refine h.move hpc hb hused hqueue hpops hpushes (fun me p hx => (hp' me p hx).2) ?_
  intro me p q hx hp
  rw [(hp' me p hx).1] at hp
  cases hp

/-- A use of the installed queue `q` by agent `a`. -/
theorem Queues.use {s s' : CondState A V} (h : Queues s) {a : A}
    {p' : Pc V (CondPc V) CondCont Unit} {q : ℕ} {l : List V} (hpc : s'.pc = update s.pc a p')
    (hb : s'.blockedVths = s.blockedVths) (hq : s.blockedVths = some q)
    (hused : s'.used = s.used ++ [q]) (hqueue : s'.queue = update s.queue q l)
    (hcount : ∀ v, s'.pops v + l.count v = s'.pushes v)
    (hptr : ∀ me p, p' = .exec me p → p.pointer = none) : Queues s' where
  past x me p hx hp := by
    rw [hb, hq]
    exact Option.some_ne_none q
  pointer x me p q' hx hp := by
    rw [hpc] at hx
    rw [hb]
    rcases exec_update hx with hx | hx
    · rw [hptr me p hx] at hp
      cases hp
    · exact h.pointer x me p q' hx hp
  used q' hq' := by
    rw [hused, List.mem_append, List.mem_singleton] at hq'
    rw [hb]
    rcases hq' with hq' | rfl
    · exact h.used q' hq'
    · exact hq
  content v := by
    unfold CondState.inQueue
    rw [hb, hq, hqueue]
    show s'.pops v + (update s.queue q l q).count v = s'.pushes v
    rw [Function.update_self]
    exact hcount v
  empty q' hq' := by
    rw [hb] at hq'
    have hne : q' ≠ q := fun he => hq' (he ▸ hq)
    rw [hqueue, Function.update_of_ne hne]
    exact h.empty q' hq'

omit [DecidableEq A] in
/-- What the installed queue contains. -/
theorem Queues.count {s : CondState A V} (h : Queues s) {q : ℕ} (hq : s.blockedVths = some q)
    (v : V) : s.pops v + (s.queue q).count v = s.pushes v := by
  have := h.content v
  unfold CondState.inQueue at this
  rw [hq] at this
  exact this

theorem queues_code {s s' : CondState A V} {a : A} {me : Option V} {p : CondPc V} (h : Queues s)
    (hpc : s.pc a = .exec me p) (hs : CodeEffect s a me p s') : Queues s' := by
  have hsame : s.blockedVths = s.blockedVths ∧ s.used = s.used ∧ s.queue = s.queue
      ∧ s.pops = s.pops ∧ s.pushes = s.pushes := ⟨rfl, rfl, rfl, rfl, rfl⟩
  cases hs with
  | quiet st n q p' hq =>
      refine h.move rfl rfl rfl rfl rfl rfl (fun me' p'' hx hp => ?_) (fun me' p'' q' hx hp => ?_)
      · obtain ⟨rfl, rfl⟩ := Pc.exec.inj hx
        rcases hq.past hp with hold | hb
        · exact h.past a me p hpc hold
        · exact hb
      · obtain ⟨rfl, rfl⟩ := Pc.exec.inj hx
        exact hq.pointer q' hp
  | install op hp hnone =>
      refine ⟨fun x me' p' hx hp' => Option.some_ne_none _, fun x me' p' q hx hp' => ?_,
        fun q hq => ?_, fun v => ?_, fun q hq => ?_⟩
      · rcases exec_update hx with hx | hx
        · obtain ⟨-, rfl⟩ := Pc.exec.inj hx
          cases op <;> cases hp'
        · have := h.pointer x me' p' q hx hp'
          rw [hnone] at this
          cases this
      · have := h.used q hq
        rw [hnone] at this
        cases this
      · have hc := h.content v
        unfold CondState.inQueue at hc
        rw [hnone] at hc
        show s.pops v + (s.queue s.nextQueue).count v = s.pushes v
        rw [h.empty s.nextQueue (by simp [hnone])]
        exact hc
      · exact h.empty q (by simp [hnone])
  | arm v hme hp =>
      subst hp
      refine h.goto rfl hsame fun me' p' hx => ?_
      obtain ⟨-, rfl⟩ := Pc.exec.inj hx
      exact ⟨rfl, fun _ => h.past a me _ hpc rfl⟩
  | push v q hme hp =>
      subst hp
      have hq := h.pointer a me _ q hpc rfl
      refine h.use (a := a) rfl rfl hq rfl rfl (fun w => ?_) (fun _ _ hx => by cases hx)
      have hc := h.count hq w
      show s.pops w + (s.queue q ++ [v]).count w = update s.pushes v (s.pushes v + 1) w
      rw [List.count_append]
      by_cases hw : w = v
      · subst hw
        rw [Function.update_self, List.count_singleton_self]
        omega
      · have h0 : [v].count w = 0 := List.count_eq_zero.mpr (by simpa using hw)
        rw [Function.update_of_ne hw]
        omega
  | empty q p' hq hp =>
      have hptr : s.blockedVths = some q := by
        rcases hp with ⟨rfl, -⟩ | ⟨rfl, -⟩ <;> exact h.pointer a me _ q hpc rfl
      refine h.use (a := a) rfl rfl hptr rfl (Function.update_eq_self q s.queue).symm
        (h.count hptr) (fun _ p'' hx => ?_)
      obtain ⟨-, rfl⟩ := Pc.exec.inj hx
      rcases hp with ⟨-, rfl⟩ | ⟨-, rfl⟩ <;> rfl
  | wake w p' hp =>
      refine h.goto rfl hsame fun me' p'' hx => ?_
      obtain ⟨-, rfl⟩ := Pc.exec.inj hx
      rcases hp with ⟨rfl, rfl⟩ | ⟨rfl, rfl⟩
      · exact ⟨rfl, fun hp => by cases hp⟩
      · exact ⟨rfl, fun _ => h.past a me _ hpc rfl⟩
  | acquire k hp hc =>
      refine h.goto rfl hsame fun me' p'' hx => ?_
      obtain ⟨-, rfl⟩ := Pc.exec.inj hx
      exact ⟨rfl, fun hp => by cases hp⟩
  | yield k k' hp =>
      refine h.goto rfl hsame fun me' p'' hx => ?_
      cases me <;> cases hx
  | crash hp hhand => exact h.goto rfl hsame fun _ _ hx => by cases hx

theorem queues_step {s s' : CondState A V} {act : CondAct A V} (h : Queues s)
    (hs : StepEffect s act s') : Queues s' := by
  have hsame : s.blockedVths = s.blockedVths ∧ s.used = s.used ∧ s.queue = s.queue
      ∧ s.pops = s.pops ∧ s.pushes = s.pushes := ⟨rfl, rfl, rfl, rfl, rfl⟩
  cases hs with
  | call a me f hpc =>
      cases f with
      | condWait | condSignal | condBroadcast | mutexLock =>
          refine h.goto rfl hsame fun me' p'' hx => ?_
          obtain ⟨-, rfl⟩ := Pc.exec.inj hx
          exact ⟨rfl, fun hp => by cases hp⟩
      | mutexUnlock => exact ⟨h.past, h.pointer, h.used, h.content, h.empty⟩
      | schedYield =>
          refine h.goto rfl hsame fun me' p'' hx => ?_
          cases me <;> cases hx
  | pop a me w q p p' hpc hw hp =>
      have hptr : s.blockedVths = some q := by
        rcases hp with ⟨rfl, -⟩ | ⟨rfl, -⟩ <;> exact h.pointer a me _ q hpc rfl
      refine h.use (a := a) rfl rfl hptr rfl rfl (fun v => ?_) (fun _ p'' hx => ?_)
      · have hc := h.count hptr v
        show update s.pops w (s.pops w + 1) v + ((s.queue q).erase w).count v = s.pushes v
        by_cases hv : v = w
        · subst hv
          have hpos := List.count_pos_iff.mpr hw
          rw [Function.update_self, List.count_erase_self]
          omega
        · rw [Function.update_of_ne hv, List.count_erase_of_ne hv]
          exact hc
      · obtain ⟨-, rfl⟩ := Pc.exec.inj hx
        rcases hp with ⟨-, rfl⟩ | ⟨-, rfl⟩ <;> rfl
  | dequeue a v hpc => exact h.goto rfl hsame fun _ _ hx => by cases hx
  | code a me p s' hpc hcode => exact queues_code h hpc hcode
  | release a v hpc => exact h.goto rfl hsame fun _ _ hx => by cases hx
  | move a q run k n p' hmove =>
      refine h.goto rfl hsame fun me p hx => ?_
      subst hx
      generalize s.pc a = p₀ at hmove
      cases hmove with
      | resume v k => exact ⟨rfl, fun hp => by cases hp⟩
      | plain _ _ _ _ hp' => rcases hp' with h | ⟨v, h⟩ | ⟨v, h⟩ <;> cases h

omit [DecidableEq A] [DecidableEq V] in
/-- At the start everybody is in the program or at the top of the worker's loop. -/
theorem condInit_pc (raw : A → Bool) (ready : List V) (a : A) :
    (condInit raw ready).pc a = .top ∨ (condInit raw ready).pc a = .exec none (.cont .user) := by
  cases hr : raw a with
  | true => exact .inr (by simp [condInit, hr])
  | false => exact .inl (by simp [condInit, hr])

omit [DecidableEq A] in
theorem queues_init (raw : A → Bool) (ready : List V) : Queues (condInit raw ready) := by
  have hexec : ∀ a me p, (condInit raw ready).pc a = .exec me p → p = .cont .user := by
    intro a me p ha
    rcases condInit_pc raw ready a with h | h
    · rw [h] at ha
      cases ha
    · rw [h] at ha
      exact (Pc.exec.inj ha).2.symm
  refine ⟨fun a me p ha hp => ?_, fun a me p q ha hp => ?_, fun q hq => (by cases hq),
    fun v => rfl, fun q _ => rfl⟩
  · obtain rfl := hexec a me p ha
    cases hp
  · obtain rfl := hexec a me p ha
    cases hp

theorem queues_keeps : (condvar (A := A) (V := V)).Keeps (fun _ _ => True) Queues where
  start s hs := by
    obtain ⟨raw, ready, -, rfl⟩ := hs
    exact queues_init raw ready
  step _ _ _ h _ hs := queues_step h (condStep_effect hs)

/-! ## §2. From the call to the release of the mutex. -/

/-- The agent is in the wait of `v`: in `pthread_cond_wait` before the switch, or
    on its way to the release of the mutex. -/
def Waiting : Pc V (CondPc V) CondCont Unit → V → Prop
  | .exec me p, v => me = some v ∧ p.inWait = true
  | .switch w r _, v => w = v ∧ r = .mutex ()
  | .ret w r, v => w = v ∧ r = .mutex ()
  | _, _ => False

/-- The pushes of the waiter so far. -/
def pushed : Pc V (CondPc V) CondCont Unit → ℕ
  | .switch _ _ _ | .ret _ _ => 1
  | _ => 0

/-- The worker has released the mutex for `v` and not yet turned to other work. -/
def Left : Pc V (CondPc V) CondCont Unit → V → Prop
  | .setRunnable w, v | .readStatus w, v | .wakeSelf w, v => w = v
  | _, _ => False

/-- The waiter `v`, not yet released, has the mutex and has been pushed `n` times. -/
structure Owns (s : CondState A V) (v : V) (n : ℕ) : Prop where
  holder : s.holder = some (.vthread v)
  waits : s.waits v = 1
  releases : s.releases v = 0
  pushes : s.pushes v = n

omit [DecidableEq V] in
/-- A waiter is in the hands of its agent, or that agent is leaving it. -/
theorem side_of_waiting {p : Pc V (CondPc V) CondCont Unit} {v : V} (h : Waiting p v) :
    p.Leaving condShape v ∨ p.Active condShape v := by
  cases p with
  | exec me p =>
      cases harm : condShape.armed p with
      | true => exact .inl ⟨h.1, harm⟩
      | false => exact .inr ⟨h.1, harm⟩
  | switch w r k =>
      obtain ⟨rfl, rfl⟩ := h
      exact .inl ⟨rfl, rfl⟩
  | ret w r =>
      obtain ⟨rfl, rfl⟩ := h
      exact .inl ⟨rfl, rfl⟩
  | _ => exact h.elim

/-- The invariant of disciplined runs.  A vthread is tracked until the mutex has
    been released for it. -/
structure WaitInv (s : CondState A V) : Prop where
  handed : Handed (fun v => s.releases v = 0) s
  queues : Queues s
  locked : s.holder ≠ none → s.c () = true
  owns : ∀ a v, Waiting (s.pc a) v → Owns s v (pushed (s.pc a))
  found : ∀ v, s.waits v = 1 → s.releases v = 0 → ∃ a, Waiting (s.pc a) v
  bounds : ∀ v, s.waits v ≤ 1 ∧ s.pushes v ≤ s.waits v ∧ s.releases v ≤ s.pushes v
  left : ∀ a v, Left (s.pc a) v → s.releases v = 1

/-- The agent of an action. -/
def CondAct.agent : CondAct A V → A
  | .call a _ => a
  | .pick a _ => a
  | .go a => a

/-- The discipline of the episodes: a waiter is not followed beyond its first
    resumption, waits once and with the mutex, and the holder unlocks. -/
structure Disciplined (s : CondState A V) (act : CondAct A V) : Prop where
  followed : ∀ v p, s.pc act.agent = .exec (some v) p → s.releases v = 0
  wait : ∀ a v p, act = .call a .condWait → s.pc a = .exec (some v) p →
    s.holder = some (.vthread v) ∧ s.waits v = 0
  unlock : ∀ a me p, act = .call a .mutexUnlock → s.pc a = .exec me p →
    s.holder = some (caller me a)

namespace WaitInv

variable {s s' : CondState A V} {a x : A} {v w : V}

omit [DecidableEq A] in
theorem waiting_unique (h : WaitInv s) (ha : Waiting (s.pc a) v)
    (hx : (s.pc x).Leaving condShape v ∨ (s.pc x).Active condShape v) : x = a :=
  h.handed.side_unique (h.owns a v ha).releases hx (side_of_waiting ha)

/-- A step that touches neither the mutex nor the counts of episodes. -/
theorem move (h : WaitInv s) {p' : Pc V (CondPc V) CondCont Unit}
    (hh : Handed (fun v => s.releases v = 0) s') (hq : Queues s') (hpc : s'.pc = update s.pc a p')
    (hsame : s'.c = s.c ∧ s'.holder = s.holder ∧ s'.waits = s.waits ∧ s'.pushes = s.pushes
      ∧ s'.releases = s.releases)
    (hwait : ∀ v, Waiting p' v ↔ Waiting (s.pc a) v)
    (hpushed : ∀ v, Waiting p' v → pushed p' = pushed (s.pc a))
    (hleft : ∀ v, Left p' v → Left (s.pc a) v) : WaitInv s' := by
  obtain ⟨hc, hholder, hwaits, hpushes, hreleases⟩ := hsame
  refine ⟨hreleases ▸ hh, hq, ?_, ?_, ?_, ?_, ?_⟩
  · rw [hc, hholder]
    exact h.locked
  · intro x v hx
    have hold : Owns s v (pushed (s'.pc x)) := by
      rw [hpc] at hx ⊢
      by_cases hxa : x = a
      · subst hxa
        rw [Function.update_self] at hx ⊢
        rw [hpushed v hx]
        exact h.owns x v ((hwait v).mp hx)
      · rw [Function.update_of_ne hxa] at hx ⊢
        exact h.owns x v hx
    exact ⟨hholder ▸ hold.holder, hwaits ▸ hold.waits, hreleases ▸ hold.releases,
      hpushes ▸ hold.pushes⟩
  · intro v hw hr
    rw [hwaits] at hw
    rw [hreleases] at hr
    obtain ⟨x, hx⟩ := h.found v hw hr
    refine ⟨x, ?_⟩
    rw [hpc]
    by_cases hxa : x = a
    · subst hxa
      rw [Function.update_self]
      exact (hwait v).mpr hx
    · rw [Function.update_of_ne hxa]
      exact hx
  · intro v
    rw [hwaits, hpushes, hreleases]
    exact h.bounds v
  · intro x v hx
    rw [hreleases]
    rw [hpc] at hx
    by_cases hxa : x = a
    · subst hxa
      rw [Function.update_self] at hx
      exact h.left x v (hleft v hx)
    · rw [Function.update_of_ne hxa] at hx
      exact h.left x v hx

/-- The waiter `v` enters the queue. -/
theorem push {q : ℕ} (h : WaitInv s) (hpc : s.pc a = .exec (some v) (.waitPush q))
    (hs : s' = { s with
      queue := update s.queue q (s.queue q ++ [v])
      pushes := update s.pushes v (s.pushes v + 1)
      used := s.used ++ [q]
      pc := update s.pc a (.switch v (.mutex ()) .woken) })
    (hh : Handed (fun v => s.releases v = 0) s') (hq : Queues s') : WaitInv s' := by
  subst hs
  have hwait : Waiting (s.pc a) v := hpc ▸ ⟨rfl, rfl⟩
  have hown := h.owns a v hwait
  have h0 : s.pushes v = 0 := by
    have := hown.pushes
    rwa [hpc] at this
  have hfound : ∀ w, Waiting (s.pc a) w → w = v := fun w hw => by
    rw [hpc] at hw
    exact (Option.some.inj hw.1).symm
  refine ⟨hh, hq, h.locked, fun x w hx => ?_, fun w hw hr => ?_, fun w => ?_, fun x w hx => ?_⟩
  · have hx' : Waiting (update s.pc a (.switch v (.mutex ()) .woken) x) w := hx
    show Owns _ w (pushed (update s.pc a (.switch v (.mutex ()) .woken) x))
    by_cases hxa : x = a
    · subst hxa
      rw [Function.update_self] at hx' ⊢
      obtain ⟨rfl, -⟩ := hx'
      refine ⟨hown.holder, hown.waits, hown.releases, ?_⟩
      show update s.pushes v (s.pushes v + 1) v = 1
      rw [Function.update_self, h0]
    · rw [Function.update_of_ne hxa] at hx' ⊢
      have hold := h.owns x w hx'
      have hwv : w ≠ v := by
        rintro rfl
        exact hxa (h.waiting_unique hwait (side_of_waiting hx'))
      exact ⟨hold.holder, hold.waits, hold.releases,
        (Function.update_of_ne hwv _ _).trans hold.pushes⟩
  · obtain ⟨x, hx⟩ := h.found w hw hr
    refine ⟨x, ?_⟩
    show Waiting (update s.pc a (.switch v (.mutex ()) .woken) x) w
    by_cases hxa : x = a
    · subst hxa
      rw [Function.update_self]
      exact ⟨(hfound w hx).symm, rfl⟩
    · rw [Function.update_of_ne hxa]
      exact hx
  · have hb := h.bounds w
    refine ⟨hb.1, ?_, ?_⟩
    · show update s.pushes v (s.pushes v + 1) w ≤ s.waits w
      by_cases hwv : w = v
      · subst hwv
        have hw1 := hown.waits
        rw [Function.update_self]
        omega
      · rw [Function.update_of_ne hwv]
        exact hb.2.1
    · show s.releases w ≤ update s.pushes v (s.pushes v + 1) w
      by_cases hwv : w = v
      · subst hwv
        rw [Function.update_self]
        omega
      · rw [Function.update_of_ne hwv]
        exact hb.2.2
  · have hx' : Left (update s.pc a (.switch v (.mutex ()) .woken) x) w := hx
    exact h.left x w (of_update (P := fun q => Left q w) id hx').2

/-- The worker releases the mutex for `v`. -/
theorem release (h : WaitInv s) (hpc : s.pc a = .ret v (.mutex ()))
    (hs : s' = { s with
      c := update s.c () false
      releases := update s.releases v (s.releases v + 1)
      holder := none
      pc := update s.pc a (.setRunnable v) })
    (hh : Handed (fun v => s.releases v = 0) s') (hq : Queues s') : WaitInv s' := by
  subst hs
  have hwait : Waiting (s.pc a) v := hpc ▸ ⟨rfl, rfl⟩
  have hown := h.owns a v hwait
  have h1 : s.pushes v = 1 := by
    have := hown.pushes
    rwa [hpc] at this
  -- `v` had the mutex, so nobody else is waiting
  have honly : ∀ x w, Waiting (s.pc x) w → x = a := fun x w hx => by
    have hw := (h.owns x w hx).holder
    rw [hown.holder] at hw
    obtain rfl := Caller.vthread.inj (Option.some.inj hw)
    exact h.waiting_unique hwait (side_of_waiting hx)
  have hrel : ∀ w, update s.releases v (s.releases v + 1) w = 0 → w ≠ v ∧ s.releases w = 0 := by
    intro w hw
    by_cases hwv : w = v
    · subst hwv
      rw [Function.update_self] at hw
      omega
    · rw [Function.update_of_ne hwv] at hw
      exact ⟨hwv, hw⟩
  refine ⟨⟨hh.custody.mono fun w hw => (hrel w hw).2, hh.handshake.mono fun w hw => (hrel w hw).2,
      fun x me p w hw => hh.distinct x me p w (hrel w hw).2⟩, hq, fun hn => absurd rfl hn,
    fun x w hx => ?_, fun w hw hr => ?_, fun w => ?_, fun x w hx => ?_⟩
  · have hx' : Waiting (update s.pc a (.setRunnable v) x) w := hx
    obtain ⟨hxa, hx'⟩ := of_update (P := fun q => Waiting q w) id hx'
    exact absurd (honly x w hx') hxa
  · obtain ⟨hwv, hr'⟩ := hrel w hr
    obtain ⟨x, hx⟩ := h.found w hw hr'
    obtain rfl := honly x w hx
    rw [hpc] at hx
    exact absurd hx.1.symm hwv
  · have hb := h.bounds w
    refine ⟨hb.1, hb.2.1, ?_⟩
    show update s.releases v (s.releases v + 1) w ≤ s.pushes w
    by_cases hwv : w = v
    · subst hwv
      have hr0 := hown.releases
      rw [Function.update_self]
      omega
    · rw [Function.update_of_ne hwv]
      exact hb.2.2
  · have hx' : Left (update s.pc a (.setRunnable v) x) w := hx
    show update s.releases v (s.releases v + 1) w = 1
    by_cases hxa : x = a
    · subst hxa
      rw [Function.update_self] at hx'
      obtain rfl : v = w := hx'
      rw [Function.update_self, hown.releases]
    · rw [Function.update_of_ne hxa] at hx'
      have hold := h.left x w hx'
      have hwv : w ≠ v := by
        rintro rfl
        have := hown.releases
        omega
      rw [Function.update_of_ne hwv]
      exact hold

omit [DecidableEq A] in
/-- A step when nobody is waiting, and nobody starts to. -/
theorem none_waiting (h : WaitInv s) (hno : ∀ x v, ¬Waiting (s.pc x) v)
    (hpc : ∀ x, s'.pc x = s.pc x ∨ ∀ v, ¬Waiting (s'.pc x) v ∧ ¬Left (s'.pc x) v)
    (hh : Handed (fun v => s.releases v = 0) s') (hq : Queues s')
    (hlocked : s'.holder ≠ none → s'.c () = true)
    (hsame : s'.waits = s.waits ∧ s'.pushes = s.pushes ∧ s'.releases = s.releases) :
    WaitInv s' := by
  obtain ⟨hwaits, hpushes, hreleases⟩ := hsame
  refine ⟨hreleases ▸ hh, hq, hlocked, fun x w hx => ?_, fun w hw hr => ?_, fun w => ?_,
    fun x w hx => ?_⟩
  · rcases hpc x with he | he
    · rw [he] at hx
      exact absurd hx (hno x w)
    · exact absurd hx (he w).1
  · rw [hwaits] at hw
    rw [hreleases] at hr
    obtain ⟨x, hx⟩ := h.found w hw hr
    exact absurd hx (hno x w)
  · rw [hwaits, hpushes, hreleases]
    exact h.bounds w
  · rw [hreleases]
    rcases hpc x with he | he
    · rw [he] at hx
      exact h.left x w hx
    · exact absurd hx (he w).2

/-- A vthread that has the mutex calls `pthread_cond_wait`. -/
theorem call (h : WaitInv s) (hpc : s.pc a = .exec (some v) (.cont .user))
    (hholder : s.holder = some (.vthread v)) (hwaits : s.waits v = 0) (hrel : s.releases v = 0)
    (hh : Handed (fun v => s.releases v = 0) (condCall s a (some v) .condWait))
    (hq : Queues (condCall s a (some v) .condWait)) :
    WaitInv (condCall s a (some v) .condWait) := by
  have hb := h.bounds v
  have hnot : ∀ w, ¬Waiting (s.pc a) w := fun w hw => by
    rw [hpc] at hw
    cases hw.2
  refine ⟨hh, hq, h.locked, fun x w hx => ?_, fun w hw hr => ?_, fun w => ?_, fun x w hx => ?_⟩
  · have hx' : Waiting (update s.pc a (.exec (some v) (.readQueue .wait)) x) w := hx
    show Owns _ w (pushed (update s.pc a (.exec (some v) (.readQueue .wait)) x))
    by_cases hxa : x = a
    · subst hxa
      rw [Function.update_self] at hx' ⊢
      obtain rfl : v = w := Option.some.inj hx'.1
      refine ⟨hholder, ?_, hrel, ?_⟩
      · show update s.waits v (s.waits v + 1) v = 1
        rw [Function.update_self, hwaits]
      · show s.pushes v = 0
        omega
    · rw [Function.update_of_ne hxa] at hx' ⊢
      have hold := h.owns x w hx'
      have hwv : w ≠ v := by
        rintro rfl
        have := hold.waits
        omega
      exact ⟨hold.holder, (Function.update_of_ne hwv _ _).trans hold.waits, hold.releases,
        hold.pushes⟩
  · have hw' : update s.waits v (s.waits v + 1) w = 1 := hw
    by_cases hwv : w = v
    · subst hwv
      refine ⟨a, ?_⟩
      show Waiting (update s.pc a (.exec (some w) (.readQueue .wait)) a) w
      rw [Function.update_self]
      exact ⟨rfl, rfl⟩
    · rw [Function.update_of_ne hwv] at hw'
      obtain ⟨x, hx⟩ := h.found w hw' hr
      have hxa : x ≠ a := by
        rintro rfl
        exact hnot w hx
      refine ⟨x, ?_⟩
      show Waiting (update s.pc a (.exec (some v) (.readQueue .wait)) x) w
      rw [Function.update_of_ne hxa]
      exact hx
  · have hb' := h.bounds w
    show update s.waits v (s.waits v + 1) w ≤ 1 ∧ s.pushes w ≤ update s.waits v (s.waits v + 1) w
      ∧ s.releases w ≤ s.pushes w
    by_cases hwv : w = v
    · subst hwv
      rw [Function.update_self]
      omega
    · rw [Function.update_of_ne hwv]
      exact hb'
  · have hx' : Left (update s.pc a (.exec (some v) (.readQueue .wait)) x) w := hx
    exact h.left x w (of_update (P := fun q => Left q w) id hx').2

end WaitInv

theorem waitInv_code {s s' : CondState A V} {a : A} {me : Option V} {p : CondPc V}
    (h : WaitInv s) (hpc : s.pc a = .exec me p) (hs : CodeEffect s a me p s')
    (hh : Handed (fun v => s.releases v = 0) s') (hq : Queues s') : WaitInv s' := by
  have hsame : s.c = s.c ∧ s.holder = s.holder ∧ s.waits = s.waits ∧ s.pushes = s.pushes
      ∧ s.releases = s.releases := ⟨rfl, rfl, rfl, rfl, rfl⟩
  -- a move within the code that neither enters nor leaves a wait
  have hmove : ∀ p', p'.inWait = p.inWait → s'.pc = update s.pc a (.exec me p') →
      (s'.c = s.c ∧ s'.holder = s.holder ∧ s'.waits = s.waits ∧ s'.pushes = s.pushes
        ∧ s'.releases = s.releases) → WaitInv s' := by
    intro p' hp' hpc' hsame'
    refine h.move hh hq hpc' hsame' (fun v => ?_) (fun v _ => ?_) (fun v hv => hv.elim)
    · rw [hpc]
      show (me = some v ∧ p'.inWait = true) ↔ (me = some v ∧ p.inWait = true)
      rw [hp']
    · rw [hpc]
      rfl
  have hout : p.inWait = false ∨ me = none → ∀ v, ¬Waiting (s.pc a) v := by
    intro hp v hv
    rw [hpc] at hv
    rcases hp with hp | hp
    · rw [hv.2] at hp
      cases hp
    · rw [hv.1] at hp
      cases hp
  cases hs with
  | quiet st n q p' hq' => exact hmove p' hq'.inWait rfl hsame
  | install op hp hnone =>
      subst hp
      exact hmove op.body (by cases op <;> rfl) rfl hsame
  | arm v hme hp =>
      subst hp
      exact hmove .waitLoad rfl rfl hsame
  | push v q hme hp =>
      subst hme hp
      exact h.push hpc rfl hh hq
  | empty q p' hq' hp =>
      exact hmove p' (by rcases hp with ⟨rfl, rfl⟩ | ⟨rfl, rfl⟩ <;> rfl) rfl hsame
  | wake w p' hp =>
      exact hmove p' (by rcases hp with ⟨rfl, rfl⟩ | ⟨rfl, rfl⟩ <;> rfl) rfl hsame
  | acquire k hp hc =>
      -- the mutex was free, so nobody was waiting
      refine h.none_waiting (fun x v hx => ?_) (fun x => ?_) hh hq
        (fun _ => Function.update_self () true s.c) ⟨rfl, rfl, rfl⟩
      · have hl := h.locked (by rw [(h.owns x v hx).holder]; exact Option.some_ne_none _)
        rw [hc] at hl
        cases hl
      · by_cases hxa : x = a
        · subst hxa
          refine .inr fun v => ?_
          show ¬Waiting (update s.pc x (.exec me (.cont .user)) x) v
            ∧ ¬Left (update s.pc x (.exec me (.cont .user)) x) v
          rw [Function.update_self]
          exact ⟨fun hv => (by cases hv.2), id⟩
        · exact .inl (Function.update_of_ne hxa _ _)
  | yield k k' hp =>
      have hno := hout (.inl (by rw [hp]; rfl))
      refine h.move hh hq rfl hsame (fun v => iff_of_false ?_ (hno v)) ?_ ?_
      · cases me with
        | none => exact id
        | some w => exact fun hv => by cases hv.2
      · cases me with
        | none => exact fun v hv => hv.elim
        | some w => exact fun v hv => by cases hv.2
      · cases me <;> exact fun v hv => hv.elim
  | crash hp hhand =>
      have hno : ∀ v, ¬Waiting (s.pc a) v := by
        intro v hv
        rcases hp with hme | ⟨hnone, hload⟩
        · exact hout (.inr hme) v hv
        · refine h.queues.past a me p hpc ?_ hnone
          cases p <;> first | rfl | cases hload
      exact h.move hh hq rfl hsame (fun v => iff_of_false id (hno v)) (fun v hv => hv.elim)
        (fun v hv => hv.elim)

theorem waitInv_step {s s' : CondState A V} {act : CondAct A V} (h : WaitInv s)
    (hok : Disciplined s act) (hs : condStep s act = some s') : WaitInv s' := by
  have hh : Handed (fun v => s.releases v = 0) s' :=
    handed_step h.handed (fun a v _ hv h0 => by
      have := h.left a v (hv ▸ rfl)
      omega) hs
  have heff := condStep_effect hs
  have hq := queues_step h.queues heff
  have hsame : s.c = s.c ∧ s.holder = s.holder ∧ s.waits = s.waits ∧ s.pushes = s.pushes
      ∧ s.releases = s.releases := ⟨rfl, rfl, rfl, rfl, rfl⟩
  cases heff with
  | call a me f hpc =>
      have hno : ∀ v, ¬Waiting (s.pc a) v := fun v hv => by
        rw [hpc] at hv
        cases hv.2
      cases f with
      | condWait =>
          cases me with
          | none =>
              exact h.move hh hq rfl hsame
                (fun v => iff_of_false (fun hv => by cases hv.1) (hno v))
                (fun v hv => by cases hv.1) (fun v hv => hv.elim)
          | some v =>
              obtain ⟨hholder, hwaits⟩ := hok.wait a v _ rfl hpc
              exact h.call hpc hholder hwaits (hok.followed v _ hpc) hh hq
      | condSignal | condBroadcast | mutexLock =>
          exact h.move hh hq rfl hsame (fun v => iff_of_false (fun hv => by cases hv.2) (hno v))
            (fun v hv => by cases hv.2) (fun v hv => hv.elim)
      | mutexUnlock =>
          have hholder := hok.unlock a me _ rfl hpc
          refine h.none_waiting (fun x v hx => ?_) (fun _ => .inl rfl) hh hq
            (fun hn => absurd rfl hn) ⟨rfl, rfl, rfl⟩
          -- the waiter would be the caller, which is not in a wait
          have hv := (h.owns x v hx).holder
          rw [hholder] at hv
          cases me with
          | none => cases hv
          | some w =>
              obtain rfl : w = v := Caller.vthread.inj (Option.some.inj hv)
              have hact : (s.pc a).Active condShape w := hpc ▸ ⟨rfl, rfl⟩
              obtain rfl := h.waiting_unique hx (.inr hact)
              exact hno w hx
      | schedYield =>
          refine h.move hh hq rfl hsame (fun v => iff_of_false ?_ (hno v)) ?_ ?_
          · cases me with
            | none => exact id
            | some w => exact fun hv => by cases hv.2
          · cases me with
            | none => exact fun v hv => hv.elim
            | some w => exact fun v hv => by cases hv.2
          · cases me <;> exact fun v hv => hv.elim
  | pop a me w q p p' hpc hw hp =>
      refine h.move hh hq rfl hsame (fun v => ?_) (fun v hv => ?_) (fun v hv => hv.elim)
      · rw [hpc]
        rcases hp with ⟨rfl, rfl⟩ | ⟨rfl, rfl⟩ <;> exact Iff.rfl
      · rw [hpc]
        rfl
  | dequeue a v hpc =>
      exact h.move hh hq rfl hsame (fun v => by rw [hpc]; exact Iff.rfl) (fun v hv => hv.elim)
        (fun v hv => hv.elim)
  | code a me p s' hpc hcode => exact waitInv_code h hpc hcode hh hq
  | release a v hpc => exact h.release hpc rfl hh hq
  | move a q run k n p' hmove =>
      refine h.move hh hq rfl hsame (fun v => ?_) (fun v hv => ?_) (fun v hv => ?_)
      · generalize s.pc a = p₀ at hmove
        cases hmove with
        | plain hexec hswitch hret hfin hp' =>
            have hno : ¬Waiting p₀ v := by
              intro hv
              cases p₀ with
              | exec me c => exact hexec me c rfl
              | switch w r k => exact hswitch w r k rfl
              | ret w r =>
                  obtain ⟨-, rfl⟩ := hv
                  exact hret w () rfl
              | _ => exact hv.elim
            refine iff_of_false ?_ hno
            rcases hp' with rfl | ⟨w, rfl⟩ | ⟨w, rfl⟩ <;> exact id
        | resume w k => exact iff_of_false (fun hv => by cases hv.2) id
        | finish w => exact iff_of_false id fun hv => by cases hv.2
        | _ => exact Iff.rfl
      · generalize s.pc a = p₀ at hmove
        cases hmove with
        | plain hexec hswitch hret hfin hp' =>
            rcases hp' with rfl | ⟨w, rfl⟩ | ⟨w, rfl⟩ <;> exact hv.elim
        | resume w k => cases hv.2
        | switchOut w r k => rfl
        | _ => exact hv.elim
      · generalize s.pc a = p₀ at hmove
        cases hmove with
        | plain hexec hswitch hret hfin hp' =>
            rcases hp' with rfl | ⟨w, rfl⟩ | ⟨w, rfl⟩ <;> exact hv.elim
        | settle w => exact hv
        | own w => exact hv
        | _ => exact hv.elim

theorem waitInv_keeps : (condvar (A := A) (V := V)).Keeps Disciplined WaitInv where
  start s hs := by
    have honce := condvar_keeps.start s hs
    obtain ⟨raw, ready, hnd, rfl⟩ := hs
    refine ⟨⟨honce.handed.custody.mono fun _ _ => trivial,
        honce.handed.handshake.mono fun _ _ => trivial,
        fun a me p w _ => honce.handed.distinct a me p w trivial⟩,
      queues_init raw ready,
      fun hn => absurd rfl hn, fun a v hv => ?_, fun v hv => (by cases hv),
      fun v => ⟨Nat.zero_le 1, Nat.le_refl 0, Nat.le_refl 0⟩, fun a v hv => ?_⟩
    · rcases condInit_pc raw ready a with h | h
      · rw [h] at hv
        exact hv.elim
      · rw [h] at hv
        cases hv.1
    · rcases condInit_pc raw ready a with h | h
      · rw [h] at hv
        exact hv.elim
      · rw [h] at hv
        exact hv.elim
  step _ _ _ h hok hs := waitInv_step h hok hs

end HThread.Cond
