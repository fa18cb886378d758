/-
  HThread.Cond.HandOff — every waiter is handed over once, but for line 162.

  A waker pops a waiter from `blocked_vths` and enqueues it in `vs_queue`.  The
  worker of the waiter, after it has released the mutex, looks at `cur_status`
  and enqueues the same vthread again when it reads `STATUS_SUSPENDED`, which
  `pthread_cond_signal` stores before its own enqueue.

  Main results:
    * `handOff_iff` — throughout a run every popped waiter is enqueued exactly
      once and run by one worker, iff no worker takes the enqueue of line 162.
    * `signal_in_window` — a run in which a waiter is signalled between its
      switch and the look at `cur_status`: two workers run it.
-/
import HThread.Cond.Condvar

namespace HThread.Cond

open Interleave
open Function (update)

variable {A V : Type} [DecidableEq A] [DecidableEq V]

/-! ## §1. The wait queues hand vthreads over. -/

/-- Every tracked vthread is in one place. -/
def Handed (T : V → Prop) (s : CondState A V) : Prop :=
  HandOff T condShape s.pc s.vsQueue s.runnable s.queue

theorem handed_code {T : V → Prop} {s s' : CondState A V} {a : A} {me : Option V} {p : CondPc V}
    (h : Handed T s) (hpc : s.pc a = .exec me p) (hs : CodeEffect s a me p s') : Handed T s' := by
  cases hs with
  | quiet st n q p' hq => exact HandOff.next h hpc (.inr hq.hand) hq.armed
  | install op hp hnone =>
      subst hp
      exact HandOff.next h hpc (by cases op <;> exact .inl rfl) (by cases op <;> rfl)
  | arm v hme hp =>
      subst hme hp
      exact HandOff.arm h hpc rfl rfl rfl
  | push v q hme hp =>
      subst hme hp
      exact HandOff.push h hpc rfl rfl
  | empty q p' hq hp =>
      rcases hp with ⟨rfl, rfl⟩ | ⟨rfl, rfl⟩
      · exact HandOff.next h hpc (.inl rfl) rfl
      · exact HandOff.next h hpc (.inl rfl) rfl
  | wake w p' hp =>
      rcases hp with ⟨rfl, rfl⟩ | ⟨rfl, rfl⟩
      · exact HandOff.wake h hpc rfl rfl rfl
      · exact HandOff.wake h hpc rfl rfl rfl
  | acquire k hp hc =>
      subst hp
      exact HandOff.next h hpc (.inl rfl) rfl
  | yield k k' hp =>
      subst hp
      exact HandOff.yield h hpc rfl rfl
  | crash hp hhand => exact HandOff.crash h

theorem handed_call {T : V → Prop} {s : CondState A V} {a : A} {me : Option V} {f : CondCall}
    (h : Handed T s) (hpc : s.pc a = .exec me (.cont .user)) : Handed T (condCall s a me f) := by
  cases f with
  | condWait | condSignal | condBroadcast | mutexLock => exact HandOff.next h hpc (.inl rfl) rfl
  | mutexUnlock => exact h
  | schedYield => exact HandOff.yield h hpc rfl rfl

theorem handed_pop {T : V → Prop} {s s' : CondState A V} {a : A} {me : Option V} {w : V}
    {p : CondPc V} (h : Handed T s) (hpc : s.pc a = .exec me p)
    (hs : popBlocked s a me w p = some s') : Handed T s' := by
  obtain ⟨q, p', hw, hp, rfl⟩ := popBlocked_cases hs
  rcases hp with ⟨rfl, rfl⟩ | ⟨rfl, rfl⟩
  · exact HandOff.pop h hpc hw rfl rfl
  · exact HandOff.pop h hpc hw rfl rfl

theorem handed_worker {T : V → Prop} {s s' : CondState A V} {a : A} (h : Handed T s)
    (hwake : ∀ v, s.pc a = .wakeSelf v → ¬T v) (hs : condWorker s a = some s') :
    Handed T s' := by
  simp only [condWorker, Option.map_eq_some_iff] at hs
  obtain ⟨σ, hσ, rfl⟩ := hs
  exact HandOff.worker h hwake hσ

/-- A step keeps tracked vthreads in one place, unless it is the enqueue at line
    162 of one of them. -/
theorem handed_step {T : V → Prop} {s s' : CondState A V} {act : CondAct A V} (h : Handed T s)
    (hwake : ∀ a v, act = .go a → s.pc a = .wakeSelf v → ¬T v) (hs : condStep s act = some s') :
    Handed T s' := by
  cases act with
  | call a f =>
      simp only [condStep] at hs
      split at hs
      · next me hpc =>
          obtain rfl := Option.some.inj hs
          exact handed_call h hpc
      · cases hs
  | pick a v =>
      simp only [condStep] at hs
      split at hs
      · next me p hpc => exact handed_pop h hpc hs
      · rw [Option.map_eq_some_iff] at hs
        obtain ⟨σ, hσ, rfl⟩ := hs
        exact HandOff.getAndWork h hσ
  | go a =>
      simp only [condStep] at hs
      split at hs
      · next me p hpc => exact handed_code h hpc (condCode_effect hs)
      · exact handed_worker h (fun v hv => hwake a v rfl hv) hs

/-! ## §2. Pops and enqueues. -/

/-- Every pop of `v` is answered by one enqueue: its waker's or that of line 162. -/
def Answered (s : CondState A V) (v : V) : Prop :=
  Settled condShape s.pc s.pops (fun v => s.puts v + s.selfPuts v) v

/-- An enqueue by a waker counts as one. -/
theorem puts_add (puts selfPuts : V → ℕ) (w : V) :
    (fun v => update puts w (puts w + 1) v + selfPuts v)
      = update (fun v => puts v + selfPuts v) w (puts w + selfPuts w + 1) := by
  funext v
  by_cases hv : v = w
  · subst hv
    rw [Function.update_self, Function.update_self]
    omega
  · rw [Function.update_of_ne hv, Function.update_of_ne hv]

theorem answered_code {s s' : CondState A V} {a : A} {me : Option V} {p : CondPc V}
    (hh : Handed (fun _ => True) s) (h : ∀ v, Answered s v) (hpc : s.pc a = .exec me p)
    (hs : CodeEffect s a me p s') (v : V) : Answered s' v := by
  have hsame : ∀ p', condShape.hand p' = condShape.hand p →
      ((Pc.exec me p' : Pc V (CondPc V) CondCont Unit).InHand condShape v
        ↔ (s.pc a).InHand condShape v) := by
    intro p' hp'
    rw [hpc]
    show condShape.hand p' = some v ↔ condShape.hand p = some v
    rw [hp']
  have hleave : ∀ q : Pc V (CondPc V) CondCont Unit, condShape.hand p = none →
      ¬q.InHand condShape v → (q.InHand condShape v ↔ (s.pc a).InHand condShape v) := by
    intro q hp hq
    refine iff_of_false hq fun hv => ?_
    rw [hpc] at hv
    have hn : condShape.hand p = some v := hv
    rw [hp] at hn
    cases hn
  cases hs with
  | quiet st n q p' hq => exact Settled.stay (h v) (hsame p' hq.hand)
  | install op hp hnone =>
      subst hp
      exact Settled.stay (h v) (hsame _ (by cases op <;> rfl))
  | arm w hme hp =>
      subst hp
      exact Settled.stay (h v) (hsame _ rfl)
  | push w q hme hp =>
      subst hp
      exact Settled.stay (h v) (hleave _ rfl id)
  | empty q p' hq hp =>
      rcases hp with ⟨rfl, rfl⟩ | ⟨rfl, rfl⟩
      · exact Settled.stay (h v) (hsame _ rfl)
      · exact Settled.stay (h v) (hsame _ rfl)
  | wake w p' hp =>
      have hhand : condShape.hand p = some w ∧ condShape.hand p' = none := by
        rcases hp with ⟨rfl, rfl⟩ | ⟨rfl, rfl⟩ <;> exact ⟨rfl, rfl⟩
      show Settled condShape (update s.pc a (.exec me p')) s.pops
        (fun v => update s.puts w (s.puts w + 1) v + s.selfPuts v) v
      rw [puts_add]
      refine Settled.give hh.custody trivial (h v) hpc hhand.1 fun x hx => ?_
      have hn : condShape.hand p' = some x := hx
      rw [hhand.2] at hn
      cases hn
  | acquire k hp hc =>
      subst hp
      exact Settled.stay (h v) (hsame _ rfl)
  | yield k k' hp =>
      subst hp
      refine Settled.stay (h v) (hleave _ rfl ?_)
      cases me <;> exact id
  | crash hp hhand => exact Settled.stay (h v) (hleave _ hhand id)

theorem answered_call {s : CondState A V} {a : A} {me : Option V} {f : CondCall} {v : V}
    (h : Answered s v) (hpc : s.pc a = .exec me (.cont .user)) :
    Answered (condCall s a me f) v := by
  have hno : ¬(s.pc a).InHand condShape v := by
    rw [hpc]
    intro hv
    cases hv
  cases f with
  | condWait | condSignal | condBroadcast | mutexLock =>
      exact Settled.stay h (iff_of_false (fun hv => by cases hv) hno)
  | mutexUnlock => exact h
  | schedYield =>
      refine Settled.stay h (iff_of_false ?_ hno)
      cases me <;> exact id

theorem answered_pop {s s' : CondState A V} {a : A} {me : Option V} {w : V} {p : CondPc V}
    (hh : Handed (fun _ => True) s) (h : ∀ v, Answered s v) (hpc : s.pc a = .exec me p)
    (hs : popBlocked s a me w p = some s') (v : V) : Answered s' v := by
  obtain ⟨q, p', hw, hp, rfl⟩ := popBlocked_cases hs
  rcases hp with ⟨rfl, rfl⟩ | ⟨rfl, rfl⟩
  · exact Settled.pop (b := some q) hh.custody trivial (h v) hpc rfl hw rfl
  · exact Settled.pop (b := some q) hh.custody trivial (h v) hpc rfl hw rfl

/-- A worker's step leaves hands alone; line 162 alone changes a count. -/
theorem worker_counts {s s' : CondState A V} {a : A} (hs : condWorker s a = some s') :
    (∀ x v, (s'.pc x).InHand condShape v ↔ (s.pc x).InHand condShape v)
      ∧ s'.pops = s.pops ∧ s'.puts = s.puts
      ∧ s'.selfPuts = (s.pc a).countSelf s.selfPuts := by
  simp only [condWorker, Option.map_eq_some_iff] at hs
  obtain ⟨σ, hσ, rfl⟩ := hs
  obtain ⟨hin, hself⟩ := worker_inHand condShape (fun _ _ => id) hσ
  exact ⟨hin, rfl, rfl, hself⟩

/-! ## §3. Exactly once. -/

/-- What a hand-off should be: a vthread occurs at most once in `vs_queue`, never
    while it also waits un-popped, is run by one agent, and each of its pops is
    answered by one enqueue. -/
structure HandedOnce (s : CondState A V) : Prop where
  once : ∀ v, s.vsQueue.count v ≤ 1
  apart : ∀ v q, v ∈ s.queue q → v ∉ s.vsQueue
  alone : ∀ v a a', (s.pc a).Runs v → (s.pc a').Runs v → a = a'
  answered : ∀ v, Answered s v

/-- The step is not the enqueue at line 162 of worker_routine. -/
def SkipsOwnEnqueue (s : CondState A V) : CondAct A V → Prop
  | .go a => ∀ v, s.pc a ≠ .wakeSelf v
  | _ => True

/-- What runs without that enqueue keep. -/
structure Once (s : CondState A V) : Prop where
  handed : Handed (fun _ => True) s
  answered : ∀ v, Answered s v

omit [DecidableEq A] in
theorem Once.handedOnce {s : CondState A V} (h : Once s) : HandedOnce s where
  once v := h.handed.custody.count_le none trivial
  apart v q hq hv := by
    have hb : some q = none := h.handed.custody.bag_unique trivial hq hv
    cases hb
  alone v a a' ha ha' := h.handed.runs_unique trivial ha ha'
  answered := h.answered

theorem once_step {s s' : CondState A V} {act : CondAct A V} (h : Once s)
    (hok : SkipsOwnEnqueue s act) (hs : condStep s act = some s') : Once s' := by
  refine ⟨handed_step h.handed (fun a v ha hv => ?_) hs, ?_⟩
  · subst ha
    exact absurd hv (hok v)
  · cases act with
    | call a f =>
        simp only [condStep] at hs
        split at hs
        · next me hpc =>
            obtain rfl := Option.some.inj hs
            exact fun v => answered_call (h.answered v) hpc
        · cases hs
    | pick a w =>
        simp only [condStep] at hs
        split at hs
        · next me p hpc => exact answered_pop h.handed h.answered hpc hs
        · rw [Option.map_eq_some_iff] at hs
          obtain ⟨σ, hσ, rfl⟩ := hs
          obtain ⟨hin, hself⟩ := getAndWork_inHand condShape hσ
          intro v
          refine Settled.of_iff (h.answered v) (fun x => hin x v) rfl ?_
          show s.puts v + σ.selfPuts v = s.puts v + s.selfPuts v
          rw [hself]
    | go a =>
        simp only [condStep] at hs
        split at hs
        · next me p hpc => exact answered_code h.handed h.answered hpc (condCode_effect hs)
        · obtain ⟨hin, hpops, hputs, hself⟩ := worker_counts hs
          have hsame : s'.selfPuts = s.selfPuts := by
            rw [hself]
            cases hpc : s.pc a with
            | wakeSelf v => exact absurd hpc (hok v)
            | _ => rfl
          intro v
          refine Settled.of_iff (h.answered v) (fun x => hin x v) (by rw [hpops]) ?_
          show s'.puts v + s'.selfPuts v = s.puts v + s.selfPuts v
          rw [hputs, hsame]

theorem condvar_keeps : (condvar (A := A) (V := V)).Keeps SkipsOwnEnqueue Once where
  start s hs := by
    obtain ⟨raw, ready, hnd, rfl⟩ := hs
    have hpc : ∀ a, (condInit (V := V) raw ready).pc a = .top
        ∨ ∃ c, (condInit (V := V) raw ready).pc a = .exec none c ∧ condShape.hand c = none := by
      intro a
      cases hr : raw a with
      | true => exact .inr ⟨.cont .user, by simp [condInit, hr], rfl⟩
      | false => exact .inl (by simp [condInit, hr])
    refine ⟨HandOff.start hpc hnd fun _ => rfl, fun v => .inl ⟨?_, rfl⟩⟩
    rintro ⟨a, ha⟩
    rcases hpc a with h | ⟨c, h, hc⟩
    · rw [h] at ha
      exact ha
    · rw [h] at ha
      have hn : condShape.hand c = some v := ha
      rw [hc] at hn
      cases hn
  step _ _ _ h hok hs := once_step h hok hs

/-- Line 162 answers no pop. -/
theorem not_handedOnce_of_ownEnqueue {s s' : CondState A V} {act : CondAct A V} (h : Once s)
    (hno : ¬SkipsOwnEnqueue s act) (hs : condStep s act = some s') : ¬HandedOnce s' := by
  cases act with
  | call a f => exact absurd trivial hno
  | pick a w => exact absurd trivial hno
  | go a =>
      simp only [SkipsOwnEnqueue, not_forall, not_not] at hno
      obtain ⟨v, hv⟩ := hno
      simp only [condStep, hv] at hs
      obtain ⟨hin, hpops, hputs, hself⟩ := worker_counts hs
      rw [hv] at hself
      intro hP
      refine Settled.not_extra (h.answered v) (fun x => hin x v) ?_
      have hv' := hP.answered v
      unfold Answered at hv'
      rw [hpops, hputs, hself] at hv'
      refine Settled.of_iff hv' (fun _ => Iff.rfl) rfl ?_
      rw [Function.update_self]
      show s.puts v + s.selfPuts v + 1 = s.puts v + update s.selfPuts v (s.selfPuts v + 1) v
      rw [Function.update_self]
      omega

/-- **The exact condition.**  Throughout a run each popped waiter is put into
    `vs_queue` once, sits there once and is run by one agent, iff no step of the
    run is the enqueue of line 162. -/
theorem handOff_iff {s t : CondState A V} {acts : List (CondAct A V)} (hs : condvar.init s)
    (hrun : condvar.run s acts = some t) :
    condvar.Always HandedOnce s acts ↔ condvar.StepsMeet SkipsOwnEnqueue s acts :=
  Machine.always_iff_stepsMeet condvar_keeps (fun _ => Once.handedOnce)
    (fun _ _ _ => not_handedOnce_of_ownEnqueue) hs hrun

/-! ## §4. A signal in the window. -/

/-- Three workers and two vthreads in the run queue. -/
def threeWorkers : CondState (Fin 3) (Fin 2) := condInit (fun _ => false) [0, 1]

/-- Worker `a` dequeues vthread `v` and switches to it. -/
def runActs (a : Fin 3) (v : Fin 2) : List (CondAct (Fin 3) (Fin 2)) := [.pick a v, .go a, .go a]

/-- Vthread 0 takes the mutex and waits, up to the release of the mutex by its
    worker 0. -/
def waitActs : List (CondAct (Fin 3) (Fin 2)) :=
  runActs 0 0 ++ [.call 0 .mutexLock, .go 0, .call 0 .condWait] ++ List.replicate 9 (.go 0)

/-- Vthread 1, on worker 1, takes the mutex and signals. -/
def signalActs : List (CondAct (Fin 3) (Fin 2)) :=
  runActs 1 1 ++ [.call 1 .mutexLock, .go 1, .call 1 .condSignal, .go 1, .go 1, .pick 1 0, .go 1,
    .go 1, .go 1]

/-- The waiter is signalled after the release; no worker comes to line 162. -/
def calmActs : List (CondAct (Fin 3) (Fin 2)) :=
  waitActs ++ [.go 0, .go 0] ++ signalActs ++ runActs 2 0

/-- The signal comes before worker 0 looks at `cur_status`, and all steps of
    worker 0 after that; then workers 0 and 2 dequeue the waiter. -/
def windowActs : List (CondAct (Fin 3) (Fin 2)) :=
  waitActs ++ signalActs ++ [.go 0, .go 0, .go 0] ++ runActs 0 0 ++ runActs 2 0

theorem threeWorkers_init : condvar.init threeWorkers :=
  ⟨_, _, by decide, rfl⟩

theorem handOff_iff_calm :
    ∃ t, condvar.run threeWorkers calmActs = some t ∧ t.pops 0 = 1 ∧ t.puts 0 = 1
      ∧ t.selfPuts 0 = 0
      ∧ (condvar.Always HandedOnce threeWorkers calmActs ↔
          condvar.StepsMeet SkipsOwnEnqueue threeWorkers calmActs) :=
  ⟨_, rfl, rfl, rfl, rfl, handOff_iff threeWorkers_init (t := _) rfl⟩

/-- One pop, two enqueues, two workers on the stack of vthread 0. -/
theorem signal_in_window :
    ∃ t, condvar.init threeWorkers ∧ condvar.run threeWorkers windowActs = some t
      ∧ t.pops 0 = 1 ∧ t.puts 0 = 1 ∧ t.selfPuts 0 = 1
      ∧ (t.pc 0).Runs 0 ∧ (t.pc 2).Runs 0
      ∧ ¬condvar.Always HandedOnce threeWorkers windowActs := by
  refine ⟨_, threeWorkers_init, rfl, rfl, rfl, rfl, rfl, rfl, fun hA => ?_⟩
  have h02 := (hA.last rfl).alone 0 0 2 rfl rfl
  exact absurd h02 (by decide)

end HThread.Cond
