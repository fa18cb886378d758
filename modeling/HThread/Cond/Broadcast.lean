/-
  HThread.Cond.Broadcast — `pthread_cond_broadcast` against repeated
  `pthread_cond_signal`, when nobody else acts.

  The two functions wake a waiter in different ways: the signal stores
  STATUS_SUSPENDED in the waiter's `cur_status`, the broadcast, after its loop,
  in the caller's own.  A caller on its own is the machine of
  HThread.Cond.Condvar driven by its next step, where a pop hands out the oldest
  entry.

  Key lemmas:
    * `signal_leaves`, `signals_leave` — what one signal, and as many as there
      are waiters, leave behind.
    * `wakeAll_reaches` — the loop of the broadcast.
  Main result:
    * `broadcast_iff` — from which states the broadcast does what the signals do.
-/
import HThread.Cond.Waiting

namespace HThread.Cond

open Interleave
open Function (update)

variable {A V : Type} [DecidableEq A] [DecidableEq V]

/-! ## §1. A caller on its own. -/

/-- The vthreads in `blocked_vths`, the oldest first. -/
def CondState.blocked (s : CondState A V) : List V :=
  match s.blockedVths with
  | some q => s.queue q
  | none => []

/-- The next action of agent `a`. -/
def aloneNext (a : A) (s : CondState A V) : CondAct A V :=
  match s.pc a with
  | .exec _ (.sigPop q) | .exec _ (.bcPop q) =>
      match s.queue q with
      | [] => .go a
      | w :: _ => .pick a w
  | _ => .go a

/-- The steps of agent `a` when nobody else acts. -/
def alone (a : A) : CondState A V → Option (CondState A V) := condvar.drive (aloneNext a)

/-- Agent `a`, in the code of `me`, calls `f` in state `s`: alone, it comes to the
    end of the call, in state `t`. -/
def Leaves (a : A) (me : Option V) (f : CondCall) (s t : CondState A V) : Prop :=
  Machine.Ends (alone a) (condCall s a me f) t ∧ t.pc a = .exec me (.cont .user)

/-- Agent `a` calls `pthread_cond_signal` until `blocked_vths` is empty. -/
inductive SignalsLeave (a : A) (me : Option V) : CondState A V → CondState A V → Prop
  | done (s) (h : s.blocked = []) : SignalsLeave a me s s
  | more (s r t) (h : s.blocked ≠ []) (hone : Leaves a me .condSignal s r)
      (hrest : SignalsLeave a me r t) : SignalsLeave a me s t

/-- What the waiters of `s` and the workers find afterwards is the same. -/
structure Alike (s t u : CondState A V) : Prop where
  vsQueue : t.vsQueue = u.vsQueue
  blocked : t.blocked = u.blocked
  waiterNum : t.waiterNum = u.waiterNum
  curStatus : ∀ w ∈ s.blocked, t.curStatus w = u.curStatus w
  runnable : ∀ w ∈ s.blocked, t.runnable w = u.runnable w

/-- A queue that is still to be allocated is empty when it is. -/
def CondState.Fresh (s : CondState A V) : Prop := s.blockedVths = none → s.queue s.nextQueue = []

omit [DecidableEq V] in
theorem goto_pc (s : CondState A V) (a : A) (p : Pc V (CondPc V) CondCont Unit) :
    (s.goto a p).pc a = p := Function.update_self ..

/-- At one of the two pops. -/
def CondPc.pops : CondPc V → Bool
  | .sigPop _ | .bcPop _ => true
  | _ => false

/-- Elsewhere the next action of agent `a` is the next step of the code. -/
theorem alone_code {a : A} {me : Option V} {p : CondPc V} {s : CondState A V}
    (hpc : s.pc a = .exec me p) (hp : p.pops = false) : alone a s = condCode s a me p := by
  have hnext : aloneNext a s = .go a := by
    unfold aloneNext
    rw [hpc]
    cases p with
    | sigPop q | bcPop q => cases hp
    | _ => rfl
  show condStep s (aloneNext a s) = _
  rw [hnext]
  simp only [condStep, hpc]

/-- At a pop it takes the oldest waiter. -/
theorem alone_pop {a : A} {me : Option V} {p p' : CondPc V} {s : CondState A V} {q : ℕ} {w : V}
    {ws : List V} (hp : p = .sigPop q ∧ p' = .sigNum w ∨ p = .bcPop q ∧ p' = .bcNum w)
    (hw : s.queue q = w :: ws) :
    alone a (s.goto a (.exec me p)) = some ({ s with
      queue := update s.queue q ws
      pops := update s.pops w (s.pops w + 1)
      used := s.used ++ [q] }.goto a (.exec me p')) := by
  have hnext : aloneNext a (s.goto a (.exec me p)) = .pick a w := by
    unfold aloneNext
    rw [goto_pc]
    rcases hp with ⟨rfl, -⟩ | ⟨rfl, -⟩
    · simp only [CondState.goto, hw]
    · simp only [CondState.goto, hw]
  show condStep (s.goto a (.exec me p)) (aloneNext a (s.goto a (.exec me p))) = _
  rw [hnext]
  rcases hp with ⟨rfl, rfl⟩ | ⟨rfl, rfl⟩
  · simp only [condStep, popBlocked, CondState.goto, hw, Function.update_self, Function.update_idem,
      List.mem_cons_self, if_true, List.erase_cons_head]
  · simp only [condStep, popBlocked, CondState.goto, hw, Function.update_self, Function.update_idem,
      List.mem_cons_self, if_true, List.erase_cons_head]

theorem Leaves.unique {a : A} {me : Option V} {f : CondCall} {s t u : CondState A V}
    (ht : Leaves a me f s t) (hu : Leaves a me f s u) : t = u :=
  ht.1.unique hu.1

theorem SignalsLeave.unique {a : A} {me : Option V} {s t u : CondState A V}
    (ht : SignalsLeave a me s t) (hu : SignalsLeave a me s u) : t = u := by
  induction ht with
  | done s h =>
      cases hu with
      | done => rfl
      | more _ _ _ hne => exact absurd h hne
  | more s r t h hone _ ih =>
      cases hu with
      | done _ hnil => exact absurd hnil h
      | more _ r' _ _ hone' hrest' =>
          obtain rfl : r = r' := hone.unique hone'
          exact ih hrest'

/-- Back in the program, the call is over. -/
theorem leaves_of_stepN {a : A} {me : Option V} {f : CondCall} {s t : CondState A V} {n : ℕ}
    (h : Machine.stepN (alone a) n (condCall s a me f) = some t)
    (hpc : t.pc a = .exec me (.cont .user)) : Leaves a me f s t := by
  refine ⟨⟨⟨n, h⟩, ?_⟩, hpc⟩
  simp [alone, Machine.drive, aloneNext, condvar, condStep, hpc, condCode, pthreadCondWait]

/-- What a caller does alone is a run of the condvar. -/
theorem Leaves.reachable {a : A} {me : Option V} {f : CondCall} {s t : CondState A V}
    (h : Leaves a me f s t) (hr : condvar.Reachable s) (hpc : s.pc a = .exec me (.cont .user)) :
    condvar.Reachable t := by
  have hcall : condvar.step s (.call a f) = some (condCall s a me f) := by
    simp [condvar, condStep, hpc]
  obtain ⟨n, hn⟩ := h.1.1
  exact (hr.step hcall).drive hn

theorem fresh_of_reachable {s : CondState A V} (hr : condvar.Reachable s) : s.Fresh := by
  intro hnone
  have hqueues := queues_keeps.reachable hr
  exact hqueues.empty s.nextQueue (by rw [hnone]; exact (Option.some_ne_none _).symm)

/-! ## §2. The signal. -/

/-- One signal takes the oldest waiter. -/
theorem signal_leaves (a : A) (me : Option V) {s : CondState A V} {q : ℕ} {w : V} {ws : List V}
    (hq : s.blockedVths = some q) (hw : s.queue q = w :: ws) :
    Leaves a me .condSignal s { s with
      queue := update s.queue q ws
      pops := update s.pops w (s.pops w + 1)
      used := s.used ++ [q]
      waiterNum := s.waiterNum - 1
      curStatus := update s.curStatus w .suspended
      vsQueue := s.vsQueue ++ [w]
      puts := update s.puts w (s.puts w + 1)
      pc := update s.pc a (.exec me (.cont .user)) } := by
  -- up to the pop
  have hread : alone a (s.goto a (.exec me (.readQueue .signal)))
      = some (s.goto a (.exec me .sigLoad)) := by
    rw [alone_code (goto_pc ..) rfl]
    simp only [condCode, allocQueue, CondState.goto, hq, Function.update_idem]
    rfl
  have hload : alone a (s.goto a (.exec me .sigLoad)) = some (s.goto a (.exec me (.sigPop q))) := by
    rw [alone_code (goto_pc ..) rfl]
    simp only [condCode, pthreadCondSignal, CondState.goto, hq, Function.update_idem]
  -- the vthread in hand
  have hnum : ∀ r : CondState A V, alone a (r.goto a (.exec me (.sigNum w)))
      = some ({ r with waiterNum := r.waiterNum - 1 }.goto a (.exec me (.sigStatus w))) := by
    intro r
    rw [alone_code (goto_pc ..) rfl]
    simp only [condCode, pthreadCondSignal, CondState.goto, Function.update_idem]
  have hstatus : ∀ r : CondState A V, alone a (r.goto a (.exec me (.sigStatus w)))
      = some ((r.setStatus w .suspended).goto a (.exec me (.sigEnqueue w))) := by
    intro r
    rw [alone_code (goto_pc ..) rfl]
    simp only [condCode, pthreadCondSignal, CondState.goto, CondState.setStatus, Function.update_idem]
  have hput : ∀ r : CondState A V, alone a (r.goto a (.exec me (.sigEnqueue w)))
      = some ((r.wake w).goto a (.exec me (.cont .user))) := by
    intro r
    rw [alone_code (goto_pc ..) rfl]
    simp only [condCode, pthreadCondSignal, CondState.goto, CondState.wake, Function.update_idem]
  refine leaves_of_stepN (n := 6) ?_ (Function.update_self ..)
  refine Machine.stepN_cons hread (Machine.stepN_cons hload
    (Machine.stepN_cons (alone_pop (.inl ⟨rfl, rfl⟩) hw) ?_))
  exact Machine.stepN_cons (hnum _) (Machine.stepN_cons (hstatus _) (Machine.stepN_cons (hput _) rfl))

/-- What both ways of waking the vthreads `ws` do. -/
structure WokenUp (s t : CondState A V) (ws : List V) : Prop where
  blocked : t.blocked = []
  vsQueue : t.vsQueue = s.vsQueue ++ ws
  waiterNum : t.waiterNum = s.waiterNum - ws.length
  runnable : t.runnable = s.runnable

/-- As many signals as there are waiters: each waiter's `cur_status` is stored to. -/
theorem signals_leave {a : A} {me : Option V} {q : ℕ} {ws : List V} {s : CondState A V}
    (hq : s.blockedVths = some q) (hws : s.queue q = ws) :
    ∃ u, SignalsLeave a me s u ∧ WokenUp s u ws
      ∧ ∀ w, u.curStatus w = if w ∈ ws then .suspended else s.curStatus w := by
  induction ws generalizing s with
  | nil =>
      have hnil : s.blocked = [] := by
        unfold CondState.blocked
        rw [hq]
        exact hws
      refine ⟨s, .done s hnil, ⟨hnil, (List.append_nil _).symm, (Int.sub_zero _).symm, rfl⟩, fun w => ?_⟩
      rw [if_neg List.not_mem_nil]
  | cons w ws ih =>
      have hne : s.blocked ≠ [] := by
        unfold CondState.blocked
        rw [hq]
        show s.queue q ≠ []
        rw [hws]
        exact List.cons_ne_nil w ws
      have hone := signal_leaves a me hq hws
      obtain ⟨u, hrest, hwoken, hstatus⟩ := ih (s := { s with
        queue := update s.queue q ws
        pops := update s.pops w (s.pops w + 1)
        used := s.used ++ [q]
        waiterNum := s.waiterNum - 1
        curStatus := update s.curStatus w .suspended
        vsQueue := s.vsQueue ++ [w]
        puts := update s.puts w (s.puts w + 1)
        pc := update s.pc a (.exec me (.cont .user)) }) hq (Function.update_self ..)
      refine ⟨u, .more s _ u hne hone hrest, ⟨hwoken.blocked, ?_, ?_, hwoken.runnable⟩, fun x => ?_⟩
      · rw [hwoken.vsQueue]
        show s.vsQueue ++ [w] ++ ws = s.vsQueue ++ w :: ws
        rw [List.append_assoc]
        rfl
      · rw [hwoken.waiterNum, List.length_cons]
        show s.waiterNum - 1 - (ws.length : ℤ) = s.waiterNum - ((ws.length + 1 : ℕ) : ℤ)
        omega
      · rw [hstatus]
        show (if x ∈ ws then Status.suspended else update s.curStatus w .suspended x) = _
        by_cases hx : x = w
        · rw [hx, Function.update_self, ite_self, if_pos List.mem_cons_self]
        · rw [Function.update_of_ne hx]
          simp only [List.mem_cons, hx, false_or]

/-! ## §3. The broadcast. -/

/-- The loop of the broadcast empties the queue and leaves `cur_status` alone. -/
theorem wakeAll_runs {a : A} {me : Option V} {q : ℕ} {ws : List V} {s : CondState A V}
    (hpc : s.pc a = .exec me .bcLoad) (hq : s.blockedVths = some q) (hws : s.queue q = ws) :
    ∃ n t, Machine.stepN (alone a) n s = some t ∧ t.pc a = .exec me .bcStatus ∧ WokenUp s t ws
      ∧ t.curStatus = s.curStatus := by
  have hload : ∀ r : CondState A V, r.pc a = .exec me .bcLoad → r.blockedVths = some q →
      alone a r = some (r.goto a (.exec me (.bcPop q))) := by
    intro r hpc hq
    rw [alone_code hpc rfl]
    simp only [condCode, pthreadCondBroadcast, hq]
  have hnum : ∀ (r : CondState A V) w, alone a (r.goto a (.exec me (.bcNum w)))
      = some ({ r with waiterNum := r.waiterNum - 1 }.goto a (.exec me (.bcEnqueue w))) := by
    intro r w
    rw [alone_code (goto_pc ..) rfl]
    simp only [condCode, pthreadCondBroadcast, CondState.goto, Function.update_idem]
  have hput : ∀ (r : CondState A V) w, alone a (r.goto a (.exec me (.bcEnqueue w)))
      = some ((r.wake w).goto a (.exec me .bcLoad)) := by
    intro r w
    rw [alone_code (goto_pc ..) rfl]
    simp only [condCode, pthreadCondBroadcast, CondState.goto, CondState.wake, Function.update_idem]
  induction ws generalizing s with
  | nil =>
      have hlast : alone a (s.goto a (.exec me (.bcPop q)))
          = some ({ s with used := s.used ++ [q] }.goto a (.exec me .bcStatus)) := by
        unfold alone Machine.drive aloneNext
        simp only [condvar, condStep, condCode, pthreadCondBroadcast, CondState.goto, hws, if_true,
          Function.update_self, Function.update_idem]
      have hrun := Machine.stepN_cons (n := 1) (hload s hpc hq) (Machine.stepN_cons hlast rfl)
      refine ⟨2, _, hrun, Function.update_self .., ⟨?_, (List.append_nil _).symm,
        (Int.sub_zero _).symm, rfl⟩, rfl⟩
      unfold CondState.blocked
      rw [hq]
      exact hws
  -- one turn takes the oldest waiter; induction on the queue
  | cons w ws ih =>
      have hturn : Machine.stepN (alone a) 4 s = some { s with
          queue := update s.queue q ws
          pops := update s.pops w (s.pops w + 1)
          used := s.used ++ [q]
          waiterNum := s.waiterNum - 1
          vsQueue := s.vsQueue ++ [w]
          puts := update s.puts w (s.puts w + 1)
          pc := update s.pc a (.exec me .bcLoad) } := by
        refine Machine.stepN_cons (hload s hpc hq) ?_
        refine Machine.stepN_cons (alone_pop (.inr ⟨rfl, rfl⟩) hws) ?_
        exact Machine.stepN_cons (hnum _ w) (Machine.stepN_cons (hput _ w) rfl)
      obtain ⟨n, t, hrest, htpc, hwoken, hstatus⟩ := ih (s := { s with
        queue := update s.queue q ws
        pops := update s.pops w (s.pops w + 1)
        used := s.used ++ [q]
        waiterNum := s.waiterNum - 1
        vsQueue := s.vsQueue ++ [w]
        puts := update s.puts w (s.puts w + 1)
        pc := update s.pc a (.exec me .bcLoad) }) (Function.update_self ..) hq
        (Function.update_self ..)
      refine ⟨4 + n, t, Machine.stepN_add hturn hrest, htpc,
        ⟨hwoken.blocked, ?_, ?_, hwoken.runnable⟩, hstatus⟩
      · rw [hwoken.vsQueue]
        show s.vsQueue ++ [w] ++ ws = s.vsQueue ++ w :: ws
        rw [List.append_assoc]
        rfl
      · rw [hwoken.waiterNum, List.length_cons]
        show s.waiterNum - 1 - (ws.length : ℤ) = s.waiterNum - ((ws.length + 1 : ℕ) : ℤ)
        omega

/-- The way to the loop; a missing queue is allocated. -/
theorem broadcast_enters (a : A) (me : Option V) {s : CondState A V} (hfresh : s.Fresh) :
    ∃ n r q, Machine.stepN (alone a) n (condCall s a me .condBroadcast) = some r
      ∧ r.pc a = .exec me .bcLoad ∧ r.blockedVths = some q ∧ r.queue q = s.blocked
      ∧ r.vsQueue = s.vsQueue ∧ r.waiterNum = s.waiterNum ∧ r.runnable = s.runnable
      ∧ r.curStatus = s.curStatus := by
  have hcheck : ∀ (r : CondState A V) q, r.blockedVths = some q →
      alone a (r.goto a (.exec me .bcCheck)) = some (r.goto a (.exec me .bcLoad)) := by
    intro r q hq
    rw [alone_code (goto_pc ..) rfl]
    simp only [condCode, pthreadCondBroadcast, CondState.goto, hq, Option.isSome_some, if_true,
      Function.update_idem]
  cases hq : s.blockedVths with
  | some q =>
      have hread : alone a (s.goto a (.exec me (.readQueue .broadcast)))
          = some (s.goto a (.exec me .bcCheck)) := by
        rw [alone_code (goto_pc ..) rfl]
        simp only [condCode, allocQueue, CondState.goto, hq, Function.update_idem]
        rfl
      have hrun : Machine.stepN (alone a) 2 (condCall s a me .condBroadcast) = some { s with
          pc := update s.pc a (.exec me .bcLoad) } :=
        Machine.stepN_cons hread (Machine.stepN_cons (hcheck s q hq) rfl)
      have hblocked : s.queue q = s.blocked := by
        unfold CondState.blocked
        rw [hq]
      exact ⟨2, _, q, hrun, Function.update_self .., hq, hblocked, rfl, rfl, rfl, rfl⟩
  | none =>
      have hread : alone a (s.goto a (.exec me (.readQueue .broadcast)))
          = some (s.goto a (.exec me (.casQueue .broadcast))) := by
        rw [alone_code (goto_pc ..) rfl]
        simp only [condCode, allocQueue, CondState.goto, hq, Function.update_idem]
      have hcas : alone a (s.goto a (.exec me (.casQueue .broadcast)))
          = some ({ s with
            blockedVths := some s.nextQueue
            nextQueue := s.nextQueue + 1 }.goto a (.exec me .bcCheck)) := by
        rw [alone_code (goto_pc ..) rfl]
        simp only [condCode, allocQueue, CondState.goto, hq, Function.update_idem]
        rfl
      have hrun : Machine.stepN (alone a) 3 (condCall s a me .condBroadcast) = some { s with
          blockedVths := some s.nextQueue
          nextQueue := s.nextQueue + 1
          pc := update s.pc a (.exec me .bcLoad) } :=
        Machine.stepN_cons hread (Machine.stepN_cons hcas
          (Machine.stepN_cons (hcheck _ s.nextQueue rfl) rfl))
      have hblocked : s.queue s.nextQueue = s.blocked := by
        rw [hfresh hq]
        unfold CondState.blocked
        rw [hq]
      exact ⟨3, _, _, hrun, Function.update_self .., rfl, hblocked, rfl, rfl, rfl, rfl⟩

/-- Up to its last store the broadcast does the same for every caller. -/
theorem broadcast_runs (a : A) (me : Option V) {s : CondState A V} (hfresh : s.Fresh) :
    ∃ n t, Machine.stepN (alone a) n (condCall s a me .condBroadcast) = some t
      ∧ t.pc a = .exec me .bcStatus ∧ WokenUp s t s.blocked ∧ t.curStatus = s.curStatus := by
  obtain ⟨n, r, q, hin, hpc, hq, hblocked, hvs, hnum, hrun, hst⟩ := broadcast_enters a me hfresh
  obtain ⟨m, t, hloop, htpc, hwoken, hstatus⟩ := wakeAll_runs hpc hq hblocked
  refine ⟨n + m, t, Machine.stepN_add hin hloop, htpc, ⟨hwoken.blocked, ?_, ?_, ?_⟩, ?_⟩
  · rw [hwoken.vsQueue, hvs]
  · rw [hwoken.waiterNum, hnum]
  · rw [hwoken.runnable, hrun]
  · rw [hstatus, hst]

/-- The last store of a vthread goes to its own `cur_status`, -/
theorem broadcast_leaves (a : A) (v : V) {s : CondState A V} (hfresh : s.Fresh) :
    ∃ t, Leaves a (some v) .condBroadcast s t ∧ WokenUp s t s.blocked
      ∧ t.curStatus = update s.curStatus v .suspended := by
  obtain ⟨n, r, hrun, hpc, hwoken, hstatus⟩ := broadcast_runs a (some v) hfresh
  have hlast : Machine.stepN (alone a) 1 r = some { r with
      curStatus := update r.curStatus v .suspended
      pc := update r.pc a (.exec (some v) (.cont .user)) } := by
    refine Machine.stepN_cons ?_ rfl
    rw [alone_code hpc rfl]
    rfl
  refine ⟨_, leaves_of_stepN (Machine.stepN_add hrun hlast) (Function.update_self ..), ?_, ?_⟩
  · exact ⟨hwoken.blocked, hwoken.vsQueue, hwoken.waiterNum, hwoken.runnable⟩
  · show update r.curStatus v .suspended = _
    rw [hstatus]

/-- and that of a raw thread through a null pointer. -/
theorem broadcast_raw {a : A} {s t : CondState A V} (hfresh : s.Fresh) :
    ¬Leaves a none .condBroadcast s t := by
  rintro ⟨hend, hpc⟩
  obtain ⟨n, r, hrun, hrpc, -, -⟩ := broadcast_runs a none hfresh
  have hlast : Machine.stepN (alone a) 1 r = some { r with pc := update r.pc a .crashed } := by
    refine Machine.stepN_cons ?_ rfl
    rw [alone_code hrpc rfl]
    rfl
  have hcrash : Machine.Ends (alone a) (condCall s a none .condBroadcast)
      { r with pc := update r.pc a .crashed } := by
    refine ⟨⟨n + 1, Machine.stepN_add hrun hlast⟩, ?_⟩
    simp [alone, Machine.drive, aloneNext, condvar, condStep, condWorker, workerRoutine]
  obtain rfl := hend.unique hcrash
  change update r.pc a .crashed a = .exec none (.cont .user) at hpc
  rw [Function.update_self] at hpc
  cases hpc

/-! ## §4. The comparison. -/

/-- Also from an empty condvar: then there is no signal to send. -/
theorem signals_end (a : A) (me : Option V) (s : CondState A V) :
    ∃ u, SignalsLeave a me s u ∧ WokenUp s u s.blocked
      ∧ ∀ w, u.curStatus w = if w ∈ s.blocked then .suspended else s.curStatus w := by
  cases hq : s.blockedVths with
  | some q =>
      have hblocked : s.queue q = s.blocked := by
        unfold CondState.blocked
        rw [hq]
      exact signals_leave hq hblocked
  | none =>
      have hnil : s.blocked = [] := by
        unfold CondState.blocked
        rw [hq]
      rw [hnil]
      refine ⟨s, .done s hnil, ⟨hnil, (List.append_nil _).symm, (Int.sub_zero _).symm, rfl⟩, fun w => ?_⟩
      rw [if_neg List.not_mem_nil]

/-- **Broadcast against repeated signal.**  The broadcast comes to its end and
    leaves for the waiters what the signals leave, iff a vthread calls it and
    every waiter but the caller has STATUS_SUSPENDED already. -/
theorem broadcast_iff {a : A} {me : Option V} {s : CondState A V} (hfresh : s.Fresh) :
    (∃ t u, Leaves a me .condBroadcast s t ∧ SignalsLeave a me s u ∧ Alike s t u) ↔
      ∃ v, me = some v ∧ ∀ w ∈ s.blocked, w ≠ v → s.curStatus w = .suspended := by
  obtain ⟨u, hsig, hwoken, hstatus⟩ := signals_end a me s
  cases me with
  | none =>
      refine iff_of_false ?_ ?_
      · rintro ⟨t, -, ht, -⟩
        exact broadcast_raw hfresh ht
      · rintro ⟨v, hv, -⟩
        cases hv
  | some v =>
      obtain ⟨t, ht, hwoken', hstatus'⟩ := broadcast_leaves a v hfresh
      constructor
      · rintro ⟨t', u', ht', hsig', halike⟩
        -- both ends are unique, so these are the ones computed
        obtain rfl := ht.unique ht'
        obtain rfl := hsig.unique hsig'
        refine ⟨v, rfl, fun w hw hne => ?_⟩
        have hsame := halike.curStatus w hw
        rw [hstatus', hstatus, if_pos hw, Function.update_of_ne hne] at hsame
        exact hsame
      · rintro ⟨v', hv', hall⟩
        obtain rfl := Option.some.inj hv'
        refine ⟨t, u, ht, hsig, ⟨?_, ?_, ?_, fun w hw => ?_, fun w _ => ?_⟩⟩
        · rw [hwoken'.vsQueue, hwoken.vsQueue]
        · rw [hwoken'.blocked, hwoken.blocked]
        · rw [hwoken'.waiterNum, hwoken.waiterNum]
        · rw [hstatus', hstatus, if_pos hw]
          by_cases hne : w = v
          · rw [hne, Function.update_self]
          · rw [Function.update_of_ne hne, hall w hw hne]
        · rw [hwoken'.runnable, hwoken.runnable]

/-- Workers 0 and 1, the raw thread 2, and two vthreads. -/
def twoWorkers : CondState (Fin 3) (Fin 2) := condInit (fun a => a = 2) [0, 1]

theorem twoWorkers_init : condvar.init twoWorkers :=
  ⟨_, _, by decide, rfl⟩

/-- Vthread 1 broadcasts when nobody waits. -/
theorem broadcast_iff_idle :
    ∃ s, condvar.run twoWorkers (runActs 1 1) = some s ∧ s.pc 1 = .exec (some 1) (.cont .user)
      ∧ ((∃ t u, Leaves 1 (some 1) .condBroadcast s t ∧ SignalsLeave 1 (some 1) s u
            ∧ Alike s t u) ↔
          ∃ v, (some 1 : Option (Fin 2)) = some v
            ∧ ∀ w ∈ s.blocked, w ≠ v → s.curStatus w = .suspended) :=
  ⟨_, rfl, rfl, broadcast_iff fun _ => rfl⟩

/-- Vthread 0 waits, and its worker has released the mutex; vthread 1 runs. -/
def oneWaiter : List (CondAct (Fin 3) (Fin 2)) := waitActs ++ [.go 0, .go 0] ++ runActs 1 1

/-- A broadcast by vthread 1 leaves STATUS_BLOCKED where a signal leaves
    STATUS_SUSPENDED, and one by the raw thread does not come to its end. -/
theorem broadcast_not_signals :
    ∃ s, condvar.run twoWorkers oneWaiter = some s ∧ s.blocked = [0]
      ∧ s.pc 1 = .exec (some 1) (.cont .user) ∧ s.pc 2 = .exec none (.cont .user)
      ∧ (¬∃ t u, Leaves 1 (some 1) .condBroadcast s t ∧ SignalsLeave 1 (some 1) s u
          ∧ Alike s t u)
      ∧ ¬∃ t, Leaves 2 none .condBroadcast s t := by
  obtain ⟨s, hrun, hblocked, h0, h1, h2⟩ : ∃ s, condvar.run twoWorkers oneWaiter = some s
      ∧ s.blocked = [0] ∧ s.curStatus 0 = .blocked ∧ s.pc 1 = .exec (some 1) (.cont .user)
      ∧ s.pc 2 = .exec none (.cont .user) := ⟨_, rfl, rfl, rfl, rfl, rfl⟩
  have hfresh : s.Fresh := fresh_of_reachable (Machine.Reachable.after twoWorkers_init _ hrun)
  refine ⟨s, hrun, hblocked, h1, h2, ?_, fun ⟨t, ht⟩ => broadcast_raw hfresh ht⟩
  rintro ⟨t, u, ht, hu, halike⟩
  obtain ⟨t', ht', -, hstatus'⟩ := broadcast_leaves 1 1 hfresh
  obtain ⟨u', hu', -, hstatus⟩ := signals_end 1 (some 1) s
  obtain rfl := ht.unique ht'
  obtain rfl := hu.unique hu'
  have hmem : (0 : Fin 2) ∈ s.blocked := by rw [hblocked]; exact List.mem_cons_self
  have hsame := halike.curStatus 0 hmem
  rw [hstatus', hstatus, if_pos hmem, Function.update_of_ne (by decide), h0] at hsame
  cases hsame

end HThread.Cond
