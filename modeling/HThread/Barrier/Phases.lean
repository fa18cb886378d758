/-
  HThread.Barrier.Phases — the rounds of a barrier whose count is the number of
  its vthreads.

  Key lemmas:
    * `Rounds.arrive`, `push`, `cas`, `advance`, `take`, `wake`, `finish`, … —
      one step of the code.
    * `phased_step` — any step.
    * `barrier_phases` — what follows for every reachable state.
-/
import HThread.Barrier.Places

namespace HThread.Barrier

open Interleave
open Function (update)

/-! ## §1. The invariant of the rounds. -/

section Code

variable {V : Type} [Fintype V] {d : BarrierData V} {here : V → BarrierPc V} {stage : V → Stage}
  {v w : V} {r cw : BitVec 32} {p : BarrierPc V}

/-- The four parts together. -/
structure Rounds (d : BarrierData V) (here : V → BarrierPc V) (stage : V → Stage) : Prop where
  formed : Formation stage
  words : Words d.waiters d.curWaiters d.curRound d.rounds d.casFailed here stage
  places : Places d.rounds d.arr d.rets d.blockedVths here stage
  history : History d.rounds d.serials d.popped d.woken here stage
  numbers : Numbers d.rounds d.arrivals d.arr d.ticket d.pushSide d.popSide stage

namespace Rounds

theorem spot (h : Rounds d here stage) (hv : here v = p) :
    Spot (Fintype.card V) (tally Stage.owed stage) (d.arr v) (stage v) p :=
  hv ▸ h.places.spot v

/-- While somebody resets the count, all others wait. -/
theorem arrived_of_resetting (h : Rounds d here stage) {u : V} (hu : (here u).Resetting)
    (hne : v ≠ u) : stage v = .arrived :=
  h.formed.arrived_of_closing ((h.places.spot u).closing hu) hne

/-- Who has arrived and not returned, has arrived. -/
theorem arr_pos (h : Rounds d here stage) (hin : (here v).inside = 1) : 0 < d.arr v := by
  have hret := h.places.returned v
  omega

/-- The last arriver lets the round go in which it arrived. -/
theorem roundOf_of_releasing (h : Rounds d here stage) (hst : stage v = .releasing) :
    d.roundOf v = d.rounds - 1 := by
  have harr := h.places.arrived v
  rw [hst] at harr
  unfold BarrierData.roundOf
  rw [harr]
  rfl

/-- Only one vthread lets go. -/
theorem releaser_unique (h : Rounds d here stage) (hst : stage v = .releasing) (u : V)
    (hu : stage u = .releasing) : u = v :=
  h.formed.closer_unique (.inr hst) (.inr hu)

/-- The batch of an arrival is its round. -/
theorem batch_eq (h : Rounds d here stage) (hn : Fintype.card V < 2 ^ 31) (hpos : 0 < d.arr v) :
    d.batch v = d.arr v - 1 := by
  unfold BarrierData.batch
  have hw : d.waiters.toNat = Fintype.card V := by
    rw [h.words.waiters, BitVec.toNat_ofNat]
    omega
  rw [hw]
  exact h.numbers.batch v hpos

variable [DecidableEq V]

omit [Fintype V] in
theorem resetting_update (hp : p.Resetting ↔ (here v).Resetting) (u : V) :
    (update here v p u).Resetting ↔ (here u).Resetting := by
  by_cases huv : u = v
  · rw [huv, Function.update_self]
    exact hp
  · rw [Function.update_of_ne huv]

/-- `v` moves on within its stage and its call. -/
theorem next (h : Rounds d here stage) (hout : ∀ q, v ∉ d.blockedVths q)
    (hspot : Spot (Fintype.card V) (tally Stage.owed stage) (d.arr v) (stage v) p)
    (hin : p.inside = (here v).inside) (hp : p ≠ .cont .woken)
    (hreset : p.Resetting ↔ (here v).Resetting)
    (hhand : barrierShape.hand p = barrierShape.hand (here v)) :
    Rounds d (update here v p) stage :=
  ⟨h.formed, h.words.stay (resetting_update hreset) rfl, h.places.next hout hspot hin hp,
    h.history.next fun _ => hhand, h.numbers⟩

/-! ## §2. The steps of the code. -/

/-- The round is read. -/
theorem read (h : Rounds d here stage) (hout : ∀ q, v ∉ d.blockedVths q)
    (hv : here v = .readRound) : Rounds d (update here v (.addWaiters d.curRound)) stage := by
  have hst : stage v = .out := h.spot hv
  have harr := h.places.arrived v
  rw [hst] at harr
  refine h.next hout ⟨hst, ?_⟩ (by rw [hv]; rfl) (by simp) (by rw [hv]; rfl) (by rw [hv]; rfl)
  rw [h.words.round, harr]
  rfl

/-- An arrival: with the last one the round is closed. -/
theorem arrive (h : Rounds d here stage) (hn : Fintype.card V < 2 ^ 31)
    (hout : ∀ q, v ∉ d.blockedVths q) (hv : here v = .addWaiters r) :
    ∃ stage', Rounds { d with
      curWaiters := d.curWaiters + 1
      arr := update d.arr v (d.arr v + 1)
      arrivals := d.arrivals + 1
      ticket := update d.ticket v d.arrivals }
        (update here v (.compare r (d.curWaiters + 1))) stage' := by
  obtain ⟨hst, hr⟩ := h.spot hv
  have harr : d.arr v = d.rounds := by
    rw [h.places.arrived v, hst]
    rfl
  -- `v` is not there yet, so nobody resets the count and it is not complete
  have hno : ∀ u, ¬(here u).Resetting := by
    intro u hu
    have hne : v ≠ u := by
      intro he
      rw [← he, hv] at hu
      exact hu
    have := h.arrived_of_resetting hu hne
    rw [hst] at this
    cases this
  have hno' : ∀ u, ¬(update here v (.compare r (d.curWaiters + 1)) u).Resetting :=
    fun u hu => hno u ((resetting_update (by rw [hv]; rfl) u).mp hu)
  have hlt : tally Stage.here stage < Fintype.card V := by
    refine Nat.lt_of_le_of_ne (tally_le_card Formation.here_le_one stage) fun he => ?_
    have hone := (tally_eq_card_iff Formation.here_le_one stage).mp he v
    rw [hst] at hone
    cases hone
  have hcount : d.curWaiters + 1 = BitVec.ofNat 32 (tally Stage.here stage + 1) := by
    rw [h.words.count hno, word_succ]
  by_cases hlast : tally Stage.here stage + 1 = Fintype.card V
  · obtain ⟨hform, hhere, howed⟩ := h.formed.complete hst hlast
    have hplaces := h.places.move (d.arr v + 1) (d.rets v) .closing
      (.compare r (d.curWaiters + 1)) hout howed
      ⟨by rw [Nat.add_sub_cancel]; exact hr, .inl ⟨rfl, by rw [hcount, hlast]⟩⟩
      (by rw [harr]; rfl) (by rw [h.places.returned v, hv]; rfl) (by simp)
    rw [Function.update_eq_self] at hplaces
    exact ⟨_, hform, h.words.arrive hno hno' hhere, hplaces, h.history.arrive hst (.inr rfl),
      h.numbers.arrive harr hlt hhere⟩
  · obtain ⟨hform, hhere, howed⟩ := h.formed.arrive hst hlast
    have hplaces := h.places.move (d.arr v + 1) (d.rets v) .arrived
      (.compare r (d.curWaiters + 1)) hout howed
      ⟨by rw [Nat.add_sub_cancel]; exact hr, .inr ⟨rfl, by
        rw [hcount]; exact word_ne (by omega) (by omega)⟩⟩
      (by rw [harr]; rfl) (by rw [h.places.returned v, hv]; rfl) (by simp)
    rw [Function.update_eq_self] at hplaces
    exact ⟨_, hform, h.words.arrive hno hno' hhere, hplaces, h.history.arrive hst (.inl rfl),
      h.numbers.arrive harr hlt hhere⟩

/-- An arrival that was not the last one. -/
theorem wait (h : Rounds d here stage) (hout : ∀ q, v ∉ d.blockedVths q)
    (hv : here v = .compare r cw) (hcw : cw ≠ d.waiters) :
    Rounds d (update here v (.unset r)) stage := by
  obtain ⟨hr, hst⟩ := h.spot hv
  refine h.next hout ⟨?_, hr⟩ (by rw [hv]; rfl) (by simp) (by rw [hv]; rfl) (by rw [hv]; rfl)
  rcases hst with ⟨-, heq⟩ | ⟨hst, -⟩
  · exact absurd (heq.trans h.words.waiters.symm) hcw
  · exact hst

/-- The last arrival. -/
theorem last (h : Rounds d here stage) (hout : ∀ q, v ∉ d.blockedVths q)
    (hv : here v = .compare r d.waiters) :
    Rounds d (update here v (.cas r d.waiters)) stage := by
  obtain ⟨hr, hst⟩ := h.spot hv
  refine h.next hout ⟨?_, hr, h.words.waiters⟩ (by rw [hv]; rfl) (by simp) (by rw [hv]; rfl)
    (by rw [hv]; rfl)
  rcases hst with ⟨hst, -⟩ | ⟨-, hne⟩
  · exact hst
  · exact absurd h.words.waiters hne

/-- `v` enters the queue of its round. -/
theorem push (h : Rounds d here stage) (hout : ∀ q, v ∉ d.blockedVths q)
    (hv : here v = .push r) :
    Rounds { d with
      blockedVths := update d.blockedVths (side r) (d.blockedVths (side r) ++ [v])
      pushSide := update d.pushSide (d.ticket v) (some (side r)) }
        (update here v (.cont .woken)) stage := by
  obtain ⟨-, hr⟩ := h.spot hv
  have hpos := h.arr_pos (v := v) (by rw [hv]; rfl)
  refine ⟨h.formed, h.words.stay (resetting_update (by rw [hv]; rfl)) rfl, h.places.block hout hv,
    h.history.next fun _ => by rw [hv]; rfl, h.numbers.push ?_⟩
  rw [hr, side_word, h.numbers.batch v hpos]

/-- A vthread that was let go returns. -/
theorem leave (h : Rounds d here stage) (hout : ∀ q, v ∉ d.blockedVths q)
    (hv : here v = .cont .woken) :
    Rounds { d with rets := update d.rets v (d.rets v + 1) } (update here v (.cont .user))
      stage := by
  have hst := h.places.out_of_woken hout hv
  have hplaces := h.places.move (d.arr v) (d.rets v + 1) (stage v)
    (.cont .user) hout (by rw [Function.update_eq_self]) hst (h.places.arrived v)
    (by rw [h.places.returned v, hv]; rfl) (by simp)
  simp only [Function.update_eq_self] at hplaces
  exact ⟨h.formed, h.words.stay (resetting_update (by rw [hv]; rfl)) rfl, hplaces,
    h.history.next fun _ => by rw [hv]; rfl, h.numbers⟩

/-- The last arriver resets the count. -/
theorem cas (h : Rounds d here stage) (hout : ∀ q, v ∉ d.blockedVths q) (hv : here v = .cas r cw) :
    Rounds { d with
      curWaiters := if d.curWaiters = cw then 0 else d.curWaiters
      casFailed := d.casFailed || d.curWaiters != cw }
        (update here v (.addRound r cw)) stage := by
  obtain ⟨hst, hr, hcw⟩ := h.spot hv
  have hno : ∀ u, ¬(here u).Resetting := by
    intro u hu
    have huv := h.formed.closer_unique (.inl hst) (.inl ((h.places.spot u).closing hu))
    rw [huv, hv] at hu
    exact hu
  have hv' : (update here v (.addRound r cw) v).Resetting := by
    rw [Function.update_self]
    trivial
  exact ⟨h.formed, h.words.cas hno hv' (h.formed.complete_of_closing hst) hcw,
    h.places.next hout ⟨hst, hr, hcw⟩ (by rw [hv]; rfl) (by simp),
    h.history.next fun _ => by rw [hv]; rfl, h.numbers⟩

/-- The last arriver advances the round. -/
theorem advance (h : Rounds d here stage) (hout : ∀ q, v ∉ d.blockedVths q)
    (hv : here v = .addRound r cw) :
    Rounds { d with
      curRound := d.curRound + 1
      rounds := d.rounds + 1 } (update here v (.loop r cw)) fun u => (stage u).next := by
  obtain ⟨hst, -, -⟩ := h.spot hv
  obtain ⟨hform, hhere, -⟩ := h.formed.advance hst
  have hreset : (here v).Resetting := by
    rw [hv]
    trivial
  have hno' : ∀ u, ¬(update here v (.loop r cw) u).Resetting := by
    intro u hu
    by_cases huv : u = v
    · rw [huv, Function.update_self] at hu
      exact hu
    · rw [Function.update_of_ne huv] at hu
      have hcl := (h.places.spot u).closing hu
      rw [h.arrived_of_resetting hreset huv] at hcl
      cases hcl
  exact ⟨hform, h.words.advance hreset hno' hhere, h.places.advance h.formed hout hv,
    h.history.advance h.formed hst (by rw [Function.update_self]; rfl),
    h.numbers.advance (h.formed.complete_of_closing hst) hhere⟩

/-- One more vthread is to be let go. -/
theorem turn (h : Rounds d here stage) (hout : ∀ q, v ∉ d.blockedVths q)
    (hv : here v = .loop r cw) : Rounds d (update here v (.pop r (cw - 1))) stage := by
  obtain ⟨hst, hr, hcw⟩ := h.spot hv
  exact h.next hout ⟨hst, hr, by rw [hcw, word_pred]⟩ (by rw [hv]; rfl) (by simp)
    (by rw [hv]; rfl) (by rw [hv]; rfl)

/-- All have been let go, and the last arriver returns. -/
theorem finish (h : Rounds d here stage) (hn : Fintype.card V < 2 ^ 31)
    (hout : ∀ q, v ∉ d.blockedVths q) (hv : here v = .loop r cw)
    (hcw : (0#32).slt (cw - 1) = false) :
    Rounds { d with
      rets := update d.rets v (d.rets v + 1)
      serials := update d.serials (d.roundOf v) (d.serials (d.roundOf v) ++ [v]) }
        (update here v (.cont .user)) (update stage v .out) := by
  obtain ⟨hst, -, heq⟩ := h.spot hv
  have hzero : tally Stage.owed stage = 0 := by
    have hle := tally_le_card Formation.owed_le_one stage
    rw [heq, word_pred, word_pos (by omega)] at hcw
    simpa using hcw
  obtain ⟨hform, hhere, howed⟩ := h.formed.finish hst hzero
  have hplaces := h.places.move (d.arr v) (d.rets v + 1) .out (.cont .user)
    hout howed rfl (by rw [h.places.arrived v, hst]; rfl) (by rw [h.places.returned v, hv]; rfl)
    (by simp)
  rw [Function.update_eq_self] at hplaces
  have hold : ∀ u, stage u ≠ .old := by
    intro u hu
    have := (tally_eq_zero _ _).mp hzero u
    rw [hu] at this
    cases this
  rw [h.roundOf_of_releasing hst]
  exact ⟨hform, h.words.stay (resetting_update (by rw [hv]; rfl)) hhere, hplaces,
    h.history.finish (h.releaser_unique hst) (h.places.pos_of_releasing hst) hst
      (by rw [hv]; rfl) hold,
    h.numbers.stay hhere⟩

omit [DecidableEq V] in
/-- The queue that the last arriver pops from. -/
theorem popped_side (h : Rounds d here stage) (hn : Fintype.card V < 2 ^ 31)
    (hv : here v = .pop r cw) : side r = d.batch v % 2 := by
  obtain ⟨-, hr, -⟩ := h.spot hv
  rw [hr, side_word, h.batch_eq hn (h.arr_pos (by rw [hv]; rfl))]

/-- The last arriver finds nobody in the queue. -/
theorem empty (h : Rounds d here stage) (hn : Fintype.card V < 2 ^ 31)
    (hout : ∀ q, v ∉ d.blockedVths q) (hv : here v = .pop r cw) :
    Rounds { d with popSide := update d.popSide (d.batch v) (some (side r)) }
      (update here v (.cont (.popRetry r cw))) stage := by
  have hspot := h.spot hv
  have hnext := h.next (p := .cont (.popRetry r cw)) hout hspot (by rw [hv]; rfl) (by simp)
    (by rw [hv]; rfl) (by rw [hv]; rfl)
  exact ⟨hnext.formed, hnext.words, hnext.places, hnext.history,
    hnext.numbers.pop (h.popped_side hn hv)⟩

/-- The last arriver takes `w` out of the queue. -/
theorem take (h : Rounds d here stage) (hn : Fintype.card V < 2 ^ 31)
    (hout : ∀ q, v ∉ d.blockedVths q) (hv : here v = .pop r cw) (hw : w ∈ d.blockedVths (side r))
    (hnot : ∀ q, w ∉ update d.blockedVths (side r) ((d.blockedVths (side r)).erase w) q) :
    Rounds { d with
      blockedVths := update d.blockedVths (side r) ((d.blockedVths (side r)).erase w)
      popped := update d.popped (d.roundOf v) (d.popped (d.roundOf v) ++ [w])
      popSide := update d.popSide (d.batch v) (some (side r)) }
        (update here v (.enqueue r cw w)) (update stage w .out) := by
  obtain ⟨hst, -, -⟩ := h.spot hv
  have hold := h.places.old_of_popped hv hw
  obtain ⟨hform, hhere, -⟩ := h.formed.letGo hold
  rw [h.roundOf_of_releasing hst]
  exact ⟨hform, h.words.stay (resetting_update (by rw [hv]; rfl)) hhere,
    h.places.letGo h.formed hout hv hw hnot,
    h.history.take (h.releaser_unique hst) (h.places.pos_of_releasing hst) hst hold
      (by rw [hv]; rfl) rfl,
    (h.numbers.pop (h.popped_side hn hv)).stay hhere⟩

/-- The last arriver enqueues the vthread in its hand. -/
theorem wake (h : Rounds d here stage) (hout : ∀ q, v ∉ d.blockedVths q)
    (hv : here v = .enqueue r cw w) :
    Rounds { d with woken := update d.woken (d.roundOf v) (d.woken (d.roundOf v) ++ [w]) }
      (update here v (.loop r cw)) stage := by
  obtain ⟨hst, hr, hcw⟩ := h.spot hv
  rw [h.roundOf_of_releasing hst]
  exact ⟨h.formed, h.words.stay (resetting_update (by rw [hv]; rfl)) rfl,
    h.places.next hout ⟨hst, hr, hcw⟩ (by rw [hv]; rfl) (by simp),
    h.history.wake (h.releaser_unique hst) (h.places.pos_of_releasing hst) hst (by rw [hv]; rfl)
      rfl,
    h.numbers⟩

end Rounds

end Code

/-! ## §3. Any number of vthreads: who has whom in hand. -/

section Hands

variable {A V : Type} [DecidableEq A] [DecidableEq V] {s s' : BarrierState A V} {a : A} {v : V}
  {p : BarrierPc V}

/-- Every vthread is in one place. -/
def Handed (s : BarrierState A V) : Prop :=
  HandOff (fun _ => True) barrierShape s.pc s.vsQueue s.runnable s.blockedVths

/-- The barrier code never makes a worker release a mutex. -/
def Plain : Pc V (BarrierPc V) BarrierCont Unit → Prop
  | .switch _ (.mutex _) _ | .ret _ (.mutex _) | .setRunnable _ | .readStatus _ | .wakeSelf _ =>
      False
  | _ => True

theorem handed_code (h : Handed s) (hpc : s.pc a = .exec (some v) p) (hs : CodeEffect s a v p s') :
    Handed s' := by
  cases hs with
  | enter | read | arrive | wait | last | ret | cas | addRound | turn | serial | retry =>
      exact HandOff.next h hpc (.inl rfl) rfl
  | pause | empty => exact HandOff.yield h hpc rfl rfl
  | arm => exact HandOff.arm h hpc rfl rfl rfl
  | push => exact HandOff.push h hpc rfl rfl
  | full => exact h
  | take r cw w hw => exact HandOff.pop h hpc hw rfl rfl
  | wake => exact HandOff.wake h hpc rfl rfl rfl

omit [DecidableEq A] in
/-- Who is run is in no queue. -/
theorem Handed.out (h : Handed s) (hrun : s.pc a = .exec (some v) p) (q : ℕ) :
    v ∉ s.blockedVths q := by
  have hnot := h.custody.not_mem_of_holds (v := v) (a := a) (b := some q) trivial
    (hrun ▸ .inl rfl)
  exact hnot

omit [DecidableEq A] in
/-- Who is taken out of a queue is in no queue. -/
theorem Handed.erased (h : Handed s) {w : V} {q : ℕ} (hw : w ∈ s.blockedVths q) (x : ℕ) :
    w ∉ update s.blockedVths q ((s.blockedVths q).erase w) x := by
  intro hx
  by_cases hxq : x = q
  · subst hxq
    rw [Function.update_self] at hx
    have hle : (s.blockedVths x).count w ≤ 1 := h.custody.count_le (some x) trivial
    have hpos := List.count_pos_iff.mpr hx
    rw [List.count_erase_self] at hpos
    omega
  · rw [Function.update_of_ne hxq] at hx
    have hxw : w ∈ bags s.vsQueue s.blockedVths (some x) := hx
    have hqw : w ∈ bags s.vsQueue s.blockedVths (some q) := hw
    exact hxq (Option.some.inj (h.custody.bag_unique trivial hxw hqw))

omit [DecidableEq V] in
theorem plain_update {pc : A → Pc V (BarrierPc V) BarrierCont Unit} (h : ∀ b, Plain (pc b))
    {p : Pc V (BarrierPc V) BarrierCont Unit} (hp : Plain p) (b : A) : Plain (update pc a p b) := by
  by_cases hba : b = a
  · rw [hba, Function.update_self]
    exact hp
  · rw [Function.update_of_ne hba]
    exact h b

theorem plain_code (h : ∀ b, Plain (s.pc b)) (hs : CodeEffect s a v p s') (b : A) :
    Plain (s'.pc b) := by
  cases hs with
  | full => exact h b
  | _ => exact plain_update h (by trivial) b

theorem plain_worker {σ : Sched A V (BarrierPc V) BarrierCont Unit} (h : ∀ b, Plain (s.pc b))
    (hs : workerRoutine BarrierPc.cont (fun _ => .top) s.toSched a (s.pc a) = some σ) (b : A) :
    Plain (σ.pc b) := by
  have ha := h a
  rcases worker_cases hs with ⟨v, m, hpc, rfl⟩ | ⟨q, run, k, n, p', hmove, rfl⟩
  · rw [hpc] at ha
    exact ha.elim
  · refine plain_update h ?_ b
    generalize s.pc a = p₀ at hmove ha
    cases hmove with
    | switchOut v r k =>
        cases r with
        | status st => trivial
        | mutex m => exact ha
    | resume | finish => trivial
    | settle | own => exact ha.elim
    | plain _ _ _ _ hp' => rcases hp' with rfl | ⟨v, rfl⟩ | ⟨v, rfl⟩ <;> trivial

/-- Who has whom in hand, in every reachable state. -/
structure Orderly (s : BarrierState A V) : Prop where
  handed : Handed s
  plain : ∀ a, Plain (s.pc a)

omit [DecidableEq A] in
theorem orderly_init {count : BitVec 32} {ready : List V} (hready : ready.Nodup) :
    Orderly (barrierInit count ready : BarrierState A V) :=
  ⟨HandOff.start (fun _ => .inl rfl) hready fun _ => rfl, fun _ => trivial⟩

omit [DecidableEq A] in
/-- Nobody runs a vthread that is about to be resumed. -/
theorem not_runs_of_resume (h : Orderly s) (hres : s.pc a = .resume v) (b : A) :
    ¬(s.pc b).Runs v := by
  intro hb
  have hact : (s.pc a).Active barrierShape v := hres ▸ rfl
  have hba := h.handed.side_unique trivial (HandOff.side_of_runs hb) (.inr hact)
  rw [hba, hres] at hb
  exact hb

theorem orderly_step (h : Orderly s) (hs : StepEffect s s') : Orderly s' := by
  cases hs with
  | code a v p s' hpc hc => exact ⟨handed_code h.handed hpc hc, plain_code h.plain hc⟩
  | dequeue a v σ hσ =>
      refine ⟨HandOff.getAndWork h.handed hσ, ?_⟩
      obtain ⟨-, -, rfl⟩ := getAndWork_cases hσ
      exact plain_update h.plain (by trivial)
  | worker a σ _ hσ =>
      refine ⟨HandOff.worker h.handed (fun v hv => ?_) hσ, plain_worker h.plain hσ⟩
      have ha := h.plain a
      rw [hv] at ha
      exact ha.elim

end Hands

/-! ## §4. As many vthreads as the count: every run. -/

section Phased

variable {A V : Type} [DecidableEq A] [DecidableEq V] [Fintype V] {s s' : BarrierState A V} {a : A}
  {v : V} {p : BarrierPc V}

/-- The invariant: the hand-offs, and the rounds with every vthread at the point
    of the code where it was last seen. -/
structure Phased (s : BarrierState A V) : Prop extends Orderly s where
  rounds : ∃ here stage, Tracked barrierShape s.pc s.ctx here ∧ Rounds s.toBarrierData here stage

/-- What `v` does in its code. -/
theorem phased_code (h : Phased s) (hn : Fintype.card V < 2 ^ 31) (hpc : s.pc a = .exec (some v) p)
    (hs : CodeEffect s a v p s') :
    ∃ here stage, Tracked barrierShape s'.pc s'.ctx here ∧ Rounds s'.toBarrierData here stage := by
  obtain ⟨here, stage, htr, hr⟩ := h.rounds
  have hv : here v = p := htr.exec a v p hpc
  have hspot := hr.spot hv
  have hout := h.handed.out hpc
  have hrun : (s.pc a).Runs v := hpc ▸ rfl
  have halone : ∀ b, (s.pc b).Runs v → b = a := fun b hb => h.handed.runs_unique trivial hb hrun
  cases hs with
  | enter =>
      exact ⟨_, _, htr.next hpc halone, hr.next hout hspot (by rw [hv]; rfl) (by simp)
        (by rw [hv]; rfl) (by rw [hv]; rfl)⟩
  | pause =>
      exact ⟨_, _, htr.leave hpc halone, hr.next hout hspot (by rw [hv]; rfl)
        (by simp [barrierShape]) (by rw [hv]; rfl) (by rw [hv]; rfl)⟩
  | read => exact ⟨_, _, htr.next hpc halone, hr.read hout hv⟩
  | arrive r =>
      obtain ⟨stage', hr'⟩ := hr.arrive hn hout hv
      exact ⟨_, stage', htr.next hpc halone, hr'⟩
  | wait r cw hcw => exact ⟨_, _, htr.next hpc halone, hr.wait hout hv hcw⟩
  | last r => exact ⟨_, _, htr.next hpc halone, hr.last hout hv⟩
  | arm r =>
      exact ⟨_, _, htr.next hpc halone, hr.next hout hspot (by rw [hv]; rfl) (by simp)
        (by rw [hv]; rfl) (by rw [hv]; rfl)⟩
  | push r => exact ⟨_, _, htr.leave hpc halone, hr.push hout hv⟩
  | full r => exact ⟨here, stage, htr, hr⟩
  | ret => exact ⟨_, _, htr.next hpc halone, hr.leave hout hv⟩
  | cas r cw => exact ⟨_, _, htr.next hpc halone, hr.cas hout hv⟩
  | addRound r cw => exact ⟨_, _, htr.next hpc halone, hr.advance hout hv⟩
  | turn r cw hcw => exact ⟨_, _, htr.next hpc halone, hr.turn hout hv⟩
  | serial r cw hcw => exact ⟨_, _, htr.next hpc halone, hr.finish hn hout hv hcw⟩
  | empty r cw => exact ⟨_, _, htr.leave hpc halone, hr.empty hn hout hv⟩
  | retry r cw =>
      exact ⟨_, _, htr.next hpc halone, hr.next hout hspot (by rw [hv]; rfl) (by simp)
        (by rw [hv]; rfl) (by rw [hv]; rfl)⟩
  | take r cw w hw =>
      exact ⟨_, _, htr.next hpc halone, hr.take hn hout hv hw (h.handed.erased hw)⟩
  | wake r cw w => exact ⟨_, _, htr.next hpc halone, hr.wake hout hv⟩

omit [DecidableEq A] [DecidableEq V] in
theorem rounds_init (hpos : 0 < Fintype.card V) {ready : List V} :
    Rounds (barrierInit (BitVec.ofNat 32 (Fintype.card V)) ready : BarrierState A V).toBarrierData
      (fun _ => .cont .user) (fun _ => .out) := by
  have hnone : tally Stage.here (fun _ : V => .out) = 0 := (tally_eq_zero _ _).mpr fun _ => rfl
  refine ⟨.gather (fun _ => .inl rfl) (hnone.symm ▸ hpos), ⟨rfl, rfl, fun _ => ?_, ?_, rfl⟩,
    ⟨fun _ => rfl, fun _ => rfl, fun _ => rfl, ?_, fun u hu => ?_⟩,
    ⟨fun _ _ => ⟨rfl, rfl, rfl⟩, ?_, ?_, ?_, ?_, ?_⟩, ⟨?_, ?_, ?_, ?_⟩⟩
  · rw [hnone]
    rfl
  · exact fun _ hu => hu.elim
  · exact fun _ _ hu => absurd hu List.not_mem_nil
  · cases hu
  · exact fun j hj => absurd hj (Nat.not_lt_zero j)
  · exact fun _ hp => nomatch hp
  · exact fun _ hp => nomatch hp
  · exact fun _ hp => nomatch hp
  · exact fun _ hp => nomatch hp
  · rw [hnone]
    rfl
  · exact fun _ hu => absurd hu (Nat.not_lt_zero 0)
  · exact fun _ _ hq => nomatch hq
  · exact fun _ _ hq => nomatch hq

/-- **One step.** -/
theorem phased_step (h : Phased s) (hn : Fintype.card V < 2 ^ 31) (hs : StepEffect s s') :
    Phased s' := by
  refine ⟨orderly_step h.toOrderly hs, ?_⟩
  cases hs with
  | code a v p s' hpc hc => exact phased_code h hn hpc hc
  | dequeue a v σ hσ =>
      obtain ⟨here, stage, htr, hr⟩ := h.rounds
      exact ⟨here, stage, htr.getAndWork hσ, hr⟩
  | worker a σ _ hσ =>
      obtain ⟨here, stage, htr, hr⟩ := h.rounds
      exact ⟨here, stage, htr.worker (fun w hw => not_runs_of_resume h.toOrderly hw) hσ, hr⟩

variable (A) in
theorem phased_keeps (hpos : 0 < Fintype.card V) (hn : Fintype.card V < 2 ^ 31) :
    (barrier (A := A) (V := V) (Fintype.card V)).Keeps (fun _ _ => True) Phased where
  start := by
    rintro s ⟨ready, hready, rfl⟩
    exact ⟨orderly_init hready, _, _, ⟨fun _ _ _ hx => (by cases hx),
      fun _ _ _ _ hx => (by cases hx), fun _ _ => rfl⟩, rounds_init hpos⟩
  step s act s' h _ hs := phased_step h hn (barrierStep_effect hs)

/-! ## §5. What the phases are. -/

/-- The rounds keep apart, and each vthread is handed over once. -/
structure PhasesOk (s : BarrierState A V) : Prop where
  /-- Nobody returns from a wait before all have arrived in it. -/
  gated : ∀ u v, s.rets v ≤ s.arr u
  /-- At most one vthread of a round gets PTHREAD_BARRIER_SERIAL_THREAD. -/
  serial_le : ∀ j, (s.serials j).length ≤ 1
  /-- One did when all have returned. -/
  serial_eq : ∀ j, (∀ v, j < s.rets v) → (s.serials j).length = 1
  swapped : s.casFailed = false
  /-- A vthread is pushed into the queue of its round, and popped from it. -/
  pushSide : ∀ a v r, s.pc a = .exec (some v) (.push r) → side r = s.roundOf v % 2
  popSide : ∀ a v r cw, s.pc a = .exec (some v) (.pop r cw) → side r = s.roundOf v % 2
  /-- Popped are arrivals of the round, each once; they are then enqueued once. -/
  popped : ∀ j, (s.popped j).Nodup ∧ ∀ u ∈ s.popped j, j < s.arr u
  woken : ∀ j, (s.woken j).Nodup ∧ ∀ u ∈ s.woken j, u ∈ s.popped j
  /-- When the last arriver returns it has popped and enqueued all others. -/
  others : ∀ j w, w ∈ s.serials j → ∀ u, (u ∈ s.popped j ↔ u ≠ w) ∧ (u ∈ s.woken j ↔ u ≠ w)
  queued : ∀ v, s.vsQueue.count v ≤ 1
  /-- While a worker is leaving a vthread nobody else resumes it or runs it. -/
  handshake : ∀ a b v, (s.pc a).Leaving barrierShape v →
    s.pc b ≠ .resume v ∧ ((s.pc b).Runs v → b = a)

section

variable {d : BarrierData V} {here : V → BarrierPc V} {stage : V → Stage}

namespace Rounds

omit [DecidableEq V]

/-- Nobody has returned from the round that is gathered. -/
theorem rets_le (h : Rounds d here stage) (v : V) : d.rets v ≤ d.rounds := by
  have harr := h.places.arrived v
  have hret := h.places.returned v
  by_cases hst : stage v = .out
  · rw [hst] at harr
    simp only [Stage.here] at harr
    omega
  · have hin := (h.places.spot v).inside hst
    have hle := Formation.here_le_one (stage v)
    omega

theorem rounds_le_arr (h : Rounds d here stage) (v : V) : d.rounds ≤ d.arr v := by
  have harr := h.places.arrived v
  omega

/-- A round is still to be let go, or is let go now, or is over. -/
theorem round_cases (h : Rounds d here stage) (j : ℕ) :
    (d.serials j = [] ∧ d.popped j = [] ∧ d.woken j = [])
      ∨ (∃ p, stage p = .releasing ∧ j = d.rounds - 1 ∧ 0 < d.rounds)
      ∨ (j < d.rounds ∧ Over d.serials d.popped d.woken j) := by
  by_cases hj : j < d.rounds
  · by_cases hrel : ∃ p, stage p = .releasing ∧ j + 1 = d.rounds
    · obtain ⟨p, hp, hjr⟩ := hrel
      exact .inr (.inl ⟨p, hp, by omega, by omega⟩)
    · refine .inr (.inr ⟨hj, h.history.past j hj fun p hp he => hrel ⟨p, hp, he⟩⟩)
  · exact .inl (h.history.future j (by omega))

/-- All have returned from a round, so it is over. -/
theorem over_of_returned (h : Rounds d here stage) (hpos : 0 < Fintype.card V) {j : ℕ}
    (hall : ∀ v, j < d.rets v) : Over d.serials d.popped d.woken j := by
  obtain ⟨v⟩ := Fintype.card_pos_iff.mp hpos
  have hlt := Nat.lt_of_lt_of_le (hall v) (h.rets_le v)
  refine h.history.past j hlt fun p hp he => ?_
  -- the one who lets go has not returned itself
  have harr := h.places.arrived p
  have hret := h.places.returned p
  have hall' := hall p
  rw [(h.places.spot p).inside (by simp [hp])] at hret
  rw [hp] at harr
  simp only [Stage.here] at harr
  omega

theorem serial_le (h : Rounds d here stage) (j : ℕ) : (d.serials j).length ≤ 1 := by
  rcases h.round_cases j with ⟨hs, -, -⟩ | ⟨p, hp, rfl, -⟩ | ⟨-, w, hs, -⟩
  · simp [hs]
  · simp [h.history.serial p hp]
  · simp [hs]

theorem popped_ok (h : Rounds d here stage) (j : ℕ) :
    (d.popped j).Nodup ∧ ∀ u ∈ d.popped j, j < d.arr u := by
  rcases h.round_cases j with ⟨-, hp, -⟩ | ⟨p, hp, rfl, hpos⟩ | ⟨hj, w, -, -, hnd, -⟩
  · simp [hp]
  · refine ⟨h.history.nodup p hp, fun u _ => ?_⟩
    have hle := h.rounds_le_arr u
    omega
  · exact ⟨hnd, fun u _ => Nat.lt_of_lt_of_le hj (h.rounds_le_arr u)⟩

theorem woken_ok (h : Rounds d here stage) (j : ℕ) :
    (d.woken j).Nodup ∧ ∀ u ∈ d.woken j, u ∈ d.popped j := by
  rcases h.round_cases j with ⟨-, -, hw⟩ | ⟨p, hp, rfl, -⟩ | ⟨-, w, -, heq, hnd, -⟩
  · simp [hw]
  · have hnd := h.history.nodup p hp
    rw [h.history.enqueued p hp] at hnd
    refine ⟨(List.nodup_append.mp hnd).1, fun u hu => ?_⟩
    rw [h.history.enqueued p hp]
    exact List.mem_append_left _ hu
  · rw [← heq]
    exact ⟨hnd, fun u hu => hu⟩

theorem others (h : Rounds d here stage) {j : ℕ} {w : V} (hw : w ∈ d.serials j) (u : V) :
    (u ∈ d.popped j ↔ u ≠ w) ∧ (u ∈ d.woken j ↔ u ≠ w) := by
  rcases h.round_cases j with ⟨hs, -, -⟩ | ⟨p, hp, rfl, -⟩ | ⟨-, x, hs, heq, -, hmem⟩
  · rw [hs] at hw
    exact absurd hw List.not_mem_nil
  · rw [h.history.serial p hp] at hw
    exact absurd hw List.not_mem_nil
  · rw [hs, List.mem_singleton] at hw
    subst hw
    exact ⟨hmem u, heq ▸ hmem u⟩

end Rounds

end

omit [DecidableEq A] in
theorem Phased.ok (h : Phased s) (hpos : 0 < Fintype.card V) : PhasesOk s := by
  obtain ⟨here, stage, htr, hr⟩ := h.rounds
  refine ⟨fun u v => (hr.rets_le v).trans (hr.rounds_le_arr u), hr.serial_le, fun j hj => ?_,
    hr.words.swapped, fun a v r hpc => ?_, fun a v r cw hpc => ?_, hr.popped_ok, hr.woken_ok,
    fun j w hw => hr.others hw, fun v => h.handed.custody.count_le none trivial,
    fun a b v ha => ⟨fun hb => ?_, fun hb => ?_⟩⟩
  · obtain ⟨w, hs, -⟩ := hr.over_of_returned hpos hj
    rw [hs]
    rfl
  · obtain ⟨-, hw⟩ := hr.spot (htr.exec a v _ hpc)
    rw [hw, side_word]
    rfl
  · obtain ⟨-, hw, -⟩ := hr.spot (htr.exec a v _ hpc)
    rw [hw, side_word]
    rfl
  · have hact : (s.pc b).Active barrierShape v := hb ▸ rfl
    have hba := h.handed.side_unique trivial (.inr hact) (.inl ha)
    rw [← hba, hb] at ha
    exact ha
  · exact h.handed.side_unique trivial (HandOff.side_of_runs hb) (.inl ha)

end Phased

/-! ## §6. One round of two. -/

/-- Two workers, two vthreads in the run queue and a barrier for two. -/
def twoWorkers : BarrierState (Fin 2) (Fin 2) := barrierInit 2 [0, 1]

theorem twoWorkers_init : (barrier 2).init twoWorkers :=
  ⟨[0, 1], by decide, rfl⟩

end HThread.Barrier
