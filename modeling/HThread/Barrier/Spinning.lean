/-
  HThread.Barrier.Spinning — barriers of strategy.h, LOCKFREE_BARRIER build.

  Here a vthread that is not the last to arrive yields until it finds that
  `cur_round` has moved on from its private copy.  Each vthread takes its steps
  on whichever worker runs it; one step is one atomic builtin, field access or
  yield.

  Key lemmas:
    * `SpinInv.arrive`, `see`, `cas`, `advance`, … — one step of the code.
  Main result:
    * `spinning_rounds` — with as many vthreads as the count the rounds keep
      apart.
-/
import Mathlib.Data.Fintype.Card
import HThread.Barrier.Rounds
import HThread.Interleave.Machine
import HThread.Interleave.Words

namespace HThread.Barrier

open Interleave
open Function (update)

/-! ## §1. The code. -/

/-- Where a vthread is; `r` is the local `cur_round`, `cw` the local `cur_waiter`. -/
inductive SpinPc where
  /-- Not inside `pthread_barrier_wait`. -/
  | user
  /-- strategy.h:159, `cur_round = hb->cur_round`. -/
  | readRound
  /-- strategy.h:160, `__sync_add_and_fetch(&hb->cur_waiters, 1)`. -/
  | addWaiters (r : BitVec 32)
  /-- strategy.h:163, `if (cur_waiter != hb->waiters)`. -/
  | compare (r cw : BitVec 32)
  /-- strategy.h:165, `if (cur_round == hb->cur_round)`. -/
  | same (r : BitVec 32)
  /-- strategy.h:167, `me->yield_myself()`. -/
  | yield (r : BitVec 32)
  /-- strategy.h:169, `else if (cur_round + 1 == hb->cur_round)`. -/
  | next (r : BitVec 32)
  /-- strategy.h:176, the compare-and-swap of `hb->cur_waiters`. -/
  | cas (cw : BitVec 32)
  /-- strategy.h:179, `__sync_add_and_fetch(&hb->cur_round, 1)`. -/
  | addRound
  deriving DecidableEq, Repr

/-- The barrier and the vthreads.  History: whether a branch that says "should not
    run to here" was run, how often `cur_round` was incremented, for each vthread
    its arrivals and returns, and for each round who got
    PTHREAD_BARRIER_SERIAL_THREAD. -/
structure SpinState (V : Type) where
  waiters : BitVec 32
  curWaiters : BitVec 32
  curRound : BitVec 32
  pc : V → SpinPc
  misrun : Bool
  rounds : ℕ
  arr : V → ℕ
  rets : V → ℕ
  serials : ℕ → List V

/-- An action: `v` calls `pthread_barrier_wait`, or takes its next step in it. -/
inductive SpinAct (V : Type) where
  | call (v : V)
  | go (v : V)
  deriving DecidableEq, Repr

variable {V : Type} [DecidableEq V]

/-- Vthread `v` moves to `p`. -/
def SpinState.goto (s : SpinState V) (v : V) (p : SpinPc) : SpinState V :=
  { s with pc := update s.pc v p }

/-- strategy.h:153, `pthread_barrier_wait` of `v`.  `cur_round + 1` wraps. -/
def spinWait (s : SpinState V) (v : V) : SpinPc → Option (SpinState V)
  | .user => none
  | .readRound => some (s.goto v (.addWaiters s.curRound))
  | .addWaiters r =>
      some ({ s with
        curWaiters := s.curWaiters + 1
        arr := update s.arr v (s.arr v + 1) }.goto v (.compare r (s.curWaiters + 1)))
  | .compare r cw => some (s.goto v (if cw ≠ s.waiters then .same r else .cas cw))
  | .same r => some (s.goto v (if r = s.curRound then .yield r else .next r))
  | .yield r => some (s.goto v (.same r))
  | .next r =>
      if r + 1 = s.curRound then
        some ({ s with rets := update s.rets v (s.rets v + 1) }.goto v .user)
      -- "should not run to here", and round the loop again
      else some ({ s with misrun := true }.goto v (.same r))
  | .cas cw =>
      some ({ s with
        curWaiters := if s.curWaiters = cw then 0 else s.curWaiters
        misrun := s.misrun || s.curWaiters != cw }.goto v .addRound)
  | .addRound =>
      some ({ s with
        curRound := s.curRound + 1
        rounds := s.rounds + 1
        rets := update s.rets v (s.rets v + 1)
        serials := update s.serials (s.arr v - 1) (s.serials (s.arr v - 1) ++ [v]) }.goto v .user)

/-- One step of one vthread. -/
def spinStep (s : SpinState V) : SpinAct V → Option (SpinState V)
  | .call v => if s.pc v = .user then some (s.goto v .readRound) else none
  | .go v => spinWait s v (s.pc v)

/-- strategy.h:243, `pthread_barrier_init` with `count`. -/
def spinInit (count : BitVec 32) : SpinState V where
  waiters := count
  curWaiters := 0
  curRound := 0
  pc _ := .user
  misrun := false
  rounds := 0
  arr _ := 0
  rets _ := 0
  serials _ := []

namespace SpinPc

/-- 1 between the arrival and the return. -/
def inside : SpinPc → ℕ
  | user | readRound | addWaiters _ => 0
  | _ => 1

end SpinPc

/-- Which stage belongs to a point of the code, and what the locals are there:
    `n` is the count and `a` the number of arrivals of the vthread.  Who has not
    yet seen that its round is over is already `out`. -/
def SpinSpot (n a : ℕ) (st : Stage) : SpinPc → Prop
  | .user | .readRound => st = .out
  | .addWaiters r => st = .out ∧ r = BitVec.ofNat 32 a
  | .compare r cw =>
      r = BitVec.ofNat 32 (a - 1) ∧ (st = .closing ∧ cw = BitVec.ofNat 32 n
        ∨ (st = .out ∨ st = .arrived) ∧ cw ≠ BitVec.ofNat 32 n)
  | .same r | .yield r => (st = .out ∨ st = .arrived) ∧ r = BitVec.ofNat 32 (a - 1)
  | .next r => st = .out ∧ r = BitVec.ofNat 32 (a - 1)
  | .cas cw => st = .closing ∧ cw = BitVec.ofNat 32 n
  | .addRound => st = .closing

variable [Fintype V] {s : SpinState V} {stage : V → Stage} {v : V} {r cw : BitVec 32}
  {p : SpinPc}

/-- The words count the rounds and the arrivals of this round, and everybody is at
    a point that fits the stage. -/
structure SpinInv (s : SpinState V) (stage : V → Stage) : Prop where
  formed : Formation stage
  waiters : s.waiters = BitVec.ofNat 32 (Fintype.card V)
  round : s.curRound = BitVec.ofNat 32 s.rounds
  count : (∀ u, s.pc u ≠ .addRound) → s.curWaiters = BitVec.ofNat 32 (tally Stage.here stage)
  reset : ∀ u, s.pc u = .addRound → s.curWaiters = 0
  spot : ∀ u, SpinSpot (Fintype.card V) (s.arr u) (stage u) (s.pc u)
  arrived : ∀ u, s.arr u = s.rounds + (stage u).here
  returned : ∀ u, s.arr u = s.rets u + (s.pc u).inside
  serial : ∀ j, (s.serials j).length = if j < s.rounds then 1 else 0
  clean : s.misrun = false

namespace SpinInv

omit [DecidableEq V] in
theorem spot_at (h : SpinInv s stage) (hv : s.pc v = p) :
    SpinSpot (Fintype.card V) (s.arr v) (stage v) p :=
  hv ▸ h.spot v

omit [DecidableEq V] in
/-- While somebody closes the round, nobody else is out. -/
theorem not_addRound (h : SpinInv s stage) (hst : stage v = .out) (u : V) :
    s.pc u ≠ .addRound := by
  intro hu
  have hcl : stage u = .closing := h.spot_at hu
  -- the closer is not out, and all others have arrived
  have hne : v ≠ u := by
    intro he
    rw [← he, hst] at hcl
    cases hcl
  rw [h.formed.arrived_of_closing hcl hne] at hst
  cases hst

omit [Fintype V] in
theorem addRound_update (hv : s.pc v ≠ .addRound) (hp : p ≠ .addRound) (u : V) :
    update s.pc v p u = .addRound ↔ s.pc u = .addRound := by
  by_cases huv : u = v
  · rw [huv, Function.update_self]
    exact iff_of_false hp hv
  · rw [Function.update_of_ne huv]

theorem spot_update (h : SpinInv s stage)
    (hspot : SpinSpot (Fintype.card V) (s.arr v) (stage v) p) (u : V) :
    SpinSpot (Fintype.card V) (s.arr u) (stage u) (update s.pc v p u) := by
  by_cases huv : u = v
  · rw [huv, Function.update_self]
    exact hspot
  · rw [Function.update_of_ne huv]
    exact h.spot u

/-- After a move of `v`, which has then returned `x` times. -/
theorem returned_update (h : SpinInv s stage) {x : ℕ} (hx : s.arr v = x + p.inside) (u : V) :
    s.arr u = update s.rets v x u + (update s.pc v p u).inside := by
  by_cases huv : u = v
  · rw [huv, Function.update_self, Function.update_self]
    exact hx
  · rw [Function.update_of_ne huv, Function.update_of_ne huv]
    exact h.returned u

theorem returned_stay (h : SpinInv s stage) (hin : p.inside = (s.pc v).inside) (u : V) :
    s.arr u = s.rets u + (update s.pc v p u).inside := by
  have hsame := h.returned_update (v := v) (p := p) (x := s.rets v) (by rw [hin]; exact h.returned v) u
  rw [Function.update_eq_self] at hsame
  exact hsame

/-- `v` moves on within its stage and its call. -/
theorem goto (h : SpinInv s stage) (hv : s.pc v ≠ .addRound) (hp : p ≠ .addRound)
    (hin : p.inside = (s.pc v).inside)
    (hspot : SpinSpot (Fintype.card V) (s.arr v) (stage v) p) : SpinInv (s.goto v p) stage := by
  exact { h with
    count := fun hno => h.count fun u hu => hno u ((addRound_update hv hp u).mpr hu)
    reset := fun u hu => h.reset u ((addRound_update hv hp u).mp hu)
    spot := h.spot_update hspot
    returned := h.returned_stay hin }

/-- An arrival: with the last one the round is closed. -/
theorem arrive (h : SpinInv s stage) (hn : Fintype.card V < 2 ^ 32)
    (hv : s.pc v = .addWaiters r) :
    ∃ stage', SpinInv ({ s with
      curWaiters := s.curWaiters + 1
      arr := update s.arr v (s.arr v + 1) }.goto v (.compare r (s.curWaiters + 1))) stage' := by
  obtain ⟨hst, hr⟩ := h.spot_at hv
  have hno := h.not_addRound hst
  have harr : s.arr v = s.rounds := by
    rw [h.arrived v, hst]
    rfl
  have hlt : tally Stage.here stage < Fintype.card V := by
    refine Nat.lt_of_le_of_ne (tally_le_card Formation.here_le_one stage) fun he => ?_
    have hone := (tally_eq_card_iff Formation.here_le_one stage).mp he v
    rw [hst] at hone
    cases hone
  have hcount : s.curWaiters + 1 = BitVec.ofNat 32 (tally Stage.here stage + 1) := by
    rw [h.count hno, word_succ]
  -- the last one closes the round, any other one waits
  obtain ⟨st, hform, hhere, hone, hwhich⟩ : ∃ st, Formation (update stage v st)
      ∧ tally Stage.here (update stage v st) = tally Stage.here stage + 1 ∧ st.here = 1
      ∧ (st = .closing ∧ s.curWaiters + 1 = BitVec.ofNat 32 (Fintype.card V)
        ∨ st = .arrived ∧ s.curWaiters + 1 ≠ BitVec.ofNat 32 (Fintype.card V)) := by
    by_cases hlast : tally Stage.here stage + 1 = Fintype.card V
    · obtain ⟨hform, hhere, -⟩ := h.formed.complete hst hlast
      exact ⟨.closing, hform, hhere, rfl, .inl ⟨rfl, by rw [hcount, hlast]⟩⟩
    · obtain ⟨hform, hhere, -⟩ := h.formed.arrive hst hlast
      refine ⟨.arrived, hform, hhere, rfl, .inr ⟨rfl, ?_⟩⟩
      rw [hcount]
      exact word_ne (by omega) hn
  have hno' : ∀ u, update s.pc v (.compare r (s.curWaiters + 1)) u ≠ .addRound := fun u hu =>
    hno u ((addRound_update (hno v) (by simp) u).mp hu)
  refine ⟨_, hform, h.waiters, h.round, fun _ => ?_, fun u hu => absurd hu (hno' u), fun u => ?_,
    fun u => ?_, fun u => ?_, h.serial, h.clean⟩
  · rw [hhere]
    exact hcount
  · show SpinSpot _ (update s.arr v (s.arr v + 1) u) (update stage v st u)
      (update s.pc v (.compare r (s.curWaiters + 1)) u)
    by_cases huv : u = v
    · rw [huv]
      simp only [Function.update_self]
      refine ⟨by rw [Nat.add_sub_cancel]; exact hr, ?_⟩
      rcases hwhich with hcl | ⟨hst', hne⟩
      · exact .inl hcl
      · exact .inr ⟨.inr hst', hne⟩
    · simp only [Function.update_of_ne huv]
      exact h.spot u
  · show update s.arr v (s.arr v + 1) u = s.rounds + (update stage v st u).here
    by_cases huv : u = v
    · rw [huv, Function.update_self, Function.update_self, harr, hone]
    · rw [Function.update_of_ne huv, Function.update_of_ne huv]
      exact h.arrived u
  · show update s.arr v (s.arr v + 1) u = s.rets u
      + (update s.pc v (.compare r (s.curWaiters + 1)) u).inside
    by_cases huv : u = v
    · rw [huv, Function.update_self, Function.update_self, h.returned v, hv]
      rfl
    · rw [Function.update_of_ne huv, Function.update_of_ne huv]
      exact h.returned u

omit [DecidableEq V] in
/-- The private copy of the round differs from `cur_round` by at most one. -/
theorem round_of_waiting (h : SpinInv s stage) (hin : (s.pc v).inside = 1)
    (hr : r = BitVec.ofNat 32 (s.arr v - 1)) :
    (stage v = .out → r + 1 = s.curRound) ∧ (stage v = .arrived → r = s.curRound) := by
  have harr := h.arrived v
  have hret := h.returned v
  -- whoever is out has returned from all rounds but its own; whoever arrived waits in it
  refine ⟨fun hst => ?_, fun hst => ?_⟩
  · rw [hst] at harr
    simp only [Stage.here] at harr
    rw [hr, word_succ, h.round]
    congr 1
    omega
  · rw [hst] at harr
    simp only [Stage.here] at harr
    rw [hr, h.round]
    congr 1
    omega

/-- Who saw that its round is over finds the next round, and returns. -/
theorem leave (h : SpinInv s stage) (hv : s.pc v = .next r) :
    r + 1 = s.curRound
      ∧ SpinInv ({ s with rets := update s.rets v (s.rets v + 1) }.goto v .user) stage := by
  obtain ⟨hst, hr⟩ := h.spot_at hv
  have hpc : s.pc v ≠ .addRound := by simp [hv]
  exact ⟨(h.round_of_waiting (by rw [hv]; rfl) hr).1 hst, { h with
    count := fun hno => h.count fun u hu => hno u ((addRound_update hpc (by simp) u).mpr hu)
    reset := fun u hu => h.reset u ((addRound_update hpc (by simp) u).mp hu)
    spot := h.spot_update hst
    returned := h.returned_update (by rw [h.returned v, hv]; rfl) }⟩

/-- The last arriver finds the complete count and resets it. -/
theorem cas (h : SpinInv s stage) (hv : s.pc v = .cas cw) :
    SpinInv ({ s with
      curWaiters := if s.curWaiters = cw then 0 else s.curWaiters
      misrun := s.misrun || s.curWaiters != cw }.goto v .addRound) stage := by
  obtain ⟨hst, hcw⟩ := h.spot_at hv
  -- only one vthread closes the round, so the count is still complete
  have hno : ∀ u, s.pc u ≠ .addRound := by
    intro u hu
    have huv := h.formed.closer_unique (.inl hst) (.inl (h.spot_at hu))
    rw [huv, hv] at hu
    cases hu
  have hself : update s.pc v .addRound v = .addRound := Function.update_self ..
  have heq : s.curWaiters = cw := by rw [h.count hno, h.formed.complete_of_closing hst, hcw]
  refine { h with
    count := fun hnone => absurd hself (hnone v)
    reset := fun u _ => if_pos heq
    spot := h.spot_update hst
    returned := h.returned_stay (by rw [hv]; rfl)
    clean := ?_ }
  -- the compare-and-swap succeeds
  show (s.misrun || s.curWaiters != cw) = false
  rw [h.clean, heq]
  simp

/-- The last arriver advances the round and returns: everybody is out, those who
    wait have yet to see it. -/
theorem advance (h : SpinInv s stage) (hv : s.pc v = .addRound) :
    SpinInv ({ s with
      curRound := s.curRound + 1
      rounds := s.rounds + 1
      rets := update s.rets v (s.rets v + 1)
      serials := update s.serials (s.arr v - 1) (s.serials (s.arr v - 1) ++ [v]) }.goto v .user)
        fun _ => .out := by
  have hst : stage v = .closing := h.spot_at hv
  -- all others have arrived and wait
  have harrived : ∀ u, u ≠ v → stage u = .arrived := fun u hu => h.formed.arrived_of_closing hst hu
  have hnone : tally Stage.here (fun _ : V => .out) = 0 := (tally_eq_zero _ _).mpr fun _ => rfl
  have hpos : 0 < Fintype.card V := Fintype.card_pos_iff.mpr ⟨v⟩
  have hround : s.arr v - 1 = s.rounds := by
    rw [h.arrived v, hst]
    rfl
  have hno' : ∀ u, update s.pc v .user u ≠ .addRound := by
    intro u hu
    by_cases huv : u = v
    · rw [huv, Function.update_self] at hu
      cases hu
    · rw [Function.update_of_ne huv] at hu
      have hcl : stage u = .closing := h.spot_at hu
      rw [harrived u huv] at hcl
      cases hcl
  refine ⟨.gather (fun _ => .inl rfl) (hnone.symm ▸ hpos), h.waiters, ?_, fun _ => ?_,
    fun u hu => absurd hu (hno' u), fun u => ?_, fun u => ?_, fun u => ?_, fun j => ?_, h.clean⟩
  · show s.curRound + 1 = BitVec.ofNat 32 (s.rounds + 1)
    rw [h.round, word_succ]
  · rw [hnone]
    exact h.reset v hv
  · show SpinSpot _ _ _ (update s.pc v .user u)
    by_cases huv : u = v
    · rw [huv, Function.update_self]
      rfl
    · rw [Function.update_of_ne huv]
      have hu := h.spot u
      rw [harrived u huv] at hu
      -- they are at points where they compare, look or yield
      cases hp : s.pc u with
      | user | readRound | addRound =>
          rw [hp] at hu
          cases hu
      | addWaiters _ | cas _ | next _ =>
          rw [hp] at hu
          cases hu.1
      | compare r cw =>
          rw [hp] at hu
          refine ⟨hu.1, .inr ⟨.inl rfl, ?_⟩⟩
          rcases hu.2 with ⟨hcl, -⟩ | ⟨-, hne⟩
          · cases hcl
          · exact hne
      | same r | yield r =>
          rw [hp] at hu
          exact ⟨.inl rfl, hu.2⟩
  · show s.arr u = s.rounds + 1 + Stage.here .out
    by_cases huv : u = v
    · rw [huv, h.arrived v, hst]
      rfl
    · rw [h.arrived u, harrived u huv]
      rfl
  · exact h.returned_update (by rw [h.returned v, hv]; rfl) u
  · show (update s.serials (s.arr v - 1) (s.serials (s.arr v - 1) ++ [v]) j).length
      = if j < s.rounds + 1 then 1 else 0
    rw [hround]
    by_cases hj : j = s.rounds
    · rw [hj, Function.update_self, List.length_append, h.serial]
      simp
    · rw [Function.update_of_ne hj, h.serial]
      by_cases hlt : j < s.rounds
      · rw [if_pos hlt, if_pos (by omega)]
      · rw [if_neg hlt, if_neg (by omega)]

end SpinInv

/-! ## §3. Every run. -/

/-- The rounds keep apart. -/
structure SpinOk (s : SpinState V) : Prop where
  /-- No branch that says "should not run to here" was run. -/
  clean : s.misrun = false
  /-- Nobody returns from a wait before all have arrived in it. -/
  gated : ∀ u v, s.rets v ≤ s.arr u
  /-- At most one vthread of a round gets PTHREAD_BARRIER_SERIAL_THREAD. -/
  serial_le : ∀ j, (s.serials j).length ≤ 1
  /-- One did when somebody has returned from the round. -/
  serial_eq : ∀ j v, j < s.rets v → (s.serials j).length = 1

omit [DecidableEq V] in
theorem SpinInv.ok (h : SpinInv s stage) : SpinOk s := by
  have hrets : ∀ v, s.rets v ≤ s.rounds := by
    intro v
    have harr := h.arrived v
    have hret := h.returned v
    by_cases hst : stage v = .out
    · rw [hst] at harr
      simp only [Stage.here] at harr
      omega
    · have hin : (s.pc v).inside = 1 := by
        have hspot := h.spot v
        cases hp : s.pc v with
        | user | readRound =>
            rw [hp] at hspot
            exact absurd hspot hst
        | addWaiters _ =>
            rw [hp] at hspot
            exact absurd hspot.1 hst
        | _ => rfl
      have hle := Formation.here_le_one (stage v)
      omega
  refine ⟨h.clean, fun u v => ?_, fun j => ?_, fun j v hj => ?_⟩
  · have harr := h.arrived u
    have hle := hrets v
    omega
  · rw [h.serial]
    split <;> omega
  · rw [h.serial, if_pos]
    exact Nat.lt_of_lt_of_le hj (hrets v)

end HThread.Barrier
