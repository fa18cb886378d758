/-
  HThread.Barrier.Places — the rounds of the code, with as many vthreads as the
  count.

  Every vthread has a stage (`HThread.Barrier.Rounds`) and a point of its code.
  The invariant is in four parts: the words of the barrier, who waits where,
  what has happened in which round, and the numbers of the arrivals.

  Key lemmas:
    * `Places.move`, `block`, `letGo`, `advance`, `History.stay`, … — how each
      part moves on.
-/
import HThread.Barrier.Barrier
import HThread.Barrier.Rounds
import HThread.Interleave.Words

namespace HThread.Barrier

open Interleave
open Function (update)

/-! ## §1. The two queues. -/

/-- The queue of a round alternates, also when the word has wrapped. -/
theorem side_word (k : ℕ) : side (BitVec.ofNat 32 k) = k % 2 := by
  unfold side
  rw [BitVec.toNat_and]
  simp only [BitVec.toNat_ofNat]
  rw [Nat.one_mod_eq_one.mpr (by omega), Nat.and_comm, Nat.and_one_is_mod]
  omega

/-! ## §2. The points of the code. -/

variable {V : Type}

/-- 1 between the arrival and the return. -/
def BarrierPc.inside : BarrierPc V → ℕ
  | .cont .user | .readRound | .addWaiters _ => 0
  | _ => 1

/-- Between the compare-and-swap and the increment of the round. -/
def BarrierPc.Resetting : BarrierPc V → Prop
  | .addRound _ _ => True
  | _ => False

/-- Which stage belongs to a point of the code, and what the locals are there:
    `n` is the count, `a` the number of arrivals of the vthread, `owed` how many
    still wait from the round before. -/
def Spot (n owed a : ℕ) (st : Stage) : BarrierPc V → Prop
  | .cont .user | .readRound => st = .out
  | .addWaiters r => st = .out ∧ r = BitVec.ofNat 32 a
  | .compare r cw =>
      r = BitVec.ofNat 32 (a - 1)
        ∧ (st = .closing ∧ cw = BitVec.ofNat 32 n ∨ st.waits = true ∧ cw ≠ BitVec.ofNat 32 n)
  | .unset r | .push r => st.waits = true ∧ r = BitVec.ofNat 32 (a - 1)
  | .cont .woken => st = .out ∨ st.waits = true
  | .cas r cw | .addRound r cw =>
      st = .closing ∧ r = BitVec.ofNat 32 (a - 1) ∧ cw = BitVec.ofNat 32 n
  | .loop r cw | .enqueue r cw _ =>
      st = .releasing ∧ r = BitVec.ofNat 32 (a - 1) ∧ cw = BitVec.ofNat 32 (owed + 1)
  | .pop r cw | .cont (.popRetry r cw) =>
      st = .releasing ∧ r = BitVec.ofNat 32 (a - 1) ∧ cw = BitVec.ofNat 32 owed

/-- Only the last arriver minds how many still wait. -/
theorem Spot.owed {n o o' a : ℕ} {st : Stage} {p : BarrierPc V} (h : Spot n o a st p)
    (hst : st ≠ .releasing) : Spot n o' a st p := by
  match p with
  | .loop r cw | .enqueue r cw w | .pop r cw | .cont (.popRetry r cw) => exact absurd h.1 hst
  | .cont .user | .cont .woken | .readRound | .addWaiters r | .compare r cw | .unset r | .push r
  | .cas r cw | .addRound r cw => exact h

/-- Who waits still does when the round is advanced. -/
theorem Spot.advance {n o o' a : ℕ} {p : BarrierPc V} (h : Spot n o a .arrived p) :
    Spot n o' a .old p := by
  match p with
  | .cont .user | .readRound => exact absurd h (by simp [Spot])
  | .addWaiters r | .cas r cw | .addRound r cw | .loop r cw | .enqueue r cw w | .pop r cw
  | .cont (.popRetry r cw) => exact absurd h.1 (by simp)
  | .compare r cw =>
      refine ⟨h.1, .inr ⟨rfl, ?_⟩⟩
      rcases h.2 with ⟨hst, -⟩ | ⟨-, hcw⟩
      · cases hst
      · exact hcw
  | .unset r | .push r => exact ⟨rfl, h.2⟩
  | .cont .woken => exact .inr rfl

/-- Who has arrived has not returned. -/
theorem Spot.inside {n o a : ℕ} {st : Stage} {p : BarrierPc V} (h : Spot n o a st p)
    (hst : st ≠ .out) : p.inside = 1 := by
  match p with
  | .cont .user | .readRound => exact absurd h hst
  | .addWaiters r => exact absurd h.1 hst
  | .cont .woken | .cont (.popRetry _ _) | .compare _ _ | .unset _ | .push _ | .cas _ _
  | .addRound _ _ | .loop _ _ | .pop _ _ | .enqueue _ _ _ => rfl

/-- Only the closer resets the count. -/
theorem Spot.closing {n o a : ℕ} {st : Stage} {p : BarrierPc V} (h : Spot n o a st p)
    (hp : p.Resetting) : st = .closing := by
  cases p with
  | addRound r cw => exact h.1
  | _ => exact hp.elim

/-! ## §3. The words of the barrier. -/

section Words

variable [Fintype V] {waiters curWaiters curRound : BitVec 32} {rounds : ℕ} {casFailed : Bool}
  {here here' : V → BarrierPc V} {stage stage' : V → Stage} {v : V}

/-- `cur_round` counts the rounds and `cur_waiters` the arrivals in this round,
    from the reset to the increment of the round excepted. -/
structure Words (waiters curWaiters curRound : BitVec 32) (rounds : ℕ) (casFailed : Bool)
    (here : V → BarrierPc V) (stage : V → Stage) : Prop where
  waiters : waiters = BitVec.ofNat 32 (Fintype.card V)
  round : curRound = BitVec.ofNat 32 rounds
  count : (∀ u, ¬(here u).Resetting) → curWaiters = BitVec.ofNat 32 (tally Stage.here stage)
  reset : ∀ u, (here u).Resetting → curWaiters = 0
  swapped : casFailed = false

/-- A step of anybody that does not touch the words. -/
theorem Words.stay (h : Words waiters curWaiters curRound rounds casFailed here stage)
    (hhere : ∀ u, (here' u).Resetting ↔ (here u).Resetting)
    (htally : tally Stage.here stage' = tally Stage.here stage) :
    Words waiters curWaiters curRound rounds casFailed here' stage' := by
  refine ⟨h.waiters, h.round, fun hno => ?_, fun u hu => h.reset u ((hhere u).mp hu), h.swapped⟩
  rw [htally]
  exact h.count fun u hu => hno u ((hhere u).mpr hu)

/-- One more arrival. -/
theorem Words.arrive (h : Words waiters curWaiters curRound rounds casFailed here stage)
    (hno : ∀ u, ¬(here u).Resetting) (hno' : ∀ u, ¬(here' u).Resetting)
    (htally : tally Stage.here stage' = tally Stage.here stage + 1) :
    Words waiters (curWaiters + 1) curRound rounds casFailed here' stage' := by
  refine ⟨h.waiters, h.round, fun _ => ?_, fun u hu => absurd hu (hno' u), h.swapped⟩
  rw [h.count hno, htally, word_succ]

/-- The compare-and-swap of the last arriver finds the complete count. -/
theorem Words.cas (h : Words waiters curWaiters curRound rounds casFailed here stage)
    (hno : ∀ u, ¬(here u).Resetting) (hv : (here' v).Resetting)
    (htally : tally Stage.here stage = Fintype.card V) {cw : BitVec 32}
    (hcw : cw = BitVec.ofNat 32 (Fintype.card V)) :
    Words waiters (if curWaiters = cw then 0 else curWaiters) curRound rounds
      (casFailed || curWaiters != cw) here' stage := by
  have heq : curWaiters = cw := by rw [h.count hno, htally, hcw]
  refine ⟨h.waiters, h.round, fun hnone => absurd hv (hnone v), fun _ _ => if_pos heq, ?_⟩
  rw [h.swapped, heq]
  simp

/-- The round is advanced. -/
theorem Words.advance (h : Words waiters curWaiters curRound rounds casFailed here stage)
    (hv : (here v).Resetting) (hno' : ∀ u, ¬(here' u).Resetting)
    (htally : tally Stage.here stage' = 0) :
    Words waiters curWaiters (curRound + 1) (rounds + 1) casFailed here' stage' := by
  refine ⟨h.waiters, ?_, fun _ => ?_, fun u hu => absurd hu (hno' u), h.swapped⟩
  · rw [h.round, word_succ]
  · rw [h.reset v hv, htally]
    rfl

end Words

/-! ## §4. Who waits where. -/

section Places

variable [Fintype V] [DecidableEq V] {rounds : ℕ} {arr rets : V → ℕ} {blockedVths : ℕ → List V}
  {here : V → BarrierPc V} {stage : V → Stage} {v w : V}

/-- Everybody's point of the code fits the stage, and those who wait are in the
    queue of the round they arrived in. -/
structure Places (rounds : ℕ) (arr rets : V → ℕ) (blockedVths : ℕ → List V)
    (here : V → BarrierPc V) (stage : V → Stage) : Prop where
  spot : ∀ u, Spot (Fintype.card V) (tally Stage.owed stage) (arr u) (stage u) (here u)
  arrived : ∀ u, arr u = rounds + (stage u).here
  returned : ∀ u, arr u = rets u + (here u).inside
  queued : ∀ u q, u ∈ blockedVths q →
    here u = .cont .woken ∧ (stage u).waits = true ∧ q = (arr u - 1) % 2
  waiting : ∀ u, here u = .cont .woken → (stage u).waits = true → ∃ q, u ∈ blockedVths q

namespace Places

omit [DecidableEq V] in
/-- Who is in no queue does not wait. -/
theorem out_of_woken (h : Places rounds arr rets blockedVths here stage)
    (hout : ∀ q, v ∉ blockedVths q) (hv : here v = .cont .woken) : stage v = .out := by
  have hspot := h.spot v
  rw [hv] at hspot
  rcases hspot with hst | hst
  · exact hst
  · obtain ⟨q, hq⟩ := h.waiting v hv hst
    exact absurd hq (hout q)

omit [DecidableEq V] in
/-- While a round is let go there was one. -/
theorem pos_of_releasing (h : Places rounds arr rets blockedVths here stage)
    (hst : stage v = .releasing) : 0 < rounds := by
  have harr := h.arrived v
  have hrets := h.returned v
  rw [(h.spot v).inside (by simp [hst])] at hrets
  rw [hst] at harr
  simp only [Stage.here] at harr
  omega

/-- `v`, who is in no queue, moves on; how many wait from before stays. -/
theorem move (h : Places rounds arr rets blockedVths here stage) (a r : ℕ) (st : Stage)
    (p : BarrierPc V) (hout : ∀ q, v ∉ blockedVths q)
    (howed : tally Stage.owed (update stage v st) = tally Stage.owed stage)
    (hspot : Spot (Fintype.card V) (tally Stage.owed stage) a st p)
    (ha : a = rounds + st.here) (hr : a = r + p.inside) (hp : p ≠ .cont .woken) :
    Places rounds (update arr v a) (update rets v r) blockedVths (update here v p)
      (update stage v st) := by
  refine ⟨fun u => ?_, fun u => ?_, fun u => ?_, fun u q hu => ?_, fun u hu hw => ?_⟩
  · rw [howed]
    by_cases huv : u = v
    · rw [huv]
      simp only [Function.update_self]
      exact hspot
    · simp only [Function.update_of_ne huv]
      exact h.spot u
  · by_cases huv : u = v
    · rw [huv]
      simp only [Function.update_self]
      exact ha
    · simp only [Function.update_of_ne huv]
      exact h.arrived u
  · by_cases huv : u = v
    · rw [huv]
      simp only [Function.update_self]
      exact hr
    · simp only [Function.update_of_ne huv]
      exact h.returned u
  · have huv : u ≠ v := by
      intro he
      exact hout q (he ▸ hu)
    simp only [Function.update_of_ne huv]
    exact h.queued u q hu
  · have huv : u ≠ v := by
      intro he
      rw [he, Function.update_self] at hu
      exact hp hu
    simp only [Function.update_of_ne huv] at hu hw
    exact h.waiting u hu hw

/-- `v` moves on within its stage and its call. -/
theorem next {p : BarrierPc V} (h : Places rounds arr rets blockedVths here stage)
    (hout : ∀ q, v ∉ blockedVths q)
    (hspot : Spot (Fintype.card V) (tally Stage.owed stage) (arr v) (stage v) p)
    (hin : p.inside = (here v).inside) (hp : p ≠ .cont .woken) :
    Places rounds arr rets blockedVths (update here v p) stage := by
  have hmove := h.move (arr v) (rets v) (stage v) p hout (by rw [Function.update_eq_self]) hspot
    (h.arrived v) (hin ▸ h.returned v) hp
  simpa only [Function.update_eq_self] using hmove

/-- `v` enters the queue of its round. -/
theorem block {r : BitVec 32} (h : Places rounds arr rets blockedVths here stage)
    (hout : ∀ q, v ∉ blockedVths q) (hv : here v = .push r) :
    Places rounds arr rets
      (update blockedVths (side r) (blockedVths (side r) ++ [v])) (update here v (.cont .woken))
      stage := by
  have hspot := h.spot v
  rw [hv] at hspot
  obtain ⟨hwaits, hr⟩ := hspot
  have hside : side r = (arr v - 1) % 2 := by rw [hr, side_word]
  refine ⟨fun u => ?_, h.arrived, fun u => ?_, fun u q hu => ?_, fun u hu hw => ?_⟩
  · by_cases huv : u = v
    · rw [huv, Function.update_self]
      exact .inr hwaits
    · rw [Function.update_of_ne huv]
      exact h.spot u
  · by_cases huv : u = v
    · rw [huv, Function.update_self, h.returned v, hv]
      rfl
    · rw [Function.update_of_ne huv]
      exact h.returned u
  · by_cases huv : u = v
    · subst huv
      rw [Function.update_self]
      refine ⟨rfl, hwaits, ?_⟩
      by_cases hq : q = side r
      · rw [hq, hside]
      · rw [Function.update_of_ne hq] at hu
        exact absurd hu (hout q)
    · rw [Function.update_of_ne huv]
      refine h.queued u q ?_
      by_cases hq : q = side r
      · subst hq
        rw [Function.update_self, List.mem_append, List.mem_singleton] at hu
        exact hu.resolve_right huv
      · rw [Function.update_of_ne hq] at hu
        exact hu
  · by_cases huv : u = v
    · refine ⟨side r, ?_⟩
      rw [huv, Function.update_self]
      exact List.mem_append_right _ (List.mem_singleton_self v)
    · rw [Function.update_of_ne huv] at hu
      obtain ⟨q, hq⟩ := h.waiting u hu hw
      refine ⟨q, ?_⟩
      by_cases hqs : q = side r
      · subst hqs
        rw [Function.update_self]
        exact List.mem_append_left _ hq
      · rw [Function.update_of_ne hqs]
        exact hq

omit [DecidableEq V] in
/-- Whom the last arriver finds in its queue waits from the round before: the
    queue of the next round is the other one. -/
theorem old_of_popped {r cw : BitVec 32} (h : Places rounds arr rets blockedVths here stage)
    (hv : here v = .pop r cw) (hw : w ∈ blockedVths (side r)) : stage w = .old := by
  have hspot := h.spot v
  rw [hv] at hspot
  obtain ⟨hst, hr, -⟩ := hspot
  obtain ⟨-, hwaits, hq⟩ := h.queued w _ hw
  rw [hr, side_word] at hq
  have hpos := h.pos_of_releasing hst
  have hav := h.arrived v
  have haw := h.arrived w
  rw [hst] at hav
  cases hstw : stage w with
  | old => rfl
  | arrived =>
      rw [hstw] at haw
      simp only [Stage.here] at hav haw
      omega
  | out | closing | releasing =>
      rw [hstw] at hwaits
      cases hwaits

/-- The last arriver `v` takes `w` out of its queue. -/
theorem letGo {r cw : BitVec 32} (h : Places rounds arr rets blockedVths here stage)
    (hform : Formation stage) (hout : ∀ q, v ∉ blockedVths q) (hv : here v = .pop r cw)
    (hw : w ∈ blockedVths (side r)) (hnot : ∀ q, w ∉ update blockedVths (side r)
      ((blockedVths (side r)).erase w) q) :
    Places rounds arr rets (update blockedVths (side r) ((blockedVths (side r)).erase w))
      (update here v (.enqueue r cw w)) (update stage w .out) := by
  have hspot := h.spot v
  rw [hv] at hspot
  obtain ⟨hst, hr, hcw⟩ := hspot
  have hold := h.old_of_popped hv hw
  obtain ⟨-, -, howed⟩ := hform.letGo hold
  obtain ⟨hherew, -, -⟩ := h.queued w _ hw
  have hwv : w ≠ v := by
    intro he
    rw [he, hst] at hold
    cases hold
  -- what is in a queue now was in it before
  have hmem : ∀ u q, u ∈ update blockedVths (side r) ((blockedVths (side r)).erase w) q →
      u ∈ blockedVths q := by
    intro u q hu
    by_cases hq : q = side r
    · subst hq
      rw [Function.update_self] at hu
      exact List.mem_of_mem_erase hu
    · rw [Function.update_of_ne hq] at hu
      exact hu
  refine ⟨fun u => ?_, fun u => ?_, fun u => ?_, fun u q hu => ?_, fun u hu hwaits => ?_⟩
  · by_cases huv : u = v
    · rw [huv, Function.update_self, Function.update_of_ne hwv.symm]
      exact ⟨hst, hr, by rw [hcw, howed]⟩
    · rw [Function.update_of_ne huv]
      by_cases huw : u = w
      · rw [huw, Function.update_self, hherew]
        exact .inl rfl
      · rw [Function.update_of_ne huw]
        refine (h.spot u).owed fun hrel => huv ?_
        exact hform.closer_unique (.inr hst) (.inr hrel)
  · by_cases huw : u = w
    · have harr := h.arrived w
      rw [hold] at harr
      rw [huw, Function.update_self]
      exact harr
    · rw [Function.update_of_ne huw]
      exact h.arrived u
  · by_cases huv : u = v
    · have hrets := h.returned v
      rw [hv] at hrets
      rw [huv, Function.update_self]
      exact hrets
    · rw [Function.update_of_ne huv]
      exact h.returned u
  · have huv : u ≠ v := by
      intro he
      exact hout q (hmem v q (he ▸ hu))
    have huw : u ≠ w := by
      intro he
      exact hnot q (he ▸ hu)
    rw [Function.update_of_ne huv, Function.update_of_ne huw]
    exact h.queued u q (hmem u q hu)
  · have huv : u ≠ v := by
      intro he
      rw [he, Function.update_self] at hu
      cases hu
    have huw : u ≠ w := by
      intro he
      rw [he, Function.update_self] at hwaits
      cases hwaits
    rw [Function.update_of_ne huv] at hu
    rw [Function.update_of_ne huw] at hwaits
    obtain ⟨q, hq⟩ := h.waiting u hu hwaits
    refine ⟨q, ?_⟩
    by_cases hqs : q = side r
    · subst hqs
      rw [Function.update_self]
      exact (List.mem_erase_of_ne huw).mpr hq
    · rw [Function.update_of_ne hqs]
      exact hq

/-- The last arriver `v` advances the round. -/
theorem advance {r cw : BitVec 32} (h : Places rounds arr rets blockedVths here stage)
    (hform : Formation stage) (hout : ∀ q, v ∉ blockedVths q) (hv : here v = .addRound r cw) :
    Places (rounds + 1) arr rets blockedVths (update here v (.loop r cw))
      (fun u => (stage u).next) := by
  have hspot := h.spot v
  rw [hv] at hspot
  obtain ⟨hst, hr, hcw⟩ := hspot
  obtain ⟨-, -, howed⟩ := hform.advance hst
  have harrived : ∀ u, u ≠ v → stage u = .arrived := fun u hu => hform.arrived_of_closing hst hu
  refine ⟨fun u => ?_, fun u => ?_, fun u => ?_, fun u q hu => ?_, fun u hu hwaits => ?_⟩
  · by_cases huv : u = v
    · rw [huv, Function.update_self, hst]
      exact ⟨rfl, hr, by rw [hcw, howed]⟩
    · have hu := h.spot u
      rw [harrived u huv] at hu
      rw [Function.update_of_ne huv, harrived u huv]
      exact hu.advance
  · have harr := h.arrived u
    by_cases huv : u = v
    · rw [huv, hst] at harr
      rw [huv, harr, hst]
      rfl
    · rw [harrived u huv] at harr
      rw [harr, harrived u huv]
      rfl
  · have hrets := h.returned u
    by_cases huv : u = v
    · rw [huv, hv] at hrets
      rw [huv, Function.update_self]
      exact hrets
    · rw [Function.update_of_ne huv]
      exact hrets
  · have huv : u ≠ v := by
      intro he
      exact hout q (he ▸ hu)
    obtain ⟨hhere, -, hq⟩ := h.queued u q hu
    rw [Function.update_of_ne huv, harrived u huv]
    exact ⟨hhere, rfl, hq⟩
  · have huv : u ≠ v := by
      intro he
      rw [he, Function.update_self] at hu
      cases hu
    rw [Function.update_of_ne huv] at hu
    refine h.waiting u hu ?_
    rw [harrived u huv]
    rfl

end Places

end Places

/-! ## §5. What has happened in which round. -/

section History

variable {rounds : ℕ} {serials popped woken : ℕ → List V} {here here' : V → BarrierPc V}
  {stage stage' : V → Stage} {v w : V}

/-- Round `j` is over: its last arriver popped and enqueued all others once. -/
def Over (serials popped woken : ℕ → List V) (j : ℕ) : Prop :=
  ∃ w, serials j = [w] ∧ popped j = woken j ∧ (popped j).Nodup ∧ ∀ u, u ∈ popped j ↔ u ≠ w

/-- Rounds that are gathered or still to come have no history; those let go are
    over, the one that is let go now excepted. -/
structure History (rounds : ℕ) (serials popped woken : ℕ → List V) (here : V → BarrierPc V)
    (stage : V → Stage) : Prop where
  future : ∀ j, rounds ≤ j → serials j = [] ∧ popped j = [] ∧ woken j = []
  past : ∀ j, j < rounds → (∀ p, stage p = .releasing → j + 1 ≠ rounds) →
    Over serials popped woken j
  serial : ∀ p, stage p = .releasing → serials (rounds - 1) = []
  nodup : ∀ p, stage p = .releasing → (popped (rounds - 1)).Nodup
  mem : ∀ p, stage p = .releasing → ∀ u, u ∈ popped (rounds - 1) ↔ u ≠ p ∧ stage u ≠ .old
  enqueued : ∀ p, stage p = .releasing →
    popped (rounds - 1) = woken (rounds - 1) ++ (barrierShape.hand (here p)).toList

namespace History

/-- A step that lets nobody go. -/
theorem stay (h : History rounds serials popped woken here stage)
    (hrel : ∀ u, stage' u = .releasing ↔ stage u = .releasing)
    (hold : ∀ u, stage' u = .old ↔ stage u = .old)
    (hhand : ∀ u, stage u = .releasing → barrierShape.hand (here' u) = barrierShape.hand (here u)) :
    History rounds serials popped woken here' stage' := by
  refine ⟨h.future, fun j hj hno => h.past j hj fun p hp => hno p ((hrel p).mpr hp),
    fun p hp => h.serial p ((hrel p).mp hp), fun p hp => h.nodup p ((hrel p).mp hp),
    fun p hp u => ?_, fun p hp => ?_⟩
  · rw [h.mem p ((hrel p).mp hp) u, Ne, Ne, Ne, hold u]
  · rw [hhand p ((hrel p).mp hp)]
    exact h.enqueued p ((hrel p).mp hp)

variable [DecidableEq V]

/-- A step of `v` within its stage. -/
theorem next {p : BarrierPc V} (h : History rounds serials popped woken here stage)
    (hhand : stage v = .releasing → barrierShape.hand p = barrierShape.hand (here v)) :
    History rounds serials popped woken (update here v p) stage := by
  refine h.stay (fun _ => Iff.rfl) (fun _ => Iff.rfl) fun u hu => ?_
  by_cases huv : u = v
  · subst huv
    rw [Function.update_self]
    exact hhand hu
  · rw [Function.update_of_ne huv]

/-- An arrival. -/
theorem arrive {p : BarrierPc V} {st : Stage} (h : History rounds serials popped woken here stage)
    (hv : stage v = .out) (hst : st = .arrived ∨ st = .closing) :
    History rounds serials popped woken (update here v p) (update stage v st) := by
  have hne : st ≠ .releasing ∧ st ≠ .old := by
    rcases hst with rfl | rfl <;> simp
  refine h.stay (fun u => ?_) (fun u => ?_) fun u hu => ?_
  · by_cases huv : u = v
    · rw [huv, Function.update_self, hv]
      exact iff_of_false hne.1 (by simp)
    · rw [Function.update_of_ne huv]
  · by_cases huv : u = v
    · rw [huv, Function.update_self, hv]
      exact iff_of_false hne.2 (by simp)
    · rw [Function.update_of_ne huv]
  · have huv : u ≠ v := by
      intro he
      rw [he, hv] at hu
      cases hu
    rw [Function.update_of_ne huv]

omit [DecidableEq V] in
/-- The round is advanced: now it is let go, and the one before is over. -/
theorem advance [Fintype V] (h : History rounds serials popped woken here stage)
    (hform : Formation stage) (hv : stage v = .closing) (hhand : barrierShape.hand (here' v) = none) :
    History (rounds + 1) serials popped woken here' (fun u => (stage u).next) := by
  have harrived : ∀ u, u ≠ v → stage u = .arrived := fun u hu => hform.arrived_of_closing hv hu
  have hself : ∀ p, (stage p).next = .releasing → p = v := by
    intro p hp
    by_contra hpv
    rw [harrived p hpv] at hp
    cases hp
  obtain ⟨hserials, hpopped, hwoken⟩ := h.future rounds le_rfl
  refine ⟨fun j hj => h.future j (by omega), fun j hj hno => ?_, fun p hp => hserials,
    fun p hp => ?_, fun p hp u => ?_, fun p hp => ?_⟩
  · have hne := hno v (by rw [hv]; rfl)
    refine h.past j (by omega) fun p hp => ?_
    -- nobody lets go while a round is closed
    have hpv := hform.closer_unique (.inl hv) (.inr hp)
    rw [hpv, hv] at hp
    cases hp
  · rw [Nat.add_sub_cancel, hpopped]
    exact List.nodup_nil
  · rw [Nat.add_sub_cancel, hpopped, hself p hp]
    refine iff_of_false List.not_mem_nil fun hu => hu.2 ?_
    rw [harrived u hu.1]
    rfl
  · rw [Nat.add_sub_cancel, hpopped, hwoken, hself p hp, hhand]
    rfl

/-- The last arriver `v` takes `w` out of its queue. -/
theorem take {p : BarrierPc V} (h : History rounds serials popped woken here stage)
    (hone : ∀ u, stage u = .releasing → u = v) (hpos : 0 < rounds) (hv : stage v = .releasing)
    (hw : stage w = .old) (hnone : barrierShape.hand (here v) = none)
    (hhand : barrierShape.hand p = some w) :
    History rounds serials
      (update popped (rounds - 1) (popped (rounds - 1) ++ [w])) woken (update here v p)
      (update stage w .out) := by
  have hwv : w ≠ v := by
    intro he
    rw [he, hv] at hw
    cases hw
  have hrel : ∀ u, update stage w .out u = .releasing → u = v := by
    intro u hu
    exact hone u (eq_of_update (by simp) hu).2
  have hnotin : w ∉ popped (rounds - 1) := fun hin => ((h.mem v hv w).mp hin).2 hw
  refine ⟨fun j hj => ?_, fun j hj hno => ?_, fun u hu => h.serial v hv, fun u hu => ?_,
    fun u hu x => ?_, fun u hu => ?_⟩
  · rw [Function.update_of_ne (by omega)]
    exact h.future j hj
  · have hne := hno v (by rw [Function.update_of_ne hwv.symm]; exact hv)
    obtain ⟨x, hx⟩ := h.past j hj fun _ _ => hne
    refine ⟨x, ?_⟩
    rw [Function.update_of_ne (by omega)]
    exact hx
  · rw [Function.update_self]
    exact List.nodup_append.mpr ⟨h.nodup v hv, List.nodup_singleton w,
      fun x hx y hy he => hnotin (by rw [← List.mem_singleton.mp hy, ← he]; exact hx)⟩
  · rw [Function.update_self, List.mem_append, h.mem v hv x, List.mem_singleton, hrel u hu]
    by_cases hxw : x = w
    · rw [hxw, Function.update_self]
      exact iff_of_true (.inr rfl) ⟨hwv, by simp⟩
    · rw [Function.update_of_ne hxw]
      exact or_iff_left hxw
  · rw [Function.update_self, hrel u hu, Function.update_self, hhand, h.enqueued v hv, hnone]
    simp

/-- The last arriver `v` enqueues the vthread in its hand. -/
theorem wake {p : BarrierPc V} (h : History rounds serials popped woken here stage)
    (hone : ∀ u, stage u = .releasing → u = v) (hpos : 0 < rounds) (hv : stage v = .releasing)
    (hhand : barrierShape.hand (here v) = some w) (hnone : barrierShape.hand p = none) :
    History rounds serials popped
      (update woken (rounds - 1) (woken (rounds - 1) ++ [w])) (update here v p) stage := by
  refine ⟨fun j hj => ?_, fun j hj hno => ?_, h.serial, h.nodup, h.mem, fun u hu => ?_⟩
  · rw [Function.update_of_ne (by omega)]
    exact h.future j hj
  · have hne := hno v hv
    obtain ⟨x, hx⟩ := h.past j hj hno
    refine ⟨x, ?_⟩
    rw [Function.update_of_ne (by omega)]
    exact hx
  · rw [Function.update_self, hone u hu, Function.update_self, hnone, h.enqueued v hv, hhand]
    simp

/-- All have been let go: the round is over. -/
theorem finish {p : BarrierPc V} (h : History rounds serials popped woken here stage)
    (hone : ∀ u, stage u = .releasing → u = v) (hpos : 0 < rounds) (hv : stage v = .releasing)
    (hnone : barrierShape.hand (here v) = none) (hold : ∀ u, stage u ≠ .old) :
    History rounds (update serials (rounds - 1) (serials (rounds - 1) ++ [v])) popped woken
      (update here v p) (update stage v .out) := by
  have hrel : ∀ u, update stage v .out u ≠ .releasing := by
    intro u hu
    obtain ⟨huv, hu⟩ := eq_of_update (by simp) hu
    exact huv (hone u hu)
  refine ⟨fun j hj => ?_, fun j hj hno => ?_, fun u hu => absurd hu (hrel u),
    fun u hu => absurd hu (hrel u), fun u hu => absurd hu (hrel u), fun u hu => absurd hu (hrel u)⟩
  · rw [Function.update_of_ne (by omega)]
    exact h.future j hj
  · by_cases hjr : j = rounds - 1
    · subst hjr
      refine ⟨v, ?_, ?_, h.nodup v hv, fun u => ?_⟩
      · rw [Function.update_self, h.serial v hv]
        rfl
      · rw [h.enqueued v hv, hnone]
        simp
      · rw [h.mem v hv u]
        exact and_iff_left (hold u)
    · obtain ⟨x, hx⟩ := h.past j hj fun u hu => by omega
      refine ⟨x, ?_⟩
      rw [Function.update_of_ne hjr]
      exact hx

end History

end History

/-! ## §6. The numbers of the arrivals. -/

section Numbers

variable [Fintype V] {rounds arrivals : ℕ} {arr ticket : V → ℕ} {pushSide popSide : ℕ → Option ℕ}
  {stage stage' : V → Stage} {v : V}

/-- The arrivals with numbers `n * j, …, n * j + (n - 1)` are those of round `j`,
    and the queue of a round alternates. -/
structure Numbers (rounds arrivals : ℕ) (arr ticket : V → ℕ) (pushSide popSide : ℕ → Option ℕ)
    (stage : V → Stage) : Prop where
  total : arrivals = Fintype.card V * rounds + tally Stage.here stage
  batch : ∀ u, 0 < arr u → ticket u / Fintype.card V = arr u - 1
  pushes : ∀ t q, pushSide t = some q → q = t / Fintype.card V % 2
  pops : ∀ b q, popSide b = some q → q = b % 2

namespace Numbers

/-- A step that is no arrival. -/
theorem stay (h : Numbers rounds arrivals arr ticket pushSide popSide stage)
    (htally : tally Stage.here stage' = tally Stage.here stage) :
    Numbers rounds arrivals arr ticket pushSide popSide stage' :=
  ⟨by rw [htally]; exact h.total, h.batch, h.pushes, h.pops⟩

/-- The round is advanced. -/
theorem advance (h : Numbers rounds arrivals arr ticket pushSide popSide stage)
    (hall : tally Stage.here stage = Fintype.card V) (hnone : tally Stage.here stage' = 0) :
    Numbers (rounds + 1) arrivals arr ticket pushSide popSide stage' := by
  refine ⟨?_, h.batch, h.pushes, h.pops⟩
  rw [h.total, hall, hnone, Nat.mul_succ]
  rfl

/-- A pop, or an attempt at one. -/
theorem pop {b q : ℕ} (h : Numbers rounds arrivals arr ticket pushSide popSide stage)
    (hq : q = b % 2) :
    Numbers rounds arrivals arr ticket pushSide (update popSide b (some q)) stage := by
  refine ⟨h.total, h.batch, h.pushes, fun c q' hc => ?_⟩
  by_cases hcb : c = b
  · rw [hcb, Function.update_self] at hc
    rw [← Option.some.inj hc, hq, hcb]
  · rw [Function.update_of_ne hcb] at hc
    exact h.pops c q' hc

/-- A push. -/
theorem push {t q : ℕ} (h : Numbers rounds arrivals arr ticket pushSide popSide stage)
    (hq : q = t / Fintype.card V % 2) :
    Numbers rounds arrivals arr ticket (update pushSide t (some q)) popSide stage := by
  refine ⟨h.total, h.batch, fun c q' hc => ?_, h.pops⟩
  by_cases hct : c = t
  · rw [hct, Function.update_self] at hc
    rw [← Option.some.inj hc, hq, hct]
  · rw [Function.update_of_ne hct] at hc
    exact h.pushes c q' hc

/-- One more arrival. -/
theorem arrive [DecidableEq V] (h : Numbers rounds arrivals arr ticket pushSide popSide stage)
    (harr : arr v = rounds) (hlt : tally Stage.here stage < Fintype.card V)
    (htally : tally Stage.here stage' = tally Stage.here stage + 1) :
    Numbers rounds (arrivals + 1) (update arr v (arr v + 1)) (update ticket v arrivals) pushSide
      popSide stage' := by
  refine ⟨?_, fun u hu => ?_, h.pushes, h.pops⟩
  · rw [htally, h.total]
    rfl
  · by_cases huv : u = v
    · rw [huv, Function.update_self, Function.update_self, harr, h.total,
        Nat.mul_add_div (by omega), Nat.div_eq_of_lt hlt]
      rfl
    · rw [Function.update_of_ne huv] at hu ⊢
      rw [Function.update_of_ne huv]
      exact h.batch u hu

end Numbers

end Numbers

end HThread.Barrier
