/-
  HThread.Barrier.Rounds — what a barrier is for, without the code.

  A party of actors goes through rounds.  In a round each actor arrives; the
  one whose arrival makes the party complete closes the round and then lets the
  others go, one by one.  Those who were let go may arrive again in the next
  round while the rest is still waiting, but the next round cannot be completed
  before the closer itself arrives in it.

  Key lemmas:
    * `Formation.arrive`, `complete`, `advance`, `letGo`, `finish` — the five
      kinds of step.
-/
import HThread.Interleave.Tally

namespace HThread.Barrier

open Interleave
open Function (update)

/-- Where an actor stands, relative to the round that is being gathered. -/
inductive Stage where
  /-- Not yet arrived. -/
  | out
  /-- Arrived, and waiting. -/
  | arrived
  /-- Arrived as the last one; the round is still this one. -/
  | closing
  /-- Still waiting, from the round before. -/
  | old
  /-- The last arriver of the round before, letting the others go. -/
  | releasing
  deriving DecidableEq, Repr

namespace Stage

/-- 1 for those who have arrived in this round. -/
def here : Stage → ℕ
  | arrived | closing => 1
  | _ => 0

/-- 1 for those who wait from the round before. -/
def owed : Stage → ℕ
  | old => 1
  | _ => 0

/-- The stage after the round has been advanced. -/
def next : Stage → Stage
  | arrived => old
  | closing => releasing
  | st => st

/-- Waiting to be let go. -/
def waits : Stage → Bool
  | arrived | old => true
  | _ => false

end Stage

variable {V : Type} [Fintype V] {stage : V → Stage} {v p : V}

/-- A round is being gathered, or complete, or the one before is being let go. -/
inductive Formation (stage : V → Stage) : Prop
  | gather (h : ∀ v, stage v = .out ∨ stage v = .arrived)
      (hlt : tally Stage.here stage < Fintype.card V)
  | close (q : V) (hq : stage q = .closing) (h : ∀ v, v ≠ q → stage v = .arrived)
  | release (q : V) (hq : stage q = .releasing)
      (h : ∀ v, v ≠ q → stage v = .out ∨ stage v = .arrived ∨ stage v = .old)

namespace Formation

theorem here_le_one (st : Stage) : st.here ≤ 1 := by
  cases st <;> simp [Stage.here]

theorem owed_le_one (st : Stage) : st.owed ≤ 1 := by
  cases st <;> simp [Stage.owed]

/-- While the others are let go the party is not complete. -/
theorem lt_of_releasing (hp : stage p = .releasing) : tally Stage.here stage < Fintype.card V := by
  refine Nat.lt_of_le_of_ne (tally_le_card here_le_one stage) fun he => ?_
  have hone := (tally_eq_card_iff here_le_one stage).mp he p
  rw [hp] at hone
  cases hone

/-- A closed round is complete. -/
theorem complete_of_closing (h : Formation stage) (hp : stage p = .closing) :
    tally Stage.here stage = Fintype.card V := by
  refine (tally_eq_card_iff here_le_one stage).mpr fun v => ?_
  cases h with
  | gather h _ => rcases h p with hx | hx <;> rw [hp] at hx <;> cases hx
  | close q hq h =>
      by_cases hv : v = q
      · rw [hv, hq]
        rfl
      · rw [h v hv]
        rfl
  | release q hq h =>
      have hne : p ≠ q := by
        rintro rfl
        rw [hp] at hq
        cases hq
      rcases h p hne with hx | hx | hx <;> rw [hp] at hx <;> cases hx

/-- Only one actor closes or lets go. -/
theorem closer_unique (h : Formation stage) {u : V}
    (hv : stage v = .closing ∨ stage v = .releasing)
    (hu : stage u = .closing ∨ stage u = .releasing) : u = v := by
  cases h with
  | gather h _ =>
      rcases h v with hx | hx <;> rcases hv with hv | hv <;> rw [hx] at hv <;> cases hv
  | close q hq h =>
      have hself : ∀ w, (stage w = .closing ∨ stage w = .releasing) → w = q := by
        intro w hw
        by_contra hne
        rcases hw with hw | hw <;> rw [h w hne] at hw <;> cases hw
      rw [hself v hv, hself u hu]
  | release q hq h =>
      have hself : ∀ w, (stage w = .closing ∨ stage w = .releasing) → w = q := by
        intro w hw
        by_contra hne
        rcases h w hne with hx | hx | hx <;> rcases hw with hw | hw <;> rw [hx] at hw <;> cases hw
      rw [hself v hv, hself u hu]

/-- Who waits from the round before waits for somebody. -/
theorem releaser_of_old (h : Formation stage) (hv : stage v = .old) :
    ∃ p, p ≠ v ∧ stage p = .releasing := by
  cases h with
  | gather h _ => rcases h v with hx | hx <;> rw [hv] at hx <;> cases hx
  | close p hp h =>
      by_cases hvp : v = p
      · rw [hvp, hp] at hv
        cases hv
      · rw [h v hvp] at hv
        cases hv
  | release p hp h =>
      refine ⟨p, ?_, hp⟩
      rintro rfl
      rw [hp] at hv
      cases hv

/-- While a round is closed everybody else waits in it. -/
theorem arrived_of_closing (h : Formation stage) (hp : stage p = .closing) {u : V} (hu : u ≠ p) :
    stage u = .arrived := by
  cases h with
  | gather h _ => rcases h p with hx | hx <;> rw [hp] at hx <;> cases hx
  | close q hq h =>
      have hpq : p = q := by
        by_contra hne
        rw [h p hne] at hp
        cases hp
      exact h u (hpq ▸ hu)
  | release q hq h =>
      by_cases hpq : p = q
      · rw [hpq, hq] at hp
        cases hp
      · rcases h p hpq with hx | hx | hx <;> rw [hp] at hx <;> cases hx

/-- While one releases nobody else closes or releases. -/
theorem others_of_releasing (h : Formation stage) (hp : stage p = .releasing) {u : V} (hu : u ≠ p) :
    stage u = .out ∨ stage u = .arrived ∨ stage u = .old := by
  cases h with
  | gather h _ => rcases h p with hx | hx <;> rw [hp] at hx <;> cases hx
  | close q hq h =>
      by_cases hpq : p = q
      · rw [hpq, hq] at hp
        cases hp
      · rw [h p hpq] at hp
        cases hp
  | release q hq h =>
      have hpq : p = q := by
        by_contra hne
        rcases h p hne with hx | hx | hx <;> rw [hp] at hx <;> cases hx
      exact h u (hpq ▸ hu)

variable [DecidableEq V]

/-- One more arrival, not the last one. -/
theorem arrive (h : Formation stage) (hv : stage v = .out)
    (hlt : tally Stage.here stage + 1 ≠ Fintype.card V) :
    Formation (update stage v .arrived)
      ∧ tally Stage.here (update stage v .arrived) = tally Stage.here stage + 1
      ∧ tally Stage.owed (update stage v .arrived) = tally Stage.owed stage := by
  have hhere := tally_update Stage.here stage v .arrived
  have howed := tally_update_same Stage.owed stage v (x := .arrived) (by rw [hv]; rfl)
  rw [hv] at hhere
  simp only [Stage.here, Nat.add_zero] at hhere
  refine ⟨?_, hhere, howed⟩
  cases h with
  | gather h hlt' =>
      refine .gather (fun u => ?_) (by omega)
      by_cases hu : u = v
      · rw [hu, Function.update_self]
        exact .inr rfl
      · rw [Function.update_of_ne hu]
        exact h u
  | close p hp h =>
      by_cases hvp : v = p
      · rw [hvp, hp] at hv
        cases hv
      · rw [h v hvp] at hv
        cases hv
  | release p hp h =>
      have hne : p ≠ v := by
        rintro rfl
        rw [hp] at hv
        cases hv
      refine .release p (by rw [Function.update_of_ne hne]; exact hp) fun u hu => ?_
      by_cases huv : u = v
      · rw [huv, Function.update_self]
        exact .inr (.inl rfl)
      · rw [Function.update_of_ne huv]
        exact h u hu

/-- The last arrival. -/
theorem complete (h : Formation stage) (hv : stage v = .out)
    (heq : tally Stage.here stage + 1 = Fintype.card V) :
    Formation (update stage v .closing)
      ∧ tally Stage.here (update stage v .closing) = tally Stage.here stage + 1
      ∧ tally Stage.owed (update stage v .closing) = tally Stage.owed stage := by
  have hhere := tally_update Stage.here stage v .closing
  have howed := tally_update_same Stage.owed stage v (x := .closing) (by rw [hv]; rfl)
  rw [hv] at hhere
  simp only [Stage.here, Nat.add_zero] at hhere
  refine ⟨.close v (Function.update_self ..) fun u hu => ?_, hhere, howed⟩
  -- everybody else is there
  have hone := (tally_eq_card_iff here_le_one _).mp (hhere.trans heq) u
  rw [Function.update_of_ne hu] at hone ⊢
  cases hst : stage u with
  | arrived => rfl
  | closing =>
      have hc := h.complete_of_closing hst
      omega
  | out | old | releasing =>
      rw [hst] at hone
      cases hone

/-- The round is advanced: everybody else is now owed a wake-up. -/
theorem advance (h : Formation stage) (hp : stage p = .closing) :
    Formation (fun u => (stage u).next) ∧ tally Stage.here (fun u => (stage u).next) = 0
      ∧ tally Stage.owed (fun u => (stage u).next) + 1 = Fintype.card V := by
  have harr : ∀ u, u ≠ p → stage u = .arrived := fun u hu => h.arrived_of_closing hp hu
  refine ⟨.release p (by rw [hp]; rfl) fun u hu => ?_, ?_, ?_⟩
  · rw [harr u hu]
    exact .inr (.inr rfl)
  · rw [tally_eq_zero]
    intro u
    cases stage u <;> rfl
  · -- all weights are 1 but the closer's
    have hsum : tally Stage.owed (update (fun u => (stage u).next) p .old) + (stage p).next.owed
        = tally Stage.owed (fun u => (stage u).next) + Stage.owed .old := tally_update _ _ _ _
    have hnone : (stage p).next.owed = 0 := by
      rw [hp]
      rfl
    have hold : Stage.owed .old = 1 := rfl
    have hall : tally Stage.owed (update (fun u => (stage u).next) p .old) = Fintype.card V := by
      refine (tally_eq_card_iff owed_le_one _).mpr fun u => ?_
      by_cases hu : u = p
      · rw [hu, Function.update_self]
        rfl
      · rw [Function.update_of_ne hu, harr u hu]
        rfl
    omega

/-- One of those who wait is let go. -/
theorem letGo (h : Formation stage) (hv : stage v = .old) :
    Formation (update stage v .out)
      ∧ tally Stage.here (update stage v .out) = tally Stage.here stage
      ∧ tally Stage.owed (update stage v .out) + 1 = tally Stage.owed stage := by
  have hhere := tally_update_same Stage.here stage v (x := .out) (by rw [hv]; rfl)
  have howed := tally_update Stage.owed stage v .out
  rw [hv] at howed
  simp only [Stage.owed, Nat.add_zero] at howed
  refine ⟨?_, hhere, howed⟩
  obtain ⟨p, hpv, hp⟩ := h.releaser_of_old hv
  refine .release p (by rw [Function.update_of_ne hpv]; exact hp) fun u hu => ?_
  by_cases huv : u = v
  · rw [huv, Function.update_self]
    exact .inl rfl
  · rw [Function.update_of_ne huv]
    exact h.others_of_releasing hp hu

/-- All have been let go. -/
theorem finish (h : Formation stage) (hp : stage p = .releasing)
    (hzero : tally Stage.owed stage = 0) :
    Formation (update stage p .out)
      ∧ tally Stage.here (update stage p .out) = tally Stage.here stage
      ∧ tally Stage.owed (update stage p .out) = tally Stage.owed stage := by
  have hhere := tally_update_same Stage.here stage p (x := .out) (by rw [hp]; rfl)
  have howed := tally_update_same Stage.owed stage p (x := .out) (by rw [hp]; rfl)
  refine ⟨.gather (fun u => ?_) (by rw [hhere]; exact lt_of_releasing hp), hhere, howed⟩
  by_cases hu : u = p
  · rw [hu, Function.update_self]
    exact .inl rfl
  · rw [Function.update_of_ne hu]
    have hno : stage u ≠ .old := by
      intro hst
      have := (tally_eq_zero _ _).mp hzero u
      rw [hst] at this
      cases this
    rcases h.others_of_releasing hp hu with hx | hx | hx
    · exact .inl hx
    · exact .inr hx
    · exact absurd hx hno

end Formation

end HThread.Barrier
