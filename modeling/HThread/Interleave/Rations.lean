/-
  HThread.Interleave.Rations — numbers drawn from a counter that some give back.

  An actor that draws gets the counter's next value, and may give up again, which
  takes one off the counter.  So two actors may have the same number; all the same
  at most `k` actors have numbers up to `k`.

  Key lemma:
    * `Rationed.card_le` — whatever has room for `k` has room for those up to `k`.
-/
import Mathlib.Data.Fintype.Card

namespace Interleave

open Function (update)

variable {A : Type*} [Fintype A] [DecidableEq A] {number : A → Option ℕ} {count k : ℕ} {a : A}

/-- The actors whose numbers are at most `k`. -/
def upTo (number : A → Option ℕ) (k : ℕ) : Finset A :=
  Finset.univ.filter fun a => ∃ c ∈ number a, c ≤ k

/-- The actors that have a number. -/
def numbered (number : A → Option ℕ) : Finset A := Finset.univ.filter fun a => number a ≠ none

/-- The counter counts the actors that have a number; at most `k` have one up to `k`. -/
structure Rationed (number : A → Option ℕ) (count : ℕ) : Prop where
  counts : (numbered number).card = count
  fair : ∀ k, (upTo number k).card ≤ k

omit [DecidableEq A] in
theorem rationed_start : Rationed (fun _ : A => none) 0 where
  counts := Finset.card_eq_zero.mpr (Finset.filter_eq_empty_iff.mpr fun _ _ h => h rfl)
  fair k := by
    refine (Finset.card_eq_zero.mpr ?_).trans_le (Nat.zero_le k)
    refine Finset.filter_eq_empty_iff.mpr fun _ _ h => ?_
    obtain ⟨c, hc, -⟩ := h
    cases hc

/-- **An actor draws the next number.** -/
theorem Rationed.draw (h : Rationed number count) (ha : number a = none) :
    Rationed (update number a (some (count + 1))) (count + 1) := by
  have hall : numbered (update number a (some (count + 1))) = insert a (numbered number) := by
    ext b
    by_cases hb : b = a
    · subst hb
      simp [numbered]
    · simp [numbered, hb]
  have hcard : (numbered (update number a (some (count + 1)))).card = count + 1 := by
    rw [hall, Finset.card_insert_of_notMem, h.counts]
    simp [numbered, ha]
  refine ⟨hcard, fun k => ?_⟩
  by_cases hk : k ≤ count
  · -- the new number is beyond `k`
    have hsame : upTo (update number a (some (count + 1))) k = upTo number k := by
      ext b
      by_cases hb : b = a
      · subst hb
        simp [upTo, ha]
        omega
      · simp [upTo, hb]
    rw [hsame]
    exact h.fair k
  · have hsub : upTo (update number a (some (count + 1))) k ⊆
        numbered (update number a (some (count + 1))) := by
      intro b hb
      obtain ⟨-, c, hc, -⟩ := Finset.mem_filter.mp hb
      refine Finset.mem_filter.mpr ⟨Finset.mem_univ b, ?_⟩
      rw [Option.mem_def.mp hc]
      exact Option.some_ne_none c
    have hle := Finset.card_le_card hsub
    omega

/-- An actor gives its number back. -/
theorem Rationed.giveUp (h : Rationed number count) (ha : number a ≠ none) :
    Rationed (update number a none) (count - 1) := by
  have hall : numbered (update number a none) = (numbered number).erase a := by
    ext b
    by_cases hb : b = a
    · subst hb
      simp [numbered]
    · simp [numbered, hb]
  refine ⟨?_, fun k => ?_⟩
  · rw [hall, Finset.card_erase_of_mem, h.counts]
    exact Finset.mem_filter.mpr ⟨Finset.mem_univ a, ha⟩
  · refine (Finset.card_le_card fun b hb => ?_).trans (h.fair k)
    obtain ⟨-, c, hc, hck⟩ := Finset.mem_filter.mp hb
    refine Finset.mem_filter.mpr ⟨Finset.mem_univ b, c, ?_, hck⟩
    by_cases hba : b = a
    · subst hba
      rw [Function.update_self] at hc
      cases hc
    · rw [Function.update_of_ne hba] at hc
      exact hc

omit [DecidableEq A] in
/-- **Whatever has room for `k` has room for those with numbers up to `k`.** -/
theorem Rationed.card_le (h : Rationed number count) {l : Finset A}
    (hl : ∀ a ∈ l, ∃ c ∈ number a, c ≤ k) : l.card ≤ k :=
  (Finset.card_le_card fun a ha => Finset.mem_filter.mpr ⟨Finset.mem_univ a, hl a ha⟩).trans
    (h.fair k)

end Interleave
