/-
  HThread.Interleave.Tally — counting over finitely many actors.

  `tally w f` adds the weight `w (f a)` over all actors `a`, where `f` gives
  each actor's program point (or any other per-actor value).  A step of one
  actor is a point update of `f`, so every accounting invariant of an
  interleaving reduces to `tally_update`.

  `Ahead` is about two counters.  Something is handed out (`m` counts that) and
  comes back (`n` counts that), at most one at a time: `m` is ahead of `n` by one
  exactly while it is out.
-/
import Mathlib.Algebra.Order.BigOperators.Group.Finset
import Mathlib.Data.Fintype.BigOperators

namespace Interleave

open Function (update)

/-! ## §1. Weights. -/

section Weights

variable {A P : Type*} [Fintype A]

/-- The total weight of all actors' values. -/
def tally (w : P → ℕ) (f : A → P) : ℕ := ∑ a, w (f a)

/-- One actor's weight is part of the total. -/
theorem le_tally (w : P → ℕ) (f : A → P) (a : A) : w (f a) ≤ tally w f :=
  Finset.single_le_sum (f := fun a => w (f a)) (fun _ _ => Nat.zero_le _) (Finset.mem_univ a)

theorem tally_eq_zero (w : P → ℕ) (f : A → P) : tally w f = 0 ↔ ∀ a, w (f a) = 0 := by
  simp [tally, Finset.sum_eq_zero_iff]

/-- Weights of 0 and 1 count actors. -/
theorem tally_le_card {w : P → ℕ} (hw : ∀ p, w p ≤ 1) (f : A → P) :
    tally w f ≤ Fintype.card A := by
  calc tally w f ≤ ∑ _a : A, 1 := Finset.sum_le_sum fun a _ => hw (f a)
    _ = Fintype.card A := by simp

/-- The count is complete when every actor is counted. -/
theorem tally_eq_card_iff {w : P → ℕ} (hw : ∀ p, w p ≤ 1) (f : A → P) :
    tally w f = Fintype.card A ↔ ∀ a, w (f a) = 1 := by
  have hone : Fintype.card A = ∑ _a : A, 1 := by simp
  rw [hone, tally, Finset.sum_eq_sum_iff_of_le fun a _ => hw (f a)]
  simp

variable [DecidableEq A]

/-- **Accounting of one step**: the weight of the value that is replaced goes
    out, the weight of the new value comes in. -/
theorem tally_update (w : P → ℕ) (f : A → P) (a : A) (x : P) :
    tally w (update f a x) + w (f a) = tally w f + w x := by
  have hf : tally w f = w (f a) + ∑ b ∈ Finset.univ.erase a, w (f b) :=
    (Finset.add_sum_erase _ _ (Finset.mem_univ a)).symm
  have hu : tally w (update f a x) = w x + ∑ b ∈ Finset.univ.erase a, w (f b) := by
    have := Finset.add_sum_erase (f := fun b => w (update f a x b)) _ (Finset.mem_univ a)
    simp only [Function.update_self] at this
    rw [tally, ← this]
    congr 1
    refine Finset.sum_congr rfl fun b hb => ?_
    rw [Function.update_of_ne (Finset.ne_of_mem_erase hb)]
  omega

/-- The same for a step that moves two actors at once. -/
theorem tally_update₂ (w : P → ℕ) (f : A → P) {a b : A} (h : b ≠ a) (x y : P) :
    tally w (update (update f b x) a y) + w (f b) + w (f a) = tally w f + w x + w y := by
  have hb := tally_update w f b x
  have ha := tally_update w (update f b x) a y
  rw [Function.update_of_ne h.symm] at ha
  omega

/-- A step between two values of the same weight leaves the total alone. -/
theorem tally_update_same (w : P → ℕ) (f : A → P) (a : A) {x : P} (h : w x = w (f a)) :
    tally w (update f a x) = tally w f := by
  have := tally_update w f a x
  omega

end Weights

/-! ## §2. Two counters. -/

/-- `m` is one ahead of `n` while `out` holds, and equal to it otherwise. -/
def Ahead (out : Prop) (m n : ℕ) : Prop := (¬out ∧ m = n) ∨ (out ∧ m = n + 1)

namespace Ahead

variable {out out' : Prop} {m m' n n' : ℕ}

theorem of_iff (h : Ahead out m n) (ho : out' ↔ out) (hm : m' = m) (hn : n' = n) :
    Ahead out' m' n' := by
  subst hm hn
  unfold Ahead
  rw [ho]
  exact h

theorem start (ho : ¬out) : Ahead out 0 0 := .inl ⟨ho, rfl⟩

theorem eq_of_not (h : Ahead out m n) (ho : ¬out) : m = n := by
  rcases h with ⟨-, h⟩ | ⟨hout, -⟩
  · exact h
  · exact absurd hout ho

/-- It goes out. -/
theorem lend (h : Ahead out m n) (ho : ¬out) (ho' : out') : Ahead out' (m + 1) n :=
  .inr ⟨ho', by rw [h.eq_of_not ho]⟩

/-- It comes back. -/
theorem settle (h : Ahead out m n) (ho : out) (ho' : ¬out') : Ahead out' m (n + 1) := by
  rcases h with ⟨hno, -⟩ | ⟨-, h⟩
  · exact absurd ho hno
  · exact .inl ⟨ho', h⟩

/-- What comes back without having been out is noticed. -/
theorem not_extra (h : Ahead out m n) : ¬Ahead out m (n + 1) := by
  rcases h with ⟨hno, h⟩ | ⟨hout, h⟩
  · rintro (⟨-, h'⟩ | ⟨hout, -⟩)
    · omega
    · exact hno hout
  · rintro (⟨hno, -⟩ | ⟨-, h'⟩)
    · exact hno hout
    · omega

end Ahead

end Interleave
