/-
  HThread.Interleave.Words — natural numbers kept in 32-bit words.

  A counter of the code is the word of a number that a proof may let grow
  without bound.

  A word can have a count and a mark: the highest bit is the mark, the others are
  the count.  The word is changed by additions only; as long as the count fits its
  bits, an addition to the one leaves the other alone.

  Key lemmas:
    * `word_ne`, `word_toInt` — small numbers can be read back.
    * `marked_inj`            — the word tells count and mark.
    * `marked_mask`           — and the mask the count.
-/
import Mathlib.Algebra.Group.Int.Defs
import Mathlib.Algebra.Group.Nat.Defs

namespace Interleave

/-! ## §1. Counters. -/

theorem word_succ (k : ℕ) : BitVec.ofNat 32 k + 1 = BitVec.ofNat 32 (k + 1) := by
  apply BitVec.eq_of_toNat_eq
  simp

theorem word_pred (k : ℕ) : BitVec.ofNat 32 (k + 1) - 1 = BitVec.ofNat 32 k := by
  rw [← word_succ, BitVec.add_sub_cancel]

/-- One more low bit. -/
theorem ones_shl (k : ℕ) :
    BitVec.ofNat 32 (2 ^ k - 1) <<< 1 ||| 1#32 = BitVec.ofNat 32 (2 ^ (k + 1) - 1) := by
  apply BitVec.eq_of_getLsbD_eq
  intro i hi
  simp only [BitVec.getLsbD_or, BitVec.getLsbD_shiftLeft, BitVec.getLsbD_ofNat,
    Nat.testBit_two_pow_sub_one]
  cases i with
  | zero => simp
  | succ i =>
      have hlt : i < 32 := by omega
      have hone : Nat.testBit 1 (i + 1) = false := Nat.testBit_lt_two_pow (Nat.one_lt_two_pow (by omega))
      simp [hi, hlt, hone]

/-- Small numbers have different words. -/
theorem word_ne {k n : ℕ} (hlt : k < n) (hn : n < 2 ^ 32) :
    BitVec.ofNat 32 k ≠ BitVec.ofNat 32 n := by
  intro he
  have ht := congrArg BitVec.toNat he
  simp only [BitVec.toNat_ofNat] at ht
  omega

/-- As a signed number, as long as there is no sign bit. -/
theorem word_toInt {k : ℕ} (hk : k < 2 ^ 31) : (BitVec.ofNat 32 k).toInt = k := by
  rw [BitVec.toInt_eq_toNat_of_lt]
  · simp only [BitVec.toNat_ofNat]
    omega
  · simp only [BitVec.toNat_ofNat]
    omega

/-- A signed word that is not the largest counts up. -/
theorem toInt_succ {x : BitVec 32} (hx : x.toInt < 2 ^ 31 - 1) : (x + 1).toInt = x.toInt + 1 := by
  have hlow := BitVec.le_toInt x
  have hone : (1 : BitVec 32).toInt = 1 := rfl
  rw [BitVec.toInt_add, hone]
  apply Int.bmod_eq_of_le
  · omega
  · omega

/-- A signed word that is not the smallest counts down. -/
theorem toInt_pred {x : BitVec 32} (hx : -2 ^ 31 < x.toInt) : (x + -1).toInt = x.toInt - 1 := by
  have hhigh := BitVec.toInt_lt (x := x)
  have hone : (-1 : BitVec 32).toInt = -1 := rfl
  rw [BitVec.toInt_add, hone]
  apply Int.bmod_eq_of_le
  · omega
  · omega

/-- The signed test for a positive number. -/
theorem word_pos {k : ℕ} (hk : k < 2 ^ 31) : (0#32).slt (BitVec.ofNat 32 k) = decide (0 < k) := by
  simp [BitVec.slt, word_toInt hk]

/-! ## §2. A count and a mark. -/

/-- The word of count `k`, marked or not. -/
def marked (mark : Bool) (k : ℕ) : BitVec 32 := .ofNat 32 k + if mark then 0x80000000 else 0

variable {mark mark' : Bool} {k k' : ℕ}

theorem marked_toNat (hk : k < 2147483648) :
    (marked mark k).toNat = k + if mark then 2147483648 else 0 := by
  unfold marked
  rw [BitVec.toNat_add, BitVec.toNat_ofNat]
  cases mark with
  | false =>
      show (k % 4294967296 + 0) % 4294967296 = k + 0
      omega
  | true =>
      show (k % 4294967296 + 2147483648) % 4294967296 = k + 2147483648
      omega

/-- **The word tells both.** -/
theorem marked_inj (hk : k < 2147483648) (hk' : k' < 2147483648) :
    marked mark k = marked mark' k' ↔ mark = mark' ∧ k = k' := by
  constructor
  · intro h
    have hn := congrArg BitVec.toNat h
    rw [marked_toNat hk, marked_toNat hk'] at hn
    cases mark <;> cases mark' <;>
      simp only [Bool.false_eq_true, if_true, if_false, reduceCtorEq, true_and, false_and] at hn ⊢ <;>
      omega
  · rintro ⟨rfl, rfl⟩
    rfl

/-- The bits of the count. -/
theorem marked_mask (hk : k < 2147483648) : marked mark k &&& 0x7FFFFFFF#32 = 0 ↔ k = 0 := by
  have hand : (marked mark k &&& 0x7FFFFFFF#32).toNat = k := by
    rw [BitVec.toNat_and, marked_toNat hk]
    have hmask : (0x7FFFFFFF#32).toNat = 2 ^ 31 - 1 := by decide
    rw [hmask, Nat.and_two_pow_sub_one_eq_mod]
    cases mark <;> simp only [Bool.false_eq_true, if_true, if_false] <;> omega
  constructor
  · intro h
    rw [h] at hand
    exact hand.symm
  · intro h
    apply BitVec.eq_of_toNat_eq
    rw [hand, h]
    rfl

/-- The bit of the mark. -/
theorem unmarked_and (hk : k < 2147483648) : marked false k &&& 0x80000000#32 = 0 := by
  have hbit : (marked false k).getLsbD 31 = false := by
    rw [BitVec.getLsbD, marked_toNat hk]
    exact Nat.testBit_lt_two_pow (by simp only [Bool.false_eq_true, if_false]; omega)
  rw [show 0x80000000#32 = BitVec.twoPow 32 31 by decide, BitVec.and_twoPow, hbit]
  rfl

theorem marked_succ (k : ℕ) : marked mark k + 1 = marked mark (k + 1) := by
  unfold marked
  rw [BitVec.ofNat_add, BitVec.add_assoc, BitVec.add_assoc]
  congr 1
  exact BitVec.add_comm _ _

theorem marked_pred (k : ℕ) : marked mark (k + 1) + -1 = marked mark k := by
  rw [← marked_succ, BitVec.add_assoc, show (1 + -1 : BitVec 32) = 0#32 by decide, BitVec.add_zero]

theorem marked_pred_two (k : ℕ) : marked mark (k + 2) + -2 = marked mark k := by
  rw [show (-2 : BitVec 32) = -1 + -1 by decide, ← BitVec.add_assoc, marked_pred, marked_pred]

/-- The mark is set. -/
theorem marked_mark (k : ℕ) : marked false k + 0x80000000 = marked true k := by
  show BitVec.ofNat 32 k + 0#32 + 0x80000000 = BitVec.ofNat 32 k + 0x80000000
  rw [BitVec.add_zero]

/-- The mark is set, and one is taken off the count. -/
theorem marked_mark_pred (k : ℕ) : marked false (k + 1) + (0x80000000 - 1) = marked true k := by
  rw [show (0x80000000 - 1 : BitVec 32) = -1 + 0x80000000 by decide, ← BitVec.add_assoc,
    marked_pred, marked_mark]

end Interleave
