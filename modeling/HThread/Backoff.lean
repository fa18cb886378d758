/-
  HThread.Backoff — the retry loops of hlockfreequeue.hpp.

  `enqueue` and `dequeue` try again until the queue takes or gives an item, and
  sleep for `t` microseconds after each attempt that fails.  In the expression
  for the next `t` the mask belongs to the constant 1, not to the whole, so `t`
  has one bit more after each attempt.

  The queue is that of a library; of it the loops see only whether an attempt
  succeeds.

  Key lemmas:
    * `retry_eq`     — a loop has done one turn for each failed attempt.
    * `failed_delay` — the delay after k + 1 failed attempts is 2^(k+1) − 1.
  Main result:
    * `bounded_iff` — the delays stay below 0x100 iff at most eight attempts fail.
-/
import Mathlib.Logic.Function.Iterate
import HThread.Interleave.Words

namespace HThread.Backoff

open Interleave

/-! ## §1. The code. -/

/-- The queue of the library: in state `q` an item is taken, or none is (the queue
    is full); an item is given, or none is (it is empty). -/
structure LockfreeQueue (Q α : Type*) where
  push : α → Q → Option Q
  pop : Q → Option (α × Q)

/-- The local `t` of a loop, the arguments of its calls of `usleep`, and whether
    the computation of a `t` has overflowed `int`. -/
structure Loop where
  t : BitVec 32
  delays : List (BitVec 32)
  overflow : Bool
  deriving DecidableEq, Repr

/-- hlockfreequeue.hpp:33, 43, `int t = 1`. -/
def Loop.start : Loop := { t := 1, delays := [], overflow := false }

/-- `t << 1` is not an `int`. -/
def shiftOverflows (t : BitVec 32) : Bool := 2 * t.toInt < -2 ^ 31 || 2 ^ 31 ≤ 2 * t.toInt

/-- hlockfreequeue.hpp:37, 46, the body of a loop. -/
def Loop.failed (l : Loop) : Loop where
  t := l.t <<< 1 ||| 1 &&& 0x000000FF
  delays := l.delays ++ [l.t]
  overflow := l.overflow || shiftOverflows l.t

variable {Q α : Type*}

/-- A loop around `attempt`; the attempts find the queue in the states `qs`. -/
def retry (attempt : Q → Bool) : List Q → Loop → Loop
  | [], l => l
  | q :: qs, l => if attempt q then l else retry attempt qs l.failed

/-- hlockfreequeue.hpp:24, `try_dequeue`. -/
def tryDequeue (m : LockfreeQueue Q α) (q : Q) : Option (α × Q) := m.pop q

/-- hlockfreequeue.hpp:32, `enqueue`. -/
def enqueue (m : LockfreeQueue Q α) (item : α) (qs : List Q) : Loop :=
  retry (fun q => (m.push item q).isSome) qs .start

/-- hlockfreequeue.hpp:42, `dequeue`. -/
def dequeue (m : LockfreeQueue Q α) (qs : List Q) : Loop :=
  retry (fun q => (tryDequeue m q).isSome) qs .start

/-! ## §2. The delays. -/

/-- The number of consecutive attempts that fail. -/
def failures (attempt : Q → Bool) (qs : List Q) : ℕ := (qs.takeWhile fun q => !attempt q).length

/-- A loop has done one turn for each attempt that failed. -/
theorem retry_eq (attempt : Q → Bool) (qs : List Q) (l : Loop) :
    retry attempt qs l = Loop.failed^[failures attempt qs] l := by
  induction qs generalizing l with
  | nil => rfl
  | cons q qs ih =>
      unfold retry failures
      by_cases h : attempt q = true
      · rw [if_pos h, List.takeWhile_cons_of_neg (by simp [h])]
        rfl
      · rw [if_neg h, List.takeWhile_cons_of_pos (by simp [h]), List.length_cons,
          Function.iterate_succ_apply]
        exact ih l.failed

/-- The delay after `k` attempts that failed before, `k + 1` low bits. -/
def delay (k : ℕ) : BitVec 32 := BitVec.ofNat 32 (2 ^ (k + 1) - 1)

/-- **The delays of a loop.** -/
theorem failed_delay (n : ℕ) :
    (Loop.failed^[n] .start).t = delay n
      ∧ (Loop.failed^[n] .start).delays = (List.range n).map delay := by
  induction n with
  | zero => exact ⟨rfl, rfl⟩
  | succ n ih =>
      obtain ⟨ht, hd⟩ := ih
      rw [Function.iterate_succ_apply']
      refine ⟨?_, ?_⟩
      · show (Loop.failed^[n] .start).t <<< 1 ||| 1 &&& 0x000000FF = delay (n + 1)
        rw [ht]
        exact ones_shl (n + 1)
      · show (Loop.failed^[n] .start).delays ++ [(Loop.failed^[n] .start).t] = _
        rw [ht, hd, List.range_succ, List.map_append]
        rfl

theorem delay_toNat {k : ℕ} (hk : k < 32) : (delay k).toNat = 2 ^ (k + 1) - 1 := by
  have hle : 2 ^ (k + 1) ≤ 2 ^ 32 := Nat.pow_le_pow_right (by decide) (by omega)
  have hpos : 0 < 2 ^ (k + 1) := Nat.two_pow_pos (k + 1)
  rw [delay, BitVec.toNat_ofNat, Nat.mod_eq_of_lt (by omega)]

/-- The first eight delays have at most eight bits, the ninth has nine. -/
theorem delay_le {k : ℕ} (hk : k < 8) : 1 ≤ (delay k).toNat ∧ (delay k).toNat ≤ 0xFF := by
  have hle : 2 ^ (k + 1) ≤ 2 ^ 8 := Nat.pow_le_pow_right (by decide) (by omega)
  have hge : 2 ^ 1 ≤ 2 ^ (k + 1) := Nat.pow_le_pow_right (by decide) (by omega)
  rw [delay_toNat (by omega)]
  omega

/-- The shift of a small `t` does not overflow. -/
theorem not_shiftOverflows {k : ℕ} (hk : k < 30) : shiftOverflows (delay k) = false := by
  have hle : 2 ^ (k + 1) ≤ 2 ^ 30 := Nat.pow_le_pow_right (by decide) (by omega)
  have hpos : 0 < 2 ^ (k + 1) := Nat.two_pow_pos (k + 1)
  have hint : (delay k).toInt = ((2 ^ (k + 1) - 1 : ℕ) : ℤ) := word_toInt (by omega)
  unfold shiftOverflows
  rw [hint]
  simp only [Bool.or_eq_false_iff, decide_eq_false_iff_not]
  omega

theorem failed_overflow {n : ℕ} (hn : n ≤ 30) : (Loop.failed^[n] .start).overflow = false := by
  induction n with
  | zero => rfl
  | succ n ih =>
      rw [Function.iterate_succ_apply']
      show ((Loop.failed^[n] .start).overflow || shiftOverflows (Loop.failed^[n] .start).t) = false
      rw [ih (by omega), (failed_delay n).1, not_shiftOverflows (by omega)]
      rfl

/-! ## §3. When the delays are bounded. -/

/-- Every delay so far was from 1 to 0xFF, and no `t` overflowed. -/
structure Bounded (l : Loop) : Prop where
  delays : ∀ d ∈ l.delays, 1 ≤ d.toNat ∧ d.toNat ≤ 0xFF
  fits : l.overflow = false

/-- **The bound of one loop**: it lasts for eight failed attempts. -/
theorem retry_bounded (attempt : Q → Bool) (qs : List Q) :
    Bounded (retry attempt qs .start) ↔ failures attempt qs ≤ 8 := by
  rw [retry_eq]
  constructor
  · intro h
    by_contra hmany
    -- the ninth delay is 511
    have hmem : delay 8 ∈ (Loop.failed^[failures attempt qs] .start).delays := by
      rw [(failed_delay _).2]
      exact List.mem_map_of_mem (List.mem_range.mpr (by omega))
    have hle := (h.delays _ hmem).2
    rw [delay_toNat (by omega)] at hle
    omega
  · intro hfew
    refine ⟨fun d hd => ?_, failed_overflow (by omega)⟩
    rw [(failed_delay _).2] at hd
    obtain ⟨k, hk, rfl⟩ := List.mem_map.mp hd
    have hlt : k < failures attempt qs := List.mem_range.mp hk
    exact delay_le (by omega)

/-- **Bounded back-off.**  In `enqueue` and in `dequeue` the delays stay between 1
    and 0xFF, and their computation within `int`, iff no more than eight attempts
    in a row fail. -/
theorem bounded_iff (m : LockfreeQueue Q α) (item : α) (qs : List Q) :
    (Bounded (enqueue m item qs) ↔ failures (fun q => (m.push item q).isSome) qs ≤ 8)
      ∧ (Bounded (dequeue m qs) ↔ failures (fun q => (tryDequeue m q).isSome) qs ≤ 8) :=
  ⟨retry_bounded _ qs, retry_bounded _ qs⟩

/-- A queue with room for one item. -/
def oneSlot : LockfreeQueue (Option ℕ) ℕ where
  push item q := if q = none then some (some item) else none
  pop q := q.map fun item => (item, none)

/-- With nine attempts that fail the last delay is 511; after 31 the shift has
    overflowed. -/
theorem ninth_delay :
    (enqueue oneSlot 7 (List.replicate 9 (some 3))).delays.getLast? = some 511
      ∧ (dequeue oneSlot (List.replicate 9 none)).delays.getLast? = some 511
      ∧ (enqueue oneSlot 7 (List.replicate 31 (some 3))).overflow = true
      ∧ ¬Bounded (enqueue oneSlot 7 (List.replicate 9 (some 3)))
      ∧ ¬Bounded (dequeue oneSlot (List.replicate 9 none)) := by
  refine ⟨by decide, by decide, by decide, fun h => ?_, fun h => ?_⟩
  · exact absurd (h.delays 511 (by decide)) (by decide)
  · exact absurd (h.delays 511 (by decide)) (by decide)

end HThread.Backoff
