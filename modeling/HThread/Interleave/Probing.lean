/-
  HThread.Interleave.Probing — tables with linear probing that only grow.

  A key is looked for from its home on, slot after slot, round the table, until it
  or an empty slot is met; it is put into the first empty slot.  As long as no key
  is removed, every slot before a key on its way is occupied, so who meets an empty
  slot knows that the key is not there.

  Key lemmas:
    * `Probing.insert` — a key that is not there goes into the first empty slot.
    * `Probing.absent` — who meets an empty slot first knows that the key is not there.
    * `Trail.lt`       — the way ends before it has been round, if a slot is empty.
-/
import Mathlib.Data.Nat.Notation
import Mathlib.Logic.Function.Basic

namespace Interleave

open Function (update)

variable {K : Type*} {home : K → ℕ} {slot : ℕ → Option K} {cap d i n : ℕ} {k : K}

/-- The first `d` slots from `n` on are occupied. -/
def Trail (slot : ℕ → Option K) (cap n d : ℕ) : Prop := ∀ i < d, slot ((n + i) % cap) ≠ none

/-- Every key is in one slot, and the slots before it on its way are occupied. -/
structure Probing (home : K → ℕ) (slot : ℕ → Option K) (cap : ℕ) : Prop where
  inside : ∀ i k, slot i = some k → i < cap
  once : ∀ i j k, slot i = some k → slot j = some k → i = j
  way : ∀ i k, slot i = some k → ∃ d < cap, i = (home k + d) % cap ∧ Trail slot cap (home k) d

theorem trail_zero : Trail slot cap n 0 := fun i hi => absurd hi (Nat.not_lt_zero i)

theorem Trail.succ (h : Trail slot cap n d) (hd : slot ((n + d) % cap) ≠ none) :
    Trail slot cap n (d + 1) := by
  intro i hi
  rcases Nat.lt_succ_iff_lt_or_eq.mp hi with hlt | rfl
  · exact h i hlt
  · exact hd

/-- Occupied slots stay occupied. -/
theorem Trail.mono {slot' : ℕ → Option K} (h : Trail slot cap n d)
    (hs : ∀ i, slot i ≠ none → slot' i ≠ none) : Trail slot' cap n d :=
  fun i hi => hs _ (h i hi)

/-- The way of `cap` steps visits every slot. -/
theorem exists_step (hcap : 0 < cap) (n : ℕ) (hi : i < cap) : ∃ d < cap, (n + d) % cap = i := by
  have hn : n % cap < cap := Nat.mod_lt n hcap
  refine ⟨(i + (cap - n % cap)) % cap, Nat.mod_lt _ hcap, ?_⟩
  rw [Nat.add_mod, Nat.mod_mod, ← Nat.add_mod]
  -- to the end of this round, and `i` slots into the next
  have hsplit : n + (i + (cap - n % cap)) = i + cap * (n / cap + 1) := by
    have hdiv := Nat.div_add_mod n cap
    rw [Nat.mul_add, Nat.mul_one]
    omega
  rw [hsplit, Nat.add_mul_mod_self_left, Nat.mod_eq_of_lt hi]

/-- **The way ends**: it has not been round while a slot is empty. -/
theorem Trail.lt (h : Trail slot cap n d) (hi : i < cap) (hempty : slot i = none) : d < cap := by
  obtain ⟨e, he, hslot⟩ := exists_step (by omega) n hi
  by_contra hge
  refine h e (by omega) ?_
  rw [hslot]
  exact hempty

/-- **Who meets an empty slot first knows that the key is not there.** -/
theorem Probing.absent (h : Probing home slot cap)
    (hno : ∀ i < d, slot ((home k + i) % cap) ≠ some k)
    (hempty : slot ((home k + d) % cap) = none) (i : ℕ) : slot i ≠ some k := by
  intro hi
  obtain ⟨e, -, rfl, htrail⟩ := h.way i k hi
  rcases Nat.lt_trichotomy e d with hlt | rfl | hgt
  · exact hno e hlt hi
  · rw [hempty] at hi
    cases hi
  · exact htrail d hgt hempty

/-- **A new key goes into the first empty slot on its way.** -/
theorem Probing.insert (h : Probing home slot cap) (hcap : 0 < cap)
    (htrail : Trail slot cap (home k) d) (hempty : slot ((home k + d) % cap) = none)
    (hno : ∀ i, slot i ≠ some k) :
    Probing home (update slot ((home k + d) % cap) (some k)) cap := by
  have hlt : (home k + d) % cap < cap := Nat.mod_lt _ hcap
  have hmono : ∀ i, slot i ≠ none → update slot ((home k + d) % cap) (some k) i ≠ none := by
    intro i hi
    by_cases hid : i = (home k + d) % cap
    · rw [hid, Function.update_self]
      nofun
    · rw [Function.update_of_ne hid]
      exact hi
  have hold : ∀ i j, update slot ((home k + d) % cap) (some k) i = some j →
      (i = (home k + d) % cap ∧ j = k) ∨ (i ≠ (home k + d) % cap ∧ slot i = some j) := by
    intro i j hij
    by_cases hid : i = (home k + d) % cap
    · rw [hid, Function.update_self] at hij
      exact .inl ⟨hid, (Option.some.inj hij).symm⟩
    · rw [Function.update_of_ne hid] at hij
      exact .inr ⟨hid, hij⟩
  refine ⟨fun i j hij => ?_, fun i i' j hij hij' => ?_, fun i j hij => ?_⟩
  · rcases hold i j hij with ⟨rfl, -⟩ | ⟨-, hij⟩
    · exact hlt
    · exact h.inside i j hij
  · rcases hold i j hij with ⟨hi, hj⟩ | ⟨-, hi⟩
    · rcases hold i' j hij' with ⟨hi', -⟩ | ⟨-, hi'⟩
      · rw [hi, hi']
      · rw [hj] at hi'
        exact absurd hi' (hno i')
    · rcases hold i' j hij' with ⟨-, hj⟩ | ⟨-, hi'⟩
      · rw [hj] at hi
        exact absurd hi (hno i)
      · exact h.once i i' j hi hi'
  -- the new key's way is the one it has come; on the other ways nothing becomes empty
  · rcases hold i j hij with ⟨hi, hj⟩ | ⟨-, hi⟩
    · rw [hj]
      exact ⟨d, htrail.lt hlt hempty, hi, htrail.mono hmono⟩
    · obtain ⟨e, he, heq, hway⟩ := h.way i j hi
      exact ⟨e, he, heq, hway.mono hmono⟩

end Interleave
