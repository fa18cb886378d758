/-
  HThread.X86.Memory — bytes and words in memory.

  Memory is a function from 64-bit addresses to bytes.  A word of `w` bytes is
  stored with its low byte first; addresses wrap around.  `span a n` are the `n`
  addresses from `a` on.

  Key lemmas:
    * `load_store`          — what is stored is loaded again.
    * `load_store_disjoint` — a store elsewhere does not matter.
    * `store_eqOn`          — a store changes nothing outside its span.
    * `span_off_disjoint`   — spans at different offsets from one address.
-/
import Mathlib

namespace X86

abbrev Addr := BitVec 64

abbrev Mem := Addr → BitVec 8

/-! ## §1. Words. -/

/-- The word of `w` bytes at `a`. -/
def load : (w : ℕ) → Mem → Addr → BitVec (8 * w)
  | 0, _, _ => 0#0
  | w + 1, m, a => load w m (a + 1) ++ m a

/-- The memory with a word of `w` bytes at `a`. -/
def store (w : ℕ) (m : Mem) (a : Addr) (x : BitVec (8 * w)) : Mem := fun y =>
  if (y - a).toNat < w then x.extractLsb' (8 * (y - a).toNat) 8 else m y

/-- The address `n` bytes after `a`. -/
def off (a : Addr) (n : ℕ) : Addr := a + BitVec.ofNat 64 n

/-- The `n` addresses from `a` on. -/
def span (a : Addr) (n : ℕ) : Set Addr := {y | (y - a).toNat < n}

variable {m m' : Mem} {a b f : Addr} {w v n k c d : ℕ}

/-! ## §2. Offsets and spans. -/

@[simp] theorem off_zero (a : Addr) : off a 0 = a := BitVec.add_zero a

@[simp] theorem off_off (a : Addr) (n k : ℕ) : off (off a n) k = off a (n + k) := by
  apply BitVec.eq_of_toNat_eq
  simp only [off, BitVec.toNat_add, BitVec.toNat_ofNat]
  omega

theorem off_sub (a : Addr) (h : k ≤ n) : off a n - BitVec.ofNat 64 k = off a (n - k) := by
  apply BitVec.eq_of_toNat_eq
  simp only [off, BitVec.toNat_add, BitVec.toNat_sub, BitVec.toNat_ofNat]
  omega

/-- One word further down, and one further up. -/
theorem off_sub_word (a : Addr) (h : 8 ≤ n) : off a n - 8 = off a (n - 8) := off_sub a h

theorem off_add_word (a : Addr) (n : ℕ) : off a n + 8 = off a (n + 8) := off_off a n 8

theorem sub_off (a : Addr) (n : ℕ) : off (a - BitVec.ofNat 64 n) n = a :=
  BitVec.sub_add_cancel a _

/-- The distance between two offsets. -/
theorem toNat_off_sub (hc : c < 2 ^ 64) (hd : d < 2 ^ 64) :
    (off f c - off f d).toNat = if d ≤ c then c - d else 2 ^ 64 + c - d := by
  have hf := f.isLt
  simp only [off, BitVec.toNat_sub, BitVec.toNat_add, BitVec.toNat_ofNat]
  split <;> omega

theorem mem_span_off (hi : n < k) (hk : k ≤ 2 ^ 64) : off a n ∈ span a k := by
  show (off a n - a).toNat < k
  have hsub := toNat_off_sub (f := a) (c := n) (d := 0) (by omega) (by omega)
  rw [off_zero, if_pos (Nat.zero_le n)] at hsub
  omega

/-- An address in a span is an offset from its start. -/
theorem exists_off (h : a ∈ span b n) : ∃ i < n, a = off b i := by
  refine ⟨(a - b).toNat, h, ?_⟩
  rw [off, BitVec.ofNat_toNat, BitVec.setWidth_eq, BitVec.add_comm, BitVec.sub_add_cancel]

theorem span_off_disjoint (h : c + w ≤ d ∨ d + v ≤ c) (hc : c + w ≤ 2 ^ 64) (hd : d + v ≤ 2 ^ 64) :
    Disjoint (span (off f c) w) (span (off f d) v) := by
  rw [Set.disjoint_left]
  intro y hy hy'
  obtain ⟨i, hi, rfl⟩ := exists_off hy
  rw [off_off] at hy'
  have hlt : (off f (c + i) - off f d).toNat < v := hy'
  rw [toNat_off_sub (by omega) (by omega)] at hlt
  split at hlt <;> omega

/-- Spans one after the other. -/
theorem span_disjoint (h : a.toNat + n ≤ b.toNat) (hb : b.toNat + k ≤ 2 ^ 64) :
    Disjoint (span a n) (span b k) := by
  rw [Set.disjoint_left]
  intro y hy hy'
  have hy : (y - a).toNat < n := hy
  have hy' : (y - b).toNat < k := hy'
  have hylt := y.isLt
  rw [BitVec.toNat_sub] at hy hy'
  omega

theorem span_off_subset (h : c + w ≤ n) (hn : n ≤ 2 ^ 64) : span (off f c) w ⊆ span f n := by
  intro y hy
  obtain ⟨i, hi, rfl⟩ := exists_off hy
  rw [off_off]
  exact mem_span_off (by omega) hn

/-! ## §3. Loads and stores. -/

theorem getLsbD_load (w : ℕ) (m : Mem) (a : Addr) {i : ℕ} (hi : i < 8 * w) :
    (load w m a).getLsbD i = (m (off a (i / 8))).getLsbD (i % 8) := by
  induction w generalizing a i with
  | zero => omega
  | succ w ih =>
      show (load w m (a + 1) ++ m a).getLsbD i = _
      rw [BitVec.getLsbD_append]
      by_cases hlt : i < 8
      · rw [if_pos hlt, Nat.div_eq_of_lt hlt, off_zero, Nat.mod_eq_of_lt hlt]
      · rw [if_neg hlt, ih (a + 1) (by omega)]
        have hone : a + 1 = off a 1 := rfl
        have hdiv : 1 + (i - 8) / 8 = i / 8 := by omega
        have hmod : (i - 8) % 8 = i % 8 := by omega
        rw [hone, off_off, hdiv, hmod]

/-- The loaded word depends on the bytes of its span only. -/
theorem load_congr (hw : w ≤ 2 ^ 64) (h : Set.EqOn m m' (span a w)) : load w m a = load w m' a := by
  apply BitVec.eq_of_getLsbD_eq
  intro i hi
  rw [getLsbD_load w m a hi, getLsbD_load w m' a hi, h (mem_span_off (by omega) hw)]

/-- A store of the low bytes of a word. -/
theorem getLsbD_load_store (hw : w ≤ 2 ^ 64) (m : Mem) (a : Addr) (x : BitVec (8 * v))
    {i : ℕ} (hi : i < 8 * w) :
    (load w (store v m a x) a).getLsbD i
      = if i < 8 * v then x.getLsbD i else (load w m a).getLsbD i := by
  have hsub := toNat_off_sub (f := a) (c := i / 8) (d := 0) (by omega) (by omega)
  rw [off_zero, if_pos (Nat.zero_le _), Nat.sub_zero] at hsub
  rw [getLsbD_load w _ a hi, getLsbD_load w m a hi, store, hsub]
  by_cases hlt : i / 8 < v
  · rw [if_pos hlt, if_pos (by omega), BitVec.getLsbD_extractLsb', Nat.div_add_mod,
      decide_eq_true (Nat.mod_lt i (by decide)), Bool.true_and]
  · rw [if_neg hlt, if_neg (by omega)]

/-- **What is stored is loaded again.** -/
theorem load_store (hw : w ≤ 2 ^ 64) (m : Mem) (a : Addr) (x : BitVec (8 * w)) :
    load w (store w m a x) a = x := by
  apply BitVec.eq_of_getLsbD_eq
  intro i hi
  rw [getLsbD_load_store hw m a x hi, if_pos hi]

/-- Storing what is there changes nothing. -/
theorem store_load (w : ℕ) (m : Mem) (a : Addr) : store w m a (load w m a) = m := by
  funext y
  unfold store
  split
  case isTrue hlt =>
    have hy : off a (y - a).toNat = y := by
      rw [off, BitVec.ofNat_toNat, BitVec.setWidth_eq, BitVec.add_comm, BitVec.sub_add_cancel]
    apply BitVec.eq_of_getLsbD_eq
    intro j hj
    rw [BitVec.getLsbD_extractLsb', getLsbD_load w m a (by omega), decide_eq_true hj, Bool.true_and]
    have hdiv : (8 * (y - a).toNat + j) / 8 = (y - a).toNat := by omega
    have hmod : (8 * (y - a).toNat + j) % 8 = j := by omega
    rw [hdiv, hmod, hy]
  case isFalse => rfl

/-- A store changes nothing outside its span. -/
theorem store_eqOn (w : ℕ) (m : Mem) (a : Addr) (x : BitVec (8 * w)) {s : Set Addr}
    (h : Disjoint s (span a w)) : Set.EqOn (store w m a x) m s := by
  intro y hy
  exact if_neg fun hlt => Set.disjoint_left.mp h hy hlt

/-- **A store elsewhere does not matter.** -/
theorem load_store_disjoint (hw : w ≤ 2 ^ 64) (m : Mem) (x : BitVec (8 * v))
    (h : Disjoint (span a w) (span b v)) : load w (store v m b x) a = load w m a :=
  load_congr hw (store_eqOn v m b x h)

/-- The same for two offsets from one address. -/
theorem load_store_off (m : Mem) (f : Addr) (x : BitVec (8 * v)) (h : c + w ≤ d ∨ d + v ≤ c)
    (hc : c + w ≤ 2 ^ 64) (hd : d + v ≤ 2 ^ 64) :
    load w (store v m (off f d) x) (off f c) = load w m (off f c) :=
  load_store_disjoint (by omega) m x (span_off_disjoint h hc hd)

end X86
