/-
  HThread.Tthreads.CoreId — the constructor of tthreads and the core ids of its
  workers, tthreads.cpp.

  `add_pthread` numbers the workers it creates through the member `core_id`,
  which it increments and wraps at `core_num`.  The constructor calls it before
  it assigns `core_id`, so the numbering starts with whatever the memory of the
  new object contained.

  Key lemma:
    * `addPthread_eq` — from a start below `core_num` the ids go round once.
  Main result:
    * `coreIds_iff` — for which memory contents the workers get the ids
      0, …, N − 1.
-/
import Mathlib.Data.List.Rotate
import HThread.Interleave.Words

namespace HThread.Workers

open Interleave

/-! ## §1. The code. -/

/-- The members of `tthreads` that the numbering uses, and the `core_id` of each
    worker in `real_threads`. -/
structure Tthreads where
  coreNum : BitVec 32
  coreId : BitVec 32
  realThreads : List (BitVec 32)
  deriving DecidableEq, Repr

/-- tthreads.cpp:63, `add_pthread`: one turn of the loop for each of the `n_threads`
    workers. -/
def addPthread : ℕ → Tthreads → Tthreads
  | 0, ts => ts
  | n + 1, ts =>
      let coreId := ts.coreId + 1
      addPthread n { ts with
        coreId := if ts.coreNum.sle coreId then 0 else coreId
        realThreads := ts.realThreads ++ [ts.coreId] }

/-- tthreads.cpp:22, the constructor; `mem` is what the memory of `core_id` contains
    before, `getNprocs` what `get_nprocs()` returns. -/
def tthreads (nThreads : ℕ) (getNprocs mem : BitVec 32) : Tthreads :=
  let ts := addPthread nThreads { coreNum := getNprocs, coreId := mem, realThreads := [] }
  { ts with coreId := 0 }

/-- mgr_thread.cpp:119, the worker with this `core_id` does not go back to sleep. -/
def mayRun (nThreadsAllowed coreId : BitVec 32) : Bool := !nThreadsAllowed.sle coreId

/-! ## §2. The ids go round. -/

/-- From `i` on, the next `m` ids modulo `n`. -/
def idsFrom (n i m : ℕ) : List (BitVec 32) :=
  (List.range m).map fun j => BitVec.ofNat 32 ((i + j) % n)

theorem sle_word {k n : ℕ} (hk : k < 2 ^ 31) (hn : n < 2 ^ 31) :
    (BitVec.ofNat 32 n).sle (BitVec.ofNat 32 k) = decide (n ≤ k) := by
  simp [BitVec.sle, word_toInt hk, word_toInt hn]

theorem idsFrom_succ {n i m : ℕ} (hi : i < n) :
    idsFrom n i (m + 1) = BitVec.ofNat 32 i :: idsFrom n (if n ≤ i + 1 then 0 else i + 1) m := by
  unfold idsFrom
  rw [List.range_succ_eq_map, List.map_cons, List.map_map]
  congr 1
  · rw [Nat.add_zero, Nat.mod_eq_of_lt hi]
  · apply List.map_congr_left
    intro j _
    show BitVec.ofNat 32 ((i + (j + 1)) % n) = _
    congr 1
    -- the id after n - 1 is 0
    by_cases hlast : n ≤ i + 1
    · rw [if_pos hlast, show i + (j + 1) = 0 + j + n by omega, Nat.add_mod_right]
    · rw [if_neg hlast, show i + (j + 1) = i + 1 + j by omega]

/-- A numbering that starts below `core_num` goes round. -/
theorem addPthread_eq {n i : ℕ} (m : ℕ) (ids : List (BitVec 32)) (hi : i < n) (hn : n < 2 ^ 31) :
    (addPthread m ⟨BitVec.ofNat 32 n, BitVec.ofNat 32 i, ids⟩).realThreads
      = ids ++ idsFrom n i m := by
  induction m generalizing i ids with
  | zero => exact (List.append_nil ids).symm
  -- induction on the workers to come; the next id is below `core_num` again
  | succ m ih =>
      have hnext : (if (BitVec.ofNat 32 n).sle (BitVec.ofNat 32 i + 1) then 0
          else BitVec.ofNat 32 i + 1) = BitVec.ofNat 32 (if n ≤ i + 1 then 0 else i + 1) := by
        rw [word_succ, sle_word (by omega) hn]
        by_cases hlast : n ≤ i + 1
        · rw [if_pos (by simpa using hlast), if_pos hlast]
          rfl
        · rw [if_neg (by simpa using hlast), if_neg hlast]
      have hlt : (if n ≤ i + 1 then 0 else i + 1) < n := by
        split <;> omega
      unfold addPthread
      simp only
      rw [hnext, ih (ids ++ [BitVec.ofNat 32 i]) hlt, idsFrom_succ hi, List.append_assoc,
        List.singleton_append]

/-- Going round once meets every id once. -/
theorem idsFrom_perm (n i : ℕ) :
    (idsFrom n i n).Perm ((List.range n).map (BitVec.ofNat 32)) := by
  have hrot : (List.range n).map (fun j => (i + j) % n) = (List.range n).rotate i := by
    apply List.ext_getElem
    · simp
    · intro k hk _
      rw [List.getElem_rotate]
      simp [Nat.add_comm]
  -- so the ids from `i` on are those from 0 on, rotated
  have hmap : idsFrom n i n = ((List.range n).rotate i).map (BitVec.ofNat 32) := by
    rw [← hrot, List.map_map]
    rfl
  rw [hmap]
  exact (List.rotate_perm (List.range n) i).map _

/-- The first worker gets what the memory contained. -/
theorem mem_addPthread (m : ℕ) (ts : Tthreads) {id : BitVec 32} (hid : id ∈ ts.realThreads) :
    id ∈ (addPthread m ts).realThreads := by
  induction m generalizing ts with
  | zero => exact hid
  | succ m ih => exact ih _ (List.mem_append_left _ hid)

/-! ## §3. When the quota is honoured. -/

/-- The `n` workers have the ids 0, …, n − 1, each once, and for every admissible
    `N_THREADS_ALLOWED` that many may run. -/
structure CoreIdsOk (n : ℕ) (workers : List (BitVec 32)) : Prop where
  perm : workers.Perm ((List.range n).map (BitVec.ofNat 32))
  quota : ∀ k, 1 ≤ k → k ≤ n → workers.countP (mayRun (BitVec.ofNat 32 k)) = k

/-- The ids 0, …, n − 1 honour every quota. -/
theorem quota_of_perm {n : ℕ} {workers : List (BitVec 32)} (hn : n < 2 ^ 31)
    (hperm : workers.Perm ((List.range n).map (BitVec.ofNat 32))) {k : ℕ} (hk : k ≤ n) :
    workers.countP (mayRun (BitVec.ofNat 32 k)) = k := by
  rw [hperm.countP_eq, List.countP_map]
  have hsplit : List.range n = List.range k ++ (List.range (n - k)).map (k + ·) := by
    rw [← List.range_add]
    congr 1
    omega
  rw [hsplit, List.countP_append]
  -- the workers below the quota run, the others do not
  have hlow : (List.range k).countP (mayRun (BitVec.ofNat 32 k) ∘ BitVec.ofNat 32) = k := by
    rw [List.countP_eq_length.mpr, List.length_range]
    intro i hi
    have hik : i < k := List.mem_range.mp hi
    show (!(BitVec.ofNat 32 k).sle (BitVec.ofNat 32 i)) = true
    rw [sle_word (by omega) (by omega)]
    simpa using hik
  have hhigh : ((List.range (n - k)).map (k + ·)).countP
      (mayRun (BitVec.ofNat 32 k) ∘ BitVec.ofNat 32) = 0 := by
    rw [List.countP_eq_zero]
    intro i hi
    obtain ⟨j, hj, rfl⟩ := List.mem_map.mp hi
    have hjn : j < n - k := List.mem_range.mp hj
    show ¬(!(BitVec.ofNat 32 k).sle (BitVec.ofNat 32 (k + j))) = true
    rw [sle_word (by omega) (by omega)]
    simp
  rw [hlow, hhigh, Nat.add_zero]

/-- **Worker quota.**  With as many workers as cores, they get the ids
    0, …, N − 1 and honour every quota iff the memory of `core_id` happened to
    contain one of these ids. -/
theorem coreIds_iff {n : ℕ} (hpos : 1 ≤ n) (hn : n < 2 ^ 31) (mem : BitVec 32) :
    CoreIdsOk n (tthreads n (BitVec.ofNat 32 n) mem).realThreads
      ↔ 0 ≤ mem.toInt ∧ mem.toInt < n := by
  constructor
  · -- the first id is the old content
    intro h
    have hfirst : mem ∈ (tthreads n (BitVec.ofNat 32 n) mem).realThreads := by
      obtain ⟨m, rfl⟩ : ∃ m, n = m + 1 := ⟨n - 1, by omega⟩
      exact mem_addPthread m _ (by simp)
    obtain ⟨i, hi, rfl⟩ := List.mem_map.mp (h.perm.mem_iff.mp hfirst)
    have hin : i < n := List.mem_range.mp hi
    rw [word_toInt (by omega)]
    omega
  · rintro ⟨hlow, hhigh⟩
    -- the numbering starts at one of the ids and goes round once
    obtain ⟨i, hi, rfl⟩ : ∃ i, i < n ∧ mem = BitVec.ofNat 32 i := by
      refine ⟨mem.toInt.toNat, by omega, ?_⟩
      apply BitVec.eq_of_toInt_eq
      rw [word_toInt (by omega)]
      omega
    have hids : (tthreads n (BitVec.ofNat 32 n) (BitVec.ofNat 32 i)).realThreads = idsFrom n i n := by
      show (addPthread n ⟨BitVec.ofNat 32 n, BitVec.ofNat 32 i, []⟩).realThreads = _
      rw [addPthread_eq n [] hi hn, List.nil_append]
    have hperm := idsFrom_perm n i
    rw [hids]
    exact ⟨hperm, fun k _ hk => quota_of_perm hn hperm hk⟩

/-- Memory that contained 1. -/
theorem coreIds_iff_dirty :
    CoreIdsOk 2 (tthreads 2 2 1).realThreads :=
  (coreIds_iff (n := 2) (by decide) (by decide) 1).mpr (by decide)

/-- Two workers, memory that contained 7: no worker has the id 1, and with a quota
    of 2 only one may run. -/
theorem coreId_from_memory :
    (tthreads 2 2 7).realThreads = [7, 0]
      ∧ (tthreads 2 2 7).realThreads.countP (mayRun 2) = 1
      ∧ ¬CoreIdsOk 2 (tthreads 2 2 7).realThreads := by
  refine ⟨by decide, by decide, fun h => ?_⟩
  exact absurd (h.quota 2 (by decide) (by decide)) (by decide)

end HThread.Workers
