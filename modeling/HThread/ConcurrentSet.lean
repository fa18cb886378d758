/-
  HThread.ConcurrentSet — `concurrent_set` of concurrent_set.hpp.

  The elements are spread over `SIZE` buckets by a hash of their bytes; `insert`
  and `erase` lock the bucket of their element, `get_all` goes through the
  buckets and locks one at a time.  An insertion or a deletion is one step of
  the machine `concurrentSet`; of `get_all` the test for an empty bucket, which
  takes no lock, is one step, and the copy of a bucket another.

  The order in which a `std::unordered_set` is iterated over is not specified:
  the action that copies a bucket carries it.

  Key lemmas:
    * `hash_lt`    — the index of a bucket is in range.
    * `sound_step` — the buckets partition the set, and a scan copies them.
  Main result:
    * `concurrent_set_sound` — `concurrent_set` is a set.
-/
import Mathlib.Data.Finset.Union
import HThread.Interleave.Histories
import HThread.Interleave.Machine
import HThread.Interleave.Words

namespace HThread.ConcurrentSet

open Interleave
open Function (update)

variable {T E : Type} [DecidableEq T] [DecidableEq E] (SIZE : ℕ) (bytes : E → List (BitVec 8))

/-! ## §1. The code. -/

omit [DecidableEq E] in
/-- concurrent_set.hpp:19, `hash`.  The accumulator is a `char`: every assignment to
    it keeps the low byte of an `int`. -/
def hash (v : E) : BitVec 32 :=
  let sum := (bytes v).foldl (fun sum p => sum + p) 0#8
  let sum := (sum.signExtend 32 * 179425823#32).setWidth 8
  let sum := ((sum.signExtend 32).sshiftRight 3).setWidth 8
  sum.signExtend 32 &&& (BitVec.ofNat 32 SIZE - 1#32)

/-- Program points. -/
inductive SetPc (E : Type) where
  /-- No call yet. -/
  | idle
  /-- concurrent_set.hpp:89, the loop of `get_all`: its test, and `empty()` of bucket `i`. -/
  | check (i : ℕ) (ret : List E)
  /-- concurrent_set.hpp:93, bucket `i` is copied under its lock. -/
  | collect (i : ℕ) (ret : List E)
  /-- `insert` or `erase` has returned, -/
  | answered (ret : Bool)
  /-- or `get_all` has. -/
  | gotAll (ret : List E)
  deriving DecidableEq, Repr

/-- Inside `get_all`. -/
def SetPc.scanning : SetPc E → Bool
  | check .. | collect .. => true
  | idle | answered _ | gotAll _ => false

/-- The buckets with the threads' program points.  History: the contents of the set
    at all moments of a thread's last call of `get_all`. -/
structure SetState (T E : Type) where
  buckets : ℕ → Finset E
  pc : T → SetPc E
  moments : T → List (Finset E)

/-- An action of thread `t`: a call of `insert` or `erase`, the start of a call of
    `get_all`, its next test, or the copy of a bucket in the order `l`. -/
inductive SetAct (T E : Type) where
  | insert (t : T) (v : E)
  | erase (t : T) (v : E)
  | getAll (t : T)
  | check (t : T)
  | collect (t : T) (l : List E)
  deriving DecidableEq, Repr

omit [DecidableEq E] in
/-- Thread `t` moves to `p`. -/
def SetState.goto (s : SetState T E) (t : T) (p : SetPc E) : SetState T E :=
  { s with pc := update s.pc t p }

/-- concurrent_set.hpp:50, `insert`. -/
def insert (s : SetState T E) (t : T) (v : E) : SetState T E :=
  let bucketIdx := (hash SIZE bytes v).toNat
  if v ∈ s.buckets bucketIdx then s.goto t (.answered false)
  else
    { s with buckets := update s.buckets bucketIdx (Insert.insert v (s.buckets bucketIdx)) }.goto t
      (.answered true)

/-- concurrent_set.hpp:64, `erase`. -/
def erase (s : SetState T E) (t : T) (v : E) : SetState T E :=
  let bucketIdx := (hash SIZE bytes v).toNat
  if v ∉ s.buckets bucketIdx then s.goto t (.answered false)
  else
    { s with buckets := update s.buckets bucketIdx ((s.buckets bucketIdx).erase v) }.goto t
      (.answered true)

/-- concurrent_set.hpp:87, `get_all`; the iterator of bucket `i` runs through `l`. -/
def getAll (s : SetState T E) (t : T) (l : List E) : SetPc E → Option (SetState T E)
  | .check i ret =>
      some (s.goto t
        (if i < SIZE then if s.buckets i = ∅ then .check (i + 1) ret else .collect i ret
          else .gotAll ret))
  | .collect i ret =>
      if l.Nodup ∧ l.toFinset = s.buckets i then some (s.goto t (.check (i + 1) (ret ++ l)))
      else none
  | .idle | .answered _ | .gotAll _ => none

/-- The set. -/
def SetState.contents (s : SetState T E) : Finset E := (Finset.range SIZE).biUnion s.buckets

/-- The history after a step: one more moment for the calls that go on. -/
def SetState.watch (s : SetState T E) : SetState T E :=
  { s with moments := fun t =>
      if (s.pc t).scanning then s.contents SIZE :: s.moments t else s.moments t }

/-- One step of one thread. -/
def setMove (s : SetState T E) : SetAct T E → Option (SetState T E)
  | .insert t v => if (s.pc t).scanning then none else some (insert SIZE bytes s t v)
  | .erase t v => if (s.pc t).scanning then none else some (erase SIZE bytes s t v)
  | .getAll t =>
      if (s.pc t).scanning then none
      else some ({ s with moments := update s.moments t [] }.goto t (.check 0 []))
  | .check t =>
      match s.pc t with
      | .check i ret => getAll SIZE s t [] (.check i ret)
      | _ => none
  | .collect t l =>
      match s.pc t with
      | .collect i ret => getAll SIZE s t l (.collect i ret)
      | _ => none

/-- The step, with the history. -/
def setStep (s : SetState T E) (act : SetAct T E) : Option (SetState T E) :=
  (setMove SIZE bytes s act).map (SetState.watch SIZE)

/-- concurrent_set.hpp:35, the constructor. -/
def setInit : SetState T E where
  buckets _ := ∅
  pc _ := .idle
  moments _ := []

/-- The set and its users. -/
def concurrentSet : Machine (SetState T E) (SetAct T E) where
  init s := s = setInit
  step := setStep SIZE bytes

/-! ## §2. The hash. -/

section Hash

variable {SIZE} (hpos : 0 < SIZE) (hint : SIZE < 2 ^ 31)

include hpos hint

omit [DecidableEq E] in
/-- The mask of the last line. -/
theorem hash_lt (v : E) : (hash SIZE bytes v).toNat < SIZE := by
  have hmask : (BitVec.ofNat 32 SIZE - 1#32).toNat = SIZE - 1 := by
    obtain ⟨k, rfl⟩ : ∃ k, SIZE = k + 1 := ⟨SIZE - 1, by omega⟩
    show (BitVec.ofNat 32 (k + 1) - 1).toNat = k + 1 - 1
    rw [word_pred, BitVec.toNat_ofNat]
    omega
  have hle : (hash SIZE bytes v).toNat ≤ SIZE - 1 := by
    rw [← hmask]
    show (_ &&& _ : BitVec 32).toNat ≤ _
    rw [BitVec.toNat_and]
    exact Nat.and_le_right
  omega

omit [DecidableEq E] in
/-- It is not negative as an `int`. -/
theorem hash_toInt (v : E) : (hash SIZE bytes v).toInt = (hash SIZE bytes v).toNat := by
  have hlt := hash_lt bytes hpos hint v
  exact BitVec.toInt_eq_toNat_of_lt (by omega)

end Hash

/-! ## §3. The invariant. -/

/-- What a thread inside `get_all` has, and what a call has returned. -/
def ScanOk (part : E → ℕ) (moments : List (Finset E)) : SetPc E → Prop
  | .check i ret => i ≤ SIZE ∧ Scanned part moments i ret
  | .collect i ret => i < SIZE ∧ Scanned part moments i ret
  | .gotAll ret => Scanned part moments SIZE ret
  | .idle | .answered _ => True

/-- Every element is in the bucket of its hash only. -/
def AtHome (s : SetState T E) : Prop := ∀ i, ∀ v ∈ s.buckets i, i = (hash SIZE bytes v).toNat

/-- The buckets partition the set, and the scans are scans of it. -/
structure Sound (s : SetState T E) : Prop where
  home : AtHome SIZE bytes s
  scan : ∀ t, ScanOk SIZE (fun v => (hash SIZE bytes v).toNat) (s.moments t) (s.pc t)
  now : ∀ t, (s.pc t).scanning = true → s.contents SIZE ∈ s.moments t

section Steps

variable {SIZE bytes} {s s' : SetState T E} {act : SetAct T E} {t : T} {v : E}
variable (hpos : 0 < SIZE) (hint : SIZE < 2 ^ 31)

omit [DecidableEq T] [DecidableEq E] in
theorem scanOk_later {part : E → ℕ} {moments : List (Finset E)} {p : SetPc E}
    (h : ScanOk SIZE part moments p) (P : Finset E) : ScanOk SIZE part (P :: moments) p := by
  cases p with
  | check i ret => exact ⟨h.1, h.2.later P⟩
  | collect i ret => exact ⟨h.1, h.2.later P⟩
  | gotAll ret => exact Scanned.later h P
  | idle | answered => trivial

omit [DecidableEq E] in
theorem scanOk_goto {part : E → ℕ} {p : SetPc E}
    (h : ∀ x, ScanOk SIZE part (s.moments x) (s.pc x)) (hp : ScanOk SIZE part (s.moments t) p)
    (x : T) : ScanOk SIZE part ((s.goto t p).moments x) ((s.goto t p).pc x) := by
  show ScanOk SIZE part (s.moments x) (update s.pc t p x)
  by_cases hx : x = t
  · rw [hx, Function.update_self]
    exact hp
  · rw [Function.update_of_ne hx]
    exact h x

include hpos hint

omit [DecidableEq T] in
/-- The set by its buckets. -/
theorem mem_contents (h : AtHome SIZE bytes s) :
    v ∈ s.contents SIZE ↔ v ∈ s.buckets (hash SIZE bytes v).toNat := by
  simp only [SetState.contents, Finset.mem_biUnion, Finset.mem_range]
  constructor
  · rintro ⟨i, -, hi⟩
    rw [← h i v hi]
    exact hi
  · exact fun hv => ⟨_, hash_lt bytes hpos hint v, hv⟩

omit hpos hint [DecidableEq T] [DecidableEq E] in
/-- A bucket is replaced by one whose elements belong there. -/
theorem atHome_update (h : AtHome SIZE bytes s) {i : ℕ} {bucket : Finset E}
    (hbucket : ∀ e ∈ bucket, i = (hash SIZE bytes e).toNat) :
    AtHome SIZE bytes { s with buckets := update s.buckets i bucket } := by
  intro j e he
  have he : e ∈ update s.buckets i bucket j := he
  by_cases hj : j = i
  · rw [hj, Function.update_self] at he
    exact hj.trans (hbucket e he)
  · rw [Function.update_of_ne hj] at he
    exact h j e he

omit hpos hint in
theorem insert_home (h : AtHome SIZE bytes s) : AtHome SIZE bytes (insert SIZE bytes s t v) := by
  unfold insert
  by_cases hv : v ∈ s.buckets (hash SIZE bytes v).toNat
  · rw [if_pos hv]
    exact h
  · rw [if_neg hv]
    refine atHome_update h fun e he => ?_
    rcases Finset.mem_insert.mp he with rfl | he
    · rfl
    · exact h _ e he

omit hpos hint in
theorem erase_home (h : AtHome SIZE bytes s) : AtHome SIZE bytes (erase SIZE bytes s t v) := by
  unfold erase
  by_cases hv : v ∉ s.buckets (hash SIZE bytes v).toNat
  · rw [if_pos hv]
    exact h
  · rw [if_neg hv]
    exact atHome_update h fun e he => h _ e (Finset.mem_of_mem_erase he)

/-- `insert` puts its element into the set, and tells whether it was absent. -/
theorem insert_answer (h : AtHome SIZE bytes s) :
    (insert SIZE bytes s t v).pc t = .answered (decide (v ∉ s.contents SIZE))
      ∧ (insert SIZE bytes s t v).contents SIZE = Insert.insert v (s.contents SIZE) := by
  refine ⟨?_, ?_⟩
  · have hmem := mem_contents (v := v) hpos hint h
    unfold insert
    by_cases hv : v ∈ s.buckets (hash SIZE bytes v).toNat
    · rw [if_pos hv, decide_eq_false (not_not.mpr (hmem.mpr hv))]
      exact Function.update_self ..
    · have habsent : v ∉ s.contents SIZE := fun hc => hv (hmem.mp hc)
      rw [if_neg hv, decide_eq_true habsent]
      exact Function.update_self ..
  · ext e
    rw [mem_contents hpos hint (insert_home h), Finset.mem_insert, mem_contents hpos hint h]
    unfold insert
    by_cases hv : v ∈ s.buckets (hash SIZE bytes v).toNat
    · rw [if_pos hv]
      refine ⟨.inr, ?_⟩
      rintro (rfl | he)
      · exact hv
      · exact he
    · rw [if_neg hv]
      show e ∈ update s.buckets (hash SIZE bytes v).toNat
        (Insert.insert v (s.buckets (hash SIZE bytes v).toNat)) (hash SIZE bytes e).toNat ↔ _
      by_cases hi : (hash SIZE bytes e).toNat = (hash SIZE bytes v).toNat
      · rw [hi, Function.update_self, Finset.mem_insert]
      · rw [Function.update_of_ne hi]
        refine ⟨.inr, ?_⟩
        rintro (rfl | he)
        · exact absurd rfl hi
        · exact he

/-- `erase` takes its element out, and tells whether it was present. -/
theorem erase_answer (h : AtHome SIZE bytes s) :
    (erase SIZE bytes s t v).pc t = .answered (decide (v ∈ s.contents SIZE))
      ∧ (erase SIZE bytes s t v).contents SIZE = (s.contents SIZE).erase v := by
  refine ⟨?_, ?_⟩
  · have hmem := mem_contents (v := v) hpos hint h
    unfold erase
    by_cases hv : v ∉ s.buckets (hash SIZE bytes v).toNat
    · rw [if_pos hv, decide_eq_false (fun hc => hv (hmem.mp hc))]
      exact Function.update_self ..
    · rw [if_neg hv, decide_eq_true (hmem.mpr (not_not.mp hv))]
      exact Function.update_self ..
  · ext e
    rw [mem_contents hpos hint (erase_home h), Finset.mem_erase, mem_contents hpos hint h]
    unfold erase
    by_cases hv : v ∉ s.buckets (hash SIZE bytes v).toNat
    · rw [if_pos hv]
      refine ⟨fun he => ⟨?_, he⟩, fun he => he.2⟩
      rintro rfl
      exact hv he
    · rw [if_neg hv]
      show e ∈ update s.buckets (hash SIZE bytes v).toNat
        ((s.buckets (hash SIZE bytes v).toNat).erase v) (hash SIZE bytes e).toNat ↔ _
      by_cases hi : (hash SIZE bytes e).toNat = (hash SIZE bytes v).toNat
      · rw [hi, Function.update_self, Finset.mem_erase]
      · rw [Function.update_of_ne hi]
        refine ⟨fun he => ⟨?_, he⟩, fun he => he.2⟩
        rintro rfl
        exact hi rfl

omit hpos hint in
/-- `get_all` leaves the buckets alone. -/
theorem getAll_home (h : AtHome SIZE bytes s) {l : List E} {p : SetPc E}
    (hs : getAll SIZE s t l p = some s') : AtHome SIZE bytes s' := by
  cases p with
  | check i ret =>
      obtain rfl := Option.some.inj hs
      exact h
  | collect i ret =>
      simp only [getAll, Option.ite_none_right_eq_some] at hs
      obtain ⟨-, hs⟩ := hs
      obtain rfl := Option.some.inj hs
      exact h
  | idle | answered | gotAll => cases hs

/-- A step of `get_all` keeps what it has copied a scan of the set. -/
theorem getAll_scan (h : Sound SIZE bytes s) {l : List E}
    (hs : getAll SIZE s t l (s.pc t) = some s') (x : T) :
    ScanOk SIZE (fun v => (hash SIZE bytes v).toNat) (s'.moments x) (s'.pc x) := by
  have hscan := h.scan t
  have hnow := h.now t
  cases hpc : s.pc t with
  | check i ret =>
      rw [hpc] at hs hscan hnow
      obtain rfl := Option.some.inj hs
      refine scanOk_goto h.scan ?_ x
      by_cases hi : i < SIZE
      · rw [if_pos hi]
        by_cases hempty : s.buckets i = ∅
        · -- an empty bucket is a copy of nothing
          rw [if_pos hempty]
          have hnext := hscan.2.next (hnow rfl) (l := []) .nil fun e => ?_
          · rw [List.append_nil] at hnext
            exact ⟨hi, hnext⟩
          · refine ⟨fun he => (by cases he), fun he => ?_⟩
            have hmem := (mem_contents hpos hint h.home).mp he.1
            rw [he.2, hempty] at hmem
            exact absurd hmem (Finset.notMem_empty e)
        · rw [if_neg hempty]
          exact ⟨hi, hscan.2⟩
      · rw [if_neg hi]
        obtain rfl : i = SIZE := Nat.le_antisymm hscan.1 (Nat.not_lt.mp hi)
        exact hscan.2
  | collect i ret =>
      rw [hpc] at hs hscan hnow
      simp only [getAll, Option.ite_none_right_eq_some] at hs
      obtain ⟨⟨hnodup, hl⟩, hs⟩ := hs
      obtain rfl := Option.some.inj hs
      have hnext := hscan.2.next (hnow rfl) hnodup fun e => ?_
      · exact scanOk_goto (p := .check (i + 1) (ret ++ l)) h.scan ⟨hscan.1, hnext⟩ x
      · rw [← List.mem_toFinset, hl, mem_contents hpos hint h.home]
        refine ⟨fun he => ?_, fun he => he.2 ▸ he.1⟩
        have hi := h.home i e he
        exact ⟨hi ▸ he, hi.symm⟩
  | idle | answered | gotAll =>
      rw [hpc] at hs
      cases hs

/-- **One step**, before the moment is recorded. -/
theorem setMove_sound (h : Sound SIZE bytes s) (hs : setMove SIZE bytes s act = some s') :
    AtHome SIZE bytes s'
      ∧ ∀ x, ScanOk SIZE (fun v => (hash SIZE bytes v).toNat) (s'.moments x) (s'.pc x) := by
  cases act with
  | insert t v =>
      simp only [setMove, Option.ite_none_left_eq_some] at hs
      obtain ⟨-, hs⟩ := hs
      obtain rfl := Option.some.inj hs
      refine ⟨insert_home h.home, ?_⟩
      unfold insert
      by_cases hv : v ∈ s.buckets (hash SIZE bytes v).toNat
      · rw [if_pos hv]
        exact scanOk_goto h.scan trivial
      · rw [if_neg hv]
        exact scanOk_goto h.scan trivial
  | erase t v =>
      simp only [setMove, Option.ite_none_left_eq_some] at hs
      obtain ⟨-, hs⟩ := hs
      obtain rfl := Option.some.inj hs
      refine ⟨erase_home h.home, ?_⟩
      unfold erase
      by_cases hv : v ∉ s.buckets (hash SIZE bytes v).toNat
      · rw [if_pos hv]
        exact scanOk_goto h.scan trivial
      · rw [if_neg hv]
        exact scanOk_goto h.scan trivial
  | getAll t =>
      simp only [setMove, Option.ite_none_left_eq_some] at hs
      obtain ⟨-, hs⟩ := hs
      obtain rfl := Option.some.inj hs
      refine ⟨h.home, fun x => ?_⟩
      show ScanOk SIZE _ (update s.moments t [] x) (update s.pc t (.check 0 []) x)
      by_cases hx : x = t
      · rw [hx, Function.update_self, Function.update_self]
        exact ⟨Nat.zero_le SIZE, scanned_zero⟩
      · rw [Function.update_of_ne hx, Function.update_of_ne hx]
        exact h.scan x
  | check t =>
      cases hpc : s.pc t with
      | check i ret =>
          simp only [setMove, hpc] at hs
          exact ⟨getAll_home h.home hs, getAll_scan hpos hint h (hpc ▸ hs)⟩
      | idle | collect | answered | gotAll => simp [setMove, hpc] at hs
  | collect t l =>
      cases hpc : s.pc t with
      | collect i ret =>
          simp only [setMove, hpc] at hs
          exact ⟨getAll_home h.home hs, getAll_scan hpos hint h (hpc ▸ hs)⟩
      | idle | check | answered | gotAll => simp [setMove, hpc] at hs

theorem sound_step (h : Sound SIZE bytes s) (hs : setStep SIZE bytes s act = some s') :
    Sound SIZE bytes s' := by
  obtain ⟨r, hr, rfl⟩ := Option.map_eq_some_iff.mp hs
  obtain ⟨hhome, hscan⟩ := setMove_sound hpos hint h hr
  refine ⟨hhome, fun x => ?_, fun x hx => ?_⟩
  · show ScanOk SIZE _ (if (r.pc x).scanning then r.contents SIZE :: r.moments x else r.moments x)
      (r.pc x)
    by_cases hsc : (r.pc x).scanning = true
    · rw [if_pos hsc]
      exact scanOk_later (hscan x) _
    · rw [if_neg hsc]
      exact hscan x
  · have hx : (r.pc x).scanning = true := hx
    show r.contents SIZE
      ∈ if (r.pc x).scanning then r.contents SIZE :: r.moments x else r.moments x
    rw [if_pos hx]
    exact List.mem_cons_self

end Steps

theorem concurrentSet_keeps {SIZE : ℕ} {bytes : E → List (BitVec 8)} (hpos : 0 < SIZE)
    (hint : SIZE < 2 ^ 31) :
    (concurrentSet (T := T) SIZE bytes).Keeps (fun _ _ => True) (Sound SIZE bytes) where
  start s hs := by
    obtain rfl : s = setInit := hs
    exact ⟨fun _ v hv => absurd hv (Finset.notMem_empty v), fun _ => trivial, fun _ ht => by cases ht⟩
  step _ _ _ h _ hs := sound_step hpos hint h hs

/-- **concurrent_set is a set.**  For every number of buckets: the hash is one of their
    indices, and in every reachable state an element is only in the bucket of its hash,
    `insert` returns whether the element was absent and `erase` whether it was present,
    and what a call of `get_all` has returned has no duplicates, has every element that
    was present all along the call, and none that was absent all along. -/
theorem concurrent_set_sound {SIZE : ℕ} {bytes : E → List (BitVec 8)} (hpos : 0 < SIZE)
    (hint : SIZE < 2 ^ 31) {s : SetState T E} (hr : (concurrentSet SIZE bytes).Reachable s) :
    (∀ v, 0 ≤ (hash SIZE bytes v).toInt ∧ (hash SIZE bytes v).toInt < SIZE)
      ∧ (∀ i, ∀ v ∈ s.buckets i, i = (hash SIZE bytes v).toNat)
      ∧ (∀ t v s', setStep SIZE bytes s (.insert t v) = some s' →
          s'.pc t = .answered (decide (v ∉ s.contents SIZE))
            ∧ s'.contents SIZE = Insert.insert v (s.contents SIZE))
      ∧ (∀ t v s', setStep SIZE bytes s (.erase t v) = some s' →
          s'.pc t = .answered (decide (v ∈ s.contents SIZE))
            ∧ s'.contents SIZE = (s.contents SIZE).erase v)
      ∧ ∀ t ret, s.pc t = .gotAll ret →
          ret.Nodup ∧ (∀ v, (∀ P ∈ s.moments t, v ∈ P) → v ∈ ret)
            ∧ ∀ v, (∀ P ∈ s.moments t, v ∉ P) → v ∉ ret := by
  have h := (concurrentSet_keeps hpos hint).reachable hr
  refine ⟨fun v => ?_, h.home, fun t v s' hs => ?_, fun t v s' hs => ?_, fun t ret hpc => ?_⟩
  · have hlt := hash_lt bytes hpos hint v
    rw [hash_toInt bytes hpos hint]
    omega
  · obtain ⟨r, hr, rfl⟩ := Option.map_eq_some_iff.mp hs
    simp only [setMove, Option.ite_none_left_eq_some] at hr
    obtain rfl := Option.some.inj hr.2
    exact insert_answer hpos hint h.home
  · obtain ⟨r, hr, rfl⟩ := Option.map_eq_some_iff.mp hs
    simp only [setMove, Option.ite_none_left_eq_some] at hr
    obtain rfl := Option.some.inj hr.2
    exact erase_answer hpos hint h.home
  · have hscan := h.scan t
    rw [hpc] at hscan
    have hscan : Scanned (fun v => (hash SIZE bytes v).toNat) (s.moments t) SIZE ret := hscan
    refine ⟨hscan.nodup, fun v hall => ?_, fun v hnone hv => ?_⟩
    · exact hscan.complete v (hash_lt bytes hpos hint v) hall
    · obtain ⟨P, hP, hvP⟩ := hscan.seen v hv
      exact hnone P hP hvP

/-- Four buckets of bytes.  Thread 0 copies bucket 0; then thread 1 inserts 25 there and
    deletes 0 again; then thread 0 goes through the others. -/
def movingActs : List (SetAct (Fin 2) (BitVec 8)) :=
  [.insert 1 0, .insert 1 16, .getAll 0, .check 0, .collect 0 [0], .insert 1 25, .erase 1 0, .check 0,
    .check 0, .collect 0 [16], .check 0, .check 0]

theorem concurrent_set_moving :
    ∃ s, (concurrentSet 4 (fun v => [v])).run setInit movingActs = some s
      ∧ s.pc 0 = .gotAll [0, 16]
      ∧ ∀ v, (∀ P ∈ s.moments 0, v ∈ P) → v ∈ [(0 : BitVec 8), 16] := by
  refine ⟨_, rfl, rfl, ?_⟩
  have hr := Machine.Reachable.after (M := concurrentSet 4 (fun v => [v])) rfl movingActs rfl
  exact ((concurrent_set_sound (by decide) (by decide) hr).2.2.2.2 0 _ rfl).2.1

end HThread.ConcurrentSet
