/-
  HThread.RunQueue.ProducerLookup — every thread has one sub-queue, and finds it.

  A thread is put into a table by itself only, and never removed.  The number it
  has drawn before bounds how many threads can be in a table, old ones included,
  so that no table fills up and every search meets an empty slot.

  Key lemmas:
    * `Tables.exists_empty` — no table is full.
    * `PcOk.mono`           — the steps of the others leave a thread what it knows.
    * `HashInv.goto`, `insert`, `publish`, … — one lemma for each kind of step.
    * `hash_keeps`          — what the threads know is true, over whole runs.
  Main results:
    * `producer_lookup_unique` — a thread gets the same sub-queue in every call,
      and no other thread gets it.
    * `producers_found`        — every table has an empty slot, and a thread that
      is in a table is met before one.
-/
import Mathlib.Data.Nat.Bitwise
import HThread.Interleave.Chain
import HThread.Interleave.Directory
import HThread.Interleave.Probing
import HThread.Interleave.Rations
import HThread.Interleave.Refinement
import HThread.RunQueue.ProducerHash

namespace HThread.RunQueue

open Interleave
open Function (update)

/-! ## §1. What the threads know. -/

/-- Has `resizeInProgress`. -/
def HashPc.holds : HashPc → Bool
  | reload _ | grow .. | unlock .. | uncountGrow | unlockFail => true
  | _ => false

/-- Has drawn a number, and has no sub-queue yet. -/
def HashPc.counted : HashPc → Bool
  | lock .. | reload _ | grow .. | unlock .. | uncountGrow | wait _ | create .. | uncount => true
  | _ => false

/-- Has a sub-queue that it is about to be put into a table with. -/
def HashPc.joining : HashPc → Bool
  | pushTail .. | pushLink .. | pushCas .. | insProbe .. | insCas .. => true
  | _ => false

/-- The sub-queue that is not on the list yet. -/
def HashPc.pushing : HashPc → Option ℕ
  | pushTail _ producer | pushLink _ producer _ | pushCas _ producer _ => some producer
  | _ => none

variable {T : Type}

/-- The thread is in no table from `lo` on. -/
def AbsentFrom (s : HashState T) (t : T) (lo : ℕ) : Prop :=
  ∀ h, lo ≤ h → h < s.made → ∀ i, (s.hashes h).key i ≠ some t

/-- The thread is in a table. -/
def Registered (s : HashState T) (t : T) : Prop :=
  ∃ h < s.made, ∃ i, (s.hashes h).key i = some t

/-- Table `h` has room for the thread's number. -/
def HasRoom (s : HashState T) (t : T) (h : ℕ) : Prop := ∃ c ∈ s.number t, c < (s.hashes h).room

/-- A thread without a sub-queue. -/
structure Fresh (s : HashState T) (t : T) (newCount : ℕ) : Prop where
  absent : AbsentFrom s t 0
  own : s.own t = none
  number : s.number t = some newCount

/-- A thread that is to be put into table `main`. -/
structure Joins (s : HashState T) (t : T) (main : ℕ) (value : Option ℕ) (lo : ℕ) : Prop where
  made : main < s.made
  absent : AbsentFrom s t lo
  own : s.own t = value
  value : value ≠ none
  room : HasRoom s t main

/-- The thread has come `d` slots from its home, all occupied. -/
def Come (home : T → ℕ) (s : HashState T) (t : T) (h slot d : ℕ) : Prop :=
  slot = (home t + d) % (s.hashes h).capacity ∧
    Trail (s.hashes h).key (s.hashes h).capacity (home t) d

def PcOk (home : T → ℕ) (s : HashState T) (t : T) : HashPc → Prop
  | .probe main hash index => hash ≤ main ∧ main < s.made ∧ AbsentFrom s t (hash + 1) ∧
      ∃ d, Come home s t hash ((s.hashes hash).slotOf index) d ∧
        ∀ i < d, (s.hashes hash).key ((home t + i) % (s.hashes hash).capacity) ≠ some t
  | .readValue main hash slot => hash ≤ main ∧ main < s.made ∧ AbsentFrom s t (hash + 1) ∧
      (s.hashes hash).key slot = some t
  | .count main => main < s.made ∧ AbsentFrom s t 0 ∧ s.own t = none ∧ s.number t = none
  | .lock main newCount => main < s.made ∧ Fresh s t newCount
  | .unlock main newCount => main < s.made ∧ Fresh s t newCount
  | .grow main newCount => main + 1 = s.made ∧ Fresh s t newCount
  | .reload newCount | .wait newCount => Fresh s t newCount
  | .uncountGrow | .uncount => ∃ newCount, Fresh s t newCount
  | .create main newCount => main < s.made ∧ Fresh s t newCount ∧ newCount < (s.hashes main).room
  | .pushTail main producer | .pushLink main producer _ => Joins s t main (some producer) 0
  | .pushCas main producer prevTail => Joins s t main (some producer) 0 ∧ s.next producer = prevTail
  | .insProbe main value index => Joins s t main value main ∧
      ∃ d, Come home s t main ((s.hashes main).slotOf index) d
  | .insCas main value slot => Joins s t main value main ∧ ∃ d, Come home s t main slot d
  | .insStore main value slot => main < s.made ∧ (s.hashes main).key slot = some t ∧
      s.own t = value ∧ value ≠ none
  | .got value => ∀ p, value = some p → s.own t = some p ∧ Registered s t
  | .elsewhere | .loadMain | .unlockFail => True

/-- A step leaves alone what thread `u` has in the tables. -/
structure LeavesTables (s s' : HashState T) (u : T) : Prop where
  made : s.made ≤ s'.made
  capacity : ∀ h < s.made, (s'.hashes h).capacity = (s.hashes h).capacity
  keys : ∀ h < s.made, ∀ i, (s.hashes h).key i ≠ none → (s'.hashes h).key i = (s.hashes h).key i
  mine : ∀ h < s'.made, ∀ i, (s'.hashes h).key i = some u → h < s.made ∧ (s.hashes h).key i = some u
  number : s'.number u = s.number u
  own : s'.own u = s.own u

/-- A step of another thread leaves alone what thread `u` knows. -/
structure Leaves (s s' : HashState T) (u : T) : Prop extends LeavesTables s s' u where
  next : ∀ p, s.own u = some p → s'.next p = s.next p

namespace LeavesTables

variable {s s' : HashState T} {u : T}

theorem registered (h : LeavesTables s s' u) (hr : Registered s u) : Registered s' u := by
  obtain ⟨g, hg, i, hi⟩ := hr
  refine ⟨g, by have := h.made; omega, i, ?_⟩
  rw [h.keys g hg i (by rw [hi]; nofun)]
  exact hi

theorem room (h : LeavesTables s s' u) {g : ℕ} (hg : g < s.made) (hr : HasRoom s u g) :
    HasRoom s' u g := by
  obtain ⟨c, hc, hlt⟩ := hr
  refine ⟨c, ?_, ?_⟩
  · rw [h.number]
    exact hc
  · unfold Hash.room at hlt ⊢
    rw [h.capacity g hg]
    exact hlt

end LeavesTables

namespace Leaves

variable {s s' : HashState T} {u : T}

theorem absent (h : Leaves s s' u) {lo : ℕ} (ha : AbsentFrom s u lo) : AbsentFrom s' u lo := by
  intro g hlo hg i hi
  obtain ⟨hg', hi'⟩ := h.mine g hg i hi
  exact ha g hlo hg' i hi'

theorem fresh (h : Leaves s s' u) {c : ℕ} (hf : Fresh s u c) : Fresh s' u c where
  absent := h.absent hf.absent
  own := h.own.trans hf.own
  number := h.number.trans hf.number

theorem joins (h : Leaves s s' u) {main lo : ℕ} {v : Option ℕ} (hj : Joins s u main v lo) :
    Joins s' u main v lo where
  made := by
    have hle := h.made
    have hlt := hj.made
    omega
  absent := h.absent hj.absent
  own := h.own.trans hj.own
  value := hj.value
  room := h.room hj.made hj.room

theorem come (h : Leaves s s' u) {home : T → ℕ} {g slot d : ℕ} (hg : g < s.made)
    (hc : Come home s u g slot d) : Come home s' u g slot d := by
  obtain ⟨hslot, htrail⟩ := hc
  unfold Come
  rw [h.capacity g hg]
  refine ⟨hslot, htrail.mono fun i hi => ?_⟩
  rw [h.keys g hg i hi]
  exact hi

theorem slotOf (h : Leaves s s' u) {g index : ℕ} (hg : g < s.made) :
    (s'.hashes g).slotOf index = (s.hashes g).slotOf index := by
  unfold Hash.slotOf
  rw [h.capacity g hg]

end Leaves

/-- **The steps of the others leave a thread what it knows.** -/
theorem PcOk.mono {home : T → ℕ} {s s' : HashState T} {u : T} {p : HashPc}
    (h : PcOk home s u p) (hl : Leaves s s' u) (hg : p.holds = true → s'.made = s.made) :
    PcOk home s' u p := by
  have hmade := hl.made
  cases p with
  | probe main hash index =>
      obtain ⟨hle, hlt, habs, d, hcome, hno⟩ := h
      have hg : hash < s.made := by omega
      -- only the thread itself writes its key, so it still is not on the way behind it
      refine ⟨hle, by omega, hl.absent habs, d, ?_, fun i hi hk => ?_⟩
      · rw [hl.slotOf hg]
        exact hl.come hg hcome
      · obtain ⟨-, hk⟩ := hl.mine hash (by omega) _ hk
        rw [hl.capacity hash hg] at hk
        exact hno i hi hk
  | readValue main hash slot =>
      obtain ⟨hle, hlt, habs, hk⟩ := h
      refine ⟨hle, by omega, hl.absent habs, ?_⟩
      rw [hl.keys hash (by omega) slot (by rw [hk]; nofun)]
      exact hk
  | count main =>
      obtain ⟨hlt, habs, hown, hnum⟩ := h
      exact ⟨by omega, hl.absent habs, hl.own.trans hown, hl.number.trans hnum⟩
  | lock main newCount => exact ⟨by have := h.1; omega, hl.fresh h.2⟩
  | unlock main newCount => exact ⟨by have := h.1; omega, hl.fresh h.2⟩
  | grow main newCount =>
      -- who is about to make a table has the flag: nobody else makes one
      have hsame := hg rfl
      exact ⟨by have := h.1; omega, hl.fresh h.2⟩
  | reload newCount => exact hl.fresh h
  | wait newCount => exact hl.fresh h
  | uncountGrow => exact ⟨h.choose, hl.fresh h.choose_spec⟩
  | uncount => exact ⟨h.choose, hl.fresh h.choose_spec⟩
  | create main newCount =>
      obtain ⟨hlt, hfresh, hroom⟩ := h
      refine ⟨by omega, hl.fresh hfresh, ?_⟩
      unfold Hash.room at hroom ⊢
      rw [hl.capacity main hlt]
      exact hroom
  | pushTail main producer => exact hl.joins h
  | pushLink main producer prevTail => exact hl.joins h
  | pushCas main producer prevTail =>
      obtain ⟨hj, hnext⟩ := h
      exact ⟨hl.joins hj, (hl.next producer hj.own).trans hnext⟩
  | insProbe main value index =>
      obtain ⟨hj, d, hcome⟩ := h
      refine ⟨hl.joins hj, d, ?_⟩
      rw [hl.slotOf hj.made]
      exact hl.come hj.made hcome
  | insCas main value slot =>
      obtain ⟨hj, d, hcome⟩ := h
      exact ⟨hl.joins hj, d, hl.come hj.made hcome⟩
  | insStore main value slot =>
      obtain ⟨hlt, hk, hown, hv⟩ := h
      refine ⟨by omega, ?_, hl.own.trans hown, hv⟩
      rw [hl.keys main hlt slot (by rw [hk]; nofun)]
      exact hk
  | got value => exact fun p hv => ⟨hl.own.trans (h p hv).1, hl.registered (h p hv).2⟩
  | elsewhere => trivial
  | loadMain => trivial
  | unlockFail => trivial

/-! ## §2. The invariant. -/

/-- The tables, from the first to the newest. -/
structure Tables (home : T → ℕ) (hashes : ℕ → Hash T) (made current : ℕ) : Prop where
  current : current + 1 = made
  powers : ∀ h < made, ∃ e, (hashes h).capacity = 2 ^ e
  grows : ∀ g h, g ≤ h → h < made → (hashes g).capacity ≤ (hashes h).capacity
  first : (hashes 0).prev = none
  prev : ∀ h, h + 1 < made → (hashes (h + 1)).prev = some h
  probing : ∀ h < made, Probing home (hashes h).key (hashes h).capacity

/-- One thread at a time makes a table. -/
structure Locked (pc : T → HashPc) (flag : Bool) : Prop where
  taken : ∀ t, (pc t).holds = true → flag = true
  one : ∀ t u, (pc t).holds = true → (pc u).holds = true → t = u

/-- The threads in the tables. -/
structure Members (s : HashState T) : Prop where
  room : ∀ h < s.made, ∀ i t, (s.hashes h).key i = some t → HasRoom s t h
  value : ∀ h < s.made, ∀ i t, (s.hashes h).key i = some t →
    (s.hashes h).value i = s.own t ∨ s.pc t = .insStore h (s.own t) i
  owned : ∀ h < s.made, ∀ i t, (s.hashes h).key i = some t → s.own t ≠ none
  known : ∀ t, s.own t ≠ none → Registered s t ∨ (s.pc t).joining = true
  counted : ∀ t, s.number t ≠ none → s.own t ≠ none ∨ (s.pc t).counted = true
  lt : ∀ t p, s.own t = some p → p < s.producers
  inj : ∀ t u p, s.own t = some p → s.own u = some p → t = u

/-- The list of the sub-queues has all of them, but for those about to be added. -/
def OnList (s : HashState T) (l : List ℕ) : Prop :=
  Chain s.next s.producerListTail l ∧ l.Nodup ∧
    ∀ p, p ∈ l ↔ p < s.producers ∧ ∀ t, (s.pc t).pushing ≠ some p

variable [Fintype T] [DecidableEq T]

structure HashInv (home : T → ℕ) (s : HashState T) : Prop where
  tables : Tables home s.hashes s.made s.implicitProducerHash
  locked : Locked s.pc s.resizeInProgress
  rationed : Rationed s.number s.implicitProducerHashCount
  members : Members s
  list : ∃ l, OnList s l
  points : ∀ t, PcOk home s t (s.pc t)
  returned : ∀ t, ∀ p ∈ s.returned t, s.own t = some p ∧ Registered s t

variable {home : T → ℕ} {s s' : HashState T} {t u : T} {p : HashPc}

omit [Fintype T] [DecidableEq T] in
theorem Tables.capacity_pos {hashes : ℕ → Hash T} {made current h : ℕ}
    (ht : Tables home hashes made current) (hh : h < made) : 0 < (hashes h).capacity := by
  obtain ⟨e, he⟩ := ht.powers h hh
  rw [he]
  exact Nat.pow_pos (by omega)

omit [Fintype T] [DecidableEq T] in
theorem Tables.slotOf {hashes : ℕ → Hash T} {made current h : ℕ}
    (ht : Tables home hashes made current) (hh : h < made) (index : ℕ) :
    (hashes h).slotOf index = index % (hashes h).capacity := by
  obtain ⟨e, he⟩ := ht.powers h hh
  unfold Hash.slotOf
  rw [he, Nat.and_two_pow_sub_one_eq_mod]

omit [Fintype T] [DecidableEq T] in
/-- The number of a thread in an older table has room in a newer one. -/
theorem HashInv.room_mono (ht : Tables home s.hashes s.made s.implicitProducerHash) {g h : ℕ}
    (hgh : g ≤ h) (hh : h < s.made) (hr : HasRoom s t g) : HasRoom s t h := by
  obtain ⟨c, hc, hlt⟩ := hr
  refine ⟨c, hc, ?_⟩
  have hcap := ht.grows g h hgh hh
  unfold Hash.room at hlt ⊢
  omega

omit [DecidableEq T] in
/-- **No table is more than three quarters full**: the threads in it have numbers that it
    has room for. -/
theorem HashState.load {h : ℕ} (hr : Rationed s.number s.implicitProducerHashCount)
    (hm : ∀ i t, (s.hashes h).key i = some t → HasRoom s t h) {l : Finset T}
    (hl : ∀ t ∈ l, ∃ i, (s.hashes h).key i = some t) : l.card ≤ (s.hashes h).room := by
  refine hr.card_le fun t ht => ?_
  obtain ⟨i, hi⟩ := hl t ht
  obtain ⟨c, hc, hlt⟩ := hm i t hi
  exact ⟨c, hc, Nat.le_of_lt hlt⟩

omit [Fintype T] [DecidableEq T] in
/-- So every table has an empty slot. -/
theorem Tables.exists_empty (ht : Tables home s.hashes s.made s.implicitProducerHash) {h : ℕ}
    (hh : h < s.made) (hload : ∀ l : Finset T, (∀ t ∈ l, ∃ i, (s.hashes h).key i = some t) →
      l.card ≤ (s.hashes h).room) : ∃ i < (s.hashes h).capacity, (s.hashes h).key i = none := by
  -- a full table would have as many threads as slots
  by_contra hfull
  have hpos := ht.capacity_pos hh
  have hkey : ∀ i : Fin (s.hashes h).capacity, ∃ t, (s.hashes h).key i = some t := by
    intro i
    cases hi : (s.hashes h).key i with
    | none => exact absurd ⟨i, i.isLt, hi⟩ hfull
    | some t => exact ⟨t, rfl⟩
  choose f hf using hkey
  have hinj : Function.Injective f := by
    intro i j hij
    refine Fin.ext ((ht.probing h hh).once i j (f i) (hf i) ?_)
    rw [hij]
    exact hf j
  have hcard : (Finset.univ.map ⟨f, hinj⟩).card = (s.hashes h).capacity := by
    rw [Finset.card_map, Finset.card_fin]
  have hle := hload (Finset.univ.map ⟨f, hinj⟩) fun t ht => by
    obtain ⟨i, -, rfl⟩ := Finset.mem_map.mp ht
    exact ⟨i, hf i⟩
  unfold Hash.room at hle
  omega

omit [Fintype T] [DecidableEq T] in
/-- A step that leaves all tables alone. -/
theorem leavesTables_of_same (hh : s'.hashes = s.hashes) (hm : s'.made = s.made)
    (hnum : s'.number u = s.number u) (hown : s'.own u = s.own u) : LeavesTables s s' u where
  made := Nat.le_of_eq hm.symm
  capacity h _ := by rw [hh]
  keys h _ i _ := by rw [hh]
  mine h hlt i hi := by
    rw [hm] at hlt
    rw [hh] at hi
    exact ⟨hlt, hi⟩
  number := hnum
  own := hown

omit [Fintype T] [DecidableEq T] in
/-- A step that changes nothing but where threads are. -/
theorem leaves_of_same (hh : s'.hashes = s.hashes) (hm : s'.made = s.made)
    (hnum : s'.number u = s.number u) (hown : s'.own u = s.own u)
    (hnext : ∀ p, s.own u = some p → s'.next p = s.next p) : Leaves s s' u where
  toLeavesTables := leavesTables_of_same hh hm hnum hown
  next := hnext

omit [Fintype T] in
theorem points_step (h : ∀ u, PcOk home s u (s.pc u)) (hpc : s'.pc = update s.pc t p)
    (hok : PcOk home s' t p) (hl : ∀ u, u ≠ t → Leaves s s' u)
    (hg : ∀ u, u ≠ t → (s.pc u).holds = true → s'.made = s.made) (u : T) :
    PcOk home s' u (s'.pc u) := by
  rw [hpc]
  by_cases hu : u = t
  · subst hu
    rw [Function.update_self]
    exact hok
  · rw [Function.update_of_ne hu]
    exact (h u).mono (hl u hu) (hg u hu)

omit [Fintype T] in
theorem locked_step {flag : Bool} (h : Locked s.pc flag)
    (hlock : p.holds = true → (s.pc t).holds = true) : Locked (update s.pc t p) flag := by
  have hold : ∀ u, (update s.pc t p u).holds = true → (s.pc u).holds = true := by
    intro u hu
    by_cases hut : u = t
    · subst hut
      rw [Function.update_self] at hu
      exact hlock hu
    · rw [Function.update_of_ne hut] at hu
      exact hu
  exact ⟨fun u hu => h.taken u (hold u hu), fun u v hu hv => h.one u v (hold u hu) (hold v hv)⟩

omit [Fintype T] in
/-- The list is left alone, and so is the one who is about to add to it. -/
theorem list_step {l : List ℕ} (h : OnList s l) (hpush : p.pushing = (s.pc t).pushing) (q : ℕ) :
    q ∈ l ↔ q < s.producers ∧ ∀ u, (update s.pc t p u).pushing ≠ some q := by
  rw [h.2.2 q]
  have hsame : ∀ u, (update s.pc t p u).pushing = (s.pc u).pushing := by
    intro u
    by_cases hut : u = t
    · subst hut
      rw [Function.update_self]
      exact hpush
    · rw [Function.update_of_ne hut]
  simp only [hsame]

omit [Fintype T] in
/-- What becomes of a property of where a thread is. -/
theorem update_iff {f : HashPc → Bool} {pc : T → HashPc} (h : f (pc t) = true → f p = true)
    (hu : f (pc u) = true) : f (update pc t p u) = true := by
  by_cases hut : u = t
  · subst hut
    rw [Function.update_self]
    exact h hu
  · rw [Function.update_of_ne hut]
    exact hu

omit [Fintype T] in
/-- The rule for a step that puts nobody into a table. -/
theorem Members.step (h : Members s) (hl : ∀ u, LeavesTables s s' u)
    (hprod : s'.producers = s.producers) (hpc : s'.pc = update s.pc t p)
    (hvalue : ∀ g < s.made, ∀ i u, (s.hashes g).key i = some u →
      (s'.hashes g).value i = s.own u ∨ update s.pc t p u = .insStore g (s.own u) i)
    (hknown : (s.pc t).joining = true → p.joining = true)
    (hcounted : (s.pc t).counted = true → p.counted = true) : Members s' := by
  refine ⟨fun g hg i u hk => ?_, fun g hg i u hk => ?_, fun g hg i u hk => ?_, fun u hu => ?_,
    fun u hu => ?_, fun u q hu => ?_, fun u v q hu hv => ?_⟩
  · obtain ⟨hlt, hk⟩ := (hl u).mine g hg i hk
    exact (hl u).room hlt (h.room g hlt i u hk)
  · obtain ⟨hlt, hk⟩ := (hl u).mine g hg i hk
    rw [(hl u).own, hpc]
    exact hvalue g hlt i u hk
  · obtain ⟨hlt, hk⟩ := (hl u).mine g hg i hk
    rw [(hl u).own]
    exact h.owned g hlt i u hk
  · rw [(hl u).own] at hu
    rw [hpc]
    exact (h.known u hu).imp (hl u).registered (update_iff hknown)
  · rw [(hl u).number] at hu
    rw [(hl u).own, hpc]
    exact (h.counted u hu).imp id (update_iff hcounted)
  · rw [(hl u).own] at hu
    rw [hprod]
    exact h.lt u q hu
  · rw [(hl u).own] at hu
    rw [(hl v).own] at hv
    exact h.inj u v q hu hv

omit [Fintype T] in
/-- A slot that no step has written to, of a thread that is not about to. -/
theorem Members.value_stays (h : Members s) (hstore : ∀ main v i, s.pc t ≠ .insStore main v i)
    {g i : ℕ} (hg : g < s.made) (hk : (s.hashes g).key i = some u) :
    (s.hashes g).value i = s.own u ∨ update s.pc t p u = .insStore g (s.own u) i := by
  refine (h.value g hg i u hk).imp id fun hu => ?_
  rw [Function.update_of_ne]
  · exact hu
  · rintro rfl
    exact hstore _ _ _ hu

omit [Fintype T] in
/-- The threads in the tables are left alone. -/
theorem members_step (h : Members s) (hh : s'.hashes = s.hashes) (hm : s'.made = s.made)
    (hnum : s'.number = s.number) (hown : s'.own = s.own) (hprod : s'.producers = s.producers)
    (hpc : s'.pc = update s.pc t p) (hstore : ∀ main v i, s.pc t ≠ .insStore main v i)
    (hknown : (s.pc t).joining = true → p.joining = true)
    (hcounted : (s.pc t).counted = true → p.counted = true) : Members s' := by
  refine h.step (fun u => leavesTables_of_same hh hm (congrFun hnum u) (congrFun hown u)) hprod
    hpc (fun g hg i u hk => ?_) hknown hcounted
  rw [hh]
  exact h.value_stays hstore hg hk

/-- The rule for a step that changes nothing but where the thread is, and the flag. -/
theorem HashInv.walk (h : HashInv home s) {flag : Bool} {q : HashPc} (hpc : s.pc t = q)
    (hok : PcOk home s t p) (hlocked : Locked (update s.pc t p) flag)
    (hstore : ∀ main v i, q ≠ .insStore main v i) (hknown : q.joining = true → p.joining = true)
    (hcounted : q.counted = true → p.counted = true) (hpush : p.pushing = q.pushing) :
    HashInv home ({ s with resizeInProgress := flag }.goto t p) := by
  subst hpc
  have hl : ∀ u, Leaves s ({ s with resizeInProgress := flag }.goto t p) u := fun u =>
    leaves_of_same rfl rfl rfl rfl fun _ _ => rfl
  refine ⟨h.tables, hlocked, h.rationed, ?_, ?_, ?_, h.returned⟩
  · exact members_step h.members rfl rfl rfl rfl rfl rfl hstore hknown hcounted
  · obtain ⟨l, hl⟩ := h.list
    exact ⟨l, hl.1, hl.2.1, list_step hl hpush⟩
  · exact points_step h.points rfl (hok.mono (hl t) fun _ => rfl) (fun u _ => hl u)
      fun _ _ _ => rfl

theorem HashInv.goto (h : HashInv home s) {q : HashPc} (hpc : s.pc t = q) (hok : PcOk home s t p)
    (hlock : p.holds = true → q.holds = true) (hstore : ∀ main v i, q ≠ .insStore main v i)
    (hknown : q.joining = true → p.joining = true)
    (hcounted : q.counted = true → p.counted = true) (hpush : p.pushing = q.pushing) :
    HashInv home (s.goto t p) := by
  refine h.walk hpc hok (locked_step h.locked ?_) hstore hknown hcounted hpush
  rw [hpc]
  exact hlock

omit [Fintype T] in
/-- The thread gets the flag. -/
theorem Locked.acquire {pc : T → HashPc} (h : Locked pc false) :
    Locked (update pc t p) true where
  taken _ _ := rfl
  one u v hu hv := by
    have hnobody : ∀ w, w ≠ t → (update pc t p w).holds ≠ true := by
      intro w hw hh
      rw [Function.update_of_ne hw] at hh
      exact nomatch h.taken w hh
    rw [Decidable.not_not.mp fun hut => hnobody u hut hu,
      Decidable.not_not.mp fun hvt => hnobody v hvt hv]

omit [Fintype T] in
/-- The thread clears the flag. -/
theorem Locked.clear {pc : T → HashPc} {flag : Bool} (h : Locked pc flag)
    (hheld : (pc t).holds = true) (hp : p.holds = false) : Locked (update pc t p) false := by
  have hnobody : ∀ u, (update pc t p u).holds ≠ true := by
    intro u hu
    by_cases hut : u = t
    · subst hut
      rw [Function.update_self, hp] at hu
      cases hu
    · rw [Function.update_of_ne hut] at hu
      exact hut (h.one u t hu hheld)
  exact ⟨fun u hu => absurd hu (hnobody u), fun u _ hu => absurd hu (hnobody u)⟩

/-- The thread draws a number or gives it back; it is in no table. -/
theorem HashInv.renumber (h : HashInv home s) {count : ℕ} {x : Option ℕ}
    (hr : Rationed (update s.number t x) count) (habs : AbsentFrom s t 0)
    (hok : PcOk home ({ s with
      implicitProducerHashCount := count
      number := update s.number t x }.goto t p) t p)
    (hlock : p.holds = true → (s.pc t).holds = true)
    (hstore : ∀ main v i, s.pc t ≠ .insStore main v i)
    (hjoin : (s.pc t).joining = false) (hx : x ≠ none → p.counted = true)
    (hpush : p.pushing = (s.pc t).pushing) :
    HashInv home ({ s with
      implicitProducerHashCount := count
      number := update s.number t x }.goto t p) where
  tables := h.tables
  locked := locked_step h.locked hlock
  rationed := hr
  members :=
    -- the number matters to no table, as the thread is in none
    { room := fun g hg i u hk => by
        have hut : u ≠ t := by
          rintro rfl
          exact habs g (Nat.zero_le g) hg i hk
        obtain ⟨c, hc, hlt⟩ := h.members.room g hg i u hk
        refine ⟨c, ?_, hlt⟩
        show c ∈ update s.number t x u
        rw [Function.update_of_ne hut]
        exact hc
      value := fun g hg i u hk => h.members.value_stays hstore hg hk
      owned := h.members.owned
      known := fun u hu => by
        refine (h.members.known u hu).imp id (update_iff ?_)
        rw [hjoin]
        nofun
      counted := fun u hu => by
        by_cases hut : u = t
        · subst hut
          have hu : update s.number u x u ≠ none := hu
          rw [Function.update_self] at hu
          refine .inr ?_
          show (update s.pc u p u).counted = true
          rw [Function.update_self]
          exact hx hu
        · have hu : update s.number t x u ≠ none := hu
          rw [Function.update_of_ne hut] at hu
          refine (h.members.counted u hu).imp id fun hc => ?_
          show (update s.pc t p u).counted = true
          rw [Function.update_of_ne hut]
          exact hc
      lt := h.members.lt
      inj := h.members.inj }
  list := by
    obtain ⟨l, hl⟩ := h.list
    exact ⟨l, hl.1, hl.2.1, list_step hl hpush⟩
  points := by
    refine points_step h.points rfl hok (fun u hu => ?_) fun _ _ _ => rfl
    exact leaves_of_same rfl rfl (Function.update_of_ne hu ..) rfl fun _ _ => rfl
  returned := h.returned

/-- The capacity of a new table is a power of two, and not smaller. -/
theorem growCapacity_power (n c : ℕ) (hc : ∃ e, c = 2 ^ e) :
    (∃ e, growCapacity n c = 2 ^ e) ∧ c ≤ growCapacity n c := by
  fun_induction growCapacity n c with
  | case1 c hmore ih =>
      obtain ⟨e, he⟩ := hc
      obtain ⟨hpow, hle⟩ := ih ⟨e + 1, by rw [he, Nat.pow_succ, Nat.mul_comm]⟩
      exact ⟨hpow, by omega⟩
  | case2 c hdone => exact ⟨hc, Nat.le_refl c⟩

omit [Fintype T] [DecidableEq T] in
/-- A new table behind the newest one. -/
theorem Tables.publish (ht : Tables home s.hashes s.made s.implicitProducerHash) {main n : ℕ}
    (hmain : main + 1 = s.made) :
    Tables home (update s.hashes s.made
      (.new T (growCapacity n (2 * (s.hashes main).capacity)) (some main))) (s.made + 1) s.made := by
  obtain ⟨e, he⟩ := ht.powers main (by omega)
  obtain ⟨hpow, hle⟩ := growCapacity_power n (2 * (s.hashes main).capacity)
    ⟨e + 1, by rw [he, Nat.pow_succ, Nat.mul_comm]⟩
  have hold : ∀ g, g < s.made → update s.hashes s.made
      (.new T (growCapacity n (2 * (s.hashes main).capacity)) (some main)) g = s.hashes g :=
    fun g hg => Function.update_of_ne (by omega) ..
  refine ⟨rfl, fun g hg => ?_, fun g k hgk hk => ?_, ?_, fun g hg => ?_, fun g hg => ?_⟩
  · rcases Nat.lt_succ_iff_lt_or_eq.mp hg with hlt | rfl
    · rw [hold g hlt]
      exact ht.powers g hlt
    · rw [Function.update_self]
      exact hpow
  · rcases Nat.lt_succ_iff_lt_or_eq.mp hk with hlt | rfl
    · rw [hold g (by omega), hold k hlt]
      exact ht.grows g k hgk hlt
    · rw [Function.update_self]
      by_cases hgm : g = s.made
      · rw [hgm, Function.update_self]
      · rw [hold g (by omega)]
        have hcap := ht.grows g main (by omega) (by omega)
        show _ ≤ growCapacity n (2 * (s.hashes main).capacity)
        omega
  · rw [hold 0 (by omega)]
    exact ht.first
  · rcases Nat.lt_succ_iff_lt_or_eq.mp hg with hlt | hgm
    · rw [hold (g + 1) hlt]
      exact ht.prev g hlt
    · rw [hgm, Function.update_self]
      show some main = some g
      congr 1
      omega
  · rcases Nat.lt_succ_iff_lt_or_eq.mp hg with hlt | rfl
    · rw [hold g hlt]
      exact ht.probing g hlt
    · rw [Function.update_self]
      exact ⟨nofun, nofun, nofun⟩

/-- concurrentqueue.h:3356: the thread publishes a table. -/
theorem HashInv.publish (h : HashInv home s) {main newCount : ℕ}
    (hpc : s.pc t = .grow main newCount) :
    HashInv home ({ s with
      hashes := update s.hashes s.made
        (.new T (growCapacity newCount (2 * (s.hashes main).capacity)) (some main))
      made := s.made + 1
      implicitProducerHash := s.made }.goto t (.unlock s.made newCount)) := by
  have hpoint := h.points t
  rw [hpc] at hpoint
  obtain ⟨hmain, hfresh⟩ : main + 1 = s.made ∧ Fresh s t newCount := hpoint
  have hold : ∀ g, g < s.made → update s.hashes s.made
      (.new T (growCapacity newCount (2 * (s.hashes main).capacity)) (some main)) g = s.hashes g :=
    fun g hg => Function.update_of_ne (by omega) ..
  -- nobody is in the new table
  have hkey : ∀ g, g < s.made + 1 → ∀ i u, (update s.hashes s.made
      (.new T (growCapacity newCount (2 * (s.hashes main).capacity)) (some main)) g).key i = some u →
      g < s.made ∧ (s.hashes g).key i = some u := by
    intro g hg i u hk
    rcases Nat.lt_succ_iff_lt_or_eq.mp hg with hlt | rfl
    · rw [hold g hlt] at hk
      exact ⟨hlt, hk⟩
    · rw [Function.update_self] at hk
      cases hk
  have hleaves : ∀ u, Leaves s ({ s with
      hashes := update s.hashes s.made
        (.new T (growCapacity newCount (2 * (s.hashes main).capacity)) (some main))
      made := s.made + 1
      implicitProducerHash := s.made }.goto t (.unlock s.made newCount)) u := fun u =>
    { made := Nat.le_succ _
      capacity := fun g hg => congrArg Hash.capacity (hold g hg)
      keys := fun g hg i _ => congrArg (fun x => Hash.key x i) (hold g hg)
      mine := fun g hg i hi => hkey g hg i u hi
      number := rfl
      own := rfl
      next := fun _ _ => rfl }
  refine ⟨h.tables.publish hmain, locked_step h.locked ?_, h.rationed, ?_, ?_, ?_, ?_⟩
  -- the thread keeps the flag until the next step
  · rw [hpc]
    exact fun _ => rfl
  · refine h.members.step (fun u => (hleaves u).toLeavesTables) rfl rfl (fun g hg i u hk => ?_) ?_
      fun _ => rfl
    · show (update s.hashes s.made _ g).value i = _ ∨ _
      rw [hold g hg]
      refine h.members.value_stays ?_ hg hk
      rw [hpc]
      nofun
    · rw [hpc]
      nofun
  · obtain ⟨l, hl⟩ := h.list
    refine ⟨l, hl.1, hl.2.1, list_step hl ?_⟩
    rw [hpc]
    rfl
  · refine points_step h.points rfl ⟨Nat.lt_succ_self _, (hleaves t).fresh hfresh⟩
      (fun u _ => hleaves u) fun u hu hheld => ?_
    exact absurd (h.locked.one u t hheld (by rw [hpc]; rfl)) hu
  · exact fun u p hp => ⟨(h.returned u p hp).1, (hleaves u).registered (h.returned u p hp).2⟩

/-- concurrentqueue.h:3390: a sub-queue is made for a thread that is in no table. -/
theorem HashInv.create (h : HashInv home s) {main newCount : ℕ}
    (hpc : s.pc t = .create main newCount) :
    HashInv home ({ s with
      producers := s.producers + 1
      own := update s.own t (some s.producers) }.goto t (.pushTail main s.producers)) := by
  have hpoint := h.points t
  rw [hpc] at hpoint
  obtain ⟨hmain, hfresh, hroom⟩ :
    main < s.made ∧ Fresh s t newCount ∧ newCount < (s.hashes main).room := hpoint
  -- what holds of the threads in the tables is not about this one
  have hnot : ∀ g, g < s.made → ∀ i u, (s.hashes g).key i = some u → u ≠ t := by
    rintro g hg i u hk rfl
    exact hfresh.absent g (Nat.zero_le g) hg i hk
  have hne : ∀ u, u ≠ t → update s.own t (some s.producers) u = s.own u :=
    fun u hu => Function.update_of_ne hu ..
  have hself : update s.own t (some s.producers) t = some s.producers := Function.update_self ..
  have hlt : ∀ u p, s.own u = some p → p ≠ s.producers := fun u p hu => by
    have := h.members.lt u p hu
    omega
  refine ⟨h.tables, locked_step h.locked nofun, h.rationed, ?_, ?_, ?_, ?_⟩
  · refine ⟨h.members.room, fun g hg i u hk => ?_, fun g hg i u hk => ?_, fun u hu => ?_,
      fun u hu => ?_, fun u p hu => ?_, fun u v p hu hv => ?_⟩
    · have hut := hnot g hg i u hk
      show (s.hashes g).value i = update s.own t _ u ∨
        update s.pc t _ u = .insStore g (update s.own t _ u) i
      rw [hne u hut, Function.update_of_ne hut]
      exact h.members.value g hg i u hk
    · show update s.own t _ u ≠ none
      rw [hne u (hnot g hg i u hk)]
      exact h.members.owned g hg i u hk
    · by_cases hut : u = t
      · subst hut
        refine .inr ?_
        show (update s.pc u _ u).joining = true
        rw [Function.update_self]
        rfl
      · have hu : update s.own t (some s.producers) u ≠ none := hu
        rw [hne u hut] at hu
        refine (h.members.known u hu).imp id (update_iff ?_)
        exact fun _ => rfl
    · by_cases hut : u = t
      · refine .inl ?_
        show update s.own t _ u ≠ none
        rw [hut, hself]
        nofun
      · refine (h.members.counted u hu).imp (fun ho => ?_) fun hc => ?_
        · show update s.own t _ u ≠ none
          rw [hne u hut]
          exact ho
        · show (update s.pc t _ u).counted = true
          rw [Function.update_of_ne hut]
          exact hc
    · show p < s.producers + 1
      have hu : update s.own t (some s.producers) u = some p := hu
      by_cases hut : u = t
      · rw [hut, hself] at hu
        have := Option.some.inj hu
        omega
      · rw [hne u hut] at hu
        have := h.members.lt u p hu
        omega
    · have hu : update s.own t (some s.producers) u = some p := hu
      have hv : update s.own t (some s.producers) v = some p := hv
      by_cases hut : u = t
      · by_cases hvt : v = t
        · rw [hut, hvt]
        · rw [hut, hself] at hu
          rw [hne v hvt] at hv
          exact absurd (Option.some.inj hu).symm (hlt v p hv)
      · rw [hne u hut] at hu
        by_cases hvt : v = t
        · rw [hvt, hself] at hv
          exact absurd (Option.some.inj hv).symm (hlt u p hu)
        · rw [hne v hvt] at hv
          exact h.members.inj u v p hu hv
  · obtain ⟨l, hchain, hnodup, hmem⟩ := h.list
    refine ⟨l, hchain, hnodup, fun p => ?_⟩
    show p ∈ l ↔ p < s.producers + 1 ∧ ∀ u, (update s.pc t (.pushTail main s.producers) u).pushing ≠ _
    rw [hmem p]
    constructor
    · rintro ⟨hp, hno⟩
      refine ⟨by omega, fun u hu => ?_⟩
      by_cases hut : u = t
      · rw [hut, Function.update_self] at hu
        have := Option.some.inj hu
        omega
      · rw [Function.update_of_ne hut] at hu
        exact hno u hu
    · rintro ⟨hp, hno⟩
      have hpne : p ≠ s.producers := by
        rintro rfl
        refine hno t ?_
        rw [Function.update_self]
        rfl
      refine ⟨by omega, fun u hu => ?_⟩
      by_cases hut : u = t
      · rw [hut, hpc] at hu
        cases hu
      · refine hno u ?_
        rw [Function.update_of_ne hut]
        exact hu
  · refine points_step h.points rfl ⟨hmain, hfresh.absent, hself, nofun, newCount, hfresh.number,
      hroom⟩ (fun u hu => ?_) fun _ _ _ => rfl
    exact leaves_of_same rfl rfl rfl (hne u hu) fun _ _ => rfl
  · intro u p hp
    obtain ⟨ho, hr⟩ := h.returned u p hp
    have hut : u ≠ t := by
      rintro rfl
      rw [hfresh.own] at ho
      cases ho
    exact ⟨(hne u hut).trans ho, hr⟩

omit [Fintype T] [DecidableEq T] in
theorem OnList.not_mem {l : List ℕ} (hl : OnList s l) {producer : ℕ}
    (hpush : (s.pc t).pushing = some producer) : producer ∉ l := fun hin =>
  ((hl.2.2 producer).mp hin).2 t hpush

/-- concurrentqueue.h:3159: nobody comes to the sub-queue through the list yet. -/
theorem HashInv.link (h : HashInv home s) {main producer : ℕ} {prevTail : Option ℕ}
    (hpc : s.pc t = .pushLink main producer prevTail) :
    HashInv home ({ s with next := update s.next producer prevTail }.goto t
      (.pushCas main producer prevTail)) := by
  have hpoint := h.points t
  rw [hpc] at hpoint
  have hjoins : Joins s t main (some producer) 0 := hpoint
  have hleaves : ∀ u, u ≠ t → Leaves s ({ s with next := update s.next producer prevTail }.goto t
      (.pushCas main producer prevTail)) u := fun u hu => by
    refine leaves_of_same rfl rfl rfl rfl fun p hp => ?_
    refine Function.update_of_ne ?_ ..
    rintro rfl
    exact hu (h.members.inj u t p hp hjoins.own)
  refine ⟨h.tables, locked_step h.locked nofun, h.rationed, ?_, ?_, ?_, h.returned⟩
  · refine members_step h.members rfl rfl rfl rfl rfl rfl ?_ (fun _ => rfl) ?_ <;> rw [hpc] <;> nofun
  · obtain ⟨l, hl⟩ := h.list
    refine ⟨l, hl.1.update_of_not_mem (hl.not_mem (t := t) ?_) prevTail, hl.2.1,
      list_step hl ?_⟩
    · rw [hpc]
      rfl
    · rw [hpc]
      rfl
  · refine points_step h.points rfl ⟨?_, Function.update_self ..⟩ hleaves fun _ _ _ => rfl
    exact ⟨hjoins.made, hjoins.absent, hjoins.own, hjoins.value, hjoins.room⟩

omit [Fintype T] [DecidableEq T] in
theorem come_zero (ht : Tables home s.hashes s.made s.implicitProducerHash) {g : ℕ}
    (hg : g < s.made) : Come home s t g ((s.hashes g).slotOf (home t)) 0 :=
  ⟨ht.slotOf hg _, trail_zero⟩

omit [DecidableEq T] in
/-- A sub-queue that is about to be added is that of a thread in no table. -/
theorem HashInv.pushing (h : HashInv home s) {producer : ℕ}
    (hp : (s.pc t).pushing = some producer) : s.own t = some producer ∧ AbsentFrom s t 0 := by
  have hpoint := h.points t
  cases hpc : s.pc t with
  | pushTail main q =>
      rw [hpc] at hp hpoint
      obtain rfl := Option.some.inj hp
      exact ⟨hpoint.own, hpoint.absent⟩
  | pushLink main q prevTail =>
      rw [hpc] at hp hpoint
      obtain rfl := Option.some.inj hp
      exact ⟨hpoint.own, hpoint.absent⟩
  | pushCas main q prevTail =>
      rw [hpc] at hp hpoint
      obtain rfl := Option.some.inj hp
      exact ⟨hpoint.1.own, hpoint.1.absent⟩
  | _ =>
      rw [hpc] at hp
      cases hp

/-- concurrentqueue.h:3160: the sub-queue is on the list. -/
theorem HashInv.push (h : HashInv home s) {main producer : ℕ}
    (hpc : s.pc t = .pushCas main producer s.producerListTail) :
    HashInv home ({ s with producerListTail := some producer }.goto t
      (.insProbe main (some producer) (home t))) := by
  have hpoint := h.points t
  rw [hpc] at hpoint
  obtain ⟨hjoins, hnext⟩ :
    Joins s t main (some producer) 0 ∧ s.next producer = s.producerListTail := hpoint
  refine ⟨h.tables, locked_step h.locked nofun, h.rationed, ?_, ?_, ?_, h.returned⟩
  · refine members_step h.members rfl rfl rfl rfl rfl rfl ?_ (fun _ => rfl) ?_ <;> rw [hpc] <;> nofun
  · obtain ⟨l, hl⟩ := h.list
    have hpush : (s.pc t).pushing = some producer := by
      rw [hpc]
      rfl
    refine ⟨producer :: l, ⟨rfl, ?_⟩, List.nodup_cons.mpr ⟨hl.not_mem hpush, hl.2.1⟩,
      fun p => ?_⟩
    · show Chain s.next (s.next producer) l
      rw [hnext]
      exact hl.1
    · show p ∈ producer :: l ↔ p < s.producers ∧
        ∀ u, (update s.pc t (.insProbe main (some producer) (home t)) u).pushing ≠ some p
      rw [List.mem_cons, hl.2.2 p]
      constructor
      · rintro (rfl | ⟨hp, hno⟩)
        · refine ⟨h.members.lt t p hjoins.own, fun u hu => ?_⟩
          by_cases hut : u = t
          · rw [hut, Function.update_self] at hu
            cases hu
          · -- only the thread that has made it pushes it
            rw [Function.update_of_ne hut] at hu
            exact hut (h.members.inj u t p (h.pushing hu).1 hjoins.own)
        · refine ⟨hp, fun u hu => ?_⟩
          by_cases hut : u = t
          · rw [hut, Function.update_self] at hu
            cases hu
          · rw [Function.update_of_ne hut] at hu
            exact hno u hu
      · rintro ⟨hp, hno⟩
        by_cases hpp : p = producer
        · exact .inl hpp
        · refine .inr ⟨hp, fun u hu => ?_⟩
          by_cases hut : u = t
          · rw [hut, hpush] at hu
            exact hpp (Option.some.inj hu).symm
          · refine hno u ?_
            rw [Function.update_of_ne hut]
            exact hu
  · refine points_step h.points rfl ⟨⟨hjoins.made, fun g _ => hjoins.absent g (Nat.zero_le g),
      hjoins.own, hjoins.value, hjoins.room⟩, 0, come_zero h.tables hjoins.made⟩ (fun u _ => ?_)
      fun _ _ _ => rfl
    exact leaves_of_same rfl rfl rfl rfl fun _ _ => rfl

omit [Fintype T] [DecidableEq T] in
/-- What a store to a slot of table `main` leaves of the tables. -/
theorem store_key {main slot g i : ℕ} :
    ((s.store main ((s.hashes main).setKey slot t)).hashes g).key i =
      if g = main ∧ i = slot then some t else (s.hashes g).key i := by
  show (update s.hashes main _ g).key i = _
  by_cases hg : g = main
  · subst hg
    rw [Function.update_self]
    show update (s.hashes g).key slot (some t) i = _
    by_cases hi : i = slot
    · rw [if_pos ⟨rfl, hi⟩, hi, Function.update_self]
    · rw [if_neg fun hgi => hi hgi.2, Function.update_of_ne hi]
  · rw [Function.update_of_ne hg, if_neg fun hgi => hg hgi.1]

omit [Fintype T] [DecidableEq T] in
theorem store_capacity {main g : ℕ} {x : Hash T} (hx : x.capacity = (s.hashes main).capacity) :
    ((s.store main x).hashes g).capacity = (s.hashes g).capacity := by
  show (update s.hashes main x g).capacity = _
  by_cases hg : g = main
  · rw [hg, Function.update_self]
    exact hx
  · rw [Function.update_of_ne hg]

omit [Fintype T] [DecidableEq T] in
theorem store_prev {main g : ℕ} {x : Hash T} (hx : x.prev = (s.hashes main).prev) :
    ((s.store main x).hashes g).prev = (s.hashes g).prev := by
  show (update s.hashes main x g).prev = _
  by_cases hg : g = main
  · rw [hg, Function.update_self]
    exact hx
  · rw [Function.update_of_ne hg]

omit [Fintype T] [DecidableEq T] in
/-- A store that makes room for no other table. -/
theorem Tables.store (ht : Tables home s.hashes s.made s.implicitProducerHash) {main : ℕ}
    {x : Hash T} (hcap : x.capacity = (s.hashes main).capacity)
    (hprev : x.prev = (s.hashes main).prev) (hx : main < s.made → Probing home x.key x.capacity) :
    Tables home (s.store main x).hashes s.made s.implicitProducerHash := by
  refine ⟨ht.current, fun g hg => ?_, fun g k hgk hk => ?_, ?_, fun g hg => ?_, fun g hg => ?_⟩
  · rw [store_capacity hcap]
    exact ht.powers g hg
  · rw [store_capacity hcap, store_capacity hcap]
    exact ht.grows g k hgk hk
  · rw [store_prev hprev]
    exact ht.first
  · rw [store_prev hprev]
    exact ht.prev g hg
  · show Probing home (update s.hashes main x g).key (update s.hashes main x g).capacity
    by_cases hgm : g = main
    · subst hgm
      rw [Function.update_self]
      exact hx hg
    · rw [Function.update_of_ne hgm]
      exact ht.probing g hg

/-- concurrentqueue.h:3328 and 3416: the thread is in table `main`. -/
theorem HashInv.insert (h : HashInv home s) {main slot : ℕ} {value : Option ℕ}
    (hpc : s.pc t = .insCas main value slot) (hempty : (s.hashes main).key slot = none) :
    HashInv home ((s.store main ((s.hashes main).setKey slot t)).goto t
      (.insStore main value slot)) := by
  have hpoint := h.points t
  rw [hpc] at hpoint
  obtain ⟨hjoins, d, hslot, htrail⟩ : Joins s t main value main ∧ ∃ d, Come home s t main slot d :=
    hpoint
  have hold : ∀ g i u, ((s.store main ((s.hashes main).setKey slot t)).hashes g).key i = some u →
      (g = main ∧ i = slot ∧ u = t) ∨ (s.hashes g).key i = some u := by
    intro g i u hk
    rw [store_key] at hk
    split at hk
    · rename_i hgi
      exact .inl ⟨hgi.1, hgi.2, (Option.some.inj hk).symm⟩
    · exact .inr hk
  have hkept : ∀ g i, (s.hashes g).key i ≠ none →
      ((s.store main ((s.hashes main).setKey slot t)).hashes g).key i = (s.hashes g).key i := by
    intro g i hk
    rw [store_key, if_neg]
    rintro ⟨rfl, rfl⟩
    exact hk hempty
  have hcap : ∀ g, ((s.store main ((s.hashes main).setKey slot t)).hashes g).capacity =
      (s.hashes g).capacity := fun g => store_capacity rfl
  have hleaves : ∀ u, u ≠ t → Leaves s ((s.store main ((s.hashes main).setKey slot t)).goto t
      (.insStore main value slot)) u := fun u hu =>
    { made := Nat.le_refl _
      capacity := fun g _ => hcap g
      keys := fun g _ i hk => hkept g i hk
      mine := fun g hg i hk => ⟨hg, (hold g i u hk).resolve_left fun hnew => hu hnew.2.2⟩
      number := rfl
      own := rfl
      next := fun _ _ => rfl }
  have hroom : ∀ u g, HasRoom s u g → HasRoom ((s.store main ((s.hashes main).setKey slot t)).goto t
      (.insStore main value slot)) u g := by
    rintro u g ⟨c, hc, hlt⟩
    refine ⟨c, hc, ?_⟩
    unfold Hash.room at hlt ⊢
    show c < ((s.store main ((s.hashes main).setKey slot t)).hashes g).capacity / 2 +
      ((s.store main ((s.hashes main).setKey slot t)).hashes g).capacity / 4
    rw [hcap g]
    exact hlt
  have hreg : ∀ u, Registered s u → Registered ((s.store main ((s.hashes main).setKey slot t)).goto t
      (.insStore main value slot)) u := by
    rintro u ⟨g, hg, i, hk⟩
    exact ⟨g, hg, i, (hkept g i (by rw [hk]; nofun)).trans hk⟩
  have hnew : ((s.store main ((s.hashes main).setKey slot t)).hashes main).key slot = some t := by
    rw [store_key, if_pos ⟨rfl, rfl⟩]
  refine ⟨?_, locked_step h.locked nofun, h.rationed, ?_, ?_, ?_, fun u q hq => ?_⟩
  · refine h.tables.store rfl rfl fun hmain => ?_
    show Probing home (update (s.hashes main).key slot (some t)) _
    rw [hslot] at hempty ⊢
    exact (h.tables.probing main hmain).insert (h.tables.capacity_pos hmain) htrail hempty
      fun i => hjoins.absent main (Nat.le_refl _) hmain i
  · refine ⟨fun g hg i u hk => ?_, fun g hg i u hk => ?_, fun g hg i u hk => ?_, fun u hu => ?_,
      fun u hu => ?_, h.members.lt, h.members.inj⟩
    · rcases hold g i u hk with ⟨rfl, rfl, rfl⟩ | hk
      · exact hroom _ _ hjoins.room
      · exact hroom _ _ (h.members.room g hg i u hk)
    · have hvalue : ((s.store main ((s.hashes main).setKey slot t)).hashes g).value i =
          (s.hashes g).value i := by
        show (update s.hashes main _ g).value i = _
        by_cases hgm : g = main
        · rw [hgm, Function.update_self]
          rfl
        · rw [Function.update_of_ne hgm]
      rcases hold g i u hk with ⟨rfl, rfl, rfl⟩ | hk
      · refine .inr ?_
        show update s.pc u _ u = .insStore g (s.own u) i
        rw [Function.update_self, hjoins.own]
      · refine (h.members.value_stays ?_ hg hk).imp hvalue.trans id
        rw [hpc]
        nofun
    · rcases hold g i u hk with ⟨-, -, rfl⟩ | hk
      · show s.own u ≠ none
        rw [hjoins.own]
        exact hjoins.value
      · exact h.members.owned g hg i u hk
    · by_cases hut : u = t
      · subst hut
        exact .inl ⟨main, hjoins.made, slot, hnew⟩
      · refine (h.members.known u hu).imp (hreg u) fun hj => ?_
        show (update s.pc t _ u).joining = true
        rw [Function.update_of_ne hut]
        exact hj
    · refine (h.members.counted u hu).imp id (update_iff ?_)
      show (s.pc t).counted = true → _
      rw [hpc]
      nofun
  · obtain ⟨l, hl⟩ := h.list
    refine ⟨l, hl.1, hl.2.1, list_step hl ?_⟩
    rw [hpc]
    rfl
  · exact points_step h.points rfl ⟨hjoins.made, hnew, hjoins.own, hjoins.value⟩ hleaves
      fun _ _ _ => rfl
  · exact ⟨(h.returned u q hq).1, hreg u (h.returned u q hq).2⟩

/-- concurrentqueue.h:3330 and 3418: the value of the thread's slot. -/
theorem HashInv.store (h : HashInv home s) {main slot : ℕ} {value : Option ℕ}
    (hpc : s.pc t = .insStore main value slot) :
    HashInv home ((s.store main ((s.hashes main).setValue slot value)).goto t (.got value)) := by
  have hpoint := h.points t
  rw [hpc] at hpoint
  obtain ⟨hmain, hkey, hown, hvalue⟩ :
    main < s.made ∧ (s.hashes main).key slot = some t ∧ s.own t = value ∧ value ≠ none := hpoint
  have hkeys : ∀ g, ((s.store main ((s.hashes main).setValue slot value)).hashes g).key =
      (s.hashes g).key := by
    intro g
    show (update s.hashes main _ g).key = _
    by_cases hg : g = main
    · rw [hg, Function.update_self]
      rfl
    · rw [Function.update_of_ne hg]
  have hcap : ∀ g, ((s.store main ((s.hashes main).setValue slot value)).hashes g).capacity =
      (s.hashes g).capacity := fun g => store_capacity rfl
  have hleaves : ∀ u, Leaves s ((s.store main ((s.hashes main).setValue slot value)).goto t
      (.got value)) u := fun u =>
    { made := Nat.le_refl _
      capacity := fun g _ => hcap g
      keys := fun g _ i _ => congrFun (hkeys g) i
      mine := fun g hg i hk => ⟨hg, (congrFun (hkeys g) i).symm.trans hk⟩
      number := rfl
      own := rfl
      next := fun _ _ => rfl }
  refine ⟨h.tables.store rfl rfl fun hm => h.tables.probing main hm, locked_step h.locked nofun,
    h.rationed, ?_, ?_, ?_, fun u q hq => ?_⟩
  · refine h.members.step (fun u => (hleaves u).toLeavesTables) rfl rfl (fun g hg i u hk => ?_)
      ?_ ?_
    · show (update s.hashes main _ g).value i = s.own u ∨ _
      by_cases hgi : g = main ∧ i = slot
      · obtain ⟨rfl, rfl⟩ := hgi
        obtain rfl : u = t := Option.some.inj (hk.symm.trans hkey)
        refine .inl ?_
        rw [Function.update_self]
        show update (s.hashes g).value i value i = _
        rw [Function.update_self, hown]
      · have hsame : (update s.hashes main ((s.hashes main).setValue slot value) g).value i =
            (s.hashes g).value i := by
          by_cases hg : g = main
          · subst hg
            rw [Function.update_self]
            show update (s.hashes g).value slot value i = _
            rw [Function.update_of_ne fun hi => hgi ⟨rfl, hi⟩]
          · rw [Function.update_of_ne hg]
        rw [hsame]
        refine (h.members.value g hg i u hk).imp id fun hu => ?_
        rw [Function.update_of_ne]
        · exact hu
        · -- the thread is at the store of another slot
          rintro rfl
          rw [hpc] at hu
          obtain ⟨rfl, -, rfl⟩ := HashPc.insStore.inj hu
          exact hgi ⟨rfl, rfl⟩
    · rw [hpc]
      nofun
    · rw [hpc]
      nofun
  · obtain ⟨l, hl⟩ := h.list
    refine ⟨l, hl.1, hl.2.1, list_step hl ?_⟩
    rw [hpc]
    rfl
  · refine points_step h.points rfl (fun q hq => ⟨hown.trans hq, ?_⟩) (fun u _ => hleaves u)
      fun _ _ _ => rfl
    exact (hleaves t).registered ⟨main, hmain, slot, hkey⟩
  · exact ⟨(h.returned u q hq).1, (hleaves u).registered (h.returned u q hq).2⟩

/-- The thread goes off with its sub-queue. -/
theorem HashInv.leave (h : HashInv home s) {q : ℕ} (hpc : s.pc t = .got (some q)) :
    HashInv home ({ s with returned := update s.returned t (q :: s.returned t) }.goto t
      .elsewhere) := by
  have hpoint := h.points t
  rw [hpc] at hpoint
  have hgot : s.own t = some q ∧ Registered s t := hpoint q rfl
  have hwalk : HashInv home (s.goto t .elsewhere) :=
    h.goto hpc trivial nofun nofun nofun nofun rfl
  have hleaves : ∀ u, Leaves (s.goto t .elsewhere)
      ({ s with returned := update s.returned t (q :: s.returned t) }.goto t .elsewhere) u :=
    fun u => leaves_of_same rfl rfl rfl rfl fun _ _ => rfl
  refine ⟨hwalk.tables, hwalk.locked, hwalk.rationed, ?_, hwalk.list, fun u => ?_, fun u r hr => ?_⟩
  · exact members_step h.members rfl rfl rfl rfl rfl rfl (by rw [hpc]; nofun) (by rw [hpc]; nofun)
      (by rw [hpc]; nofun)
  · exact (hwalk.points u).mono (hleaves u) fun _ => rfl
  · have hr : r ∈ update s.returned t (q :: s.returned t) u := hr
    by_cases hut : u = t
    · subst hut
      rw [Function.update_self] at hr
      rcases List.mem_cons.mp hr with rfl | hr
      · exact hgot
      · exact h.returned u r hr
    · rw [Function.update_of_ne hut] at hr
      exact h.returned u r hr

/-! ## §3. One step. -/

omit [Fintype T] [DecidableEq T] in
/-- The next slot on the way. -/
theorem Come.succ (ht : Tables home s.hashes s.made s.implicitProducerHash) {g slot d : ℕ}
    (hg : g < s.made) (hc : Come home s t g slot d) (hkey : (s.hashes g).key slot ≠ none) :
    Come home s t g ((s.hashes g).slotOf (slot + 1)) (d + 1) := by
  obtain ⟨rfl, htrail⟩ := hc
  refine ⟨?_, htrail.succ hkey⟩
  rw [ht.slotOf hg, Nat.mod_add_mod, Nat.add_assoc]

omit [DecidableEq T] in
/-- A thread in no table has no sub-queue and no number, unless it is on its way to them. -/
theorem HashInv.unknown (h : HashInv home s) (habs : AbsentFrom s t 0)
    (hjoin : (s.pc t).joining = false) (hcount : (s.pc t).counted = false) :
    s.own t = none ∧ s.number t = none := by
  have hown : s.own t = none := by
    by_contra hno
    rcases h.members.known t hno with ⟨g, hg, i, hk⟩ | hj
    · exact habs g (Nat.zero_le g) hg i hk
    · rw [hjoin] at hj
      cases hj
  refine ⟨hown, ?_⟩
  by_contra hno
  rcases h.members.counted t hno with ho | hc
  · exact ho hown
  · rw [hcount] at hc
    cases hc

/-- concurrentqueue.h:3309: the key is the thread's, another's or nobody's. -/
theorem HashInv.probe (h : HashInv home s) {main hash index : ℕ}
    (hpc : s.pc t = .probe main hash index)
    (hstep : search home s t (.probe main hash index) = some s') : HashInv home s' := by
  have hpoint := h.points t
  rw [hpc] at hpoint
  obtain ⟨hle, hlt, habs, d, hcome, hno⟩ : hash ≤ main ∧ main < s.made ∧
    AbsentFrom s t (hash + 1) ∧ ∃ d, Come home s t hash ((s.hashes hash).slotOf index) d ∧
      ∀ i < d, (s.hashes hash).key ((home t + i) % (s.hashes hash).capacity) ≠ some t := hpoint
  have hhash : hash < s.made := by omega
  simp only [search, Option.some.injEq] at hstep
  subst hstep
  cases hkey : (s.hashes hash).key ((s.hashes hash).slotOf index) with
  | some u =>
      by_cases hut : u = t
      · subst hut
        simp only [if_true]
        exact h.goto hpc ⟨hle, hlt, habs, hkey⟩ nofun nofun nofun nofun rfl
      · simp only [if_neg hut]
        refine h.goto hpc ⟨hle, hlt, habs, d + 1, ?_, fun i hi => ?_⟩ nofun nofun nofun nofun rfl
        · refine hcome.succ h.tables hhash ?_
          rw [hkey]
          nofun
        · rcases Nat.lt_succ_iff_lt_or_eq.mp hi with hlt | rfl
          · exact hno i hlt
          · rw [← hcome.1, hkey]
            exact fun hu => hut (Option.some.inj hu)
  | none =>
      -- an empty slot: the thread is not in this table either
      have habsent : AbsentFrom s t hash := by
        intro g hge hg i
        by_cases hgh : g = hash
        · subst hgh
          refine (h.tables.probing g hg).absent hno ?_ i
          rw [← hcome.1]
          exact hkey
        · exact habs g (by omega) hg i
      cases hash with
      | zero =>
          rw [h.tables.first]
          obtain ⟨hown, hnumber⟩ := h.unknown habsent (by rw [hpc]; rfl) (by rw [hpc]; rfl)
          exact h.goto hpc ⟨hlt, habsent, hown, hnumber⟩ nofun nofun nofun nofun rfl
      | succ g =>
          rw [h.tables.prev g hhash]
          exact h.goto hpc ⟨by omega, hlt, habsent, 0, come_zero h.tables (by omega), nofun⟩
            nofun nofun nofun nofun rfl

/-- concurrentqueue.h:3316: the value of the thread's slot. -/
theorem HashInv.readValue (h : HashInv home s) {main hash slot : ℕ}
    (hpc : s.pc t = .readValue main hash slot)
    (hstep : search home s t (.readValue main hash slot) = some s') : HashInv home s' := by
  have hpoint := h.points t
  rw [hpc] at hpoint
  obtain ⟨hle, hlt, habs, hkey⟩ : hash ≤ main ∧ main < s.made ∧ AbsentFrom s t (hash + 1) ∧
    (s.hashes hash).key slot = some t := hpoint
  have hhash : hash < s.made := by omega
  have hvalue : (s.hashes hash).value slot = s.own t := by
    refine (h.members.value hash hhash slot t hkey).resolve_right ?_
    rw [hpc]
    nofun
  simp only [search, Option.some.injEq] at hstep
  subst hstep
  rw [hvalue]
  split
  · exact h.goto hpc (fun p hp => ⟨hp, hash, hhash, slot, hkey⟩) nofun nofun nofun nofun rfl
  · rename_i hne
    -- the number had room in the older table, so it has in the newest
    have hroom : HasRoom s t main :=
      HashInv.room_mono h.tables hle hlt (h.members.room hash hhash slot t hkey)
    refine h.goto hpc ⟨⟨hlt, fun g hg => habs g (by omega), rfl, ?_, hroom⟩, 0,
      come_zero h.tables hlt⟩ nofun nofun nofun nofun rfl
    exact h.members.owned hash hhash slot t hkey

theorem HashInv.search (h : HashInv home s) (hpc : s.pc t = p)
    (hstep : search home s t p = some s') : HashInv home s' := by
  cases p with
  | loadMain =>
      have hcur := h.tables.current
      obtain rfl := Option.some.inj hstep
      exact h.goto hpc ⟨Nat.le_refl _, by omega, fun g hge hg => absurd hg (by omega), 0,
        come_zero h.tables (by omega), nofun⟩ nofun nofun nofun nofun rfl
  | probe main hash index => exact h.probe hpc hstep
  | readValue main hash slot => exact h.readValue hpc hstep
  | _ => cases hstep

omit [Fintype T] [DecidableEq T] in
theorem afterLock_ok {main newCount : ℕ} (hmain : main < s.made) (hf : Fresh s t newCount) :
    PcOk home s t (s.afterLock main newCount) := by
  unfold HashState.afterLock
  split
  · exact ⟨hmain, hf, ‹_›⟩
  · exact hf

omit [Fintype T] [DecidableEq T] in
theorem afterLock_facts (s : HashState T) (main newCount : ℕ) :
    (s.afterLock main newCount).holds = false ∧ (s.afterLock main newCount).counted = true ∧
      (s.afterLock main newCount).pushing = none := by
  unfold HashState.afterLock
  split <;> exact ⟨rfl, rfl, rfl⟩

/-- concurrentqueue.h:3347: the thread's number. -/
theorem HashInv.count (h : HashInv home s) {main : ℕ} (hpc : s.pc t = .count main) :
    HashInv home ({ s with
      implicitProducerHashCount := s.implicitProducerHashCount + 1
      number := update s.number t (some (s.implicitProducerHashCount + 1)) }.goto t
        (.lock main (s.implicitProducerHashCount + 1))) := by
  have hpoint := h.points t
  rw [hpc] at hpoint
  obtain ⟨hmain, habs, hown, hnumber⟩ :
    main < s.made ∧ AbsentFrom s t 0 ∧ s.own t = none ∧ s.number t = none := hpoint
  refine h.renumber (h.rationed.draw hnumber) habs ⟨hmain, habs, hown, Function.update_self ..⟩
    nofun ?_ ?_ (fun _ => rfl) ?_ <;> rw [hpc]
  · nofun
  · rfl
  · rfl

/-- concurrentqueue.h:3363 and 3392: the number is given back. -/
theorem HashInv.uncount (h : HashInv home s) {newCount : ℕ} (hf : Fresh s t newCount)
    (hok : ∀ s' : HashState T, PcOk home s' t p) (hlock : p.holds = true → (s.pc t).holds = true)
    (hstore : ∀ main v i, s.pc t ≠ .insStore main v i) (hjoin : (s.pc t).joining = false)
    (hpush : p.pushing = (s.pc t).pushing) :
    HashInv home ({ s with
      implicitProducerHashCount := s.implicitProducerHashCount - 1
      number := update s.number t none }.goto t p) := by
  refine h.renumber (h.rationed.giveUp ?_) hf.absent (hok _) hlock hstore hjoin
    (fun hx => absurd rfl hx) hpush
  rw [hf.number]
  nofun

theorem HashInv.resize (h : HashInv home s) {alloc : Bool} (hpc : s.pc t = p)
    (hstep : resize s t alloc p = some s') : HashInv home s' := by
  have hcur := h.tables.current
  have hpoint := h.points t
  rw [hpc] at hpoint
  cases p with
  | count main =>
      obtain rfl := Option.some.inj hstep
      exact h.count hpc
  | lock main newCount =>
      obtain ⟨hmain, hf⟩ : main < s.made ∧ Fresh s t newCount := hpoint
      obtain ⟨hfree, hcount, hpush⟩ := afterLock_facts s main newCount
      simp only [HThread.RunQueue.resize] at hstep
      split at hstep
      · rename_i hgo
        obtain rfl := Option.some.inj hstep
        have hlocked := h.locked
        rw [hgo.2] at hlocked
        exact h.walk hpc hf hlocked.acquire nofun nofun (fun _ => rfl) rfl
      · obtain rfl := Option.some.inj hstep
        refine h.goto hpc (afterLock_ok hmain hf) ?_ nofun nofun (fun _ => hcount) hpush
        rw [hfree]
        nofun
  | reload newCount =>
      obtain rfl := Option.some.inj hstep
      -- another thread may have made a table before this one had the flag
      split
      · exact h.goto hpc ⟨hcur, hpoint⟩ (fun _ => rfl) nofun nofun (fun _ => rfl) rfl
      · exact h.goto hpc ⟨by omega, hpoint⟩ (fun _ => rfl) nofun nofun (fun _ => rfl) rfl
  | grow main newCount =>
      simp only [HThread.RunQueue.resize] at hstep
      split at hstep
      · obtain rfl := Option.some.inj hstep
        exact h.publish hpc
      · obtain rfl := Option.some.inj hstep
        exact h.goto hpc ⟨newCount, hpoint.2⟩ (fun _ => rfl) nofun nofun (fun _ => rfl) rfl
  | unlock main newCount =>
      obtain ⟨hmain, hf⟩ : main < s.made ∧ Fresh s t newCount := hpoint
      obtain ⟨hfree, hcount, hpush⟩ := afterLock_facts s main newCount
      obtain rfl := Option.some.inj hstep
      refine h.walk hpc (afterLock_ok hmain hf) (h.locked.clear ?_ hfree) nofun nofun
        (fun _ => hcount) hpush
      rw [hpc]
      rfl
  | uncountGrow =>
      obtain ⟨newCount, hf⟩ : ∃ newCount, Fresh s t newCount := hpoint
      obtain rfl := Option.some.inj hstep
      refine h.uncount hf (fun _ => trivial) ?_ ?_ ?_ ?_ <;> rw [hpc]
      · exact fun _ => rfl
      · nofun
      · rfl
      · rfl
  | unlockFail =>
      obtain rfl := Option.some.inj hstep
      refine h.walk hpc nofun (h.locked.clear ?_ rfl) nofun nofun nofun rfl
      rw [hpc]
      rfl
  | wait newCount =>
      obtain rfl := Option.some.inj hstep
      exact h.goto hpc ⟨by omega, hpoint⟩ nofun nofun nofun (fun _ => rfl) rfl
  | _ => cases hstep

theorem HashInv.addProducer (h : HashInv home s) {ok : Bool} (hpc : s.pc t = p)
    (hstep : addProducer home s t ok p = some s') : HashInv home s' := by
  have hpoint := h.points t
  rw [hpc] at hpoint
  cases p with
  | create main newCount =>
      simp only [HThread.RunQueue.addProducer] at hstep
      split at hstep
      · obtain rfl := Option.some.inj hstep
        exact h.create hpc
      · obtain rfl := Option.some.inj hstep
        exact h.goto hpc ⟨newCount, hpoint.2.1⟩ nofun nofun nofun (fun _ => rfl) rfl
  | uncount =>
      obtain ⟨newCount, hf⟩ : ∃ newCount, Fresh s t newCount := hpoint
      obtain rfl := Option.some.inj hstep
      refine h.uncount hf (fun _ => nofun) nofun ?_ ?_ ?_ <;> rw [hpc]
      · nofun
      · rfl
      · rfl
  | pushTail main producer =>
      obtain rfl := Option.some.inj hstep
      exact h.goto hpc hpoint nofun nofun (fun _ => rfl) nofun rfl
  | pushLink main producer prevTail =>
      obtain rfl := Option.some.inj hstep
      exact h.link hpc
  | pushCas main producer prevTail =>
      simp only [HThread.RunQueue.addProducer] at hstep
      split at hstep
      · rename_i hgo
        obtain rfl := Option.some.inj hstep
        obtain ⟨rfl, -⟩ := hgo
        exact h.push hpc
      · -- the tail has changed, or the weak exchange has failed without a reason
        obtain rfl := Option.some.inj hstep
        exact h.goto hpc hpoint.1 nofun nofun (fun _ => rfl) nofun rfl
  | _ => cases hstep

theorem HashInv.insertKey (h : HashInv home s) (hpc : s.pc t = p)
    (hstep : insertKey s t p = some s') : HashInv home s' := by
  have hpoint := h.points t
  rw [hpc] at hpoint
  cases p with
  | insProbe main value index =>
      obtain ⟨hjoins, d, hcome⟩ : Joins s t main value main ∧
        ∃ d, Come home s t main ((s.hashes main).slotOf index) d := hpoint
      obtain rfl := Option.some.inj hstep
      split
      · exact h.goto hpc ⟨hjoins, d, hcome⟩ nofun nofun (fun _ => rfl) nofun rfl
      · rename_i hkey
        exact h.goto hpc ⟨hjoins, d + 1, hcome.succ h.tables hjoins.made hkey⟩ nofun nofun
          (fun _ => rfl) nofun rfl
  | insCas main value slot =>
      obtain ⟨hjoins, d, hcome⟩ : Joins s t main value main ∧ ∃ d, Come home s t main slot d :=
        hpoint
      simp only [HThread.RunQueue.insertKey] at hstep
      split at hstep
      · rename_i hkey
        obtain rfl := Option.some.inj hstep
        exact h.insert hpc hkey
      · -- another thread has taken the slot since it was read
        rename_i hkey
        obtain rfl := Option.some.inj hstep
        exact h.goto hpc ⟨hjoins, d + 1, hcome.succ h.tables hjoins.made hkey⟩ nofun nofun
          (fun _ => rfl) nofun rfl
  | insStore main value slot =>
      obtain rfl := Option.some.inj hstep
      exact h.store hpc
  | _ => cases hstep

theorem HashInv.step (h : HashInv home s) {act : HashAct T}
    (hstep : (producerHash home).step s act = some s') : HashInv home s' := by
  cases act with
  | call t =>
      simp only [producerHash, hashStep] at hstep
      split at hstep
      · rename_i hpc
        obtain rfl := Option.some.inj hstep
        exact h.goto hpc trivial nofun nofun nofun nofun rfl
      · cases hstep
  | go t ok =>
      have hstep : hashStep home s (.go t ok) = some s' := hstep
      unfold hashStep at hstep
      cases hpc : s.pc t <;> simp only [hpc] at hstep
      case loadMain | probe | readValue => exact h.search hpc hstep
      case create | uncount | pushTail | pushLink | pushCas => exact h.addProducer hpc hstep
      case insProbe | insCas | insStore => exact h.insertKey hpc hstep
      all_goals exact h.resize hpc hstep
  | leave t =>
      have hstep : hashStep home s (.leave t) = some s' := hstep
      unfold hashStep at hstep
      cases hpc : s.pc t with
      | got value =>
          simp only [hpc] at hstep
          cases value with
          | none =>
              obtain rfl := Option.some.inj hstep
              exact h.goto hpc trivial nofun nofun nofun nofun rfl
          | some p =>
              obtain rfl := Option.some.inj hstep
              exact h.leave hpc
      | _ =>
          simp only [hpc] at hstep
          cases hstep

/-- **What the threads know is true, in every reachable state.** -/
theorem hash_keeps (home : T → ℕ) :
    (producerHash home).Keeps (fun _ _ => True) (HashInv home) where
  start s hs := by
    obtain rfl := hs
    refine ⟨⟨rfl, fun g _ => ⟨5, rfl⟩, fun _ _ _ _ => Nat.le_refl _, rfl, fun g hg => ?_,
      fun _ _ => ⟨nofun, nofun, nofun⟩⟩, ⟨nofun, nofun⟩, rationed_start,
      ⟨fun _ _ _ _ => nofun, fun _ _ _ _ => nofun, fun _ _ _ _ => nofun, fun _ hu => absurd rfl hu,
        fun _ hu => absurd rfl hu, nofun, nofun⟩, ⟨[], rfl, List.nodup_nil, fun p => ⟨nofun, ?_⟩⟩,
      fun _ => trivial, fun _ => nofun⟩
    · exact absurd (Nat.lt_of_succ_lt_succ hg) (Nat.not_lt_zero g)
    · exact fun hp => absurd hp.1 (Nat.not_lt_zero p)
  step _ _ _ h _ hstep := h.step hstep

/-! ## §4. A directory of the threads. -/

/-- What the sub-queues are for: every thread has its own. -/
def HashState.abs (s : HashState T) : Directory T ℕ := ⟨s.own, s.returned⟩

omit [Fintype T] in
theorem search_abs (hstep : search home s t p = some s') : s'.abs = s.abs := by
  cases p <;> cases hstep <;> rfl

omit [Fintype T] in
theorem resize_abs {alloc : Bool} (hstep : resize s t alloc p = some s') : s'.abs = s.abs := by
  cases p with
  | lock main newCount =>
      simp only [resize] at hstep
      split at hstep <;> cases hstep <;> rfl
  | grow main newCount =>
      simp only [resize] at hstep
      split at hstep <;> cases hstep <;> rfl
  | _ => cases hstep <;> rfl

omit [Fintype T] in
theorem insertKey_abs (hstep : insertKey s t p = some s') : s'.abs = s.abs := by
  cases p with
  | insCas main value slot =>
      simp only [insertKey] at hstep
      split at hstep <;> cases hstep <;> rfl
  | _ => cases hstep <;> rfl

/-- A new sub-queue is a new entry. -/
theorem addProducer_abs (h : HashInv home s) {ok : Bool} (hpc : s.pc t = p)
    (hstep : addProducer home s t ok p = some s') :
    s'.abs = s.abs ∨ ∃ a, (directory T ℕ).step s.abs a = some s'.abs := by
  cases p with
  | create main newCount =>
      have hpoint := h.points t
      rw [hpc] at hpoint
      obtain ⟨-, hfresh, -⟩ :
        main < s.made ∧ Fresh s t newCount ∧ newCount < (s.hashes main).room := hpoint
      simp only [addProducer] at hstep
      split at hstep
      · obtain rfl := Option.some.inj hstep
        -- the sub-queues are numbered as they are made
        refine .inr ⟨.assign t s.producers, ?_⟩
        simp only [directory, directoryStep]
        refine if_pos ⟨hfresh.own, fun u hu => ?_⟩
        exact absurd (h.members.lt u _ hu) (Nat.lt_irrefl _)
      · obtain rfl := Option.some.inj hstep
        exact .inl rfl
  | pushCas main producer prevTail =>
      simp only [addProducer] at hstep
      split at hstep <;> cases hstep <;> exact .inl rfl
  | _ => cases hstep <;> exact .inl rfl

theorem hash_abs_step (h : HashInv home s) {act : HashAct T}
    (hstep : (producerHash home).step s act = some s') :
    s'.abs = s.abs ∨ ∃ a, (directory T ℕ).step s.abs a = some s'.abs := by
  cases act with
  | call t =>
      simp only [producerHash, hashStep] at hstep
      split at hstep <;> cases hstep
      exact .inl rfl
  | go t ok =>
      have hstep : hashStep home s (.go t ok) = some s' := hstep
      unfold hashStep at hstep
      cases hpc : s.pc t <;> simp only [hpc] at hstep
      case loadMain | probe | readValue => exact .inl (search_abs hstep)
      case create | uncount | pushTail | pushLink | pushCas =>
        exact addProducer_abs h hpc hstep
      case insProbe | insCas | insStore => exact .inl (insertKey_abs hstep)
      all_goals exact .inl (resize_abs hstep)
  | leave t =>
      have hstep : hashStep home s (.leave t) = some s' := hstep
      unfold hashStep at hstep
      cases hpc : s.pc t with
      | got value =>
          simp only [hpc] at hstep
          cases value with
          | none =>
              obtain rfl := Option.some.inj hstep
              exact .inl rfl
          | some p =>
              have hpoint := h.points t
              rw [hpc] at hpoint
              have hown : s.abs.entry t = some p := (hpoint p rfl).1
              obtain rfl := Option.some.inj hstep
              refine .inr ⟨.answer t, ?_⟩
              simp only [directory, directoryStep, hown]
              rfl
      | _ =>
          simp only [hpc] at hstep
          cases hstep

theorem lookup_refines (home : T → ℕ) :
    (producerHash home).Refines (directory T ℕ) (fun _ _ => True) (fun _ _ => True)
      HashState.abs where
  start s hs := by
    obtain rfl := hs
    rfl
  step s act s' hr _ hstep := by
    rcases hash_abs_step ((hash_keeps home).reachable hr) hstep with hsame | ⟨a, ha⟩
    · exact .inl hsame
    · exact .inr ⟨a, trivial, ha⟩

/-- **The tables and the list are a directory of the threads**: however the calls interleave,
    a thread is given the same sub-queue each time it asks, and no other thread is given it. -/
theorem producer_lookup_unique (home : T → ℕ) :
    (producerHash home).Refines (directory T ℕ) (fun _ _ => True) (fun _ _ => True)
      HashState.abs ∧
    ∀ s, (producerHash home).Reachable s →
      (∀ t, ∀ p ∈ s.returned t, ∀ q ∈ s.returned t, p = q) ∧
      ∀ t u, ∀ p ∈ s.returned t, p ∈ s.returned u → t = u := by
  refine ⟨lookup_refines home, fun s hs => ?_⟩
  have hconsistent : s.abs.Consistent := (lookup_refines home).keeps directory_consistent hs
  exact ⟨fun _ _ hp _ hq => hconsistent.same hp hq, fun _ _ _ ht hu => hconsistent.apart ht hu⟩

/-- Two threads with one home find their sub-queues, the first one twice. -/
def bothFind : List (HashAct (Fin 2)) :=
  (.call 0 :: List.replicate 11 (.go 0 true)) ++ .leave 0 ::
    (.call 1 :: List.replicate 13 (.go 1 true)) ++ .leave 1 ::
    (.call 0 :: List.replicate 3 (.go 0 true)) ++ [.leave 0]

theorem bothFind_run :
    ∃ s, (producerHash fun _ : Fin 2 => 31).run (.new (Fin 2)) bothFind = some s ∧
      s.returned 0 = [0, 0] ∧ s.returned 1 = [1] := by
  have hreturned : ((producerHash fun _ : Fin 2 => 31).run (.new (Fin 2)) bothFind).map
      (fun s => (s.returned 0, s.returned 1)) = some ([0, 0], [1]) := by decide
  obtain ⟨s, hrun, hs⟩ := Option.map_eq_some_iff.mp hreturned
  obtain ⟨h0, h1⟩ := Prod.mk.inj hs
  exact ⟨s, hrun, h0, h1⟩

theorem producer_lookup_unique_bothFind :
    ∃ s, (producerHash fun _ : Fin 2 => 31).run (.new (Fin 2)) bothFind = some s ∧
      s.returned 0 = [0, 0] ∧ s.returned 1 = [1] ∧
      ∀ t u, ∀ p ∈ s.returned t, p ∈ s.returned u → t = u := by
  obtain ⟨s, hrun, h0, h1⟩ := bothFind_run
  exact ⟨s, hrun, h0, h1, ((producer_lookup_unique _).2 s (.after rfl _ hrun)).2⟩

/-! ## §5. The tables. -/

/-- A table in which searches work. -/
structure HashOk (home : T → ℕ) (h : Hash T) : Prop where
  power : ∃ e, h.capacity = 2 ^ e
  /-- A thread that is in the table is met before an empty slot on its way. -/
  probing : Probing home h.key h.capacity
  load : ∀ l : Finset T, (∀ t ∈ l, ∃ i, h.key i = some t) → l.card ≤ h.room
  /-- So a search ends. -/
  empty : ∃ i < h.capacity, h.key i = none

/-- The tables and the list, in a state in which they work. -/
structure ProducersOk (home : T → ℕ) (s : HashState T) : Prop where
  newest : s.implicitProducerHash + 1 = s.made
  prev : ∀ h < s.made, (s.hashes h).prev = if h = 0 then none else some (h - 1)
  hashes : ∀ h < s.made, HashOk home (s.hashes h)
  /-- A thread that has been given a sub-queue is in a table, with that sub-queue. -/
  registered : ∀ t, ∀ p ∈ s.returned t, ∃ h < s.made, ∃ i, (s.hashes h).key i = some t ∧
    ((s.hashes h).value i = some p ∨ s.pc t = .insStore h (some p) i)
  /-- Those who dequeue come to every sub-queue that a thread has been given. -/
  listed : ∃ l, Chain s.next s.producerListTail l ∧ l.Nodup ∧ ∀ t, ∀ p ∈ s.returned t, p ∈ l

/-- **The tables never fill up, and nobody is lost in them**, for any number of threads. -/
theorem producers_found (hs : (producerHash home).Reachable s) : ProducersOk home s := by
  have h : HashInv home s := (hash_keeps home).reachable hs
  refine ⟨h.tables.current, fun g hg => ?_, fun g hg => ?_, fun t p hp => ?_, ?_⟩
  · cases g with
    | zero => exact h.tables.first
    | succ g => exact h.tables.prev g hg
  · have hload : ∀ l : Finset T, (∀ t ∈ l, ∃ i, (s.hashes g).key i = some t) →
        l.card ≤ (s.hashes g).room :=
      fun l hl => HashState.load h.rationed (h.members.room g hg) hl
    exact ⟨h.tables.powers g hg, h.tables.probing g hg, hload, h.tables.exists_empty hg hload⟩
  · obtain ⟨hown, g, hg, i, hk⟩ := h.returned t p hp
    refine ⟨g, hg, i, hk, ?_⟩
    have hvalue := h.members.value g hg i t hk
    rw [hown] at hvalue
    exact hvalue
  · obtain ⟨l, hchain, hnodup, hmem⟩ := h.list
    refine ⟨l, hchain, hnodup, fun t p hp => (hmem p).mpr ?_⟩
    obtain ⟨hown, g, hg, i, hk⟩ := h.returned t p hp
    refine ⟨h.members.lt t p hown, fun u hu => ?_⟩
    -- a sub-queue that is not on the list yet is that of a thread in no table
    obtain ⟨hownu, habs⟩ := h.pushing hu
    obtain rfl := h.members.inj u t p hownu hown
    exact habs g (Nat.zero_le g) hg i hk

theorem producers_found_bothFind :
    ∃ s, (producerHash fun _ : Fin 2 => 31).run (.new (Fin 2)) bothFind = some s ∧
      s.returned 0 = [0, 0] ∧ s.returned 1 = [1] ∧ ProducersOk (fun _ => 31) s := by
  obtain ⟨s, hrun, h0, h1⟩ := bothFind_run
  exact ⟨s, hrun, h0, h1, producers_found (.after rfl _ hrun)⟩

end HThread.RunQueue
