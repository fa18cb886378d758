/-
  HThread.Vthreads.Identity — which slot of `vid_to_pvth` a vthread gets.

  `vthreads::add_vthread` numbers the calls with a 64-bit counter that starts
  at 15, truncates the number to `unsigned int`, reduces it modulo
  `MAX_VTHREADS` and initialises that slot again; the slot index is the id
  that `pthread_create` returns and `pthread_join` looks up.  Nothing records
  which slots still belong to a running vthread.

  The k-th creation is named by `k`.  Its slot is taken again by the creation
  that comes `reuseGap k` later: normally `MAX_VTHREADS` creations, but 796 or
  136 around the point where the truncated counter wraps.

  Main results:
    * `identity_iff_inTime` — in a run the live vthreads keep their slots, ids
      and joiners iff every vthread finishes, and every join on it is called,
      before its slot's turn comes again.
    * `long_lived_clobbered` — a vthread that outlives 659 others loses its slot
      although never more than two are alive at once.
-/
import Mathlib.Algebra.Group.Nat.Defs
import Mathlib.Logic.Function.Basic
import HThread.Interleave.Machine

namespace HThread

/-- `MAX_VTHREADS`: the length of the table `vid_to_pvth`. -/
def maxVthreads : Nat := 660

end HThread

namespace HThread.Identity

open Interleave
open Function (update)

/-! ## §1. The table and its events. -/

/-- The table `vid_to_pvth` and the counter `vthreads::vid`.  Slots are known by
    the creation they were last initialised for (`none`: only by the static
    construction).  `idOf`, `finished`, `creations` describe the creations so
    far.  History: `clobbered` lists the creations whose slot was initialised
    again before they finished, `joined` every joined creation with the one its
    id led to, `alive` and `peak` the number of live vthreads now and at most. -/
structure Table where
  vid : ℕ
  slot : ℕ → Option ℕ
  creations : ℕ
  idOf : ℕ → ℕ
  finished : ℕ → Bool
  clobbered : List ℕ
  joined : List (ℕ × Option ℕ)
  alive : ℕ
  peak : ℕ

/-- What happens to the table: a `pthread_create`, the end of the vthread of
    creation `k`, a `pthread_join` with the id that creation `k` returned. -/
inductive Event where
  | create
  | finish (k : ℕ)
  | join (k : ℕ)
  deriving DecidableEq, Repr

/-- The live creation in a slot, if there is one. -/
def Table.liveIn (s : Table) (i : ℕ) : List ℕ :=
  match s.slot i with
  | some k => if s.finished k then [] else [k]
  | none => []

/-- vthreads.cpp:55, `vthreads::add_vthread`. -/
def addVthread (s : Table) : Table :=
  let curVid := s.vid % 2 ^ 32 % maxVthreads
  { s with
    vid := (s.vid + 1) % 2 ^ 64
    slot := update s.slot curVid (some s.creations)
    creations := s.creations + 1
    idOf := update s.idOf s.creations curVid
    clobbered := s.clobbered ++ s.liveIn curVid
    alive := s.alive + 1
    peak := max s.peak (s.alive + 1) }

/-- The vthread of creation `k` finishes. -/
def finishVthread (s : Table) (k : ℕ) : Table :=
  { s with finished := update s.finished k true, alive := s.alive - 1 }

/-- strategy.h:266, `strategy::pthread_join`: the target is `vid_to_pvth + thread`. -/
def pthreadJoin (s : Table) (k : ℕ) : Table :=
  { s with joined := s.joined ++ [(k, s.slot (s.idOf k))] }

/-- One event. -/
def tableStep (s : Table) : Event → Option Table
  | .create => some (addVthread s)
  | .finish k => if k < s.creations ∧ s.finished k = false then some (finishVthread s k) else none
  | .join k => if k < s.creations then some (pthreadJoin s k) else none

/-- The table after static construction; the constructor sets `vid = 15` (vthreads.cpp:33). -/
def emptyTable : Table where
  vid := 15
  slot _ := none
  creations := 0
  idOf _ := 0
  finished _ := false
  clobbered := []
  joined := []
  alive := 0
  peak := 0

/-- The life of the table. -/
def table : Machine Table Event where
  init s := s = emptyTable
  step := tableStep

/-! ## §2. When a slot is used again. -/

/-- The slot of the k-th creation. -/
def slotOf (k : ℕ) : ℕ := (15 + k) % 2 ^ 32 % maxVthreads

/-- The number of creations from creation `k` to the next one on its slot. -/
def reuseGap (k : ℕ) : ℕ :=
  if (15 + k) % 2 ^ 32 < 2 ^ 32 - maxVthreads then maxVthreads
  else if (15 + k) % 2 ^ 32 < 2 ^ 32 - 136 then 796
  else 136

theorem slotOf_reuse (k : ℕ) : slotOf (k + reuseGap k) = slotOf k := by
  unfold slotOf reuseGap maxVthreads
  split_ifs <;> omega

theorem reuseGap_pos (k : ℕ) : 0 < reuseGap k := by
  unfold reuseGap maxVthreads
  split_ifs <;> omega

/-- Between a creation and its reuse no other creation takes the slot. -/
theorem slotOf_ne {k d : ℕ} (h0 : 0 < d) (hd : d < reuseGap k) : slotOf (k + d) ≠ slotOf k := by
  have hlt : (15 + k) % 2 ^ 32 < 2 ^ 32 := Nat.mod_lt _ (by decide)
  have hsum : (15 + (k + d)) % 2 ^ 32 = ((15 + k) % 2 ^ 32 + d) % 2 ^ 32 := by
    rw [Nat.mod_add_mod, Nat.add_assoc]
  unfold slotOf
  unfold reuseGap at hd
  rw [hsum]
  generalize (15 + k) % 2 ^ 32 = r at *
  unfold maxVthreads at *
  by_cases hw : r + d < 2 ^ 32
  · rw [Nat.mod_eq_of_lt hw]
    split_ifs at hd <;> omega
  · -- the truncated counter wraps between the two creations
    have hm : (r + d) % 2 ^ 32 = r + d - 2 ^ 32 := by
      rw [Nat.mod_eq_sub_mod (by omega), Nat.mod_eq_of_lt]
      split_ifs at hd <;> omega
    rw [hm]
    split_ifs at hd <;> omega

/-! ## §3. What every run keeps. -/

/-- The counter, the ids and the slots after `s.creations` creations: a slot
    belongs to the latest creation that took it. -/
structure Numbered (s : Table) : Prop where
  vid : s.vid = (15 + s.creations) % 2 ^ 64
  idOf : ∀ k < s.creations, s.idOf k = slotOf k
  slot : ∀ i k, s.slot i = some k ↔
    k < s.creations ∧ slotOf k = i ∧ s.creations ≤ k + reuseGap k

theorem Numbered.curVid {s : Table} (h : Numbered s) :
    s.vid % 2 ^ 32 % maxVthreads = slotOf s.creations := by
  rw [h.vid, Nat.mod_mod_of_dvd _ (by decide : 2 ^ 32 ∣ 2 ^ 64)]
  rfl

theorem numbered_addVthread {s : Table} (h : Numbered s) : Numbered (addVthread s) where
  vid := by
    show (s.vid + 1) % 2 ^ 64 = (15 + (s.creations + 1)) % 2 ^ 64
    rw [h.vid, Nat.mod_add_mod]
    rfl
  idOf k hk := by
    show update s.idOf s.creations (s.vid % 2 ^ 32 % maxVthreads) k = slotOf k
    rw [h.curVid]
    by_cases hkc : k = s.creations
    · subst hkc
      rw [Function.update_self]
    · rw [Function.update_of_ne hkc]
      have hk' : k < s.creations + 1 := hk
      exact h.idOf k (by omega)
  slot i k := by
    show update s.slot (s.vid % 2 ^ 32 % maxVthreads) (some s.creations) i = some k ↔
      k < s.creations + 1 ∧ slotOf k = i ∧ s.creations + 1 ≤ k + reuseGap k
    rw [h.curVid]
    by_cases hi : i = slotOf s.creations
    · subst hi
      rw [Function.update_self, Option.some.injEq]
      constructor
      · rintro rfl
        have := reuseGap_pos s.creations
        omega
      · -- an older creation on this slot would have been taken over by now
        rintro ⟨hk, hslot, hgap⟩
        by_contra hne
        refine slotOf_ne (k := k) (d := s.creations - k) (by omega) (by omega) ?_
        rw [Nat.add_sub_of_le (by omega), hslot]
    · rw [Function.update_of_ne hi, h.slot]
      constructor
      · rintro ⟨hk, rfl, hgap⟩
        refine ⟨by omega, rfl, ?_⟩
        by_contra hlt
        have hc : s.creations = k + reuseGap k := by omega
        rw [hc, slotOf_reuse] at hi
        exact hi rfl
      · rintro ⟨hk, rfl, hgap⟩
        have hne : k ≠ s.creations := fun he => hi (he ▸ rfl)
        exact ⟨by omega, rfl, by omega⟩

theorem numbered_step {s s' : Table} {a : Event} (h : Numbered s)
    (hs : tableStep s a = some s') : Numbered s' := by
  cases a with
  | create =>
      obtain rfl : addVthread s = s' := Option.some.inj hs
      exact numbered_addVthread h
  | finish k =>
      simp only [tableStep, Option.ite_none_right_eq_some] at hs
      obtain ⟨-, hs⟩ := hs
      obtain rfl := Option.some.inj hs
      exact ⟨h.vid, h.idOf, h.slot⟩
  | join k =>
      simp only [tableStep, Option.ite_none_right_eq_some] at hs
      obtain ⟨-, hs⟩ := hs
      obtain rfl := Option.some.inj hs
      exact ⟨h.vid, h.idOf, h.slot⟩

theorem numbered_empty : Numbered emptyTable where
  vid := rfl
  idOf k hk := absurd hk (Nat.not_lt_zero k)
  slot i k := by simp [emptyTable]

theorem numbered_keeps : table.Keeps (fun _ _ => True) Numbered where
  start s hs := by
    obtain rfl : s = emptyTable := hs
    exact numbered_empty
  step _ _ _ h _ hs := numbered_step h hs

/-! ## §4. Identity. -/

/-- A live vthread: created and not finished. -/
def Live (s : Table) (k : ℕ) : Prop := k < s.creations ∧ s.finished k = false

/-- No live vthread's slot was ever initialised again, the ids of the live
    vthreads are pairwise distinct, every join led to the vthread whose creation
    returned the id. -/
structure IdentityKept (s : Table) : Prop where
  clobbered : s.clobbered = []
  distinct : ∀ k k', Live s k → Live s k' → s.idOf k = s.idOf k' → k = k'
  joined : ∀ p ∈ s.joined, p.2 = some p.1

/-- The event comes in time: the vthread whose slot a creation takes has
    finished, the vthread that a join asks for still has its slot. -/
def InTime (s : Table) : Event → Prop
  | .create => ∀ k < s.creations, k + reuseGap k = s.creations → s.finished k = true
  | .join k => s.creations ≤ k + reuseGap k
  | .finish _ => True

/-- What runs in time keep besides the numbering. -/
structure Kept (s : Table) : Prop where
  numbered : Numbered s
  live : ∀ k, Live s k → s.creations ≤ k + reuseGap k
  clobbered : s.clobbered = []
  joined : ∀ p ∈ s.joined, p.2 = some p.1

/-- A live vthread still has its slot. -/
theorem Kept.slot {s : Table} (h : Kept s) {k : ℕ} (hk : Live s k) :
    s.slot (s.idOf k) = some k := by
  rw [h.numbered.idOf k hk.1, h.numbered.slot]
  exact ⟨hk.1, rfl, h.live k hk⟩

theorem Kept.identityKept {s : Table} (h : Kept s) : IdentityKept s where
  clobbered := h.clobbered
  distinct k k' hk hk' he := by
    have h₁ := h.slot hk
    rw [he, h.slot hk'] at h₁
    exact (Option.some.inj h₁).symm
  joined := h.joined

/-- A creation in time finds no live vthread in its slot. -/
theorem Kept.liveIn_slotOf {s : Table} (h : Kept s) (hok : InTime s .create) :
    s.liveIn (slotOf s.creations) = [] := by
  unfold Table.liveIn
  split
  · next k hk =>
      obtain ⟨hlt, hslot, hle⟩ := (h.numbered.slot _ _).mp hk
      have hgap : k + reuseGap k = s.creations := by
        by_contra hne
        refine slotOf_ne (k := k) (d := s.creations - k) (by omega) (by omega) ?_
        rw [Nat.add_sub_of_le (by omega), hslot]
      rw [if_pos (hok k hlt hgap)]
  · rfl

theorem kept_step {s s' : Table} {a : Event} (h : Kept s) (hok : InTime s a)
    (hs : tableStep s a = some s') : Kept s' := by
  have hnum := numbered_step h.numbered hs
  cases a with
  | create =>
      obtain rfl : addVthread s = s' := Option.some.inj hs
      refine ⟨hnum, ?_, ?_, h.joined⟩
      · rintro k ⟨hk, hfin⟩
        have hk' : k < s.creations + 1 := hk
        show s.creations + 1 ≤ k + reuseGap k
        by_cases hkc : k = s.creations
        · have := reuseGap_pos k
          omega
        · have hlt : k < s.creations := by omega
          have hle := h.live k ⟨hlt, hfin⟩
          by_contra hno
          have := hok k hlt (by omega)
          exact Bool.noConfusion (hfin.symm.trans this)
      · show s.clobbered ++ s.liveIn (s.vid % 2 ^ 32 % maxVthreads) = []
        rw [h.numbered.curVid, h.liveIn_slotOf hok, h.clobbered]
        rfl
  | finish k =>
      simp only [tableStep, Option.ite_none_right_eq_some] at hs
      obtain ⟨-, hs⟩ := hs
      obtain rfl := Option.some.inj hs
      refine ⟨hnum, ?_, h.clobbered, h.joined⟩
      rintro j ⟨hj, hfin⟩
      refine h.live j ⟨hj, ?_⟩
      have hjk : j ≠ k := by
        rintro rfl
        simp [finishVthread] at hfin
      exact (Function.update_of_ne hjk _ _).symm.trans hfin
  | join k =>
      simp only [tableStep, Option.ite_none_right_eq_some] at hs
      obtain ⟨hk, hs⟩ := hs
      obtain rfl := Option.some.inj hs
      refine ⟨hnum, h.live, h.clobbered, ?_⟩
      intro p hp
      rcases List.mem_append.mp hp with hp | hp
      · exact h.joined p hp
      · obtain rfl := List.mem_singleton.mp hp
        show s.slot (s.idOf k) = some k
        rw [h.numbered.idOf k hk, h.numbered.slot]
        exact ⟨hk, rfl, hok⟩

/-- The first event that is not in time does the damage at once. -/
theorem not_identityKept_of_late {s s' : Table} {a : Event} (h : Kept s) (hlate : ¬InTime s a)
    (hs : tableStep s a = some s') : ¬IdentityKept s' := by
  intro hP
  cases a with
  | create =>
      obtain rfl : addVthread s = s' := Option.some.inj hs
      simp only [InTime, not_forall] at hlate
      obtain ⟨k, hk, hgap, hfin⟩ := hlate
      have hslot : s.slot (slotOf s.creations) = some k := by
        rw [h.numbered.slot]
        exact ⟨hk, by rw [← hgap, slotOf_reuse], by omega⟩
      have hclob : s.clobbered ++ s.liveIn (s.vid % 2 ^ 32 % maxVthreads) = [] := hP.clobbered
      rw [h.numbered.curVid, Table.liveIn, hslot] at hclob
      simp [hfin] at hclob
  | finish k => exact hlate trivial
  | join k =>
      simp only [tableStep, Option.ite_none_right_eq_some] at hs
      obtain ⟨hk, hs⟩ := hs
      obtain rfl := Option.some.inj hs
      have hj := hP.joined (k, s.slot (s.idOf k)) (List.mem_append_right _ (List.mem_singleton_self _))
      rw [h.numbered.idOf k hk] at hj
      exact hlate ((h.numbered.slot _ _).mp hj).2.2

theorem table_keeps : table.Keeps InTime Kept where
  start s hs := by
    obtain rfl : s = emptyTable := hs
    exact ⟨numbered_empty, fun k hk => absurd hk.1 (Nat.not_lt_zero k), rfl, by simp [emptyTable]⟩
  step _ _ _ h hok hs := kept_step h hok hs

/-- **Identity lasts exactly as long as nobody is late.**  Throughout a run no
    live vthread's slot is initialised again, live ids are distinct and joins
    find their target, iff each creation finds the earlier owner of its slot
    finished and each join comes before its target's slot is taken again. -/
theorem identity_iff_inTime {as : List Event} {t : Table}
    (hrun : table.run emptyTable as = some t) :
    table.Always IdentityKept emptyTable as ↔ table.StepsMeet InTime emptyTable as :=
  Machine.always_iff_stepsMeet table_keeps (fun _ => Kept.identityKept)
    (fun _ _ _ => not_identityKept_of_late) rfl hrun

/-- Two vthreads, one after the other, joined by the first one's creator. -/
def inTimeActs : List Event := [.create, .join 0, .finish 0, .create, .finish 1, .join 1]

theorem identity_iff_inTime_two :
    ∃ t, table.run emptyTable inTimeActs = some t
      ∧ t.joined = [(0, some 0), (1, some 1)]
      ∧ (table.Always IdentityKept emptyTable inTimeActs ↔
          table.StepsMeet InTime emptyTable inTimeActs) :=
  ⟨_, rfl, rfl, identity_iff_inTime (t := _) rfl⟩

/-! ## §5. One long-lived vthread. -/

/-- `n` vthreads after the first one, each created and finished before the next. -/
def shortLived (n : ℕ) : List Event :=
  (List.range n).flatMap fun k => [.create, .finish (k + 1)]

theorem shortLived_succ (n : ℕ) :
    shortLived (n + 1) = shortLived n ++ [.create, .finish (n + 1)] := by
  simp [shortLived, List.range_succ]

/-- The first vthread stays while `n` others come and go, one at a time. -/
theorem shortLived_run (n : ℕ) :
    ∃ s, table.run emptyTable (.create :: shortLived n) = some s ∧ s.creations = n + 1
      ∧ s.finished 0 = false ∧ (∀ k, n < k → s.finished k = false) ∧ s.alive = 1 ∧ s.peak ≤ 2 := by
  induction n with
  | zero => exact ⟨_, rfl, rfl, rfl, fun _ _ => rfl, rfl, by decide⟩
  | succ n ih =>
      obtain ⟨s, hrun, hc, h0, hfin, halive, hpeak⟩ := ih
      have hguard : n + 1 < s.creations + 1 ∧ s.finished (n + 1) = false :=
        ⟨by omega, hfin _ (by omega)⟩
      have hpair : table.run s [.create, .finish (n + 1)]
          = some (finishVthread (addVthread s) (n + 1)) := by
        show (if n + 1 < s.creations + 1 ∧ s.finished (n + 1) = false then
          some (finishVthread (addVthread s) (n + 1)) else none).bind _ = _
        rw [if_pos hguard]
        rfl
      refine ⟨finishVthread (addVthread s) (n + 1), ?_, ?_, ?_, ?_, ?_, ?_⟩
      · rw [shortLived_succ, ← List.cons_append]
        exact Machine.run_append hrun hpair
      · show s.creations + 1 = n + 1 + 1
        rw [hc]
      · show update s.finished (n + 1) true 0 = false
        rw [Function.update_of_ne (by omega), h0]
      · intro k hk
        show update s.finished (n + 1) true k = false
        rw [Function.update_of_ne (by omega), hfin k (by omega)]
      · show s.alive + 1 - 1 = 1
        omega
      · show max s.peak (s.alive + 1) ≤ 2
        omega

/-- The first vthread, 659 short-lived ones, and one more creation. -/
def longLived : List Event := .create :: shortLived 659 ++ [.create]

/-- The creation that follows takes the slot of the first, still running, vthread. -/
theorem long_lived_clobbered :
    ∃ s, table.run emptyTable longLived = some s ∧ s.peak ≤ maxVthreads
      ∧ ¬ table.Always IdentityKept emptyTable longLived := by
  obtain ⟨s, hrun, hc, h0, -, halive, hpeak⟩ := shortLived_run 659
  have hlast : table.run s [.create] = some (addVthread s) := rfl
  have hall := Machine.run_append hrun hlast
  refine ⟨_, hall, ?_, fun hA => ?_⟩
  · show max s.peak (s.alive + 1) ≤ 660
    omega
  · have hnum : Numbered s := numbered_keeps.reachable (Machine.Reachable.after rfl _ hrun)
    have hslot : s.slot (slotOf s.creations) = some 0 := by
      rw [hnum.slot, hc]
      decide
    have hP := (hA.last hall).clobbered
    have hclob : s.clobbered ++ s.liveIn (s.vid % 2 ^ 32 % maxVthreads) = [] := hP
    rw [hnum.curVid, Table.liveIn, hslot] at hclob
    simp [h0] at hclob

end HThread.Identity
