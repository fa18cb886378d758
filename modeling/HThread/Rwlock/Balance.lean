/-
  HThread.Rwlock.Balance — whether every unlock undoes the caller's own hold.

  `pthread_rwlock_unlock` releases the write hold when `w` equals the caller's
  vthread pointer and counts a reader out otherwise.  For a raw thread that
  pointer is null, as `w` is when nobody writes.

  Key lemmas:
    * `RwInv.balanced` — vthreads keep the lock balanced.
    * `raw_unlock`     — a raw reader takes the wrong branch.
  Main result:
    * `balanced_iff` — the lock stays balanced iff no caller is a raw thread.
-/
import HThread.Rwlock

namespace HThread.Rwlock

open Interleave
open Function (update)

variable {T P : Type} [Fintype T]

/-- Each unlock that is about to change a word has the hold it gives back, and
    while no call is in progress the words are the outstanding holds. -/
structure Balanced (s : RwState T P) : Prop where
  release : ∀ t, s.pc t = .unlock .releaseW → s.writeHold t = true
  dec : ∀ t, s.pc t = .unlock .decR → s.writeHold t = false ∧ 0 < s.readHolds t
  r : (∀ t, s.pc t = .idle) → s.r = tally id s.readHolds
  w : (∀ t, s.pc t = .idle) → (s.w ≠ none ↔ ∃ t, s.writeHold t = true)
  free : (∀ t, s.pc t = .idle) → (∀ t, ¬Holding s t) → s.r = 0 ∧ s.w = none

/-- The invariant of callers that are vthreads says so. -/
theorem RwInv.balanced {e : T ↪ P} {s : RwState T P} (h : RwInv e s) : Balanced s := by
  have hr : (∀ t, s.pc t = .idle) → s.r = tally id s.readHolds := by
    intro hidle
    have hcount := h.count
    have hprobes : tally inProbe s.pc = 0 := by
      refine (tally_eq_zero inProbe s.pc).mpr fun t => ?_
      rw [hidle t]
      rfl
    omega
  have hw : (∀ t, s.pc t = .idle) → (s.w ≠ none ↔ ∃ t, s.writeHold t = true) := by
    intro hidle
    constructor
    · intro hne
      obtain ⟨p, hp⟩ := Option.ne_none_iff_exists'.mp hne
      obtain ⟨t, rfl⟩ := h.named p hp
      rcases (h.owner t).mp hp with hold | hclaim
      · exact ⟨t, hold⟩
      · rw [hidle t] at hclaim
        cases hclaim
    · rintro ⟨t, ht⟩ hnone
      exact h.no_claim hnone t (.inl ht)
  -- an unlock that decides by `w` decides right: `w` is its own pointer or not
  refine ⟨fun t ht => ?_, fun t ht => ?_, hr, hw, fun hidle hfree => ⟨?_, ?_⟩⟩
  · have hloc := h.loc t
    rw [LocalOk, ht] at hloc
    exact hloc
  · have hloc := h.loc t
    rw [LocalOk, ht] at hloc
    exact hloc
  · have hzero : tally id s.readHolds = 0 := by
      refine (tally_eq_zero id s.readHolds).mpr fun t => ?_
      have hnone : ¬0 < s.readHolds t := fun hpos => hfree t (.inr hpos)
      show s.readHolds t = 0
      omega
    have hcount := hr hidle
    omega
  · by_contra hne
    obtain ⟨t, ht⟩ := (hw hidle).mp hne
    exact hfree t (.inl ht)

variable [DecidableEq T] [DecidableEq P]

omit [Fintype T] in
/-- A raw thread takes the free lock for reading and unlocks it: null equals null. -/
theorem raw_unlock {me : T → Option P} {t : T} (hraw : me t = none) :
    ∃ s, (rwlock me).Reachable s ∧ s.pc t = .unlock .releaseW ∧ s.writeHold t = false := by
  have hrun : ∃ s, (rwlock me).run pthreadRwlockInit
      [.call t .tryrdlock, .go t, .go t, .go t, .call t .unlock, .go t] = some s
      ∧ s.pc t = .unlock .releaseW ∧ s.writeHold t = false := by
    simp [Machine.run, rwlock, rwStep, pthreadRwlockInit, RwCall.entry, RwState.goto,
      pthreadRwlockTryrdlock, rdAttempt, RwState.gainRead, RwState.return_, Holding,
      pthreadRwlockUnlock, hraw]
  obtain ⟨s, hs, hpc, hwrite⟩ := hrun
  exact ⟨s, .after rfl _ hs, hpc, hwrite⟩

/-- **Read-write lock balance.**  Callers with pairwise distinct non-null pointers
    keep the lock balanced in every interleaving iff none of them is a raw thread. -/
theorem balanced_iff {me : T → Option P}
    (hdistinct : ∀ t u p, me t = some p → me u = some p → t = u) :
    (∀ s, (rwlock me).Reachable s → Balanced s) ↔ ∀ t, me t ≠ none := by
  constructor
  · intro hall t hraw
    obtain ⟨s, hr, hpc, hwrite⟩ := raw_unlock hraw
    have hown := (hall s hr).release t hpc
    rw [hwrite] at hown
    cases hown
  · intro hvth s hr
    choose p hp using fun t => Option.ne_none_iff_exists'.mp (hvth t)
    have hinj : Function.Injective p := by
      intro t u htu
      exact hdistinct t u (p u) (htu ▸ hp t) (hp u)
    -- distinct non-null pointers are an embedding
    obtain rfl : me = vthreadOf ⟨p, hinj⟩ := funext hp
    exact ((rwlock_keeps ⟨p, hinj⟩).reachable hr).balanced

/-- Vthread 0 has read, vthread 1 holds the lock for writing. -/
def readThenWrite : List (RwAct (Fin 2)) :=
  [.call 0 .rdlock, .go 0, .go 0, .go 0, .call 0 .unlock, .go 0, .go 0, .call 1 .wrlock, .go 1,
    .go 1, .go 1, .go 1]

theorem balanced_iff_two :
    ∃ s, (rwlock (fun t : Fin 2 => some t)).run pthreadRwlockInit readThenWrite = some s
      ∧ s.writeHold 1 = true ∧ s.w = some 1 ∧ s.r = 0 ∧ Balanced s := by
  have hdistinct : ∀ t u p : Fin 2, some t = some p → some u = some p → t = u := by
    intro t u p ht hu
    exact Option.some.inj (ht.trans hu.symm)
  have hall := (balanced_iff hdistinct).mpr
    fun t => Option.some_ne_none t
  exact ⟨_, rfl, rfl, rfl, rfl, hall _ (.after rfl readThenWrite rfl)⟩

/-- One raw thread locks for reading and unlocks. -/
def rawReader : List (RwAct Unit) :=
  [.call () .rdlock, .go (), .go (), .go (), .call () .unlock, .go (), .go ()]

/-- Nobody holds the lock, and `r` is 1 for ever. -/
theorem reader_never_counted_out :
    ∃ s, (rwlock (fun _ : Unit => (none : Option Unit))).run pthreadRwlockInit rawReader = some s
      ∧ (∀ t, s.pc t = .idle) ∧ (∀ t, ¬Holding s t) ∧ s.r = 1 ∧ ¬Balanced s := by
  have hfree : ∀ s, (rwlock (fun _ : Unit => (none : Option Unit))).run pthreadRwlockInit rawReader
      = some s → (∀ t, s.pc t = .idle) ∧ (∀ t, ¬Holding s t) ∧ s.r = 1 := by
    intro s hs
    obtain rfl := Option.some.inj hs
    refine ⟨fun _ => rfl, fun _ => ?_, rfl⟩
    show ¬(false = true ∨ 0 < 0)
    decide
  obtain ⟨hidle, hnone, hr⟩ := hfree _ rfl
  refine ⟨_, rfl, hidle, hnone, hr, fun h => ?_⟩
  have hzero := (h.free hidle hnone).1
  rw [hr] at hzero
  cases hzero

end HThread.Rwlock
