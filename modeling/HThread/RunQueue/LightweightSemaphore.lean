/-
  HThread.RunQueue.LightweightSemaphore — the semaphore of `vs_queue`.

  `BlockingConcurrentQueue` counts its elements with a `LightweightSemaphore`: a
  word `m_count`, and a kernel semaphore that is only used when the word is
  exhausted.  A thread that finds no permit spins 10000 times, then takes one off
  `m_count` all the same and sleeps until somebody posts.  A negative `m_count` is
  the number of threads that nobody has posted for yet.

  `wait` and `tryWait` are `waitMany` and `tryWaitMany` for one permit.

  Key lemmas:
    * `semaStep_effect` — a step keeps the account of the sleepers and that of the
      permits.
  Main results:
    * `lightweight_conserve`        — it is a counting semaphore.
    * `lightweight_no_lost_wakeup`  — nobody sleeps while a permit is free, unless
      it is being woken; `m_count` stays within its bounds.
    * `wait_alone`                  — a thread that is left alone gets a permit if
      there is one, and goes to sleep otherwise.
-/
import HThread.Interleave.Permits
import HThread.Interleave.Refinement
import HThread.Interleave.Tally

namespace HThread.RunQueue

open Interleave
open Function (update)

/-! ## §1. The code. -/

/-- blockingconcurrentqueue.h:191, `LightweightSemaphore`. -/
structure LightweightSemaphore where
  mCount : ℤ
  /-- The value of the kernel semaphore. -/
  mSema : ℕ
  deriving DecidableEq, Repr

/-- What a call of `tryWaitMany` is followed by if there is no permit: the spinning of
    `waitMany`, or the return with the permits that the thread has already. -/
inductive TryThen where
  | spin
  | done (got : ℕ)
  deriving DecidableEq, Repr

/-- Program points of the methods. -/
inductive SemaPc where
  | elsewhere
  /-- blockingconcurrentqueue.h:273, the load of `m_count`. -/
  | tryLoad (next : TryThen) (max : ℕ)
  /-- blockingconcurrentqueue.h:277, the exchange. -/
  | tryCas (next : TryThen) (max : ℕ) (oldCount : ℤ)
  /-- blockingconcurrentqueue.h:229, the load in the loop. -/
  | spinLoad (spin max : ℕ)
  /-- blockingconcurrentqueue.h:233, the exchange in the loop. -/
  | spinCas (spin max : ℕ) (oldCount : ℤ)
  /-- blockingconcurrentqueue.h:238, `fetch_sub`. -/
  | fetchSub (max : ℕ)
  /-- blockingconcurrentqueue.h:240, `m_sema.wait()`. -/
  | kernelWait (max : ℕ)
  | acquired (n : ℕ)
  /-- blockingconcurrentqueue.h:296, `fetch_add`. -/
  | fetchAdd (count : ℕ)
  /-- blockingconcurrentqueue.h:300, the posts of `m_sema.signal`. -/
  | post (left : ℕ)
  | signalled
  deriving DecidableEq, Repr

/-- blockingconcurrentqueue.h:252, 263, 270 and 284; `wait` and `tryWait` for `max = 1`. -/
def SemaPc.tryWaitMany (max : ℕ) : SemaPc := .tryLoad (.done 0) max

def SemaPc.waitMany (max : ℕ) : SemaPc := .tryLoad .spin max

def SemaPc.tryWait : SemaPc := .tryWaitMany 1

def SemaPc.wait : SemaPc := .waitMany 1

/-- blockingconcurrentqueue.h:293. -/
def SemaPc.signal (count : ℕ) : SemaPc := .fetchAdd count

/-- `while (--spin >= 0)`. -/
def spinFrom (spin max : ℕ) : SemaPc := if spin = 0 then .fetchSub max else .spinLoad (spin - 1) max

/-- The permits that the thread has already. -/
def TryThen.got : TryThen → ℕ
  | spin => 0
  | done got => got

/-- `while (oldCount > 0)`, and what follows the loop. -/
def tryFrom (next : TryThen) (max : ℕ) (oldCount : ℤ) : SemaPc :=
  if 0 < oldCount then .tryCas next max oldCount
  else match next with
    | .spin => if 0 < max then spinFrom 10000 max else .acquired 0
    | .done got => .acquired got

/-- blockingconcurrentqueue.h:241, `max - 1` more, if there are any. -/
def afterOne (max : ℕ) : SemaPc := if 1 < max then .tryLoad (.done 1) (max - 1) else .acquired 1

/-- `oldCount > max ? oldCount - max : 0`. -/
def newCount (oldCount : ℤ) (max : ℕ) : ℤ := if oldCount > max then oldCount - max else 0

/-- `-oldCount < count ? -oldCount : count`. -/
def toRelease (oldCount : ℤ) (count : ℕ) : ℤ := if -oldCount < count then -oldCount else count

/-- One step in the code of the semaphore; a weak exchange may fail without a reason
    (`spurious`). -/
def semaStep (σ : LightweightSemaphore) (spurious : Bool) :
    SemaPc → Option (LightweightSemaphore × SemaPc)
  | .tryLoad next max => some (σ, tryFrom next max σ.mCount)
  | .tryCas next max oldCount =>
      if σ.mCount = oldCount ∧ spurious = false then
        some ({ σ with mCount := newCount oldCount max },
          .acquired (next.got + (oldCount - newCount oldCount max).toNat))
      else some (σ, tryFrom next max σ.mCount)
  | .spinLoad spin max =>
      some (σ, if 0 < σ.mCount then .spinCas spin max σ.mCount else spinFrom spin max)
  | .spinCas spin max oldCount =>
      if σ.mCount = oldCount then
        some ({ σ with mCount := newCount oldCount max },
          .acquired (oldCount - newCount oldCount max).toNat)
      else some (σ, spinFrom spin max)
  | .fetchSub max =>
      some ({ σ with mCount := σ.mCount - 1 },
        if σ.mCount ≤ 0 then .kernelWait max else afterOne max)
  | .kernelWait max =>
      if 0 < σ.mSema then some ({ σ with mSema := σ.mSema - 1 }, afterOne max) else none
  | .fetchAdd count =>
      some ({ σ with mCount := σ.mCount + count },
        if 0 < toRelease σ.mCount count then .post (toRelease σ.mCount count).toNat else .signalled)
  | .post (left + 1) =>
      some ({ σ with mSema := σ.mSema + 1 }, if left = 0 then .signalled else .post left)
  | _ => none

/-- No call is in progress. -/
def SemaPc.free : SemaPc → Bool
  | elsewhere | acquired _ | signalled => true
  | _ => false

/-- A semaphore and the threads that use it. -/
structure SemaState (T : Type) where
  sema : LightweightSemaphore
  pc : T → SemaPc

/-- An action of thread `t`: call a method, take the next step, or go on elsewhere. -/
inductive SemaAct (T : Type) where
  | tryWaitMany (t : T) (max : ℕ)
  | waitMany (t : T) (max : ℕ)
  | signal (t : T) (count : ℕ)
  | go (t : T) (spurious : Bool)
  | leave (t : T)
  deriving DecidableEq, Repr

variable {T : Type} [DecidableEq T]

/-- A new call of thread `t`, or none. -/
def SemaState.call (s : SemaState T) (t : T) (q : SemaPc) : Option (SemaState T) :=
  if (s.pc t).free = true then some { s with pc := update s.pc t q } else none

/-- It begins between two calls. -/
theorem SemaState.call_cases {s s' : SemaState T} {t : T} {q : SemaPc} (h : s.call t q = some s') :
    (s.pc t).free = true ∧ s' = { s with pc := update s.pc t q } := by
  simp only [SemaState.call, Option.ite_none_right_eq_some] at h
  exact ⟨h.1, (Option.some.inj h.2).symm⟩

def semaThreadStep (s : SemaState T) : SemaAct T → Option (SemaState T)
  | .tryWaitMany t max => s.call t (.tryWaitMany max)
  | .waitMany t max => s.call t (.waitMany max)
  | .signal t count => s.call t (.signal count)
  | .go t spurious => (semaStep s.sema spurious (s.pc t)).map fun r => ⟨r.1, update s.pc t r.2⟩
  | .leave t => s.call t .elsewhere

/-- blockingconcurrentqueue.h:247, the constructor. -/
def lightweightSemaphore (T : Type) [DecidableEq T] (initialCount : ℕ) :
    Machine (SemaState T) (SemaAct T) where
  init s := s = ⟨⟨initialCount, 0⟩, fun _ => .elsewhere⟩
  step := semaThreadStep

/-! ## §2. The accounts. -/

/-- One that sleeps in the kernel. -/
def SemaPc.sleeping : SemaPc → ℕ
  | kernelWait _ => 1
  | _ => 0

/-- Posts that are on their way. -/
def SemaPc.posting : SemaPc → ℕ
  | post left => left
  | _ => 0

/-- Permits that the thread has. -/
def SemaPc.held : SemaPc → ℕ
  | tryLoad next _ | tryCas next _ _ => next.got
  | acquired n => n
  | _ => 0

/-- The permits that a thread has taken and not returned with. -/
def SemaPc.inHand : SemaPc → ℕ
  | acquired _ => 0
  | q => q.held

/-- Permits that the thread is about to give. -/
def SemaPc.giving : SemaPc → ℕ
  | fetchAdd count => count
  | _ => 0

/-- The permits that are free, as far as one thread is concerned. -/
def LightweightSemaphore.permits (σ : LightweightSemaphore) (q : SemaPc) : ℕ :=
  σ.mCount.toNat + σ.mSema + q.posting

/-- What a thread knows: it does not try to exchange a count that shows no permit. -/
def SemaPc.Ok : SemaPc → Prop
  | tryCas _ _ oldCount | spinCas _ _ oldCount => 0 < oldCount
  | _ => True

/-- A point with no part in the account of the sleepers, where the thread has `n` permits. -/
structure SemaPc.Has (q : SemaPc) (n : ℕ) : Prop where
  sleeping : q.sleeping = 0
  posting : q.posting = 0
  held : q.held = n
  giving : q.giving = 0
  ok : q.Ok

theorem spinFrom_has (spin max : ℕ) : (spinFrom spin max).Has 0 := by
  unfold spinFrom
  split <;> exact ⟨rfl, rfl, rfl, rfl, trivial⟩

theorem tryFrom_has (next : TryThen) (max : ℕ) (oldCount : ℤ) :
    (tryFrom next max oldCount).Has next.got := by
  unfold tryFrom
  split
  case isTrue hpos => exact ⟨rfl, rfl, rfl, rfl, hpos⟩
  case isFalse =>
    cases next with
    | done got => exact ⟨rfl, rfl, rfl, rfl, trivial⟩
    | spin =>
        dsimp only
        split
        · exact spinFrom_has _ _
        · exact ⟨rfl, rfl, rfl, rfl, trivial⟩

theorem afterOne_has (max : ℕ) : (afterOne max).Has 1 := by
  unfold afterOne
  split <;> exact ⟨rfl, rfl, rfl, rfl, trivial⟩

/-- What an exchange takes off the count. -/
theorem newCount_split {oldCount : ℤ} (hpos : 0 < oldCount) (max : ℕ) :
    (newCount oldCount max).toNat + (oldCount - newCount oldCount max).toNat = oldCount.toNat
      ∧ 0 ≤ newCount oldCount max ∧ newCount oldCount max ≤ oldCount := by
  unfold newCount
  split <;> omega

/-- What a step does to the accounts: it may hand out permits, or bring some. -/
structure SemaEffect (σ : LightweightSemaphore) (q : SemaPc) (σ' : LightweightSemaphore)
    (q' : SemaPc) : Prop where
  ok : q'.Ok
  sleepers : q'.sleeping + σ.mSema + q.posting + (-σ.mCount).toNat
    = q.sleeping + σ'.mSema + q'.posting + (-σ'.mCount).toNat
  permits : (∃ n, σ'.permits q' + n = σ.permits q ∧ q'.held = q.held + n ∧ q.giving = 0
      ∧ q'.giving = 0)
    ∨ (σ'.permits q' = σ.permits q + q.giving ∧ q'.held = q.held ∧ q'.giving = 0)

section Step

variable {σ σ' : LightweightSemaphore} {q q' : SemaPc} {spurious : Bool} {n : ℕ}

/-- From one point with `n` permits to another. -/
theorem SemaEffect.stay (hq : q.Has n) (hq' : q'.Has n) : SemaEffect σ q σ q' where
  ok := hq'.ok
  sleepers := by rw [hq.sleeping, hq.posting, hq'.sleeping, hq'.posting]
  permits := .inl ⟨0, by
    unfold LightweightSemaphore.permits
    rw [hq.posting, hq'.posting, hq.held, hq'.held]
    exact ⟨rfl, rfl, hq.giving, hq'.giving⟩⟩

/-- An exchange. -/
theorem SemaEffect.take (hq : q.Has n) {oldCount : ℤ} {max k : ℕ} (hold : σ.mCount = oldCount)
    (hpos : 0 < oldCount) (hk : k = n + (oldCount - newCount oldCount max).toNat) :
    SemaEffect σ q { σ with mCount := newCount oldCount max } (.acquired k) := by
  obtain ⟨hsplit, hnonneg, hle⟩ := newCount_split hpos max
  constructor
  · trivial
  · rw [hq.sleeping, hq.posting]
    simp only [SemaPc.sleeping, SemaPc.posting]
    omega
  · refine .inl ⟨(oldCount - newCount oldCount max).toNat, ?_, ?_, hq.giving, rfl⟩
    · unfold LightweightSemaphore.permits
      rw [hq.posting]
      simp only [SemaPc.posting]
      omega
    · rw [hq.held]
      exact hk

/-- One permit, from `fetch_sub` or from the kernel. -/
theorem SemaEffect.one (hq : q.Has 0) (hq' : q'.Has 1) (hlt : 0 < σ.mCount) :
    SemaEffect σ q { σ with mCount := σ.mCount - 1 } q' where
  ok := hq'.ok
  sleepers := by
    rw [hq.sleeping, hq.posting, hq'.sleeping, hq'.posting]
    show _ = 0 + σ.mSema + 0 + (-(σ.mCount - 1)).toNat
    omega
  permits := by
    refine .inl ⟨1, ?_, ?_, hq.giving, hq'.giving⟩
    · unfold LightweightSemaphore.permits
      rw [hq.posting, hq'.posting]
      show (σ.mCount - 1).toNat + σ.mSema + 0 + 1 = _
      omega
    · rw [hq.held, hq'.held]

/-- **One step.** -/
theorem semaStep_effect (hok : q.Ok) (h : semaStep σ spurious q = some (σ', q')) :
    SemaEffect σ q σ' q' := by
  cases q with
  | tryLoad next max =>
      obtain ⟨rfl, rfl⟩ := Prod.mk.inj (Option.some.inj h)
      exact .stay ⟨rfl, rfl, rfl, rfl, trivial⟩ (tryFrom_has _ _ _)
  | tryCas next max oldCount =>
      simp only [semaStep] at h
      split at h
      case isTrue heq =>
        obtain ⟨rfl, rfl⟩ := Prod.mk.inj (Option.some.inj h)
        exact .take ⟨rfl, rfl, rfl, rfl, hok⟩ heq.1 hok rfl
      case isFalse =>
        obtain ⟨rfl, rfl⟩ := Prod.mk.inj (Option.some.inj h)
        exact .stay ⟨rfl, rfl, rfl, rfl, hok⟩ (tryFrom_has _ _ _)
  | spinLoad spin max =>
      obtain ⟨rfl, rfl⟩ := Prod.mk.inj (Option.some.inj h)
      refine .stay ⟨rfl, rfl, rfl, rfl, trivial⟩ ?_
      split
      case isTrue hpos => exact ⟨rfl, rfl, rfl, rfl, hpos⟩
      case isFalse => exact spinFrom_has _ _
  | spinCas spin max oldCount =>
      simp only [semaStep] at h
      split at h
      case isTrue heq =>
        obtain ⟨rfl, rfl⟩ := Prod.mk.inj (Option.some.inj h)
        exact .take ⟨rfl, rfl, rfl, rfl, hok⟩ heq hok (Nat.zero_add _).symm
      case isFalse =>
        obtain ⟨rfl, rfl⟩ := Prod.mk.inj (Option.some.inj h)
        exact .stay ⟨rfl, rfl, rfl, rfl, hok⟩ (spinFrom_has _ _)
  | fetchSub max =>
      obtain ⟨rfl, rfl⟩ := Prod.mk.inj (Option.some.inj h)
      split
      case isFalse hlt =>
        exact .one ⟨rfl, rfl, rfl, rfl, trivial⟩ (afterOne_has max) (Int.not_le.mp hlt)
      case isTrue hle =>
        -- the thread goes to sleep, and `m_count` remembers it
        constructor
        · trivial
        · show 1 + σ.mSema + 0 + _ = 0 + σ.mSema + 0 + (-(σ.mCount - 1)).toNat
          omega
        · refine .inl ⟨0, ?_, rfl, rfl, rfl⟩
          show (σ.mCount - 1).toNat + σ.mSema + 0 + 0 = σ.mCount.toNat + σ.mSema + 0
          omega
  | kernelWait max =>
      simp only [semaStep, Option.ite_none_right_eq_some] at h
      obtain ⟨hpos, h⟩ := h
      obtain ⟨rfl, rfl⟩ := Prod.mk.inj (Option.some.inj h)
      obtain ⟨hs, hp, hh, hg, hk⟩ := afterOne_has max
      constructor
      · exact hk
      · rw [hs, hp]
        show 0 + σ.mSema + 0 + _ = 1 + (σ.mSema - 1) + 0 + (-σ.mCount).toNat
        omega
      · refine .inl ⟨1, ?_, hh, rfl, hg⟩
        unfold LightweightSemaphore.permits
        rw [hp]
        show σ.mCount.toNat + (σ.mSema - 1) + 0 + 1 = σ.mCount.toNat + σ.mSema + 0
        omega
  | fetchAdd count =>
      obtain ⟨rfl, rfl⟩ := Prod.mk.inj (Option.some.inj h)
      have hrel : toRelease σ.mCount count
          = if -σ.mCount < count then -σ.mCount else (count : ℤ) := rfl
      have hpost : (if 0 < toRelease σ.mCount count
          then SemaPc.post (toRelease σ.mCount count).toNat else .signalled).posting
          = (toRelease σ.mCount count).toNat := by
        split
        · rfl
        · show 0 = _
          omega
      have hrest : ∀ r : ℕ, (if 0 < toRelease σ.mCount count then SemaPc.post r else .signalled).Ok
          ∧ (if 0 < toRelease σ.mCount count then SemaPc.post r else .signalled).sleeping = 0
          ∧ (if 0 < toRelease σ.mCount count then SemaPc.post r else .signalled).held = 0
          ∧ (if 0 < toRelease σ.mCount count then SemaPc.post r else .signalled).giving = 0 := by
        intro r
        split <;> exact ⟨trivial, rfl, rfl, rfl⟩
      obtain ⟨hk, hs, hh, hg⟩ := hrest (toRelease σ.mCount count).toNat
      constructor
      · exact hk
      · rw [hs, hpost]
        show 0 + σ.mSema + 0 + _ = 0 + σ.mSema + _ + (-(σ.mCount + count)).toNat
        split at hrel <;> omega
      · refine .inr ⟨?_, hh, hg⟩
        unfold LightweightSemaphore.permits
        rw [hpost]
        show (σ.mCount + count).toNat + σ.mSema + _ = σ.mCount.toNat + σ.mSema + 0 + count
        split at hrel <;> omega
  | post left =>
      cases left with
      | zero => cases h
      | succ left =>
          obtain ⟨rfl, rfl⟩ := Prod.mk.inj (Option.some.inj h)
          have hnext : (if left = 0 then SemaPc.signalled else .post left).posting = left
              ∧ (if left = 0 then SemaPc.signalled else .post left).sleeping = 0
              ∧ (if left = 0 then SemaPc.signalled else .post left).held = 0
              ∧ (if left = 0 then SemaPc.signalled else .post left).giving = 0
              ∧ (if left = 0 then SemaPc.signalled else .post left).Ok := by
            split
            case isTrue hzero => exact ⟨hzero.symm, rfl, rfl, rfl, trivial⟩
            case isFalse => exact ⟨rfl, rfl, rfl, rfl, trivial⟩
          obtain ⟨hp, hs, hh, hg, hk⟩ := hnext
          constructor
          · exact hk
          · rw [hs, hp]
            show 0 + σ.mSema + (left + 1) + _ = 0 + (σ.mSema + 1) + left + (-σ.mCount).toNat
            omega
          · refine .inl ⟨0, ?_, hh, rfl, hg⟩
            unfold LightweightSemaphore.permits
            rw [hp]
            show σ.mCount.toNat + (σ.mSema + 1) + left + 0 = σ.mCount.toNat + σ.mSema + (left + 1)
            omega
  | elsewhere | acquired | signalled => cases h

end Step

/-! ## §3. A thread that is alone. -/

/-- The steps of one thread in the code, the others standing still. -/
def semaAlone (x : LightweightSemaphore × SemaPc) : Option (LightweightSemaphore × SemaPc) :=
  semaStep x.1 false x.2

/-- They are steps of the machine. -/
theorem semaAlone_run {initialCount : ℕ} {t : T} {n : ℕ} {σ σ' : LightweightSemaphore} {q q' : SemaPc}
    (pc : T → SemaPc) (h : Machine.stepN semaAlone n (σ, q) = some (σ', q')) :
    Machine.stepN ((lightweightSemaphore T initialCount).drive fun _ => .go t false) n
      ⟨σ, update pc t q⟩ = some ⟨σ', update pc t q'⟩ := by
  refine Machine.stepN_lift (fun x => (⟨x.1, update pc t x.2⟩ : SemaState T)) ?_ h
  intro x y hxy
  show (semaStep x.1 false (update pc t x.2 t)).map _ = _
  rw [Function.update_self, show semaStep x.1 false x.2 = some y from hxy, Option.map_some,
    Function.update_idem]

/-- The loop, while there is no permit. -/
theorem spin_alone {σ : LightweightSemaphore} (hle : σ.mCount ≤ 0) (max : ℕ) (spin : ℕ) :
    Machine.stepN semaAlone (spin + 1) (σ, spinFrom spin max)
      = some ({ σ with mCount := σ.mCount - 1 }, .kernelWait max) := by
  induction spin with
  | zero =>
      refine Machine.stepN_cons (r := ({ σ with mCount := σ.mCount - 1 }, .kernelWait max)) ?_ rfl
      show some ((_, if σ.mCount ≤ 0 then _ else _) : LightweightSemaphore × SemaPc) = _
      rw [if_pos hle]
  | succ spin ih =>
      refine Machine.stepN_cons ?_ ih
      show some ((σ, if 0 < σ.mCount then _ else spinFrom spin max) : LightweightSemaphore × SemaPc)
        = _
      rw [if_neg (by omega)]

/-- **Alone with the semaphore.**  A call for up to `max` permits takes two steps if
    `m_count` shows permits: it gets them, as many as there are.  Otherwise it goes
    through the loop 10000 times, and then to sleep. -/
theorem wait_alone (σ : LightweightSemaphore) {max : ℕ} (hmax : 0 < max) :
    (0 < σ.mCount → Machine.stepN semaAlone 2 (σ, .waitMany max)
        = some ({ σ with mCount := σ.mCount - min σ.mCount max },
          .acquired (min σ.mCount max).toNat))
      ∧ (σ.mCount ≤ 0 → Machine.stepN semaAlone 10002 (σ, .waitMany max)
        = some ({ σ with mCount := σ.mCount - 1 }, .kernelWait max)) := by
  constructor
  · intro hpos
    have hnew : newCount σ.mCount max = σ.mCount - min σ.mCount max := by
      unfold newCount
      split <;> omega
    have hload : semaAlone (σ, .waitMany max) = some (σ, .tryCas .spin max σ.mCount) := by
      show some ((σ, if 0 < σ.mCount then _ else _) : LightweightSemaphore × SemaPc) = _
      rw [if_pos hpos]
    refine Machine.stepN_cons hload (Machine.stepN_cons ?_ rfl)
    show semaStep σ false (.tryCas .spin max σ.mCount) = _
    rw [semaStep, if_pos ⟨rfl, rfl⟩, hnew]
    show some (_, SemaPc.acquired (0 + _)) = _
    rw [Nat.zero_add, sub_sub_cancel]
  · intro hle
    refine Machine.stepN_cons ?_ (spin_alone hle max 10000)
    show some ((σ, if 0 < σ.mCount then _ else (if 0 < max then spinFrom 10000 max else _)) :
      LightweightSemaphore × SemaPc) = _
    rw [if_neg (by omega), if_pos hmax]

/-! ## §4. All threads. -/

/-- A call begins, or a result is left. -/
structure SemaPc.Begins (q : SemaPc) : Prop where
  sleeping : q.sleeping = 0
  posting : q.posting = 0
  held : q.held = 0
  ok : q.Ok

/-- A point between two calls has no part in the account of the sleepers. -/
theorem SemaPc.free_none {q : SemaPc} (h : q.free = true) : q.sleeping = 0 ∧ q.posting = 0 := by
  cases q with
  | elsewhere | acquired | signalled => exact ⟨rfl, rfl⟩
  | _ => cases h

theorem SemaPc.free_inHand {q : SemaPc} (h : q.free = true) : q.inHand = 0 := by
  cases q with
  | elsewhere | acquired | signalled => rfl
  | _ => cases h

theorem SemaPc.free_giving {q : SemaPc} (h : q.free = true) : q.giving = 0 := by
  cases q with
  | elsewhere | acquired | signalled => rfl
  | _ => cases h

/-- What an action is: a new beginning of one thread, or a step in the code. -/
theorem semaThreadStep_cases {s s' : SemaState T} {act : SemaAct T}
    (h : semaThreadStep s act = some s') :
    ∃ t, (∃ q, q.Begins ∧ (s.pc t).free = true ∧ s' = { s with pc := update s.pc t q })
      ∨ ∃ spurious σ' q', semaStep s.sema spurious (s.pc t) = some (σ', q')
        ∧ s' = ⟨σ', update s.pc t q'⟩ := by
  have hcall : ∀ t q, q.Begins → s.call t q = some s' →
      ∃ t, (∃ q, q.Begins ∧ (s.pc t).free = true ∧ s' = { s with pc := update s.pc t q })
        ∨ ∃ spurious σ' q', semaStep s.sema spurious (s.pc t) = some (σ', q')
          ∧ s' = ⟨σ', update s.pc t q'⟩ := by
    intro t q hq hs
    obtain ⟨hfree, rfl⟩ := SemaState.call_cases hs
    exact ⟨t, .inl ⟨q, hq, hfree, rfl⟩⟩
  cases act with
  | tryWaitMany t max => exact hcall t (.tryWaitMany max) ⟨rfl, rfl, rfl, trivial⟩ h
  | waitMany t max => exact hcall t (.waitMany max) ⟨rfl, rfl, rfl, trivial⟩ h
  | signal t count => exact hcall t (.signal count) ⟨rfl, rfl, rfl, trivial⟩ h
  | leave t => exact hcall t .elsewhere ⟨rfl, rfl, rfl, trivial⟩ h
  | go t spurious =>
      obtain ⟨⟨σ', q'⟩, hstep, rfl⟩ := Option.map_eq_some_iff.mp h
      exact ⟨t, .inr ⟨spurious, σ', q', hstep, rfl⟩⟩

variable [Fintype T]

/-- The permits that are free. -/
def SemaState.permits (s : SemaState T) : ℕ :=
  s.sema.mCount.toNat + s.sema.mSema + tally SemaPc.posting s.pc

/-- The store of permits that a semaphore stands for. -/
def SemaState.store (s : SemaState T) : Permits T where
  free := s.permits
  held t := (s.pc t).inHand

/-- Every sleeper is waited for by a token that is there or on its way, or by `m_count`. -/
structure SemaOk (σ : LightweightSemaphore) (pc : T → SemaPc) : Prop where
  holds : ∀ t, (pc t).Ok
  sleepers : tally SemaPc.sleeping pc = σ.mSema + tally SemaPc.posting pc + (-σ.mCount).toNat

section All

variable {σ σ' : LightweightSemaphore} {pc : T → SemaPc} {q q' : SemaPc} {t : T}

/-- A step in the code of the semaphore. -/
theorem SemaOk.effect (h : SemaOk σ pc) (heff : SemaEffect σ (pc t) σ' q') :
    SemaOk σ' (update pc t q') where
  holds u := by
    by_cases hu : u = t
    · rw [hu, Function.update_self]
      exact heff.ok
    · rw [Function.update_of_ne hu]
      exact h.holds u
  sleepers := by
    have hs := tally_update SemaPc.sleeping pc t q'
    have hp := tally_update SemaPc.posting pc t q'
    have hold := h.sleepers
    have hnew := heff.sleepers
    omega

/-- A step from one point outside the account of the sleepers to another. -/
theorem SemaOk.stay (h : SemaOk σ pc) (hq : (pc t).sleeping = 0 ∧ (pc t).posting = 0)
    (hs : q'.sleeping = 0) (hp : q'.posting = 0) (hok : q'.Ok) : SemaOk σ (update pc t q') where
  holds u := by
    by_cases hu : u = t
    · rw [hu, Function.update_self]
      exact hok
    · rw [Function.update_of_ne hu]
      exact h.holds u
  sleepers := by
    rw [tally_update_same _ _ _ (hs.trans hq.1.symm), tally_update_same _ _ _ (hp.trans hq.2.symm)]
    exact h.sleepers

end All

theorem lightweightSemaphore_keeps (initialCount : ℕ) :
    (lightweightSemaphore T initialCount).Keeps (fun _ _ => True) fun s => SemaOk s.sema s.pc where
  start s hs := by
    obtain rfl : s = ⟨⟨initialCount, 0⟩, fun _ => .elsewhere⟩ := hs
    refine ⟨fun _ => trivial, ?_⟩
    have hnone : tally SemaPc.sleeping (fun _ : T => SemaPc.elsewhere) = 0 :=
      (tally_eq_zero _ _).mpr fun _ => rfl
    have hpost : tally SemaPc.posting (fun _ : T => SemaPc.elsewhere) = 0 :=
      (tally_eq_zero _ _).mpr fun _ => rfl
    rw [hnone, hpost]
    show 0 = 0 + 0 + (-(initialCount : ℤ)).toNat
    omega
  step s act s' h _ hs := by
    obtain ⟨t, ⟨q, hq, hfree, rfl⟩ | ⟨spurious, σ', q', hstep, rfl⟩⟩ := semaThreadStep_cases hs
    · exact h.stay (SemaPc.free_none hfree) hq.sleeping hq.posting hq.ok
    · exact h.effect (semaStep_effect (h.holds t) hstep)

/-- A thread brings permits at `fetch_add`. -/
def SemaPc.putting : SemaPc → List (PermitAct T)
  | fetchAdd count => [.signal count]
  | _ => []

/-- It takes permits, if there are any to take. -/
def taking (t : T) (n : ℕ) : List (PermitAct T) := if n = 0 then [] else [.acquire t n]

/-- And returns with what it has taken. -/
def SemaPc.leaving (t : T) : SemaPc → List (PermitAct T)
  | acquired n => [.leave t n]
  | _ => []

/-- What the store sees of an action: the permits that are brought, those the thread takes, and
    those it returns with. -/
def SemaState.label (s : SemaState T) (act : SemaAct T) (s' : SemaState T) : List (PermitAct T) :=
  match act with
  | .go t _ =>
      (s.pc t).putting ++ (taking t ((s'.pc t).held - (s.pc t).held) ++ (s'.pc t).leaving t)
  | _ => []

section Label

variable {initialCount : ℕ} {q q' : SemaPc} {σ σ' : LightweightSemaphore} {t : T}

omit [Fintype T] in
theorem putting_run (q : SemaPc) (l : Permits T) :
    (permits initialCount).run l q.putting = some { l with free := l.free + q.giving } := by
  cases q <;> rfl

omit [Fintype T] in
theorem taking_run {n : ℕ} (l : Permits T) (t : T) (hle : n ≤ l.free) :
    (permits initialCount).run l (taking t n)
      = some ⟨l.free - n, update l.held t (l.held t + n)⟩ := by
  unfold taking
  split
  case isTrue hzero =>
    subst hzero
    rw [Nat.add_zero, Function.update_eq_self]
    rfl
  case isFalse =>
    show (permitStep l (.acquire t n)).bind _ = _
    rw [permitStep, if_pos hle]
    rfl

omit [Fintype T] in
theorem leaving_run (l : Permits T) (hheld : l.held t = q.held) :
    (permits initialCount).run l (q.leaving t)
      = some { l with held := update l.held t q.inHand } := by
  cases q with
  | acquired n =>
      have hheld : l.held t = n := hheld
      show (permitStep l (.leave t n)).bind _ = _
      rw [permitStep, if_pos hheld]
      rfl
  | _ =>
      have hsame : update l.held t (l.held t) = l.held := Function.update_eq_self ..
      rw [hheld] at hsame
      exact congrArg (fun held => some (⟨l.free, held⟩ : Permits T)) hsame.symm

omit [DecidableEq T] [Fintype T] in
/-- A thread that takes a step has not returned yet. -/
theorem semaStep_inHand {spurious : Bool} {r : LightweightSemaphore × SemaPc}
    (h : semaStep σ spurious q = some r) : q.inHand = q.held := by
  cases q with
  | acquired n => cases h
  | _ => rfl

omit [Fintype T] in
/-- **One step, as the store sees it.** -/
theorem semaEffect_run (heff : SemaEffect σ q σ' q') (l : Permits T) (hheld : l.held t = q.held)
    {free : ℕ} (hfree : free + σ.permits q = l.free + σ'.permits q') :
    (permits initialCount).run l (q.putting ++ (taking t (q'.held - q.held) ++ q'.leaving t))
      = some ⟨free, update l.held t q'.inHand⟩ := by
  have hgot : q.held ≤ q'.held
      ∧ σ'.permits q' + (q'.held - q.held) = σ.permits q + q.giving := by
    rcases heff.permits with ⟨n, hn, hgot, hgive, -⟩ | ⟨hmore, hgot, -⟩ <;> omega
  refine Machine.run_append (putting_run q l) ?_
  refine Machine.run_append (taking_run _ t (n := q'.held - q.held) ?_) ?_
  · show q'.held - q.held ≤ l.free + q.giving
    omega
  · have hsum : l.held t + (q'.held - q.held) = q'.held := by omega
    have hrest : l.free + q.giving - (q'.held - q.held) = free := by omega
    rw [leaving_run _ (by rw [hsum]; exact Function.update_self ..), hsum, hrest,
      Function.update_idem]

end Label

/-- **The semaphore implements a store of permits**: `fetch_add` brings the permits of a
    call of `signal`, a thread takes permits that are free, and its call returns with them. -/
theorem lightweight_refines (initialCount : ℕ) :
    (lightweightSemaphore T initialCount).RefinesBy (permits initialCount) (fun _ _ => True)
      SemaState.store SemaState.label where
  start s hs := by
    obtain rfl : s = ⟨⟨initialCount, 0⟩, fun _ => .elsewhere⟩ := hs
    have hpost : tally SemaPc.posting (fun _ : T => SemaPc.elsewhere) = 0 :=
      (tally_eq_zero _ _).mpr fun _ => rfl
    show (⟨_, _⟩ : Permits T) = ⟨_, _⟩
    congr 1
    show (initialCount : ℤ).toNat + 0 + tally SemaPc.posting (fun _ : T => SemaPc.elsewhere) = _
    rw [hpost]
    omega
  step s act s' hr _ hs := by
    have h := (lightweightSemaphore_keeps initialCount).reachable hr
    have hheld : ∀ t q, (fun u => (update s.pc t q u).inHand) = update s.store.held t q.inHand :=
      fun t q => Function.comp_update SemaPc.inHand s.pc t q
    have hcall : ∀ t q, q.posting = 0 → q.inHand = 0 → s.call t q = some s' →
        some s.store = some s'.store := by
      intro t q hpost hnone hs
      obtain ⟨hfree, rfl⟩ := SemaState.call_cases hs
      show some (⟨s.permits, s.store.held⟩ : Permits T)
        = some ⟨s.sema.mCount.toNat + s.sema.mSema + tally SemaPc.posting (update s.pc t q),
          fun u => (update s.pc t q u).inHand⟩
      have hsame : update s.store.held t q.inHand = s.store.held := by
        rw [hnone, ← SemaPc.free_inHand hfree]
        exact Function.update_eq_self t s.store.held
      rw [hheld t q, hsame,
        tally_update_same _ _ _ (hpost.trans (SemaPc.free_none hfree).2.symm)]
      rfl
    cases act with
    | tryWaitMany t max => exact hcall t _ rfl rfl hs
    | waitMany t max => exact hcall t _ rfl rfl hs
    | signal t count => exact hcall t _ rfl rfl hs
    | leave t => exact hcall t _ rfl rfl hs
    | go t spurious =>
        obtain ⟨⟨σ', q'⟩, hstep, rfl⟩ := Option.map_eq_some_iff.mp hs
        have hpost := tally_update SemaPc.posting s.pc t q'
        have heff := semaStep_effect (h.holds t) hstep
        have hnew : (⟨σ', update s.pc t q'⟩ : SemaState T).store
            = ⟨σ'.mCount.toNat + σ'.mSema + tally SemaPc.posting (update s.pc t q'),
              update s.store.held t q'.inHand⟩ := by
          rw [← hheld t q']
          rfl
        have hfree : s.store.free
            = s.sema.mCount.toNat + s.sema.mSema + tally SemaPc.posting s.pc := rfl
        show (permits initialCount).run s.store ((s.pc t).putting
          ++ (taking t ((update s.pc t q' t).held - (s.pc t).held)
            ++ (update s.pc t q' t).leaving t)) = _
        rw [hnew, Function.update_self]
        refine semaEffect_run heff s.store (semaStep_inHand hstep) ?_
        rw [hfree]
        unfold LightweightSemaphore.permits
        omega

/-! ## §5. Whole runs. -/

/-- What a run shows to the store. -/
def permitTrace (initialCount : ℕ) (s : SemaState T) (as : List (SemaAct T)) :
    List (PermitAct T) :=
  (lightweightSemaphore T initialCount).trace SemaState.label s as

/-- The permits that a call is to bring. -/
def SemaAct.count : SemaAct T → ℕ
  | signal _ count => count
  | _ => 0

/-- The permits that the calls of `signal` are to bring. -/
def signalCalls (as : List (SemaAct T)) : ℕ := (as.map SemaAct.count).sum

/-- A step at which a call that waits, or tries to, returns. -/
def waitReturning (_ : SemaState T) (act : SemaAct T) (s' : SemaState T) : List (T × ℕ) :=
  match act with
  | .go t _ =>
      match s'.pc t with
      | .acquired n => [(t, n)]
      | _ => []
  | _ => []

/-- The threads whose calls return in a run, with the permits they get. -/
def waitReturns (initialCount : ℕ) (s : SemaState T) (as : List (SemaAct T)) : List (T × ℕ) :=
  (lightweightSemaphore T initialCount).trace waitReturning s as

/-- What one step shows. -/
theorem label_shows {initialCount : ℕ} {s s' : SemaState T} {act : SemaAct T}
    (h : SemaOk s.sema s.pc) (hs : (lightweightSemaphore T initialCount).step s act = some s') :
    tally SemaPc.giving s.pc + act.count
        = signals (s.label act s') + tally SemaPc.giving s'.pc
      ∧ leaves (s.label act s') = waitReturning s act s' := by
  have hcall : ∀ t q, q.giving = act.count → s.call t q = some s' →
      tally SemaPc.giving s.pc + act.count = tally SemaPc.giving s'.pc := by
    intro t q hgive hs
    obtain ⟨hfree, rfl⟩ := SemaState.call_cases hs
    have hsum : tally SemaPc.giving (update s.pc t q) + (s.pc t).giving
        = tally SemaPc.giving s.pc + q.giving := tally_update SemaPc.giving s.pc t q
    have hzero : (s.pc t).giving = 0 := SemaPc.free_giving hfree
    show _ = tally SemaPc.giving (update s.pc t q)
    omega
  cases act with
  | tryWaitMany t max =>
      exact ⟨(hcall t _ rfl hs).trans (Nat.zero_add _).symm, rfl⟩
  | waitMany t max => exact ⟨(hcall t _ rfl hs).trans (Nat.zero_add _).symm, rfl⟩
  | signal t count => exact ⟨(hcall t _ rfl hs).trans (Nat.zero_add _).symm, rfl⟩
  | leave t => exact ⟨(hcall t _ rfl hs).trans (Nat.zero_add _).symm, rfl⟩
  | go t spurious =>
      obtain ⟨⟨σ', q'⟩, hstep, rfl⟩ := Option.map_eq_some_iff.mp hs
      have heff := semaStep_effect (h.holds t) hstep
      have hnone : q'.giving = 0 := by
        rcases heff.permits with ⟨n, -, -, -, hnone⟩ | ⟨-, -, hnone⟩ <;> exact hnone
      have hsum := tally_update SemaPc.giving s.pc t q'
      have hlabel : s.label (.go t spurious) ⟨σ', update s.pc t q'⟩
          = (s.pc t).putting ++ (taking t (q'.held - (s.pc t).held) ++ q'.leaving t) := by
        show (s.pc t).putting ++ (taking t ((update s.pc t q' t).held - (s.pc t).held)
          ++ (update s.pc t q' t).leaving t) = _
        rw [Function.update_self]
      have hput : signals ((s.pc t).putting : List (PermitAct T)) = (s.pc t).giving
          ∧ leaves ((s.pc t).putting : List (PermitAct T)) = [] := by
        cases s.pc t <;> exact ⟨rfl, rfl⟩
      have htake : ∀ n, signals (taking t n) = 0 ∧ leaves (taking t n) = [] := by
        intro n
        unfold taking
        split <;> exact ⟨rfl, rfl⟩
      have hleave : signals (q'.leaving t) = 0
          ∧ leaves (q'.leaving t) = waitReturning s (.go t spurious) ⟨σ', update s.pc t q'⟩ := by
        show _ ∧ _ = match update s.pc t q' t with
          | .acquired n => [(t, n)]
          | _ => []
        rw [Function.update_self]
        cases q' <;> exact ⟨rfl, rfl⟩
      show tally SemaPc.giving s.pc + 0 = signals (s.label (.go t spurious) ⟨σ', update s.pc t q'⟩)
          + tally SemaPc.giving (update s.pc t q')
        ∧ leaves (s.label (.go t spurious) ⟨σ', update s.pc t q'⟩) = _
      rw [hlabel, signals_append, signals_append, leaves_append, leaves_append, hput.1, hput.2,
        (htake _).1, (htake _).2, hleave.1, hleave.2]
      exact ⟨by omega, rfl⟩

/-- What a run shows. -/
theorem permitTrace_shows {initialCount : ℕ} {s t : SemaState T} {as : List (SemaAct T)}
    (hr : (lightweightSemaphore T initialCount).Reachable s)
    (hrun : (lightweightSemaphore T initialCount).run s as = some t) :
    tally SemaPc.giving s.pc + signalCalls as
        = signals (permitTrace initialCount s as) + tally SemaPc.giving t.pc
      ∧ leaves (permitTrace initialCount s as) = waitReturns initialCount s as := by
  induction as generalizing s with
  | nil =>
      obtain rfl : s = t := Option.some.inj hrun
      exact ⟨Nat.add_comm _ _, rfl⟩
  | cons act as ih =>
      obtain ⟨r, hstep, hrest⟩ := Machine.run_cons hrun
      obtain ⟨hone, hleave⟩ := label_shows ((lightweightSemaphore_keeps initialCount).reachable hr) hstep
      obtain ⟨hall, hleaves⟩ := ih (hr.step hstep) hrest
      have htrace : permitTrace initialCount s (act :: as)
          = s.label act r ++ permitTrace initialCount r as :=
        Machine.trace_cons SemaState.label hstep as
      have hreturns : waitReturns initialCount s (act :: as)
          = waitReturning s act r ++ waitReturns initialCount r as :=
        Machine.trace_cons waitReturning hstep as
      have hcalls : signalCalls (act :: as) = act.count + signalCalls as := List.sum_cons
      rw [htrace, hreturns, hcalls, signals_append, leaves_append, hleave, hleaves]
      exact ⟨by omega, rfl⟩

/-- What a run of the semaphore does with permits. -/
structure PermitsKept (initialCount : ℕ) (s t : SemaState T) (as : List (SemaAct T)) : Prop where
  /-- The permits that the run brings, hands out and returns with are those of the store. -/
  permits : (permits initialCount).run s.store (permitTrace initialCount s as) = some t.store
  /-- A call of `signal` has brought its permits, or is about to. -/
  brought : signalCalls as
    = signals (permitTrace initialCount s as) + tally SemaPc.giving t.pc
  /-- The calls that wait return with the permits that they have taken. -/
  returned : leaves (permitTrace initialCount s as) = waitReturns initialCount s as
  /-- No permit is handed out twice, and none is lost. -/
  balance : initialCount + signalCalls as
    = ((waitReturns initialCount s as).map Prod.snd).sum + tally SemaPc.inHand t.pc
      + tally SemaPc.giving t.pc + t.permits

/-- **Permits are conserved.**  The permits that were there at first, and those that the calls of
    `signal` bring, are those that calls have returned with, those that threads in a call
    have or are about to bring, and those that are still free. -/
theorem lightweight_conserve {initialCount : ℕ} {s t : SemaState T}
    (hs : (lightweightSemaphore T initialCount).init s) (as : List (SemaAct T))
    (hrun : (lightweightSemaphore T initialCount).run s as = some t) :
    PermitsKept initialCount s t as := by
  have hpermits : (permits initialCount).run s.store (permitTrace initialCount s as)
      = some t.store :=
    (lightweight_refines initialCount).run (.start hs) hrun (Machine.stepsMeet_true as s)
  obtain ⟨hbrought, hreturned⟩ := permitTrace_shows (.start hs) hrun
  have hstart : s.store = ⟨initialCount, fun _ => 0⟩ :=
    (lightweight_refines initialCount).start s hs
  have hgiving : tally SemaPc.giving s.pc = 0 := by
    obtain rfl : s = ⟨⟨initialCount, 0⟩, fun _ => .elsewhere⟩ := hs
    exact (tally_eq_zero _ _).mpr fun _ => rfl
  have hnone : tally id s.store.held = 0 := by
    rw [hstart]
    exact (tally_eq_zero _ _).mpr fun _ => rfl
  have hinitial : s.store.free = initialCount := by rw [hstart]
  have hfree := permits_conserve hpermits
  have hheld := held_conserve hpermits
  have hinHand : tally id t.store.held = tally SemaPc.inHand t.pc := rfl
  have hstore : t.store.free = t.permits := rfl
  rw [hreturned] at hheld
  exact ⟨hpermits, by omega, hreturned, by omega⟩

/-- Thread 0 brings two permits, and thread 1 takes two. -/
def twoPermitActs : List (SemaAct (Fin 2)) :=
  [.signal 0 2, .go 0 false, .tryWaitMany 1 2, .go 1 false, .go 1 false]

theorem lightweight_conserve_two :
    ∃ t, (lightweightSemaphore (Fin 2) 1).run ⟨⟨1, 0⟩, fun _ => .elsewhere⟩ twoPermitActs = some t
      ∧ PermitsKept 1 ⟨⟨1, 0⟩, fun _ => .elsewhere⟩ t twoPermitActs
      ∧ waitReturns 1 ⟨⟨1, 0⟩, fun _ => .elsewhere⟩ twoPermitActs = [(1, 2)] := by
  have hinit : (lightweightSemaphore (Fin 2) 1).init ⟨⟨1, 0⟩, fun _ => .elsewhere⟩ := rfl
  exact ⟨_, rfl, lightweight_conserve hinit twoPermitActs rfl, rfl⟩

/-- **No wake-up is lost.**  Every token of the kernel semaphore, and every post on its
    way, is for a thread that sleeps; if more threads sleep than that, then no other
    permit is free.  `m_count` does not go below minus the number of threads. -/
theorem lightweight_no_lost_wakeup {initialCount : ℕ} {s : SemaState T}
    (hr : (lightweightSemaphore T initialCount).Reachable s) :
    s.sema.mSema + tally SemaPc.posting s.pc ≤ tally SemaPc.sleeping s.pc
      ∧ (s.sema.mSema + tally SemaPc.posting s.pc < tally SemaPc.sleeping s.pc →
          s.permits = s.sema.mSema + tally SemaPc.posting s.pc)
      ∧ -(Fintype.card T : ℤ) ≤ s.sema.mCount := by
  have h := (lightweightSemaphore_keeps initialCount).reachable hr
  have hsleep := h.sleepers
  have hcard : tally SemaPc.sleeping s.pc ≤ Fintype.card T := by
    refine tally_le_card (fun q => ?_) s.pc
    cases q with
    | kernelWait => exact le_refl _
    | _ => exact Nat.zero_le _
  refine ⟨by omega, fun hlt => ?_, by omega⟩
  show s.sema.mCount.toNat + s.sema.mSema + tally SemaPc.posting s.pc = _
  omega

/-- Nobody has brought a permit when thread 0 wants one. -/
theorem lightweight_no_lost_wakeup_empty :
    ∃ s, (lightweightSemaphore (Fin 2) 0).Reachable s
      ∧ tally SemaPc.sleeping s.pc = 1 ∧ s.permits = 0 := by
  have hstart : (lightweightSemaphore (Fin 2) 0).Reachable
      ⟨⟨0, 0⟩, update (fun _ => .elsewhere) 0 .wait⟩ :=
    (Machine.Reachable.start (M := lightweightSemaphore (Fin 2) 0) rfl).step (a := .waitMany 0 1) rfl
  have hr := hstart.drive (semaAlone_run _ ((wait_alone ⟨0, 0⟩ Nat.one_pos).2 (by decide)))
  have hsleep : tally SemaPc.sleeping
      (update (fun _ : Fin 2 => SemaPc.elsewhere) 0 (.kernelWait 1)) = 1 := by decide
  exact ⟨_, hr, hsleep, (lightweight_no_lost_wakeup hr).2.1 (by decide)⟩

end HThread.RunQueue
