/-
  HThread.Rwlock — the read-write lock of hthread.cpp.

  The lock is a reader counter `r` and a writer pointer `w`.  A reader counts
  itself in and then looks at `w`; a writer claims `w` and then looks at `r`;
  either one backs out when it sees the other.  `unlock` tells the two kinds of
  hold apart by comparing `w` with the caller's own vthread pointer.

  The machine `rwlock me` has any number of callers; `me t` is the current-vthread
  pointer of caller `t` (null for a raw thread).  Every load, store, fetch-and-add
  and compare-and-swap is one step.

  Key lemmas:
    * `holding_of_zero` — a lock call that returns 0 has got the lock,
    * `holding_run`     — and has it until its unlock.
  Main result:
    * `rwlock_exclusion` — for callers with pairwise distinct non-null
      pointers: one writer at most, no reader beside it, and `r`, `w` account
      for exactly the holds and the probes in flight.
-/
import HThread.Interleave.Machine
import HThread.Interleave.Tally
import HThread.Semaphore

namespace HThread.Rwlock

open Interleave
open Function (update)

/-! ## §1. The code. -/

/-- Program points of `pthread_rwlock_tryrdlock` (hthread.cpp:134) and
    `pthread_rwlock_rdlock` (hthread.cpp:144). -/
inductive RdPc where
  /-- Lines 137/150: load `w`. -/
  | loadW
  /-- Line 150: `me->yield_myself()`. -/
  | yield
  /-- Lines 138/151: `__sync_fetch_and_add(&hrw->r, 1)`. -/
  | incR
  /-- Lines 139/152: `if (!hrw->w) return 0`. -/
  | checkW
  /-- Lines 140/154: `__sync_fetch_and_add(&hrw->r, -1)`. -/
  | undoR
  deriving DecidableEq, Repr

/-- Program points of `pthread_rwlock_trywrlock` (hthread.cpp:158) and
    `pthread_rwlock_wrlock` (hthread.cpp:169). -/
inductive WrPc where
  /-- Lines 163/175: load `r`. -/
  | loadR
  /-- Lines 163/175: load `w`. -/
  | loadW
  /-- Lines 163/175: `__sync_bool_compare_and_swap(&hrw->w, nullptr, me)`. -/
  | casW
  /-- Line 176: `me->yield_myself()`. -/
  | yield
  /-- Lines 164/177: `if (!hrw->r) return 0`. -/
  | checkR
  /-- Lines 165/179: `__sync_lock_release(&hrw->w)`. -/
  | releaseW
  deriving DecidableEq, Repr

/-- Program points of `pthread_rwlock_unlock` (hthread.cpp:183). -/
inductive UnPc where
  /-- Line 188: load `w` and compare it with `me`. -/
  | loadW
  /-- Line 189: `__sync_lock_release(&hrw->w)`. -/
  | releaseW
  /-- Line 191: `__sync_fetch_and_add(&hrw->r, -1)`. -/
  | decR
  deriving DecidableEq, Repr

/-- Where a caller is.  `blocking` tells `rdlock` from `tryrdlock` and `wrlock`
    from `trywrlock`; `crashed` is a call through the null vthread pointer. -/
inductive RwPc where
  | idle
  | rd (blocking : Bool) (p : RdPc)
  | wr (blocking : Bool) (p : WrPc)
  | unlock (p : UnPc)
  | crashed
  deriving DecidableEq, Repr

/-- The calls a program can make. -/
inductive RwCall where
  | tryrdlock | rdlock | trywrlock | wrlock | unlock
  deriving DecidableEq, Repr

/-- `hthread_rwlock_t` with the callers' program points.  `ret` is the value
    the caller's last call returned (`unlock` has no return statement).  History:
    `readHolds`, `writeHold` are what each caller has acquired and not yet given
    back, `before` what it held when its last call started. -/
structure RwState (T P : Type) where
  r : ℤ
  w : Option P
  pc : T → RwPc
  ret : T → Option ℤ
  readHolds : T → ℕ
  writeHold : T → Bool
  before : T → ℕ × Bool

variable {T P : Type} [DecidableEq T] [DecidableEq P]

namespace RwState

/-- Caller `t` moves to `p`. -/
def goto (s : RwState T P) (t : T) (p : RwPc) : RwState T P := { s with pc := update s.pc t p }

/-- The call of caller `t` returns. -/
def return_ (s : RwState T P) (t : T) (v : Option ℤ) : RwState T P :=
  { s with pc := update s.pc t .idle, ret := update s.ret t v }

/-- History: caller `t` now has one more read hold. -/
def gainRead (s : RwState T P) (t : T) : RwState T P :=
  { s with readHolds := update s.readHolds t (s.readHolds t + 1) }

/-- History: caller `t` now has the write hold. -/
def gainWrite (s : RwState T P) (t : T) : RwState T P :=
  { s with writeHold := update s.writeHold t true }

/-- History: caller `t` gives back its write hold if it has one, else one read hold. -/
def giveBack (s : RwState T P) (t : T) : RwState T P :=
  if s.writeHold t then { s with writeHold := update s.writeHold t false }
  else { s with readHolds := update s.readHolds t (s.readHolds t - 1) }

end RwState

/-- The common body of `tryrdlock` and `rdlock`: where `tryrdlock` returns
    `EBUSY`, `rdlock` yields (line 150) or starts over (line 154). -/
def rdAttempt (blocking : Bool) (me : T → Option P) (s : RwState T P) (t : T) :
    RdPc → RwState T P
  | .loadW =>
      if s.w.isSome then
        if blocking then s.goto t (.rd blocking .yield) else s.return_ t (some ebusy)
      else s.goto t (.rd blocking .incR)
  | .yield => if (me t).isSome then s.goto t (.rd blocking .loadW) else s.goto t .crashed
  | .incR => { s with r := s.r + 1 }.goto t (.rd blocking .checkW)
  | .checkW =>
      if s.w.isSome then s.goto t (.rd blocking .undoR)
      else (s.gainRead t).return_ t (some 0)
  | .undoR =>
      if blocking then { s with r := s.r - 1 }.goto t (.rd blocking .loadW)
      else { s with r := s.r - 1 }.return_ t (some ebusy)

/-- hthread.cpp:134. -/
def pthreadRwlockTryrdlock (me : T → Option P) := rdAttempt (P := P) false me

/-- hthread.cpp:144. -/
def pthreadRwlockRdlock (me : T → Option P) := rdAttempt (P := P) true me

/-- The common body of `trywrlock` and `wrlock`. -/
def wrAttempt (blocking : Bool) (me : T → Option P) (s : RwState T P) (t : T) :
    WrPc → RwState T P
  | .loadR => if s.r ≠ 0 then again s else s.goto t (.wr blocking .loadW)
  | .loadW => if s.w.isSome then again s else s.goto t (.wr blocking .casW)
  | .casW => if s.w = none then { s with w := me t }.goto t (.wr blocking .checkR) else again s
  | .yield => if (me t).isSome then s.goto t (.wr blocking .loadR) else s.goto t .crashed
  | .checkR =>
      if s.r = 0 then (s.gainWrite t).return_ t (some 0) else s.goto t (.wr blocking .releaseW)
  | .releaseW =>
      if blocking then { s with w := none }.goto t (.wr blocking .loadR)
      else { s with w := none }.return_ t (some ebusy)
where
  /-- The lock is taken: `trywrlock` gives up, `wrlock` yields and tries again. -/
  again (s : RwState T P) : RwState T P :=
    if blocking then s.goto t (.wr blocking .yield) else s.return_ t (some ebusy)

/-- hthread.cpp:158. -/
def pthreadRwlockTrywrlock (me : T → Option P) := wrAttempt (P := P) false me

/-- hthread.cpp:169. -/
def pthreadRwlockWrlock (me : T → Option P) := wrAttempt (P := P) true me

/-- hthread.cpp:183. -/
def pthreadRwlockUnlock (me : T → Option P) (s : RwState T P) (t : T) : UnPc → RwState T P
  | .loadW => if s.w = me t then s.goto t (.unlock .releaseW) else s.goto t (.unlock .decR)
  | .releaseW => ({ s with w := none }.giveBack t).return_ t none
  | .decR => ({ s with r := s.r - 1 }.giveBack t).return_ t none

/-- The entry point of a call. -/
def RwCall.entry : RwCall → RwPc
  | .tryrdlock => .rd false .loadW
  | .rdlock => .rd true .loadW
  | .trywrlock => .wr false .loadR
  | .wrlock => .wr true .loadR
  | .unlock => .unlock .loadW

/-- An action of caller `t`: start a call, or take the next step of the one it is in. -/
inductive RwAct (T : Type) where
  | call (t : T) (f : RwCall)
  | go (t : T)
  deriving DecidableEq, Repr

/-- Caller `t` holds the lock. -/
def Holding (s : RwState T P) (t : T) : Prop := s.writeHold t = true ∨ 0 < s.readHolds t

instance (s : RwState T P) (t : T) : Decidable (Holding s t) := inferInstanceAs (Decidable (_ ∨ _))

/-- One step of one caller; `unlock` is called only while holding. -/
def rwStep (me : T → Option P) (s : RwState T P) : RwAct T → Option (RwState T P)
  | .call t f =>
      if s.pc t = .idle ∧ (f = .unlock → Holding s t) then
        some ({ s with before := update s.before t (s.readHolds t, s.writeHold t) }.goto t f.entry)
      else none
  | .go t =>
      match s.pc t with
      | .idle | .crashed => none
      | .rd false p => some (pthreadRwlockTryrdlock me s t p)
      | .rd true p => some (pthreadRwlockRdlock me s t p)
      | .wr false p => some (pthreadRwlockTrywrlock me s t p)
      | .wr true p => some (pthreadRwlockWrlock me s t p)
      | .unlock p => some (pthreadRwlockUnlock me s t p)

/-- A lock after `pthread_rwlock_init` (hthread.cpp:194), nobody inside a call. -/
def pthreadRwlockInit : RwState T P where
  r := 0
  w := none
  pc _ := .idle
  ret _ := none
  readHolds _ := 0
  writeHold _ := false
  before _ := (0, false)

/-- The lock shared by callers whose current-vthread pointers are `me`. -/
def rwlock (me : T → Option P) : Machine (RwState T P) (RwAct T) where
  init s := s = pthreadRwlockInit
  step := rwStep me

/-! ## §2. What a caller contributes to the two words. -/

/-- A reader between its increment and its check or undo is counted in `r`. -/
def inProbe : RwPc → ℕ
  | .rd _ .checkW | .rd _ .undoR => 1
  | _ => 0

/-- A writer between its claim of `w` and its check or release. -/
def claiming : RwPc → Bool
  | .wr _ .checkR | .wr _ .releaseW => true
  | _ => false

/-- Caller `t` is the one `w` names: it holds the lock for writing or probes for it. -/
def Claims (s : RwState T P) (t : T) : Prop := s.writeHold t = true ∨ claiming (s.pc t) = true

/-- Since its call started, the holds of `t` have not changed. -/
def Unchanged (s : RwState T P) (t : T) : Prop := (s.readHolds t, s.writeHold t) = s.before t

/-- What the program point of `t` says about its own holds. -/
def LocalOk (s : RwState T P) (t : T) : Prop :=
  match s.pc t with
  | .idle => s.ret t = some ebusy → Unchanged s t
  | .rd _ _ => Unchanged s t
  | .wr _ p => Unchanged s t ∧ (p = .checkR ∨ p = .releaseW → s.writeHold t = false)
  | .unlock .loadW => Holding s t
  | .unlock .releaseW => s.writeHold t = true
  | .unlock .decR => s.writeHold t = false ∧ 0 < s.readHolds t
  | .crashed => True

/-! ## §3. The invariant, and what one step preserves. -/

variable [Fintype T]

/-- The invariant for callers whose vthread pointers are `e t`. -/
structure RwInv (e : T ↪ P) (s : RwState T P) : Prop where
  count : s.r = tally id s.readHolds + tally inProbe s.pc
  owner : ∀ t, s.w = some (e t) ↔ Claims s t
  named : ∀ p, s.w = some p → ∃ t, p = e t
  excl : ∀ t u, s.writeHold t = true → s.readHolds u = 0
  loc : ∀ t, LocalOk s t

/-- The current-vthread pointers of callers that are vthreads. -/
def vthreadOf (e : T ↪ P) : T → Option P := fun t => some (e t)

variable {e : T ↪ P} {s s' : RwState T P} {t : T}

omit [DecidableEq T] [DecidableEq P] in
/-- With nobody in `w`, nobody claims it. -/
theorem RwInv.no_claim (h : RwInv e s) (hw : s.w = none) (u : T) : ¬ Claims s u := by
  intro hu
  rw [(h.owner u).mpr hu] at hw
  cases hw

omit [DecidableEq T] [DecidableEq P] in
/-- What `w` names is unique. -/
theorem RwInv.claim_unique (h : RwInv e s) {u v : T} (hu : Claims s u) (hv : Claims s v) :
    u = v := by
  have hu' := (h.owner u).mpr hu
  rw [(h.owner v).mpr hv] at hu'
  exact (e.injective (Option.some.inj hu')).symm

omit [DecidableEq P] in
/-- **The step lemma.**  A step of `t` moves it to `p`, leaves it with `n` read
    holds and write hold `b`, and changes `r` and `w` by what `t` contributes. -/
theorem RwInv.move (h : RwInv e s) {p : RwPc} {n : ℕ} {b : Bool}
    (hpc : s'.pc = update s.pc t p) (hrd : s'.readHolds = update s.readHolds t n)
    (hwr : s'.writeHold = update s.writeHold t b)
    (hret : ∀ u, u ≠ t → s'.ret u = s.ret u) (hbef : ∀ u, u ≠ t → s'.before u = s.before u)
    (hr : s'.r + s.readHolds t + inProbe (s.pc t) = s.r + n + inProbe p)
    (hw : (s'.w = s.w ∧ (Claims s' t ↔ Claims s t))
      ∨ (s.w = none ∧ s'.w = some (e t) ∧ Claims s' t)
      ∨ (Claims s t ∧ s'.w = none ∧ ¬ Claims s' t))
    (hread : n ≤ s.readHolds t ∨ s.w = none)
    (hwrite : b = true → s.writeHold t = true ∨ (s.r = 0 ∧ n = 0))
    (hloc : LocalOk s' t) : RwInv e s' := by
  have hpcne : ∀ u, u ≠ t → s'.pc u = s.pc u := fun u hu => by rw [hpc, Function.update_of_ne hu]
  have hrdne : ∀ u, u ≠ t → s'.readHolds u = s.readHolds u := fun u hu => by
    rw [hrd, Function.update_of_ne hu]
  have hwrne : ∀ u, u ≠ t → s'.writeHold u = s.writeHold u := fun u hu => by
    rw [hwr, Function.update_of_ne hu]
  have hclne : ∀ u, u ≠ t → (Claims s' u ↔ Claims s u) := fun u hu => by
    unfold Claims
    rw [hpcne u hu, hwrne u hu]
  refine ⟨?_, ?_, ?_, ?_, ?_⟩
  · have h₁ := tally_update id s.readHolds t n
    have h₂ := tally_update inProbe s.pc t p
    have h₃ := h.count
    rw [hrd, hpc]
    simp only [id] at h₁
    omega
  · intro u
    by_cases hu : u = t
    · subst hu
      rcases hw with ⟨hw, hc⟩ | ⟨_, hw, hc⟩ | ⟨_, hw, hc⟩ <;> rw [hw]
      · rw [h.owner u, hc]
      · exact iff_of_true rfl hc
      · exact iff_of_false nofun hc
    · rw [hclne u hu]
      rcases hw with ⟨hw, _⟩ | ⟨h0, hw, _⟩ | ⟨hc, hw, _⟩ <;> rw [hw]
      · exact h.owner u
      · refine iff_of_false (fun he => hu ?_) (h.no_claim h0 u)
        exact (e.injective (Option.some.inj he)).symm
      · exact iff_of_false nofun fun hcu => hu (h.claim_unique hcu hc)
  · intro q hq
    rcases hw with ⟨hw, _⟩ | ⟨_, hw, _⟩ | ⟨_, hw, _⟩ <;> rw [hw] at hq
    · exact h.named q hq
    · exact ⟨t, (Option.some.inj hq).symm⟩
    · cases hq
  · -- a new write hold found `r = 0`; a new read hold found `w` null
    have hzero : s.r = 0 → ∀ u, s.readHolds u = 0 := fun h0 => by
      refine (tally_eq_zero id s.readHolds).mp ?_
      have := h.count
      omega
    intro v u hv
    have hvs : s.writeHold v = true ∨ (s.r = 0 ∧ v = t ∧ n = 0) := by
      by_cases hvt : v = t
      · subst hvt
        rw [hwr, Function.update_self] at hv
        rcases hwrite hv with h1 | h1
        · exact .inl h1
        · exact .inr ⟨h1.1, rfl, h1.2⟩
      · rw [hwrne v hvt] at hv
        exact .inl hv
    by_cases hut : u = t
    · subst hut
      rw [hrd, Function.update_self]
      rcases hvs with hvs | ⟨_, _, h0⟩
      · rcases hread with hle | hnone
        · have := h.excl v u hvs
          omega
        · exact absurd (Or.inl hvs) (h.no_claim hnone v)
      · exact h0
    · rw [hrdne u hut]
      rcases hvs with hvs | ⟨h0, _, _⟩
      · exact h.excl v u hvs
      · exact hzero h0 u
  · intro u
    by_cases hu : u = t
    · exact hu ▸ hloc
    · have := h.loc u
      unfold LocalOk Unchanged Holding at this ⊢
      rw [hpcne u hu, hrdne u hu, hwrne u hu, hret u hu, hbef u hu]
      exact this

omit [DecidableEq P] in
/-- A step of `t` that leaves `w` and its holds alone; `r` changes by what the
    program point of `t` contributes. -/
theorem RwInv.shift (h : RwInv e s) {p : RwPc} (hpc : s'.pc = update s.pc t p)
    (hrd : s'.readHolds = s.readHolds) (hwr : s'.writeHold = s.writeHold)
    (hret : ∀ u, u ≠ t → s'.ret u = s.ret u) (hbef : ∀ u, u ≠ t → s'.before u = s.before u)
    (hw : s'.w = s.w) (hr : s'.r + inProbe (s.pc t) = s.r + inProbe p)
    (hc : claiming p = claiming (s.pc t)) (hloc : LocalOk s' t) : RwInv e s' := by
  refine h.move hpc (by rw [hrd, Function.update_eq_self]) (by rw [hwr, Function.update_eq_self])
    hret hbef (by omega) (.inl ⟨hw, ?_⟩) (.inl (le_refl _)) .inl hloc
  unfold Claims
  rw [hwr, hpc, Function.update_self, hc]

omit [DecidableEq P] in
/-- A move of `t` inside its call, between points of the same kind. -/
theorem RwInv.goto (h : RwInv e s) {p : RwPc} (hp : inProbe p = inProbe (s.pc t))
    (hc : claiming p = claiming (s.pc t)) (hloc : LocalOk (s.goto t p) t) :
    RwInv e (s.goto t p) :=
  h.shift rfl rfl rfl (fun _ _ => rfl) (fun _ _ => rfl) rfl (by rw [hp]; rfl) hc hloc

omit [DecidableEq P] in
/-- A call of `t` that returns `v` from a point that contributes to neither word. -/
theorem RwInv.return_ (h : RwInv e s) {v : Option ℤ} (hp : inProbe (s.pc t) = 0)
    (hc : claiming (s.pc t) = false) (hun : v = some ebusy → Unchanged s t) :
    RwInv e (s.return_ t v) := by
  refine h.shift (p := .idle) rfl rfl rfl (fun u hu => Function.update_of_ne hu _ _)
    (fun _ _ => rfl) rfl (by rw [hp]; rfl) hc.symm ?_
  simpa [LocalOk, Unchanged, RwState.return_] using hun

/-! ## §4. The functions keep the invariant. -/

omit [DecidableEq P] in
theorem rdAttempt_keeps (h : RwInv e s) {b : Bool} {p : RdPc} (hp : s.pc t = .rd b p) :
    RwInv e (rdAttempt b (vthreadOf e) s t p) := by
  have hun : Unchanged s t := by
    have := h.loc t
    rwa [LocalOk, hp] at this
  have hrd : ∀ q, LocalOk (s.goto t (.rd b q)) t := fun q => by
    simpa [LocalOk, Unchanged, RwState.goto] using hun
  cases p with
  | loadW =>
      simp only [rdAttempt]
      split_ifs
      · exact h.goto (by rw [hp]; rfl) (by rw [hp]; rfl) (hrd _)
      · exact h.return_ (by rw [hp]; rfl) (by rw [hp]; rfl) fun _ => hun
      · exact h.goto (by rw [hp]; rfl) (by rw [hp]; rfl) (hrd _)
  | yield => exact h.goto (by rw [hp]; rfl) (by rw [hp]; rfl) (hrd _)
  | incR =>
      refine h.shift (p := .rd b .checkW) rfl rfl rfl (fun _ _ => rfl) (fun _ _ => rfl) rfl
        ?_ (by rw [hp]; rfl) ?_
      · simp [rdAttempt, RwState.goto, hp, inProbe]
      · simpa [LocalOk, Unchanged, RwState.goto, rdAttempt] using hun
  | checkW =>
      simp only [rdAttempt]
      split_ifs with hw
      · exact h.goto (by rw [hp]; rfl) (by rw [hp]; rfl) (hrd _)
      · -- `w` is null, so the transient increment becomes a read hold
        refine h.move (p := .idle) (n := s.readHolds t + 1) (b := s.writeHold t) rfl rfl
          (Function.update_eq_self _ _).symm (fun u hu => Function.update_of_ne hu _ _)
          (fun _ _ => rfl) ?_ (.inl ⟨rfl, ?_⟩) (.inr (by simpa using hw)) .inl ?_
        · simp only [RwState.return_, RwState.gainRead, hp, inProbe]
          omega
        · simp [Claims, RwState.return_, RwState.gainRead, hp, claiming]
        · simp [LocalOk, RwState.return_, ebusy]
  | undoR =>
      simp only [rdAttempt]
      split_ifs with hb
      · refine h.shift (p := .rd b .loadW) rfl rfl rfl (fun _ _ => rfl) (fun _ _ => rfl) rfl
          ?_ (by rw [hp]; rfl) ?_
        · simp [RwState.goto, hp, inProbe]
        · simpa [LocalOk, Unchanged, RwState.goto] using hun
      · refine h.shift (p := .idle) rfl rfl rfl (fun u hu => Function.update_of_ne hu _ _)
          (fun _ _ => rfl) rfl ?_ (by rw [hp]; rfl) ?_
        · simp [RwState.return_, hp, inProbe]
        · simpa [LocalOk, Unchanged, RwState.return_] using hun

omit [DecidableEq P] in
theorem again_keeps (h : RwInv e s) {b : Bool} {p : WrPc} (hp : s.pc t = .wr b p)
    (hc : claiming (s.pc t) = false) (hun : Unchanged s t) :
    RwInv e (wrAttempt.again b t s) := by
  unfold wrAttempt.again
  split_ifs
  · refine h.goto (by rw [hp]; rfl) hc.symm ?_
    simpa [LocalOk, Unchanged, RwState.goto] using hun
  · exact h.return_ (by rw [hp]; rfl) hc fun _ => hun

omit [DecidableEq P] in
theorem wrAttempt_keeps (h : RwInv e s) {b : Bool} {p : WrPc} (hp : s.pc t = .wr b p) :
    RwInv e (wrAttempt b (vthreadOf e) s t p) := by
  have hun : Unchanged s t ∧ (p = .checkR ∨ p = .releaseW → s.writeHold t = false) := by
    have := h.loc t
    rwa [LocalOk, hp] at this
  obtain ⟨hun, hno⟩ := hun
  cases p with
  | loadR =>
      simp only [wrAttempt]
      split_ifs
      · exact again_keeps h hp (by rw [hp]; rfl) hun
      · refine h.goto (by rw [hp]; rfl) (by rw [hp]; rfl) ?_
        simpa [LocalOk, Unchanged, RwState.goto] using hun
  | loadW =>
      simp only [wrAttempt]
      split_ifs
      · exact again_keeps h hp (by rw [hp]; rfl) hun
      · refine h.goto (by rw [hp]; rfl) (by rw [hp]; rfl) ?_
        simpa [LocalOk, Unchanged, RwState.goto] using hun
  | casW =>
      simp only [wrAttempt]
      split_ifs with hw
      · -- the claim: nobody held or probed, so `t` has no write hold of its own
        have hfree := h.no_claim hw t
        refine h.move (p := .wr b .checkR) (n := s.readHolds t) (b := s.writeHold t) rfl
          (Function.update_eq_self _ _).symm (Function.update_eq_self _ _).symm (fun _ _ => rfl)
          (fun _ _ => rfl) (by rw [hp]; rfl) (.inr (.inl ⟨hw, rfl, ?_⟩)) (.inl (le_refl _)) .inl ?_
        · simp [Claims, RwState.goto, claiming]
        · have hnw : s.writeHold t = false := by
            by_contra hcon
            exact hfree (.inl (by simpa using hcon))
          simpa [LocalOk, Unchanged, RwState.goto, hnw] using hun
      · exact again_keeps h hp (by rw [hp]; rfl) hun
  | yield =>
      refine h.goto (by rw [hp]; rfl) (by rw [hp]; rfl) ?_
      simpa [LocalOk, Unchanged, RwState.goto] using hun
  | checkR =>
      simp only [wrAttempt]
      split_ifs with hr
      · -- `r = 0`, so no read hold exists, and the claim becomes the write hold
        have hrd : s.readHolds t = 0 := by
          have h₁ := le_tally id s.readHolds t
          have h₂ := h.count
          simp only [id] at h₁
          omega
        refine h.move (p := .idle) (n := s.readHolds t) (b := true) rfl
          (Function.update_eq_self _ _).symm rfl (fun u hu => Function.update_of_ne hu _ _)
          (fun _ _ => rfl) (by rw [hp]; rfl) (.inl ⟨rfl, ?_⟩) (.inl (le_refl _))
          (fun _ => .inr ⟨hr, hrd⟩) ?_
        · simp [Claims, RwState.return_, RwState.gainWrite, hp, claiming]
        · simp [LocalOk, RwState.return_, ebusy]
      · refine h.goto (by rw [hp]; rfl) (by rw [hp]; rfl) ?_
        have hnw := hno (.inl rfl)
        simpa [LocalOk, Unchanged, RwState.goto, hnw] using hun
  | releaseW =>
      have hnw := hno (.inr rfl)
      have hcl : Claims s t := .inr (by rw [hp]; rfl)
      simp only [wrAttempt]
      split_ifs with hb
      · refine h.move (p := .wr b .loadR) (n := s.readHolds t) (b := s.writeHold t) rfl
          (Function.update_eq_self _ _).symm (Function.update_eq_self _ _).symm (fun _ _ => rfl)
          (fun _ _ => rfl) (by rw [hp]; rfl) (.inr (.inr ⟨hcl, rfl, ?_⟩)) (.inl (le_refl _)) .inl ?_
        · simp [Claims, RwState.goto, claiming, hnw]
        · simpa [LocalOk, Unchanged, RwState.goto] using hun
      · refine h.move (p := .idle) (n := s.readHolds t) (b := s.writeHold t) rfl
          (Function.update_eq_self _ _).symm (Function.update_eq_self _ _).symm
          (fun u hu => Function.update_of_ne hu _ _)
          (fun _ _ => rfl) (by rw [hp]; rfl) (.inr (.inr ⟨hcl, rfl, ?_⟩)) (.inl (le_refl _)) .inl ?_
        · simp [Claims, RwState.return_, claiming, hnw]
        · simpa [LocalOk, Unchanged, RwState.return_] using hun

/-- The branch `unlock` takes is the one for the caller's own hold. -/
theorem unlock_keeps (h : RwInv e s) {p : UnPc} (hp : s.pc t = .unlock p) :
    RwInv e (pthreadRwlockUnlock (vthreadOf e) s t p) := by
  have hloc := h.loc t
  rw [LocalOk, hp] at hloc
  have hcl : Claims s t ↔ s.writeHold t = true := by
    simp [Claims, hp, claiming]
  cases p with
  | loadW =>
      simp only [pthreadRwlockUnlock]
      split_ifs with hw
      · refine h.goto (by rw [hp]; rfl) (by rw [hp]; rfl) ?_
        simpa [LocalOk, RwState.goto] using hcl.mp ((h.owner t).mp hw)
      · -- `w` names somebody else, so what `t` holds is a read hold
        have hnw : s.writeHold t = false := by
          by_contra hcon
          exact hw ((h.owner t).mpr (hcl.mpr (by simpa using hcon)))
        refine h.goto (by rw [hp]; rfl) (by rw [hp]; rfl) ?_
        simpa [LocalOk, RwState.goto, Holding, hnw] using hloc
  | releaseW =>
      have hg : pthreadRwlockUnlock (vthreadOf e) s t .releaseW
          = { s with w := none, writeHold := update s.writeHold t false }.return_ t none :=
        congrArg (RwState.return_ · t none) (if_pos hloc)
      rw [hg]
      refine h.move (p := .idle) (n := s.readHolds t) (b := false) rfl
        (Function.update_eq_self _ _).symm rfl (fun u hu => Function.update_of_ne hu _ _)
        (fun _ _ => rfl) (by rw [hp]; rfl) (.inr (.inr ⟨hcl.mpr hloc, rfl, ?_⟩)) (.inl (le_refl _))
        nofun ?_
      · simp [Claims, RwState.return_, claiming]
      · simp [LocalOk, RwState.return_]
  | decR =>
      obtain ⟨hnw, hpos⟩ := hloc
      have hg : pthreadRwlockUnlock (vthreadOf e) s t .decR
          = { s with r := s.r - 1,
                     readHolds := update s.readHolds t (s.readHolds t - 1) }.return_ t none :=
        congrArg (RwState.return_ · t none) (if_neg (by rw [hnw]; decide))
      rw [hg]
      refine h.move (p := .idle) (n := s.readHolds t - 1) (b := s.writeHold t) rfl rfl
        (Function.update_eq_self _ _).symm (fun u hu => Function.update_of_ne hu _ _)
        (fun _ _ => rfl) ?_ (.inl ⟨rfl, ?_⟩) (.inl (Nat.sub_le _ _)) .inl ?_
      · simp only [RwState.return_, hp, inProbe]
        omega
      · simp [Claims, RwState.return_, claiming, hp]
      · simp [LocalOk, RwState.return_]

theorem rwStep_keeps {a : RwAct T} (h : RwInv e s) (hs : rwStep (vthreadOf e) s a = some s') :
    RwInv e s' := by
  rcases a with ⟨t, f⟩ | t
  · -- a call records what the caller holds and enters the function
    simp only [rwStep] at hs
    split_ifs at hs with hcall
    obtain ⟨hp, hhold⟩ := hcall
    cases hs
    refine h.shift (t := t) (p := f.entry) rfl rfl rfl (fun _ _ => rfl)
      (fun u hu => Function.update_of_ne hu _ _) rfl ?_ ?_ ?_
    · rw [hp]
      cases f <;> rfl
    · rw [hp]
      cases f <;> rfl
    · cases f <;> simp [LocalOk, RwState.goto, RwCall.entry, Unchanged]
      exact hhold rfl
  · simp only [rwStep] at hs
    split at hs
    · cases hs
    · cases hs
    · next hp => exact Option.some.inj hs ▸ rdAttempt_keeps h hp
    · next hp => exact Option.some.inj hs ▸ rdAttempt_keeps h hp
    · next hp => exact Option.some.inj hs ▸ wrAttempt_keeps h hp
    · next hp => exact Option.some.inj hs ▸ wrAttempt_keeps h hp
    · next hp => exact Option.some.inj hs ▸ unlock_keeps h hp

theorem rwlock_keeps (e : T ↪ P) :
    (rwlock (vthreadOf e)).Keeps (fun _ _ => True) (RwInv e) where
  start s hs := by
    obtain rfl : s = pthreadRwlockInit := hs
    refine ⟨?_, fun t => ?_, fun p hp => ?_, fun t u _ => rfl, fun t => ?_⟩
    · have h₁ : tally id (pthreadRwlockInit (T := T) (P := P)).readHolds = 0 :=
        (tally_eq_zero _ _).mpr fun _ => rfl
      have h₂ : tally inProbe (pthreadRwlockInit (T := T) (P := P)).pc = 0 :=
        (tally_eq_zero _ _).mpr fun _ => rfl
      rw [h₁, h₂]
      rfl
    · exact iff_of_false nofun (by simp [Claims, pthreadRwlockInit, claiming])
    · cases hp
    · simp [LocalOk, pthreadRwlockInit]
  step s a s' h _ hs := rwStep_keeps h hs

/-! ## §5. Exclusion. -/

/-- Read-write lock exclusion for callers with vthread pointers `e t`. -/
structure RwSafe (e : T ↪ P) (s : RwState T P) : Prop where
  /-- At most one caller holds the lock for writing. -/
  one_writer : ∀ t u, s.writeHold t = true → s.writeHold u = true → t = u
  /-- While one does, nobody holds it for reading. -/
  no_reader : ∀ t u, s.writeHold t = true → s.readHolds u = 0
  /-- `r` is the read holds plus the readers between increment and check or undo. -/
  count : s.r = tally id s.readHolds + tally inProbe s.pc
  /-- `w` is null or names the one caller that holds or probes for writing. -/
  owner : s.w = none ∨ ∃ t, s.w = some (e t) ∧ ∀ u, Claims s u ↔ u = t
  /-- A failed try call has left the caller's holds as they were, and `w` does
      not name it for that call. -/
  failed : ∀ t, s.pc t = .idle → s.ret t = some ebusy →
    (s.readHolds t, s.writeHold t) = s.before t ∧ (s.w = some (e t) → s.writeHold t = true)

omit [DecidableEq T] [DecidableEq P] in
theorem RwInv.safe (h : RwInv e s) : RwSafe e s where
  one_writer t u ht hu := h.claim_unique (.inl ht) (.inl hu)
  no_reader t u ht := h.excl t u ht
  count := h.count
  owner := by
    cases hw : s.w with
    | none => exact .inl rfl
    | some p =>
        obtain ⟨t, rfl⟩ := h.named p hw
        have ht := (h.owner t).mp hw
        exact .inr ⟨t, rfl, fun u => ⟨fun hu => h.claim_unique hu ht, fun hu => hu ▸ ht⟩⟩
  failed t hp hret := by
    have hloc := h.loc t
    rw [LocalOk, hp] at hloc
    refine ⟨hloc hret, fun hw => ?_⟩
    rcases (h.owner t).mp hw with hc | hc
    · exact hc
    · rw [hp] at hc
      cases hc

/-- **Read-write lock exclusion.**  For any number of vthreads and every
    interleaving of their loads, fetch-and-adds, compare-and-swaps and stores,
    every reachable state is safe. -/
theorem rwlock_exclusion (e : T ↪ P) (s : RwState T P)
    (hr : (rwlock (vthreadOf e)).Reachable s) : RwSafe e s :=
  ((rwlock_keeps e).reachable hr).safe

/-! ## §5. From a lock call that returns 0 to the unlock. -/

section Holds

variable {me : T → Option P} {s s' : RwState T P} {t u : T}

/-- From `s` to `s'`, a step of `t`, a hold of `u` stays, and a call that returns 0 has got the
    lock. -/
structure Gains (s s' : RwState T P) (t u : T) : Prop where
  stays : Holding s u → Holding s' u
  got : s'.pc t = .idle → s'.ret t = some 0 → Holding s' t

omit [DecidableEq P] [Fintype T] in
/-- The call goes on. -/
theorem gains_goto {p : RwPc} (hp : p ≠ .idle) (hr : s'.readHolds = s.readHolds)
    (hw : s'.writeHold = s.writeHold) : Gains s (s'.goto t p) t u where
  stays h := by
    show s'.writeHold u = true ∨ 0 < s'.readHolds u
    rw [hr, hw]
    exact h
  got hidle := by
    have hsame : (s'.goto t p).pc t = p := Function.update_self ..
    exact absurd (hsame.symm.trans hidle) hp

omit [DecidableEq P] [Fintype T] in
/-- The call fails. -/
theorem gains_busy (hr : s'.readHolds = s.readHolds) (hw : s'.writeHold = s.writeHold) :
    Gains s (s'.return_ t (some ebusy)) t u where
  stays h := by
    show s'.writeHold u = true ∨ 0 < s'.readHolds u
    rw [hr, hw]
    exact h
  got _ hret := by
    have hsame : (s'.return_ t (some ebusy)).ret t = some ebusy := Function.update_self ..
    rw [hsame] at hret
    exact absurd (Option.some.inj hret) (by decide)

omit [DecidableEq P] [Fintype T] in
theorem gains_read : Gains s ((s.gainRead t).return_ t (some 0)) t u where
  stays h := by
    refine h.imp id fun hpos => ?_
    show 0 < update s.readHolds t (s.readHolds t + 1) u
    by_cases hu : u = t
    · rw [hu, Function.update_self]
      exact Nat.succ_pos _
    · rwa [Function.update_of_ne hu]
  got _ _ := by
    refine .inr ?_
    show 0 < update s.readHolds t (s.readHolds t + 1) t
    rw [Function.update_self]
    exact Nat.succ_pos _

omit [DecidableEq P] [Fintype T] in
theorem gains_write : Gains s ((s.gainWrite t).return_ t (some 0)) t u where
  stays h := by
    refine h.imp (fun hw => ?_) id
    show update s.writeHold t true u = true
    by_cases hu : u = t
    · rw [hu, Function.update_self]
    · rwa [Function.update_of_ne hu]
  got _ _ := by
    refine .inl ?_
    show update s.writeHold t true t = true
    exact Function.update_self ..

omit [DecidableEq P] [Fintype T] in
theorem rdAttempt_gains (b : Bool) (p : RdPc) : Gains s (rdAttempt b me s t p) t u := by
  cases p with
  | loadW =>
      simp only [rdAttempt]
      split
      · cases b with
        | true => exact gains_goto (fun h => by cases h) rfl rfl
        | false => exact gains_busy rfl rfl
      · exact gains_goto (fun h => by cases h) rfl rfl
  | yield =>
      simp only [rdAttempt]
      split <;> exact gains_goto (fun h => by cases h) rfl rfl
  | incR => exact gains_goto (fun h => by cases h) rfl rfl
  | checkW =>
      simp only [rdAttempt]
      split
      · exact gains_goto (fun h => by cases h) rfl rfl
      · exact gains_read
  | undoR =>
      cases b with
      | true => exact gains_goto (fun h => by cases h) rfl rfl
      | false => exact gains_busy rfl rfl

omit [DecidableEq P] [Fintype T] in
theorem again_gains (b : Bool) : Gains s (wrAttempt.again b t s) t u := by
  cases b with
  | true => exact gains_goto (fun h => by cases h) rfl rfl
  | false => exact gains_busy rfl rfl

omit [DecidableEq P] [Fintype T] in
theorem wrAttempt_gains (b : Bool) (p : WrPc) : Gains s (wrAttempt b me s t p) t u := by
  cases p with
  | loadR =>
      simp only [wrAttempt]
      split
      · exact again_gains (P := P) b
      · exact gains_goto (fun h => by cases h) rfl rfl
  | loadW =>
      simp only [wrAttempt]
      split
      · exact again_gains (P := P) b
      · exact gains_goto (fun h => by cases h) rfl rfl
  | casW =>
      simp only [wrAttempt]
      split
      · exact gains_goto (fun h => by cases h) rfl rfl
      · exact again_gains (P := P) b
  | yield =>
      simp only [wrAttempt]
      split <;> exact gains_goto (fun h => by cases h) rfl rfl
  | checkR =>
      simp only [wrAttempt]
      split
      · exact gains_write
      · exact gains_goto (fun h => by cases h) rfl rfl
  | releaseW =>
      cases b with
      | true => exact gains_goto (fun h => by cases h) rfl rfl
      | false => exact gains_busy rfl rfl

omit [Fintype T] in
/-- An unlock takes from its own caller only, and returns no value. -/
theorem unlock_holds (p : UnPc) :
    (u ≠ t → Holding s u → Holding (pthreadRwlockUnlock me s t p) u)
      ∧ ((pthreadRwlockUnlock me s t p).pc t = .idle →
        (pthreadRwlockUnlock me s t p).ret t = none) := by
  have hgive : ∀ x : RwState T P, u ≠ t → Holding x u → Holding (x.giveBack t) u := by
    intro x hu h
    unfold RwState.giveBack
    split
    · refine h.imp (fun hw => ?_) id
      show update x.writeHold t false u = true
      rwa [Function.update_of_ne hu]
    · refine h.imp id fun hr => ?_
      show 0 < update x.readHolds t (x.readHolds t - 1) u
      rwa [Function.update_of_ne hu]
  cases p with
  | loadW =>
      simp only [pthreadRwlockUnlock]
      split <;> exact ⟨fun _ h => h, by simp [RwState.goto]⟩
  | releaseW => exact ⟨hgive { s with w := none }, fun _ => Function.update_self ..⟩
  | decR => exact ⟨hgive { s with r := s.r - 1 }, fun _ => Function.update_self ..⟩

omit [Fintype T] in
/-- **A lock call that returns 0 has got the lock.** -/
theorem holding_of_zero (hs : rwStep me s (.go t) = some s') (hidle : s'.pc t = .idle)
    (hret : s'.ret t = some 0) : Holding s' t := by
  simp only [rwStep] at hs
  split at hs
  case h_1 => cases hs
  case h_2 => cases hs
  case h_3 | h_4 =>
    obtain rfl := Option.some.inj hs
    exact (rdAttempt_gains (u := t) _ _).got hidle hret
  case h_5 | h_6 =>
    obtain rfl := Option.some.inj hs
    exact (wrAttempt_gains (u := t) _ _).got hidle hret
  case h_7 =>
    obtain rfl := Option.some.inj hs
    rw [(unlock_holds (u := t) _).2 hidle] at hret
    cases hret

/-- The step is not one of caller `u` in `unlock`. -/
def NotUnlocking (u : T) (s : RwState T P) (act : RwAct T) : Prop :=
  act = .go u → ∀ p, s.pc u ≠ .unlock p

omit [Fintype T] in
theorem holding_step {act : RwAct T} (hs : rwStep me s act = some s')
    (hno : NotUnlocking u s act) (h : Holding s u) : Holding s' u := by
  cases act with
  | call t f =>
      simp only [rwStep, Option.ite_none_right_eq_some] at hs
      obtain rfl := Option.some.inj hs.2
      exact h
  | go t =>
      simp only [rwStep] at hs
      split at hs
      case h_1 => cases hs
      case h_2 => cases hs
      case h_3 | h_4 =>
        obtain rfl := Option.some.inj hs
        exact (rdAttempt_gains (t := t) _ _).stays h
      case h_5 | h_6 =>
        obtain rfl := Option.some.inj hs
        exact (wrAttempt_gains (t := t) _ _).stays h
      case h_7 p hp =>
        obtain rfl := Option.some.inj hs
        refine (unlock_holds (t := t) _).1 ?_ h
        rintro rfl
        exact hno rfl p hp

omit [Fintype T] in
/-- **And has it until its unlock.** -/
theorem holding_run {t : RwState T P} {as : List (RwAct T)} (h : Holding s u)
    (hrun : (rwlock me).run s as = some t) (hno : (rwlock me).StepsMeet (NotUnlocking u) s as) :
    Holding t u := by
  induction as generalizing s with
  | nil =>
      obtain rfl : s = t := Option.some.inj hrun
      exact h
  | cons act as ih =>
      obtain ⟨r, hstep, hrest⟩ := Machine.run_cons hrun
      exact ih (holding_step hstep hno.1 h) hrest (hno.2 r hstep)

end Holds

/-- Vthread 1 claims `w` after vthread 0 has looked at it, and backs out again. -/
def contendedActs : List (RwAct (Fin 2)) :=
  [.call 0 .tryrdlock, .go 0, .call 1 .trywrlock, .go 1, .go 1, .go 1, .go 0, .go 1, .go 0, .go 1,
    .go 0]

/-- Vthread 0 reads and vthread 1 is refused; after the unlock vthread 1 writes. -/
def readThenWriteActs : List (RwAct (Fin 2)) :=
  [.call 0 .rdlock, .go 0, .go 0, .go 0, .call 1 .trywrlock, .go 1, .call 0 .unlock, .go 0, .go 0,
    .call 1 .wrlock, .go 1, .go 1, .go 1, .go 1]

/-- Both back out of the collision, and the lock is free again; then it is held. -/
theorem rwlock_exclusion_contended :
    ∃ s, (rwlock (vthreadOf (.refl (Fin 2)))).run pthreadRwlockInit contendedActs = some s
      ∧ s.r = 0 ∧ s.w = none ∧ s.ret 0 = some ebusy ∧ s.ret 1 = some ebusy
      ∧ RwSafe (.refl (Fin 2)) s
      ∧ ∃ u v, (rwlock (vthreadOf (.refl (Fin 2)))).run s (readThenWriteActs.take 6) = some u
        ∧ u.readHolds 0 = 1 ∧ u.ret 1 = some ebusy ∧ RwSafe (.refl (Fin 2)) u
        ∧ (rwlock (vthreadOf (.refl (Fin 2)))).run s readThenWriteActs = some v
        ∧ v.writeHold 1 = true ∧ v.w = some 1 ∧ v.r = 0 ∧ RwSafe (.refl (Fin 2)) v := by
  have hr : (rwlock (vthreadOf (.refl (Fin 2)))).Reachable _ := .after rfl contendedActs rfl
  exact ⟨_, rfl, rfl, rfl, rfl, rfl, rwlock_exclusion _ _ hr, _, _, rfl, rfl, rfl,
    rwlock_exclusion _ _ (hr.run (show (rwlock _).run _ (readThenWriteActs.take 6) = _ from rfl)),
    rfl, rfl, rfl, rfl,
    rwlock_exclusion _ _ (hr.run (show (rwlock _).run _ readThenWriteActs = _ from rfl))⟩

end HThread.Rwlock
