/-
  HThread.SpinLock — `hspin_lock`, `hspin_trylock` and `hspin_unlock` of htypes.hpp.

  The lock is one word.  `hspin_lock` exchanges it with 1 until the old value
  was 0, `hspin_unlock` stores 0.  `hspin_trylock` clears the register before
  its only exchange, so it stores 0 as well, and returns the old value: true
  exactly when somebody has the lock, which is free afterwards.

  Every exchange and store is one step of the machine `spinning`.

  Key lemmas:
    * `exclusive_step`   — a step keeps the lock exclusive, unless a
      `hspin_trylock` finds it taken.
    * `not_spinOk_of_taken` — that step is wrong at once.
  Main result:
    * `exclusive_iff` — the exact condition on a run.
-/
import HThread.Interleave.Machine
import HThread.Interleave.SpinLock

namespace HThread.Spin

open Interleave
open Function (update)

/-! ## §1. The code. -/

/-- Program points of the three functions. -/
inductive SpinPc where
  /-- Not inside any call. -/
  | idle
  /-- htypes.hpp:35, 294, `lock; xchg %r8d, %0` and the test of `%r8d`. -/
  | lockXchg (r8d : BitVec 32)
  /-- htypes.hpp:316, `lock; xchgl %eax, (%1)`. -/
  | tryXchg (eax : BitVec 32)
  /-- htypes.hpp:331, `(*lock) = 0`. -/
  | unlockStore
  deriving DecidableEq, Repr

/-- The calls a program can make. -/
inductive SpinCall where
  | hspinLock | hspinTrylock | hspinUnlock
  deriving DecidableEq, Repr

/-- The registers with which a call starts: `hspin_lock` clears and increments
    `%r8d`, `hspin_trylock` clears `%eax`. -/
def SpinCall.entry : SpinCall → SpinPc
  | .hspinLock => .lockXchg (0#32 + 1)
  | .hspinTrylock => .tryXchg 0#32
  | .hspinUnlock => .unlockStore

/-- One thread: where it is, and whether it has the lock as far as it was told. -/
structure Thread where
  pc : SpinPc
  holds : Bool
  deriving DecidableEq, Repr

/-- A completed call of `hspin_trylock`: the word before and after its exchange, and
    what it returned. -/
structure Try where
  before : BitVec 32
  after : BitVec 32
  ret : Bool
  deriving DecidableEq, Repr

/-- The lock word and the threads.  History: the calls of `hspin_trylock`. -/
structure SpinState (T : Type) where
  lock : BitVec 32
  threads : T → Thread
  tries : List Try

variable {T : Type} [DecidableEq T]

/-- Thread `t` becomes `th`. -/
def SpinState.set (s : SpinState T) (t : T) (th : Thread) : SpinState T :=
  { s with threads := update s.threads t th }

/-- htypes.hpp:28, `hspin_lock` at an exchange: with the lock if the old value was 0,
    else round the loop with the old value in `%r8d`. -/
def hspinLock (s : SpinState T) (t : T) (r8d : BitVec 32) : SpinState T :=
  { s with lock := r8d }.set t (if s.lock = 0#32 then { pc := .idle, holds := true }
    else { (s.threads t) with pc := .lockXchg s.lock })

/-- htypes.hpp:306, `hspin_trylock`: the old value is returned as a `bool`. -/
def hspinTrylock (s : SpinState T) (t : T) (eax : BitVec 32) : SpinState T :=
  let oldVal := s.lock
  { s with
    lock := eax
    tries := { before := oldVal, after := eax, ret := oldVal != 0#32 } :: s.tries }.set t
      { pc := .idle, holds := (s.threads t).holds || oldVal != 0#32 }

/-- htypes.hpp:325, `hspin_unlock`. -/
def hspinUnlock (s : SpinState T) (t : T) : SpinState T :=
  { s with lock := 0#32 }.set t { pc := .idle, holds := false }

/-- An action of thread `t`: start a call, or take the next step of the one it is in. -/
inductive SpinAct (T : Type) where
  | call (t : T) (f : SpinCall)
  | go (t : T)
  deriving DecidableEq, Repr

/-- Only a thread that has the lock calls `hspin_unlock`. -/
def mayCall (th : Thread) : SpinCall → Bool
  | .hspinUnlock => th.holds
  | _ => true

/-- One step of one thread. -/
def spinStep (s : SpinState T) : SpinAct T → Option (SpinState T)
  | .call t f =>
      if (s.threads t).pc = .idle ∧ mayCall (s.threads t) f = true then
        some (s.set t { (s.threads t) with pc := f.entry })
      else none
  | .go t =>
      match (s.threads t).pc with
      | .idle => none
      | .lockXchg r8d => some (hspinLock s t r8d)
      | .tryXchg eax => some (hspinTrylock s t eax)
      | .unlockStore => some (hspinUnlock s t)

/-- The lock is free and nobody inside a call. -/
def spinInit : SpinState T where
  lock := 0#32
  threads _ := { pc := .idle, holds := false }
  tries := []

/-- One lock and its users. -/
def spinning : Machine (SpinState T) (SpinAct T) where
  init s := s = spinInit
  step := spinStep

/-! ## §2. What a spin lock is. -/

/-- The call took the lock: it found it free and left it taken. -/
def Try.took (e : Try) : Bool := e.before = 0#32 ∧ e.after ≠ 0#32

/-- It returned whether it took the lock, and left the word alone if it did not. -/
structure Try.Ok (e : Try) : Prop where
  ret : e.ret = e.took
  quiet : e.took = false → e.after = e.before

/-- At most one thread has the lock, and every `hspin_trylock` was right. -/
structure SpinOk (s : SpinState T) : Prop where
  exclusive : ∀ t u, (s.threads t).holds = true → (s.threads u).holds = true → t = u
  tries : ∀ e ∈ s.tries, e.Ok

/-- An `hspin_trylock` comes to its exchange while the lock is free. -/
def TryFindsFree (s : SpinState T) : SpinAct T → Prop
  | .go t => ∀ eax, (s.threads t).pc = .tryXchg eax → s.lock = 0#32
  | .call _ _ => True

/-! ## §3. The invariant. -/

/-- The registers of a call: never 0 in `hspin_lock`, always 0 in `hspin_trylock`. -/
def Registers : SpinPc → Prop
  | .lockXchg r8d => r8d ≠ 0#32
  | .tryXchg eax => eax = 0#32
  | _ => True

/-- The word is set while a thread has the lock; only that thread gives it back. -/
structure Exclusive (s : SpinState T) : Prop where
  guarded : Guarded (fun th _ => th.holds = true) (fun _ : Unit => True) (fun _ _ => True)
    s.threads fun _ => s.lock != 0#32
  registers : ∀ t, Registers (s.threads t).pc
  unlocks : ∀ t, (s.threads t).pc = .unlockStore → (s.threads t).holds = true
  tries : ∀ e ∈ s.tries, e.Ok

variable {s s' : SpinState T} {t : T}

omit [DecidableEq T] in
theorem Exclusive.spinOk (h : Exclusive s) : SpinOk s where
  exclusive t u ht hu := h.guarded.unique () t u ht hu
  tries := h.tries

/-- A thread goes on to a point with the registers it needs there. -/
theorem registers_set (h : Exclusive s) {th : Thread} (hth : Registers th.pc) (u : T) :
    Registers (update s.threads t th u).pc := by
  by_cases hu : u = t
  · rw [hu, Function.update_self]
    exact hth
  · rw [Function.update_of_ne hu]
    exact h.registers u

/-- It is at the store of `hspin_unlock` only if it has the lock. -/
theorem unlocks_set (h : Exclusive s) {th : Thread} (hth : th.pc = .unlockStore → th.holds = true)
    (u : T) (hu : (update s.threads t th u).pc = .unlockStore) :
    (update s.threads t th u).holds = true := by
  by_cases hut : u = t
  · rw [hut, Function.update_self] at hu ⊢
    exact hth hu
  · rw [Function.update_of_ne hut] at hu ⊢
    exact h.unlocks u hu

theorem hspinLock_exclusive (h : Exclusive s) {r8d : BitVec 32}
    (hpc : (s.threads t).pc = .lockXchg r8d) : Exclusive (hspinLock s t r8d) := by
  have hr : r8d ≠ 0#32 := by
    have hreg := h.registers t
    rw [hpc] at hreg
    exact hreg
  by_cases hfree : s.lock = 0#32
  · have hs : hspinLock s t r8d = { s with lock := r8d }.set t { pc := .idle, holds := true } := by
      simp [hspinLock, hfree]
    have hc : (fun _ : Unit => r8d != 0#32) = update (fun _ => s.lock != 0#32) () true := by
      funext x
      rw [Function.update_self]
      simpa using hr
    rw [hs]
    refine ⟨?_, registers_set h trivial, unlocks_set h (by simp), h.tries⟩
    show Guarded _ _ _ (update s.threads t { pc := .idle, holds := true }) fun _ => r8d != 0#32
    rw [hc]
    refine h.guarded.acquire (by simpa using hfree) (fun x hx => ?_) (fun _ _ => rfl) id
    -- nobody has a lock whose word is 0
    have htaken := h.guarded.taken x t hx
    simp [hfree] at htaken
  · have hs : hspinLock s t r8d
        = { s with lock := r8d }.set t { (s.threads t) with pc := .lockXchg s.lock } := by
      simp [hspinLock, hfree]
    have hc : (fun _ : Unit => r8d != 0#32) = fun _ => s.lock != 0#32 := by
      funext x
      rw [bne_iff_ne.mpr hr, bne_iff_ne.mpr hfree]
    rw [hs]
    refine ⟨?_, registers_set h hfree, unlocks_set h (by simp), h.tries⟩
    show Guarded _ _ _ (update s.threads t _) fun _ => r8d != 0#32
    rw [hc]
    exact h.guarded.move (fun _ => Iff.rfl) (fun _ _ => id) (fun _ _ _ => id) fun _ _ => id

/-- A free lock stays free. -/
theorem hspinTrylock_exclusive (h : Exclusive s) {eax : BitVec 32}
    (hpc : (s.threads t).pc = .tryXchg eax) (hfree : s.lock = 0#32) :
    Exclusive (hspinTrylock s t eax) := by
  obtain rfl : eax = 0#32 := by
    have hreg := h.registers t
    rw [hpc] at hreg
    exact hreg
  refine ⟨?_, registers_set h trivial, unlocks_set h (by simp), ?_⟩
  · show Guarded _ _ _ (update s.threads t { pc := .idle, holds := (s.threads t).holds || s.lock != 0#32 })
      fun _ => 0#32 != 0#32
    have hc : (fun _ : Unit => 0#32 != 0#32) = fun _ => s.lock != 0#32 := by rw [hfree]
    rw [hc]
    refine h.guarded.move (fun _ => ?_) (fun _ _ => id) (fun _ _ _ => id) fun _ _ => id
    simp [hfree]
  · intro e he
    rcases List.mem_cons.mp he with rfl | he
    · constructor <;> simp [Try.took, hfree]
    · exact h.tries e he

theorem hspinUnlock_exclusive (h : Exclusive s) (hpc : (s.threads t).pc = .unlockStore) :
    Exclusive (hspinUnlock s t) := by
  refine ⟨?_, registers_set h trivial, unlocks_set h (by simp), h.tries⟩
  have hc : (fun _ : Unit => 0#32 != 0#32) = update (fun _ => s.lock != 0#32) () false := by
    funext x
    rw [Function.update_self]
    rfl
  show Guarded _ _ _ (update s.threads t { pc := .idle, holds := false }) fun _ => 0#32 != 0#32
  rw [hc]
  exact h.guarded.release (l := ()) (h.unlocks t hpc) (fun _ _ => rfl) (fun _ hx => by cases hx) id

/-- **One step**, unless it is an `hspin_trylock` of a lock that is taken. -/
theorem exclusive_step {act : SpinAct T} (h : Exclusive s) (hok : TryFindsFree s act)
    (hs : spinStep s act = some s') : Exclusive s' := by
  cases act with
  | call t f =>
      simp only [spinStep, Option.ite_none_right_eq_some] at hs
      obtain ⟨⟨-, hmay⟩, hs⟩ := hs
      obtain rfl := Option.some.inj hs
      refine ⟨?_, registers_set h ?_, unlocks_set h ?_, h.tries⟩
      · exact h.guarded.move (fun _ => Iff.rfl) (fun _ _ => id) (fun _ _ _ => id) fun _ _ => id
      · cases f with
        | hspinLock => exact show 0#32 + 1 ≠ 0#32 by decide
        | hspinTrylock => rfl
        | hspinUnlock => trivial
      · cases f with
        | hspinUnlock => exact fun _ => hmay
        | hspinLock | hspinTrylock => simp [SpinCall.entry]
  | go t =>
      cases hpc : (s.threads t).pc with
      | idle => simp [spinStep, hpc] at hs
      | lockXchg r8d =>
          simp only [spinStep, hpc, Option.some.injEq] at hs
          exact hs ▸ hspinLock_exclusive h hpc
      | tryXchg eax =>
          simp only [spinStep, hpc, Option.some.injEq] at hs
          exact hs ▸ hspinTrylock_exclusive h hpc (hok eax hpc)
      | unlockStore =>
          simp only [spinStep, hpc, Option.some.injEq] at hs
          exact hs ▸ hspinUnlock_exclusive h hpc

theorem spinning_keeps : (spinning (T := T)).Keeps TryFindsFree Exclusive where
  start s hs := by
    obtain rfl : s = spinInit := hs
    refine ⟨⟨?_, ?_, fun _ _ _ => trivial, fun _ _ => trivial⟩, fun _ => trivial, ?_, ?_⟩
    · exact fun _ _ _ ht => by cases ht
    · exact fun _ _ ht => by cases ht
    · exact fun _ ht => by cases ht
    · exact fun _ he => by cases he
  step _ _ _ h hok hs := exclusive_step h hok hs

/-! ## §4. The exact condition. -/

/-- An `hspin_trylock` of a lock that is taken returns true without having taken it. -/
theorem not_spinOk_of_taken {act : SpinAct T} (hno : ¬TryFindsFree s act)
    (hs : spinStep s act = some s') : ¬SpinOk s' := by
  cases act with
  | call t f => exact absurd trivial hno
  | go t =>
      simp only [TryFindsFree, not_forall] at hno
      obtain ⟨eax, hpc, htaken⟩ := hno
      simp only [spinStep, hpc, Option.some.injEq] at hs
      subst hs
      intro hok
      have hret := (hok.tries _ (List.mem_cons_self ..)).ret
      simp [Try.took, htaken] at hret

/-- **Spin lock exclusion.**  Throughout a run at most one thread has the lock and
    every `hspin_trylock` is right, iff each `hspin_trylock` of the run finds the
    lock free. -/
theorem exclusive_iff {s t : SpinState T} {acts : List (SpinAct T)} (hs : spinning.init s)
    (hrun : spinning.run s acts = some t) :
    spinning.Always SpinOk s acts ↔ spinning.StepsMeet TryFindsFree s acts :=
  Machine.always_iff_stepsMeet spinning_keeps (fun _ => Exclusive.spinOk)
    (fun _ _ _ _ => not_spinOk_of_taken) hs hrun

/-- Thread 0 locks and unlocks, thread 1 waits for the lock, and tries it when it is free. -/
def calmActs : List (SpinAct (Fin 2)) :=
  [.call 0 .hspinLock, .go 0, .call 1 .hspinLock, .go 1, .call 0 .hspinUnlock, .go 0, .go 1,
    .call 1 .hspinUnlock, .go 1, .call 1 .hspinTrylock, .go 1]

/-- The condition, executable. -/
def tryFindsFree (s : SpinState T) : SpinAct T → Bool
  | .go t =>
      match (s.threads t).pc with
      | .tryXchg _ => s.lock == 0#32
      | _ => true
  | .call _ _ => true

omit [DecidableEq T] in
theorem tryFindsFree_sound {s : SpinState T} {act : SpinAct T} (h : tryFindsFree s act = true) :
    TryFindsFree s act := by
  cases act with
  | call t f => trivial
  | go t =>
      intro eax hpc
      simpa [tryFindsFree, hpc] using h

theorem exclusive_iff_calm :
    ∃ t, spinning.run spinInit calmActs = some t ∧ t.tries = [⟨0, 0, false⟩]
      ∧ (spinning.Always SpinOk spinInit calmActs ↔
          spinning.StepsMeet TryFindsFree spinInit calmActs)
      ∧ spinning.Always SpinOk spinInit calmActs := by
  have hfree : spinning.StepsMeet TryFindsFree spinInit calmActs :=
    Machine.stepsMeet_of_check (fun _ _ => tryFindsFree_sound) calmActs _ rfl
  exact ⟨_, rfl, rfl, exclusive_iff rfl (t := _) rfl, (exclusive_iff rfl (t := _) rfl).mpr hfree⟩

/-- Thread 0 has the lock; thread 1 tries it, is told that it has it, and thread 2
    finds it free. -/
def brokenActs : List (SpinAct (Fin 3)) :=
  [.call 0 .hspinLock, .go 0, .call 1 .hspinTrylock, .go 1, .call 2 .hspinLock, .go 2]

theorem trylock_breaks :
    ∃ t, spinning.run spinInit brokenActs = some t ∧ t.tries = [⟨1, 0, true⟩]
      ∧ (t.threads 0).holds = true ∧ (t.threads 1).holds = true ∧ (t.threads 2).holds = true
      ∧ ¬SpinOk t := by
  refine ⟨_, rfl, rfl, rfl, rfl, rfl, fun hok => ?_⟩
  exact absurd (hok.exclusive 0 1 rfl rfl) (by decide)

end HThread.Spin
