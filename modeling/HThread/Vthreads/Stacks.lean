/-
  HThread.Vthreads.Stacks — which block a vthread's context lies in.

  `vthread::init` builds the context from `sp` and only afterwards assigns
  `sp = new char[STACK_SIZE]`; `wake_up_joined` begins with `delete[] sp`.  A
  block is a number that is used once, live from `new` to `delete[]`.  The
  events are the static construction of a slot, a `pthread_create` on it and
  the end of the vthread it holds, in any order and number.

  Main results:
    * `stacks_iff_noCreation` — the context put into `vs_queue` lies in the
      block `sp` names in exactly the runs that create no vthread at all.
    * `create_on_dead_block` — from the second creation on a slot the context
      lies in a block that has been deleted.
-/
import Mathlib.Data.Int.Notation
import Mathlib.Data.Nat.Notation
import Mathlib.Logic.Function.Basic
import HThread.Interleave.Machine
import HThread.Vthreads.Identity

namespace HThread

/-- `STACK_SIZE`: the bytes of one vthread stack. -/
def stackSize : Nat := 655360

end HThread

namespace HThread.Stacks

open Interleave
open Function (update)

/-! ## §1. Pointers, slots and their events. -/

/-- A `char*`: a block of the heap (`none`: the null pointer) and an offset. -/
structure Ptr where
  block : Option ℕ
  off : ℤ
  deriving DecidableEq, Repr

/-- The null pointer, which `sp` is in a zero-initialised table. -/
def nullptr : Ptr := ⟨none, 0⟩

/-- The pointer lies inside block `b`. -/
def Ptr.Within (p : Ptr) (b : ℕ) : Prop := p.block = some b ∧ 0 ≤ p.off ∧ p.off < stackSize

/-- make_x86_64_sysv_elf_gas.S:38, `make_fcontext`: round down to 16 bytes, reserve 0x48. -/
def makeFcontext (p : Ptr) : Ptr := { p with off := p.off / 16 * 16 - 0x48 }

/-- What the stack's life cycle touches in a slot; `unfinished` is history: a
    created vthread that has not run `wake_up_joined`. -/
structure Slot where
  sp : Ptr
  ctx : Ptr
  constructed : Bool
  unfinished : Bool
  deriving DecidableEq, Repr

/-- The heap's stack blocks and the table.  `enqueued` is the slot that the last
    event put into `vs_queue`; `freed` lists, for each vthread that finished,
    the block that was deleted and the block its context lay in. -/
structure StackTable where
  next : ℕ
  live : ℕ → Bool
  slot : Fin maxVthreads → Slot
  enqueued : Option (Fin maxVthreads)
  freed : List (Option ℕ × Option ℕ)

/-- The events of a slot. -/
inductive SlotEvent where
  | construct (i : Fin maxVthreads)
  | create (i : Fin maxVthreads)
  | finish (i : Fin maxVthreads)
  deriving DecidableEq

/-- The stack part of vthread.hpp:110, `vthread::init`: lines 144 and 154. -/
def vthreadInit (s : StackTable) (i : Fin maxVthreads) : StackTable :=
  let sp := (s.slot i).sp
  { s with
    next := s.next + 1
    live := update s.live s.next true
    slot := update s.slot i { s.slot i with
      ctx := makeFcontext { sp with off := sp.off + stackSize }
      sp := ⟨some s.next, 0⟩ } }

/-- The static construction of slot `i`, `vthread::vthread()`. -/
def construct (s : StackTable) (i : Fin maxVthreads) : StackTable :=
  let s := vthreadInit s i
  { s with
    slot := update s.slot i { s.slot i with constructed := true }
    enqueued := none }

/-- vthreads.cpp:75, the end of `add_vthread`: `init` on the slot and the enqueue. -/
def addVthread (s : StackTable) (i : Fin maxVthreads) : StackTable :=
  let s := vthreadInit s i
  { s with
    slot := update s.slot i { s.slot i with unfinished := true }
    enqueued := some i }

/-- vthread.hpp:242, `delete[] sp` for the vthread that has finished. -/
def wakeUpJoined (s : StackTable) (i : Fin maxVthreads) : StackTable :=
  { s with
    live := match (s.slot i).sp.block with
      | some b => update s.live b false
      | none => s.live
    slot := update s.slot i { s.slot i with unfinished := false }
    enqueued := none
    freed := s.freed ++ [((s.slot i).sp.block, (s.slot i).ctx.block)] }

/-- One event. -/
def stackStep (s : StackTable) : SlotEvent → Option StackTable
  | .construct i => if (s.slot i).constructed then none else some (construct s i)
  | .create i => if (s.slot i).constructed then some (addVthread s i) else none
  | .finish i => if (s.slot i).unfinished then some (wakeUpJoined s i) else none

/-- The zero-initialised table before its construction, no block allocated. -/
def zeroed : StackTable where
  next := 0
  live _ := false
  slot _ := ⟨nullptr, nullptr, false, false⟩
  enqueued := none
  freed := []

/-- The table and its stacks. -/
def «stacks» : Machine StackTable SlotEvent where
  init s := s = zeroed
  step := stackStep

/-! ## §2. The life cycle the stacks are meant to have. -/

/-- Slot `i` may run: its context lies in the block its `sp` names, the block is
    live and holds no other unfinished vthread's context. -/
def StackOk (s : StackTable) (i : Fin maxVthreads) : Prop :=
  ∃ b, (s.slot i).sp.block = some b ∧ (s.slot i).ctx.Within b ∧ s.live b = true
    ∧ ∀ j, j ≠ i → (s.slot j).unfinished = true → ¬(s.slot j).ctx.Within b

/-- What was just enqueued may run, and every deleted block was the one the
    finished vthread had been running on. -/
def LifeCycleOk (s : StackTable) : Prop :=
  (∀ i, s.enqueued = some i → StackOk s i) ∧ ∀ p ∈ s.freed, p.1 = p.2

/-- The event is not a `pthread_create`. -/
def NoCreation (_ : StackTable) : SlotEvent → Prop
  | .create _ => False
  | _ => True

/-! ## §3. What the code does. -/

/-- `sp` never names a block that is still to be allocated. -/
def SpBelow (s : StackTable) : Prop := ∀ i b, (s.slot i).sp.block = some b → b < s.next

theorem spBelow_vthreadInit {s : StackTable} (h : SpBelow s) (i : Fin maxVthreads) :
    SpBelow (vthreadInit s i) := by
  intro j b hb
  show b < s.next + 1
  simp only [vthreadInit] at hb
  by_cases hj : j = i
  · subst hj
    simp only [Function.update_self, Option.some.injEq] at hb
    omega
  · rw [Function.update_of_ne hj] at hb
    have := h j b hb
    omega

/-- Changing the flags of a slot keeps every `sp`. -/
theorem spBelow_flags {s s' : StackTable} (h : SpBelow s) {i : Fin maxVthreads} {x : Slot}
    (hslot : s'.slot = update s.slot i x) (hx : x.sp = (s.slot i).sp) (hnext : s'.next = s.next) :
    SpBelow s' := by
  intro j b hb
  rw [hslot] at hb
  rw [hnext]
  by_cases hj : j = i
  · subst hj
    rw [Function.update_self, hx] at hb
    exact h j b hb
  · rw [Function.update_of_ne hj] at hb
    exact h j b hb

theorem spBelow_step {s s' : StackTable} {a : SlotEvent} (h : SpBelow s)
    (hs : stackStep s a = some s') : SpBelow s' := by
  cases a with
  | construct i =>
      simp only [stackStep, Option.ite_none_left_eq_some] at hs
      obtain ⟨-, hs⟩ := hs
      obtain rfl := Option.some.inj hs
      exact spBelow_flags (spBelow_vthreadInit h i) rfl rfl rfl
  | create i =>
      simp only [stackStep, Option.ite_none_right_eq_some] at hs
      obtain ⟨-, hs⟩ := hs
      obtain rfl := Option.some.inj hs
      exact spBelow_flags (spBelow_vthreadInit h i) rfl rfl rfl
  | finish i =>
      simp only [stackStep, Option.ite_none_right_eq_some] at hs
      obtain ⟨-, hs⟩ := hs
      obtain rfl := Option.some.inj hs
      exact spBelow_flags h rfl rfl rfl

theorem spBelow_keeps : stacks.Keeps (fun _ _ => True) SpBelow where
  start s hs i b hb := by
    obtain rfl : s = zeroed := hs
    simp [zeroed, nullptr] at hb
  step _ _ _ h _ hs := spBelow_step h hs

@[simp] theorem addVthread_sp (s : StackTable) (i : Fin maxVthreads) :
    ((addVthread s i).slot i).sp = ⟨some s.next, 0⟩ := by
  simp [addVthread, vthreadInit]

@[simp] theorem addVthread_ctx_block (s : StackTable) (i : Fin maxVthreads) :
    ((addVthread s i).slot i).ctx.block = (s.slot i).sp.block := by
  simp [addVthread, vthreadInit, makeFcontext]

/-- **The two assignments in the wrong order**: the context of a new vthread is
    built in the block that `sp` named before, never in its own. -/
theorem not_stackOk_addVthread {s : StackTable} (h : SpBelow s) (i : Fin maxVthreads) :
    ¬StackOk (addVthread s i) i := by
  rintro ⟨b, hsp, ⟨hctx, -⟩, -⟩
  rw [addVthread_sp] at hsp
  rw [addVthread_ctx_block] at hctx
  obtain rfl : s.next = b := Option.some.inj hsp
  exact Nat.lt_irrefl _ (h i _ hctx)

/-- When a slot is created again after its vthread finished, the new vthread
    runs on the block that was just deleted. -/
theorem create_on_dead_block {s : StackTable} {i : Fin maxVthreads} {b : ℕ} (h : SpBelow s)
    (hsp : (s.slot i).sp.block = some b) :
    ((addVthread (wakeUpJoined s i) i).slot i).ctx.block = some b
      ∧ (addVthread (wakeUpJoined s i) i).live b = false := by
  have hb := h i b hsp
  have hne : b ≠ s.next := by omega
  refine ⟨?_, ?_⟩
  · rw [addVthread_ctx_block]
    simpa [wakeUpJoined] using hsp
  · show update (wakeUpJoined s i).live s.next true b = false
    rw [Function.update_of_ne hne]
    simp [wakeUpJoined, hsp]

/-! ## §4. The runs that keep the life cycle. -/

/-- Before the first creation nothing runs, so nothing finishes. -/
structure Untouched (s : StackTable) : Prop where
  spBelow : SpBelow s
  unfinished : ∀ i, (s.slot i).unfinished = false
  enqueued : s.enqueued = none
  freed : s.freed = []

theorem Untouched.lifeCycleOk {s : StackTable} (h : Untouched s) : LifeCycleOk s :=
  ⟨fun i hi => by simp [h.enqueued] at hi, fun p hp => by simp [h.freed] at hp⟩

theorem untouched_step {s s' : StackTable} {a : SlotEvent} (h : Untouched s) (hok : NoCreation s a)
    (hs : stackStep s a = some s') : Untouched s' := by
  have hsp := spBelow_step h.spBelow hs
  cases a with
  | construct i =>
      simp only [stackStep, Option.ite_none_left_eq_some] at hs
      obtain ⟨-, hs⟩ := hs
      obtain rfl := Option.some.inj hs
      refine ⟨hsp, fun j => ?_, rfl, h.freed⟩
      by_cases hj : j = i
      · subst hj
        simpa [construct, vthreadInit] using h.unfinished j
      · simpa [construct, vthreadInit, Function.update_of_ne hj] using h.unfinished j
  | create i => exact hok.elim
  | finish i => simp [stackStep, h.unfinished i] at hs

theorem stacks_keeps : stacks.Keeps NoCreation Untouched where
  start s hs := by
    have hsp := spBelow_keeps.start s hs
    obtain rfl : s = zeroed := hs
    exact ⟨hsp, fun _ => rfl, rfl, rfl⟩
  step _ _ _ h hok hs := untouched_step h hok hs

/-- A creation breaks the life cycle at once. -/
theorem not_lifeCycleOk_of_creation {s s' : StackTable} {a : SlotEvent} (h : Untouched s)
    (hno : ¬NoCreation s a) (hs : stackStep s a = some s') : ¬LifeCycleOk s' := by
  cases a with
  | construct i => exact absurd trivial hno
  | create i =>
      simp only [stackStep, Option.ite_none_right_eq_some] at hs
      obtain ⟨-, hs⟩ := hs
      obtain rfl := Option.some.inj hs
      exact fun hP => not_stackOk_addVthread h.spBelow i (hP.1 i rfl)
  | finish i => exact absurd trivial hno

/-- **Every creation is wrong.**  The stacks keep their life cycle throughout a
    run iff the run creates no vthread; and whatever came before, no creation
    puts a vthread into `vs_queue` whose context lies in its own block. -/
theorem stacks_iff_noCreation {as : List SlotEvent} {t : StackTable}
    (hrun : stacks.run zeroed as = some t) :
    (stacks.Always LifeCycleOk zeroed as ↔ stacks.StepsMeet NoCreation zeroed as)
      ∧ ∀ i, ¬StackOk (addVthread t i) i :=
  ⟨Machine.always_iff_stepsMeet stacks_keeps (fun _ => Untouched.lifeCycleOk)
      (fun _ _ _ => not_lifeCycleOk_of_creation) rfl hrun,
    not_stackOk_addVthread (spBelow_keeps.reachable (Machine.Reachable.after rfl as hrun))⟩

/-- A slot of the table. -/
def slot15 : Fin maxVthreads := ⟨15, by decide⟩

/-- Two vthreads, one after the other, in one slot. -/
def slotActs : List SlotEvent :=
  [.construct slot15, .create slot15, .finish slot15, .create slot15]

theorem stacks_iff_noCreation_slot :
    ∃ t, stacks.run zeroed slotActs = some t ∧ t.freed = [(some 1, some 0)]
      ∧ (stacks.Always LifeCycleOk zeroed slotActs ↔ stacks.StepsMeet NoCreation zeroed slotActs)
      ∧ ∀ i, ¬StackOk (addVthread t i) i :=
  ⟨_, rfl, rfl, stacks_iff_noCreation (t := _) rfl⟩

/-- The first creation on slot 15: the context lies in block 0, `sp` names block 1. -/
theorem first_creation_off_stack :
    ∃ s, stacks.run zeroed [.construct slot15, .create slot15] = some s
      ∧ s.enqueued = some slot15 ∧ (s.slot slot15).ctx.block = some 0
      ∧ (s.slot slot15).sp.block = some 1
      ∧ ¬stacks.Always LifeCycleOk zeroed [.construct slot15, .create slot15] := by
  refine ⟨_, rfl, rfl, rfl, rfl, fun hA => ?_⟩
  obtain ⟨b, hsp, ⟨hctx, -⟩, -⟩ := (hA.last rfl).1 slot15 rfl
  have h₁ : 1 = b := Option.some.inj hsp
  have h₀ : 0 = b := Option.some.inj hctx
  omega

end HThread.Stacks
