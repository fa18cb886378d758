/-
  HThread.Fcontext.Workers — workers that switch between contexts.

  Each worker thread has a stack of its own, on which it dequeues vthreads and
  resumes them; a vthread runs on its stack until it yields.  Both directions are
  a call of `safe_jump_fcontext`, which is executed here instruction by
  instruction, those of all workers in any order.  In between a worker executes
  code that this model does not look into: whatever it does, it leaves alone the
  stacks of other contexts and the words the switch uses.

  The invariant says that every parked context has its frame on its own stack,
  that the lock of a vthread is free unless a jump holds it, and that a jump on
  its way will do what it would do alone.

  Key lemmas:
    * `Inv.stack_others`, `Inv.held_others` — what belongs to different workers.
    * `Inv.jump_others` — a jump writes to its own places.
-/
import HThread.Fcontext.Make
import HThread.Interleave.Coroutines

namespace HThread.Fcontext

open Interleave X86
open Function (update)

variable {A V : Type}

/-! ## §1. The workers. -/

/-- The words of a vthread that a switch uses (vthread.hpp:351). -/
def wordsAt (ctx ownerCtx jumpLock : Addr) : Set Addr :=
  span ctx 8 ∪ span ownerCtx 8 ∪ span jumpLock 8

/-- Where things are: the members of each vthread, the stacks of the worker threads, and code.
    They do not overlap. -/
structure Layout (A V : Type) where
  self : V → Addr
  ctx : V → Addr
  ownerCtx : V → Addr
  jumpLock : V → Addr
  base : A → Addr
  size : A → ℕ
  manage : Addr
  finish : Addr
  jump : ℕ → Addr
  stacksApart : ∀ a b, a ≠ b → Disjoint (span (base a) (size a)) (span (base b) (size b))
  stackWords : ∀ a v, Disjoint (span (base a) (size a)) (wordsAt (ctx v) (ownerCtx v) (jumpLock v))
  wordsApart : ∀ v w, v ≠ w →
    Disjoint (wordsAt (ctx v) (ownerCtx v) (jumpLock v)) (wordsAt (ctx w) (ownerCtx w) (jumpLock w))
  ctxOwner : ∀ v, Disjoint (span (ctx v) 8) (span (ownerCtx v) 8)
  ctxLock : ∀ v, Disjoint (span (ctx v) 8) (span (jumpLock v) 8)
  ownerLock : ∀ v, Disjoint (span (ownerCtx v) 8) (span (jumpLock v) 8)

/-- vthread.hpp:65, `STACK_SIZE`. -/
def stackSize : ℕ := 655360

/-- What a worker does: it runs code, on its own stack or a vthread's, or it is in a jump that
    began in the state `entry`; `out` tells whether the vthread yields or is resumed. -/
inductive Core (V : Type) where
  | runs (v : Option V) (c : Cpu) (pc : Addr)
  | jumps (v : V) (out : Bool) (entry : State) (c : Cpu) (i : ℕ)

/-- `sp` is the stack of a vthread, while it has one. -/
structure Workers (A V : Type) where
  mem : Mem
  core : A → Core V
  sp : V → Option Addr

inductive Act (A V : Type) where
  /-- Any code outside the jump. -/
  | work (a : A) (c : Cpu) (pc : Addr) (m : Mem)
  /-- vthread.hpp:166, `resume`; `ra` is the return address of its call. -/
  | resume (a : A) (v : V) (ra : Addr)
  /-- vthread.hpp:320, `yield_myself`. -/
  | yield (a : A) (ret : BitVec 64) (ra : Addr)
  | instr (a : A)
  /-- vthread.hpp:144, in `init`. -/
  | init (a : A) (v : V) (sp : Addr)
  /-- vthread.hpp:242, in `wake_up_joined`. -/
  | free (a : A) (v : V)

/-- The vthread that a worker has in hand, from `resume` until it has yielded. -/
def Core.hand : Core V → Option V
  | .runs v _ _ => v
  | .jumps v _ _ _ _ => some v

/-- The context whose code a worker executes. -/
def Core.cur (a : A) : Core V → V ⊕ A
  | .runs none _ _ => .inr a
  | .runs (some v) _ _ => .inl v
  | .jumps v out _ _ _ => if out then .inl v else .inr a

/-- The context that a jump goes on with. -/
def target (a : A) (v : V) (out : Bool) : V ⊕ A := if out then .inr a else .inl v

variable (L : Layout A V)

/-- The word that a jump from context `x` stores the frame's address in: `ctx` or `owner_ctx`. -/
def Layout.word (v : V) : V ⊕ A → Addr
  | .inl _ => L.ctx v
  | .inr _ => L.ownerCtx v

/-- The call `safe_jump_fcontext(&ofc, nfc, vp, FPU, &jump_lock)`. -/
def callJump (s : State) (ofc nfc vp lock ra : Addr) : State where
  cpu := (((((s.cpu.set .rdi ofc).set .rsi nfc).set .rdx vp).set .rcx 1).set .r8 lock).set .rsp
    (s.cpu.reg .rsp - 8)
  mem := store 8 s.mem (s.cpu.reg .rsp - 8) ra

/-- The state at the entry of the jump, in the direction `out`. -/
def callEntry (s : Workers A V) (a : A) (v : V) (out : Bool) (c : Cpu) (vp ra : Addr) : State :=
  callJump ⟨c, s.mem⟩ (L.word v (target a v !out)) (load 8 s.mem (L.word v (target a v out))) vp
    (L.jumpLock v) ra

section Step

variable [DecidableEq A] [DecidableEq V]

def call (s : Workers A V) (a : A) (v : V) (out : Bool) (c : Cpu) (vp ra : Addr) : Workers A V :=
  let entry := callEntry L s a v out c vp ra
  { s with
    mem := entry.mem
    core := update s.core a (.jumps v out entry entry.cpu 0) }

/-- `jump_lock = 0; ctx = make_fcontext(sp + STACK_SIZE, STACK_SIZE, manage);` -/
def initCtx (c : Cpu) (m : Mem) (v : V) (sp : Addr) : Mem :=
  store 8
    (makeFrame c (topFrame (off sp stackSize)) L.manage L.finish (store 8 m (L.jumpLock v) 0))
    (L.ctx v) (topFrame (off sp stackSize))

def workersStep (s : Workers A V) : Act A V → Option (Workers A V)
  | .work a c pc m =>
      match s.core a with
      | .runs v _ _ => some { s with mem := m, core := update s.core a (.runs v c pc) }
      | .jumps _ _ _ _ _ => none
  | .resume a v ra =>
      match s.core a with
      | .runs none c _ => some (call L s a v false c (L.self v) ra)
      | _ => none
  | .yield a ret ra =>
      match s.core a with
      | .runs (some v) c _ => some (call L s a v true c ret ra)
      | _ => none
  | .instr a =>
      match s.core a with
      | .jumps v out entry c i =>
          match step safeJumpFcontext L.jump (⟨c, s.mem⟩, .inside i) with
          | some (t, .inside j) =>
              some { s with mem := t.mem, core := update s.core a (.jumps v out entry t.cpu j) }
          | some (t, .outside dest) =>
              some { s with
                mem := t.mem
                core := update s.core a (.runs (if out then none else some v) t.cpu dest) }
          | _ => none
      | .runs _ _ _ => none
  | .init a v sp =>
      match s.core a with
      | .runs _ c _ => some { s with mem := initCtx L c s.mem v sp, sp := update s.sp v (some sp) }
      | .jumps _ _ _ _ _ => none
  | .free a v =>
      match s.core a with
      | .runs _ _ _ => some { s with sp := update s.sp v none }
      | .jumps _ _ _ _ _ => none

end Step

/-! ## §2. What belongs to whom. -/

/-- The words of a vthread. -/
def Layout.words (v : V) : Set Addr := wordsAt (L.ctx v) (L.ownerCtx v) (L.jumpLock v)

/-- The stack of a context. -/
def stackOf (s : Workers A V) : V ⊕ A → Set Addr
  | .inl v => {y | ∃ b, s.sp v = some b ∧ y ∈ span b stackSize}
  | .inr a => span (L.base a) (L.size a)

def curOf (s : Workers A V) (a : A) : V ⊕ A := (s.core a).cur a

/-- A context that exists and does not run. -/
def Parked (s : Workers A V) (x : V ⊕ A) : Prop :=
  (∀ v, x = .inl v → s.sp v ≠ none) ∧ ∀ a, curOf s a ≠ x

/-- The word that holds the address of the frame of `x` while it is parked. -/
def wordOf (s : Workers A V) : V ⊕ A → Option Addr
  | .inl v => some (L.ctx v)
  | .inr a => (s.core a).hand.map L.ownerCtx

/-- What the code outside the jump does not write. -/
def foreign (s : Workers A V) (a : A) : Set Addr :=
  {y | (∃ x, x ≠ curOf s a ∧ y ∈ stackOf L s x) ∨ ∃ v, s.sp v ≠ none ∧ y ∈ L.words v}

/-- What the rest of the program sees to: code writes to its own stack and to memory that no
    switch uses; there is room for a frame at a call; a vthread is resumed by one worker at a
    time; a new stack is apart from those in use; a vthread is freed when it does not run. -/
def Ok (s : Workers A V) : Act A V → Prop
  | .work a _ _ m => Set.EqOn m s.mem (foreign L s a)
  | .resume a v _ =>
      s.sp v ≠ none ∧ (∀ b, (s.core b).hand ≠ some v) ∧
        ∀ c pc, s.core a = .runs none c pc →
          span (c.reg .rsp - BitVec.ofNat 64 64) 64 ⊆ stackOf L s (.inr a)
  | .yield a _ _ =>
      ∀ v c pc, s.core a = .runs (some v) c pc →
        span (c.reg .rsp - BitVec.ofNat 64 64) 64 ⊆ stackOf L s (.inl v)
  | .instr _ => True
  | .init _ v sp =>
      s.sp v = none ∧ sp.toNat + stackSize < 2 ^ 64 ∧
        (∀ x, Disjoint (span sp stackSize) (stackOf L s x)) ∧
        ∀ w, Disjoint (span sp stackSize) (L.words w)
  | .free _ v => ∀ b, (s.core b).hand ≠ some v

/-- No vthread exists, and the workers run their own code. -/
structure Start (s : Workers A V) : Prop where
  sp : ∀ v, s.sp v = none
  core : ∀ a, ∃ c pc, s.core a = .runs none c pc

/-- The workers. -/
def workers [DecidableEq A] [DecidableEq V] : Machine (Workers A V) (Act A V) where
  init := Start
  step := workersStep L

/-! ## §3. The invariant. -/

/-- The places of a jump. -/
def places (e : State) (f : Addr) : Set Addr :=
  span f 64 ∪ span (e.cpu.reg .rsi) 64 ∪ span (e.cpu.reg .rdi) 8 ∪ span (e.cpu.reg .r8) 8

/-- A jump on its way: what its instructions still do, `m` being the memory if only this worker
    had moved since the call. -/
structure Jumping (s : Workers A V) (a : A) (v : V) (out : Bool) (e : State) (c : Cpu) (i : ℕ)
    (f : Addr) (t : State) (dest : Addr) (m : Mem) : Prop where
  rsp : e.cpu.reg .rsp = off f 56
  here : span f 64 ⊆ stackOf L s (target a v !out)
  ofc : e.cpu.reg .rdi = L.word v (target a v !out)
  lock : e.cpu.reg .r8 = L.jumpLock v
  nfc : load 8 s.mem (L.word v (target a v out)) = e.cpu.reg .rsi
  there : span (e.cpu.reg .rsi) 64 ⊆ stackOf L s (target a v out)
  frame : frameAt s.mem (e.cpu.reg .rsi) = frameAt e.mem (e.cpu.reg .rsi)
  agree : Set.EqOn m s.mem (places e f)
  path : Path safeJumpFcontext L.jump (places e f) (jumpWrites e.cpu f) (⟨c, m⟩, .inside i)
    (t, .outside dest)
  jumped : Jumped e f t dest

structure Inv (s : Workers A V) : Prop where
  hands : ∀ a b v, (s.core a).hand = some v → (s.core b).hand = some v → a = b
  live : ∀ a v, (s.core a).hand = some v → s.sp v ≠ none
  stacksApart : ∀ x y, x ≠ y → Disjoint (stackOf L s x) (stackOf L s y)
  stackWords : ∀ x v, Disjoint (stackOf L s x) (L.words v)
  rest : ∀ x w, Parked s x → wordOf L s x = some w → span (load 8 s.mem w) 64 ⊆ stackOf L s x
  lock : ∀ v, s.sp v ≠ none → (∀ a out e c i, s.core a ≠ .jumps v out e c i) →
    load 8 s.mem (L.jumpLock v) = 0
  jump : ∀ a v out e c i, s.core a = .jumps v out e c i →
    ∃ f t dest m, Jumping L s a v out e c i f t dest m

/-- What worker `a` leaves alone in every step, but for the start of a vthread. -/
def others (s : Workers A V) (a : A) : Set Addr :=
  {y | (∃ x, x ≠ curOf s a ∧ y ∈ stackOf L s x) ∨
    (∃ v, s.sp v ≠ none ∧ (s.core a).hand ≠ some v ∧ y ∈ L.words v) ∨
    ∃ x w, Parked s x ∧ wordOf L s x = some w ∧ y ∈ span w 8}

variable {L} {s : Workers A V} {a b : A} {v : V} {x y : V ⊕ A}

theorem ctx_words (L : Layout A V) (v : V) : span (L.ctx v) 8 ⊆ L.words v :=
  Set.subset_union_left.trans Set.subset_union_left

theorem ownerCtx_words (L : Layout A V) (v : V) : span (L.ownerCtx v) 8 ⊆ L.words v :=
  Set.subset_union_right.trans Set.subset_union_left

theorem jumpLock_words (L : Layout A V) (v : V) : span (L.jumpLock v) 8 ⊆ L.words v :=
  Set.subset_union_right

theorem word_words (L : Layout A V) (v : V) (x : V ⊕ A) : span (L.word v x) 8 ⊆ L.words v := by
  cases x with
  | inl w => exact ctx_words L v
  | inr a => exact ownerCtx_words L v

/-- A worker that runs a vthread has it in hand. -/
theorem hand_of_cur (h : curOf s a = .inl v) : (s.core a).hand = some v := by
  unfold curOf at h
  cases hc : s.core a with
  | runs u c pc =>
      rw [hc] at h
      cases u with
      | none => cases h
      | some u => exact congrArg some (Sum.inl.inj h)
  | jumps u out e c i =>
      rw [hc] at h
      cases out with
      | false => cases h
      | true => exact congrArg some (Sum.inl.inj h)

theorem cur_inr (h : curOf s b = .inr a) : b = a := by
  unfold curOf at h
  cases hc : s.core b with
  | runs u c pc =>
      rw [hc] at h
      cases u with
      | none => exact Sum.inr.inj h
      | some u => cases h
  | jumps u out e c i =>
      rw [hc] at h
      cases out with
      | false => exact Sum.inr.inj h
      | true => cases h

/-- The word of a parked context is one of the words of a vthread. -/
theorem Inv.word_of (h : Inv L s) (hx : Parked s x) {w : Addr} (hw : wordOf L s x = some w) :
    ∃ v, s.sp v ≠ none ∧ w = L.word v x ∧ (x = .inl v ∨ ∃ a, x = .inr a ∧ (s.core a).hand = some v)
    := by
  cases x with
  | inl v =>
      obtain rfl := Option.some.inj hw
      exact ⟨v, hx.1 v rfl, rfl, .inl rfl⟩
  | inr a =>
      obtain ⟨v, hv, rfl⟩ := Option.map_eq_some_iff.mp hw
      exact ⟨v, h.live a v hv, rfl, .inr ⟨a, rfl, hv⟩⟩

theorem Inv.others_foreign (h : Inv L s) (a : A) : others L s a ⊆ foreign L s a := by
  rintro y (⟨x, hx, hy⟩ | ⟨v, hv, -, hy⟩ | ⟨x, w, hx, hw, hy⟩)
  · exact .inl ⟨x, hx, hy⟩
  · exact .inr ⟨v, hv, hy⟩
  · obtain ⟨v, hv, rfl, -⟩ := h.word_of hx hw
    exact .inr ⟨v, hv, word_words L v x hy⟩

/-- The stack that a worker is on is not among the others. -/
theorem Inv.stack_others (h : Inv L s) (a : A) :
    Disjoint (stackOf L s (curOf s a)) (others L s a) := by
  rw [Set.disjoint_left]
  rintro y hcur (⟨x, hx, hy⟩ | ⟨v, -, -, hy⟩ | ⟨x, w, hx, hw, hy⟩)
  · exact Set.disjoint_left.mp (h.stacksApart _ _ hx) hy hcur
  · exact Set.disjoint_left.mp (h.stackWords _ v) hcur hy
  · obtain ⟨v, -, rfl, -⟩ := h.word_of hx hw
    exact Set.disjoint_left.mp (h.stackWords _ v) hcur (word_words L v x hy)

/-- What another worker has in hand is among the others. -/
theorem Inv.held_others (h : Inv L s) (hab : b ≠ a) (hv : (s.core b).hand = some v) :
    stackOf L s (.inr b) ∪ stackOf L s (.inl v) ∪ L.words v ⊆ others L s a := by
  rintro y ((hy | hy) | hy)
  · exact .inl ⟨_, fun hcur => hab (cur_inr hcur.symm).symm, hy⟩
  · exact .inl ⟨_, fun hcur => hab (h.hands b a v hv (hand_of_cur hcur.symm)), hy⟩
  · exact .inr (.inl ⟨v, h.live b v hv, fun ha => hab (h.hands b a v hv ha), hy⟩)

/-- The words of different contexts are different. -/
theorem Inv.word_apart (h : Inv L s) (hv : (s.core a).hand = some v) (hx : Parked s x)
    {w : Addr} (hw : wordOf L s x = some w)
    (hcur : curOf s a = .inl v ∨ curOf s a = .inr a) :
    Disjoint (span (L.word v (curOf s a)) 8 ∪ span (L.jumpLock v) 8) (span w 8) := by
  obtain ⟨u, hu, rfl, hwho⟩ := h.word_of hx hw
  by_cases huv : v = u
  · subst huv
    -- the two words of the vthread that the worker has in hand
    rcases hwho with rfl | ⟨b, rfl, hb⟩
    · have hin : curOf s a = .inr a := hcur.resolve_left (hx.2 a)
      rw [hin]
      exact Set.disjoint_union_left.mpr ⟨(L.ctxOwner v).symm, (L.ctxLock v).symm⟩
    · obtain rfl := h.hands a b v hv hb
      have hin : curOf s a = .inl v := hcur.resolve_right (hx.2 a)
      rw [hin]
      exact Set.disjoint_union_left.mpr ⟨L.ctxOwner v, (L.ownerLock v).symm⟩
  · have hmine : span (L.word v (curOf s a)) 8 ∪ span (L.jumpLock v) 8 ⊆ L.words v :=
      Set.union_subset (word_words L v _) (jumpLock_words L v)
    exact (L.wordsApart v u huv).mono hmine (word_words L u x)

/-- A jump writes to its own places. -/
theorem Inv.jump_others (h : Inv L s) {out : Bool} {e t : State} {c : Cpu} {i : ℕ} {f dest : Addr}
    {m : Mem} (hc : s.core a = .jumps v out e c i) (hj : Jumping L s a v out e c i f t dest m) :
    Disjoint (jumpWrites e.cpu f) (others L s a) := by
  have hv : (s.core a).hand = some v := by
    rw [hc]
    rfl
  have hcur : curOf s a = target a v !out := by
    unfold curOf
    rw [hc]
    cases out <;> rfl
  have hside : curOf s a = .inl v ∨ curOf s a = .inr a := by
    rw [hcur]
    cases out with
    | false => exact .inr rfl
    | true => exact .inl rfl
  have hwords : span (e.cpu.reg .rdi) 8 ∪ span (e.cpu.reg .r8) 8 ⊆ L.words v := by
    rw [hj.ofc, hj.lock]
    exact Set.union_subset (word_words L v _) (jumpLock_words L v)
  have hframe : Disjoint (span f 56) (others L s a) := by
    refine (h.stack_others a).mono_left ?_
    rw [hcur]
    exact (span_mono (by decide)).trans hj.here
  have hrest : Disjoint (span (e.cpu.reg .rdi) 8 ∪ span (e.cpu.reg .r8) 8) (others L s a) := by
    rw [Set.disjoint_left]
    rintro y hy (⟨x, -, hx⟩ | ⟨u, -, hu, huy⟩ | ⟨x, w, hx, hw, hwy⟩)
    · exact Set.disjoint_left.mp (h.stackWords x v) hx (hwords hy)
    · have hne : v ≠ u := fun heq => hu (heq ▸ hv)
      exact Set.disjoint_left.mp (L.wordsApart v u hne) (hwords hy) huy
    · have hapart := h.word_apart hv hx hw hside
      rw [hcur, ← hj.ofc, ← hj.lock] at hapart
      exact Set.disjoint_left.mp hapart hy hwy
  unfold jumpWrites
  rw [Set.union_assoc]
  exact Set.disjoint_union_left.mpr ⟨hframe, hrest⟩

/-! ## §4. One worker and one vthread. -/

def sampleLayout : Layout (Fin 1) (Fin 1) where
  self _ := 0x9000
  ctx _ := 0x1000
  ownerCtx _ := 0x1008
  jumpLock _ := 0x1010
  base _ := 0x2000
  size _ := 0x1000
  manage := 0x7000
  finish := 0x7100
  jump _ := 0
  stacksApart a b hab := absurd (Subsingleton.elim a b) hab
  stackWords a v := by
    refine Set.disjoint_union_right.mpr ⟨Set.disjoint_union_right.mpr ⟨?_, ?_⟩, ?_⟩
    · exact (span_disjoint (by decide) (by decide)).symm
    · exact (span_disjoint (by decide) (by decide)).symm
    · exact (span_disjoint (by decide) (by decide)).symm
  wordsApart v w hvw := absurd (Subsingleton.elim v w) hvw
  ctxOwner _ := span_disjoint (by decide) (by decide)
  ctxLock _ := span_disjoint (by decide) (by decide)
  ownerLock _ := span_disjoint (by decide) (by decide)

def sampleCpu : Cpu where
  reg := fun
    | .rsp => 0x2800
    | _ => 0
  zf := false
  mxcsr := 0x1f80
  fcw := 0x37f

def sampleStart : Workers (Fin 1) (Fin 1) where
  mem _ := 0
  core _ := .runs none sampleCpu 0x6000
  sp _ := none

/-- The vthread has been made. -/
def sampleMade : Workers (Fin 1) (Fin 1) where
  mem := initCtx sampleLayout sampleCpu sampleStart.mem 0 0x100000
  core := sampleStart.core
  sp := update sampleStart.sp 0 (some 0x100000)

/-- The worker is in the call that resumes it. -/
def sampleResumed : Workers (Fin 1) (Fin 1) :=
  call sampleLayout sampleMade 0 0 false sampleCpu 0x9000 0x6010

theorem sampleResumed_reachable :
    (workers sampleLayout).ReachableVia (Ok sampleLayout) sampleResumed := by
  have hstart : (workers sampleLayout).ReachableVia (Ok sampleLayout) sampleStart :=
    .start ⟨fun _ => rfl, fun _ => ⟨sampleCpu, 0x6000, rfl⟩⟩
  have hinit : Ok sampleLayout sampleStart (.init 0 0 0x100000) := by
    refine ⟨rfl, by decide, fun x => ?_, fun w => ?_⟩
    · rcases x with v | a
      · rw [Set.disjoint_left]
        rintro y - ⟨b, hb, -⟩
        cases hb
      · obtain rfl := Subsingleton.elim a 0
        exact (span_disjoint (by decide) (by decide)).symm
    · obtain rfl := Subsingleton.elim w 0
      refine Set.disjoint_union_right.mpr ⟨Set.disjoint_union_right.mpr ⟨?_, ?_⟩, ?_⟩
      · exact (span_disjoint (by decide) (by decide)).symm
      · exact (span_disjoint (by decide) (by decide)).symm
      · exact (span_disjoint (by decide) (by decide)).symm
  have hmade : (workers sampleLayout).ReachableVia (Ok sampleLayout) sampleMade :=
    hstart.step hinit rfl
  have hresume : Ok sampleLayout sampleMade (.resume 0 0 0x6010) := by
    refine ⟨Option.some_ne_none 0x100000, fun b => (Option.some_ne_none 0).symm, ?_⟩
    rintro c pc hc
    obtain ⟨-, rfl, -⟩ := Core.runs.inj hc
    exact span_off_subset (f := 0x2000) (c := 0x7c0) (by decide) (by decide)
  exact hmade.step hresume rfl

end HThread.Fcontext
