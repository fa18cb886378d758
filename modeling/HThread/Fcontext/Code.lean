/-
  HThread.Fcontext.Code — the routines that switch contexts.

  A context that is not running is a frame on its own stack, and `fcontext_t` is
  the address of that frame.  `safe_jump_fcontext(ofc, nfc, vp, preserve_fpu,
  pjump_lock)` has its arguments in RDI, RSI, RDX, RCX and R8.  It takes the
  lock, pushes a frame, stores its address at `ofc`, and goes on with the frame
  `nfc`; `try_jump_fcontext` returns 23 when the lock is taken.
  `make_fcontext(sp, size, fn)` writes the first frame of a stack.

  The routines stand here instruction by instruction; the parts that the two
  jumps share are named.

  Key lemmas:
    * `safe_switch`, `try_switch` — both jumps have the same body.
-/
import HThread.X86.Footprint

namespace HThread.Fcontext

open X86

/-! ## §1. The code. -/

/-- safe_jump_x86_64_sysv_elf_gas.S:38, `safe_jump_fcontext`. -/
def safeJumpFcontext : List Instr :=
  [.op (.xor .r9 .r9),
   .op (.inc .r9),
   -- enter_safe
   .op (.lockXchg .r9 .r8),
   .op (.cmp 1 .r9),
   .je 2,
   .op (.push .rbp),
   .op (.push .rbx),
   .op (.push .r15),
   .op (.push .r14),
   .op (.push .r13),
   .op (.push .r12),
   .op (.lea (-8) .rsp .rsp),
   .op (.cmp 0 .rcx),
   .je 16,
   .op (.stmxcsr 0 .rsp),
   .op (.fnstcw 4 .rsp),
   -- 1
   .op (.movTo .rsp 0 .rdi),
   .op (.mov .rsi .rsp),
   .op (.cmp 0 .rcx),
   .je 22,
   .op (.ldmxcsr 0 .rsp),
   .op (.fldcw 4 .rsp),
   -- 2
   .op (.lea 8 .rsp .rsp),
   .op (.pop .r12),
   .op (.pop .r13),
   .op (.pop .r14),
   .op (.pop .r15),
   .op (.pop .rbx),
   .op (.pop .rbp),
   .op (.pop .r9),
   .op (.mov .rdx .rax),
   .op (.mov .rdx .rdi),
   .op (.lockAnd 0 .r8),
   .jmp .r9]

/-- try_jump_x86_64_sysv_elf_gas.S:38, `try_jump_fcontext`. -/
def tryJumpFcontext : List Instr :=
  [.op (.xor .r9 .r9),
   .op (.inc .r9),
   .op (.lockXchg .r9 .r8),
   .op (.cmp 0 .r9),
   .je 7,
   .op (.movImm 23 .rax),
   .ret,
   -- enteer_safe
   .op (.push .rbp),
   .op (.push .rbx),
   .op (.push .r15),
   .op (.push .r14),
   .op (.push .r13),
   .op (.push .r12),
   .op (.lea (-8) .rsp .rsp),
   .op (.cmp 0 .rcx),
   .je 18,
   .op (.stmxcsr 0 .rsp),
   .op (.fnstcw 4 .rsp),
   -- 1
   .op (.movTo .rsp 0 .rdi),
   .op (.mov .rsi .rsp),
   .op (.cmp 0 .rcx),
   .je 24,
   .op (.ldmxcsr 0 .rsp),
   .op (.fldcw 4 .rsp),
   -- 2
   .op (.lea 8 .rsp .rsp),
   .op (.pop .r12),
   .op (.pop .r13),
   .op (.pop .r14),
   .op (.pop .r15),
   .op (.pop .rbx),
   .op (.pop .rbp),
   .op (.pop .r9),
   .op (.mov .rdx .rax),
   .op (.mov .rdx .rdi),
   .op (.lockAnd 0 .r8),
   .jmp .r9]

/-- make_x86_64_sysv_elf_gas.S:38, `make_fcontext`; `finish` is instruction 9. -/
def makeFcontext : List Instr :=
  [.op (.mov .rdi .rax),
   .op (.and (-16) .rax),
   .op (.lea (-0x48) .rax .rax),
   .op (.movTo .rdx 0x38 .rax),
   .op (.stmxcsr 0 .rax),
   .op (.fnstcw 4 .rax),
   .op (.leaRip 9 .rcx),
   .op (.movTo .rcx 0x40 .rax),
   .ret,
   -- finish
   .op (.xor .rdi .rdi),
   .call "_exit",
   .hlt]

/-! ## §2. The frame. -/

/-- What a frame holds, from its lowest address on. -/
structure Frame where
  mxcsr : BitVec 32
  fcw : BitVec 16
  r12 : BitVec 64
  r13 : BitVec 64
  r14 : BitVec 64
  r15 : BitVec 64
  rbx : BitVec 64
  rbp : BitVec 64
  rip : BitVec 64
  deriving DecidableEq, Repr

/-- The frame at an address. -/
def frameAt (m : Mem) (f : Addr) : Frame where
  mxcsr := load 4 m (off f 0)
  fcw := load 2 m (off f 4)
  r12 := load 8 m (off f 8)
  r13 := load 8 m (off f 16)
  r14 := load 8 m (off f 24)
  r15 := load 8 m (off f 32)
  rbx := load 8 m (off f 40)
  rbp := load 8 m (off f 48)
  rip := load 8 m (off f 56)

/-- A frame takes 64 bytes; the last 8 are the return address of the call. -/
theorem frameAt_congr {m m' : Mem} {f : Addr} (h : Set.EqOn m m' (span f 64)) :
    frameAt m f = frameAt m' f := by
  have hload : ∀ w c, c + w ≤ 64 → load w m (off f c) = load w m' (off f c) := fun w c hle =>
    load_congr (by omega) (h.mono (span_off_subset hle (by decide)))
  unfold frameAt
  rw [hload 4 0 (by decide), hload 2 4 (by decide), hload 8 8 (by decide), hload 8 16 (by decide),
    hload 8 24 (by decide), hload 8 32 (by decide), hload 8 40 (by decide), hload 8 48 (by decide),
    hload 8 56 (by decide)]

/-! ## §3. The body of the jumps. -/

/-- "save RBP" to the first test of `preserve_fpu`. -/
def saveOps : List Op :=
  [.push .rbp, .push .rbx, .push .r15, .push .r14, .push .r13, .push .r12, .lea (-8) .rsp .rsp,
    .cmp 0 .rcx]

def saveFpuOps : List Op := [.stmxcsr 0 .rsp, .fnstcw 4 .rsp]

/-- From label 1 to the second test. -/
def swapOps : List Op := [.movTo .rsp 0 .rdi, .mov .rsi .rsp, .cmp 0 .rcx]

def loadFpuOps : List Op := [.ldmxcsr 0 .rsp, .fldcw 4 .rsp]

/-- From label 2 to the release of the lock. -/
def restoreOps : List Op :=
  [.lea 8 .rsp .rsp, .pop .r12, .pop .r13, .pop .r14, .pop .r15, .pop .rbx, .pop .rbp, .pop .r9,
    .mov .rdx .rax, .mov .rdx .rdi, .lockAnd 0 .r8]

/-- The body of a jump begins at instruction `b`. -/
structure SwitchAt (code : List Instr) (b : ℕ) : Prop where
  save : BlockAt code b saveOps
  skipSave : code[b + 8]? = some (.je (b + 11))
  saveFpu : BlockAt code (b + 9) saveFpuOps
  swap : BlockAt code (b + 11) swapOps
  skipLoad : code[b + 14]? = some (.je (b + 17))
  loadFpu : BlockAt code (b + 15) loadFpuOps
  restore : BlockAt code (b + 17) restoreOps
  leave : code[b + 28]? = some (.jmp .r9)

theorem safe_switch : SwitchAt safeJumpFcontext 5 := by
  constructor <;> decide

theorem try_switch : SwitchAt tryJumpFcontext 7 := by
  constructor <;> decide

end HThread.Fcontext
