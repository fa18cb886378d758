/-
  HThread.X86.Machine — a few instructions of the x86-64.

  Registers, the zero flag, the control words of the floating-point units, and
  the memory.  A routine is a list of instructions, named by their places in the
  list; `addr` tells where they lie in memory.  An operation goes on to the next
  instruction; the others jump inside the routine or leave it.  Operands are in
  the order of the AT&T syntax.

  Key lemmas:
    * `push_exec`, `pop_exec` — the stack, in terms of offsets.
    * `BlockAt.head`          — a block of operations, one by one.
-/
import Mathlib.Logic.Function.Basic
import HThread.X86.Memory

namespace X86

open Function (update)

/-! ## §1. The instructions. -/

inductive Reg where
  | rax | rbx | rcx | rdx | rsi | rdi | rbp | rsp
  | r8 | r9 | r10 | r11 | r12 | r13 | r14 | r15
  deriving DecidableEq, Repr

/-- The registers.  Of the flags only the zero flag is there. -/
structure Cpu where
  reg : Reg → BitVec 64
  zf : Bool
  mxcsr : BitVec 32
  fcw : BitVec 16

structure State where
  cpu : Cpu
  mem : Mem

/-- An operation, after which the next instruction follows. -/
inductive Op where
  | xor (src dst : Reg)
  | inc (dst : Reg)
  /-- `lock xchg src, (base)` -/
  | lockXchg (src base : Reg)
  | cmp (imm : BitVec 64) (src : Reg)
  | and (imm : BitVec 64) (dst : Reg)
  /-- `lock and imm, (base)`, on 32 bits. -/
  | lockAnd (imm : BitVec 32) (base : Reg)
  | push (src : Reg)
  | pop (dst : Reg)
  | lea (disp : BitVec 64) (base dst : Reg)
  /-- `lea label(%rip), dst` -/
  | leaRip (label : ℕ) (dst : Reg)
  | mov (src dst : Reg)
  | movImm (imm : BitVec 64) (dst : Reg)
  /-- `mov src, disp(base)` -/
  | movTo (src : Reg) (disp : BitVec 64) (base : Reg)
  | stmxcsr (disp : BitVec 64) (base : Reg)
  | ldmxcsr (disp : BitVec 64) (base : Reg)
  | fnstcw (disp : BitVec 64) (base : Reg)
  | fldcw (disp : BitVec 64) (base : Reg)
  deriving DecidableEq, Repr

inductive Instr where
  | op (o : Op)
  | je (target : ℕ)
  /-- `jmp *src` -/
  | jmp (src : Reg)
  | ret
  | call (symbol : String)
  | hlt
  deriving DecidableEq, Repr

/-- Where a machine is: at an instruction of the routine, at an address elsewhere, in an
    external function, or at rest. -/
inductive Loc where
  | inside (i : ℕ)
  | outside (a : Addr)
  | external (symbol : String)
  | halted
  deriving DecidableEq, Repr

def Cpu.set (c : Cpu) (r : Reg) (x : BitVec 64) : Cpu := { c with reg := update c.reg r x }

/-- What an operation does. -/
def Op.exec (addr : ℕ → Addr) (s : State) : Op → State
  | .xor src dst =>
      { s with cpu := { s.cpu.set dst (s.cpu.reg dst ^^^ s.cpu.reg src) with
          zf := s.cpu.reg dst ^^^ s.cpu.reg src == 0 } }
  | .inc dst =>
      { s with cpu := { s.cpu.set dst (s.cpu.reg dst + 1) with zf := s.cpu.reg dst + 1 == 0 } }
  | .lockXchg src base =>
      { cpu := s.cpu.set src (load 8 s.mem (s.cpu.reg base))
        mem := store 8 s.mem (s.cpu.reg base) (s.cpu.reg src) }
  | .cmp imm src => { s with cpu := { s.cpu with zf := s.cpu.reg src == imm } }
  | .and imm dst =>
      { s with cpu := { s.cpu.set dst (s.cpu.reg dst &&& imm) with
          zf := s.cpu.reg dst &&& imm == 0 } }
  | .lockAnd imm base =>
      { cpu := { s.cpu with zf := load 4 s.mem (s.cpu.reg base) &&& imm == 0 }
        mem := store 4 s.mem (s.cpu.reg base) (load 4 s.mem (s.cpu.reg base) &&& imm) }
  | .push src =>
      { cpu := s.cpu.set .rsp (s.cpu.reg .rsp - 8)
        mem := store 8 s.mem (s.cpu.reg .rsp - 8) (s.cpu.reg src) }
  | .pop dst =>
      { s with cpu :=
          (s.cpu.set .rsp (s.cpu.reg .rsp + 8)).set dst (load 8 s.mem (s.cpu.reg .rsp)) }
  | .lea disp base dst => { s with cpu := s.cpu.set dst (s.cpu.reg base + disp) }
  | .leaRip label dst => { s with cpu := s.cpu.set dst (addr label) }
  | .mov src dst => { s with cpu := s.cpu.set dst (s.cpu.reg src) }
  | .movImm imm dst => { s with cpu := s.cpu.set dst imm }
  | .movTo src disp base =>
      { s with mem := store 8 s.mem (s.cpu.reg base + disp) (s.cpu.reg src) }
  | .stmxcsr disp base => { s with mem := store 4 s.mem (s.cpu.reg base + disp) s.cpu.mxcsr }
  | .ldmxcsr disp base =>
      { s with cpu := { s.cpu with mxcsr := load 4 s.mem (s.cpu.reg base + disp) } }
  | .fnstcw disp base => { s with mem := store 2 s.mem (s.cpu.reg base + disp) s.cpu.fcw }
  | .fldcw disp base =>
      { s with cpu := { s.cpu with fcw := load 2 s.mem (s.cpu.reg base + disp) } }

/-- One instruction, at place `i`. -/
def Instr.exec (addr : ℕ → Addr) (i : ℕ) (s : State) : Instr → State × Loc
  | .op o => (o.exec addr s, .inside (i + 1))
  | .je target => (s, .inside (if s.cpu.zf then target else i + 1))
  | .jmp src => (s, .outside (s.cpu.reg src))
  | .ret =>
      ({ s with cpu := s.cpu.set .rsp (s.cpu.reg .rsp + 8) }, .outside (load 8 s.mem (s.cpu.reg .rsp)))
  | .call symbol =>
      ({ cpu := s.cpu.set .rsp (s.cpu.reg .rsp - 8)
         mem := store 8 s.mem (s.cpu.reg .rsp - 8) (addr (i + 1)) }, .external symbol)
  | .hlt => (s, .halted)

/-- One step of a routine. -/
def step (code : List Instr) (addr : ℕ → Addr) : State × Loc → Option (State × Loc)
  | (s, .inside i) => code[i]?.map (Instr.exec addr i s)
  | _ => none

/-- What a block of operations does. -/
def runOps (addr : ℕ → Addr) (ops : List Op) (s : State) : State :=
  ops.foldl (fun s o => o.exec addr s) s

/-! ## §2. Registers and the stack. -/

section Registers

variable {c : Cpu} {r q : Reg} {x y : BitVec 64} {m : Mem} {a f : Addr} {n : ℕ} {addr : ℕ → Addr}

@[simp] theorem Cpu.set_reg_self : (c.set r x).reg r = x := by
  show update c.reg r x r = x
  exact Function.update_self r x c.reg

theorem Cpu.set_reg_ne (h : q ≠ r) : (c.set r x).reg q = c.reg q := by
  show update c.reg r x q = c.reg q
  exact Function.update_of_ne h x c.reg

@[simp] theorem Cpu.set_self : c.set r (c.reg r) = c := by
  unfold Cpu.set
  rw [Function.update_eq_self]

@[simp] theorem Cpu.set_set : (c.set r x).set r y = c.set r y := by
  unfold Cpu.set
  rw [Function.update_idem]

theorem Cpu.set_comm (h : q ≠ r) : (c.set q x).set r y = (c.set r y).set q x := by
  unfold Cpu.set
  rw [Function.update_comm h]

/-- A push, in terms of offsets. -/
theorem push_exec (c : Cpu) (m : Mem) (f : Addr) (n : ℕ) (h : r ≠ .rsp) :
    (Op.push r).exec addr ⟨c.set .rsp (off f (n + 8)), m⟩
      = ⟨c.set .rsp (off f n), store 8 m (off f n) (c.reg r)⟩ := by
  show (⟨(c.set .rsp (off f (n + 8))).set .rsp ((c.set .rsp (off f (n + 8))).reg .rsp - 8),
    store 8 m ((c.set .rsp (off f (n + 8))).reg .rsp - 8) ((c.set .rsp (off f (n + 8))).reg r)⟩
      : State) = _
  rw [Cpu.set_reg_self, Cpu.set_reg_ne h, Cpu.set_set, off_sub_word f (Nat.le_add_left 8 n),
    Nat.add_sub_cancel]

/-- A pop, in terms of offsets. -/
theorem pop_exec (c : Cpu) (m : Mem) (f : Addr) (n : ℕ) (h : r ≠ .rsp) :
    (Op.pop r).exec addr ⟨c.set .rsp (off f n), m⟩
      = ⟨(c.set r (load 8 m (off f n))).set .rsp (off f (n + 8)), m⟩ := by
  show (⟨((c.set .rsp (off f n)).set .rsp ((c.set .rsp (off f n)).reg .rsp + 8)).set r
    (load 8 m ((c.set .rsp (off f n)).reg .rsp)), m⟩ : State) = _
  rw [Cpu.set_reg_self, Cpu.set_set, Cpu.set_comm h.symm, off_add_word]

end Registers

/-! ## §3. Running a routine. -/

variable {code : List Instr} {addr : ℕ → Addr} {s : State} {i : ℕ}

/-- A block of operations in a routine. -/
def BlockAt (code : List Instr) (i : ℕ) (ops : List Op) : Prop :=
  ops.map Instr.op <+: code.drop i

instance (ops : List Op) : Decidable (BlockAt code i ops) := inferInstanceAs (Decidable (_ <+: _))

theorem BlockAt.head {o : Op} {ops : List Op} (h : BlockAt code i (o :: ops)) :
    code[i]? = some (.op o) ∧ BlockAt code (i + 1) ops := by
  obtain ⟨rest, hrest⟩ := h
  have hi : code.drop i = .op o :: (ops.map Instr.op ++ rest) := hrest.symm
  constructor
  · rw [← List.head?_drop, hi]
    rfl
  · refine ⟨rest, ?_⟩
    rw [← List.tail_drop, hi]
    rfl

/-- The next instruction, whatever it is. -/
theorem step_instr {ins : Instr} (h : code[i]? = some ins) :
    step code addr (s, .inside i) = some (ins.exec addr i s) := by
  show code[i]?.map _ = _
  rw [h]
  rfl

end X86
