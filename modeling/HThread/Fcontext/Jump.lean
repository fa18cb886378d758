/-
  HThread.Fcontext.Jump — what a jump does.

  The context that leaves has its registers in a frame below its stack pointer,
  and the address of the frame at `ofc`; the one that goes on has the registers
  of its frame, and its stack pointer just above it.  Nothing else in memory is
  touched, and the lock is free again.

  Key lemmas:
    * `pushFrame_frame`  — the frame that is written holds the registers.
    * `switch_runs`      — the body of a jump.
  Main results:
    * `safe_jump_switches` — `safe_jump_fcontext` from its entry to its jump.
    * `try_jump_switches`  — `try_jump_fcontext` does the same when the lock is free,
      and returns 23 with nothing changed when it is not.
-/
import HThread.Fcontext.Code

namespace HThread.Fcontext

open X86

/-! ## §1. The frame that is written. -/

/-- The registers of a frame, pushed above `f`. -/
def pushRegs (c : Cpu) (f : Addr) (m : Mem) : Mem :=
  store 8 (store 8 (store 8 (store 8 (store 8 (store 8 m (off f 48) (c.reg .rbp))
    (off f 40) (c.reg .rbx)) (off f 32) (c.reg .r15)) (off f 24) (c.reg .r14))
    (off f 16) (c.reg .r13)) (off f 8) (c.reg .r12)

/-- The control words of a frame. -/
def pushFpu (c : Cpu) (f : Addr) (m : Mem) : Mem :=
  store 2 (store 4 m (off f 0) c.mxcsr) (off f 4) c.fcw

/-- The frame that the code pushes; the control words only if `preserve_fpu`. -/
def pushFrame (c : Cpu) (f : Addr) (m : Mem) : Mem :=
  if c.reg .rcx = 0 then pushRegs c f m else pushFpu c f (pushRegs c f m)

variable {c : Cpu} {f : Addr} {m : Mem}

/-- The frame that a call saves, with the return address on top of the stack. -/
def savedFrame (c : Cpu) (rip : Addr) : Frame where
  mxcsr := c.mxcsr
  fcw := c.fcw
  r12 := c.reg .r12
  r13 := c.reg .r13
  r14 := c.reg .r14
  r15 := c.reg .r15
  rbx := c.reg .rbx
  rbp := c.reg .rbp
  rip := rip

/-- A store inside a frame changes nothing outside its first 56 bytes. -/
theorem store_frame_eqOn {w n : ℕ} (m : Mem) (f : Addr) (x : BitVec (8 * w)) (h : n + w ≤ 56) :
    Set.EqOn (store w m (off f n) x) m (span f 56)ᶜ :=
  store_eqOn w m _ x (Set.disjoint_compl_left_iff_subset.mpr (span_off_subset h (by decide)))

theorem pushFrame_eqOn (c : Cpu) (f : Addr) (m : Mem) :
    Set.EqOn (pushFrame c f m) m (span f 56)ᶜ := by
  have hregs : Set.EqOn (pushRegs c f m) m (span f 56)ᶜ := by
    unfold pushRegs
    refine (store_frame_eqOn _ f _ (by decide)).trans ?_
    refine (store_frame_eqOn _ f _ (by decide)).trans ?_
    refine (store_frame_eqOn _ f _ (by decide)).trans ?_
    refine (store_frame_eqOn _ f _ (by decide)).trans ?_
    refine (store_frame_eqOn _ f _ (by decide)).trans ?_
    exact store_frame_eqOn m f _ (by decide)
  unfold pushFrame
  split
  · exact hregs
  · refine (store_frame_eqOn _ f _ (by decide)).trans ?_
    exact (store_frame_eqOn _ f _ (by decide)).trans hregs

/-- **The frame holds the registers.** -/
theorem pushFrame_frame (c : Cpu) (f : Addr) (m : Mem) (hrcx : c.reg .rcx ≠ 0) :
    frameAt (pushFrame c f m) f = savedFrame c (load 8 m (off f 56)) := by
  unfold frameAt pushFrame pushFpu pushRegs
  rw [if_neg hrcx]
  simp (disch := decide) only [load_store, load_store_off]
  rfl

/-! ## §2. The body. -/

variable {addr : ℕ → Addr}

theorem save_runs (c : Cpu) (f : Addr) (m : Mem) :
    runOps addr saveOps ⟨c.set .rsp (off f 56), m⟩
      = ⟨{ c.set .rsp f with zf := c.reg .rcx == 0 }, pushRegs c f m⟩ := by
  simp only [saveOps, runOps, List.foldl]
  rw [push_exec c m f 48 (by decide), push_exec c _ f 40 (by decide), push_exec c _ f 32 (by decide),
    push_exec c _ f 24 (by decide), push_exec c _ f 16 (by decide), push_exec c _ f 8 (by decide)]
  have hlea : off f 8 + -8 = f := by
    rw [← BitVec.sub_eq_add_neg, off_sub_word f (le_refl 8), off_zero]
  simp only [Op.exec, Cpu.set_reg_self, Cpu.set_set, hlea]
  rw [Cpu.set_reg_ne (by decide)]
  rfl

theorem saveFpu_runs (hrsp : c.reg .rsp = f) :
    runOps addr saveFpuOps ⟨c, m⟩ = ⟨c, pushFpu c f m⟩ := by
  subst hrsp
  rfl

theorem swap_runs (hrsp : c.reg .rsp = f) :
    runOps addr swapOps ⟨c, m⟩
      = ⟨{ c.set .rsp (c.reg .rsi) with zf := c.reg .rcx == 0 }, store 8 m (c.reg .rdi) f⟩ := by
  subst hrsp
  have hzero : c.reg .rdi + 0 = c.reg .rdi := BitVec.add_zero _
  show (⟨{ c.set .rsp (c.reg .rsi) with zf := (c.set .rsp (c.reg .rsi)).reg .rcx == 0 },
    store 8 m (c.reg .rdi + 0) (c.reg .rsp)⟩ : State) = _
  rw [hzero, Cpu.set_reg_ne (by decide)]

theorem loadFpu_runs (hrsp : c.reg .rsp = f) :
    runOps addr loadFpuOps ⟨c, m⟩
      = ⟨{ c with
          mxcsr := load 4 m (off f 0)
          fcw := load 2 m (off f 4) }, m⟩ := by
  subst hrsp
  rfl

/-- The registers that come from a frame, and the argument of the jump. -/
def takeRegs (c : Cpu) (n : Addr) (m : Mem) : Reg → BitVec 64
  | .r12 => load 8 m (off n 8)
  | .r13 => load 8 m (off n 16)
  | .r14 => load 8 m (off n 24)
  | .r15 => load 8 m (off n 32)
  | .rbx => load 8 m (off n 40)
  | .rbp => load 8 m (off n 48)
  | .r9 => load 8 m (off n 56)
  | .rsp => off n 64
  | .rax | .rdi => c.reg .rdx
  | r => c.reg r

theorem lea_exec (c : Cpu) (n : Addr) (m : Mem) :
    (Op.lea 8 .rsp .rsp).exec addr ⟨c.set .rsp n, m⟩ = ⟨c.set .rsp (off n 8), m⟩ := by
  show (⟨(c.set .rsp n).set .rsp ((c.set .rsp n).reg .rsp + 8), m⟩ : State) = _
  rw [Cpu.set_reg_self, Cpu.set_set]
  rfl

theorem restore_runs (c : Cpu) (n : Addr) (m : Mem) :
    runOps addr restoreOps ⟨c.set .rsp n, m⟩
      = ⟨{ c with
          reg := takeRegs c n m
          zf := true }, store 4 m (c.reg .r8) 0⟩ := by
  simp only [restoreOps, runOps, List.foldl]
  rw [lea_exec, pop_exec c m n 8 (by decide), pop_exec _ m n 16 (by decide), pop_exec _ m n 24 (by decide),
    pop_exec _ m n 32 (by decide), pop_exec _ m n 40 (by decide), pop_exec _ m n 48 (by decide),
    pop_exec _ m n 56 (by decide)]
  have hand : ∀ x : BitVec 32, x &&& 0 = 0 := fun x => BitVec.and_zero
  simp only [Op.exec, hand]
  congr 2
  funext r
  cases r <;> rfl

/-- The control words that come from a frame, if `preserve_fpu`. -/
def loadFpu (c : Cpu) (n : Addr) (m : Mem) : Cpu :=
  if c.reg .rcx = 0 then c
  else
    { c with
      mxcsr := load 4 m (off n 0)
      fcw := load 2 m (off n 4) }

/-- The memory when the stack is changed: the frame is at `f`, and its address at `ofc`. -/
def parked (s : State) (f : Addr) : Mem := store 8 (pushFrame s.cpu f s.mem) (s.cpu.reg .rdi) f

/-- The state after the body of a jump, the frame being written at `f`. -/
def switched (s : State) (f : Addr) : State where
  cpu :=
    { loadFpu s.cpu (s.cpu.reg .rsi) (parked s f) with
      reg := takeRegs s.cpu (s.cpu.reg .rsi) (parked s f)
      zf := true }
  mem := store 4 (parked s f) (s.cpu.reg .r8) 0

section Body

variable {code : List Instr} {b : ℕ} {r w : Set Addr}

/-- A push inside a frame stays in it. -/
theorem push_stays {x : Reg} {ops : List Op} {n : ℕ} (hx : x ≠ .rsp) (hn : n + 8 ≤ 56)
    (hw : span f 56 ⊆ w)
    (h : Stays addr r w ops ⟨c.set .rsp (off f n), store 8 m (off f n) (c.reg x)⟩) :
    Stays addr r w (.push x :: ops) ⟨c.set .rsp (off f (n + 8)), m⟩ := by
  refine ⟨Set.empty_subset r, ?_, ?_⟩
  · show span ((c.set .rsp (off f (n + 8))).reg .rsp - 8) 8 ⊆ w
    rw [Cpu.set_reg_self, off_sub_word f (Nat.le_add_left 8 n), Nat.add_sub_cancel]
    exact (span_off_subset hn (by decide)).trans hw
  · rw [push_exec c m f n hx]
    exact h

variable (addr) in
theorem save_stays (c : Cpu) (m : Mem) (hw : span f 56 ⊆ w) :
    Stays addr r w saveOps ⟨c.set .rsp (off f 56), m⟩ := by
  refine push_stays (n := 48) (by decide) (by decide) hw ?_
  refine push_stays (n := 40) (by decide) (by decide) hw ?_
  refine push_stays (n := 32) (by decide) (by decide) hw ?_
  refine push_stays (n := 24) (by decide) (by decide) hw ?_
  refine push_stays (n := 16) (by decide) (by decide) hw ?_
  refine push_stays (n := 8) (by decide) (by decide) hw ?_
  exact ⟨Set.empty_subset r, Set.empty_subset w, Set.empty_subset r, Set.empty_subset w, trivial⟩

/-- A pop inside a frame stays in it. -/
theorem pop_stays {x : Reg} {ops : List Op} {n : ℕ} (hx : x ≠ .rsp) (hn : n + 8 ≤ 64)
    (hr : span f 64 ⊆ r)
    (h : Stays addr r w ops ⟨(c.set x (load 8 m (off f n))).set .rsp (off f (n + 8)), m⟩) :
    Stays addr r w (.pop x :: ops) ⟨c.set .rsp (off f n), m⟩ := by
  refine ⟨?_, Set.empty_subset w, ?_⟩
  · show span ((c.set .rsp (off f n)).reg .rsp) 8 ⊆ r
    rw [Cpu.set_reg_self]
    exact (span_off_subset hn (by decide)).trans hr
  · rw [pop_exec c m f n hx]
    exact h

variable (addr) in
theorem restore_stays (c : Cpu) (n : Addr) (m : Mem) (hr : span n 64 ⊆ r)
    (hlock : span (c.reg .r8) 4 ⊆ r) (hw : span (c.reg .r8) 4 ⊆ w) :
    Stays addr r w restoreOps ⟨c.set .rsp n, m⟩ := by
  refine ⟨Set.empty_subset r, Set.empty_subset w, ?_⟩
  rw [lea_exec]
  refine pop_stays (n := 8) (by decide) (by decide) hr ?_
  refine pop_stays (n := 16) (by decide) (by decide) hr ?_
  refine pop_stays (n := 24) (by decide) (by decide) hr ?_
  refine pop_stays (n := 32) (by decide) (by decide) hr ?_
  refine pop_stays (n := 40) (by decide) (by decide) hr ?_
  refine pop_stays (n := 48) (by decide) (by decide) hr ?_
  refine pop_stays (n := 56) (by decide) (by decide) hr ?_
  exact ⟨Set.empty_subset r, Set.empty_subset w, Set.empty_subset r, Set.empty_subset w,
    hlock, hw, trivial⟩

variable (addr) in
/-- The frame is written. -/
theorem save_part (h : SwitchAt code b) (c : Cpu) (m : Mem) (hw : span f 56 ⊆ w) :
    Path code addr r w (⟨c.set .rsp (off f 56), m⟩, .inside b)
      (⟨({ c with zf := c.reg .rcx == 0 } : Cpu).set .rsp f, pushFrame c f m⟩,
        .inside (b + 11)) := by
  have hsave := Path.ops h.save (save_stays addr (r := r) c m hw)
  rw [save_runs] at hsave
  by_cases hrcx : c.reg .rcx = 0
  · rw [pushFrame, if_pos hrcx]
    exact hsave.trans (.je_eq h.skipSave (beq_iff_eq.mpr hrcx))
  · have hin : Stays addr r w saveFpuOps
        ⟨({ c with zf := c.reg .rcx == 0 } : Cpu).set .rsp f, pushRegs c f m⟩ := by
      refine ⟨Set.empty_subset r, ?_, Set.empty_subset r, ?_, trivial⟩
      · exact (span_off_subset (c := 0) (by decide) (by decide)).trans hw
      · exact (span_off_subset (c := 4) (by decide) (by decide)).trans hw
    have hfpu := Path.ops h.saveFpu hin
    rw [saveFpu_runs (f := f) Cpu.set_reg_self] at hfpu
    rw [pushFrame, if_neg hrcx]
    exact (hsave.trans (.je_ne h.skipSave (beq_eq_false_iff_ne.mpr hrcx))).trans hfpu

variable (addr) in
/-- The stack is changed, and the control words are loaded. -/
theorem swap_part (h : SwitchAt code b) (c : Cpu) (f : Addr) (m : Mem) (z : Bool)
    (hr : span (c.reg .rsi) 64 ⊆ r) (hw : span (c.reg .rdi) 8 ⊆ w) :
    Path code addr r w (⟨({ c with zf := z } : Cpu).set .rsp f, m⟩, .inside (b + 11))
      (⟨({ loadFpu c (c.reg .rsi) (store 8 m (c.reg .rdi) f) with
        zf := c.reg .rcx == 0 } : Cpu).set .rsp (c.reg .rsi), store 8 m (c.reg .rdi) f⟩,
        .inside (b + 17)) := by
  have hin : Stays addr r w swapOps ⟨({ c with zf := z } : Cpu).set .rsp f, m⟩ := by
    refine ⟨Set.empty_subset r, ?_, Set.empty_subset r, Set.empty_subset w, Set.empty_subset r,
      Set.empty_subset w, trivial⟩
    show span ((({ c with zf := z } : Cpu).set .rsp f).reg .rdi + 0) 8 ⊆ w
    rw [Cpu.set_reg_ne (by decide)]
    exact (span_off_subset (c := 0) (by decide) (by decide)).trans hw
  have hswap := Path.ops h.swap hin
  rw [swap_runs (f := f) Cpu.set_reg_self, Cpu.set_reg_ne (by decide), Cpu.set_reg_ne (by decide),
    Cpu.set_reg_ne (by decide), Cpu.set_set] at hswap
  by_cases hrcx : c.reg .rcx = 0
  · rw [loadFpu, if_pos hrcx]
    exact hswap.trans (.je_eq h.skipLoad (beq_iff_eq.mpr hrcx))
  · have hin : Stays addr r w loadFpuOps
        ⟨({ c with zf := c.reg .rcx == 0 } : Cpu).set .rsp (c.reg .rsi),
          store 8 m (c.reg .rdi) f⟩ := by
      refine ⟨?_, Set.empty_subset w, ?_, Set.empty_subset w, trivial⟩
      · exact (span_off_subset (c := 0) (by decide) (by decide)).trans hr
      · exact (span_off_subset (c := 4) (by decide) (by decide)).trans hr
    have hfpu := Path.ops h.loadFpu hin
    rw [loadFpu_runs (f := c.reg .rsi) Cpu.set_reg_self] at hfpu
    rw [loadFpu, if_neg hrcx]
    exact (hswap.trans (.je_ne h.skipLoad (beq_eq_false_iff_ne.mpr hrcx))).trans hfpu

/-- What a jump reads: the frame it goes on with, and the lock. -/
def jumpReads (c : Cpu) : Set Addr := span (c.reg .rsi) 64 ∪ span (c.reg .r8) 8

/-- What a jump writes: the frame it leaves, `*ofc`, and the lock. -/
def jumpWrites (c : Cpu) (f : Addr) : Set Addr :=
  span f 56 ∪ span (c.reg .rdi) 8 ∪ span (c.reg .r8) 8

theorem span_mono {a : Addr} {n k : ℕ} (h : n ≤ k) : span a n ⊆ span a k :=
  fun _ hy => lt_of_lt_of_le hy h

/-- **The body of a jump.** -/
theorem switch_runs (h : SwitchAt code b) (s : State) (f : Addr)
    (hrsp : s.cpu.reg .rsp = off f 56) :
    Path code addr (jumpReads s.cpu) (jumpWrites s.cpu f) (s, .inside b)
      (switched s f, .outside (load 8 (parked s f) (off (s.cpu.reg .rsi) 56))) := by
  have htarget : span (s.cpu.reg .rsi) 64 ⊆ jumpReads s.cpu := Set.subset_union_left
  have hlock : span (s.cpu.reg .r8) 4 ⊆ span (s.cpu.reg .r8) 8 := span_mono (by decide)
  have hsave := save_part addr (r := jumpReads s.cpu) (w := jumpWrites s.cpu f) h
    s.cpu s.mem (Set.subset_union_left.trans Set.subset_union_left)
  rw [← hrsp, Cpu.set_self] at hsave
  have hswap := swap_part addr (r := jumpReads s.cpu) (w := jumpWrites s.cpu f) h
    s.cpu f (pushFrame s.cpu f s.mem) (s.cpu.reg .rcx == 0) htarget fun y hy => .inl (.inr hy)
  have hreg : (loadFpu s.cpu (s.cpu.reg .rsi) (parked s f)).reg = s.cpu.reg := by
    unfold loadFpu
    split <;> rfl
  have hin := restore_stays addr (r := jumpReads s.cpu) (w := jumpWrites s.cpu f)
    { loadFpu s.cpu (s.cpu.reg .rsi) (parked s f) with zf := s.cpu.reg .rcx == 0 }
    (s.cpu.reg .rsi) (parked s f) htarget
    (by rw [hreg]; exact hlock.trans Set.subset_union_right)
    (by rw [hreg]; exact hlock.trans Set.subset_union_right)
  have hrestore := Path.ops h.restore hin
  rw [restore_runs] at hrestore
  have htake : ∀ z, takeRegs { loadFpu s.cpu (s.cpu.reg .rsi) (parked s f) with zf := z }
      (s.cpu.reg .rsi) (parked s f) = takeRegs s.cpu (s.cpu.reg .rsi) (parked s f) := by
    intro z
    funext x
    cases x <;> simp only [takeRegs, hreg]
  rw [htake, hreg] at hrestore
  exact ((hsave.trans hswap).trans hrestore).trans
    (.instr (s := switched s f) h.leave (Set.empty_subset _) (Set.empty_subset _))

end Body

/-! ## §3. What a jump does. -/

/-- The four places in memory that a jump uses are apart from each other: the frame it
    writes with the return address above it, the frame it goes on with, `*ofc`, and the lock. -/
structure Apart (s : State) (f : Addr) : Prop where
  frames : Disjoint (span (s.cpu.reg .rsi) 64) (span f 64)
  frameOfc : Disjoint (span f 64) (span (s.cpu.reg .rdi) 8)
  frameLock : Disjoint (span f 64) (span (s.cpu.reg .r8) 8)
  targetOfc : Disjoint (span (s.cpu.reg .rsi) 64) (span (s.cpu.reg .rdi) 8)
  targetLock : Disjoint (span (s.cpu.reg .rsi) 64) (span (s.cpu.reg .r8) 8)
  ofcLock : Disjoint (span (s.cpu.reg .rdi) 8) (span (s.cpu.reg .r8) 8)

/-- A jump from state `s`, which writes its frame at `f`, goes on in state `t` at `dest`. -/
structure Jumped (s : State) (f : Addr) (t : State) (dest : Addr) : Prop where
  saved : frameAt t.mem f = savedFrame s.cpu (load 8 s.mem (off f 56))
  ofc : load 8 t.mem (s.cpu.reg .rdi) = f
  lock : load 8 t.mem (s.cpu.reg .r8) = 0
  rest : Set.EqOn t.mem s.mem (jumpWrites s.cpu f)ᶜ
  taken : savedFrame t.cpu dest = frameAt s.mem (s.cpu.reg .rsi)
  rsp : t.cpu.reg .rsp = off (s.cpu.reg .rsi) 64
  result : t.cpu.reg .rax = s.cpu.reg .rdx
  argument : t.cpu.reg .rdi = s.cpu.reg .rdx

/-- The frame that is gone on with is the one that was there. -/
theorem parked_target {s : State} {f : Addr} (h : Apart s f) :
    frameAt (parked s f) (s.cpu.reg .rsi) = frameAt s.mem (s.cpu.reg .rsi) := by
  apply frameAt_congr
  refine (store_eqOn 8 _ _ _ h.targetOfc).trans ?_
  refine (pushFrame_eqOn s.cpu f s.mem).mono ?_
  exact Set.subset_compl_iff_disjoint_right.mpr (h.frames.mono_right (span_mono (by decide)))

theorem parked_frame {s : State} {f : Addr} (h : Apart s f) (hrcx : s.cpu.reg .rcx ≠ 0) :
    frameAt (parked s f) f = savedFrame s.cpu (load 8 s.mem (off f 56)) := by
  rw [← pushFrame_frame s.cpu f s.mem hrcx]
  exact frameAt_congr (store_eqOn 8 _ _ _ h.frameOfc)

/-- The lock is free again: the release clears its low half only, but no more was set. -/
theorem load_release {m : Mem} {a : Addr} (h : load 8 m a = 1) :
    load 8 (store 4 m a 0) a = 0 := by
  apply BitVec.eq_of_getLsbD_eq
  intro i hi
  rw [getLsbD_load_store (by decide) m a _ hi, h]
  by_cases hlt : i < 32
  · rw [if_pos hlt]
    rfl
  · rw [if_neg hlt]
    have hone : (1#(8 * 8)).getLsbD i = false := by
      rw [BitVec.getLsbD_one, decide_eq_false (show ¬i = 0 by omega), Bool.and_false]
    exact hone.trans BitVec.getLsbD_zero.symm

/-- **The body of a jump, from what it finds to what it leaves.** -/
theorem switched_jumped {s : State} {f : Addr} (h : Apart s f) (hrcx : s.cpu.reg .rcx ≠ 0)
    (hlock : load 8 s.mem (s.cpu.reg .r8) = 1) :
    Jumped s f (switched s f) (load 8 (parked s f) (off (s.cpu.reg .rsi) 56)) := by
  have hlow : span (s.cpu.reg .r8) 4 ⊆ span (s.cpu.reg .r8) 8 := span_mono (by decide)
  have hparked : load 8 (parked s f) (s.cpu.reg .r8) = 1 := by
    rw [← hlock]
    refine load_congr (by decide) ((store_eqOn 8 _ _ _ h.ofcLock.symm).trans ?_)
    refine (pushFrame_eqOn s.cpu f s.mem).mono ?_
    exact Set.subset_compl_iff_disjoint_left.mpr (h.frameLock.mono_left (span_mono (by decide)))
  refine ⟨?_, ?_, load_release hparked, ?_, ?_, rfl, rfl, rfl⟩
  · rw [← parked_frame h hrcx]
    exact frameAt_congr (store_eqOn 4 _ _ _ (h.frameLock.mono_right hlow))
  · show load 8 (store 4 (parked s f) _ 0) _ = f
    rw [load_store_disjoint (by decide) _ _ (h.ofcLock.mono_right hlow)]
    exact load_store (by decide) _ _ _
  · have hout : ∀ x : Set Addr, x ⊆ jumpWrites s.cpu f → Disjoint (jumpWrites s.cpu f)ᶜ x := fun x hx =>
      Set.disjoint_compl_left_iff_subset.mpr hx
    refine (store_eqOn 4 _ _ _ (hout _ (hlow.trans Set.subset_union_right))).trans ?_
    refine (store_eqOn 8 _ _ _ (hout _ fun y hy => .inl (.inr hy))).trans ?_
    exact (pushFrame_eqOn s.cpu f s.mem).mono (Set.compl_subset_compl.mpr fun y hy => .inl (.inl hy))
  · rw [← parked_target h]
    show savedFrame { loadFpu s.cpu (s.cpu.reg .rsi) (parked s f) with reg := _, zf := true } _ = _
    rw [loadFpu, if_neg hrcx]
    rfl

/-! ## §4. The two entries. -/

/-- The state in which the lock has been taken. -/
def entered (s : State) (z : Bool) : State where
  cpu := ({ s.cpu with zf := z } : Cpu).set .r9 (load 8 s.mem (s.cpu.reg .r8))
  mem := store 8 s.mem (s.cpu.reg .r8) 1

variable (addr) in
theorem one_runs (s : State) :
    runOps addr [.xor .r9 .r9, .inc .r9] s
      = ⟨({ s.cpu with zf := false } : Cpu).set .r9 1, s.mem⟩ := by
  have hzero : s.cpu.reg .r9 ^^^ s.cpu.reg .r9 = 0 := BitVec.xor_self
  simp only [runOps, List.foldl, Op.exec, hzero]
  show (⟨{ ((s.cpu.set .r9 0).set .r9 ((s.cpu.set .r9 0).reg .r9 + 1)) with
    zf := (s.cpu.set .r9 0).reg .r9 + 1 == 0 }, s.mem⟩ : State) = _
  rw [Cpu.set_reg_self, Cpu.set_set]
  rfl

theorem take_runs (c : Cpu) (m : Mem) (imm : BitVec 64) :
    runOps addr [.lockXchg .r9 .r8, .cmp imm .r9] ⟨c.set .r9 1, m⟩
      = entered ⟨c, m⟩ (load 8 m (c.reg .r8) == imm) := by
  have hr8 : (c.set .r9 1).reg .r8 = c.reg .r8 := Cpu.set_reg_ne (by decide)
  simp only [runOps, List.foldl, Op.exec, hr8, Cpu.set_reg_self, Cpu.set_set]
  rfl

variable (addr) in
theorem take_stays {r w : Set Addr} (c : Cpu) (m : Mem) (imm : BitVec 64)
    (hr : span (c.reg .r8) 8 ⊆ r) (hw : span (c.reg .r8) 8 ⊆ w) :
    Stays addr r w [.lockXchg .r9 .r8, .cmp imm .r9] ⟨c.set .r9 1, m⟩ := by
  have hr8 : (c.set .r9 1).reg .r8 = c.reg .r8 := Cpu.set_reg_ne (by decide)
  refine ⟨?_, ?_, Set.empty_subset r, Set.empty_subset w, trivial⟩
  · show span ((c.set .r9 1).reg .r8) 8 ⊆ r
    rw [hr8]
    exact hr
  · show span ((c.set .r9 1).reg .r8) 8 ⊆ w
    rw [hr8]
    exact hw

/-- Taking the lock does not touch the frames. -/
theorem Jumped.of_entered {s t : State} {f dest : Addr} {z : Bool} (h : Apart s f)
    (hj : Jumped (entered s z) f t dest) : Jumped s f t dest := by
  have hlock : ∀ x : Set Addr, Disjoint x (span (s.cpu.reg .r8) 8) →
      Set.EqOn (entered s z).mem s.mem x := fun x hx => store_eqOn 8 s.mem _ _ hx
  refine ⟨?_, hj.ofc, hj.lock, ?_, ?_, hj.rsp, hj.result, hj.argument⟩
  · have hret : load 8 (entered s z).mem (off f 56) = load 8 s.mem (off f 56) :=
      load_congr (by decide)
        (hlock _ (h.frameLock.mono_left (span_off_subset (by decide) (by decide))))
    rw [hj.saved, hret]
    rfl
  · exact hj.rest.trans (hlock _ (Set.disjoint_compl_left_iff_subset.mpr Set.subset_union_right))
  · rw [hj.taken]
    exact frameAt_congr (hlock _ h.targetLock)

/-- From the lock on, both jumps do the same. -/
theorem entered_switches {code : List Instr} {b : ℕ} (hcode : SwitchAt code b) (addr : ℕ → Addr)
    {s : State} {f : Addr} (z : Bool) (hrsp : s.cpu.reg .rsp = off f 56) (h : Apart s f)
    (hfpu : s.cpu.reg .rcx ≠ 0) :
    ∃ t dest, Path code addr (jumpReads s.cpu) (jumpWrites s.cpu f) (entered s z, .inside b)
      (t, .outside dest) ∧ Jumped s f t dest := by
  have hapart : Apart (entered s z) f :=
    ⟨h.frames, h.frameOfc, h.frameLock, h.targetOfc, h.targetLock, h.ofcLock⟩
  exact ⟨_, _, switch_runs hcode (entered s z) f hrsp,
    (switched_jumped hapart hfpu (load_store (by decide) _ _ _)).of_entered h⟩

/-- The first two instructions of both. -/
theorem first_part {code : List Instr} {r w : Set Addr}
    (h : BlockAt code 0 [.xor .r9 .r9, .inc .r9]) (s : State) :
    Path code addr r w (s, .inside 0)
      (⟨({ s.cpu with zf := false } : Cpu).set .r9 1, s.mem⟩, .inside 2) := by
  rw [← one_runs addr]
  exact .ops h ⟨Set.empty_subset r, Set.empty_subset w, Set.empty_subset r, Set.empty_subset w,
    trivial⟩

variable (addr) in
/-- The lock is taken, and what was there is tested. -/
theorem take_part {code : List Instr} {imm : BitVec 64} {r w : Set Addr}
    (hone : BlockAt code 0 [.xor .r9 .r9, .inc .r9])
    (htake : BlockAt code 2 [.lockXchg .r9 .r8, .cmp imm .r9]) (s : State)
    (hr : span (s.cpu.reg .r8) 8 ⊆ r) (hw : span (s.cpu.reg .r8) 8 ⊆ w) :
    Path code addr r w (s, .inside 0)
      (entered s (load 8 s.mem (s.cpu.reg .r8) == imm), .inside 4) := by
  have hsecond := Path.ops htake
    (take_stays addr { s.cpu with zf := false } s.mem imm hr hw)
  rw [take_runs] at hsecond
  exact (first_part hone s).trans hsecond

/-- `safe_jump_fcontext`, the lock being free. -/
theorem safe_enters (addr : ℕ → Addr) {s : State} {f : Addr}
    (hrsp : s.cpu.reg .rsp = off f 56) (h : Apart s f) (hfpu : s.cpu.reg .rcx ≠ 0)
    (hlock : load 8 s.mem (s.cpu.reg .r8) = 0) :
    ∃ t dest, Path safeJumpFcontext addr (jumpReads s.cpu) (jumpWrites s.cpu f) (s, .inside 0)
      (t, .outside dest) ∧ Jumped s f t dest := by
  obtain ⟨t, dest, hbody, hj⟩ := entered_switches safe_switch addr false hrsp h hfpu
  have hone : BlockAt safeJumpFcontext 0 [.xor .r9 .r9, .inc .r9] := by decide
  have hlockOps : BlockAt safeJumpFcontext 2 [.lockXchg .r9 .r8, .cmp 1 .r9] := by decide
  have htake := take_part addr (r := jumpReads s.cpu) (w := jumpWrites s.cpu f) hone hlockOps s
    Set.subset_union_right Set.subset_union_right
  have hz : (load 8 s.mem (s.cpu.reg .r8) == 1) = false := by
    rw [hlock]
    rfl
  rw [hz] at htake
  have hskip : safeJumpFcontext[4]? = some (.je 2) := rfl
  exact ⟨t, dest, (htake.trans (.je_ne hskip rfl)).trans hbody, hj⟩

/-- The state of `safe_jump_fcontext` while the lock is not free. -/
structure Waits (s : State) (p : State × Loc) : Prop where
  mem : p.1.mem = s.mem
  lock : p.1.cpu.reg .r8 = s.cpu.reg .r8
  pc : p.2 = .inside 0 ∨ p.2 = .inside 1 ∧ p.1.cpu.reg .r9 = 0 ∨
    p.2 = .inside 2 ∧ p.1.cpu.reg .r9 = 1 ∨ p.2 = .inside 3 ∧ p.1.cpu.reg .r9 = 1 ∨
    p.2 = .inside 4 ∧ p.1.cpu.reg .r9 = 1 ∧ p.1.cpu.zf = true

theorem Waits.step {s : State} {p q : State × Loc} (hlock : load 8 s.mem (s.cpu.reg .r8) = 1)
    (h : Waits s p) (hstep : step safeJumpFcontext addr p = some q) : Waits s q := by
  obtain ⟨⟨c, m⟩, pc⟩ := p
  obtain ⟨rfl, hr8, hpc⟩ := h
  have hr8 : c.reg .r8 = s.cpu.reg .r8 := hr8
  rcases hpc with hpc | ⟨hpc, hr9⟩ | ⟨hpc, hr9⟩ | ⟨hpc, hr9⟩ | ⟨hpc, hr9, hz⟩ <;>
    obtain rfl : pc = _ := hpc
  · rw [step_instr (show safeJumpFcontext[0]? = some (.op (.xor .r9 .r9)) from rfl)] at hstep
    obtain rfl := Option.some.inj hstep
    refine ⟨rfl, hr8, .inr (.inl ⟨rfl, ?_⟩)⟩
    show c.reg .r9 ^^^ c.reg .r9 = 0
    exact BitVec.xor_self
  · rw [step_instr (show safeJumpFcontext[1]? = some (.op (.inc .r9)) from rfl)] at hstep
    obtain rfl := Option.some.inj hstep
    refine ⟨rfl, hr8, .inr (.inr (.inl ⟨rfl, ?_⟩))⟩
    have hr9 : c.reg .r9 = 0 := hr9
    show c.reg .r9 + 1 = 1
    rw [hr9]
    rfl
  · -- the exchange finds 1 and leaves 1
    rw [step_instr (show safeJumpFcontext[2]? = some (.op (.lockXchg .r9 .r8)) from rfl)] at hstep
    obtain rfl := Option.some.inj hstep
    have hr9 : c.reg .r9 = 1 := hr9
    refine ⟨?_, hr8, .inr (.inr (.inr (.inl ⟨rfl, ?_⟩)))⟩
    · show store 8 s.mem (c.reg .r8) (c.reg .r9) = s.mem
      rw [hr8, hr9, ← hlock]
      exact store_load 8 s.mem _
    · show load 8 s.mem (c.reg .r8) = 1
      rw [hr8, hlock]
  · rw [step_instr (show safeJumpFcontext[3]? = some (.op (.cmp 1 .r9)) from rfl)] at hstep
    obtain rfl := Option.some.inj hstep
    exact ⟨rfl, hr8, .inr (.inr (.inr (.inr ⟨rfl, hr9, beq_iff_eq.mpr hr9⟩)))⟩
  · rw [step_instr (show safeJumpFcontext[4]? = some (.je 2) from rfl)] at hstep
    have hz : c.zf = true := hz
    rw [Instr.exec, if_pos hz] at hstep
    obtain rfl := Option.some.inj hstep
    exact ⟨rfl, hr8, .inr (.inr (.inl ⟨rfl, hr9⟩))⟩

/-- It goes through its first instructions again and again, and changes nothing in memory. -/
theorem safe_waits (addr : ℕ → Addr) {s : State} {r w : Set Addr} {p : State × Loc}
    (hlock : load 8 s.mem (s.cpu.reg .r8) = 1)
    (h : Path safeJumpFcontext addr r w (s, .inside 0) p) : Waits s p := by
  induction h with
  | refl => exact ⟨rfl, rfl, .inl rfl⟩
  | tail _ hone ih => exact ih.step hlock hone.step

/-- **`safe_jump_fcontext`** switches contexts if the lock is free, reading and writing its own
    places only; while the lock is taken, it neither leaves its first instructions nor changes
    anything in memory. -/
theorem safe_jump_switches (addr : ℕ → Addr) {s : State} {f : Addr}
    (hrsp : s.cpu.reg .rsp = off f 56) (h : Apart s f) (hfpu : s.cpu.reg .rcx ≠ 0) :
    (load 8 s.mem (s.cpu.reg .r8) = 0 →
      ∃ t dest, Path safeJumpFcontext addr (jumpReads s.cpu) (jumpWrites s.cpu f) (s, .inside 0)
        (t, .outside dest) ∧ Jumped s f t dest) ∧
    (load 8 s.mem (s.cpu.reg .r8) = 1 →
      ∀ r w p, Path safeJumpFcontext addr r w (s, .inside 0) p → Waits s p) :=
  ⟨fun hlock => safe_enters addr hrsp h hfpu hlock, fun hlock _ _ _ hp => safe_waits addr hlock hp⟩

/-- A call with its four places one after the other, in a memory that is all zero. -/
def sampleCall : State where
  cpu :=
    { reg := fun
        | .rsp => 0x1038
        | .rsi => 0x2000
        | .rdi => 0x3000
        | .r8 => 0x4000
        | .rcx => 1
        | _ => 0
      zf := false
      mxcsr := 0x1f80
      fcw := 0x37f }
  mem _ := 0

theorem sampleCall_apart : Apart sampleCall 0x1000 where
  frames := (span_disjoint (by decide) (by decide)).symm
  frameOfc := span_disjoint (by decide) (by decide)
  frameLock := span_disjoint (by decide) (by decide)
  targetOfc := span_disjoint (by decide) (by decide)
  targetLock := span_disjoint (by decide) (by decide)
  ofcLock := span_disjoint (by decide) (by decide)

theorem safe_jump_switches_sample :
    ∃ t dest, Path safeJumpFcontext (fun _ => 0) (jumpReads sampleCall.cpu)
      (jumpWrites sampleCall.cpu 0x1000) (sampleCall, .inside 0) (t, .outside dest) ∧
      Jumped sampleCall 0x1000 t dest :=
  (safe_jump_switches (fun _ => 0) (s := sampleCall) (by decide) sampleCall_apart (by decide)).1
    (by decide)

/-- **`try_jump_fcontext`** does what `safe_jump_fcontext` does if the lock is free; if it is
    taken, it returns 23 to its caller, and nothing is changed that the caller may rely on. -/
theorem try_jump_switches (addr : ℕ → Addr) {s : State} {f : Addr}
    (hrsp : s.cpu.reg .rsp = off f 56) (h : Apart s f) (hfpu : s.cpu.reg .rcx ≠ 0) :
    (load 8 s.mem (s.cpu.reg .r8) = 0 →
      ∃ t dest, Path tryJumpFcontext addr (jumpReads s.cpu) (jumpWrites s.cpu f) (s, .inside 0)
        (t, .outside dest) ∧ Jumped s f t dest) ∧
    (load 8 s.mem (s.cpu.reg .r8) = 1 →
      ∃ t dest, Path tryJumpFcontext addr (span (s.cpu.reg .r8) 8 ∪ span (off f 56) 8)
          (span (s.cpu.reg .r8) 8) (s, .inside 0) (t, .outside dest) ∧
        dest = load 8 s.mem (off f 56) ∧ t.mem = s.mem ∧ t.cpu.reg .rax = 23 ∧
        t.cpu.reg .rsp = off f 64 ∧ savedFrame t.cpu dest = savedFrame s.cpu dest) := by
  have hbranch : tryJumpFcontext[4]? = some (.je 7) := rfl
  have hone : BlockAt tryJumpFcontext 0 [.xor .r9 .r9, .inc .r9] := by decide
  have htake : BlockAt tryJumpFcontext 2 [.lockXchg .r9 .r8, .cmp 0 .r9] := by decide
  constructor
  · intro hlock
    obtain ⟨t, dest, hbody, hj⟩ := entered_switches try_switch addr true hrsp h hfpu
    have hfirst := take_part addr (r := jumpReads s.cpu) (w := jumpWrites s.cpu f)
      hone htake s Set.subset_union_right Set.subset_union_right
    have hz : (load 8 s.mem (s.cpu.reg .r8) == 0) = true := by
      rw [hlock]
      rfl
    rw [hz] at hfirst
    exact ⟨t, dest, (hfirst.trans (.je_eq hbranch rfl)).trans hbody, hj⟩
  · intro hlock
    have hfirst := take_part addr (r := span (s.cpu.reg .r8) 8 ∪ span (off f 56) 8)
      (w := span (s.cpu.reg .r8) 8) hone htake s Set.subset_union_left Set.Subset.rfl
    have hz : (load 8 s.mem (s.cpu.reg .r8) == 0) = false := by
      rw [hlock]
      rfl
    rw [hz] at hfirst
    have hmem : (entered s false).mem = s.mem := by
      show store 8 s.mem _ 1 = s.mem
      rw [← hlock]
      exact store_load 8 s.mem _
    have hno : BlockAt tryJumpFcontext 5 [.movImm 23 .rax] := by decide
    have hmov : Path tryJumpFcontext addr (span (s.cpu.reg .r8) 8 ∪ span (off f 56) 8)
        (span (s.cpu.reg .r8) 8) (entered s false, .inside 5)
        (runOps addr [.movImm 23 .rax] (entered s false), .inside 6) :=
      .ops hno ⟨Set.empty_subset _, Set.empty_subset _, trivial⟩
    have hrsp' : (runOps addr [.movImm 23 .rax] (entered s false)).cpu.reg .rsp = off f 56 := hrsp
    have hret : Path tryJumpFcontext addr (span (s.cpu.reg .r8) 8 ∪ span (off f 56) 8)
        (span (s.cpu.reg .r8) 8) (runOps addr [.movImm 23 .rax] (entered s false), .inside 6)
        (Instr.ret.exec addr 6 (runOps addr [.movImm 23 .rax] (entered s false))) := by
      refine .instr (show tryJumpFcontext[6]? = some .ret from rfl) ?_ (Set.empty_subset _)
      show span ((runOps addr [.movImm 23 .rax] (entered s false)).cpu.reg .rsp) 8 ⊆ _
      rw [hrsp']
      exact Set.subset_union_right
    refine ⟨_, _, ((hfirst.trans (.je_ne hbranch rfl)).trans hmov).trans hret, ?_, hmem, rfl, ?_, rfl⟩
    · show load 8 (entered s false).mem _ = _
      rw [hmem]
      exact congrArg _ hrsp
    · show s.cpu.reg .rsp + 8 = off f 64
      rw [hrsp, off_add_word]

theorem try_jump_switches_sample :
    ∃ t dest, Path tryJumpFcontext (fun _ => 0) (jumpReads sampleCall.cpu)
      (jumpWrites sampleCall.cpu 0x1000) (sampleCall, .inside 0) (t, .outside dest) ∧
      Jumped sampleCall 0x1000 t dest :=
  (try_jump_switches (fun _ => 0) (s := sampleCall) (by decide) sampleCall_apart (by decide)).1
    (by decide)

end HThread.Fcontext
