/-
  HThread.Fcontext.Make — the first frame of a stack.

  `make_fcontext(sp, size, fn)` writes a frame below the top of a new stack, with
  `fn` as the place to go on with and `finish` above it.  A jump to that frame
  then looks to `fn` like a call: its argument is in RDI, its return address is
  `finish`, and the stack is aligned as the calling convention wants it.

  Key lemmas:
    * `topFrame_in`, `topFrame_aligned` — where the frame is.
    * `make_runs`            — the frame is written.
    * `finish_exits`         — what happens if `fn` returns.
  Main results:
    * `make_fcontext_makes`  — the routine from its entry to its return.
    * `made_context_starts`  — the first jump to the new context.
-/
import HThread.Fcontext.Jump

namespace HThread.Fcontext

open X86

variable {addr : ℕ → Addr} {c : Cpu} {m : Mem} {f top : Addr}

/-! ## §1. Where the frame is. -/

/-- The frame of a stack that ends at `top`. -/
def topFrame (top : Addr) : Addr := (top &&& (-16 : Addr)) + -0x48

theorem toNat_align (top : Addr) : (top &&& (-16 : Addr)).toNat = top.toNat / 16 * 16 := by
  have hbit : ∀ i < 64, (-16 : Addr).getLsbD i = decide (4 ≤ i) := by decide
  have hshift : top &&& (-16 : Addr) = (top >>> 4) <<< 4 := by
    apply BitVec.eq_of_getLsbD_eq
    intro i hi
    rw [BitVec.getLsbD_and, hbit i hi, BitVec.getLsbD_shiftLeft, BitVec.getLsbD_ushiftRight]
    by_cases hlt : i < 4
    · simp [hlt]
    · simp [hlt, hi, Nat.not_lt.mp hlt]
  rw [hshift, BitVec.toNat_shiftLeft, BitVec.toNat_ushiftRight, Nat.shiftLeft_eq,
    Nat.shiftRight_eq_div_pow]
  have htop := top.isLt
  omega

theorem toNat_topFrame (top : Addr) :
    (topFrame top).toNat = (top.toNat / 16 * 16 + 0xffffffffffffffb8) % 2 ^ 64 := by
  have hneg : (-0x48 : Addr).toNat = 0xffffffffffffffb8 := by decide
  rw [topFrame, BitVec.toNat_add, toNat_align, hneg]

/-- The frame and the return address above it are in the stack. -/
theorem topFrame_in {sp : Addr} {n : ℕ} (hn : 87 ≤ n) (hlt : sp.toNat + n < 2 ^ 64) :
    span (topFrame (off sp n)) 72 ⊆ span sp n := by
  have hsp := sp.isLt
  have htop : (off sp n).toNat = sp.toNat + n := by
    rw [off, BitVec.toNat_add, BitVec.toNat_ofNat]
    omega
  have hf := toNat_topFrame (off sp n)
  rw [htop] at hf
  have hbelow : (topFrame (off sp n)).toNat + 72 ≤ sp.toNat + n ∧
      sp.toNat ≤ (topFrame (off sp n)).toNat := by omega
  intro y hy
  obtain ⟨i, hi, rfl⟩ := exists_off hy
  have hoff : (off (topFrame (off sp n)) i).toNat = (topFrame (off sp n)).toNat + i := by
    rw [off, BitVec.toNat_add, BitVec.toNat_ofNat]
    omega
  show (off (topFrame (off sp n)) i - sp).toNat < n
  rw [BitVec.toNat_sub, hoff]
  omega

/-- "on context-function entry: (RSP -0x8) % 16 == 0" -/
theorem topFrame_aligned (top : Addr) : (off (topFrame top) 64).toNat % 16 = 8 := by
  have htop := top.isLt
  rw [off, BitVec.toNat_add, toNat_topFrame, BitVec.toNat_ofNat]
  omega

/-! ## §2. The routine. -/

/-- The memory with a new frame at `f`. -/
def makeFrame (c : Cpu) (f fn finish : Addr) (m : Mem) : Mem :=
  store 8 (store 2 (store 4 (store 8 m (off f 56) fn) (off f 0) c.mxcsr) (off f 4) c.fcw)
    (off f 64) finish

/-- What `make_fcontext` leaves to its caller: a frame at `f`. -/
structure MadeAt (s : State) (f finish : Addr) (t : State) : Prop where
  result : t.cpu.reg .rax = f
  mem : t.mem = makeFrame s.cpu f (s.cpu.reg .rdx) finish s.mem
  mxcsr : (frameAt t.mem f).mxcsr = s.cpu.mxcsr
  fcw : (frameAt t.mem f).fcw = s.cpu.fcw
  rip : (frameAt t.mem f).rip = s.cpu.reg .rdx
  exit : load 8 t.mem (off f 64) = finish
  rest : Set.EqOn t.mem s.mem (span f 72)ᶜ
  rsp : t.cpu.reg .rsp = s.cpu.reg .rsp + 8
  kept : ∀ dest, savedFrame t.cpu dest = savedFrame s.cpu dest

theorem makeFrame_eqOn (c : Cpu) (f fn finish : Addr) (m : Mem) :
    Set.EqOn (makeFrame c f fn finish m) m (span f 72)ᶜ := by
  have hstore : ∀ {w n : ℕ} (m : Mem) (x : BitVec (8 * w)), n + w ≤ 72 →
      Set.EqOn (store w m (off f n) x) m (span f 72)ᶜ := fun m x h =>
    store_eqOn _ m _ x (Set.disjoint_compl_left_iff_subset.mpr (span_off_subset h (by decide)))
  unfold makeFrame
  refine (hstore _ _ (by decide)).trans ?_
  refine (hstore _ _ (by decide)).trans ?_
  refine (hstore _ _ (by decide)).trans ?_
  exact hstore m _ (by decide)

theorem makeFrame_loads (c : Cpu) (f fn finish : Addr) (m : Mem) :
    load 4 (makeFrame c f fn finish m) (off f 0) = c.mxcsr ∧
      load 2 (makeFrame c f fn finish m) (off f 4) = c.fcw ∧
      load 8 (makeFrame c f fn finish m) (off f 56) = fn ∧
      load 8 (makeFrame c f fn finish m) (off f 64) = finish := by
  unfold makeFrame
  refine ⟨?_, ?_, ?_, ?_⟩ <;> simp (disch := decide) only [load_store, load_store_off]

/-- The operations up to the place of the frame, and those that write it. -/
def placeOps : List Op := [.mov .rdi .rax, .and (-16) .rax, .lea (-0x48) .rax .rax]

def writeOps : List Op :=
  [.movTo .rdx 0x38 .rax, .stmxcsr 0 .rax, .fnstcw 4 .rax, .leaRip 9 .rcx, .movTo .rcx 0x40 .rax]

theorem place_runs (s : State) :
    runOps addr placeOps s
      = ⟨({ s.cpu with zf := s.cpu.reg .rdi &&& (-16 : Addr) == 0 } : Cpu).set .rax
          (topFrame (s.cpu.reg .rdi)), s.mem⟩ := by
  simp only [placeOps, runOps, List.foldl, Op.exec, Cpu.set_reg_self, Cpu.set_set]
  unfold Cpu.set
  simp only [Function.update_idem]
  rfl

theorem write_stays {r w : Set Addr} (c : Cpu) (f : Addr) (m : Mem) (hw : span f 72 ⊆ w) :
    Stays addr r w writeOps ⟨c.set .rax f, m⟩ := by
  have hin : ∀ {v n : ℕ}, n + v ≤ 72 → span (off f n) v ⊆ w := fun h =>
    (span_off_subset h (by decide)).trans hw
  refine ⟨Set.empty_subset r, ?_, Set.empty_subset r, ?_, Set.empty_subset r, ?_,
    Set.empty_subset r, Set.empty_subset w, Set.empty_subset r, ?_, trivial⟩
  · exact hin (n := 56) (v := 8) (by decide)
  · exact hin (n := 0) (v := 4) (by decide)
  · exact hin (n := 4) (v := 2) (by decide)
  · exact hin (n := 64) (v := 8) (by decide)

variable (addr) in
/-- From the place of the frame to the return. -/
theorem write_part {r w : Set Addr} (c : Cpu) (f : Addr) (m : Mem)
    (hret : Disjoint (span (c.reg .rsp) 8) (span f 72)) (hr : span (c.reg .rsp) 8 ⊆ r)
    (hw : span f 72 ⊆ w) :
    ∃ t, Path makeFcontext addr r w (⟨c.set .rax f, m⟩, .inside 3)
        (t, .outside (load 8 m (c.reg .rsp))) ∧ MadeAt ⟨c, m⟩ f (addr 9) t := by
  have hwrite : BlockAt makeFcontext 3 writeOps := by decide
  have hlast : makeFcontext[8]? = some .ret := rfl
  have hread : load 8 (makeFrame c f (c.reg .rdx) (addr 9) m) (c.reg .rsp) = load 8 m (c.reg .rsp) :=
    load_congr (by decide)
      ((makeFrame_eqOn c f _ _ m).mono (Set.subset_compl_iff_disjoint_right.mpr hret))
  obtain ⟨hmxcsr, hfcw, hrip, hexit⟩ := makeFrame_loads c f (c.reg .rdx) (addr 9) m
  refine ⟨⟨((c.set .rax f).set .rcx (addr 9)).set .rsp (c.reg .rsp + 8),
    makeFrame c f (c.reg .rdx) (addr 9) m⟩, ?_, ?_, rfl, hmxcsr, hfcw, hrip, hexit,
    makeFrame_eqOn c f _ _ m, ?_, fun _ => rfl⟩
  · rw [← hread]
    exact (Path.ops hwrite (write_stays c f m hw)).trans
      (.instr (s := ⟨(c.set .rax f).set .rcx (addr 9),
        makeFrame c f (c.reg .rdx) (addr 9) m⟩) hlast hr (Set.empty_subset w))
  · rw [Cpu.set_reg_ne (by decide), Cpu.set_reg_ne (by decide), Cpu.set_reg_self]
  · rw [Cpu.set_reg_self]

/-- **`make_fcontext`.** -/
theorem make_fcontext_makes (addr : ℕ → Addr) (s : State)
    (hret : Disjoint (span (s.cpu.reg .rsp) 8) (span (topFrame (s.cpu.reg .rdi)) 72)) :
    ∃ t, Path makeFcontext addr (span (s.cpu.reg .rsp) 8) (span (topFrame (s.cpu.reg .rdi)) 72)
        (s, .inside 0) (t, .outside (load 8 s.mem (s.cpu.reg .rsp))) ∧
      MadeAt s (topFrame (s.cpu.reg .rdi)) (addr 9) t := by
  have hplace : BlockAt makeFcontext 0 placeOps := by decide
  have hin : Stays addr (span (s.cpu.reg .rsp) 8) (span (topFrame (s.cpu.reg .rdi)) 72) placeOps s :=
    ⟨Set.empty_subset _, Set.empty_subset _, Set.empty_subset _, Set.empty_subset _,
      Set.empty_subset _, Set.empty_subset _, trivial⟩
  have hfirst := Path.ops hplace hin
  rw [place_runs] at hfirst
  obtain ⟨t, hsecond, hmade⟩ := write_part addr
    { s.cpu with zf := s.cpu.reg .rdi &&& (-16 : Addr) == 0 } (topFrame (s.cpu.reg .rdi)) s.mem
    hret Set.Subset.rfl Set.Subset.rfl
  exact ⟨t, hfirst.trans hsecond, hmade.result, hmade.mem, hmade.mxcsr, hmade.fcw, hmade.rip, hmade.exit,
    hmade.rest, hmade.rsp, hmade.kept⟩

/-- `fn` has returned: the process ends with status 0. -/
theorem finish_exits (addr : ℕ → Addr) (s : State) :
    ∃ t, Path makeFcontext addr ∅ (span (s.cpu.reg .rsp - 8) 8) (s, .inside 9)
      (t, .external "_exit") ∧ t.cpu.reg .rdi = 0 := by
  have hxor : BlockAt makeFcontext 9 [.xor .rdi .rdi] := by decide
  have hcall : makeFcontext[10]? = some (.call "_exit") := rfl
  have hin : Stays addr ∅ (span (s.cpu.reg .rsp - 8) 8) [.xor .rdi .rdi] s :=
    ⟨Set.empty_subset _, Set.empty_subset _, trivial⟩
  have hfirst := Path.ops hxor hin
  refine ⟨_, hfirst.trans (.instr hcall Set.Subset.rfl Set.Subset.rfl), ?_⟩
  show s.cpu.reg .rdi ^^^ s.cpu.reg .rdi = 0
  exact BitVec.xor_self

/-! ## §3. The first jump to a context. -/

/-- **A new context starts like a called function.**  Some processor makes a context; later one
    jumps to it, the frame being as it was made.  The function finds its argument in RDI, the
    control words of the maker, a return address that ends the process, and the stack aligned
    as at a call. -/
theorem made_context_starts (addr : ℕ → Addr) (s : State)
    (hret : Disjoint (span (s.cpu.reg .rsp) 8) (span (topFrame (s.cpu.reg .rdi)) 72)) :
    ∃ t, Path makeFcontext addr (span (s.cpu.reg .rsp) 8) (span (topFrame (s.cpu.reg .rdi)) 72)
        (s, .inside 0) (t, .outside (load 8 s.mem (s.cpu.reg .rsp))) ∧
      MadeAt s (topFrame (s.cpu.reg .rdi)) (addr 9) t ∧
      ∀ (addr' : ℕ → Addr) (u : State) (f : Addr), u.cpu.reg .rsi = t.cpu.reg .rax →
        Set.EqOn u.mem t.mem (span (t.cpu.reg .rax) 72) → u.cpu.reg .rsp = off f 56 →
        Apart u f → Disjoint (span (off (t.cpu.reg .rax) 64) 8) (jumpWrites u.cpu f) →
        u.cpu.reg .rcx ≠ 0 → load 8 u.mem (u.cpu.reg .r8) = 0 →
        ∃ v, Path safeJumpFcontext addr' (jumpReads u.cpu) (jumpWrites u.cpu f) (u, .inside 0)
            (v, .outside (s.cpu.reg .rdx)) ∧
          v.cpu.reg .rdi = u.cpu.reg .rdx ∧ v.cpu.mxcsr = s.cpu.mxcsr ∧ v.cpu.fcw = s.cpu.fcw ∧
          load 8 v.mem (v.cpu.reg .rsp) = addr 9 ∧ (v.cpu.reg .rsp).toNat % 16 = 8 ∧
          ∃ e, Path makeFcontext addr ∅ (span (v.cpu.reg .rsp - 8) 8) (v, .inside 9)
            (e, .external "_exit") ∧ e.cpu.reg .rdi = 0 := by
  obtain ⟨t, hmake, hmade⟩ := make_fcontext_makes addr s hret
  refine ⟨t, hmake, hmade, fun addr' u f hrsi hkept hrsp hapart hexit hfpu hlock => ?_⟩
  obtain ⟨v, dest, hjump, hj⟩ := safe_enters addr' hrsp hapart hfpu hlock
  have hframe : frameAt u.mem (u.cpu.reg .rsi) = frameAt t.mem (t.cpu.reg .rax) := by
    rw [hrsi]
    exact frameAt_congr (hkept.mono (span_mono (by decide)))
  have htaken := hj.taken.trans hframe
  rw [hmade.result] at htaken
  have hdest : dest = s.cpu.reg .rdx := (congrArg Frame.rip htaken).trans hmade.rip
  subst hdest
  refine ⟨v, hjump, hj.argument, (congrArg Frame.mxcsr htaken).trans hmade.mxcsr,
    (congrArg Frame.fcw htaken).trans hmade.fcw, ?_, ?_, finish_exits addr v⟩
  · rw [hj.rsp, hrsi, ← hmade.exit, ← hmade.result]
    refine load_congr (by decide) ((hj.rest.mono ?_).trans (hkept.mono ?_))
    · exact Set.subset_compl_iff_disjoint_right.mpr hexit
    · exact span_off_subset (by decide) (by decide)
  · rw [hj.rsp, hrsi, hmade.result]
    exact topFrame_aligned _

/-- A stack that ends at 0x3000, made for a function at 0x7000. -/
def sampleMake : State where
  cpu := (sampleCall.cpu.set .rdi 0x3000).set .rdx 0x7000
  mem := sampleCall.mem

/-- Another thread, whose stack is elsewhere, jumps there and hands over a 5. -/
def sampleFirst : Cpu := ((sampleCall.cpu.set .rsi 0x2fb8).set .rdi 0x3800).set .rdx 5

theorem sampleFirst_apart (m : Mem) : Apart ⟨sampleFirst, m⟩ 0x1000 := by
  have h : Apart ⟨sampleFirst, sampleCall.mem⟩ 0x1000 :=
    ⟨(span_disjoint (by decide) (by decide)).symm, span_disjoint (by decide) (by decide),
      span_disjoint (by decide) (by decide), span_disjoint (by decide) (by decide),
      span_disjoint (by decide) (by decide), span_disjoint (by decide) (by decide)⟩
  exact ⟨h.frames, h.frameOfc, h.frameLock, h.targetOfc, h.targetLock, h.ofcLock⟩

theorem made_context_starts_sample :
    ∃ m v, Path safeJumpFcontext (fun _ => 0) (jumpReads sampleFirst)
        (jumpWrites sampleFirst 0x1000) (⟨sampleFirst, m⟩, .inside 0) (v, .outside 0x7000) ∧
      v.cpu.reg .rdi = 5 ∧ (v.cpu.reg .rsp).toNat % 16 = 8 := by
  obtain ⟨t, -, hmade, hstart⟩ := made_context_starts (fun _ => 0x5000) sampleMake
    (span_disjoint (by decide) (by decide))
  have hrax : t.cpu.reg .rax = 0x2fb8 := hmade.result
  have hlock : load 8 t.mem 0x4000 = 0 := by
    have hsame : load 8 t.mem 0x4000 = load 8 sampleMake.mem 0x4000 := by
      refine load_congr (by decide) (hmade.rest.mono ?_)
      exact Set.subset_compl_iff_disjoint_left.mpr (span_disjoint (by decide) (by decide))
    exact hsame.trans (by decide)
  have hexit : Disjoint (span (off (t.cpu.reg .rax) 64) 8) (jumpWrites sampleFirst 0x1000) := by
    rw [hrax]
    refine Set.disjoint_union_right.mpr ⟨Set.disjoint_union_right.mpr ⟨?_, ?_⟩, ?_⟩
    · exact (span_disjoint (by decide) (by decide)).symm
    · exact span_disjoint (by decide) (by decide)
    · exact span_disjoint (by decide) (by decide)
  obtain ⟨v, hpath, hrdi, -, -, -, halign, -⟩ := hstart (fun _ => 0) ⟨sampleFirst, t.mem⟩ 0x1000
    hrax.symm (Set.eqOn_refl _ _) (show sampleFirst.reg .rsp = off 0x1000 56 by decide)
    (sampleFirst_apart t.mem) hexit (show sampleFirst.reg .rcx ≠ 0 by decide) hlock
  exact ⟨t.mem, v, hpath, hrdi, halign⟩

end HThread.Fcontext
