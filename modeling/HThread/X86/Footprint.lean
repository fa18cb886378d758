/-
  HThread.X86.Footprint — what a run reads and writes.

  Several processors share the memory.  What one of them does depends on the
  bytes that its instructions read, and changes the bytes that they write; so a
  run that reads inside `r` and writes inside `w` is the same whatever the
  others do elsewhere.

  Key lemmas:
    * `Instr.exec_agree` — an instruction depends on what it reads only.
    * `Instr.exec_frame` — and changes what it writes only.
    * `Path.ops`         — a block of operations, as a path.
  Main result:
    * `Confined.next`    — a step, taken in a memory that agrees with its own where
      it matters.
-/
import Mathlib.Logic.Relation
import HThread.X86.Machine

namespace X86

/-! ## §1. Reading and writing. -/

/-- The addresses an operation reads. -/
def Op.reads (s : State) : Op → Set Addr
  | .lockXchg _ base => span (s.cpu.reg base) 8
  | .lockAnd _ base => span (s.cpu.reg base) 4
  | .pop _ => span (s.cpu.reg .rsp) 8
  | .ldmxcsr disp base => span (s.cpu.reg base + disp) 4
  | .fldcw disp base => span (s.cpu.reg base + disp) 2
  | _ => ∅

/-- The addresses an operation writes. -/
def Op.writes (s : State) : Op → Set Addr
  | .lockXchg _ base => span (s.cpu.reg base) 8
  | .lockAnd _ base => span (s.cpu.reg base) 4
  | .push _ => span (s.cpu.reg .rsp - 8) 8
  | .movTo _ disp base => span (s.cpu.reg base + disp) 8
  | .stmxcsr disp base => span (s.cpu.reg base + disp) 4
  | .fnstcw disp base => span (s.cpu.reg base + disp) 2
  | _ => ∅

def Instr.reads (s : State) : Instr → Set Addr
  | .op o => o.reads s
  | .ret => span (s.cpu.reg .rsp) 8
  | _ => ∅

def Instr.writes (s : State) : Instr → Set Addr
  | .op o => o.writes s
  | .call _ => span (s.cpu.reg .rsp - 8) 8
  | _ => ∅

/-- The same processor state, and the same bytes in `r`. -/
structure Agree (r : Set Addr) (s t : State) : Prop where
  cpu : s.cpu = t.cpu
  mem : Set.EqOn s.mem t.mem r

variable {r w : Set Addr} {s s' t : State} {addr : ℕ → Addr} {i : ℕ} {ins : Instr}

theorem store_agree {m m' : Mem} {n : ℕ} (h : Set.EqOn m m' r) (a : Addr) (x : BitVec (8 * n)) :
    Set.EqOn (store n m a x) (store n m' a x) r := by
  intro y hy
  unfold store
  rw [h hy]

/-- **An operation depends on what it reads only.** -/
theorem Op.exec_agree {o : Op} (h : Agree r s t) (hr : o.reads s ⊆ r) :
    Agree r (o.exec addr s) (o.exec addr t) := by
  obtain ⟨c, m⟩ := s
  obtain ⟨c', m'⟩ := t
  obtain ⟨rfl, hm⟩ : c = c' ∧ Set.EqOn m m' r := ⟨h.cpu, h.mem⟩
  have hload : ∀ n a, n ≤ 8 → span a n ⊆ r → load n m a = load n m' a := fun n a hn hsub =>
    load_congr (by omega) (hm.mono hsub)
  cases o with
  | xor | inc | cmp | and | lea | leaRip | mov | movImm => exact ⟨rfl, hm⟩
  | push src => exact ⟨rfl, store_agree hm _ _⟩
  | movTo src disp base => exact ⟨rfl, store_agree hm _ _⟩
  | stmxcsr disp base => exact ⟨rfl, store_agree hm _ _⟩
  | fnstcw disp base => exact ⟨rfl, store_agree hm _ _⟩
  | lockXchg src base =>
      simp only [Op.exec, hload 8 (c.reg base) (by decide) hr]
      exact ⟨rfl, store_agree hm _ _⟩
  | lockAnd imm base =>
      simp only [Op.exec, hload 4 (c.reg base) (by decide) hr]
      exact ⟨rfl, store_agree hm _ _⟩
  | pop dst =>
      simp only [Op.exec, hload 8 (c.reg .rsp) (by decide) hr]
      exact ⟨rfl, hm⟩
  | ldmxcsr disp base =>
      simp only [Op.exec, hload 4 (c.reg base + disp) (by decide) hr]
      exact ⟨rfl, hm⟩
  | fldcw disp base =>
      simp only [Op.exec, hload 2 (c.reg base + disp) (by decide) hr]
      exact ⟨rfl, hm⟩

theorem Instr.exec_agree (h : Agree r s t) (hr : ins.reads s ⊆ r) :
    Agree r (ins.exec addr i s).1 (ins.exec addr i t).1 ∧
      (ins.exec addr i s).2 = (ins.exec addr i t).2 := by
  cases ins with
  | op o => exact ⟨o.exec_agree h hr, rfl⟩
  | je target => exact ⟨h, by simp only [Instr.exec, h.cpu]⟩
  | jmp src => exact ⟨h, by simp only [Instr.exec, h.cpu]⟩
  | hlt => exact ⟨h, rfl⟩
  | ret =>
      have hload : load 8 s.mem (s.cpu.reg .rsp) = load 8 t.mem (s.cpu.reg .rsp) :=
        load_congr (by decide) (h.mem.mono hr)
      refine ⟨⟨?_, h.mem⟩, ?_⟩
      · simp only [Instr.exec, h.cpu]
      · simp only [Instr.exec, hload, ← h.cpu]
  | call symbol =>
      simp only [Instr.exec, h.cpu]
      exact ⟨⟨rfl, store_agree h.mem _ _⟩, trivial⟩

/-- **An instruction changes what it writes only.** -/
theorem Instr.exec_frame (ins : Instr) (addr : ℕ → Addr) (i : ℕ) (s : State) :
    Set.EqOn (ins.exec addr i s).1.mem s.mem (ins.writes s)ᶜ := by
  have hstore : ∀ n a (x : BitVec (8 * n)), Set.EqOn (store n s.mem a x) s.mem (span a n)ᶜ :=
    fun n a x => store_eqOn n s.mem a x disjoint_compl_left
  cases ins with
  | je | jmp | hlt | ret => exact Set.eqOn_refl _ _
  | call => exact hstore _ _ _
  | op o =>
      cases o with
      | xor | inc | cmp | and | lea | leaRip | mov | movImm | pop | ldmxcsr | fldcw =>
          exact Set.eqOn_refl _ _
      | push | movTo | stmxcsr | fnstcw | lockXchg | lockAnd => exact hstore _ _ _

/-! ## §2. Paths. -/

variable {code : List Instr} {p q q' : State × Loc}

/-- One step, which reads inside `r` and writes inside `w`. -/
structure Confined (code : List Instr) (addr : ℕ → Addr) (r w : Set Addr) (p q : State × Loc) :
    Prop where
  step : step code addr p = some q
  reads : ∀ s i ins, p = (s, .inside i) → code[i]? = some ins → ins.reads s ⊆ r
  writes : ∀ s i ins, p = (s, .inside i) → code[i]? = some ins → ins.writes s ⊆ w

/-- A run that reads inside `r` and writes inside `w`. -/
def Path (code : List Instr) (addr : ℕ → Addr) (r w : Set Addr) :
    State × Loc → State × Loc → Prop :=
  Relation.ReflTransGen (Confined code addr r w)

theorem Path.trans {p₁ p₂ p₃ : State × Loc} (h₁ : Path code addr r w p₁ p₂)
    (h₂ : Path code addr r w p₂ p₃) : Path code addr r w p₁ p₃ :=
  Relation.ReflTransGen.trans h₁ h₂

theorem Path.mono {r' w' : Set Addr} (h : Path code addr r w p q) (hr : r ⊆ r') (hw : w ⊆ w') :
    Path code addr r' w' p q := by
  refine Relation.ReflTransGen.mono (fun _ _ hone => ?_) _ _ h
  exact ⟨hone.step, fun s i ins hp hins => (hone.reads s i ins hp hins).trans hr,
    fun s i ins hp hins => (hone.writes s i ins hp hins).trans hw⟩

/-- A block of operations stays inside `r` and `w`. -/
def Stays (addr : ℕ → Addr) (r w : Set Addr) : List Op → State → Prop
  | [], _ => True
  | o :: ops, s => o.reads s ⊆ r ∧ o.writes s ⊆ w ∧ Stays addr r w ops (o.exec addr s)

theorem Path.instr (h : code[i]? = some ins) (hr : ins.reads s ⊆ r) (hw : ins.writes s ⊆ w) :
    Path code addr r w (s, .inside i) (ins.exec addr i s) := by
  refine .single ⟨step_instr h, ?_, ?_⟩
  · rintro _ _ ins' ⟨rfl, rfl⟩ h'
    obtain rfl := Option.some.inj (h.symm.trans h')
    exact hr
  · rintro _ _ ins' ⟨rfl, rfl⟩ h'
    obtain rfl := Option.some.inj (h.symm.trans h')
    exact hw

/-- A jump is taken when the zero flag is set. -/
theorem Path.je_eq {target : ℕ} (h : code[i]? = some (.je target)) (hz : s.cpu.zf = true) :
    Path code addr r w (s, .inside i) (s, .inside target) := by
  have hone : Path code addr r w (s, .inside i) (Instr.exec addr i s (.je target)) :=
    .instr h (Set.empty_subset r) (Set.empty_subset w)
  rw [Instr.exec, if_pos hz] at hone
  exact hone

theorem Path.je_ne {target : ℕ} (h : code[i]? = some (.je target)) (hz : s.cpu.zf = false) :
    Path code addr r w (s, .inside i) (s, .inside (i + 1)) := by
  have hone : Path code addr r w (s, .inside i) (Instr.exec addr i s (.je target)) :=
    .instr h (Set.empty_subset r) (Set.empty_subset w)
  rw [Instr.exec, if_neg (by rw [hz]; exact Bool.false_ne_true)] at hone
  exact hone

/-- **A block of operations runs to its end.** -/
theorem Path.ops {ops : List Op} (h : BlockAt code i ops) (hin : Stays addr r w ops s) :
    Path code addr r w (s, .inside i) (runOps addr ops s, .inside (i + ops.length)) := by
  induction ops generalizing s i with
  | nil => exact .refl
  | cons o ops ih =>
      obtain ⟨hi, hrest⟩ := h.head
      obtain ⟨hr, hw, hin⟩ := hin
      have hone : Path code addr r w (s, .inside i) (Instr.exec addr i s (.op o)) :=
        .instr hi hr hw
      rw [List.length_cons, Nat.add_comm ops.length, ← Nat.add_assoc]
      exact hone.trans (ih hrest hin)

/-- **A step, in a memory that agrees with its own.**  The others may have written outside `r`;
    the step does the same, and what it leaves agrees again. -/
theorem Confined.next {pc : Loc} (h : Confined code addr r w (s, .inside i) (t, pc))
    (hs : Agree r s s') :
    ∃ t', X86.step code addr (s', .inside i) = some (t', pc) ∧ Agree r t t' ∧
      Set.EqOn t'.mem s'.mem wᶜ := by
  obtain ⟨ins, hins, hexec⟩ := Option.map_eq_some_iff.mp h.step
  have hagree : Agree r (ins.exec addr i s).1 (ins.exec addr i s').1 ∧
      (ins.exec addr i s).2 = (ins.exec addr i s').2 :=
    Instr.exec_agree hs (h.reads s i ins rfl hins)
  have hw : ins.writes s' ⊆ w := by
    have hsame : ins.writes s' = ins.writes s := by
      cases ins with
      | op o => cases o <;> simp only [Instr.writes, Op.writes, hs.cpu]
      | _ => simp only [Instr.writes, hs.cpu]
    rw [hsame]
    exact h.writes s i ins rfl hins
  have hpc : (ins.exec addr i s').2 = pc := by rw [← hagree.2, hexec]
  refine ⟨(ins.exec addr i s').1, ?_, ?_, ?_⟩
  · rw [step_instr hins, ← hpc]
  · have ht : (ins.exec addr i s).1 = t := by rw [hexec]
    rw [← ht]
    exact hagree.1
  · exact (ins.exec_frame addr i s').mono (Set.compl_subset_compl.mpr hw)

/-- A path that begins inside the routine and ends outside takes a step. -/
theorem Path.first (h : Path code addr r w (s, .inside i) p) (hp : ∀ j, p.2 ≠ .inside j) :
    ∃ q, Confined code addr r w (s, .inside i) q ∧ Path code addr r w q p := by
  rcases Relation.ReflTransGen.cases_head h with heq | ⟨q, hone, hrest⟩
  · exact absurd (congrArg Prod.snd heq).symm (hp i)
  · exact ⟨q, hone, hrest⟩

/-- A path ends where the routine is left. -/
theorem Path.last (h : Path code addr r w p q) (hp : ∀ j, p.2 ≠ .inside j) : p = q := by
  rcases Relation.ReflTransGen.cases_head h with heq | ⟨⟨t, pc⟩, hone, -⟩
  · exact heq
  · obtain ⟨s, pc⟩ := p
    cases pc with
    | inside j => exact absurd rfl (hp j)
    | outside a => cases hone.step
    | external symbol => cases hone.step
    | halted => cases hone.step

end X86
