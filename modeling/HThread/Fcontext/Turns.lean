/-
  HThread.Fcontext.Turns — the workers implement coroutines.

  Seen from above a context has registers: those that a called function keeps,
  the control words, the stack pointer, and the place where it goes on.  They are
  in the processor while the context runs and in its frame while it does not.
  All that the instructions of a jump do, on all workers in any order, is that
  the one context takes the place of the other.

  Key lemmas:
    * `Inv.elsewhere`  — the step of a worker does not touch the jump of another.
    * `exit_views`     — the last instruction of a jump is the switch.
  Main results:
    * `workers_refine`          — the workers implement coroutines.
    * `context_resumes_intact`  — a context goes on with what it left.
    * `jumps_never_wait`        — a jump ends after a fixed number of instructions.
-/
import HThread.Fcontext.Switches

namespace HThread.Fcontext

open Interleave X86
open Function (update)

variable {A V : Type} {L : Layout A V} {s s' : Workers A V} {a b : A} {v : V} {x y : V ⊕ A}
  {m m' : Mem}

/-! ## §1. The registers of a context. -/

/-- The registers of a context that is not in a jump. -/
structure View where
  frame : Frame
  rsp : Addr
  deriving DecidableEq, Repr

/-- The registers of a context whose frame's address is at `w`. -/
def viewAt (m : Mem) (w : Addr) : View := ⟨frameAt m (load 8 m w), off (load 8 m w) 64⟩

/-- The registers of the context that runs, as they will be after the jump that it may be in,
    and the word it has in RAX or hands over. -/
def Core.regs : Core V → View × BitVec 64
  | .runs _ c pc => (⟨savedFrame c pc, c.reg .rsp⟩, c.reg .rax)
  | .jumps _ _ e _ _ =>
      (⟨savedFrame e.cpu (load 8 e.mem (e.cpu.reg .rsp)), e.cpu.reg .rsp + 8⟩, e.cpu.reg .rdx)

open Classical in
/-- The coroutines that the workers stand for. -/
noncomputable def viewsOf (L : Layout A V) (s : Workers A V) :
    Coroutines A (V ⊕ A) View (BitVec 64) where
  cur := curOf s
  regs a := (s.core a).regs
  parked x := if Parked s x then (wordOf L s x).map (viewAt s.mem) else none

theorem viewsOf_parked (hx : Parked s x) :
    (viewsOf L s).parked x = (wordOf L s x).map (viewAt s.mem) := if_pos hx

theorem viewsOf_running (hx : ¬Parked s x) : (viewsOf L s).parked x = none := if_neg hx

/-- The same contexts are parked, with the same frames. -/
theorem parked_eq (hx : Parked s' x ↔ Parked s x)
    (hw : Parked s x → wordOf L s' x = wordOf L s x)
    (hview : ∀ w, Parked s x → wordOf L s x = some w → viewAt s'.mem w = viewAt s.mem w) :
    (viewsOf L s').parked x = (viewsOf L s).parked x := by
  by_cases h : Parked s x
  · rw [viewsOf_parked h, viewsOf_parked (hx.mpr h), hw h]
    cases hword : wordOf L s x with
    | none => rfl
    | some w => exact congrArg some (hview w h hword)
  · rw [viewsOf_running h, viewsOf_running fun h' => h (hx.mp h')]

theorem Inv.view_stays (h : Inv L s) (hm : Set.EqOn m' s.mem (others L s a)) (hx : Parked s x)
    {w : Addr} (hw : wordOf L s x = some w) : viewAt m' w = viewAt s.mem w := by
  obtain ⟨hload, hframe⟩ := h.parked_stays hm hx hw
  unfold viewAt
  rw [hload, hframe]

theorem Inv.coSound (h : Inv L s) : CoSound (viewsOf L s) where
  one a b hab := by
    have hab : curOf s a = curOf s b := hab
    cases hb : curOf s b with
    | inl v => exact h.hands a b v (hand_of_cur (hab.trans hb)) (hand_of_cur hb)
    | inr c => exact (cur_inr (hab.trans hb)).trans (cur_inr hb).symm
  away a := viewsOf_running fun hx => hx.2 a rfl

variable [DecidableEq A]

/-- A step in which the worker stays in its context. -/
theorem Inv.same_views (h : Inv L s) {k : Core V} (hm : Set.EqOn m' s.mem (others L s a))
    (hcur : k.cur a = curOf s a) (hword : curOf s a = .inr a ∨ k.hand = (s.core a).hand) :
    viewsOf L ⟨m', update s.core a k, s.sp⟩
      = { viewsOf L s with regs := update (viewsOf L s).regs a k.regs } := by
  have hcurs : curOf ⟨m', update s.core a k, s.sp⟩ = curOf s := by
    funext b
    show (update s.core a k b).cur b = (s.core b).cur b
    by_cases hba : b = a
    · subst hba
      rw [Function.update_self]
      exact hcur
    · rw [Function.update_of_ne hba]
  have hregs : (fun b => (update s.core a k b).regs)
      = update (fun b => (s.core b).regs) a k.regs := by
    funext b
    by_cases hba : b = a
    · subst hba
      rw [Function.update_self, Function.update_self]
    · rw [Function.update_of_ne hba, Function.update_of_ne hba]
  have hparked : (viewsOf L ⟨m', update s.core a k, s.sp⟩).parked = (viewsOf L s).parked := by
    funext x
    refine parked_eq (parked_update hcur) (fun hx => ?_) fun w hx hw => h.view_stays hm hx hw
    refine word_update ?_
    rcases hword with hin | hsame
    · exact .inl fun hxa => hx.2 a (hin.trans hxa.symm)
    · exact .inr hsame
  exact Coroutines.ext hcurs hregs hparked

/-- The call of a jump is a step of the context that calls. -/
theorem call_views [DecidableEq V] (h : Inv L s) {out : Bool} {c : Cpu} (vp ra : Addr)
    (hcur : curOf s a = target a v !out)
    (hroom : span (c.reg .rsp - BitVec.ofNat 64 64) 64 ⊆ stackOf L s (target a v !out)) :
    viewsOf L (call L s a v out c vp ra)
      = { viewsOf L s with
          regs := update (viewsOf L s).regs a (Core.jumps v out (callEntry L s a v out c vp ra)
            (callEntry L s a v out c vp ra).cpu 0).regs } := by
  refine h.same_views (h.call_others vp ra hcur hroom) ?_ ?_
  · rw [hcur]
    cases out <;> rfl
  · cases out with
    | false => exact .inl hcur
    | true => exact .inr (hand_of_cur hcur).symm

/-- Inside the jump nothing is seen. -/
theorem Inv.inner_views [DecidableEq V] (h : Inv L s) {out : Bool} {e t t' : State} {c : Cpu}
    {i j : ℕ} {f dest : Addr} (hc : s.core a = .jumps v out e c i)
    (hj : Jumping L s a v out e c i f t dest m)
    (hkeep : Set.EqOn t'.mem s.mem (jumpWrites e.cpu f)ᶜ) :
    viewsOf L ⟨t'.mem, update s.core a (.jumps v out e t'.cpu j), s.sp⟩ = viewsOf L s := by
  obtain ⟨hv, hcur, -, -⟩ := h.jump_facts hc
  have hside : (Core.jumps v out e t'.cpu j).cur a = curOf s a := by
    rw [hcur]
    cases out <;> rfl
  have hregs : (Core.jumps v out e t'.cpu j).regs = (viewsOf L s).regs a := by
    show _ = (s.core a).regs
    rw [hc]
    rfl
  rw [h.same_views (hkeep.mono (Set.subset_compl_iff_disjoint_left.mpr (h.jump_others hc hj)))
    hside (.inr hv.symm), hregs, Function.update_eq_self]

/-- **The last instruction of a jump is the switch.** -/
theorem Inv.exit_views [DecidableEq V] (h : Inv L s) {out : Bool} {e t t' : State} {c : Cpu}
    {i : ℕ} {f dest : Addr} (hc : s.core a = .jumps v out e c i)
    (hj : Jumping L s a v out e c i f t dest m)
    (hkeep : Set.EqOn t'.mem s.mem (jumpWrites e.cpu f)ᶜ) (hcpu : t'.cpu = t.cpu)
    (hagree : Set.EqOn t'.mem t.mem (places e f)) :
    coStep (viewsOf L s) (.switch a (target a v out))
      = some (viewsOf L
          ⟨t'.mem, update s.core a (.runs (if out then none else some v) t'.cpu dest), s.sp⟩) := by
  obtain ⟨hv, hcur, hlive, hone⟩ := h.jump_facts hc
  obtain ⟨htarget, hword⟩ := target_parked (L := L) hcur hlive hone
  have hm : Set.EqOn t'.mem s.mem (others L s a) :=
    hkeep.mono (Set.subset_compl_iff_disjoint_left.mpr (h.jump_others hc hj))
  have hregs : (s.core a).regs
      = (⟨savedFrame e.cpu (load 8 e.mem (off f 56)), off f 64⟩, e.cpu.reg .rdx) := by
    rw [hc]
    show (View.mk (savedFrame e.cpu (load 8 e.mem (e.cpu.reg .rsp))) (e.cpu.reg .rsp + 8), _) = _
    rw [hj.rsp, off_add_word]
  -- what the one leaves and what the other takes up
  have hleft : viewAt t'.mem (L.word v (curOf s a))
      = ⟨savedFrame e.cpu (load 8 e.mem (off f 56)), off f 64⟩ := by
    unfold viewAt
    rw [hcur, hj.left hagree, ← hj.jumped.saved]
    congr 1
    exact frameAt_congr (hagree.mono fun y hy => .inl (.inl (.inl hy)))
  have htaken : viewAt s.mem (L.word v (target a v out)) = ⟨savedFrame t'.cpu dest, t'.cpu.reg .rsp⟩
      := by
    unfold viewAt
    rw [hj.nfc, hj.frame, ← hj.jumped.taken, hcpu, ← hj.jumped.rsp]
  have hnow : (Core.runs (if out then none else some v) t'.cpu dest).cur a = target a v out := by
    cases out <;> rfl
  have hcurs : ∀ b, (update s.core a (.runs (if out then none else some v) t'.cpu dest) b).cur b
      = update (curOf s) a (target a v out) b := by
    intro b
    by_cases hba : b = a
    · subst hba
      rw [Function.update_self, Function.update_self, hnow]
    · rw [Function.update_of_ne hba, Function.update_of_ne hba]
      rfl
  show ((viewsOf L s).parked (target a v out)).map _ = _
  rw [viewsOf_parked htarget, hword]
  refine congrArg some (Coroutines.ext (funext fun b => (hcurs b).symm) (funext fun b => ?_)
    (funext fun x => ?_))
  · show update (fun b => (s.core b).regs) a (viewAt s.mem _, (s.core a).regs.2) b
      = (update s.core a _ b).regs
    by_cases hba : b = a
    · subst hba
      rw [Function.update_self, Function.update_self, htaken, hregs, ← hj.jumped.result, ← hcpu]
      rfl
    · rw [Function.update_of_ne hba, Function.update_of_ne hba]
  · show update (update (viewsOf L s).parked (curOf s a) (some (s.core a).regs.1))
      (target a v out) none x = _
    by_cases hx : x = target a v out
    · subst hx
      rw [Function.update_self]
      refine (viewsOf_running fun hp => hp.2 a ?_).symm
      exact (hcurs a).trans (Function.update_self _ _ _)
    rw [Function.update_of_ne hx]
    by_cases hxa : x = curOf s a
    · -- it is parked now
      subst hxa
      have hparked : Parked ⟨t'.mem, update s.core a (.runs (if out then none else some v) t'.cpu
          dest), s.sp⟩ (curOf s a) := by
        refine ⟨fun u hu => h.live a u (hand_of_cur hu), fun b => ?_⟩
        show (update s.core a _ b).cur b ≠ _
        rw [hcurs b]
        by_cases hba : b = a
        · subst hba
          rw [Function.update_self]
          exact fun heq => hx heq.symm
        · rw [Function.update_of_ne hba]
          exact fun heq => hba (h.coSound.one heq)
      rw [Function.update_self, viewsOf_parked hparked, word_left hcur, hregs, ← hleft]
      rfl
    · rw [Function.update_of_ne hxa]
      refine (parked_eq (parked_switch hxa (by rw [hnow]; exact hx)) (fun hp => word_update ?_)
        fun w hp hw => h.view_stays hm hp hw).symm
      cases out with
      | true => exact .inl hx
      | false => exact .inr hv.symm

variable [DecidableEq V]

/-- The start or the end of a vthread concerns no other context. -/
theorem Inv.respace_views (h : Inv L s) {z : Option Addr} (hone : ∀ b, (s.core b).hand ≠ some v)
    (hm : Set.EqOn m' s.mem (beyond L s v)) :
    viewsOf L ⟨m', s.core, update s.sp v z⟩
      = { viewsOf L s with
          parked := update (viewsOf L s).parked (.inl v) (z.map fun _ => viewAt m' (L.ctx v)) } := by
  refine Coroutines.ext rfl rfl (funext fun x => ?_)
  by_cases hx : x = .inl v
  · subst hx
    show _ = update (viewsOf L s).parked (.inl v) _ (.inl v)
    rw [Function.update_self]
    cases z with
    | none =>
        have hgone : ¬Parked ⟨m', s.core, update s.sp v none⟩ (.inl v : V ⊕ A) := fun hp =>
          hp.1 v rfl (Function.update_self v none s.sp)
        rw [viewsOf_running hgone]
        rfl
    | some b =>
        have hparked : Parked ⟨m', s.core, update s.sp v (some b)⟩ (.inl v : V ⊕ A) := by
          refine ⟨fun u hu => ?_, fun a ha => hone a (hand_of_cur (s := s) ha)⟩
          obtain rfl := Sum.inl.inj hu
          show update s.sp v (some b) v ≠ none
          rw [Function.update_self]
          exact Option.some_ne_none b
        have hword : wordOf L ⟨m', s.core, update s.sp v (some b)⟩ (.inl v : V ⊕ A)
            = some (L.ctx v) := rfl
        rw [viewsOf_parked hparked, hword, Option.map_some, Option.map_some]
  · show _ = update (viewsOf L s).parked (.inl v) _ x
    rw [Function.update_of_ne hx]
    have hspu : ∀ u, x = .inl u → update s.sp v z u = s.sp u := fun u hu =>
      Function.update_of_ne (fun heq => hx (hu.trans (congrArg Sum.inl heq))) z s.sp
    have hparked : Parked ⟨m', s.core, update s.sp v z⟩ x ↔ Parked s x := by
      refine and_congr (forall_congr' fun u => forall_congr' fun hu => ?_) Iff.rfl
      show update s.sp v z u ≠ none ↔ s.sp u ≠ none
      rw [hspu u hu]
    refine parked_eq hparked (fun _ => ?_) fun w hp hw => ?_
    · cases x <;> rfl
    · obtain ⟨u, -, rfl, hwho⟩ := h.word_of hp hw
      have huv : u ≠ v := by
        rintro rfl
        rcases hwho with hxu | ⟨a, -, ha⟩
        · exact hx hxu
        · exact hone a ha
      have hload : load 8 m' (L.word u x) = load 8 s.mem (L.word u x) :=
        load_congr (by decide) (hm.mono fun y hy => .inr ⟨u, huv, word_words L u x hy⟩)
      show viewAt m' (L.word u x) = _
      unfold viewAt
      rw [hload]
      congr 1
      exact frameAt_congr (hm.mono fun y hy => .inl ⟨x, hx, h.rest x _ hp hw hy⟩)

/-! ## §2. The refinement. -/

/-- **The workers implement coroutines.** -/
theorem workers_refine (L : Layout A V) :
    (workers L).Refines coroutines (Ok L) CoOk (viewsOf L) where
  start s hs := (Start.inv hs).coSound
  step s act s' hr hok hs := by
    have h := (inv_keeps (L := L)).reachable hr
    cases act with
    | work a c pc m =>
        cases hc : s.core a with
        | jumps => simp [workers, workersStep, hc] at hs
        | runs u c' pc' =>
            simp only [workers, workersStep, hc] at hs
            obtain rfl := Option.some.inj hs
            have hcur : (Core.runs u c pc).cur a = curOf s a := by
              unfold curOf
              rw [hc]
              cases u <;> rfl
            have hhand : (Core.runs u c pc).hand = (s.core a).hand := by
              rw [hc]
              rfl
            refine .inr ⟨.act a (Core.runs u c pc).regs, trivial, congrArg some ?_⟩
            have hm : Set.EqOn m s.mem (foreign L s a) := hok
            exact (h.same_views (hm.mono (h.others_foreign a)) hcur (.inr hhand)).symm
    | resume a v ra =>
        cases hc : s.core a with
        | jumps => simp [workers, workersStep, hc] at hs
        | runs u c pc =>
            cases u with
            | some w => simp [workers, workersStep, hc] at hs
            | none =>
                simp only [workers, workersStep, hc] at hs
                obtain rfl := Option.some.inj hs
                have hcur : curOf s a = target a v !false := by
                  unfold curOf
                  rw [hc]
                  rfl
                have hview := call_views h (L.self v) ra hcur (hok.2.2 c pc hc)
                exact .inr ⟨.act a _, trivial, congrArg some hview.symm⟩
    | yield a ret ra =>
        cases hc : s.core a with
        | jumps => simp [workers, workersStep, hc] at hs
        | runs u c pc =>
            cases u with
            | none => simp [workers, workersStep, hc] at hs
            | some v =>
                simp only [workers, workersStep, hc] at hs
                obtain rfl := Option.some.inj hs
                have hcur : curOf s a = target a v !true := by
                  unfold curOf
                  rw [hc]
                  rfl
                have hview := call_views h ret ra hcur (hok v c pc hc)
                exact .inr ⟨.act a _, trivial, congrArg some hview.symm⟩
    | instr a =>
        cases hc : s.core a with
        | runs => simp [workers, workersStep, hc] at hs
        | jumps v out e c i =>
            obtain ⟨f, t, dest, m, hj⟩ := h.jump a v out e c i hc
            obtain ⟨t', pc, hstep, hkeep, hnext⟩ := hj.next
            rcases hnext with ⟨j, m', rfl, hagree, hpath⟩ | ⟨rfl, hcpu, hagree⟩
            · simp only [workers, workersStep, hc, hstep] at hs
              obtain rfl := Option.some.inj hs
              exact .inl (h.inner_views hc hj hkeep)
            · simp only [workers, workersStep, hc, hstep] at hs
              obtain rfl := Option.some.inj hs
              exact .inr ⟨.switch a (target a v out), trivial,
                h.exit_views hc hj hkeep hcpu hagree⟩
    | init a v sp =>
        cases hc : s.core a with
        | jumps => simp [workers, workersStep, hc] at hs
        | runs u c pc =>
            simp only [workers, workersStep, hc] at hs
            obtain rfl := Option.some.inj hs
            obtain ⟨hv, hlt, hstack, hwords⟩ := hok
            have hone : ∀ b, (s.core b).hand ≠ some v := fun b hb => h.live b v hb hv
            refine .inr ⟨.create (.inl v) (viewAt (initCtx L c s.mem v sp) (L.ctx v)),
              ⟨viewsOf_running fun hp => hp.1 v rfl hv, fun b hb => hone b (hand_of_cur hb)⟩,
              congrArg some ?_⟩
            exact (h.respace_views (z := some sp) hone (h.init_beyond hlt hstack hwords)).symm
    | free a v =>
        cases hc : s.core a with
        | jumps => simp [workers, workersStep, hc] at hs
        | runs u c pc =>
            simp only [workers, workersStep, hc] at hs
            obtain rfl := Option.some.inj hs
            exact .inr ⟨.drop (.inl v), trivial,
              congrArg some (h.respace_views (z := none) hok (Set.eqOn_refl _ _)).symm⟩

/-! ## §3. A context goes on with what it left. -/

omit [DecidableEq A] [DecidableEq V] in
theorem word_of_parked (hx : Parked s x) : ∃ w, wordOf L s x = some w := by
  cases x with
  | inl v => exact ⟨_, rfl⟩
  | inr a =>
      cases hv : (s.core a).hand with
      | some v => exact ⟨L.ownerCtx v, congrArg (Option.map L.ownerCtx) hv⟩
      | none =>
          refine absurd ?_ (hx.2 a)
          unfold curOf
          cases hc : s.core a with
          | runs u c pc =>
              rw [hc] at hv
              obtain rfl : u = none := hv
              rfl
          | jumps v out e c i =>
              rw [hc] at hv
              cases hv

/-- One step: what is parked stays as it is, or goes on. -/
theorem parked_step {act : Act A V} {w : Addr} (hr : (workers L).ReachableVia (Ok L) s)
    (hok : Ok L s act) (hs : (workers L).step s act = some s') (hx : Parked s x)
    (hw : wordOf L s x = some w) :
    (viewsOf L s').parked x = some (viewAt s.mem w) ∨
      (viewsOf L s').parked x = none ∧
        ∀ a, curOf s' a = x → (s'.core a).regs = (viewAt s.mem w, (s.core a).regs.2) := by
  have hview : (viewsOf L s).parked x = some (viewAt s.mem w) := by
    rw [viewsOf_parked hx, hw]
    rfl
  have h := (inv_keeps (L := L)).reachable hr
  rcases (workers_refine L).step s act s' hr hok hs with hsame | ⟨b, hb, hstep⟩
  · rw [hsame]
    exact .inl hview
  · exact parked_kept h.coSound hb hstep hview

theorem parked_run {as : List (Act A V)} {t : Workers A V}
    (hr : (workers L).ReachableVia (Ok L) s) (hrun : (workers L).run s as = some t)
    (hok : (workers L).StepsMeet (Ok L) s as)
    (hstay : (workers L).Always (fun r => Parked r x) s as) :
    (viewsOf L t).parked x = (viewsOf L s).parked x := by
  induction as generalizing s with
  | nil =>
      obtain rfl : s = t := Option.some.inj hrun
      rfl
  | cons act as ih =>
      obtain ⟨r, hs, hrest⟩ := Machine.run_cons hrun
      have hx : Parked s x := hstay.1
      obtain ⟨w, hw⟩ := word_of_parked (L := L) hx
      have hnext : Parked r x := by
        have hlater := hstay.2 r hs
        cases as with
        | nil => exact hlater
        | cons => exact hlater.1
      obtain ⟨w', hw'⟩ := word_of_parked (L := L) hnext
      rw [ih (hr.step hok.1 hs) hrest (hok.2 r hs) (hstay.2 r hs), viewsOf_parked hx, hw]
      rcases parked_step hr hok.1 hs hx hw with hsame | ⟨hgone, -⟩
      · exact hsame
      · rw [viewsOf_parked hnext, hw'] at hgone
        cases hgone

/-- A worker that is still in its jump has not switched. -/
theorem instr_cur {out : Bool} {e : State} {c : Cpu} {i : ℕ}
    (hs : (workers L).step s (.instr a) = some s') (hc : s'.core a = .jumps v out e c i) :
    curOf s' a = curOf s a := by
  unfold curOf
  cases hcore : s.core a with
  | runs => simp [workers, workersStep, hcore] at hs
  | jumps v' out' e' c' i' =>
      simp only [workers, workersStep, hcore] at hs
      split at hs
      case h_1 t j heq =>
        obtain rfl := Option.some.inj hs
        show (update s.core a _ a).cur a = _
        rw [Function.update_self]
        rfl
      case h_2 t dest heq =>
        obtain rfl := Option.some.inj hs
        have hc : update s.core a _ a = Core.jumps v out e c i := hc
        rw [Function.update_self] at hc
        cases hc
      case h_3 => cases hs

/-- **A context goes on with what it left.**  While it is parked its frame lies at `f`; whatever
    the workers do until some worker goes on with it, that worker has then the registers and
    control words of the frame, its stack pointer above it, and the word that was handed over. -/
theorem context_resumes_intact {as : List (Act A V)} {t u : Workers A V} {w f : Addr}
    (hr : (workers L).ReachableVia (Ok L) s) (hx : Parked s x) (hw : wordOf L s x = some w)
    (hf : load 8 s.mem w = f) (hrun : (workers L).run s as = some t)
    (hok : (workers L).StepsMeet (Ok L) s as)
    (hstay : (workers L).Always (fun r => Parked r x) s as)
    (hs : (workers L).step t (.instr a) = some u) (hnow : curOf u a = x) :
    ∃ z c pc, u.core a = .runs z c pc ∧ savedFrame c pc = frameAt s.mem f ∧
      c.reg .rsp = off f 64 ∧ c.reg .rax = (t.core a).regs.2 := by
  have hparked : Parked t x := hstay.last hrun
  obtain ⟨w', hw'⟩ := word_of_parked (L := L) hparked
  have hsame : viewAt t.mem w' = viewAt s.mem w := by
    have heq := parked_run hr hrun hok hstay
    rw [viewsOf_parked hx, viewsOf_parked hparked, hw, hw'] at heq
    exact Option.some.inj heq
  have hregs : (u.core a).regs = (viewAt s.mem w, (t.core a).regs.2) := by
    have hokone : Ok L t (.instr a) := trivial
    rcases parked_step (hr.follow as hrun hok) hokone hs hparked hw' with
      hstill | ⟨-, hgo⟩
    · rw [viewsOf_running fun hp => hp.2 a hnow] at hstill
      cases hstill
    · rw [hgo a hnow, hsame]
  cases hu : u.core a with
  | runs z c pc =>
      rw [hu] at hregs
      obtain ⟨hview, hword⟩ := Prod.mk.inj hregs
      have hframe : savedFrame c pc = frameAt s.mem (load 8 s.mem w) := congrArg View.frame hview
      have hrsp : c.reg .rsp = off (load 8 s.mem w) 64 := congrArg View.rsp hview
      rw [hf] at hframe hrsp
      exact ⟨z, c, pc, rfl, hframe, hrsp, hword⟩
  | jumps v out e c i =>
      exact absurd ((instr_cur hs hu).symm.trans hnow) (hparked.2 a)

theorem sampleResumed_instrs (n : ℕ) (s : Workers (Fin 1) (Fin 1)) :
    (workers sampleLayout).StepsMeet (Ok sampleLayout) s (List.replicate n (.instr 0)) := by
  induction n generalizing s with
  | zero => trivial
  | succ n ih => exact ⟨trivial, fun s' _ => ih s'⟩

/-- The vthread is parked as long as the worker is in the jump. -/
theorem sample_parked {s : Workers (Fin 1) (Fin 1)} (hcur : curOf s 0 = .inr 0)
    (hsp : s.sp 0 = some 0x100000) : Parked s (.inl 0) := by
  refine ⟨fun v _ => ?_, fun b => ?_⟩
  · obtain rfl := Subsingleton.elim v 0
    rw [hsp]
    exact Option.some_ne_none _
  · obtain rfl := Subsingleton.elim b 0
    rw [hcur]
    exact Sum.inr_ne_inl

theorem context_resumes_intact_sample :
    ∃ t u z c pc, (workers sampleLayout).run sampleResumed (List.replicate 33 (.instr 0)) = some t ∧
      (workers sampleLayout).step t (.instr 0) = some u ∧ u.core 0 = .runs z c pc ∧
      savedFrame c pc = frameAt sampleResumed.mem (load 8 sampleResumed.mem 0x1000) ∧
      c.reg .rsp = off (load 8 sampleResumed.mem 0x1000) 64 ∧ c.reg .rax = (t.core 0).regs.2 := by
  have hall : ((workers sampleLayout).run sampleResumed (List.replicate 33 (.instr 0))).bind
      (fun t => ((workers sampleLayout).step t (.instr 0)).map
        fun u => (curOf t 0, t.sp 0, curOf u 0)) = some (.inr 0, some 0x100000, .inl 0) := by
    decide +kernel
  have hcheck : (workers sampleLayout).check
      (fun s _ => decide (curOf s 0 = .inr 0 ∧ s.sp 0 = some 0x100000)) sampleResumed
      (List.replicate 33 (.instr 0)) = true := by
    decide +kernel
  obtain ⟨t, ht, hmap⟩ := Option.bind_eq_some_iff.mp hall
  obtain ⟨u, hu, heq⟩ := Option.map_eq_some_iff.mp hmap
  obtain ⟨hcur, hsp⟩ := Prod.mk.inj heq
  obtain ⟨hsp, hnow⟩ := Prod.mk.inj hsp
  have hstay : (workers sampleLayout).Always (fun r => Parked r (.inl 0)) sampleResumed
      (List.replicate 33 (.instr 0)) := by
    refine .of_stepsMeet (Machine.stepsMeet_of_check (fun s _ h => ?_) _ _ hcheck) fun t' ht' => ?_
    · obtain ⟨h₁, h₂⟩ := of_decide_eq_true h
      exact sample_parked h₁ h₂
    · obtain rfl := Option.some.inj (ht.symm.trans ht')
      exact sample_parked hcur hsp
  obtain ⟨z, c, pc, hc, hframe, hrsp, hrax⟩ := context_resumes_intact sampleResumed_reachable
    (sample_parked rfl rfl) rfl rfl ht (sampleResumed_instrs 33 sampleResumed) hstay hu hnow
  exact ⟨t, u, z, c, pc, ht, hu, hc, hframe, hrsp, hrax⟩

/-! ## §4. A jump does not wait. -/

/-- The worker that acts. -/
def Act.actor : Act A V → A
  | .work a _ _ _ | .resume a _ _ | .yield a _ _ | .instr a | .init a _ _ | .free a _ => a

def Act.isInstr (a : A) : Act A V → Bool
  | .instr b => b = a
  | _ => false

/-- **The step of a worker does not touch what another has in hand.** -/
theorem Inv.elsewhere (h : Inv L s) {act : Act A V} (hok : Ok L s act)
    (hs : workersStep L s act = some s') (hne : act.actor ≠ a) (hv : (s.core a).hand = some v) :
    s'.core a = s.core a ∧
      Set.EqOn s'.mem s.mem (stackOf L s (.inr a) ∪ stackOf L s (.inl v) ∪ L.words v) ∧
      ∀ out, stackOf L s' (target a v out) = stackOf L s (target a v out) := by
  have hbeyond : ∀ u, (∀ b, (s.core b).hand ≠ some u) → u ≠ v ∧
      stackOf L s (.inr a) ∪ stackOf L s (.inl v) ∪ L.words v ⊆ beyond L s u := by
    intro u hu
    have huv : u ≠ v := by
      rintro rfl
      exact hu a hv
    refine ⟨huv, ?_⟩
    rintro y ((hy | hy) | hy)
    · exact .inl ⟨_, Sum.inr_ne_inl, hy⟩
    · exact .inl ⟨_, fun heq => huv (Sum.inl.inj heq).symm, hy⟩
    · exact .inr ⟨v, huv.symm, hy⟩
  have htarget : ∀ u out, u ≠ v → target a v out ≠ .inl u := by
    rintro u (_ | _) huv heq
    · exact huv (Sum.inl.inj heq).symm
    · cases heq
  cases act with
  | work b c pc m =>
      have hheld := h.held_others (a := b) hne.symm hv
      cases hc : s.core b with
      | jumps => simp [workersStep, hc] at hs
      | runs u c' pc' =>
          simp only [workersStep, hc] at hs
          obtain rfl := Option.some.inj hs
          have hm : Set.EqOn m s.mem (foreign L s b) := hok
          exact ⟨Function.update_of_ne hne.symm _ _,
            hm.mono (hheld.trans (h.others_foreign b)), fun _ => rfl⟩
  | resume b u ra =>
      have hheld := h.held_others (a := b) hne.symm hv
      cases hc : s.core b with
      | jumps => simp [workersStep, hc] at hs
      | runs z c pc =>
          cases z with
          | some w => simp [workersStep, hc] at hs
          | none =>
              simp only [workersStep, hc] at hs
              obtain rfl := Option.some.inj hs
              have hcur : curOf s b = target b u !false := by
                unfold curOf
                rw [hc]
                rfl
              exact ⟨Function.update_of_ne hne.symm _ _,
                (h.call_others (L.self u) ra hcur (hok.2.2 c pc hc)).mono hheld, fun _ => rfl⟩
  | yield b ret ra =>
      have hheld := h.held_others (a := b) hne.symm hv
      cases hc : s.core b with
      | jumps => simp [workersStep, hc] at hs
      | runs z c pc =>
          cases z with
          | none => simp [workersStep, hc] at hs
          | some u =>
              simp only [workersStep, hc] at hs
              obtain rfl := Option.some.inj hs
              have hcur : curOf s b = target b u !true := by
                unfold curOf
                rw [hc]
                rfl
              exact ⟨Function.update_of_ne hne.symm _ _,
                (h.call_others ret ra hcur (hok u c pc hc)).mono hheld, fun _ => rfl⟩
  | instr b =>
      have hheld := h.held_others (a := b) hne.symm hv
      cases hc : s.core b with
      | runs => simp [workersStep, hc] at hs
      | jumps u out e c i =>
          obtain ⟨f, t, dest, m, hj⟩ := h.jump b u out e c i hc
          obtain ⟨t', pc, hstep, hkeep, hnext⟩ := hj.next
          have hm : Set.EqOn t'.mem s.mem (others L s b) :=
            hkeep.mono (Set.subset_compl_iff_disjoint_left.mpr (h.jump_others hc hj))
          rcases hnext with ⟨j, m', rfl, -, -⟩ | ⟨rfl, -, -⟩
          · simp only [workersStep, hc, hstep] at hs
            obtain rfl := Option.some.inj hs
            exact ⟨Function.update_of_ne hne.symm _ _, hm.mono hheld, fun _ => rfl⟩
          · simp only [workersStep, hc, hstep] at hs
            obtain rfl := Option.some.inj hs
            exact ⟨Function.update_of_ne hne.symm _ _, hm.mono hheld, fun _ => rfl⟩
  | init b u sp =>
      cases hc : s.core b with
      | jumps => simp [workersStep, hc] at hs
      | runs z c pc =>
          simp only [workersStep, hc] at hs
          obtain rfl := Option.some.inj hs
          obtain ⟨hu, hlt, hstack, hwords⟩ := hok
          obtain ⟨huv, hheld⟩ := hbeyond u fun b hb => h.live b u hb hu
          exact ⟨rfl, (h.init_beyond hlt hstack hwords).mono hheld,
            fun out => stack_update (htarget u out huv)⟩
  | free b u =>
      cases hc : s.core b with
      | jumps => simp [workersStep, hc] at hs
      | runs z c pc =>
          simp only [workersStep, hc] at hs
          obtain rfl := Option.some.inj hs
          exact ⟨rfl, Set.eqOn_refl _ _, fun out => stack_update (htarget u out (hbeyond u hok).1)⟩

/-- A worker in a jump executes instructions of it and nothing else. -/
theorem act_in_jump {act : Act A V} {out : Bool} {e : State} {c : Cpu} {i : ℕ}
    (hc : s.core a = .jumps v out e c i) (hs : workersStep L s act = some s')
    (hact : act.actor = a) : act = .instr a := by
  subst hact
  cases act with
  | instr b => rfl
  | _ b =>
      have hc : s.core b = .jumps v out e c i := hc
      simp [workersStep, hc] at hs

/-- Up to its next instruction nothing changes for a worker in a jump. -/
theorem until_instr {out : Bool} {e t : State} {c : Cpu} {i : ℕ} {f dest : Addr}
    {as : List (Act A V)} {u : Workers A V} (hr : (workers L).ReachableVia (Ok L) s)
    (hc : s.core a = .jumps v out e c i) (hj : Jumping L s a v out e c i f t dest m)
    (hrun : (workers L).run s as = some u) (hok : (workers L).StepsMeet (Ok L) s as)
    (hcount : 0 < as.countP (Act.isInstr a)) :
    ∃ bs cs r r', as = bs ++ .instr a :: cs ∧ bs.countP (Act.isInstr a) = 0 ∧
      (workers L).run s bs = some r ∧ (workers L).ReachableVia (Ok L) r ∧
      r.core a = .jumps v out e c i ∧ Jumping L r a v out e c i f t dest m ∧
      (workers L).step r (.instr a) = some r' ∧ (workers L).run r' cs = some u ∧
      (workers L).StepsMeet (Ok L) r' cs := by
  induction as generalizing s with
  | nil => cases hcount
  | cons act as ih =>
      obtain ⟨r, hs, hrest⟩ := Machine.run_cons hrun
      have hlater := hok.2 r hs
      by_cases hact : act.actor = a
      · obtain rfl := act_in_jump hc hs hact
        exact ⟨[], as, s, r, rfl, rfl, rfl, hr, hc, hj, hs, hrest, hlater⟩
      · have hv : (s.core a).hand = some v := by
          rw [hc]
          rfl
        obtain ⟨hcore, hm, hstack⟩ :=
          ((inv_keeps (L := L)).reachable hr).elsewhere hok.1 hs hact hv
        have hnot : Act.isInstr a act = false := by
          cases act with
          | instr b => exact decide_eq_false hact
          | _ => rfl
        have hcount : 0 < as.countP (Act.isInstr a) := by
          rw [List.countP_cons_of_neg (by rw [hnot]; exact Bool.false_ne_true)] at hcount
          exact hcount
        obtain ⟨bs, cs, q, q', rfl, hzero, hbs, hq⟩ := ih (hr.step hok.1 hs) (hcore.trans hc)
          (hj.stays hm hstack) hrest hlater hcount
        refine ⟨act :: bs, cs, q, q', rfl, ?_, ?_, hq⟩
        · rw [List.countP_cons_of_neg (by rw [hnot]; exact Bool.false_ne_true)]
          exact hzero
        · show ((workers L).step s act).bind _ = some q
          rw [hs]
          exact hbs

/-- At a point of its path, a worker has left the jump after `n` more instructions of its own,
    whatever the others do. -/
def LeavesAfter (L : Layout A V) (a : A) (v : V) (out : Bool) (e : State) (f : Addr) (t : State)
    (dest : Addr) (p : State × Loc) (n : ℕ) : Prop :=
  0 < n ∧ ∀ i, p.2 = .inside i → ∀ (as : List (Act A V)) (s u : Workers A V),
    (workers L).ReachableVia (Ok L) s → s.core a = .jumps v out e p.1.cpu i →
    Jumping L s a v out e p.1.cpu i f t dest p.1.mem → (workers L).run s as = some u →
    (workers L).StepsMeet (Ok L) s as → n ≤ as.countP (Act.isInstr a) →
    ∃ bs r c pc, bs <+: as ∧ bs.countP (Act.isInstr a) = n ∧ (workers L).run s bs = some r ∧
      r.core a = .runs (if out then none else some v) c pc

/-- The last instruction. -/
theorem leaves_last {out : Bool} {e t t₁ : State} {c : Cpu} {f dest d : Addr} {i : ℕ}
    (hone : Confined safeJumpFcontext L.jump (places e f) (jumpWrites e.cpu f) (⟨c, m⟩, .inside i)
      (t₁, .outside d)) :
    LeavesAfter L a v out e f t dest (⟨c, m⟩, .inside i) 1 := by
  refine ⟨Nat.one_pos, fun i' hi as s u hr hc hj hrun hok hcount => ?_⟩
  obtain rfl := Loc.inside.inj hi
  obtain ⟨bs, cs, r, r', rfl, hzero, hbs, -, hc, hj, hs, -, -⟩ :=
    until_instr hr hc hj hrun hok hcount
  have hnow : Agree (places e f) ⟨c, m⟩ ⟨c, r.mem⟩ := ⟨rfl, hj.agree⟩
  obtain ⟨t', hstep, -, -⟩ := hone.next hnow
  have hr' : r'.core a = .runs (if out then none else some v) t'.cpu d := by
    simp only [workers, workersStep, hc, hstep] at hs
    obtain rfl := Option.some.inj hs
    exact Function.update_self _ _ _
  refine ⟨bs ++ [.instr a], r', t'.cpu, d, ⟨cs, by simp⟩, ?_, ?_, hr'⟩
  · simp [hzero, Act.isInstr]
  · refine Machine.run_append hbs ?_
    show ((workers L).step r (.instr a)).bind _ = some r'
    rw [hs]
    rfl

/-- One instruction more. -/
theorem leaves_more {out : Bool} {e t t₁ : State} {c : Cpu} {f dest : Addr} {i j n : ℕ}
    (hone : Confined safeJumpFcontext L.jump (places e f) (jumpWrites e.cpu f) (⟨c, m⟩, .inside i)
      (t₁, .inside j))
    (hrest : Path safeJumpFcontext L.jump (places e f) (jumpWrites e.cpu f) (t₁, .inside j)
      (t, .outside dest))
    (h : LeavesAfter L a v out e f t dest (t₁, .inside j) n) :
    LeavesAfter L a v out e f t dest (⟨c, m⟩, .inside i) (n + 1) := by
  refine ⟨Nat.succ_pos n, fun i' hi as s u hr hc hj hrun hok hcount => ?_⟩
  obtain rfl := Loc.inside.inj hi
  obtain ⟨bs, cs, r, r', rfl, hzero, hbs, hreach, hc, hj, hs, hcs, hokcs⟩ :=
    until_instr hr hc hj hrun hok (Nat.lt_of_lt_of_le (Nat.succ_pos n) hcount)
  have hnow : Agree (places e f) ⟨c, m⟩ ⟨c, r.mem⟩ := ⟨rfl, hj.agree⟩
  obtain ⟨t', hstep, hagree, hkeep⟩ := hone.next hnow
  have hr' : r' = ⟨t'.mem, update r.core a (.jumps v out e t'.cpu j), r.sp⟩ := by
    simp only [workers, workersStep, hc, hstep] at hs
    exact (Option.some.inj hs).symm
  have hjnext : Jumping L r' a v out e t₁.cpu j f t dest t₁.mem := by
    rw [hr', hagree.cpu]
    refine ((inv_keeps (L := L)).reachable hreach).jumping_next hc hj hkeep hagree.mem ?_
    rw [← hagree.cpu]
    exact hrest
  have hcnext : r'.core a = .jumps v out e t₁.cpu j := by
    rw [hr', hagree.cpu]
    exact Function.update_self _ _ _
  have hown : Act.isInstr a (.instr a : Act A V) = true := decide_eq_true rfl
  have hcountcs : n ≤ cs.countP (Act.isInstr a) := by
    rw [List.countP_append, List.countP_cons_of_pos hown] at hcount
    omega
  have hokone : Ok L r (.instr a) := trivial
  obtain ⟨ds, q, c', pc', ⟨es, rfl⟩, hds, hrunds, hq⟩ :=
    h.2 j rfl cs r' u (hreach.step hokone hs) hcnext hjnext hcs hokcs hcountcs
  refine ⟨bs ++ .instr a :: ds, q, c', pc', ⟨es, by simp⟩, ?_, ?_, hq⟩
  · rw [List.countP_append, List.countP_cons_of_pos hown, hzero, hds]
    omega
  · refine Machine.run_append hbs ?_
    show ((workers L).step r (.instr a)).bind _ = some q
    rw [hs]
    exact hrunds

/-- From a point of its path on, a worker leaves the jump. -/
theorem jump_leaves {out : Bool} {e t : State} {f dest : Addr} {p : State × Loc}
    (hpath : Path safeJumpFcontext L.jump (places e f) (jumpWrites e.cpu f) p (t, .outside dest))
    (hp : ∃ i, p.2 = .inside i) : ∃ n, LeavesAfter L a v out e f t dest p n := by
  induction hpath using Relation.ReflTransGen.head_induction_on with
  | refl =>
      obtain ⟨i, hi⟩ := hp
      cases hi
  | @head p q hone hrest ih =>
      obtain ⟨⟨c, m⟩, pc⟩ := p
      obtain ⟨t₁, pc₁⟩ := q
      obtain ⟨i, hpc⟩ := hp
      obtain rfl : pc = .inside i := hpc
      by_cases hin : ∃ j, pc₁ = .inside j
      · obtain ⟨j, rfl⟩ := hin
        obtain ⟨n, hn⟩ := ih ⟨j, rfl⟩
        exact ⟨n + 1, leaves_more hone hrest hn⟩
      · obtain ⟨-, rfl⟩ := Prod.mk.inj (Path.last hrest fun j hj => hin ⟨j, hj⟩)
        exact ⟨1, leaves_last hone⟩

/-- **A jump does not wait.**  A worker in a jump can always execute its next instruction, and
    after a number of its own instructions that is fixed now it has left the jump, whatever the
    other workers do in between. -/
theorem jumps_never_wait {out : Bool} {e : State} {c : Cpu} {i : ℕ}
    (hr : (workers L).ReachableVia (Ok L) s) (hc : s.core a = .jumps v out e c i) :
    ((workers L).step s (.instr a)).isSome ∧
      ∃ n, ∀ as u, (workers L).run s as = some u → (workers L).StepsMeet (Ok L) s as →
        n ≤ as.countP (Act.isInstr a) → ∃ bs r c' pc, bs <+: as ∧
          bs.countP (Act.isInstr a) = n ∧ (workers L).run s bs = some r ∧
          r.core a = .runs (if out then none else some v) c' pc := by
  obtain ⟨f, t, dest, m, hj⟩ := ((inv_keeps (L := L)).reachable hr).jump a v out e c i hc
  constructor
  · obtain ⟨t', pc, hstep, -, ⟨j, m', rfl, -, -⟩ | ⟨rfl, -, -⟩⟩ := hj.next
    · simp [workers, workersStep, hc, hstep]
    · simp [workers, workersStep, hc, hstep]
  · obtain ⟨n, -, hn⟩ := jump_leaves (a := a) (v := v) hj.path ⟨i, rfl⟩
    exact ⟨n, fun as u hrun hok hcount => hn i rfl as s u hr hc hj hrun hok hcount⟩

theorem jumps_never_wait_sample :
    ((workers sampleLayout).step sampleResumed (.instr 0)).isSome ∧
      ∃ n, ∀ as u, (workers sampleLayout).run sampleResumed as = some u →
        (workers sampleLayout).StepsMeet (Ok sampleLayout) sampleResumed as →
        n ≤ as.countP (Act.isInstr 0) → ∃ bs r c' pc, bs <+: as ∧
          bs.countP (Act.isInstr 0) = n ∧ (workers sampleLayout).run sampleResumed bs = some r ∧
          r.core 0 = .runs (some 0) c' pc :=
  jumps_never_wait sampleResumed_reachable
    (show sampleResumed.core 0 = .jumps 0 false _ _ _ from rfl)

end HThread.Fcontext
