/-
  HThread.Fcontext.Switches — the invariant of the workers.

  A step of one worker touches nothing of the others; so each kind of step has to
  be looked at from the worker's own side only: its code, the call of a jump, an
  instruction of it, its last instruction, and the start and the end of a vthread.

  Key lemmas:
    * `Jumping.next` — what the next instruction of a jump does.
    * `Inv.move`     — a step that leaves the others alone.
    * `Inv.respace`  — a vthread gets a stack, or loses it.
  Main result:
    * `inv_keeps`    — the invariant, over all runs.
-/
import HThread.Fcontext.Workers

namespace HThread.Fcontext

open Interleave X86
open Function (update)

variable {A V : Type} {L : Layout A V} {s : Workers A V} {a b : A} {v : V} {x y : V ⊕ A}

/-! ## §1. What stays. -/

variable {m m' : Mem}

/-- What a parked context needs stays. -/
theorem Inv.parked_stays (h : Inv L s) (hm : Set.EqOn m' s.mem (others L s a)) (hx : Parked s x)
    {w : Addr} (hw : wordOf L s x = some w) :
    load 8 m' w = load 8 s.mem w ∧
      frameAt m' (load 8 s.mem w) = frameAt s.mem (load 8 s.mem w) := by
  constructor
  · exact load_congr (by decide) (hm.mono fun y hy => .inr (.inr ⟨x, w, hx, hw, hy⟩))
  · refine frameAt_congr (hm.mono fun y hy => .inl ⟨x, (hx.2 a).symm, ?_⟩)
    exact h.rest x w hx hw hy

theorem target_held (L : Layout A V) (s : Workers A V) (b : A) (v : V) (out : Bool) :
    stackOf L s (target b v out) ⊆ stackOf L s (.inr b) ∪ stackOf L s (.inl v) := by
  cases out with
  | false => exact Set.subset_union_right
  | true => exact Set.subset_union_left

/-- A jump does not notice what happens elsewhere. -/
theorem Jumping.stays {s' : Workers A V} {out : Bool} {e t : State} {c : Cpu} {i : ℕ}
    {f dest : Addr} (hj : Jumping L s b v out e c i f t dest m)
    (hm : Set.EqOn s'.mem s.mem (stackOf L s (.inr b) ∪ stackOf L s (.inl v) ∪ L.words v))
    (hstack : ∀ out, stackOf L s' (target b v out) = stackOf L s (target b v out)) :
    Jumping L s' b v out e c i f t dest m := by
  have hstacks : ∀ out, stackOf L s (target b v out) ⊆
      stackOf L s (.inr b) ∪ stackOf L s (.inl v) ∪ L.words v := fun out =>
    (target_held L s b v out).trans Set.subset_union_left
  have hwords : ∀ z : Set Addr, z ⊆ L.words v → z ⊆
      stackOf L s (.inr b) ∪ stackOf L s (.inl v) ∪ L.words v := fun z hz =>
    hz.trans Set.subset_union_right
  refine ⟨hj.rsp, ?_, hj.ofc, hj.lock, ?_, ?_, ?_, ?_, hj.path, hj.jumped⟩
  · rw [hstack]
    exact hj.here
  · rw [← hj.nfc]
    exact load_congr (by decide) (hm.mono (hwords _ (word_words L v _)))
  · rw [hstack]
    exact hj.there
  · rw [← hj.frame]
    exact frameAt_congr (hm.mono (hj.there.trans (hstacks out)))
  · refine hj.agree.trans (hm.mono ?_).symm
    rintro y (((hy | hy) | hy) | hy)
    · exact hstacks _ (hj.here hy)
    · exact hstacks _ (hj.there hy)
    · rw [hj.ofc] at hy
      exact hwords _ (word_words L v _) hy
    · rw [hj.lock] at hy
      exact hwords _ (jumpLock_words L v) hy

theorem target_ne (a : A) (v : V) (out : Bool) : target a v (!out) ≠ target a v out := by
  cases out with
  | false => exact Sum.inr_ne_inl
  | true => exact Sum.inl_ne_inr

theorem word_lock (L : Layout A V) (v : V) (x : V ⊕ A) :
    Disjoint (span (L.word v x) 8) (span (L.jumpLock v) 8) := by
  cases x with
  | inl w => exact L.ctxLock v
  | inr a => exact L.ownerLock v

/-- The return address of a call, and the frame below it. -/
theorem frame_below (rsp : Addr) : rsp - 8 = off (rsp - BitVec.ofNat 64 64) 56 := by
  have hrsp : off (rsp - BitVec.ofNat 64 64) 64 = rsp := sub_off rsp 64
  rw [← off_sub_word (rsp - BitVec.ofNat 64 64) (n := 64) (by decide), hrsp]

/-- A call leaves a jump at its first instruction. -/
theorem Inv.call_jumping (h : Inv L s) {out : Bool} {c : Cpu} {vp ra f : Addr}
    (core : A → Core V) (hf : f = c.reg .rsp - BitVec.ofNat 64 64)
    (hroom : span f 64 ⊆ stackOf L s (target a v !out)) (htarget : Parked s (target a v out))
    (hword : wordOf L s (target a v out) = some (L.word v (target a v out)))
    (hlock : load 8 s.mem (L.jumpLock v) = 0) :
    ∃ t dest m, Jumping L ⟨(callEntry L s a v out c vp ra).mem, core, s.sp⟩ a v out
      (callEntry L s a v out c vp ra) (callEntry L s a v out c vp ra).cpu 0 f t dest m := by
  have hrsp : c.reg .rsp - 8 = off f 56 := by
    rw [hf]
    exact frame_below _
  have hmem : (callEntry L s a v out c vp ra).mem = store 8 s.mem (off f 56) ra := by
    rw [← hrsp]
    rfl
  have hkeep : Set.EqOn (callEntry L s a v out c vp ra).mem s.mem (span f 64)ᶜ := by
    rw [hmem]
    exact store_eqOn 8 _ _ _ (Set.disjoint_compl_left_iff_subset.mpr
      (span_off_subset (by decide) (by decide)))
  have hwords : ∀ z : Set Addr, z ⊆ L.words v → Disjoint (span f 64) z := fun z hz =>
    (h.stackWords _ v).mono hroom hz
  have hword_stays : ∀ w, span w 8 ⊆ L.words v →
      load 8 (callEntry L s a v out c vp ra).mem w = load 8 s.mem w := fun w hw =>
    load_congr (by decide) (hkeep.mono (Set.subset_compl_iff_disjoint_left.mpr (hwords _ hw)))
  have hthere : span (load 8 s.mem (L.word v (target a v out))) 64 ⊆ stackOf L s (target a v out) :=
    h.rest _ _ htarget hword
  have hapart : Apart (callEntry L s a v out c vp ra) f := by
    constructor
    · exact ((h.stacksApart _ _ (target_ne a v out)).mono hroom hthere).symm
    · exact hwords _ (word_words L v _)
    · exact hwords _ (jumpLock_words L v)
    · exact (h.stackWords _ v).mono hthere (word_words L v _)
    · exact (h.stackWords _ v).mono hthere (jumpLock_words L v)
    · exact word_lock L v _
  obtain ⟨t, dest, hpath, hj⟩ := safe_enters L.jump (s := callEntry L s a v out c vp ra)
    (hrsp ▸ Cpu.set_reg_self) hapart (by decide : (1 : BitVec 64) ≠ 0)
    ((hword_stays _ (jumpLock_words L v)).trans hlock)
  refine ⟨t, dest, (callEntry L s a v out c vp ra).mem, hrsp ▸ Cpu.set_reg_self, hroom, rfl, rfl,
    hword_stays _ (word_words L v _), hthere, rfl, Set.eqOn_refl _ _, ?_, hj⟩
  refine hpath.mono (Set.union_subset ?_ Set.subset_union_right) Set.Subset.rfl
  exact fun y hy => .inl (.inl (.inr hy))

/-- A vthread that no other worker has in hand may be resumed, and its worker's context waits
    for it to yield. -/
theorem target_parked {out : Bool} (hcur : curOf s a = target a v !out)
    (hv : s.sp v ≠ none) (hone : ∀ b, b ≠ a → (s.core b).hand ≠ some v) :
    Parked s (target a v out) ∧ wordOf L s (target a v out) = some (L.word v (target a v out)) := by
  cases out with
  | false =>
      refine ⟨⟨fun u hu => ?_, fun b hb => ?_⟩, rfl⟩
      · obtain rfl := Sum.inl.inj hu
        exact hv
      · by_cases hba : b = a
        · subst hba
          rw [hcur] at hb
          cases hb
        · exact hone b hba (hand_of_cur hb)
  | true =>
      refine ⟨⟨fun u hu => ?_, fun b hb => ?_⟩, ?_⟩
      · cases hu
      · obtain rfl := cur_inr hb
        rw [hcur] at hb
        cases hb
      · show (s.core a).hand.map L.ownerCtx = some (L.ownerCtx v)
        rw [hand_of_cur hcur]
        rfl

/-- What the next instruction of a jump does: it goes on inside, or it leaves as it was to. -/
theorem Jumping.next {out : Bool} {e t : State} {c : Cpu} {i : ℕ} {f dest : Addr}
    (hj : Jumping L s a v out e c i f t dest m) :
    ∃ t' pc, step safeJumpFcontext L.jump (⟨c, s.mem⟩, .inside i) = some (t', pc) ∧
      Set.EqOn t'.mem s.mem (jumpWrites e.cpu f)ᶜ ∧
      ((∃ j m', pc = .inside j ∧ Set.EqOn m' t'.mem (places e f) ∧
          Path safeJumpFcontext L.jump (places e f) (jumpWrites e.cpu f) (⟨t'.cpu, m'⟩, .inside j)
            (t, .outside dest)) ∨
        pc = .outside dest ∧ t'.cpu = t.cpu ∧ Set.EqOn t'.mem t.mem (places e f)) := by
  obtain ⟨⟨u, pc⟩, hone, hrest⟩ := hj.path.first fun j => Loc.noConfusion
  have hnow : Agree (places e f) ⟨c, m⟩ ⟨c, s.mem⟩ := ⟨rfl, hj.agree⟩
  obtain ⟨t', hstep, hagree, hkeep⟩ := hone.next hnow
  refine ⟨t', pc, hstep, hkeep, ?_⟩
  by_cases hin : ∃ j, pc = .inside j
  · obtain ⟨j, rfl⟩ := hin
    refine .inl ⟨j, u.mem, rfl, hagree.mem, ?_⟩
    rw [← hagree.cpu]
    exact hrest
  · obtain ⟨rfl, rfl⟩ := Prod.mk.inj (hrest.last fun j hj => hin ⟨j, hj⟩)
    exact .inr ⟨rfl, hagree.cpu.symm, hagree.mem.symm⟩

/-- What holds of a worker in a jump. -/
theorem Inv.jump_facts (h : Inv L s) {out : Bool} {e : State} {c : Cpu} {i : ℕ}
    (hc : s.core a = .jumps v out e c i) :
    (s.core a).hand = some v ∧ curOf s a = target a v (!out) ∧ s.sp v ≠ none ∧
      ∀ b, b ≠ a → (s.core b).hand ≠ some v := by
  have hv : (s.core a).hand = some v := by
    rw [hc]
    rfl
  refine ⟨hv, ?_, h.live a v hv, fun b hba hb => hba (h.hands b a v hb hv)⟩
  unfold curOf
  rw [hc]
  cases out <;> rfl

/-- All stacks but one, and all words but those of its vthread. -/
def beyond (L : Layout A V) (s : Workers A V) (v : V) : Set Addr :=
  {y | (∃ x, x ≠ .inl v ∧ y ∈ stackOf L s x) ∨ ∃ u, u ≠ v ∧ y ∈ L.words u}

/-- The start of a vthread touches its new stack and its words. -/
theorem Inv.init_beyond (h : Inv L s) {c : Cpu} {sp : Addr} (hlt : sp.toNat + stackSize < 2 ^ 64)
    (hstack : ∀ x, Disjoint (span sp stackSize) (stackOf L s x))
    (hwords : ∀ w, Disjoint (span sp stackSize) (L.words w)) :
    Set.EqOn (initCtx L c s.mem v sp) s.mem (beyond L s v) := by
  have hout : ∀ y ∈ beyond L s v, y ∉ L.words v ∧ y ∉ span sp stackSize := by
    rintro y (⟨x, -, hy⟩ | ⟨u, hu, hy⟩)
    · exact ⟨Set.disjoint_left.mp (h.stackWords x v) hy, Set.disjoint_right.mp (hstack x) hy⟩
    · exact ⟨Set.disjoint_left.mp (L.wordsApart u v hu) hy, Set.disjoint_right.mp (hwords u) hy⟩
  refine (store_eqOn 8 _ _ _ ?_).trans (((makeFrame_eqOn c _ _ _ _).mono ?_).trans
    (store_eqOn 8 _ _ _ ?_))
  · exact Set.disjoint_left.mpr fun y hy hin => (hout y hy).1 (ctx_words L v hin)
  · exact fun y hy hin => (hout y hy).2 (topFrame_in (by decide) hlt hin)
  · exact Set.disjoint_left.mpr fun y hy hin => (hout y hy).1 (jumpLock_words L v hin)

/-- What a new vthread is parked with. -/
theorem initCtx_loads {c : Cpu} {sp : Addr} (hlt : sp.toNat + stackSize < 2 ^ 64)
    (hwords : Disjoint (span sp stackSize) (L.words v)) :
    load 8 (initCtx L c m v sp) (L.ctx v) = topFrame (off sp stackSize) ∧
      load 8 (initCtx L c m v sp) (L.jumpLock v) = 0 := by
  refine ⟨load_store (by decide) _ _ _, ?_⟩
  have hframe : Disjoint (span (topFrame (off sp stackSize)) 72) (span (L.jumpLock v) 8) :=
    hwords.mono (topFrame_in (by decide) hlt) (jumpLock_words L v)
  unfold initCtx
  rw [load_store_disjoint (by decide) _ _ (L.ctxLock v).symm,
    load_congr (by decide) ((makeFrame_eqOn c _ _ _ _).mono
      (Set.subset_compl_iff_disjoint_left.mpr hframe))]
  exact load_store (by decide) _ _ _

section Space

variable [DecidableEq V]

theorem stack_update {z : Option Addr} (hne : x ≠ .inl v) :
    stackOf L ⟨m', s.core, update s.sp v z⟩ x = stackOf L s x := by
  cases x with
  | inr a => rfl
  | inl u =>
      have hu : update s.sp v z u = s.sp u :=
        Function.update_of_ne (fun heq => hne (congrArg Sum.inl heq)) _ _
      show {y | ∃ b, update s.sp v z u = some b ∧ y ∈ span b stackSize} = _
      rw [hu]
      rfl

theorem mem_stack_update {z : Option Addr} {y : Addr} :
    y ∈ stackOf L ⟨m', s.core, update s.sp v z⟩ (.inl v) ↔ ∃ b, z = some b ∧ y ∈ span b stackSize := by
  show (∃ b, update s.sp v z v = some b ∧ y ∈ span b stackSize) ↔ _
  rw [Function.update_self]

/-- **A vthread that is in nobody's hand gets a stack, or loses it.** -/
theorem Inv.respace (h : Inv L s) {z : Option Addr} (hone : ∀ b, (s.core b).hand ≠ some v)
    (hm : Set.EqOn m' s.mem (beyond L s v))
    (hapart : ∀ b, z = some b → (∀ x, x ≠ .inl v → Disjoint (span b stackSize) (stackOf L s x)) ∧
      ∀ w, Disjoint (span b stackSize) (L.words w))
    (hrest : ∀ b, z = some b → span (load 8 m' (L.ctx v)) 64 ⊆ span b stackSize ∧
      load 8 m' (L.jumpLock v) = 0) :
    Inv L ⟨m', s.core, update s.sp v z⟩ := by
  have hspu : ∀ u, u ≠ v → update s.sp v z u = s.sp u := fun u hu => Function.update_of_ne hu z s.sp
  have hwords : ∀ u, u ≠ v → L.words u ⊆ beyond L s v := fun u hu y hy => .inr ⟨u, hu, hy⟩
  have hnew : ∀ x, x ≠ .inl v →
      Disjoint (stackOf L ⟨m', s.core, update s.sp v z⟩ (.inl v)) (stackOf L s x) := by
    intro x hx
    rw [Set.disjoint_left]
    intro y hy
    obtain ⟨b, hb, hy⟩ := mem_stack_update.mp hy
    exact Set.disjoint_left.mp ((hapart b hb).1 x hx) hy
  refine ⟨h.hands, fun a w hw => ?_, fun x y hxy => ?_, fun x w => ?_, fun x w hx hw => ?_,
    fun u hu hno => ?_, fun b u out e c i hb => ?_⟩
  · have hwv : w ≠ v := fun heq => hone a (heq ▸ hw)
    show update s.sp v z w ≠ none
    rw [hspu w hwv]
    exact h.live a w hw
  · by_cases hx : x = .inl v <;> by_cases hy : y = .inl v
    · exact absurd (hx.trans hy.symm) hxy
    · subst hx
      rw [stack_update hy]
      exact hnew y hy
    · subst hy
      rw [stack_update hx]
      exact (hnew x hx).symm
    · rw [stack_update hx, stack_update hy]
      exact h.stacksApart x y hxy
  · by_cases hx : x = .inl v
    · subst hx
      rw [Set.disjoint_left]
      intro y hy
      obtain ⟨b, hb, hy⟩ := mem_stack_update.mp hy
      exact Set.disjoint_left.mp ((hapart b hb).2 w) hy
    · rw [stack_update hx]
      exact h.stackWords x w
  · by_cases hxv : x = .inl v
    · subst hxv
      obtain rfl : L.ctx v = w := Option.some.inj hw
      obtain ⟨b, hb⟩ := Option.ne_none_iff_exists'.mp (hx.1 v rfl)
      have hb : z = some b := (Function.update_self v z s.sp).symm.trans hb
      exact fun y hy => mem_stack_update.mpr ⟨b, hb, (hrest b hb).1 hy⟩
    · have hparked : Parked s x := by
        refine ⟨fun u hu => ?_, hx.2⟩
        rw [← hspu u fun heq => hxv (hu.trans (congrArg Sum.inl heq))]
        exact hx.1 u hu
      have hw : wordOf L s x = some w := by
        cases x with
        | inl u => exact hw
        | inr a => exact hw
      obtain ⟨u, -, hwu, hwho⟩ := h.word_of hparked hw
      have huv : u ≠ v := by
        rintro rfl
        rcases hwho with hx | ⟨a, -, ha⟩
        · exact hxv hx
        · exact hone a ha
      have hload : load 8 m' w = load 8 s.mem w := by
        rw [hwu]
        exact load_congr (by decide) (hm.mono ((word_words L u x).trans (hwords u huv)))
      rw [stack_update hxv]
      show span (load 8 m' w) 64 ⊆ _
      rw [hload]
      exact h.rest x w hparked hw
  · by_cases huv : u = v
    · subst huv
      obtain ⟨b, hb⟩ := Option.ne_none_iff_exists'.mp hu
      exact (hrest b ((Function.update_self u z s.sp).symm.trans hb)).2
    · have hu : s.sp u ≠ none := by
        rw [← hspu u huv]
        exact hu
      rw [← h.lock u hu hno]
      exact load_congr (by decide) (hm.mono ((jumpLock_words L u).trans (hwords u huv)))
  · obtain ⟨f, t, dest, m, hj⟩ := h.jump b u out e c i hb
    have hbu : (s.core b).hand = some u := by
      rw [show s.core b = _ from hb]
      rfl
    have huv : u ≠ v := fun heq => hone b (heq ▸ hbu)
    have hne : ∀ out, target b u out ≠ .inl v := by
      rintro (_ | _) heq
      · exact huv (Sum.inl.inj heq)
      · cases heq
    refine ⟨f, t, dest, m, hj.stays (hm.mono ?_) fun out => stack_update (hne out)⟩
    rintro y ((hy | hy) | hy)
    · exact .inl ⟨_, Sum.inr_ne_inl, hy⟩
    · exact .inl ⟨_, hne false, hy⟩
    · exact hwords u huv hy

/-- A new vthread: its frame is on its new stack, and its lock is free. -/
theorem Inv.init (h : Inv L s) {c : Cpu} {sp : Addr} (hv : s.sp v = none)
    (hlt : sp.toNat + stackSize < 2 ^ 64)
    (hstack : ∀ x, Disjoint (span sp stackSize) (stackOf L s x))
    (hwords : ∀ w, Disjoint (span sp stackSize) (L.words w)) :
    Inv L ⟨initCtx L c s.mem v sp, s.core, update s.sp v (some sp)⟩ := by
  obtain ⟨hctx, hlock⟩ := initCtx_loads (c := c) (m := s.mem) hlt (hwords v)
  have hone : ∀ b, (s.core b).hand ≠ some v := fun b hb => h.live b v hb hv
  refine h.respace hone (h.init_beyond hlt hstack hwords) (fun b hb => ?_) fun b hb => ?_
  · obtain rfl := Option.some.inj hb
    exact ⟨fun x _ => hstack x, hwords⟩
  · obtain rfl := Option.some.inj hb
    rw [hctx]
    exact ⟨(span_mono (by decide)).trans (topFrame_in (by decide) hlt), hlock⟩

theorem Inv.free (h : Inv L s) (hone : ∀ b, (s.core b).hand ≠ some v) :
    Inv L ⟨s.mem, s.core, update s.sp v none⟩ :=
  h.respace hone (Set.eqOn_refl _ _) (fun _ hb => absurd hb (Option.some_ne_none _).symm)
    fun _ hb => absurd hb (Option.some_ne_none _).symm

end Space

/-- After a jump, the address of the frame that was left is in its word. -/
theorem Jumping.left {out : Bool} {e t t' : State} {c : Cpu} {i : ℕ} {f dest : Addr}
    (hj : Jumping L s a v out e c i f t dest m) (hagree : Set.EqOn t'.mem t.mem (places e f)) :
    load 8 t'.mem (L.word v (target a v !out)) = f := by
  rw [← hj.ofc, ← hj.jumped.ofc]
  exact load_congr (by decide) (hagree.mono fun y hy => .inl (.inr hy))

/-- After an instruction inside, the jump goes on. -/
theorem Inv.jumping_next (h : Inv L s) {out : Bool} {e t t' : State} {c : Cpu} {i j : ℕ}
    {f dest : Addr} {core : A → Core V} (hc : s.core a = .jumps v out e c i)
    (hj : Jumping L s a v out e c i f t dest m)
    (hkeep : Set.EqOn t'.mem s.mem (jumpWrites e.cpu f)ᶜ)
    (hagree : Set.EqOn m' t'.mem (places e f))
    (hpath : Path safeJumpFcontext L.jump (places e f) (jumpWrites e.cpu f)
      (⟨t'.cpu, m'⟩, .inside j) (t, .outside dest)) :
    Jumping L ⟨t'.mem, core, s.sp⟩ a v out e t'.cpu j f t dest m' := by
  obtain ⟨-, hcur, hlive, hone⟩ := h.jump_facts hc
  obtain ⟨htarget, hword⟩ := target_parked (L := L) hcur hlive hone
  obtain ⟨hnfc, hframe⟩ := h.parked_stays
    (hkeep.mono (Set.subset_compl_iff_disjoint_left.mpr (h.jump_others hc hj))) htarget hword
  rw [hj.nfc] at hnfc hframe
  exact ⟨hj.rsp, hj.here, hj.ofc, hj.lock, hnfc, hj.there, hframe.trans hj.frame, hagree, hpath,
    hj.jumped⟩

/-- The return address goes to the caller's own stack. -/
theorem Inv.call_others (h : Inv L s) {out : Bool} {c : Cpu} (vp ra : Addr)
    (hcur : curOf s a = target a v !out)
    (hroom : span (c.reg .rsp - BitVec.ofNat 64 64) 64 ⊆ stackOf L s (target a v !out)) :
    Set.EqOn (callEntry L s a v out c vp ra).mem s.mem (others L s a) := by
  refine store_eqOn 8 s.mem _ ra ((h.stack_others a).symm.mono_right ?_)
  show span (c.reg .rsp - 8) 8 ⊆ _
  rw [frame_below, hcur]
  exact (span_off_subset (by decide) (by decide)).trans hroom

variable [DecidableEq A]

/-! ## §2. The steps. -/

/-- **A step of worker `a` that leaves the others alone.** -/
theorem Inv.move (h : Inv L s) {k : Core V} (hm : Set.EqOn m' s.mem (others L s a))
    (hhand : ∀ v, k.hand = some v → s.sp v ≠ none ∧ ∀ b, b ≠ a → (s.core b).hand ≠ some v)
    (hrest : ∀ x w, Parked ⟨m', update s.core a k, s.sp⟩ x →
      wordOf L ⟨m', update s.core a k, s.sp⟩ x = some w →
      Parked s x ∧ wordOf L s x = some w ∨ span (load 8 m' w) 64 ⊆ stackOf L s x)
    (hlock : ∀ v, (s.core a).hand = some v → (∀ out e c i, k ≠ .jumps v out e c i) →
      load 8 m' (L.jumpLock v) = 0)
    (hjump : ∀ v out e c i, k = .jumps v out e c i →
      ∃ f t dest m, Jumping L ⟨m', update s.core a k, s.sp⟩ a v out e c i f t dest m) :
    Inv L ⟨m', update s.core a k, s.sp⟩ := by
  have hself : update s.core a k a = k := Function.update_self a k s.core
  have hother : ∀ b, b ≠ a → update s.core a k b = s.core b := fun b hb =>
    Function.update_of_ne hb k s.core
  have hhands : ∀ b v, (update s.core a k b).hand = some v →
      b = a ∧ k.hand = some v ∨ b ≠ a ∧ (s.core b).hand = some v := by
    intro b v hb
    by_cases hba : b = a
    · subst hba
      rw [hself] at hb
      exact .inl ⟨rfl, hb⟩
    · rw [hother b hba] at hb
      exact .inr ⟨hba, hb⟩
  refine ⟨fun b d v hb hd => ?_, fun b v hb => ?_, h.stacksApart, h.stackWords, fun x w hx hw => ?_,
    fun v hv hno => ?_, fun b v out e c i hb => ?_⟩
  · rcases hhands b v hb with ⟨hba, hk⟩ | ⟨hba, hbv⟩ <;>
      rcases hhands d v hd with ⟨hda, hk'⟩ | ⟨hda, hdv⟩
    · exact hba.trans hda.symm
    · exact absurd hdv ((hhand v hk).2 d hda)
    · exact absurd hbv ((hhand v hk').2 b hba)
    · exact h.hands b d v hbv hdv
  · rcases hhands b v hb with ⟨-, hk⟩ | ⟨-, hb⟩
    · exact (hhand v hk).1
    · exact h.live b v hb
  · rcases hrest x w hx hw with ⟨hx, hw⟩ | hin
    · show span (load 8 m' w) 64 ⊆ stackOf L s x
      rw [(h.parked_stays hm hx hw).1]
      exact h.rest x w hx hw
    · exact hin
  · have hk : ∀ out e c i, k ≠ .jumps v out e c i := fun out e c i heq =>
      hno a out e c i (hself.trans heq)
    by_cases ha : (s.core a).hand = some v
    · exact hlock v ha hk
    · have hbefore : load 8 s.mem (L.jumpLock v) = 0 := by
        refine h.lock v hv fun b out e c i hb => ?_
        have hba : b ≠ a := by
          rintro rfl
          rw [hb] at ha
          exact ha rfl
        exact hno b out e c i ((hother b hba).trans hb)
      rw [← hbefore]
      exact load_congr (by decide)
        (hm.mono fun y hy => .inr (.inl ⟨v, hv, ha, jumpLock_words L v hy⟩))
  · by_cases hba : b = a
    · subst hba
      exact hjump v out e c i (hself.symm.trans hb)
    · have hb : s.core b = .jumps v out e c i := (hother b hba).symm.trans hb
      obtain ⟨f, t, dest, m, hj⟩ := h.jump b v out e c i hb
      have hv : (s.core b).hand = some v := by
        rw [hb]
        rfl
      exact ⟨f, t, dest, m, hj.stays (hm.mono (h.held_others hba hv)) fun _ => rfl⟩

theorem parked_update {k : Core V} (hcur : k.cur a = curOf s a) :
    Parked ⟨m', update s.core a k, s.sp⟩ x ↔ Parked s x := by
  have hsame : ∀ b, curOf ⟨m', update s.core a k, s.sp⟩ b = curOf s b := by
    intro b
    show (update s.core a k b).cur b = (s.core b).cur b
    by_cases hba : b = a
    · subst hba
      rw [Function.update_self]
      exact hcur
    · rw [Function.update_of_ne hba]
  unfold Parked
  simp only [hsame]

theorem word_update {k : Core V} (hx : x ≠ .inr a ∨ k.hand = (s.core a).hand) :
    wordOf L ⟨m', update s.core a k, s.sp⟩ x = wordOf L s x := by
  cases x with
  | inl v => rfl
  | inr b =>
      show (update s.core a k b).hand.map L.ownerCtx = (s.core b).hand.map L.ownerCtx
      by_cases hba : b = a
      · subst hba
        rw [Function.update_self, hx.resolve_left fun hne => hne rfl]
      · rw [Function.update_of_ne hba]

/-- The lock of a vthread in hand is free outside the jumps. -/
theorem Inv.lock_free (h : Inv L s) {u : Option V} {c : Cpu} {pc : Addr}
    (hc : s.core a = .runs u c pc) (hv : s.sp v ≠ none)
    (hone : ∀ b, b ≠ a → (s.core b).hand ≠ some v) : load 8 s.mem (L.jumpLock v) = 0 := by
  refine h.lock v hv fun b out e c i hb => ?_
  by_cases hba : b = a
  · subst hba
    rw [hc] at hb
    cases hb
  · apply hone b hba
    rw [hb]
    rfl

theorem Inv.work (h : Inv L s) {u : Option V} {c c' : Cpu} {pc pc' : Addr}
    (hc : s.core a = .runs u c' pc') (hm : Set.EqOn m' s.mem (foreign L s a)) :
    Inv L ⟨m', update s.core a (.runs u c pc), s.sp⟩ := by
  have hhand : (s.core a).hand = u := by
    rw [hc]
    rfl
  have hcur : (Core.runs u c pc).cur a = curOf s a := by
    unfold curOf
    rw [hc]
    cases u <;> rfl
  have hown : ∀ v, u = some v → s.sp v ≠ none ∧ ∀ b, b ≠ a → (s.core b).hand ≠ some v :=
    fun v hv => ⟨h.live a v (hhand.trans hv), fun b hba hb =>
      hba (h.hands b a v hb (hhand.trans hv))⟩
  refine h.move (hm.mono (h.others_foreign a)) hown (fun x w hx hw => ?_) (fun v hv _ => ?_) ?_
  · exact .inl ⟨(parked_update hcur).mp hx,
      (word_update (k := .runs u c pc) (.inr hhand.symm)).symm.trans hw⟩
  · have hv := hown v (hhand.symm.trans hv)
    rw [← h.lock_free hc hv.1 hv.2]
    exact load_congr (by decide) (hm.mono fun y hy => .inr ⟨v, hv.1, jumpLock_words L v hy⟩)
  · intro v out e c i heq
    cases heq

theorem Inv.call (h : Inv L s) {out : Bool} {u : Option V} {c : Cpu} {pc vp ra : Addr}
    (hc : s.core a = .runs u c pc) (hcur : curOf s a = target a v !out)
    (hroom : span (c.reg .rsp - BitVec.ofNat 64 64) 64 ⊆ stackOf L s (target a v !out))
    (hv : s.sp v ≠ none) (hone : ∀ b, b ≠ a → (s.core b).hand ≠ some v) :
    Inv L (call L s a v out c vp ra) := by
  obtain ⟨htarget, hword⟩ := target_parked (L := L) hcur hv hone
  have hkeep := h.call_others vp ra hcur hroom
  have hside : (Core.jumps v out (callEntry L s a v out c vp ra)
      (callEntry L s a v out c vp ra).cpu 0).cur a = curOf s a := by
    rw [hcur]
    cases out <;> rfl
  refine h.move hkeep (fun w hw => ?_) (fun x w hx hw => .inl ?_) (fun w hw hno => ?_)
    fun w out' e c' i heq => ?_
  · obtain rfl := Option.some.inj hw
    exact ⟨hv, hone⟩
  · have hparked : Parked s x := (parked_update hside).mp hx
    refine ⟨hparked, (word_update ?_).symm.trans hw⟩
    cases out with
    | false => exact .inl fun hxa => hparked.2 a (hcur.trans hxa.symm)
    | true => exact .inr (hand_of_cur hcur).symm
  · -- the worker had no other vthread in hand
    have hwv : w = v := by
      cases out with
      | true => exact Option.some.inj (hw.symm.trans (hand_of_cur hcur))
      | false =>
          unfold curOf at hcur
          rw [hc] at hw hcur
          obtain rfl : u = some w := hw
          cases hcur
    subst hwv
    exact absurd rfl (hno _ _ _ _)
  · cases heq
    obtain ⟨t, dest, m, hj⟩ := h.call_jumping (update s.core a _) rfl hroom htarget hword
      (h.lock_free hc hv hone)
    exact ⟨_, t, dest, m, hj⟩

/-- An instruction inside the jump. -/
theorem Inv.inner (h : Inv L s) {out : Bool} {e t t' : State} {c : Cpu} {i j : ℕ} {f dest : Addr}
    (hc : s.core a = .jumps v out e c i) (hj : Jumping L s a v out e c i f t dest m)
    (hkeep : Set.EqOn t'.mem s.mem (jumpWrites e.cpu f)ᶜ)
    (hagree : Set.EqOn m' t'.mem (places e f))
    (hpath : Path safeJumpFcontext L.jump (places e f) (jumpWrites e.cpu f)
      (⟨t'.cpu, m'⟩, .inside j) (t, .outside dest)) :
    Inv L ⟨t'.mem, update s.core a (.jumps v out e t'.cpu j), s.sp⟩ := by
  obtain ⟨hv, hcur, hlive, hone⟩ := h.jump_facts hc
  have hm : Set.EqOn t'.mem s.mem (others L s a) :=
    hkeep.mono (Set.subset_compl_iff_disjoint_left.mpr (h.jump_others hc hj))
  have hside : (Core.jumps v out e t'.cpu j).cur a = curOf s a := by
    rw [hcur]
    cases out <;> rfl
  refine h.move hm (fun w hw => ?_) (fun x w hx hw => .inl ?_) (fun w hw hno => ?_)
    fun w out' e' c' i' heq => ?_
  · obtain rfl := Option.some.inj hw
    exact ⟨hlive, hone⟩
  · exact ⟨(parked_update hside).mp hx, (word_update (k := .jumps v out e t'.cpu j)
      (.inr hv.symm)).symm.trans hw⟩
  · obtain rfl := Option.some.inj (hv.symm.trans hw)
    exact absurd rfl (hno _ _ _ _)
  · cases heq
    exact ⟨f, t, dest, m', h.jumping_next hc hj hkeep hagree hpath⟩

/-- A switch parks one context and takes up one other. -/
theorem parked_switch {k : Core V} (hxa : x ≠ curOf s a) (hxk : x ≠ k.cur a) :
    Parked ⟨m', update s.core a k, s.sp⟩ x ↔ Parked s x := by
  refine and_congr Iff.rfl (forall_congr' fun b => ?_)
  show (update s.core a k b).cur b ≠ x ↔ (s.core b).cur b ≠ x
  by_cases hba : b = a
  · subst hba
    rw [Function.update_self]
    exact ⟨fun _ => hxa.symm, fun _ => hxk.symm⟩
  · rw [Function.update_of_ne hba]

/-- After a jump, the word of the context that was left is the one the jump wrote. -/
theorem word_left {out : Bool} {c : Cpu} {pc : Addr} (hcur : curOf s a = target a v !out) :
    wordOf L ⟨m', update s.core a (.runs (if out then none else some v) c pc), s.sp⟩ (curOf s a)
      = some (L.word v (curOf s a)) := by
  rw [hcur]
  cases out with
  | true => rfl
  | false =>
      show (update s.core a _ a).hand.map L.ownerCtx = some (L.ownerCtx v)
      rw [Function.update_self]
      rfl

/-- The last instruction of the jump. -/
theorem Inv.exit (h : Inv L s) {out : Bool} {e t t' : State} {c : Cpu} {i : ℕ} {f dest : Addr}
    (hc : s.core a = .jumps v out e c i) (hj : Jumping L s a v out e c i f t dest m)
    (hkeep : Set.EqOn t'.mem s.mem (jumpWrites e.cpu f)ᶜ)
    (hagree : Set.EqOn t'.mem t.mem (places e f)) :
    Inv L ⟨t'.mem, update s.core a (.runs (if out then none else some v) t'.cpu dest), s.sp⟩ := by
  obtain ⟨hv, hcur, hlive, hone⟩ := h.jump_facts hc
  have hlock : load 8 t'.mem (L.jumpLock v) = 0 := by
    rw [← hj.lock, ← hj.jumped.lock]
    exact load_congr (by decide) (hagree.mono fun y hy => .inr hy)
  have hnow : (Core.runs (if out then none else some v) t'.cpu dest).cur a = target a v out := by
    cases out <;> rfl
  refine h.move (hkeep.mono (Set.subset_compl_iff_disjoint_left.mpr (h.jump_others hc hj)))
    (fun w hw => ?_) (fun x w hx hw => ?_) (fun w hw _ => ?_) fun w out' e' c' i' heq => ?_
  · cases out with
    | true => cases hw
    | false =>
        obtain rfl := Option.some.inj hw
        exact ⟨hlive, hone⟩
  · have hne : x ≠ target a v out := by
      rintro rfl
      apply hx.2 a
      show (update s.core a _ a).cur a = _
      rw [Function.update_self, hnow]
    by_cases hxa : x = curOf s a
    · -- the context that was left
      subst hxa
      obtain rfl := Option.some.inj ((word_left hcur).symm.trans hw)
      rw [hcur, hj.left hagree]
      exact .inr hj.here
    · refine .inl ⟨(parked_switch hxa (by rw [hnow]; exact hne)).mp hx,
        (word_update (k := .runs (if out then none else some v) t'.cpu dest) ?_).symm.trans hw⟩
      cases out with
      | true => exact .inl hne
      | false => exact .inr hv.symm
  · obtain rfl := Option.some.inj (hv.symm.trans hw)
    exact hlock
  · cases heq

/-! ## §3. All runs. -/

variable [DecidableEq V]

omit [DecidableEq A] [DecidableEq V] in
theorem Start.inv (h : Start s) : Inv L s := by
  have hhand : ∀ a v, (s.core a).hand ≠ some v := by
    intro a v hv
    obtain ⟨c, pc, hc⟩ := h.core a
    rw [hc] at hv
    cases hv
  have hempty : ∀ v, stackOf L s (.inl v) = ∅ := by
    intro v
    show {y | ∃ b, s.sp v = some b ∧ y ∈ span b stackSize} = ∅
    rw [h.sp v]
    simp
  have hcur : ∀ a, curOf s a = .inr a := by
    intro a
    obtain ⟨c, pc, hc⟩ := h.core a
    unfold curOf
    rw [hc]
    rfl
  refine ⟨fun a b v hv => absurd hv (hhand a v), fun a v hv => absurd hv (hhand a v),
    fun x y hxy => ?_, fun x v => ?_, fun x w hx => ?_, fun v hv => absurd (h.sp v) hv,
    fun a v out e c i hc => ?_⟩
  · rcases x with v | a
    · rw [hempty v]
      exact Set.empty_disjoint _
    · rcases y with v | b
      · rw [hempty v]
        exact Set.disjoint_empty _
      · exact L.stacksApart a b fun heq => hxy (congrArg Sum.inr heq)
  · rcases x with u | a
    · rw [hempty u]
      exact Set.empty_disjoint _
    · exact L.stackWords a v
  · rcases x with v | a
    · exact absurd (h.sp v) (hx.1 v rfl)
    · exact absurd (hcur a) (hx.2 a)
  · apply absurd _ (hhand a v)
    rw [hc]
    rfl

theorem Inv.step (h : Inv L s) {act : Act A V} {s' : Workers A V} (hok : Ok L s act)
    (hs : workersStep L s act = some s') : Inv L s' := by
  cases act with
  | work a c pc m =>
      cases hc : s.core a with
      | jumps => simp [workersStep, hc] at hs
      | runs u c' pc' =>
          simp only [workersStep, hc] at hs
          obtain rfl := Option.some.inj hs
          exact h.work hc hok
  | resume a v ra =>
      cases hc : s.core a with
      | jumps => simp [workersStep, hc] at hs
      | runs u c pc =>
          cases u with
          | some w => simp [workersStep, hc] at hs
          | none =>
              simp only [workersStep, hc] at hs
              obtain rfl := Option.some.inj hs
              obtain ⟨hv, hone, hroom⟩ := hok
              have hcur : curOf s a = .inr a := by
                unfold curOf
                rw [hc]
                rfl
              exact h.call hc hcur (hroom c pc hc) hv fun b _ => hone b
  | yield a ret ra =>
      cases hc : s.core a with
      | jumps => simp [workersStep, hc] at hs
      | runs u c pc =>
          cases u with
          | none => simp [workersStep, hc] at hs
          | some v =>
              simp only [workersStep, hc] at hs
              obtain rfl := Option.some.inj hs
              have hv : (s.core a).hand = some v := by
                rw [hc]
                rfl
              have hcur : curOf s a = .inl v := by
                unfold curOf
                rw [hc]
                rfl
              exact h.call hc hcur (hok v c pc hc) (h.live a v hv)
                fun b hba hb => hba (h.hands b a v hb hv)
  | instr a =>
      cases hc : s.core a with
      | runs => simp [workersStep, hc] at hs
      | jumps v out e c i =>
          obtain ⟨f, t, dest, m, hj⟩ := h.jump a v out e c i hc
          obtain ⟨t', pc, hstep, hkeep, hnext⟩ := hj.next
          rcases hnext with ⟨j, m', rfl, hagree, hpath⟩ | ⟨rfl, -, hagree⟩
          · simp only [workersStep, hc, hstep] at hs
            obtain rfl := Option.some.inj hs
            exact h.inner hc hj hkeep hagree hpath
          · simp only [workersStep, hc, hstep] at hs
            obtain rfl := Option.some.inj hs
            exact h.exit hc hj hkeep hagree
  | init a v sp =>
      cases hc : s.core a with
      | jumps => simp [workersStep, hc] at hs
      | runs u c pc =>
          simp only [workersStep, hc] at hs
          obtain rfl := Option.some.inj hs
          obtain ⟨hv, hlt, hstack, hwords⟩ := hok
          exact h.init hv hlt hstack hwords
  | free a v =>
      cases hc : s.core a with
      | jumps => simp [workersStep, hc] at hs
      | runs u c pc =>
          simp only [workersStep, hc] at hs
          obtain rfl := Option.some.inj hs
          exact h.free hok

theorem inv_keeps : (workers L).Keeps (Ok L) (Inv L) where
  start _ h := h.inv
  step _ _ _ h hok hs := h.step hok hs

end HThread.Fcontext
