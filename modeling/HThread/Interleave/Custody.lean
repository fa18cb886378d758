/-
  HThread.Interleave.Custody — items that wander between agents and bags.

  An item is in one place at a time: in a bag (a queue), in the hands of an
  agent (its program point tells which items), or gone for good.  Steps put an
  item an agent holds into a bag, take one out, pour one bag into another or
  retire an item.  The invariant only speaks of the tracked items `T`, so that
  it survives the moment from which some items are no longer handled one at a
  time.

  Key lemmas:
    * `Custody.stay`, `put`, `take`, `pour`, `retire` — one rule for each kind
      of step.
    * `Custody.holder_unique`, `count_le`, `not_mem_of_holds`, `bag_unique`,
      `not_mem_of_gone`, `not_holds_of_gone` — what the invariant is good for.
-/
import Mathlib.Data.List.Count
import Mathlib.Logic.Function.Basic

namespace Interleave

open Function (update)

/-- Where the new value has not the property, the old function has it elsewhere. -/
theorem of_update {α β : Type*} [DecidableEq α] {f : α → β} {P : β → Prop} {a b : α} {p : β}
    (hp : ¬P p) (h : P (update f a p b)) : b ≠ a ∧ P (f b) := by
  have hba : b ≠ a := by
    intro he
    rw [he, Function.update_self] at h
    exact hp h
  rw [Function.update_of_ne hba] at h
  exact ⟨hba, h⟩

theorem eq_of_update {α β : Type*} [DecidableEq α] {f : α → β} {a b : α} {p q : β} (hp : p ≠ q)
    (h : update f a p b = q) : b ≠ a ∧ f b = q := of_update (P := fun r => r = q) hp h

/-- Where an item is. -/
inductive Place (B A : Type*) where
  | bag (b : B)
  | agent (a : A)
  | gone

variable {A B P V : Type*} [DecidableEq A] [DecidableEq V]

/-- Every tracked item is in the place `loc` tells, at most once: bags contain
    it only there, only that agent's program point holds it, and the items of
    `gone` are nowhere. -/
structure Placed (T : V → Prop) (holds : P → V → Prop) (pc : A → P) (bag : B → List V)
    (gone : V → Prop) (loc : V → Place B A) : Prop where
  mem : ∀ v b, T v → v ∈ bag b → loc v = .bag b
  once : ∀ v b, T v → (bag b).count v ≤ 1
  held : ∀ v a, T v → holds (pc a) v → loc v = .agent a
  away : ∀ v, T v → gone v → loc v = .gone

/-- Every tracked item is in one place at a time. -/
def Custody (T : V → Prop) (holds : P → V → Prop) (pc : A → P) (bag : B → List V)
    (gone : V → Prop) : Prop :=
  ∃ loc, Placed T holds pc bag gone loc

namespace Custody

variable {T : V → Prop} {holds : P → V → Prop} {pc : A → P} {bag bag' : B → List V}
  {gone : V → Prop}

omit [DecidableEq A]

/-! ## §1. What the invariant gives. -/

theorem holder_unique (h : Custody T holds pc bag gone) {v : V} {a a' : A} (hv : T v)
    (ha : holds (pc a) v) (ha' : holds (pc a') v) : a = a' := by
  obtain ⟨loc, h⟩ := h
  have h₁ := h.held v a hv ha
  rw [h.held v a' hv ha'] at h₁
  exact (Place.agent.inj h₁).symm

theorem not_mem_of_holds (h : Custody T holds pc bag gone) {v : V} {a : A} {b : B} (hv : T v)
    (ha : holds (pc a) v) : v ∉ bag b := by
  obtain ⟨loc, h⟩ := h
  intro hb
  have h₁ := h.held v a hv ha
  rw [h.mem v b hv hb] at h₁
  cases h₁

theorem count_le (h : Custody T holds pc bag gone) {v : V} (b : B) (hv : T v) :
    (bag b).count v ≤ 1 := by
  obtain ⟨loc, h⟩ := h
  exact h.once v b hv

theorem bag_unique (h : Custody T holds pc bag gone) {v : V} {b d : B} (hv : T v)
    (hb : v ∈ bag b) (hb' : v ∈ bag d) : b = d := by
  obtain ⟨loc, h⟩ := h
  have h₁ := h.mem v b hv hb
  rw [h.mem v d hv hb'] at h₁
  exact (Place.bag.inj h₁).symm

theorem not_mem_of_gone (h : Custody T holds pc bag gone) {v : V} {b : B} (hv : T v)
    (hg : gone v) : v ∉ bag b := by
  obtain ⟨loc, h⟩ := h
  intro hb
  have h₁ := h.away v hv hg
  rw [h.mem v b hv hb] at h₁
  cases h₁

theorem not_holds_of_gone (h : Custody T holds pc bag gone) {v : V} {a : A} (hv : T v)
    (hg : gone v) : ¬holds (pc a) v := by
  obtain ⟨loc, h⟩ := h
  intro ha
  have h₁ := h.away v hv hg
  rw [h.held v a hv ha] at h₁
  cases h₁

/-- Fewer tracked items. -/
theorem mono (h : Custody T holds pc bag gone) {T' : V → Prop} (hT : ∀ v, T' v → T v) :
    Custody T' holds pc bag gone := by
  obtain ⟨loc, h⟩ := h
  exact ⟨loc, fun v b hv => h.mem v b (hT v hv), fun v b hv => h.once v b (hT v hv),
    fun v a hv => h.held v a (hT v hv), fun v hv => h.away v (hT v hv)⟩

/-! ## §2. One rule for each kind of step. -/

variable [DecidableEq A]

/-- The agent moves on; it may let go of items but takes none. -/
theorem stay (h : Custody T holds pc bag gone) {a : A} {p : P}
    (hp : ∀ w, T w → holds p w → holds (pc a) w) (hbag : bag' = bag) :
    Custody T holds (update pc a p) bag' gone := by
  obtain ⟨loc, h⟩ := h
  subst hbag
  refine ⟨loc, h.mem, h.once, fun v x hv hx => ?_, h.away⟩
  by_cases hxa : x = a
  · subst hxa
    rw [Function.update_self] at hx
    exact h.held v x hv (hp v hv hx)
  · rw [Function.update_of_ne hxa] at hx
    exact h.held v x hv hx

/-- The agent puts an item it holds into bag `b`. -/
theorem put (h : Custody T holds pc bag gone) {a : A} {p : P} {v : V} {b : B}
    (hv : T v → holds (pc a) v) (hp : ∀ w, T w → holds p w → w ≠ v ∧ holds (pc a) w)
    (hb : (bag' b).Perm (v :: bag b)) (hb' : ∀ x, x ≠ b → bag' x = bag x) :
    Custody T holds (update pc a p) bag' gone := by
  classical
  obtain ⟨loc, h⟩ := h
  refine ⟨update loc v (.bag b), fun w x hw hx => ?_, fun w x hw => ?_, fun w x hw hx => ?_,
    fun w hw hg => ?_⟩
  · by_cases hwv : w = v
    · subst hwv
      -- it was in the agent's hands, so no bag contained it before
      have hnot : ∀ y, w ∉ bag y := fun y => not_mem_of_holds ⟨loc, h⟩ hw (hv hw)
      rw [Function.update_self]
      by_cases hxb : x = b
      · rw [hxb]
      · rw [hb' x hxb] at hx
        exact absurd hx (hnot x)
    · rw [Function.update_of_ne hwv]
      by_cases hxb : x = b
      · subst hxb
        rw [hb.mem_iff, List.mem_cons] at hx
        exact h.mem w x hw (hx.resolve_left hwv)
      · rw [hb' x hxb] at hx
        exact h.mem w x hw hx
  · by_cases hxb : x = b
    · subst hxb
      rw [hb.count_eq]
      by_cases hwv : w = v
      · subst hwv
        have h0 : (bag x).count w = 0 :=
          List.count_eq_zero.mpr (not_mem_of_holds ⟨loc, h⟩ hw (hv hw))
        have h1 : (w :: bag x).count w = (bag x).count w + 1 := List.count_cons_self
        omega
      · rw [List.count_cons_of_ne (Ne.symm hwv)]
        exact h.once w x hw
    · rw [hb' x hxb]
      exact h.once w x hw
  · by_cases hxa : x = a
    · subst hxa
      rw [Function.update_self] at hx
      obtain ⟨hne, hold⟩ := hp w hw hx
      rw [Function.update_of_ne hne]
      exact h.held w x hw hold
    · rw [Function.update_of_ne hxa] at hx
      have hwv : w ≠ v := by
        rintro rfl
        exact hxa (holder_unique ⟨loc, h⟩ hw hx (hv hw))
      rw [Function.update_of_ne hwv]
      exact h.held w x hw hx
  · have hwv : w ≠ v := by
      rintro rfl
      exact not_holds_of_gone ⟨loc, h⟩ hw hg (hv hw)
    rw [Function.update_of_ne hwv]
    exact h.away w hw hg

/-- The agent takes an item out of bag `b`. -/
theorem take (h : Custody T holds pc bag gone) {a : A} {p : P} {v : V} {b : B}
    (hp : ∀ w, T w → holds p w → w = v ∨ holds (pc a) w)
    (hb : (bag b).Perm (v :: bag' b)) (hb' : ∀ x, x ≠ b → bag' x = bag x) :
    Custody T holds (update pc a p) bag' gone := by
  classical
  obtain ⟨loc, h⟩ := h
  have hv : v ∈ bag b := hb.mem_iff.mpr List.mem_cons_self
  have hcount : ∀ w x, (bag' x).count w ≤ (bag x).count w := by
    intro w x
    by_cases hxb : x = b
    · subst hxb
      rw [hb.count_eq]
      exact List.count_le_count_cons
    · exact Nat.le_of_eq (by rw [hb' x hxb])
  have hsub : ∀ w x, w ∈ bag' x → w ∈ bag x := by
    intro w x hx
    have h₁ := hcount w x
    rw [← List.count_pos_iff] at hx ⊢
    omega
  refine ⟨update loc v (.agent a), fun w x hw hx => ?_, fun w x hw => ?_, fun w x hw hx => ?_,
    fun w hw hg => ?_⟩
  · have hwv : w ≠ v := by
      rintro rfl
      have hxb : x = b := bag_unique ⟨loc, h⟩ hw (hsub w x hx) hv
      subst hxb
      have h₁ := h.once w x hw
      rw [hb.count_eq, List.count_cons_self] at h₁
      rw [← List.count_pos_iff] at hx
      omega
    rw [Function.update_of_ne hwv]
    exact h.mem w x hw (hsub w x hx)
  · exact Nat.le_trans (hcount w x) (h.once w x hw)
  · by_cases hwv : w = v
    · subst hwv
      rw [Function.update_self]
      by_cases hxa : x = a
      · rw [hxa]
      · rw [Function.update_of_ne hxa] at hx
        exact absurd hv (not_mem_of_holds ⟨loc, h⟩ hw hx)
    · rw [Function.update_of_ne hwv]
      by_cases hxa : x = a
      · subst hxa
        rw [Function.update_self] at hx
        exact h.held w x hw ((hp w hw hx).resolve_left hwv)
      · rw [Function.update_of_ne hxa] at hx
        exact h.held w x hw hx
  · have hwv : w ≠ v := by
      rintro rfl
      exact not_mem_of_gone ⟨loc, h⟩ hw hg hv
    rw [Function.update_of_ne hwv]
    exact h.away w hw hg

/-- The agent pours bag `b` into the empty bag `d`. -/
theorem pour [DecidableEq B] (h : Custody T holds pc bag gone) {a : A} {p : P} {b d : B}
    (hp : ∀ w, T w → holds p w → holds (pc a) w) (hne : b ≠ d) (hempty : bag d = [])
    (hbag : bag' = update (update bag b []) d (bag b)) :
    Custody T holds (update pc a p) bag' gone := by
  classical
  obtain ⟨loc, h⟩ := h
  subst hbag
  have hfrom : update (update bag b []) d (bag b) b = [] := by
    rw [Function.update_of_ne hne, Function.update_self]
  refine ⟨fun w => if loc w = .bag b then .bag d else loc w, fun w x hw hx => ?_,
    fun w x hw => ?_, fun w x hw hx => ?_, fun w hw hg => ?_⟩
  · by_cases hxd : x = d
    · subst hxd
      rw [Function.update_self] at hx
      exact if_pos (h.mem w b hw hx)
    · have hxb : x ≠ b := by
        rintro rfl
        rw [hfrom] at hx
        cases hx
      rw [Function.update_of_ne hxd, Function.update_of_ne hxb] at hx
      have hloc := h.mem w x hw hx
      have hnot : loc w ≠ .bag b := fun he => hxb (Place.bag.inj (hloc.symm.trans he))
      exact (if_neg hnot).trans hloc
  · by_cases hxd : x = d
    · subst hxd
      rw [Function.update_self]
      exact h.once w b hw
    · by_cases hxb : x = b
      · subst hxb
        rw [hfrom]
        exact Nat.zero_le 1
      · rw [Function.update_of_ne hxd, Function.update_of_ne hxb]
        exact h.once w x hw
  · have hold : loc w = .agent x := by
      by_cases hxa : x = a
      · subst hxa
        rw [Function.update_self] at hx
        exact h.held w x hw (hp w hw hx)
      · rw [Function.update_of_ne hxa] at hx
        exact h.held w x hw hx
    show (if loc w = .bag b then .bag d else loc w) = .agent x
    rw [hold, if_neg (by simp)]
  · show (if loc w = .bag b then .bag d else loc w) = .gone
    rw [h.away w hw hg, if_neg (by simp)]

/-- The agent lets go of `v` for good. -/
theorem retire (h : Custody T holds pc bag gone) {a : A} {p : P} {v : V} {gone' : V → Prop}
    (hv : T v → holds (pc a) v) (hp : ∀ w, T w → holds p w → w ≠ v ∧ holds (pc a) w)
    (hg' : ∀ w, gone' w → w = v ∨ gone w) (hbag : bag' = bag) :
    Custody T holds (update pc a p) bag' gone' := by
  classical
  obtain ⟨loc, h⟩ := h
  subst hbag
  refine ⟨update loc v .gone, fun w x hw hx => ?_, h.once, fun w x hw hx => ?_, fun w hw hg => ?_⟩
  · have hwv : w ≠ v := by
      rintro rfl
      exact not_mem_of_holds ⟨loc, h⟩ hw (hv hw) hx
    rw [Function.update_of_ne hwv]
    exact h.mem w x hw hx
  · by_cases hxa : x = a
    · subst hxa
      rw [Function.update_self] at hx
      obtain ⟨hne, hold⟩ := hp w hw hx
      rw [Function.update_of_ne hne]
      exact h.held w x hw hold
    · rw [Function.update_of_ne hxa] at hx
      have hwv : w ≠ v := by
        rintro rfl
        exact hxa (holder_unique ⟨loc, h⟩ hw hx (hv hw))
      rw [Function.update_of_ne hwv]
      exact h.held w x hw hx
  · by_cases hwv : w = v
    · rw [hwv, Function.update_self]
    · rw [Function.update_of_ne hwv]
      exact h.away w hw ((hg' w hg).resolve_left hwv)

end Custody

end Interleave
