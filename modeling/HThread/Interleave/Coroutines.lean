/-
  HThread.Interleave.Coroutines — contexts that take turns on processors.

  A context has registers.  A processor runs one context, and may change its
  registers; when it switches, the registers of the context it leaves are kept,
  and those of the one it goes on with are what they were.  A word goes from the
  one to the other.  This is what a context switch is for, wherever the registers
  are kept meanwhile.

  Key lemma:
    * `parked_kept` — the registers of a context that does not run stay, and it
      goes on with them.
-/
import Mathlib.Logic.Function.Basic
import HThread.Interleave.Refinement

namespace Interleave

open Function (update)

/-- The context on each processor, its registers with a word to hand over, and the
    registers of the contexts that do not run. -/
@[ext]
structure Coroutines (A C W X : Type*) where
  cur : A → C
  regs : A → W × X
  parked : C → Option W

inductive CoAct (A C W X : Type*) where
  | act (a : A) (r : W × X)
  | switch (a : A) (c : C)
  | create (c : C) (w : W)
  | drop (c : C)

variable {A C W X : Type*} [DecidableEq A] [DecidableEq C]

def coStep (s : Coroutines A C W X) : CoAct A C W X → Option (Coroutines A C W X)
  | .act a r => some { s with regs := update s.regs a r }
  | .switch a c => (s.parked c).map fun w =>
      { cur := update s.cur a c
        regs := update s.regs a (w, (s.regs a).2)
        parked := update (update s.parked (s.cur a) (some (s.regs a).1)) c none }
  | .create c w => some { s with parked := update s.parked c (some w) }
  | .drop c => some { s with parked := update s.parked c none }

/-- A context is created where there is none. -/
def CoOk (s : Coroutines A C W X) : CoAct A C W X → Prop
  | .create c _ => s.parked c = none ∧ ∀ a, s.cur a ≠ c
  | _ => True

/-- A context runs on one processor at most, and is not parked then. -/
structure CoSound (s : Coroutines A C W X) : Prop where
  one : Function.Injective s.cur
  away : ∀ a, s.parked (s.cur a) = none

def coroutines : Machine (Coroutines A C W X) (CoAct A C W X) where
  init := CoSound
  step := coStep

variable {s t : Coroutines A C W X} {c : C} {w : W} {b : CoAct A C W X}

omit [DecidableEq A] [DecidableEq C] in
theorem cur_ne (h : CoSound s) (hc : s.parked c = some w) (a : A) : s.cur a ≠ c := by
  rintro rfl
  rw [h.away a] at hc
  contradiction

theorem coroutines_sound : coroutines.Keeps CoOk (CoSound (A := A) (C := C) (W := W) (X := X)) where
  start _ h := h
  step s b t h hok hs := by
    cases b with
    | act a r =>
        obtain rfl := Option.some.inj hs
        exact ⟨h.one, h.away⟩
    | create c w =>
        obtain rfl := Option.some.inj hs
        exact ⟨h.one, fun a => (Function.update_of_ne (hok.2 a) _ _).trans (h.away a)⟩
    | drop c =>
        obtain rfl := Option.some.inj hs
        refine ⟨h.one, fun a => ?_⟩
        show update s.parked c none (s.cur a) = none
        by_cases hc : s.cur a = c
        · rw [hc, Function.update_self]
        · rw [Function.update_of_ne hc, h.away a]
    | switch a c =>
        obtain ⟨w, hc, rfl⟩ := Option.map_eq_some_iff.mp hs
        have hne := cur_ne h hc
        constructor
        · intro a₁ a₂ heq
          have heq : update s.cur a c a₁ = update s.cur a c a₂ := heq
          by_cases h₁ : a₁ = a <;> by_cases h₂ : a₂ = a
          · rw [h₁, h₂]
          · rw [h₁, Function.update_self, Function.update_of_ne h₂] at heq
            exact absurd heq.symm (hne a₂)
          · rw [h₂, Function.update_self, Function.update_of_ne h₁] at heq
            exact absurd heq (hne a₁)
          · rw [Function.update_of_ne h₁, Function.update_of_ne h₂] at heq
            exact h.one heq
        · intro b
          show update (update s.parked (s.cur a) _) c none (update s.cur a c b) = none
          by_cases hb : b = a
          · rw [hb, Function.update_self, Function.update_self]
          · rw [Function.update_of_ne hb, Function.update_of_ne (hne b),
              Function.update_of_ne fun heq => hb (h.one heq)]
            exact h.away b

/-- **The registers of a context that does not run stay, and it goes on with them.** -/
theorem parked_kept (h : CoSound s) (hok : CoOk s b) (hs : coroutines.step s b = some t)
    (hc : s.parked c = some w) :
    t.parked c = some w ∨
      t.parked c = none ∧ ∀ a, t.cur a = c → t.regs a = (w, (s.regs a).2) := by
  have hne := cur_ne h hc
  cases b with
  | act a r =>
      obtain rfl := Option.some.inj hs
      exact .inl hc
  | create d w' =>
      obtain rfl := Option.some.inj hs
      refine .inl ((Function.update_of_ne ?_ _ _).trans hc)
      rintro rfl
      exact absurd (hok.1.symm.trans hc) (Option.some_ne_none w).symm
  | drop d =>
      obtain rfl := Option.some.inj hs
      by_cases hd : c = d
      · subst hd
        exact .inr ⟨Function.update_self _ _ _, fun a ha => absurd ha (hne a)⟩
      · exact .inl ((Function.update_of_ne hd _ _).trans hc)
  | switch a d =>
      obtain ⟨w', hd, rfl⟩ := Option.map_eq_some_iff.mp hs
      by_cases hcd : c = d
      · subst hcd
        obtain rfl : w = w' := Option.some.inj (hc.symm.trans hd)
        refine .inr ⟨Function.update_self _ _ _, fun b hb => ?_⟩
        have hb : update s.cur a c b = c := hb
        by_cases hba : b = a
        · rw [hba]
          exact Function.update_self _ _ _
        · rw [Function.update_of_ne hba] at hb
          exact absurd hb (hne b)
      · refine .inl ?_
        show update (update s.parked (s.cur a) _) d none c = some w
        rw [Function.update_of_ne hcd, Function.update_of_ne (hne a).symm, hc]

end Interleave
