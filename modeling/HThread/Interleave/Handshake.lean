/-
  HThread.Interleave.Handshake — a flag that keeps others away from an item.

  An agent that is about to leave an item behind clears the item's flag; it
  sets the flag again when it has left for good.  Others reach the item through
  a check of the flag.  `leaver v` is the agent that is leaving `v`: as long as
  there is one the flag stays cleared and no agent is active on `v`.

  Key lemmas:
    * `Handshake.stay`, `arm`, `check`, `settle` — one rule for each kind of step.
    * `Handshake.not_active_of_leaving`, `leaver_unique` — what it gives.
-/
import Mathlib.Logic.Function.Basic

namespace Interleave

open Function (update)

variable {A P V : Type*} [DecidableEq A] [DecidableEq V]

/-- The flag is cleared while some agent is leaving the item; nobody else is
    active on it then.  Only the tracked items `T` are spoken of. -/
structure Watched (T : V → Prop) (leaving active : P → V → Prop) (pc : A → P) (flag : V → Bool)
    (leaver : V → Option A) : Prop where
  leaving : ∀ v a, T v → leaving (pc a) v → leaver v = some a
  dark : ∀ v, T v → leaver v ≠ none → flag v = false
  active : ∀ v a, T v → active (pc a) v → leaver v = none

/-- Every tracked item is watched. -/
def Handshake (T : V → Prop) (leaving active : P → V → Prop) (pc : A → P) (flag : V → Bool) :
    Prop :=
  ∃ leaver, Watched T leaving active pc flag leaver

namespace Handshake

variable {T : V → Prop} {leaving active : P → V → Prop} {pc : A → P} {flag flag' : V → Bool}

omit [DecidableEq A] [DecidableEq V]

/-! ## §1. What the invariant gives. -/

theorem leaver_unique (h : Handshake T leaving active pc flag) {v : V} {a a' : A} (hv : T v)
    (ha : leaving (pc a) v) (ha' : leaving (pc a') v) : a = a' := by
  obtain ⟨leaver, h⟩ := h
  have h₁ := h.leaving v a hv ha
  rw [h.leaving v a' hv ha'] at h₁
  exact (Option.some.inj h₁).symm

theorem not_active_of_leaving (h : Handshake T leaving active pc flag) {v : V} {a a' : A}
    (hv : T v) (ha : leaving (pc a) v) : ¬active (pc a') v := by
  obtain ⟨leaver, h⟩ := h
  intro ha'
  have h₁ := h.leaving v a hv ha
  rw [h.active v a' hv ha'] at h₁
  cases h₁

/-- Fewer tracked items. -/
theorem mono (h : Handshake T leaving active pc flag) {T' : V → Prop} (hT : ∀ v, T' v → T v) :
    Handshake T' leaving active pc flag := by
  obtain ⟨leaver, h⟩ := h
  exact ⟨leaver, fun v a hv => h.leaving v a (hT v hv), fun v hv => h.dark v (hT v hv),
    fun v a hv => h.active v a (hT v hv)⟩

/-! ## §2. One rule for each kind of step. -/

variable [DecidableEq A] [DecidableEq V]

omit [DecidableEq V] in
/-- The agent moves on and touches no flag. -/
theorem stay (h : Handshake T leaving active pc flag) {a : A} {p : P}
    (hl : ∀ w, T w → leaving p w → leaving (pc a) w)
    (ha : ∀ w, T w → active p w → active (pc a) w) (hf : flag' = flag) :
    Handshake T leaving active (update pc a p) flag' := by
  obtain ⟨leaver, h⟩ := h
  subst hf
  refine ⟨leaver, fun v x hv hx => ?_, h.dark, fun v x hv hx => ?_⟩
  · by_cases hxa : x = a
    · subst hxa
      rw [Function.update_self] at hx
      exact h.leaving v x hv (hl v hv hx)
    · rw [Function.update_of_ne hxa] at hx
      exact h.leaving v x hv hx
  · by_cases hxa : x = a
    · subst hxa
      rw [Function.update_self] at hx
      exact h.active v x hv (ha v hv hx)
    · rw [Function.update_of_ne hxa] at hx
      exact h.active v x hv hx

/-- The only agent active on `v` clears its flag and starts to leave it. -/
theorem arm (h : Handshake T leaving active pc flag) {a : A} {p : P} {v : V}
    (hv : T v → active (pc a) v) (honly : T v → ∀ x, active (pc x) v → x = a)
    (hl : ∀ w, T w → leaving p w → w = v ∨ leaving (pc a) w)
    (ha : ∀ w, T w → active p w → w ≠ v ∧ active (pc a) w) (hf : flag' = update flag v false) :
    Handshake T leaving active (update pc a p) flag' := by
  obtain ⟨leaver, h⟩ := h
  subst hf
  refine ⟨update leaver v (some a), fun w x hw hx => ?_, fun w hw hne => ?_, fun w x hw hx => ?_⟩
  · by_cases hwv : w = v
    · subst hwv
      rw [Function.update_self]
      by_cases hxa : x = a
      · rw [hxa]
      · -- `w` is active, so no other agent was leaving it
        rw [Function.update_of_ne hxa] at hx
        exact absurd (hv hw) (not_active_of_leaving ⟨leaver, h⟩ hw hx)
    · rw [Function.update_of_ne hwv]
      by_cases hxa : x = a
      · subst hxa
        rw [Function.update_self] at hx
        exact h.leaving w x hw ((hl w hw hx).resolve_left hwv)
      · rw [Function.update_of_ne hxa] at hx
        exact h.leaving w x hw hx
  · by_cases hwv : w = v
    · subst hwv
      rw [Function.update_self]
    · rw [Function.update_of_ne hwv] at hne ⊢
      exact h.dark w hw hne
  · by_cases hxa : x = a
    · subst hxa
      rw [Function.update_self] at hx
      obtain ⟨hne, hact⟩ := ha w hw hx
      rw [Function.update_of_ne hne]
      exact h.active w x hw hact
    · rw [Function.update_of_ne hxa] at hx
      have hwv : w ≠ v := by
        rintro rfl
        exact hxa (honly hw x hx)
      rw [Function.update_of_ne hwv]
      exact h.active w x hw hx

omit [DecidableEq V] in
/-- The agent finds the flag of `v` set and becomes active on it. -/
theorem check (h : Handshake T leaving active pc flag) {a : A} {p : P} {v : V}
    (hset : flag v = true) (hl : ∀ w, T w → leaving p w → leaving (pc a) w)
    (ha : ∀ w, T w → active p w → w = v ∨ active (pc a) w) (hf : flag' = flag) :
    Handshake T leaving active (update pc a p) flag' := by
  obtain ⟨leaver, h⟩ := h
  subst hf
  refine ⟨leaver, fun w x hw hx => ?_, h.dark, fun w x hw hx => ?_⟩
  · by_cases hxa : x = a
    · subst hxa
      rw [Function.update_self] at hx
      exact h.leaving w x hw (hl w hw hx)
    · rw [Function.update_of_ne hxa] at hx
      exact h.leaving w x hw hx
  · by_cases hxa : x = a
    · subst hxa
      rw [Function.update_self] at hx
      rcases ha w hw hx with rfl | hact
      · by_contra hne
        rw [h.dark w hw hne] at hset
        cases hset
      · exact h.active w x hw hact
    · rw [Function.update_of_ne hxa] at hx
      exact h.active w x hw hx

/-- The leaver of `v` sets its flag and has left. -/
theorem settle (h : Handshake T leaving active pc flag) {a : A} {p : P} {v : V}
    (hv : T v → leaving (pc a) v) (hl : ∀ w, T w → leaving p w → w ≠ v ∧ leaving (pc a) w)
    (ha : ∀ w, T w → active p w → active (pc a) w) (hf : flag' = update flag v true) :
    Handshake T leaving active (update pc a p) flag' := by
  obtain ⟨leaver, h⟩ := h
  subst hf
  refine ⟨update leaver v none, fun w x hw hx => ?_, fun w hw hne => ?_, fun w x hw hx => ?_⟩
  · by_cases hxa : x = a
    · subst hxa
      rw [Function.update_self] at hx
      obtain ⟨hne, hlv⟩ := hl w hw hx
      rw [Function.update_of_ne hne]
      exact h.leaving w x hw hlv
    · rw [Function.update_of_ne hxa] at hx
      have hwv : w ≠ v := by
        rintro rfl
        exact hxa (leaver_unique ⟨leaver, h⟩ hw hx (hv hw))
      rw [Function.update_of_ne hwv]
      exact h.leaving w x hw hx
  · have hwv : w ≠ v := by
      rintro rfl
      rw [Function.update_self] at hne
      exact hne rfl
    rw [Function.update_of_ne hwv] at hne ⊢
    exact h.dark w hw hne
  · by_cases hwv : w = v
    · subst hwv
      rw [Function.update_self]
    · rw [Function.update_of_ne hwv]
      by_cases hxa : x = a
      · subst hxa
        rw [Function.update_self] at hx
        exact h.active w x hw (ha w hw hx)
      · rw [Function.update_of_ne hxa] at hx
        exact h.active w x hw hx

end Handshake

end Interleave
