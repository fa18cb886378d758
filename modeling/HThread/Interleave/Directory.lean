/-
  HThread.Interleave.Directory — every actor has an entry, made when it first asks.

  An actor that asks for its entry gets it; if it has none yet, it gets one that no
  other actor has.  This is what a table of the actors is for, however it is kept.

  Key lemma:
    * `directory_consistent` — an actor gets the same answer whenever it asks, and
      no two actors get the same.
-/
import Mathlib.Logic.Function.Basic
import HThread.Interleave.Machine

namespace Interleave

open Function (update)

variable {A N : Type*}

/-- The entries, and what the actors have been told so far. -/
structure Directory (A N : Type*) where
  entry : A → Option N
  answers : A → List N

inductive DirectoryAct (A N : Type*) where
  | assign (a : A) (n : N)
  | answer (a : A)
  deriving DecidableEq, Repr

variable [DecidableEq A]

open Classical in
noncomputable def directoryStep (s : Directory A N) :
    DirectoryAct A N → Option (Directory A N)
  | .assign a n =>
      if s.entry a = none ∧ ∀ b, s.entry b ≠ some n then
        some { s with entry := update s.entry a (some n) }
      else none
  | .answer a =>
      match s.entry a with
      | some n => some { s with answers := update s.answers a (n :: s.answers a) }
      | none => none

/-- Nobody has an entry at first. -/
noncomputable def directory (A N : Type*) [DecidableEq A] :
    Machine (Directory A N) (DirectoryAct A N) where
  init s := s = ⟨fun _ => none, fun _ => []⟩
  step := directoryStep

/-- The answers are the entries, and no two actors have the same. -/
structure Directory.Consistent (s : Directory A N) : Prop where
  answered : ∀ a, ∀ n ∈ s.answers a, s.entry a = some n
  inj : ∀ a b n, s.entry a = some n → s.entry b = some n → a = b

omit [DecidableEq A] in
/-- An actor is told the same whenever it asks. -/
theorem Directory.Consistent.same {s : Directory A N} (h : s.Consistent) {a : A} {m n : N}
    (hm : m ∈ s.answers a) (hn : n ∈ s.answers a) : m = n :=
  Option.some.inj ((h.answered a m hm).symm.trans (h.answered a n hn))

omit [DecidableEq A] in
/-- No other actor is told the same. -/
theorem Directory.Consistent.apart {s : Directory A N} (h : s.Consistent) {a b : A} {n : N}
    (ha : n ∈ s.answers a) (hb : n ∈ s.answers b) : a = b :=
  h.inj a b n (h.answered a n ha) (h.answered b n hb)

/-- **Everybody gets an entry of its own, and always the same one.** -/
theorem directory_consistent :
    (directory A N).Keeps (fun _ _ => True) Directory.Consistent where
  start s hs := by
    obtain rfl := hs
    exact ⟨fun _ => nofun, nofun⟩
  step s act s' h _ hstep := by
    cases act with
    | assign a n =>
        simp only [directory, directoryStep, Option.ite_none_right_eq_some] at hstep
        obtain ⟨⟨hnone, hfree⟩, hstep⟩ := hstep
        obtain rfl := Option.some.inj hstep
        -- the new entry is nobody's, and `a` had none that it could have been told
        have hold : ∀ b m, update s.entry a (some n) b = some m →
            (b = a ∧ m = n) ∨ s.entry b = some m := by
          intro b m hb
          by_cases hba : b = a
          · rw [hba, Function.update_self] at hb
            exact .inl ⟨hba, (Option.some.inj hb).symm⟩
          · rw [Function.update_of_ne hba] at hb
            exact .inr hb
        refine ⟨fun b m hm => ?_, fun b c m hb hc => ?_⟩
        · have hb := h.answered b m hm
          show update s.entry a (some n) b = some m
          rw [Function.update_of_ne]
          · exact hb
          · rintro rfl
            rw [hnone] at hb
            cases hb
        · rcases hold b m hb with ⟨hba, hmn⟩ | hb
          · rcases hold c m hc with ⟨hca, -⟩ | hc
            · rw [hba, hca]
            · exact absurd (hmn ▸ hc) (hfree c)
          · rcases hold c m hc with ⟨-, hmn⟩ | hc
            · exact absurd (hmn ▸ hb) (hfree b)
            · exact h.inj b c m hb hc
    | answer a =>
        simp only [directory, directoryStep] at hstep
        cases ha : s.entry a with
        | none =>
            rw [ha] at hstep
            cases hstep
        | some n =>
            rw [ha] at hstep
            obtain rfl := Option.some.inj hstep
            refine ⟨fun b m hm => ?_, h.inj⟩
            have hm : m ∈ update s.answers a (n :: s.answers a) b := hm
            by_cases hba : b = a
            · subst hba
              rw [Function.update_self] at hm
              rcases List.mem_cons.mp hm with rfl | hm
              · exact ha
              · exact h.answered b m hm
            · rw [Function.update_of_ne hba] at hm
              exact h.answered b m hm

end Interleave
