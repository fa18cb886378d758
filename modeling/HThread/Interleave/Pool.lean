/-
  HThread.Interleave.Pool — items that are handed out and brought back.

  An item is in the pool, in the hand of an actor that has just been given it, or
  in use.  An actor takes any item of the pool, goes off with it, and whoever has
  no more use for an item puts it back.  This is what a free list is for.

  Key lemma:
    * `pool_exclusive` — an item is in one hand only, and not in use at the same time.
-/
import Mathlib.Logic.Function.Basic
import HThread.Interleave.Machine

namespace Interleave

open Function (update)

variable {A N : Type*}

/-- The items in use, and those in the hands of the actors. -/
structure Pool (A N : Type*) where
  used : N → Bool
  hand : A → Option N

/-- The item is in the pool. -/
def Pool.Has (s : Pool A N) (n : N) : Prop := s.used n = false ∧ ∀ a, s.hand a ≠ some n

inductive PoolAct (A N : Type*) where
  | put (n : N)
  | take (a : A) (n : N)
  | leave (a : A)
  deriving DecidableEq, Repr

variable [DecidableEq A] [DecidableEq N]

open Classical in
noncomputable def poolStep (s : Pool A N) : PoolAct A N → Option (Pool A N)
  | .put n => if s.used n = true then some { s with used := update s.used n false } else none
  | .take a n =>
      if s.hand a = none ∧ s.Has n then some { s with hand := update s.hand a (some n) } else none
  | .leave a =>
      match s.hand a with
      | some n => some ⟨update s.used n true, update s.hand a none⟩
      | none => none

/-- All items are in the pool at first. -/
noncomputable def pool (A N : Type*) [DecidableEq A] [DecidableEq N] :
    Machine (Pool A N) (PoolAct A N) where
  init s := s = ⟨fun _ => false, fun _ => none⟩
  step := poolStep

/-- No two actors have the same item, and none has one that is in use. -/
structure Pool.Exclusive (s : Pool A N) : Prop where
  one : ∀ a b n, s.hand a = some n → s.hand b = some n → a = b
  apart : ∀ a n, s.hand a = some n → s.used n = false

/-- **An item is in one place only.** -/
theorem pool_exclusive : (pool A N).Keeps (fun _ _ => True) Pool.Exclusive where
  start s hs := by
    obtain rfl := hs
    refine ⟨fun a b n h => ?_, fun a n h => ?_⟩
    · cases h
    · cases h
  step s act s' h _ hstep := by
    cases act with
    | put n =>
        simp only [pool, poolStep, Option.ite_none_right_eq_some] at hstep
        obtain ⟨hused, hstep⟩ := hstep
        obtain rfl := Option.some.inj hstep
        refine ⟨h.one, fun a m ha => ?_⟩
        by_cases hmn : m = n
        · rw [hmn]
          exact Function.update_self ..
        · show update s.used n false m = false
          rw [Function.update_of_ne hmn]
          exact h.apart a m ha
    | take a n =>
        simp only [pool, poolStep, Option.ite_none_right_eq_some] at hstep
        obtain ⟨⟨-, hfree, hnobody⟩, hstep⟩ := hstep
        obtain rfl := Option.some.inj hstep
        have hold : ∀ b m, update s.hand a (some n) b = some m →
            (b = a ∧ m = n) ∨ (b ≠ a ∧ s.hand b = some m) := by
          intro b m hb
          by_cases hba : b = a
          · rw [hba, Function.update_self] at hb
            exact .inl ⟨hba, (Option.some.inj hb).symm⟩
          · rw [Function.update_of_ne hba] at hb
            exact .inr ⟨hba, hb⟩
        refine ⟨fun b c m hb hc => ?_, fun b m hb => ?_⟩
        · rcases hold b m hb with ⟨hba, hmn⟩ | ⟨-, hb'⟩
          · rcases hold c m hc with ⟨hca, -⟩ | ⟨-, hc'⟩
            · rw [hba, hca]
            · exact absurd (hmn ▸ hc') (hnobody c)
          · rcases hold c m hc with ⟨-, hmn⟩ | ⟨-, hc'⟩
            · exact absurd (hmn ▸ hb') (hnobody b)
            · exact h.one b c m hb' hc'
        · rcases hold b m hb with ⟨-, rfl⟩ | ⟨-, hb⟩
          · exact hfree
          · exact h.apart b m hb
    | leave a =>
        simp only [pool, poolStep] at hstep
        cases ha : s.hand a with
        | none =>
            rw [ha] at hstep
            cases hstep
        | some n =>
            rw [ha] at hstep
            obtain rfl := Option.some.inj hstep
            have hold : ∀ b m, update s.hand a none b = some m → b ≠ a ∧ s.hand b = some m := by
              intro b m hb
              by_cases hba : b = a
              · rw [hba, Function.update_self] at hb
                cases hb
              · rw [Function.update_of_ne hba] at hb
                exact ⟨hba, hb⟩
            refine ⟨fun b c m hb hc => h.one b c m (hold b m hb).2 (hold c m hc).2,
              fun b m hb => ?_⟩
            obtain ⟨hba, hb⟩ := hold b m hb
            have hmn : m ≠ n := fun hmn => hba (h.one b a m hb (hmn ▸ ha))
            show update s.used n true m = false
            rw [Function.update_of_ne hmn]
            exact h.apart b m hb

end Interleave
