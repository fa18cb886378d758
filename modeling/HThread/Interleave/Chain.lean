/-
  HThread.Interleave.Chain — lists linked through a field of their nodes.

  `Chain next h l`: from the head pointer `h`, following the `next` fields, one
  meets exactly the nodes of `l`, in this order.

  Key lemmas:
    * `Chain.congr`             — the list is a matter of its nodes' fields.
    * `Chain.update_of_not_mem` — a store to a node outside leaves the list alone.
    * `Chain.cons`, `Chain.nil_iff`, `Chain.uncons` — push, empty test, pop.
-/
import Mathlib.Logic.Function.Basic

namespace Interleave

open Function (update)

/-- The nodes reached from `h` through `next` are those of the list. -/
def Chain {V : Type*} (next : V → Option V) : Option V → List V → Prop
  | h, [] => h = none
  | h, v :: l => h = some v ∧ Chain next (next v) l

namespace Chain

variable {V : Type*} {next : V → Option V} {h : Option V} {v : V} {l : List V}

theorem nil : Chain next none [] := rfl

theorem nil_iff : Chain next none l ↔ l = [] := by
  cases l with
  | nil => exact iff_of_true rfl rfl
  | cons v l => exact iff_of_false (fun hc => by cases hc.1) (List.cons_ne_nil v l)

/-- The head pointer names the first node, its `next` field the rest. -/
theorem uncons (hc : Chain next (some v) l) : ∃ l', l = v :: l' ∧ Chain next (next v) l' := by
  cases l with
  | nil => cases hc
  | cons w l' =>
      obtain ⟨hw, hl⟩ := hc
      obtain rfl := Option.some.inj hw
      exact ⟨l', rfl, hl⟩

/-- The list determines the head pointer. -/
theorem head_eq (hc : Chain next h l) : h = l.head? := by
  cases l with
  | nil => exact hc
  | cons v l => exact hc.1

/-- Only the `next` fields of the nodes matter. -/
theorem congr {next' : V → Option V} (hc : Chain next h l) (hn : ∀ v ∈ l, next' v = next v) :
    Chain next' h l := by
  induction l generalizing h with
  | nil => exact hc
  | cons w l ih =>
      obtain ⟨hw, hl⟩ := hc
      refine ⟨hw, ?_⟩
      rw [hn w List.mem_cons_self]
      exact ih hl fun v hv => hn v (List.mem_cons_of_mem w hv)

variable [DecidableEq V]

/-- A store to a node that is not in the list. -/
theorem update_of_not_mem (hc : Chain next h l) (hv : v ∉ l) (x : Option V) :
    Chain (update next v x) h l := by
  refine hc.congr fun w hw => ?_
  have hne : w ≠ v := fun he => hv (he ▸ hw)
  exact Function.update_of_ne hne x next

/-- A node that points to the head goes in front. -/
theorem cons (hc : Chain next h l) (hv : v ∉ l) : Chain (update next v h) (some v) (v :: l) := by
  refine ⟨rfl, ?_⟩
  rw [Function.update_self]
  exact hc.update_of_not_mem hv h

end Chain

end Interleave
