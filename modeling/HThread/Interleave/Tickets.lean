/-
  HThread.Interleave.Tickets — drawing tickets for a stock that grows.

  Whoever wants an item draws the next ticket.  The ticket wins if its number
  is below the stock and the number of tickets that have lost so far, as far as
  its holder knows; what the holder knows may be out of date, but counts only
  tickets drawn before.  `wins` and `losses` are the tickets decided so far.

  Key lemma:
    * `Covered.card_le` — there are never more winners than items.
-/
import Mathlib.Data.Finset.Max
import Mathlib.Data.Finset.Card
import Mathlib.Order.Interval.Finset.Nat

namespace Interleave

variable {wins losses : Finset ℕ} {stock stock' c k : ℕ}

/-- The losses among the tickets before `c`. -/
def lossesBelow (losses : Finset ℕ) (c : ℕ) : ℕ := (losses.filter (· < c)).card

/-- Every winner has a place in the stock, when the losers before it are passed over. -/
def Covered (wins losses : Finset ℕ) (stock : ℕ) : Prop :=
  ∀ w ∈ wins, w < stock + lossesBelow losses w

theorem lossesBelow_mono {losses' : Finset ℕ} (h : losses ⊆ losses') :
    lossesBelow losses c ≤ lossesBelow losses' c :=
  Finset.card_le_card (Finset.filter_subset_filter _ h)

/-- Before a ticket that has not been drawn there are all losses. -/
theorem lossesBelow_of_drawn (h : ∀ l ∈ losses, l < c) : lossesBelow losses c = losses.card := by
  unfold lossesBelow
  rw [Finset.filter_true_of_mem h]

namespace Covered

theorem empty : Covered ∅ losses stock := fun w hw => absurd hw (Finset.notMem_empty w)

theorem more (h : Covered wins losses stock) (hle : stock ≤ stock') :
    Covered wins losses stock' := fun w hw => by
  have := h w hw
  omega

theorem lose (h : Covered wins losses stock) (c : ℕ) :
    Covered wins (insert c losses) stock := fun w hw => by
  have hlt := h w hw
  have hmono := lossesBelow_mono (c := w) (Finset.subset_insert c losses)
  omega

/-- A ticket wins by what its holder knows of the losses before it. -/
theorem win (h : Covered wins losses stock) (hknown : k ≤ lossesBelow losses c)
    (hlt : c < stock + k) : Covered (insert c wins) losses stock := fun w hw => by
  rcases Finset.mem_insert.mp hw with rfl | hw
  · omega
  · exact h w hw

/-- **No more winners than items.**  The last winner has a place, and all the others
    come before it. -/
theorem card_le (h : Covered wins losses stock) (hdis : Disjoint wins losses) :
    wins.card ≤ stock := by
  rcases wins.eq_empty_or_nonempty with rfl | hne
  · exact Nat.zero_le _
  · have hmem := wins.max'_mem hne
    have hlast := h _ hmem
    have hsub : wins ∪ losses.filter (· < wins.max' hne) ⊆ Finset.range (wins.max' hne + 1) := by
      intro w hw
      rw [Finset.mem_range]
      rcases Finset.mem_union.mp hw with hw | hw
      · exact Nat.lt_succ_of_le (wins.le_max' w hw)
      · exact Nat.lt_succ_of_lt (Finset.mem_filter.mp hw).2
    have hcard := Finset.card_le_card hsub
    have hdis' : Disjoint wins (losses.filter (· < wins.max' hne)) :=
      hdis.mono_right (Finset.filter_subset _ _)
    rw [Finset.card_union_of_disjoint hdis', Finset.card_range] at hcard
    have hbelow : lossesBelow losses (wins.max' hne)
      = (losses.filter (· < wins.max' hne)).card := rfl
    omega

end Covered

end Interleave
