/-
  HThread.RunQueue.Draws — who may take an index of a sub-queue.

  `dequeue` draws a number c from `dequeueOptimisticCount`.  It compares c with
  `tailIndex`, after taking away the value of `dequeueOvercommit` it read
  before: the draws that lost.  What it read may be old by now, but those are
  draws before its own, so the number that are below `tailIndex` in this sense
  is never larger than `tailIndex` (Interleave.Tickets).

  Key lemmas:
    * `drawn_step`     — every step keeps the draws in order.
    * `Drawn.head_lt`  — a draw that won finds an element.
-/
import HThread.Interleave.Tickets
import HThread.RunQueue.Producer

namespace HThread.RunQueue

open Interleave
open Function (update)

/-! ## §1. The draws. -/

/-- The counters of a sub-queue, and the draws behind them. -/
structure Draws where
  tail : ℕ
  head : ℕ
  count : ℕ
  overcommit : ℕ
  wins : Finset ℕ
  losses : Finset ℕ
  claimed : Finset ℕ
  returned : Finset ℕ

variable {E T : Type}

def Producer.draws (p : Producer E) : Draws where
  tail := p.tailIndex
  head := p.headIndex
  count := p.dequeueOptimisticCount
  overcommit := p.dequeueOvercommit
  wins := p.wins
  losses := p.losses
  claimed := p.claimed
  returned := p.returned

/-- The draw that a thread at this point has not settled. -/
def ProducerPc.draw : ProducerPc E → Option ℕ
  | deqRetest _ c | deqHead c | deqGiveUp c => some c
  | _ => none

/-- What a thread knows of the draws. -/
def DrawOk (d : Draws) : ProducerPc E → Prop
  | .deqTest _ overcommit | .deqCount overcommit => overcommit ≤ d.overcommit
  | .deqRetest overcommit c =>
      overcommit ≤ lossesBelow d.losses c ∧ c < d.count ∧ c ∉ d.wins ∧ c ∉ d.losses
  | .deqHead c => c ∈ d.wins ∧ c ∉ d.claimed
  | .deqGiveUp c => c ∈ d.losses ∧ c ∉ d.returned
  | _ => True

/-- The draws are in order. -/
structure Drawn (d : Draws) (pc : T → ProducerPc E) : Prop where
  winsDrawn : ∀ c ∈ d.wins, c < d.count
  lossesDrawn : ∀ c ∈ d.losses, c < d.count
  disjoint : Disjoint d.wins d.losses
  claimedWon : d.claimed ⊆ d.wins
  returnedLost : d.returned ⊆ d.losses
  heads : d.head = d.claimed.card
  overs : d.overcommit = d.returned.card
  covered : Covered d.wins d.losses d.tail
  holds : ∀ t, DrawOk d (pc t)
  unique : ∀ t u c, (pc t).draw = some c → (pc u).draw = some c → t = u
  settled : ∀ c < d.count, c ∈ d.claimed ∨ c ∈ d.returned ∨ ∃ t, (pc t).draw = some c

namespace Drawn

variable {d d' : Draws} {pc : T → ProducerPc E} {t : T} {c overcommit : ℕ}

/-! ## §2. What follows. -/

theorem over_le (h : Drawn d pc) : d.overcommit ≤ d.losses.card :=
  h.overs ▸ Finset.card_le_card h.returnedLost

/-- The assertion of line 2473. -/
theorem over_le_draw (h : Drawn d pc) (ht : pc t = .deqRetest overcommit c) : overcommit ≤ c := by
  have hp := h.holds t
  rw [ht] at hp
  have hsub : d.losses.filter (· < c) ⊆ Finset.range c := fun x hx =>
    Finset.mem_range.mpr (Finset.mem_filter.mp hx).2
  have hcard := Finset.card_le_card hsub
  rw [Finset.card_range] at hcard
  exact hp.1.trans hcard

theorem head_le (h : Drawn d pc) : d.head ≤ d.tail := by
  rw [h.heads]
  exact (Finset.card_le_card h.claimedWon).trans (h.covered.card_le h.disjoint)

/-- **A draw that won finds an element.** -/
theorem head_lt (h : Drawn d pc) (ht : pc t = .deqHead c) : d.head < d.tail := by
  have hp := h.holds t
  rw [ht] at hp
  have hsub : insert c d.claimed ⊆ d.wins := Finset.insert_subset hp.1 h.claimedWon
  have hcard := Finset.card_le_card hsub
  rw [Finset.card_insert_of_notMem hp.2] at hcard
  have hwins := h.covered.card_le h.disjoint
  have hheads := h.heads
  omega

/-- While no draw is unsettled, the two counters tell how many indices are claimed. -/
theorem count_eq (h : Drawn d pc) (hno : ∀ t, (pc t).draw = none) :
    d.count = d.head + d.overcommit := by
  have hset : Finset.range d.count = d.claimed ∪ d.returned := by
    ext c
    rw [Finset.mem_range, Finset.mem_union]
    constructor
    · intro hc
      rcases h.settled c hc with hc | hc | ⟨t, ht⟩
      · exact .inl hc
      · exact .inr hc
      · rw [hno t] at ht
        cases ht
    · rintro (hc | hc)
      · exact h.winsDrawn c (h.claimedWon hc)
      · exact h.lossesDrawn c (h.returnedLost hc)
  have hdis : Disjoint d.claimed d.returned :=
    (h.disjoint.mono_left h.claimedWon).mono_right h.returnedLost
  have hcard := congrArg Finset.card hset
  rw [Finset.card_range, Finset.card_union_of_disjoint hdis] at hcard
  rw [hcard, h.heads, h.overs]

/-! ## §3. The steps. -/

/-- The draws change at the number `c` only. -/
structure Touch (d d' : Draws) (c : ℕ) : Prop where
  count : d.count ≤ d'.count
  overcommit : d.overcommit ≤ d'.overcommit
  losses : d.losses ⊆ d'.losses
  wins_iff : ∀ x, x ≠ c → (x ∈ d'.wins ↔ x ∈ d.wins)
  losses_iff : ∀ x, x ≠ c → (x ∈ d'.losses ↔ x ∈ d.losses)
  claimed_iff : ∀ x, x ≠ c → (x ∈ d'.claimed ↔ x ∈ d.claimed)
  returned_iff : ∀ x, x ≠ c → (x ∈ d'.returned ↔ x ∈ d.returned)

/-- A thread with another draw keeps what it knows. -/
theorem Touch.drawOk (h : Touch d d' c) {q : ProducerPc E} (hq : DrawOk d q)
    (hne : q.draw ≠ some c) : DrawOk d' q := by
  cases q with
  | deqTest _ overcommit | deqCount overcommit => exact le_trans hq h.overcommit
  | deqRetest overcommit x =>
      have hx : x ≠ c := fun he => hne (by rw [he]; rfl)
      obtain ⟨hover, hlt, hwin, hloss⟩ := hq
      exact ⟨hover.trans (lossesBelow_mono h.losses), hlt.trans_le h.count,
        fun hw => hwin ((h.wins_iff x hx).mp hw), fun hl => hloss ((h.losses_iff x hx).mp hl)⟩
  | deqHead x =>
      have hx : x ≠ c := fun he => hne (by rw [he]; rfl)
      exact ⟨(h.wins_iff x hx).mpr hq.1, fun hc => hq.2 ((h.claimed_iff x hx).mp hc)⟩
  | deqGiveUp x =>
      have hx : x ≠ c := fun he => hne (by rw [he]; rfl)
      exact ⟨(h.losses_iff x hx).mpr hq.1, fun hc => hq.2 ((h.returned_iff x hx).mp hc)⟩
  | elsewhere | enqTail | enqBlock | enqConstruct | enqPublish | enqueued | deqTail | deqOvercommit
  | deqMove | deqSetEmpty | deqRelease | dequeued | garbage => trivial

variable [DecidableEq T] {q : ProducerPc E}

/-- After a step of `t` at its number `c`, every thread knows what it needs. -/
theorem holds_update (h : Drawn d pc) (htouch : Touch d d' c)
    (hmine : ∀ u, u ≠ t → (pc u).draw ≠ some c) (hq : DrawOk d' q) (u : T) :
    DrawOk d' (update pc t q u) := by
  by_cases hu : u = t
  · rw [hu, Function.update_self]
    exact hq
  · rw [Function.update_of_ne hu]
    exact htouch.drawOk (h.holds u) (hmine u hu)

/-- No two threads have the same draw, if `t` does not get that of another. -/
theorem unique_update (h : Drawn d pc)
    (hmine : ∀ x, q.draw = some x → ∀ u, u ≠ t → (pc u).draw ≠ some x) (u v : T) (x : ℕ)
    (hu : (update pc t q u).draw = some x) (hv : (update pc t q v).draw = some x) : u = v := by
  by_cases hut : u = t
  · rw [hut, Function.update_self] at hu
    by_contra hne
    have hvt : v ≠ t := fun he => hne (hut.trans he.symm)
    rw [Function.update_of_ne hvt] at hv
    exact hmine x hu v hvt hv
  · rw [Function.update_of_ne hut] at hu
    by_cases hvt : v = t
    · rw [hvt, Function.update_self] at hv
      exact absurd hu (hmine x hv u hut)
    · rw [Function.update_of_ne hvt] at hv
      exact h.unique u v x hu hv

/-- The draw of another thread, or one that `t` still has, is still held. -/
theorem held_update {x : ℕ} (hx : ∃ u, (pc u).draw = some x)
    (hkeep : (pc t).draw = some x → q.draw = some x) : ∃ u, (update pc t q u).draw = some x := by
  obtain ⟨u, hu⟩ := hx
  refine ⟨u, ?_⟩
  by_cases hut : u = t
  · rw [hut, Function.update_self]
    exact hkeep (hut ▸ hu)
  · rw [Function.update_of_ne hut]
    exact hu

omit [DecidableEq T] in
theorem mine (h : Drawn d pc) (ht : (pc t).draw = some c) (u : T) (hu : u ≠ t) :
    (pc u).draw ≠ some c := fun he => hu (h.unique u t c he ht)

/-- A step of a thread without a draw that changes at most the tail. -/
theorem pass (h : Drawn d pc) (tail : ℕ) (htail : d.tail ≤ tail) (ht : (pc t).draw = none)
    (hq : DrawOk d q) (hqd : q.draw = none) : Drawn { d with tail := tail } (update pc t q) := by
  have hok : ∀ x : ProducerPc E, DrawOk d x → DrawOk { d with tail := tail } x := by
    intro x hx
    cases x <;> exact hx
  refine ⟨h.winsDrawn, h.lossesDrawn, h.disjoint, h.claimedWon, h.returnedLost, h.heads, h.overs,
    h.covered.more htail, fun u => ?_, h.unique_update (by simp [hqd]), fun x hx => ?_⟩
  · by_cases hu : u = t
    · rw [hu, Function.update_self]
      exact hok q hq
    · rw [Function.update_of_ne hu]
      exact hok _ (h.holds u)
  · rcases h.settled x hx with hc | hc | hheld
    · exact .inl hc
    · exact .inr (.inl hc)
    · exact .inr (.inr (held_update hheld (by simp [ht])))

/-- The next number is drawn. -/
theorem count (h : Drawn d pc) (ht : pc t = .deqCount overcommit) :
    Drawn { d with count := d.count + 1 } (update pc t (.deqRetest overcommit d.count)) := by
  have hnew : ∀ u : T, (pc u).draw ≠ some d.count := by
    intro u hu
    have hp := h.holds u
    cases hpc : pc u with
    | deqRetest o x =>
        rw [hpc] at hp hu
        obtain rfl := Option.some.inj hu
        exact absurd hp.2.1 (Nat.lt_irrefl _)
    | deqHead x =>
        rw [hpc] at hp hu
        obtain rfl := Option.some.inj hu
        exact absurd (h.winsDrawn _ hp.1) (Nat.lt_irrefl _)
    | deqGiveUp x =>
        rw [hpc] at hp hu
        obtain rfl := Option.some.inj hu
        exact absurd (h.lossesDrawn _ hp.1) (Nat.lt_irrefl _)
    | elsewhere | enqTail | enqBlock | enqConstruct | enqPublish | enqueued | deqTail
    | deqOvercommit | deqTest | deqCount | deqMove | deqSetEmpty | deqRelease | dequeued | garbage =>
        rw [hpc] at hu
        cases hu
  have hp := h.holds t
  rw [ht] at hp
  have htouch : Touch d { d with count := d.count + 1 } d.count :=
    ⟨Nat.le_succ _, le_refl _, fun _ hx => hx, fun _ _ => .rfl, fun _ _ => .rfl, fun _ _ => .rfl,
      fun _ _ => .rfl⟩
  -- all losses so far are draws before this one
  have hknown : overcommit ≤ lossesBelow d.losses d.count := by
    rw [lossesBelow_of_drawn h.lossesDrawn]
    exact le_trans hp h.over_le
  refine ⟨fun x hx => Nat.lt_succ_of_lt (h.winsDrawn x hx),
    fun x hx => Nat.lt_succ_of_lt (h.lossesDrawn x hx), h.disjoint, h.claimedWon, h.returnedLost,
    h.heads, h.overs, h.covered, h.holds_update htouch (fun u _ => hnew u) ?_,
    h.unique_update ?_, fun x hx => ?_⟩
  · exact ⟨hknown, Nat.lt_succ_self _, fun hw => Nat.lt_irrefl _ (h.winsDrawn _ hw),
      fun hl => Nat.lt_irrefl _ (h.lossesDrawn _ hl)⟩
  · rintro x hx u -
    obtain rfl := Option.some.inj hx
    exact hnew u
  · rcases Nat.lt_succ_iff_lt_or_eq.mp hx with hx | rfl
    · rcases h.settled x hx with hc | hc | hheld
      · exact .inl hc
      · exact .inr (.inl hc)
      · exact .inr (.inr (held_update hheld (by rw [ht]; intro he; cases he)))
    · refine .inr (.inr ⟨t, ?_⟩)
      rw [Function.update_self]
      rfl

/-- The draw is below the tail. -/
theorem win (h : Drawn d pc) (ht : pc t = .deqRetest overcommit c) (hlt : c < d.tail + overcommit) :
    Drawn { d with wins := insert c d.wins } (update pc t (.deqHead c)) := by
  have hp := h.holds t
  rw [ht] at hp
  obtain ⟨hknown, hc, hwin, hloss⟩ := hp
  have hmine : ∀ u, u ≠ t → (pc u).draw ≠ some c := h.mine (by rw [ht]; rfl)
  have htouch : Touch d { d with wins := insert c d.wins } c :=
    ⟨le_refl _, le_refl _, fun _ hx => hx,
      fun x hx => ⟨fun hw => (Finset.mem_insert.mp hw).resolve_left hx, Finset.mem_insert_of_mem⟩,
      fun _ _ => .rfl, fun _ _ => .rfl, fun _ _ => .rfl⟩
  refine ⟨fun x hx => ?_, h.lossesDrawn, ?_, h.claimedWon.trans (Finset.subset_insert _ _),
    h.returnedLost, h.heads, h.overs, h.covered.win hknown hlt, h.holds_update htouch hmine ?_,
    h.unique_update ?_, fun x hx => ?_⟩
  · rcases Finset.mem_insert.mp hx with rfl | hx
    · exact hc
    · exact h.winsDrawn x hx
  · exact Finset.disjoint_insert_left.mpr ⟨hloss, h.disjoint⟩
  · exact ⟨Finset.mem_insert_self _ _, fun hcl => hwin (h.claimedWon hcl)⟩
  · rintro x hx
    obtain rfl := Option.some.inj hx
    exact hmine
  · rcases h.settled x hx with hcl | hr | hheld
    · exact .inl hcl
    · exact .inr (.inl hr)
    · exact .inr (.inr (held_update hheld (by rw [ht]; exact id)))

/-- The draw is too high. -/
theorem lose (h : Drawn d pc) (ht : pc t = .deqRetest overcommit c) :
    Drawn { d with losses := insert c d.losses } (update pc t (.deqGiveUp c)) := by
  have hp := h.holds t
  rw [ht] at hp
  obtain ⟨hknown, hc, hwin, hloss⟩ := hp
  have hmine : ∀ u, u ≠ t → (pc u).draw ≠ some c := h.mine (by rw [ht]; rfl)
  have htouch : Touch d { d with losses := insert c d.losses } c :=
    ⟨le_refl _, le_refl _, Finset.subset_insert _ _, fun _ _ => .rfl,
      fun x hx => ⟨fun hl => (Finset.mem_insert.mp hl).resolve_left hx, Finset.mem_insert_of_mem⟩,
      fun _ _ => .rfl, fun _ _ => .rfl⟩
  refine ⟨h.winsDrawn, fun x hx => ?_, ?_, h.claimedWon,
    h.returnedLost.trans (Finset.subset_insert _ _), h.heads, h.overs, h.covered.lose c,
    h.holds_update htouch hmine ?_, h.unique_update ?_, fun x hx => ?_⟩
  · rcases Finset.mem_insert.mp hx with rfl | hx
    · exact hc
    · exact h.lossesDrawn x hx
  · exact Finset.disjoint_insert_right.mpr ⟨hwin, h.disjoint⟩
  · exact ⟨Finset.mem_insert_self _ _, fun hr => hloss (h.returnedLost hr)⟩
  · rintro x hx
    obtain rfl := Option.some.inj hx
    exact hmine
  · rcases h.settled x hx with hcl | hr | hheld
    · exact .inl hcl
    · exact .inr (.inl hr)
    · exact .inr (.inr (held_update hheld (by rw [ht]; exact id)))

/-- A draw that won takes the next index. -/
theorem claim (h : Drawn d pc) (ht : pc t = .deqHead c) (hqd : q.draw = none)
    (hq : ∀ d', DrawOk d' q) :
    Drawn { d with
      head := d.head + 1
      claimed := insert c d.claimed } (update pc t q) := by
  have hp := h.holds t
  rw [ht] at hp
  have hmine : ∀ u, u ≠ t → (pc u).draw ≠ some c := h.mine (by rw [ht]; rfl)
  have htouch : Touch d { d with
      head := d.head + 1
      claimed := insert c d.claimed } c :=
    ⟨le_refl _, le_refl _, fun _ hx => hx, fun _ _ => .rfl, fun _ _ => .rfl,
      fun x hx => ⟨fun hc => (Finset.mem_insert.mp hc).resolve_left hx, Finset.mem_insert_of_mem⟩,
      fun _ _ => .rfl⟩
  refine ⟨h.winsDrawn, h.lossesDrawn, h.disjoint, Finset.insert_subset hp.1 h.claimedWon,
    h.returnedLost, ?_, h.overs, h.covered, h.holds_update htouch hmine (hq _),
    h.unique_update (by simp [hqd]), fun x hx => ?_⟩
  · show d.head + 1 = (insert c d.claimed).card
    rw [Finset.card_insert_of_notMem hp.2, h.heads]
  · by_cases hxc : x = c
    · exact .inl (hxc ▸ Finset.mem_insert_self _ _)
    · rcases h.settled x hx with hcl | hr | hheld
      · exact .inl (Finset.mem_insert_of_mem hcl)
      · exact .inr (.inl hr)
      · refine .inr (.inr (held_update hheld fun he => ?_))
        rw [ht] at he
        exact absurd (Option.some.inj he).symm hxc

/-- A draw that lost is counted. -/
theorem giveUp (h : Drawn d pc) (ht : pc t = .deqGiveUp c) (hqd : q.draw = none)
    (hq : ∀ d', DrawOk d' q) :
    Drawn { d with
      overcommit := d.overcommit + 1
      returned := insert c d.returned } (update pc t q) := by
  have hp := h.holds t
  rw [ht] at hp
  have hmine : ∀ u, u ≠ t → (pc u).draw ≠ some c := h.mine (by rw [ht]; rfl)
  have htouch : Touch d { d with
      overcommit := d.overcommit + 1
      returned := insert c d.returned } c :=
    ⟨le_refl _, Nat.le_succ _, fun _ hx => hx, fun _ _ => .rfl, fun _ _ => .rfl, fun _ _ => .rfl,
      fun x hx => ⟨fun hc => (Finset.mem_insert.mp hc).resolve_left hx, Finset.mem_insert_of_mem⟩⟩
  refine ⟨h.winsDrawn, h.lossesDrawn, h.disjoint, h.claimedWon,
    Finset.insert_subset hp.1 h.returnedLost, h.heads, ?_, h.covered,
    h.holds_update htouch hmine (hq _), h.unique_update (by simp [hqd]), fun x hx => ?_⟩
  · show d.overcommit + 1 = (insert c d.returned).card
    rw [Finset.card_insert_of_notMem hp.2, h.overs]
  · by_cases hxc : x = c
    · exact .inr (.inl (hxc ▸ Finset.mem_insert_self _ _))
    · rcases h.settled x hx with hcl | hr | hheld
      · exact .inl hcl
      · exact .inr (.inl (Finset.mem_insert_of_mem hr))
      · refine .inr (.inr (held_update hheld fun he => ?_))
        rw [ht] at he
        exact absurd (Option.some.inj he).symm hxc

end Drawn

/-- Neither counter has come near the end of its word. -/
def Early (p : Producer E) : Prop :=
  p.tailIndex + blockSize < 2 ^ 63 ∧ p.dequeueOptimisticCount < 2 ^ 63

instance (p : Producer E) : Decidable (Early p) := inferInstanceAs (Decidable (_ ∧ _))

/-- **Every step keeps the draws in order.** -/
theorem drawn_step [DecidableEq T] {p p' : Producer E} {pc : T → ProducerPc E} {t : T}
    {q q' : ProducerPc E} (h : Drawn p.draws pc) (hearly : Early p) (hq : pc t = q)
    (hown : ∀ e tail, q = .enqPublish e tail → tail = p.tailIndex) (hs : Effect p q p' q') :
    Drawn p'.draws (update pc t q') := by
  have hp := h.holds t
  rw [hq] at hp
  cases hs with
  | publish e tail =>
      obtain rfl := hown e tail rfl
      exact h.pass (1 + p.tailIndex) (Nat.le_add_left _ _) (by rw [hq]; rfl) trivial rfl
  | overcommit tail =>
      exact h.pass p.tailIndex (le_refl _) (by rw [hq]; rfl) (le_refl p.dequeueOvercommit) rfl
  | trying tail overcommit htest => exact h.pass p.tailIndex (le_refl _) (by rw [hq]; rfl) hp rfl
  | count overcommit => exact h.count hq
  | win overcommit c htest =>
      have hle := h.over_le_draw hq
      have hc : c < p.dequeueOptimisticCount := hp.2.1
      have hcount := hearly.2
      have htail := hearly.1
      rw [word_sub hle, circularLessThan_word (by omega) (by omega)] at htest
      have hlt := of_decide_eq_true htest
      refine h.win hq ?_
      show c < p.tailIndex + overcommit
      omega
  | lose overcommit c htest => exact h.lose hq
  | head c => exact h.claim hq rfl fun _ => trivial
  | giveUp c => exact h.giveUp hq rfl fun _ => trivial
  | setEmpty i e b hb =>
      refine h.pass p.tailIndex (le_refl _) (by rw [hq]; rfl) ?_ ?_
      · split
        · trivial
        · trivial
      · split
        · rfl
        · rfl
  | full | room | refuse | start | noTail | construct | tail | empty | noSlot | move | noBlock
  | release => exact h.pass p.tailIndex (le_refl _) (by rw [hq]; rfl) trivial rfl

end HThread.RunQueue
