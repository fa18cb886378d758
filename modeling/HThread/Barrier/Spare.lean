/-
  HThread.Barrier.Spare — a barrier with more callers than its count.

  The round that selects the queue is read in one step, `cur_waiters` is
  incremented in another, and the last arriver resets the count and advances
  the round in two more.  With spare callers an arrival may fall into these
  gaps.

  Key lemmas:
    * `batched_step` — while arrivals are timely, the batches keep apart.
    * `exists_casFailed` — with a spare caller and two workers a
      compare-and-swap can fail.
  Main result:
    * `batches_iff` — when the batches keep apart.
-/
import HThread.Barrier.Phases

namespace HThread.Barrier

open Interleave
open Function (update)

/-! ## §1. Batches. -/

section Batches

variable {A V : Type} [DecidableEq A] [DecidableEq V]

/-- In every batch of `n` arrivals each vthread that pushed itself did so on the
    queue its last arriver pops from, and no compare-and-swap failed. -/
structure BatchOk (n : ℕ) (s : BarrierState A V) : Prop where
  swapped : s.casFailed = false
  sides : ∀ t q q', s.pushSide t = some q → s.popSide (t / n) = some q' → q = q'

/-- From the last arrival of a round to the increment of the round. -/
def BarrierPc.Closing (waiters : BitVec 32) : BarrierPc V → Prop
  | .compare _ cw => cw = waiters
  | .cas _ _ | .addRound _ _ => True
  | _ => False

/-- An arrival is timely: the round its vthread has read is the current one, and
    no last arriver is on its way to advance it. -/
def Timely (s : BarrierState A V) (act : BarrierAct A V) : Prop :=
  ∀ a v r, act = .go a → s.pc a = .exec (some v) (.addWaiters r) →
    r = s.curRound ∧ ∀ b u p, s.pc b = .exec (some u) p → ¬p.Closing s.waiters

/-- Which round's queue a point of the code is about: `b` is the batch of the
    vthread. -/
def InBatch (b : ℕ) (waiters : BitVec 32) : BarrierPc V → Prop
  | .compare r _ | .unset r | .push r | .addRound r _ | .loop r _ | .pop r _ | .enqueue r _ _
  | .cont (.popRetry r _) => r = BitVec.ofNat 32 b
  | .cas r cw => r = BitVec.ofNat 32 b ∧ cw = waiters
  | .cont .user | .cont .woken | .readRound | .addWaiters _ => True

/-- How far the current batch is: it is filling up, or full with `v` on its way to
    reset the count and to advance the round. -/
inductive Filling (n : ℕ) (waiters curWaiters : BitVec 32) (rounds arrivals : ℕ)
    (here : V → BarrierPc V) : Prop
  | open (k : ℕ) (hk : k < n) (harr : arrivals = n * rounds + k)
      (hcount : curWaiters = BitVec.ofNat 32 k) (hno : ∀ u, ¬(here u).Closing waiters)
  | full (v : V) (hv : (here v).Closing waiters) (hreset : ¬(here v).Resetting)
      (harr : arrivals = n * rounds + n) (hcount : curWaiters = waiters)
      (hno : ∀ u, u ≠ v → ¬(here u).Closing waiters)
  | reset (v : V) (hv : (here v).Resetting) (harr : arrivals = n * rounds + n)
      (hcount : curWaiters = 0) (hno : ∀ u, u ≠ v → ¬(here u).Closing waiters)

/-- The batches keep apart: `cur_round` counts them, and everybody has the number
    of its batch. -/
structure Batched (n : ℕ) (d : BarrierData V) (here : V → BarrierPc V) : Prop where
  waiters : d.waiters = BitVec.ofNat 32 n
  round : d.curRound = BitVec.ofNat 32 d.rounds
  swapped : d.casFailed = false
  filling : Filling n d.waiters d.curWaiters d.rounds d.arrivals here
  batch : ∀ u, InBatch (d.ticket u / n) d.waiters (here u)
  pushes : ∀ t q, d.pushSide t = some q → q = t / n % 2
  pops : ∀ b q, d.popSide b = some q → q = b % 2

end Batches

/-! ## §2. One step of the code. -/

section Code

variable {V : Type} [DecidableEq V] {n : ℕ} {d : BarrierData V} {here : V → BarrierPc V} {v w : V}
  {r cw waiters : BitVec 32} {p : BarrierPc V}

omit [DecidableEq V] in
theorem closing_of_resetting (h : p.Resetting) : p.Closing waiters := by
  cases p with
  | addRound => trivial
  | _ => exact h.elim

omit [DecidableEq V] in
/-- Who closes a batch, and has not reset the count, finds it full. -/
theorem Filling.full_of_closing {c : BitVec 32} {k l : ℕ} (h : Filling n waiters c k l here)
    (hv : (here v).Closing waiters) (hreset : ¬(here v).Resetting) :
    l = n * k + n ∧ c = waiters ∧ ∀ u, u ≠ v → ¬(here u).Closing waiters := by
  cases h with
  | «open» m _ _ _ hno => exact absurd hv (hno v)
  | full x _ _ harr hcount hno =>
      obtain rfl : v = x := by
        by_contra hvx
        exact hno v hvx hv
      exact ⟨harr, hcount, hno⟩
  | reset x hx _ _ hno =>
      obtain rfl : v = x := by
        by_contra hvx
        exact hno v hvx hv
      exact absurd hx hreset

omit [DecidableEq V] in
/-- Who has reset the count closes a batch that was full. -/
theorem Filling.reset_of_resetting {c : BitVec 32} {k l : ℕ} (h : Filling n waiters c k l here)
    (hv : (here v).Resetting) :
    l = n * k + n ∧ c = 0 ∧ ∀ u, u ≠ v → ¬(here u).Closing waiters := by
  have hclosing : (here v).Closing waiters := closing_of_resetting hv
  cases h with
  | «open» m _ _ _ hno => exact absurd hclosing (hno v)
  | full x _ hreset _ _ hno =>
      obtain rfl : v = x := by
        by_contra hvx
        exact hno v hvx hclosing
      exact absurd hv hreset
  | reset x _ harr hcount hno =>
      obtain rfl : v = x := by
        by_contra hvx
        exact hno v hvx hclosing
      exact ⟨harr, hcount, hno⟩

/-- A step of `v` that neither closes a batch nor is one of closing it. -/
theorem Filling.next {c : BitVec 32} {k l : ℕ} (h : Filling n waiters c k l here)
    (hv : ¬(here v).Closing waiters) (hp : ¬p.Closing waiters) :
    Filling n waiters c k l (update here v p) := by
  have hno : ∀ u, (update here v p u).Closing waiters → (here u).Closing waiters := by
    intro u hu
    by_cases huv : u = v
    · rw [huv, Function.update_self] at hu
      exact absurd hu hp
    · rw [Function.update_of_ne huv] at hu
      exact hu
  cases h with
  | «open» m hm harr hcount hnone => exact .open m hm harr hcount fun u hu => hnone u (hno u hu)
  | full x hx hreset harr hcount hnone =>
      have hxv : x ≠ v := fun he => hv (he ▸ hx)
      refine .full x ?_ ?_ harr hcount fun u hu hc => hnone u hu (hno u hc)
      · rw [Function.update_of_ne hxv]
        exact hx
      · rw [Function.update_of_ne hxv]
        exact hreset
  | reset x hx harr hcount hnone =>
      have hxv : x ≠ v := fun he => hv (he ▸ closing_of_resetting hx)
      refine .reset x ?_ harr hcount fun u hu hc => hnone u hu (hno u hc)
      rw [Function.update_of_ne hxv]
      exact hx

namespace Batched

omit [DecidableEq V] in
theorem batch_eq (h : Batched n d here) (hn : n < 2 ^ 31) (u : V) : d.batch u = d.ticket u / n := by
  unfold BarrierData.batch
  rw [h.waiters, BitVec.toNat_ofNat, Nat.mod_eq_of_lt (by omega)]

theorem inBatch_update {t : V → ℕ} (h : ∀ u, InBatch (t u / n) waiters (here u))
    (hp : InBatch (t v / n) waiters p) (u : V) :
    InBatch (t u / n) waiters (update here v p u) := by
  by_cases huv : u = v
  · rw [huv, Function.update_self]
    exact hp
  · rw [Function.update_of_ne huv]
    exact h u

/-- `v` moves on outside the closing of a batch. -/
theorem next (h : Batched n d here) (hv : ¬(here v).Closing d.waiters)
    (hp : ¬p.Closing d.waiters) (hb : InBatch (d.ticket v / n) d.waiters p) :
    Batched n d (update here v p) :=
  { h with
    filling := h.filling.next hv hp
    batch := inBatch_update h.batch hb }

/-- A timely arrival. -/
theorem arrive (h : Batched n d here) (hn : n < 2 ^ 31) (hr : r = d.curRound)
    (hno : ∀ u, ¬(here u).Closing d.waiters) :
    Batched n { d with
      curWaiters := d.curWaiters + 1
      arr := update d.arr v (d.arr v + 1)
      arrivals := d.arrivals + 1
      ticket := update d.ticket v d.arrivals } (update here v (.compare r (d.curWaiters + 1))) := by
  obtain ⟨k, hk, harr, hcount⟩ : ∃ k, k < n ∧ d.arrivals = n * d.rounds + k
      ∧ d.curWaiters = BitVec.ofNat 32 k := by
    cases h.filling with
    | «open» k hk harr hcount _ => exact ⟨k, hk, harr, hcount⟩
    | full x hx => exact absurd hx (hno x)
    | reset x hx =>
        refine absurd ?_ (hno x)
        cases hp : here x with
        | addRound => trivial
        | _ =>
            rw [hp] at hx
            exact hx.elim
  have hbatch : d.arrivals / n = d.rounds := by
    rw [harr, Nat.mul_add_div (by omega), Nat.div_eq_of_lt hk]
    rfl
  have hword : d.curWaiters + 1 = BitVec.ofNat 32 (k + 1) := by rw [hcount, word_succ]
  refine { h with
    filling := ?_
    batch := fun u => ?_ }
  · by_cases hlast : k + 1 = n
    · refine .full v ?_ ?_ ?_ ?_ fun u hu => ?_
      · rw [Function.update_self]
        show d.curWaiters + 1 = d.waiters
        rw [hword, hlast, h.waiters]
      · rw [Function.update_self]
        exact id
      · show d.arrivals + 1 = n * d.rounds + n
        omega
      · show d.curWaiters + 1 = d.waiters
        rw [hword, hlast, h.waiters]
      · rw [Function.update_of_ne hu]
        exact hno u
    · have harr' : d.arrivals + 1 = n * d.rounds + (k + 1) := by omega
      refine .open (k + 1) (by omega) harr' hword fun u => ?_
      by_cases huv : u = v
      · rw [huv, Function.update_self]
        show ¬d.curWaiters + 1 = d.waiters
        rw [hword, h.waiters]
        exact word_ne (by omega) (by omega)
      · rw [Function.update_of_ne huv]
        exact hno u
  · show InBatch (update d.ticket v d.arrivals u / n) d.waiters _
    by_cases huv : u = v
    · rw [huv, Function.update_self, Function.update_self, hbatch]
      show r = _
      rw [hr, h.round]
    · rw [Function.update_of_ne huv, Function.update_of_ne huv]
      exact h.batch u

/-- The last arriver goes on to the compare-and-swap. -/
theorem last (h : Batched n d here) (hv : here v = .compare r d.waiters) :
    Batched n d (update here v (.cas r d.waiters)) := by
  have hclosing : (here v).Closing d.waiters := hv ▸ rfl
  have hb := h.batch v
  rw [hv] at hb
  obtain ⟨harr, hcount, hno⟩ := h.filling.full_of_closing hclosing (hv ▸ id)
  refine { h with
    filling := .full v ?_ ?_ harr hcount fun u hu => ?_
    batch := inBatch_update h.batch ⟨hb, rfl⟩ }
  · rw [Function.update_self]
    trivial
  · rw [Function.update_self]
    exact id
  · rw [Function.update_of_ne hu]
    exact hno u hu

/-- Its compare-and-swap succeeds. -/
theorem cas (h : Batched n d here) (hv : here v = .cas r cw) :
    Batched n { d with
      curWaiters := if d.curWaiters = cw then 0 else d.curWaiters
      casFailed := d.casFailed || d.curWaiters != cw } (update here v (.addRound r cw)) := by
  have hclosing : (here v).Closing d.waiters := hv ▸ trivial
  have hb := h.batch v
  rw [hv] at hb
  obtain ⟨hr, rfl⟩ := hb
  obtain ⟨harr, hcount, hno⟩ := h.filling.full_of_closing hclosing (hv ▸ id)
  refine { h with
    swapped := ?_
    filling := .reset v ?_ harr (if_pos hcount) fun u hu => ?_
    batch := inBatch_update h.batch hr }
  · show (d.casFailed || d.curWaiters != d.waiters) = false
    rw [h.swapped, hcount]
    simp
  · rw [Function.update_self]
    trivial
  · rw [Function.update_of_ne hu]
    exact hno u hu

/-- The round is advanced: the next batch opens. -/
theorem advance (h : Batched n d here) (hpos : 0 < n) (hv : here v = .addRound r cw) :
    Batched n { d with
      curRound := d.curRound + 1
      rounds := d.rounds + 1 } (update here v (.loop r cw)) := by
  have hreset : (here v).Resetting := hv ▸ trivial
  have hb := h.batch v
  rw [hv] at hb
  refine { h with
    round := ?_
    filling := ?_
    batch := inBatch_update h.batch hb }
  · show d.curRound + 1 = _
    rw [h.round, word_succ]
  · obtain ⟨harr, hcount, hno⟩ := h.filling.reset_of_resetting hreset
    refine .open 0 hpos ?_ hcount fun u => ?_
    · rw [Nat.mul_succ]
      exact harr
    · by_cases huv : u = v
      · rw [huv, Function.update_self]
        exact id
      · rw [Function.update_of_ne huv]
        exact hno u huv

/-- A push goes to the queue of the batch. -/
theorem push (h : Batched n d here) (hv : here v = .push r) :
    Batched n { d with
      blockedVths := update d.blockedVths (side r) (d.blockedVths (side r) ++ [v])
      pushSide := update d.pushSide (d.ticket v) (some (side r)) }
        (update here v (.cont .woken)) := by
  have hb := h.batch v
  rw [hv] at hb
  have hnext := h.next (v := v) (p := .cont .woken) (by rw [hv]; exact id) id trivial
  refine { hnext with pushes := fun t q ht => ?_ }
  have ht : update d.pushSide (d.ticket v) (some (side r)) t = some q := ht
  by_cases htv : t = d.ticket v
  · rw [htv, Function.update_self] at ht
    rw [← Option.some.inj ht, htv, show r = _ from hb, side_word]
  · rw [Function.update_of_ne htv] at ht
    exact h.pushes t q ht

omit [DecidableEq V] in
/-- So does a pop, whether it succeeds or not. -/
theorem pop (h : Batched n d here) (hn : n < 2 ^ 31) (hv : here v = .pop r cw) {b q : ℕ}
    (hq : update d.popSide (d.batch v) (some (side r)) b = some q) : q = b % 2 := by
  have hb := h.batch v
  rw [hv] at hb
  by_cases hbv : b = d.batch v
  · rw [hbv, Function.update_self] at hq
    rw [← Option.some.inj hq, hbv, h.batch_eq hn, show r = _ from hb, side_word]
  · rw [Function.update_of_ne hbv] at hq
    exact h.pops b q hq

end Batched

end Code

/-! ## §3. Runs with timely arrivals. -/

section Runs

variable {A V : Type} [DecidableEq A] [DecidableEq V] {n : ℕ} {s s' : BarrierState A V} {a : A}
  {v : V} {p : BarrierPc V}

omit [DecidableEq A] [DecidableEq V] in
/-- Who is closing a batch is being run. -/
theorem exec_of_closing {ctx : V → BarrierCont} {here : V → BarrierPc V}
    {pc : A → Pc V (BarrierPc V) BarrierCont Unit} {waiters : BitVec 32}
    (h : Tracked barrierShape pc ctx here) (hv : (here v).Closing waiters) :
    ∃ b, pc b = .exec (some v) (here v) := by
  have hcont : ∀ k, here v ≠ .cont k := by
    intro k hk
    rw [hk] at hv
    exact hv.elim
  by_cases hrun : ∃ b, (pc b).Runs v
  · obtain ⟨b, hb⟩ := hrun
    refine ⟨b, ?_⟩
    cases hpc : pc b with
    | exec me c =>
        rw [hpc] at hb
        obtain rfl : me = some v := hb
        rw [h.exec b v c hpc]
    | switch w r k =>
        rw [hpc] at hb
        obtain rfl : v = w := hb
        exact absurd (h.switch b v r k hpc) (hcont k)
    | _ =>
        rw [hpc] at hb
        exact hb.elim
  · exact absurd (h.rest v fun b hb => hrun ⟨b, hb⟩) (hcont _)

/-- The invariant of runs with timely arrivals. -/
structure InTime (n : ℕ) (s : BarrierState A V) : Prop extends Orderly s where
  batched : ∃ here, Tracked barrierShape s.pc s.ctx here ∧ Batched n s.toBarrierData here

theorem batched_code (h : InTime n s) (hpos : 0 < n) (hn : n < 2 ^ 31)
    (hpc : s.pc a = .exec (some v) p) (hs : CodeEffect s a v p s')
    (htime : ∀ r, p = .addWaiters r →
      r = s.curRound ∧ ∀ b u q, s.pc b = .exec (some u) q → ¬q.Closing s.waiters) :
    ∃ here, Tracked barrierShape s'.pc s'.ctx here ∧ Batched n s'.toBarrierData here := by
  obtain ⟨here, htr, hb⟩ := h.batched
  have hv : here v = p := htr.exec a v p hpc
  have hat := hb.batch v
  rw [hv] at hat
  have hrun : (s.pc a).Runs v := hpc ▸ rfl
  have halone : ∀ b, (s.pc b).Runs v → b = a := fun b hx => h.handed.runs_unique trivial hx hrun
  cases hs with
  | enter => exact ⟨_, htr.next hpc halone, hb.next (by rw [hv]; exact id) id trivial⟩
  | pause => exact ⟨_, htr.leave hpc halone, hb.next (by rw [hv]; exact id) id trivial⟩
  | read => exact ⟨_, htr.next hpc halone, hb.next (by rw [hv]; exact id) id trivial⟩
  | arrive r =>
      obtain ⟨hr, hno⟩ := htime r rfl
      refine ⟨_, htr.next hpc halone, hb.arrive hn hr fun u hu => ?_⟩
      obtain ⟨b, hbu⟩ := exec_of_closing htr hu
      exact hno b u _ hbu hu
  | wait r cw hcw => exact ⟨_, htr.next hpc halone, hb.next (by rw [hv]; exact hcw) id hat⟩
  | last r => exact ⟨_, htr.next hpc halone, hb.last hv⟩
  | arm r => exact ⟨_, htr.next hpc halone, hb.next (by rw [hv]; exact id) id hat⟩
  | push r => exact ⟨_, htr.leave hpc halone, hb.push hv⟩
  | full r => exact ⟨here, htr, hb⟩
  | ret =>
      have hnext := hb.next (v := v) (p := .cont .user) (by rw [hv]; exact id) id trivial
      exact ⟨_, htr.next hpc halone, { hnext with }⟩
  | cas r cw => exact ⟨_, htr.next hpc halone, hb.cas hv⟩
  | addRound r cw => exact ⟨_, htr.next hpc halone, hb.advance hpos hv⟩
  | turn r cw hcw => exact ⟨_, htr.next hpc halone, hb.next (by rw [hv]; exact id) id hat⟩
  | serial r cw hcw =>
      have hnext := hb.next (v := v) (p := .cont .user) (by rw [hv]; exact id) id trivial
      exact ⟨_, htr.next hpc halone, { hnext with }⟩
  | empty r cw =>
      have hnext := hb.next (v := v) (p := .cont (.popRetry r cw)) (by rw [hv]; exact id) id hat
      exact ⟨_, htr.leave hpc halone, { hnext with pops := fun b q hq => hb.pop hn hv hq }⟩
  | retry r cw => exact ⟨_, htr.next hpc halone, hb.next (by rw [hv]; exact id) id hat⟩
  | take r cw w hw =>
      have hnext := hb.next (v := v) (p := .enqueue r cw w) (by rw [hv]; exact id) id hat
      exact ⟨_, htr.next hpc halone, { hnext with pops := fun b q hq => hb.pop hn hv hq }⟩
  | wake r cw w =>
      have hnext := hb.next (v := v) (p := .loop r cw) (by rw [hv]; exact id) id hat
      exact ⟨_, htr.next hpc halone, { hnext with }⟩

theorem batched_idle (h : InTime n s) {σ : Sched A V (BarrierPc V) BarrierCont Unit}
    (hs : (∃ w, getAndWork s.toSched a w = some σ)
      ∨ workerRoutine BarrierPc.cont (fun _ => .top) s.toSched a (s.pc a) = some σ) :
    ∃ here, Tracked barrierShape σ.pc σ.ctx here ∧ Batched n s.toBarrierData here := by
  obtain ⟨here, htr, hb⟩ := h.batched
  rcases hs with ⟨w, hs⟩ | hs
  · exact ⟨here, htr.getAndWork hs, hb⟩
  · exact ⟨here, htr.worker (fun w hw b hx => not_runs_of_resume h.toOrderly hw b hx) hs, hb⟩

/-- **One timely step.** -/
theorem batched_step {act : BarrierAct A V} (h : InTime n s) (hpos : 0 < n) (hn : n < 2 ^ 31)
    (htime : Timely s act) (hs : barrierStep s act = some s') : InTime n s' := by
  refine ⟨orderly_step h.toOrderly (barrierStep_effect hs), ?_⟩
  cases act with
  | call a f =>
      simp only [barrierStep] at hs
      split at hs
      · next v hpc =>
          obtain rfl := Option.some.inj hs
          cases f with
          | barrierWait => exact batched_code h hpos hn hpc .enter fun r hr => by cases hr
          | schedYield => exact batched_code h hpos hn hpc .pause fun r hr => by cases hr
      · cases hs
  | pick a w =>
      simp only [barrierStep] at hs
      split at hs
      · next v p hpc =>
          refine batched_code h hpos hn hpc (popBlocked_effect hs) fun r hr => ?_
          subst hr
          cases hs
      · rw [Option.map_eq_some_iff] at hs
        obtain ⟨σ, hσ, rfl⟩ := hs
        exact batched_idle h (.inl ⟨w, hσ⟩)
  | go a =>
      simp only [barrierStep] at hs
      split at hs
      · next v p hpc =>
          exact batched_code h hpos hn hpc (barrierWait_effect hs) fun r hr =>
            htime a v r rfl (hr ▸ hpc)
      · simp only [barrierWorker, Option.map_eq_some_iff] at hs
        obtain ⟨σ, hσ, rfl⟩ := hs
        exact batched_idle h (.inr hσ)

omit [DecidableEq A] in
theorem InTime.ok (h : InTime n s) : BatchOk n s := by
  obtain ⟨here, -, hb⟩ := h.batched
  refine ⟨hb.swapped, fun t q q' hq hq' => ?_⟩
  rw [hb.pushes t q hq, hb.pops _ q' hq']

omit [DecidableEq A] in
theorem inTime_init (hpos : 0 < n) {ready : List V} (hready : ready.Nodup) :
    InTime n (barrierInit (BitVec.ofNat 32 n) ready : BarrierState A V) := by
  refine ⟨orderly_init hready, fun _ => .cont .user, ⟨fun _ _ _ hx => (by cases hx),
    fun _ _ _ _ hx => (by cases hx), fun _ _ => rfl⟩, ?_⟩
  exact ⟨rfl, rfl, rfl, .open 0 hpos rfl rfl fun _ => id, fun _ => trivial,
    fun _ _ hq => (by cases hq), fun _ _ hq => (by cases hq)⟩

variable (A V) in
/-- **Timely arrivals.**  The batches keep apart, however many vthreads call. -/
theorem inTime_keeps (hpos : 0 < n) (hn : n < 2 ^ 31) :
    (barrier (A := A) (V := V) n).Keeps Timely (InTime n) where
  start := by
    rintro s ⟨ready, hready, rfl⟩
    exact inTime_init hpos hready
  step s act s' h htime hs := batched_step h hpos hn htime hs

/-! ## §4. One worker. -/

/-- Who is about to arrive has read the current round. -/
def Fresh (s : BarrierState A V) : Prop :=
  ∀ a v r, s.pc a = .exec (some v) (.addWaiters r) → r = s.curRound

/-- With one worker nothing happens between the read and the arrival. -/
theorem fresh_step [Subsingleton A] (h : Fresh s) (hs : StepEffect s s') : Fresh s' := by
  intro b u r hb
  cases hs with
  | code a v p s' hpc hc =>
      obtain rfl := Subsingleton.elim a b
      cases hc with
      | full r => exact h a u _ hb
      | read =>
          have hb : update s.pc a _ a = _ := hb
          rw [Function.update_self] at hb
          cases hb
          rfl
      | _ =>
          have hb : update s.pc a _ a = _ := hb
          rw [Function.update_self] at hb
          cases hb
  | dequeue a v σ hσ =>
      obtain rfl := Subsingleton.elim a b
      obtain ⟨-, -, rfl⟩ := getAndWork_cases hσ
      have hb : update s.pc a _ a = _ := hb
      rw [Function.update_self] at hb
      cases hb
  | worker a σ _ hσ =>
      obtain rfl := Subsingleton.elim a b
      rcases worker_cases hσ with ⟨v, m, -, rfl⟩ | ⟨q, run, k, i, p', hmove, rfl⟩
      · have hb : update s.pc a _ a = _ := hb
        rw [Function.update_self] at hb
        cases hb
      · have hb : update s.pc a p' a = _ := hb
        rw [Function.update_self] at hb
        subst hb
        generalize s.pc a = p₀ at hmove
        cases hmove with
        | plain _ _ _ _ hp' => rcases hp' with hp' | ⟨w, hp'⟩ | ⟨w, hp'⟩ <;> cases hp'

omit [DecidableEq A] [DecidableEq V] in
theorem timely_of_fresh [Subsingleton A] (h : Fresh s) (act : BarrierAct A V) : Timely s act := by
  intro a v r _ hpc
  refine ⟨h a v r hpc, fun b u p hb => ?_⟩
  rw [Subsingleton.elim b a, hpc] at hb
  cases hb
  exact id

variable (A V) in
theorem inTime_keeps_alone [Subsingleton A] (hpos : 0 < n) (hn : n < 2 ^ 31) :
    (barrier (A := A) (V := V) n).Keeps (fun _ _ => True) fun s => Fresh s ∧ InTime n s where
  start := by
    rintro s ⟨ready, hready, rfl⟩
    exact ⟨fun _ _ _ hx => (by cases hx), inTime_init hpos hready⟩
  step s act s' h _ hs :=
    ⟨fresh_step h.1 (barrierStep_effect hs), batched_step h.2 hpos hn (timely_of_fresh h.1 act) hs⟩

end Runs

/-! ## §5. A spare caller. -/

section SpareCaller

variable {A V : Type} [DecidableEq A] [DecidableEq V] {n : ℕ} {s : BarrierState A V} {a b : A}
  {v x y : V}

/-- Worker `a` has dequeued `v` and run it up to its arrival. -/
def arrived (s : BarrierState A V) (a : A) (v : V) : BarrierState A V :=
  { s with
    vsQueue := s.vsQueue.erase v
    curWaiters := s.curWaiters + 1
    arr := update s.arr v (s.arr v + 1)
    arrivals := s.arrivals + 1
    ticket := update s.ticket v s.arrivals
    pc := update s.pc a (.exec (some v) (.compare s.curRound (s.curWaiters + 1))) }

/-- A worker takes a vthread out of the run queue and resumes it. -/
theorem resume_run (hpc : s.pc a = .top) (hv : v ∈ s.vsQueue) (hrun : s.runnable v = true)
    (hctx : s.ctx v = .user) : (barrier n).run s [.pick a v, .go a, .go a] = some { s with
      vsQueue := s.vsQueue.erase v
      pc := update s.pc a (.exec (some v) (.cont .user)) } := by
  simp [Machine.run, barrier, barrierStep, getAndWork, Sched.goto, barrierWorker, workerRoutine,
    hpc, hv, hrun, hctx]

/-- The vthread calls `pthread_barrier_wait` and is counted. -/
theorem call_run (hpc : s.pc a = .exec (some v) (.cont .user)) :
    (barrier n).run s [.call a .barrierWait, .go a, .go a] = some { s with
      curWaiters := s.curWaiters + 1
      arr := update s.arr v (s.arr v + 1)
      arrivals := s.arrivals + 1
      ticket := update s.ticket v s.arrivals
      pc := update s.pc a (.exec (some v) (.compare s.curRound (s.curWaiters + 1))) } := by
  simp [Machine.run, barrier, barrierStep, barrierCall, barrierWait, BarrierState.goto, hpc]

theorem arrive_run (hpc : s.pc a = .top) (hv : v ∈ s.vsQueue) (hrun : s.runnable v = true)
    (hctx : s.ctx v = .user) : (barrier n).run s
      [.pick a v, .go a, .go a, .call a .barrierWait, .go a, .go a] = some (arrived s a v) := by
  refine Machine.run_append (resume_run hpc hv hrun hctx) ((call_run (Function.update_self ..)).trans ?_)
  simp only [arrived, Function.update_idem]

/-- A vthread that did not arrive last pushes itself. -/
theorem push_run {r cw : BitVec 32} (hpc : s.pc a = .exec (some v) (.compare r cw))
    (hcw : cw ≠ s.waiters) (hlen : (s.blockedVths (side r)).length < s.capacity) :
    (barrier n).run s [.go a, .go a, .go a] = some { s with
      runnable := update s.runnable v false
      blockedVths := update s.blockedVths (side r) (s.blockedVths (side r) ++ [v])
      pushSide := update s.pushSide (s.ticket v) (some (side r))
      pc := update s.pc a (.switch v (.status .blocked) .woken) } := by
  simp [Machine.run, barrier, barrierStep, barrierWait, BarrierState.goto, hpc, hcw, hlen]

/-- Its worker lets go of it. -/
theorem switch_run (hpc : s.pc a = .switch v (.status .blocked) .woken) :
    (barrier n).run s [.go a, .go a] = some { s with
      runnable := update s.runnable v true
      ctx := update s.ctx v .woken
      pc := update s.pc a .top } := by
  simp [Machine.run, barrier, barrierStep, Sched.goto, barrierWorker, workerRoutine, hpc]

/-- A vthread that did not arrive last pushes itself and switches out. -/
theorem block_run {r cw : BitVec 32} (hpc : s.pc a = .exec (some v) (.compare r cw))
    (hcw : cw ≠ s.waiters) (hlen : (s.blockedVths (side r)).length < s.capacity) :
    (barrier n).run s [.go a, .go a, .go a, .go a, .go a] = some { s with
      runnable := update s.runnable v true
      ctx := update s.ctx v .woken
      blockedVths := update s.blockedVths (side r) (s.blockedVths (side r) ++ [v])
      pushSide := update s.pushSide (s.ticket v) (some (side r))
      pc := update s.pc a .top } := by
  refine Machine.run_append (push_run hpc hcw hlen) ((switch_run (Function.update_self ..)).trans ?_)
  simp only [Function.update_idem]

/-- `k` vthreads wait in the first round, and those of `rest` have not begun. -/
structure Waiting (n k : ℕ) (s : BarrierState A V) (rest : List V) : Prop where
  reachable : (barrier n).Reachable s
  top : ∀ a, s.pc a = .top
  waiters : s.waiters = BitVec.ofNat 32 n
  count : s.curWaiters = BitVec.ofNat 32 k
  capacity : n ≤ s.capacity
  length : (s.blockedVths (side s.curRound)).length = k
  ready : ∀ u ∈ rest, u ∈ s.vsQueue ∧ s.runnable u = true ∧ s.ctx u = .user

/-- One more waits. -/
theorem Waiting.succ {k : ℕ} {rest : List V} (h : Waiting n k s (v :: rest)) (a : A)
    (hnd : (v :: rest).Nodup) (hk : k + 1 < n) (hn : n < 2 ^ 31) :
    ∃ s' : BarrierState A V, Waiting n (k + 1) s' rest := by
  obtain ⟨hv, hrun, hctx⟩ := h.ready v List.mem_cons_self
  have hcap := h.capacity
  have harr := arrive_run (n := n) (h.top a) hv hrun hctx
  have hword : s.curWaiters + 1 = BitVec.ofNat 32 (k + 1) := by rw [h.count, word_succ]
  have hpc : (arrived s a v).pc a = .exec (some v) (.compare s.curRound (s.curWaiters + 1)) :=
    Function.update_self ..
  have hne : s.curWaiters + 1 ≠ (arrived s a v).waiters := by
    show s.curWaiters + 1 ≠ s.waiters
    rw [hword, h.waiters]
    exact word_ne hk (by omega)
  have hlen : ((arrived s a v).blockedVths (side s.curRound)).length < (arrived s a v).capacity := by
    show (s.blockedVths (side s.curRound)).length < s.capacity
    rw [h.length]
    omega
  have hblock := block_run (n := n) hpc hne hlen
  refine ⟨_, h.reachable.run (Machine.run_append harr hblock), fun x => ?_, h.waiters, hword,
    h.capacity, ?_, fun u hu => ?_⟩
  · show update (update s.pc a _) a .top x = .top
    by_cases hxa : x = a
    · rw [hxa, Function.update_self]
    · rw [Function.update_of_ne hxa, Function.update_of_ne hxa]
      exact h.top x
  · show (update s.blockedVths (side s.curRound) (s.blockedVths (side s.curRound) ++ [v])
      (side s.curRound)).length = k + 1
    rw [Function.update_self, List.length_append, h.length]
    rfl
  · have huv : u ≠ v := by
      intro he
      exact (List.nodup_cons.mp hnd).1 (he ▸ hu)
    obtain ⟨hmem, hrunu, hctxu⟩ := h.ready u (List.mem_cons_of_mem v hu)
    refine ⟨(List.mem_erase_of_ne huv).mpr hmem, ?_, ?_⟩
    · show update s.runnable v true u = true
      rw [Function.update_of_ne huv]
      exact hrunu
    · show update s.ctx v .woken u = .user
      rw [Function.update_of_ne huv]
      exact hctxu

/-- One after the other waits, until only the last arrival is missing. -/
theorem Waiting.more {k : ℕ} {l rest : List V} (h : Waiting n k s (l ++ rest)) (a : A)
    (hnd : (l ++ rest).Nodup) (hk : k + l.length < n) (hn : n < 2 ^ 31) :
    ∃ s' : BarrierState A V, Waiting n (k + l.length) s' rest := by
  induction l generalizing s k with
  | nil => exact ⟨s, h⟩
  | cons v l ih =>
      rw [List.length_cons] at hk
      obtain ⟨s', hs'⟩ := h.succ a hnd (by omega) hn
      obtain ⟨t, ht⟩ := ih hs' (List.nodup_cons.mp hnd).2 (by omega)
      refine ⟨t, ?_⟩
      rw [List.length_cons, Nat.add_comm l.length 1, ← Nat.add_assoc]
      exact ht

/-- A vthread that arrived last goes to the compare-and-swap. -/
theorem last_run {r cw : BitVec 32} (hpc : s.pc a = .exec (some v) (.compare r cw))
    (hcw : cw = s.waiters) :
    (barrier n).run s [.go a] = some (s.goto a (.exec (some v) (.cas r cw))) := by
  simp [Machine.run, barrier, barrierStep, barrierWait, hpc, hcw]

/-- An arrival before the compare-and-swap makes it fail. -/
theorem casFailed_of_arrival {r cw : BitVec 32} (hr : (barrier n).Reachable s) (hab : a ≠ b)
    (hpc : s.pc a = .exec (some x) (.cas r cw)) (hcw : s.curWaiters = cw) (hb : s.pc b = .top)
    (hy : y ∈ s.vsQueue) (hrun : s.runnable y = true) (hctx : s.ctx y = .user) :
    ∃ t : BarrierState A V, (barrier n).Reachable t ∧ t.casFailed = true := by
  have harr := hr.run (arrive_run hb hy hrun hctx)
  have hpc' : (arrived s b y).pc a = .exec (some x) (.cas r cw) := by
    show update s.pc b _ a = _
    rw [Function.update_of_ne hab]
    exact hpc
  have hstep : (barrier n).step (arrived s b y) (.go a)
      = barrierWait (arrived s b y) a x (.cas r cw) := by
    simp [barrier, barrierStep, hpc']
  refine ⟨_, harr.step (hstep.trans rfl), ?_⟩
  show (s.casFailed || s.curWaiters + 1 != cw) = true
  rw [hcw]
  simp

/-- The last arrival of the round is followed by one more arrival. -/
theorem Waiting.casFailed {k : ℕ} (h : Waiting n k s [x, y]) (hab : a ≠ b) (hxy : x ≠ y)
    (hk : k + 1 = n) : ∃ t : BarrierState A V, (barrier n).Reachable t ∧ t.casFailed = true := by
  obtain ⟨hx, hrunx, hctxx⟩ := h.ready x (by simp)
  obtain ⟨hy, hruny, hctxy⟩ := h.ready y (by simp)
  have hword : s.curWaiters + 1 = s.waiters := by rw [h.count, word_succ, hk, h.waiters]
  have harr := h.reachable.run (arrive_run (h.top a) hx hrunx hctxx)
  have hlast := harr.run (last_run (s := arrived s a x) (Function.update_self ..) hword)
  refine casFailed_of_arrival hlast hab (Function.update_self ..) rfl ?_
    ((List.mem_erase_of_ne hxy.symm).mpr hy) hruny hctxy
  show update (update s.pc a _) a _ b = .top
  rw [Function.update_of_ne hab.symm, Function.update_of_ne hab.symm]
  exact h.top b

variable [Fintype V]

variable (A V) in
/-- **A spare caller and two workers** suffice for a compare-and-swap to fail. -/
theorem exists_casFailed (hab : a ≠ b) (hn : n < 2 ^ 31) (hpos : 0 < n)
    (hcard : n < Fintype.card V) :
    ∃ t : BarrierState A V, (barrier n).Reachable t ∧ t.casFailed = true := by
  have hlen : (Finset.univ : Finset V).toList.length = Fintype.card V := by
    rw [Finset.length_toList, Finset.card_univ]
  have hnd : (Finset.univ : Finset V).toList.Nodup := Finset.nodup_toList _
  generalize (Finset.univ : Finset V).toList = ready at hlen hnd
  -- the first `n - 1` wait, and there are two more
  obtain ⟨x, y, rest, hdrop⟩ : ∃ x y rest, ready.drop (n - 1) = x :: y :: rest := by
    have hl : (ready.drop (n - 1)).length = Fintype.card V - (n - 1) := by
      rw [List.length_drop, hlen]
    match ready.drop (n - 1), hl with
    | [], hl => simp only [List.length_nil] at hl; omega
    | [x], hl => simp only [List.length_singleton] at hl; omega
    | x :: y :: rest, _ => exact ⟨x, y, rest, rfl⟩
  have hready : ready.take (n - 1) ++ ([x, y] ++ rest) = ready := by
    show ready.take (n - 1) ++ (x :: y :: rest) = ready
    rw [← hdrop, List.take_append_drop]
  have htake : (ready.take (n - 1)).length = n - 1 := by
    rw [List.length_take, hlen]
    omega
  have hstart : Waiting n 0 (barrierInit (BitVec.ofNat 32 n) ready : BarrierState A V)
      (ready.take (n - 1) ++ ([x, y] ++ rest)) := by
    refine ⟨.start ⟨ready, hnd, rfl⟩, fun _ => rfl, rfl, rfl, ?_, rfl, fun u hu => ?_⟩
    · show n ≤ (BitVec.ofNat 32 n <<< 1).toNat
      rw [BitVec.toNat_shiftLeft, BitVec.toNat_ofNat, Nat.shiftLeft_eq]
      omega
    · rw [hready] at hu
      exact ⟨hu, rfl, rfl⟩
  rw [← hready] at hnd
  obtain ⟨s, hs⟩ := hstart.more a hnd (by omega) hn
  have hxy : x ≠ y := by
    intro he
    have hx := (List.nodup_append.mp hnd).2.1
    rw [he] at hx
    exact (List.nodup_cons.mp hx).1 (by simp)
  have hpair : Waiting n (0 + (ready.take (n - 1)).length) s [x, y] :=
    { hs with ready := fun u hu => hs.ready u (List.mem_append_left rest hu) }
  exact hpair.casFailed hab hxy (by omega)

/-- **Spare callers.**  The batches keep apart throughout iff there is no spare
    caller, or only one worker; and in a run with spare callers they do as long as
    arrivals are timely. -/
theorem batches_iff (hn : 2 ≤ n) (hmax : n < 2 ^ 31) (hcard : n ≤ Fintype.card V) :
    ((∀ t : BarrierState A V, (barrier n).Reachable t → BatchOk n t)
        ↔ Fintype.card V = n ∨ Subsingleton A)
      ∧ ∀ (s : BarrierState A V) (acts : List (BarrierAct A V)), (barrier n).init s →
        (barrier n).StepsMeet Timely s acts → (barrier n).Always (BatchOk n) s acts := by
  have hpos : 0 < n := by omega
  refine ⟨⟨fun hall => ?_, fun hcond t ht => ?_⟩, fun s acts hs htime => ?_⟩
  · by_contra hno
    obtain ⟨hne, hsub⟩ := not_or.mp hno
    rw [not_subsingleton_iff_nontrivial] at hsub
    obtain ⟨a, b, hab⟩ := hsub
    obtain ⟨t, ht, hfail⟩ := exists_casFailed A V hab hmax hpos (by omega)
    rw [(hall t ht).swapped] at hfail
    cases hfail
  · rcases hcond with heq | hone
    · subst heq
      obtain ⟨here, stage, -, hr⟩ := ((phased_keeps A hpos hmax).reachable ht).rounds
      refine ⟨hr.words.swapped, fun i q q' hq hq' => ?_⟩
      rw [hr.numbers.pushes i q hq, hr.numbers.pops _ q' hq']
    · exact ((inTime_keeps_alone A V hpos hmax).reachable ht).2.ok
  · exact (inTime_keeps A V hpos hmax).always (fun _ h => h.ok) hs htime

end SpareCaller

/-- Two callers never get the batches mixed up, three may. -/
theorem batches_iff_two_three :
    (∀ t : BarrierState (Fin 2) (Fin 2), (barrier 2).Reachable t → BatchOk 2 t)
      ∧ ¬∀ t : BarrierState (Fin 2) (Fin 3), (barrier 2).Reachable t → BatchOk 2 t := by
  refine ⟨(batches_iff (by decide) (by decide) (by decide)).1.mpr (.inl rfl), fun hall => ?_⟩
  rcases (batches_iff (by decide) (by decide) (by decide)).1.mp hall with heq | hone
  · exact absurd heq (by decide)
  · exact absurd (Subsingleton.elim (0 : Fin 2) 1) (by decide)

/-! ## §6. The queue of another batch. -/

/-- Two workers, three vthreads in the run queue and a barrier for two. -/
def threeCallers : BarrierState (Fin 2) (Fin 3) := barrierInit 2 [0, 1, 2]

/-- Vthread 2, on worker 1, reads round 0; the other two, on worker 0, complete
    that round; vthread 2 arrives in the next batch and blocks; vthread 1 arrives
    as the last of this batch and pops. -/
def staleActs : List (BarrierAct (Fin 2) (Fin 3)) :=
  [.pick 1 2, .go 1, .go 1, .call 1 .barrierWait, .go 1]
    ++ [.pick 0 0, .go 0, .go 0, .call 0 .barrierWait] ++ List.replicate 7 (.go 0)
    ++ [.pick 0 1, .go 0, .go 0, .call 0 .barrierWait] ++ List.replicate 6 (.go 0)
    ++ [.pick 0 0, .go 0, .go 0] ++ List.replicate 6 (.go 1)
    ++ [.call 0 .barrierWait] ++ List.replicate 7 (.go 0)

/-- Vthread 2 waits in queue 0; the last arriver of its batch pops queue 1. -/
theorem stale_round_read :
    ∃ t, (barrier 2).init threeCallers ∧ (barrier 2).run threeCallers staleActs = some t
      ∧ t.blockedVths 0 = [2] ∧ t.blockedVths 1 = [] ∧ t.ctx 2 = .woken
      ∧ t.pushSide 2 = some 0 ∧ t.popSide 1 = some 1 ∧ ¬BatchOk 2 t := by
  refine ⟨_, ⟨[0, 1, 2], by decide, rfl⟩, rfl, rfl, rfl, rfl, rfl, rfl, fun h => ?_⟩
  exact absurd (h.sides 2 0 1 rfl rfl) (by decide)

end HThread.Barrier
