/-
  HThread.Interleave.Histories — what has happened to a stack or to a set.

  The history of a stack is the list of its pushes and pops, the newest first.
  `replay` gives the content of a stack with this history, if there is one: a pop
  must name the element on top.

  A set is split in parts and changes all the time.  A scan copies one part
  after another, each at a moment of its own, so what it returns need not be
  the set of any moment.  `moments` are the sets there have been since the scan
  began.

  Key lemmas:
    * `count_replay`  — every element has been pushed as often as popped, and
      once more for each time it is still there.
    * `Scanned.later` — whatever becomes of the set, what a scan has stays right.
    * `Scanned.next`  — one more part is copied.
-/
import Mathlib.Data.Finset.Basic
import Mathlib.Data.List.Basic

namespace Interleave

/-! ## §1. Stacks. -/

section Stack

/-- A push or a pop of a stack. -/
inductive LifoEvent (V : Type*) where
  | push (v : V)
  | pop (v : V)
  deriving DecidableEq, Repr

variable {V : Type*} [DecidableEq V]

/-- The stack after one more event. -/
def LifoEvent.apply : LifoEvent V → List V → Option (List V)
  | push v, l => some (v :: l)
  | pop _, [] => none
  | pop v, w :: l => if w = v then some l else none

/-- The stack after a history. -/
def replay : List (LifoEvent V) → Option (List V)
  | [] => some []
  | e :: log => (replay log).bind e.apply

variable {log : List (LifoEvent V)} {l : List V} {v : V}

theorem replay_push (h : replay log = some l) : replay (.push v :: log) = some (v :: l) := by
  simp only [replay, h, Option.bind_some, LifoEvent.apply]

theorem replay_pop (h : replay log = some (v :: l)) : replay (.pop v :: log) = some l := by
  simp only [replay, h, Option.bind_some, LifoEvent.apply, if_true]

theorem count_replay (h : replay log = some l) (v : V) :
    log.count (.push v) = log.count (.pop v) + l.count v := by
  induction log generalizing l with
  | nil =>
      obtain rfl := Option.some.inj h
      rfl
  | cons e log ih =>
      obtain ⟨l', hl', he⟩ := Option.bind_eq_some_iff.mp h
      have hcount := ih hl'
      cases e with
      | push w =>
          obtain rfl := Option.some.inj he
          simp only [List.count_cons, beq_iff_eq, LifoEvent.push.injEq, reduceCtorEq, if_false]
          omega
      | pop w =>
          cases l' with
          | nil => cases he
          | cons x l' =>
              simp only [LifoEvent.apply, Option.ite_none_right_eq_some, Option.some.injEq] at he
              obtain ⟨rfl, rfl⟩ := he
              simp only [List.count_cons, beq_iff_eq, LifoEvent.pop.injEq, reduceCtorEq, if_false]
                at hcount ⊢
              omega

end Stack

/-! ## §2. Scans. -/

variable {E : Type*} {part : E → ℕ} {moments : List (Finset E)} {n : ℕ} {ret : List E}

/-- What a scan has after the parts below `n`: no element twice, only elements that
    were there at some moment, and all of these parts that were there all the time. -/
structure Scanned (part : E → ℕ) (moments : List (Finset E)) (n : ℕ) (ret : List E) : Prop where
  nodup : ret.Nodup
  behind : ∀ e ∈ ret, part e < n
  seen : ∀ e ∈ ret, ∃ P ∈ moments, e ∈ P
  complete : ∀ e, part e < n → (∀ P ∈ moments, e ∈ P) → e ∈ ret

theorem scanned_zero : Scanned part moments 0 [] where
  nodup := .nil
  behind _ he := by cases he
  seen _ he := by cases he
  complete _ he := absurd he (Nat.not_lt_zero _)

theorem Scanned.later (h : Scanned part moments n ret) (P : Finset E) :
    Scanned part (P :: moments) n ret where
  nodup := h.nodup
  behind := h.behind
  seen e he := by
    obtain ⟨Q, hQ, heQ⟩ := h.seen e he
    exact ⟨Q, List.mem_cons_of_mem P hQ, heQ⟩
  complete e he hall := h.complete e he fun Q hQ => hall Q (List.mem_cons_of_mem P hQ)

/-- The part `n` is copied as it is at the moment `P`. -/
theorem Scanned.next (h : Scanned part moments n ret) {P : Finset E} (hP : P ∈ moments)
    {l : List E} (hl : l.Nodup) (hmem : ∀ e, e ∈ l ↔ e ∈ P ∧ part e = n) :
    Scanned part moments (n + 1) (ret ++ l) where
  nodup := by
    refine List.nodup_append.mpr ⟨h.nodup, hl, fun e he e' he' heq => ?_⟩
    have hlt := h.behind e he
    have hn := ((hmem e').mp he').2
    rw [← heq] at hn
    omega
  behind e he := by
    rcases List.mem_append.mp he with he | he
    · exact Nat.lt_succ_of_lt (h.behind e he)
    · rw [((hmem e).mp he).2]
      exact Nat.lt_succ_self n
  seen e he := by
    rcases List.mem_append.mp he with he | he
    · exact h.seen e he
    · exact ⟨P, hP, ((hmem e).mp he).1⟩
  complete e he hall := by
    refine List.mem_append.mpr ?_
    rcases Nat.lt_succ_iff_lt_or_eq.mp he with hlt | hn
    · exact .inl (h.complete e hlt hall)
    · exact .inr ((hmem e).mpr ⟨hall P hP, hn⟩)

end Interleave
