/-
  HThread.Interleave.Fifo — lanes of elements and the hands that take them.

  An element is put at the end of a lane.  An actor whose hand is empty takes the
  first element of a lane, and then gives it to whoever asked for it.  This is what
  a queue is for, when the order between lanes does not matter.

  Key lemmas:
    * `lanes_conserve` — what is put into a lane is what is taken from it, in this
      order, and what is still there.
    * `hands_conserve` — what an actor has taken it has given, in this order, or
      has in its hand.
-/
import Mathlib.Logic.Function.Basic
import HThread.Interleave.Machine

namespace Interleave

open Function (update)

variable {P A E : Type*}

/-- The elements that wait, and those in the hands of the actors. -/
structure Lanes (P A E : Type*) where
  items : P → List E
  hand : A → Option E

inductive LaneAct (P A E : Type*) where
  | put (p : P) (e : E)
  | take (a : A) (p : P) (e : E)
  | give (a : A) (e : E)
  deriving DecidableEq, Repr

variable [DecidableEq P] [DecidableEq A] [DecidableEq E]

/-- One step: only the first element of a lane can be taken, and only what has been taken
    can be given. -/
def laneStep (s : Lanes P A E) : LaneAct P A E → Option (Lanes P A E)
  | .put p e => some { s with items := update s.items p (s.items p ++ [e]) }
  | .take a p e =>
      if s.hand a = none ∧ (s.items p).head? = some e then
        some ⟨update s.items p (s.items p).tail, update s.hand a (some e)⟩
      else none
  | .give a e =>
      if s.hand a = some e then some { s with hand := update s.hand a none } else none

/-- The lanes are empty at first. -/
def lanes : Machine (Lanes P A E) (LaneAct P A E) where
  init s := s = ⟨fun _ => [], fun _ => none⟩
  step := laneStep

/-- The elements that a list of actions puts into lane `p`. -/
def puts (p : P) (as : List (LaneAct P A E)) : List E :=
  as.filterMap fun
    | .put q e => if q = p then some e else none
    | _ => none

/-- The elements that a list of actions takes from lane `p`. -/
def takes (p : P) (as : List (LaneAct P A E)) : List E :=
  as.filterMap fun
    | .take _ q e => if q = p then some e else none
    | _ => none

/-- The elements that actor `a` takes. -/
def takenBy (a : A) (as : List (LaneAct P A E)) : List E :=
  as.filterMap fun
    | .take b _ e => if b = a then some e else none
    | _ => none

/-- The elements that actor `a` gives. -/
def givenBy (a : A) (as : List (LaneAct P A E)) : List E :=
  as.filterMap fun
    | .give b e => if b = a then some e else none
    | _ => none

/-- **First in, first out.** -/
theorem lanes_conserve {s t : Lanes P A E} {as : List (LaneAct P A E)}
    (h : lanes.run s as = some t) (p : P) :
    s.items p ++ puts p as = takes p as ++ t.items p := by
  induction as generalizing s with
  | nil =>
      obtain rfl : s = t := Option.some.inj h
      exact List.append_nil _
  | cons a as ih =>
      obtain ⟨r, hstep, hrest⟩ := Machine.run_cons h
      have hrest := ih hrest
      cases a with
      | put q e =>
          obtain rfl := Option.some.inj hstep
          by_cases hq : q = p
          · subst hq
            have hcons : puts q (LaneAct.put q e :: as) = e :: puts q as := by simp [puts]
            rw [hcons, show takes q (LaneAct.put q e :: as) = takes q as from rfl, ← hrest]
            simp
          · have hcons : puts p (LaneAct.put q e :: as) = puts p as := by simp [puts, hq]
            rw [hcons, show takes p (LaneAct.put q e :: as) = takes p as from rfl, ← hrest]
            simp [Function.update_of_ne (Ne.symm hq)]
      | take b q e =>
          simp only [lanes, laneStep, Option.ite_none_right_eq_some] at hstep
          obtain ⟨⟨-, hhead⟩, hstep⟩ := hstep
          obtain rfl := Option.some.inj hstep
          have hputs : puts p (LaneAct.take b q e :: as) = puts p as := rfl
          by_cases hq : q = p
          · subst hq
            have hcons : takes q (LaneAct.take b q e :: as) = e :: takes q as := by simp [takes]
            have hsplit : s.items q = e :: (s.items q).tail := by
              obtain ⟨es, hes⟩ := List.head?_eq_some_iff.mp hhead
              rw [hes]
              rfl
            have hitems : (s.items q).tail ++ puts q as = takes q as ++ t.items q := by
              simpa using hrest
            rw [hputs, hcons, hsplit, List.cons_append, hitems]
            rfl
          · have hcons : takes p (LaneAct.take b q e :: as) = takes p as := by simp [takes, hq]
            rw [hputs, hcons, ← hrest]
            simp [Function.update_of_ne (Ne.symm hq)]
      | give b e =>
          simp only [lanes, laneStep, Option.ite_none_right_eq_some] at hstep
          obtain rfl := Option.some.inj hstep.2
          exact hrest

/-- The same for a run from the start. -/
theorem lanes_conserve_init {s t : Lanes P A E} {as : List (LaneAct P A E)}
    (hs : lanes.init s) (h : lanes.run s as = some t) (p : P) :
    puts p as = takes p as ++ t.items p := by
  obtain rfl : s = ⟨fun _ => [], fun _ => none⟩ := hs
  exact lanes_conserve h p

/-- **What is taken is given.** -/
theorem hands_conserve {s t : Lanes P A E} {as : List (LaneAct P A E)}
    (h : lanes.run s as = some t) (a : A) :
    (s.hand a).toList ++ takenBy a as = givenBy a as ++ (t.hand a).toList := by
  induction as generalizing s with
  | nil =>
      obtain rfl : s = t := Option.some.inj h
      exact List.append_nil _
  | cons act as ih =>
      obtain ⟨r, hstep, hrest⟩ := Machine.run_cons h
      have hrest := ih hrest
      cases act with
      | put q e =>
          obtain rfl := Option.some.inj hstep
          exact hrest
      | take b q e =>
          simp only [lanes, laneStep, Option.ite_none_right_eq_some] at hstep
          obtain ⟨⟨hnone, -⟩, hstep⟩ := hstep
          obtain rfl := Option.some.inj hstep
          by_cases hb : b = a
          · subst hb
            have hrest : [e] ++ takenBy b as = givenBy b as ++ (t.hand b).toList := by
              simpa using hrest
            have hcons : takenBy b (LaneAct.take b q e :: as) = e :: takenBy b as := by
              simp [takenBy]
            rw [hnone, hcons]
            exact hrest
          · have hcons : takenBy a (LaneAct.take b q e :: as) = takenBy a as := by
              simp [takenBy, hb]
            rw [hcons, show givenBy a (LaneAct.take b q e :: as) = givenBy a as from rfl, ← hrest]
            simp [Function.update_of_ne (Ne.symm hb)]
      | give b e =>
          simp only [lanes, laneStep, Option.ite_none_right_eq_some] at hstep
          obtain ⟨hhand, hstep⟩ := hstep
          obtain rfl := Option.some.inj hstep
          by_cases hb : b = a
          · subst hb
            have hrest : takenBy b as = givenBy b as ++ (t.hand b).toList := by
              simpa using hrest
            have hcons : givenBy b (LaneAct.give (P := P) b e :: as) = e :: givenBy b as := by
              simp [givenBy]
            rw [hhand, hcons, show takenBy b (LaneAct.give b e :: as) = takenBy b as from rfl, hrest]
            rfl
          · have hcons : givenBy a (LaneAct.give (P := P) b e :: as) = givenBy a as := by
              simp [givenBy, hb]
            rw [hcons, show takenBy a (LaneAct.give b e :: as) = takenBy a as from rfl, ← hrest]
            simp [Function.update_of_ne (Ne.symm hb)]

end Interleave
