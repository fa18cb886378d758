/-
  HThread.Hsem — `hsem_wait` and `hsem_post` of hutil.h.

  `hsem_wait` subtracts one and returns if the result is not negative; else it
  calls futex until it has been woken, and does not look at the counter again.
  `hsem_post` adds one and makes one wake-up call.  Between the two a newcomer
  may take the unit that was added, and the wake-up call still lets a sleeper
  go: one unit, two admissions.

  The counter is a 32-bit word.  Every atomic add, futex wait, load and futex
  wake is one step of the machine `hsem v`.

  Key lemmas:
    * `hsemStep_effect`  — what a step can do.
    * `accounted_step`   — the counter and the threads inside `hsem_wait` are the
      value, as long as the word does not overflow.
  Main result:
    * `admission_iff` — for which numbers of threads, and in which runs, no more
      calls of `hsem_wait` return than there are units.
-/
import Mathlib.Data.Fintype.Basic
import HThread.Interleave.Machine
import HThread.Interleave.Tally
import HThread.Interleave.Words

namespace HThread.Hsem

open Interleave
open Function (update)

/-! ## §1. The code. -/

/-- hutil.h:39, `h_add_and_fetch`: the new word, and what is returned. -/
def hAddAndFetch (pop1 op2 : BitVec 32) : BitVec 32 × BitVec 32 := (pop1 + op2, pop1 + op2)

/-- hutil.h:52, `h_fetch_and_add`. -/
def hFetchAndAdd (pop1 op2 : BitVec 32) : BitVec 32 × BitVec 32 := (pop1 + op2, pop1)

/-- Program points of the two functions. -/
inductive HsemPc where
  /-- Not inside any call. -/
  | idle
  /-- hutil.h:67, `new_val = h_add_and_fetch(p, -1)` and the test of `new_val`. -/
  | waitAdd
  /-- hutil.h:72, `futex(p, FUTEX_WAIT, new_val, …)`, -/
  | waitFutex (newVal : BitVec 32)
  /-- asleep in it, -/
  | asleep
  /-- and back from it with 0. -/
  | woken
  /-- hutil.h:77, `new_val = *p` after EAGAIN. -/
  | reload
  /-- hutil.h:90, `h_fetch_and_add(p, 1)`. -/
  | postAdd
  /-- hutil.h:91, `futex(p, FUTEX_WAKE, 1, …)`; the code after line 92 is not reached. -/
  | postFutex
  deriving DecidableEq, Repr

/-- The calls a program can make. -/
inductive HsemCall where
  | hsemWait | hsemPost
  deriving DecidableEq, Repr

/-- The entry point of a call. -/
def HsemCall.entry : HsemCall → HsemPc
  | .hsemWait => .waitAdd
  | .hsemPost => .postAdd

/-- The counter with the threads' program points.  History: the calls of `hsem_wait`
    that have returned, the calls of `hsem_post` that have done their increment. -/
structure HsemState (T : Type) where
  p : BitVec 32
  pc : T → HsemPc
  waits : ℕ
  posts : ℕ

/-- An action of thread `t`: start a call, wake the sleeping thread `b`, or take the
    next step otherwise. -/
inductive HsemAct (T : Type) where
  | call (t : T) (f : HsemCall)
  | rouse (t b : T)
  | go (t : T)
  deriving DecidableEq, Repr

variable {T : Type} [DecidableEq T]

/-- Thread `t` moves to `q`. -/
def HsemState.goto (s : HsemState T) (t : T) (q : HsemPc) : HsemState T :=
  { s with pc := update s.pc t q }

/-- hutil.h:63, `hsem_wait`. -/
def hsemWait (s : HsemState T) (t : T) : HsemPc → Option (HsemState T)
  | .waitAdd =>
      let r := hAddAndFetch s.p (-1)
      some (if r.2.toInt < 0 then { s with p := r.1 }.goto t (.waitFutex r.2)
        else { s with p := r.1, waits := s.waits + 1 }.goto t .idle)
  | .waitFutex newVal => some (s.goto t (if s.p = newVal then .asleep else .reload))
  | .woken => some ({ s with waits := s.waits + 1 }.goto t .idle)
  | .reload => some (s.goto t (.waitFutex s.p))
  | .idle | .asleep | .postAdd | .postFutex => none

/-- hutil.h:85, `hsem_post`, when nobody is asleep at its wake-up call. -/
def hsemPost [Fintype T] (s : HsemState T) (t : T) : HsemPc → Option (HsemState T)
  | .postAdd =>
      some ({ s with p := (hFetchAndAdd s.p 1).1, posts := s.posts + 1 }.goto t .postFutex)
  | .postFutex => if ∀ b, s.pc b ≠ .asleep then some (s.goto t .idle) else none
  | .idle | .waitAdd | .waitFutex _ | .asleep | .woken | .reload => none

/-- The wake-up call of `hsem_post` finds `b` asleep. -/
def futexWake (s : HsemState T) (t b : T) : HsemPc → Option (HsemState T)
  | .postFutex => if s.pc b = .asleep then some ((s.goto b .woken).goto t .idle) else none
  | .idle | .waitAdd | .waitFutex _ | .asleep | .woken | .reload | .postAdd => none

/-- One step of one thread. -/
def hsemStep [Fintype T] (s : HsemState T) : HsemAct T → Option (HsemState T)
  | .call t f => if s.pc t = .idle then some (s.goto t f.entry) else none
  | .rouse t b => futexWake s t b (s.pc t)
  | .go t =>
      match s.pc t with
      | .postAdd => hsemPost s t .postAdd
      | .postFutex => hsemPost s t .postFutex
      | q => hsemWait s t q

/-- A counter with value `v`, nobody inside a call. -/
def hsemInit (v : BitVec 32) : HsemState T where
  p := v
  pc _ := .idle
  waits := 0
  posts := 0

/-- The counter and its users. -/
def hsem [Fintype T] (v : BitVec 32) : Machine (HsemState T) (HsemAct T) where
  init s := s = hsemInit v
  step := hsemStep

/-! ## §2. What a step can do. -/

/-- The effects of one step of thread `t`. -/
inductive Effect (s : HsemState T) : HsemAct T → HsemState T → Prop
  | enter (t f) (hpc : s.pc t = .idle) : Effect s (.call t f) (s.goto t f.entry)
  | take (t) (hpc : s.pc t = .waitAdd) (hpos : 0 ≤ (s.p + -1).toInt) :
      Effect s (.go t) ({ s with p := s.p + -1, waits := s.waits + 1 }.goto t .idle)
  | under (t) (hpc : s.pc t = .waitAdd) (hneg : (s.p + -1).toInt < 0) :
      Effect s (.go t) ({ s with p := s.p + -1 }.goto t (.waitFutex (s.p + -1)))
  | sleep (t) (hpc : s.pc t = .waitFutex s.p) : Effect s (.go t) (s.goto t .asleep)
  | again (t newVal) (hpc : s.pc t = .waitFutex newVal) (hne : s.p ≠ newVal) :
      Effect s (.go t) (s.goto t .reload)
  | load (t) (hpc : s.pc t = .reload) : Effect s (.go t) (s.goto t (.waitFutex s.p))
  | leave (t) (hpc : s.pc t = .woken) :
      Effect s (.go t) ({ s with waits := s.waits + 1 }.goto t .idle)
  | post (t) (hpc : s.pc t = .postAdd) :
      Effect s (.go t) ({ s with p := s.p + 1, posts := s.posts + 1 }.goto t .postFutex)
  | miss (t) (hpc : s.pc t = .postFutex) (hnone : ∀ b, s.pc b ≠ .asleep) :
      Effect s (.go t) (s.goto t .idle)
  | wake (t b) (hpc : s.pc t = .postFutex) (hb : s.pc b = .asleep) :
      Effect s (.rouse t b) ((s.goto b .woken).goto t .idle)

theorem hsemStep_effect [Fintype T] {s s' : HsemState T} {act : HsemAct T}
    (hs : hsemStep s act = some s') : Effect s act s' := by
  cases act with
  | call t f =>
      simp only [hsemStep, Option.ite_none_right_eq_some] at hs
      obtain ⟨hcond, hs⟩ := hs
      obtain rfl := Option.some.inj hs
      exact .enter t f hcond
  | rouse t b =>
      cases hpc : s.pc t with
      | postFutex =>
          simp only [hsemStep, futexWake, hpc, Option.ite_none_right_eq_some] at hs
          obtain ⟨hcond, hs⟩ := hs
          obtain rfl := Option.some.inj hs
          exact .wake t b hpc hcond
      | _ => simp [hsemStep, futexWake, hpc] at hs
  | go t =>
      cases hpc : s.pc t with
      | idle | asleep => simp [hsemStep, hsemWait, hpc] at hs
      | waitAdd =>
          simp only [hsemStep, hpc, hsemWait] at hs
          obtain rfl := Option.some.inj hs
          by_cases hneg : (hAddAndFetch s.p (-1)).2.toInt < 0
          · rw [if_pos hneg]
            exact .under t hpc hneg
          · rw [if_neg hneg]
            exact .take t hpc (Int.not_lt.mp hneg)
      | waitFutex newVal =>
          simp only [hsemStep, hpc, hsemWait] at hs
          obtain rfl := Option.some.inj hs
          by_cases he : s.p = newVal
          · rw [if_pos he]
            exact .sleep t (he ▸ hpc)
          · rw [if_neg he]
            exact .again t newVal hpc he
      | woken =>
          simp only [hsemStep, hpc, hsemWait] at hs
          obtain rfl := Option.some.inj hs
          exact .leave t hpc
      | reload =>
          simp only [hsemStep, hpc, hsemWait] at hs
          obtain rfl := Option.some.inj hs
          exact .load t hpc
      | postAdd =>
          simp only [hsemStep, hpc, hsemPost, hFetchAndAdd] at hs
          obtain rfl := Option.some.inj hs
          exact .post t hpc
      | postFutex =>
          simp only [hsemStep, hpc, hsemPost, Option.ite_none_right_eq_some] at hs
          obtain ⟨hcond, hs⟩ := hs
          obtain rfl := Option.some.inj hs
          exact .miss t hpc hcond

/-- And each of them is one. -/
theorem Effect.step [Fintype T] {s s' : HsemState T} {act : HsemAct T} (h : Effect s act s') :
    hsemStep s act = some s' := by
  cases h with
  | enter t f hpc => exact if_pos hpc
  | take t hpc hpos =>
      have hneg : ¬(hAddAndFetch s.p (-1)).2.toInt < 0 := Int.not_lt.mpr hpos
      simp only [hsemStep, hpc, hsemWait]
      rw [if_neg hneg]
      rfl
  | under t hpc hneg =>
      have hneg : (hAddAndFetch s.p (-1)).2.toInt < 0 := hneg
      simp only [hsemStep, hpc, hsemWait]
      rw [if_pos hneg]
      rfl
  | sleep t hpc => simp only [hsemStep, hpc, hsemWait, if_true]
  | again t newVal hpc hne =>
      simp only [hsemStep, hpc, hsemWait]
      rw [if_neg hne]
  | load t hpc => simp only [hsemStep, hpc, hsemWait]
  | leave t hpc => simp only [hsemStep, hpc, hsemWait]
  | post t hpc => simp only [hsemStep, hpc, hsemPost, hFetchAndAdd]
  | miss t hpc hnone =>
      simp only [hsemStep, hpc, hsemPost]
      rw [if_pos hnone]
  | wake t b hpc hb =>
      simp only [hsemStep, hpc, futexWake]
      rw [if_pos hb]

/-! ## §3. The units. -/

/-- Inside `hsem_wait`, with the counter already decremented. -/
def HsemPc.inside : HsemPc → ℕ
  | waitFutex _ | asleep | woken | reload => 1
  | idle | waitAdd | postAdd | postFutex => 0

/-- The number of threads inside `hsem_wait` that have decremented the counter. -/
def inside [Fintype T] (s : HsemState T) : ℕ := tally HsemPc.inside s.pc

/-- No more calls of `hsem_wait` have returned than there were units. -/
def NotOverAdmitted (v : BitVec 32) (s : HsemState T) : Prop := (s.waits : ℤ) ≤ v.toInt + s.posts

/-- The addition stays within the word. -/
def NoOverflow (s : HsemState T) : HsemAct T → Prop
  | .go t =>
      (s.pc t = .waitAdd → -2 ^ 31 < s.p.toInt) ∧ (s.pc t = .postAdd → s.p.toInt < 2 ^ 31 - 1)
  | _ => True

instance (s : HsemState T) : ∀ act, Decidable (NoOverflow s act)
  | .go _ => inferInstanceAs (Decidable (_ ∧ _))
  | .call _ _ | .rouse _ _ => .isTrue trivial

/-- A woken thread returns while there is a unit for it: the counter is above what
    the threads inside have taken from it. -/
def UnitThere [Fintype T] (s : HsemState T) : HsemAct T → Prop
  | .go t => s.pc t = .woken → 0 < s.p.toInt + inside s
  | _ => True

instance [Fintype T] (s : HsemState T) : ∀ act, Decidable (UnitThere s act)
  | .go _ => inferInstanceAs (Decidable (_ → _))
  | .call _ _ | .rouse _ _ => .isTrue trivial

/-- The counter and the decrements of the threads inside are the units left. -/
def Accounted [Fintype T] (v : BitVec 32) (s : HsemState T) : Prop :=
  s.p.toInt + inside s + s.waits = v.toInt + s.posts

section Steps

variable [Fintype T] {v : BitVec 32} {s s' : HsemState T} {act : HsemAct T}

/-- A step of `t` from `q₀` to `q` that changes the counter and the histories as given. -/
theorem accounted_goto (h : Accounted v s) (p : BitVec 32) (waits posts : ℕ) {t : T}
    {q₀ q : HsemPc} (hpc : s.pc t = q₀)
    (hc : p.toInt + q.inside + waits + s.posts = s.p.toInt + q₀.inside + s.waits + posts) :
    Accounted v ({ s with p := p, waits := waits, posts := posts }.goto t q) := by
  have ht := tally_update HsemPc.inside s.pc t q
  rw [hpc] at ht
  have hsum : s.p.toInt + inside s + s.waits = v.toInt + s.posts := h
  show p.toInt + (tally HsemPc.inside (update s.pc t q) : ℕ) + waits = v.toInt + posts
  unfold inside at hsum
  omega

/-- **The units are accounted for.** -/
theorem accounted_step (h : Accounted v s) (hno : NoOverflow s act)
    (hs : hsemStep s act = some s') : Accounted v s' := by
  cases hsemStep_effect hs with
  | enter t f hpc =>
      refine accounted_goto h s.p s.waits s.posts hpc ?_
      cases f <;> rfl
  | take t hpc hpos =>
      refine accounted_goto h (s.p + -1) (s.waits + 1) s.posts hpc ?_
      rw [toInt_pred (hno.1 hpc)]
      simp only [HsemPc.inside]
      omega
  | under t hpc hneg =>
      refine accounted_goto h (s.p + -1) s.waits s.posts hpc ?_
      rw [toInt_pred (hno.1 hpc)]
      simp only [HsemPc.inside]
      omega
  | sleep t hpc | again t _ hpc | load t hpc | miss t hpc =>
      exact accounted_goto h s.p s.waits s.posts hpc rfl
  | leave t hpc =>
      refine accounted_goto h s.p (s.waits + 1) s.posts hpc ?_
      simp only [HsemPc.inside]
      omega
  | post t hpc =>
      refine accounted_goto h (s.p + 1) s.waits (s.posts + 1) hpc ?_
      rw [toInt_succ (hno.2 hpc)]
      simp only [HsemPc.inside]
      omega
  | wake t b hpc hb =>
      -- both threads stay on the side of the decrement where they were
      have hbt : b ≠ t := by
        rintro rfl
        rw [hb] at hpc
        cases hpc
      have ht := tally_update₂ HsemPc.inside s.pc hbt .woken .idle
      rw [hb, hpc] at ht
      have hsum : s.p.toInt + inside s + s.waits = v.toInt + s.posts := h
      show s.p.toInt + (tally HsemPc.inside (update (update s.pc b .woken) t .idle) : ℕ) + s.waits
        = v.toInt + s.posts
      unfold inside at hsum
      simp only [HsemPc.inside] at ht
      omega

omit [Fintype T] in
/-- The counts after a step are within the units. -/
theorem notOver_goto {p : BitVec 32} {waits posts : ℕ} {t : T} {q : HsemPc}
    (hc : (waits : ℤ) ≤ v.toInt + posts) :
    NotOverAdmitted v ({ s with p := p, waits := waits, posts := posts }.goto t q) := hc

/-- A return from `hsem_wait` finds a unit: right after the decrement, or if there is
    one for the thread that was woken. -/
theorem admitted_step (h : Accounted v s) (hadm : NotOverAdmitted v s) (hno : NoOverflow s act)
    (hunit : UnitThere s act) (hs : hsemStep s act = some s') : NotOverAdmitted v s' := by
  have hsum : s.p.toInt + inside s + s.waits = v.toInt + s.posts := h
  have hle : (s.waits : ℤ) ≤ v.toInt + s.posts := hadm
  cases hsemStep_effect hs with
  | take t hpc hpos =>
      rw [toInt_pred (hno.1 hpc)] at hpos
      exact notOver_goto (by omega)
  | leave t hpc =>
      have hthere : 0 < s.p.toInt + inside s := hunit hpc
      exact notOver_goto (by omega)
  | post t hpc => exact notOver_goto (by omega)
  | wake t b hpc hb => exact hadm
  | enter | under | sleep | again | load | miss => exact notOver_goto hle

/-- If there is none, one call too many returns. -/
theorem not_admitted_of_none (h : Accounted v s) (hunit : ¬UnitThere s act)
    (hs : hsemStep s act = some s') : ¬NotOverAdmitted v s' := by
  have hsum : s.p.toInt + inside s + s.waits = v.toInt + s.posts := h
  unfold NotOverAdmitted
  cases hsemStep_effect hs with
  | leave t hpc =>
      have hnone : ¬0 < s.p.toInt + inside s := fun hthere => hunit fun _ => hthere
      show ¬((s.waits + 1 : ℕ) : ℤ) ≤ v.toInt + s.posts
      omega
  | enter | wake => exact absurd trivial hunit
  | take t hpc | under t hpc | sleep t hpc | again t _ hpc | load t hpc | post t hpc | miss t hpc =>
      refine absurd (fun hw => ?_) hunit
      rw [hpc] at hw
      cases hw

end Steps

/-- The units are accounted for, and no call too many has returned. -/
structure Admitted [Fintype T] (v : BitVec 32) (s : HsemState T) : Prop where
  accounted : Accounted v s
  admitted : NotOverAdmitted v s

omit [DecidableEq T] in
theorem accounted_start [Fintype T] (v : BitVec 32) : Accounted v (hsemInit v : HsemState T) := by
  have hzero : inside (hsemInit v : HsemState T) = 0 := (tally_eq_zero _ _).mpr fun _ => rfl
  show v.toInt + (inside (hsemInit v : HsemState T) : ℕ) + ((0 : ℕ) : ℤ) = v.toInt + ((0 : ℕ) : ℤ)
  omega

omit [DecidableEq T] in
theorem admitted_start [Fintype T] {v : BitVec 32} (hv : 0 ≤ v.toInt) :
    Admitted v (hsemInit v : HsemState T) where
  accounted := accounted_start v
  admitted := by
    show ((0 : ℕ) : ℤ) ≤ v.toInt + ((0 : ℕ) : ℤ)
    omega

theorem hsem_keeps [Fintype T] {v : BitVec 32} (hv : 0 ≤ v.toInt) :
    (hsem (T := T) v).Keeps (fun s act => NoOverflow s act ∧ UnitThere s act) (Admitted v) where
  start s hs := by
    obtain rfl : s = hsemInit v := hs
    exact admitted_start hv
  step _ _ _ h hok hs :=
    ⟨accounted_step h.accounted hok.1 hs, admitted_step h.accounted h.admitted hok.1 hok.2 hs⟩

/-! ## §4. One thread. -/

/-- A single thread is never woken. -/
theorem alone_step [Fintype T] [Subsingleton T] {s s' : HsemState T} {act : HsemAct T}
    (hs : hsemStep s act = some s') (t : T) : s'.pc t ≠ .woken := by
  have hgoto : ∀ x q, q ≠ HsemPc.woken → update s.pc x q t ≠ .woken := by
    intro x q hq
    obtain rfl := Subsingleton.elim x t
    rw [Function.update_self]
    exact hq
  cases hsemStep_effect hs with
  | enter x f hpc =>
      refine hgoto x _ ?_
      cases f <;> simp [HsemCall.entry]
  | wake x b hpc hb =>
      -- the sleeper is another thread
      obtain rfl := Subsingleton.elim x b
      rw [hpc] at hb
      cases hb
  | take x | under x | sleep x | again x | load x | leave x | post x | miss x =>
      exact hgoto x _ (by simp)

theorem admitted_of_one [Fintype T] [Subsingleton T] {v : BitVec 32} (hv : 0 ≤ v.toInt)
    {s : HsemState T} (hr : (hsem v).ReachableVia NoOverflow s) : NotOverAdmitted v s := by
  have hkeeps : (hsem (T := T) v).Keeps NoOverflow
      fun s => Admitted v s ∧ ∀ t, s.pc t ≠ .woken := by
    refine ⟨fun s hs => ?_, fun s act s' h hno hs => ⟨?_, alone_step hs⟩⟩
    · obtain rfl : s = hsemInit v := hs
      exact ⟨admitted_start hv, fun _ ht => by cases ht⟩
    · have hunit : UnitThere s act := by
        cases act with
        | go t => exact fun hw => absurd hw (h.2 t)
        | call | rouse => trivial
      exact ⟨accounted_step h.1.accounted hno hs,
        admitted_step h.1.accounted h.1.admitted hno hunit hs⟩
  exact (hkeeps.reachable hr).1.admitted

/-! ## §5. Two threads. -/

/-- Thread `t` is at `a` and thread `u` at `b`, nobody else is inside a call. -/
def duo (t u : T) (p : BitVec 32) (a b : HsemPc) (waits posts : ℕ) : HsemState T where
  p := p
  pc := update (update (fun _ => .idle) u b) t a
  waits := waits
  posts := posts

theorem duo_idle (t u : T) (v : BitVec 32) : duo t u v .idle .idle 0 0 = hsemInit v := by
  simp [duo, hsemInit]

/-- A signed word that is not negative. -/
theorem toNat_lt {x : BitVec 32} (hx : 0 ≤ x.toInt) : x.toNat < 2 ^ 31 := by
  have hcond := BitVec.toInt_eq_toNat_cond x
  have hlt := x.isLt
  by_cases hbig : 2 * x.toNat < 2 ^ 32
  · omega
  · rw [if_neg hbig] at hcond
    omega

theorem toInt_eq_toNat {x : BitVec 32} (hx : 0 ≤ x.toInt) : x.toInt = x.toNat :=
  BitVec.toInt_eq_toNat_of_lt (by have := toNat_lt hx; omega)

section Two

variable {t u : T} {p : BitVec 32} {a b q : HsemPc} {waits posts : ℕ}

theorem duo_left : (duo t u p a b waits posts).pc t = a := by
  show update (update (fun _ => HsemPc.idle) u b) t a t = a
  rw [Function.update_self]

theorem duo_right (h : u ≠ t) : (duo t u p a b waits posts).pc u = b := by
  show update (update (fun _ => HsemPc.idle) u b) t a u = b
  rw [Function.update_of_ne h, Function.update_self]

theorem duo_goto_left : (duo t u p a b waits posts).goto t q = duo t u p q b waits posts := by
  simp [duo, HsemState.goto]

theorem duo_goto_right (h : u ≠ t) :
    (duo t u p a b waits posts).goto u q = duo t u p a q waits posts := by
  simp only [duo, HsemState.goto, HsemState.mk.injEq, true_and, and_true]
  rw [Function.update_comm h, Function.update_idem, Function.update_comm h.symm]

/-- A step of `t` that is no addition. -/
theorem noOverflow_left (ha : a ≠ .waitAdd ∧ a ≠ .postAdd) :
    NoOverflow (duo t u p a b waits posts) (.go t) :=
  ⟨fun h => absurd (duo_left.symm.trans h) ha.1, fun h => absurd (duo_left.symm.trans h) ha.2⟩

theorem noOverflow_right (hne : u ≠ t) (hb : b ≠ .waitAdd ∧ b ≠ .postAdd) :
    NoOverflow (duo t u p a b waits posts) (.go u) :=
  ⟨fun h => absurd ((duo_right hne).symm.trans h) hb.1,
    fun h => absurd ((duo_right hne).symm.trans h) hb.2⟩

variable [Fintype T] {v : BitVec 32} {s r s' : HsemState T} {act : HsemAct T}

/-- One more step, with what it leads to. -/
theorem then_step (hr : (hsem v).ReachableVia NoOverflow s) (he : Effect s act r)
    (hno : NoOverflow s act) (hrs : r = s') : (hsem v).ReachableVia NoOverflow s' :=
  hrs ▸ hr.step hno he.step

/-- `t` posts a unit, and has its wake-up call to make. -/
theorem duo_posts (hr : (hsem v).ReachableVia NoOverflow (duo t u p .idle b waits posts))
    (hno : p.toInt < 2 ^ 31 - 1) :
    (hsem v).ReachableVia NoOverflow (duo t u (p + 1) .postFutex b waits (posts + 1)) := by
  have hr := then_step hr (.enter t .hsemPost duo_left) trivial duo_goto_left
  refine then_step hr (.post t duo_left) ⟨fun h => ?_, fun _ => hno⟩ duo_goto_left
  exact absurd (duo_left.symm.trans h) (by simp [HsemCall.entry])

/-- `u` takes a unit. -/
theorem duo_takes (hne : u ≠ t)
    (hr : (hsem v).ReachableVia NoOverflow (duo t u p a .idle waits posts))
    (hpos : 0 < p.toInt) :
    (hsem v).ReachableVia NoOverflow (duo t u (p + -1) a .idle (waits + 1) posts) := by
  have hno : -2 ^ 31 < p.toInt := by omega
  have hpred := toInt_pred hno
  have hr := then_step hr (.enter u .hsemWait (duo_right hne)) trivial (duo_goto_right hne)
  refine then_step hr (.take u (duo_right hne) ?_) ⟨fun _ => hno, fun h => ?_⟩
    (duo_goto_right hne)
  · show 0 ≤ (p + -1).toInt
    omega
  · exact absurd ((duo_right hne).symm.trans h) (by simp [HsemCall.entry])

/-- `u` finds no unit, and is about to sleep. -/
theorem duo_waits (hne : u ≠ t)
    (hr : (hsem v).ReachableVia NoOverflow (duo t u p a .idle waits posts))
    (hno : -2 ^ 31 < p.toInt) (hnone : p.toInt ≤ 0) {p' : BitVec 32} (hp : p + -1 = p') :
    (hsem v).ReachableVia NoOverflow (duo t u p' a (.waitFutex p') waits posts) := by
  subst hp
  have hpred := toInt_pred hno
  have hr := then_step hr (.enter u .hsemWait (duo_right hne)) trivial (duo_goto_right hne)
  refine then_step hr (.under u (duo_right hne) ?_) ⟨fun _ => hno, fun h => ?_⟩
    (duo_goto_right hne)
  · show (p + -1).toInt < 0
    omega
  · exact absurd ((duo_right hne).symm.trans h) (by simp [HsemCall.entry])

/-- The units can be taken until none is left. -/
theorem duo_drained (hne : u ≠ t) (hv : 0 ≤ v.toInt) :
    ∀ k ≤ v.toNat, (hsem v).ReachableVia NoOverflow
      (duo t u (BitVec.ofNat 32 (v.toNat - k)) .idle .idle k 0)
  | 0, _ => by
      rw [Nat.sub_zero, BitVec.ofNat_toNat, BitVec.setWidth_eq, duo_idle]
      exact .start rfl
  | k + 1, hk => by
      have hlt : v.toNat < 2 ^ 31 := toNat_lt hv
      have hr := duo_drained hne hv k (by omega)
      obtain ⟨m, hm⟩ : ∃ m, v.toNat - k = m + 1 := ⟨v.toNat - k - 1, by omega⟩
      rw [hm] at hr
      rw [show v.toNat - (k + 1) = m by omega]
      have hpos : 0 < (BitVec.ofNat 32 (m + 1)).toInt := by
        rw [word_toInt (by omega)]
        omega
      have htaken := duo_takes hne hr hpos
      rw [← BitVec.sub_eq_add_neg, word_pred] at htaken
      exact htaken

/-- One unit, two admissions: `t` posts, `u` takes the unit before `t`'s wake-up call,
    calls `hsem_wait` again and is asleep in time for it. -/
theorem duo_over (hne : u ≠ t)
    (hr : (hsem v).ReachableVia NoOverflow (duo t u 0#32 .idle .idle waits posts)) :
    (hsem v).ReachableVia NoOverflow
      (duo t u 0xFFFFFFFF#32 .idle .idle (waits + 2) (posts + 1)) := by
  have hr := duo_posts hr (by decide)
  have hr := duo_takes hne hr (by decide)
  have hr := duo_waits hne hr (by decide) (by decide) (show _ = 0xFFFFFFFF#32 by decide)
  have hr := then_step hr (.sleep u (duo_right hne)) (noOverflow_right hne (by simp))
    (duo_goto_right hne)
  have hr : (hsem v).ReachableVia NoOverflow
      (duo t u 0xFFFFFFFF#32 .idle .woken (waits + 1) (posts + 1)) :=
    then_step hr (.wake t u duo_left (duo_right hne)) trivial
      (by rw [duo_goto_right hne, duo_goto_left])
  exact then_step hr (.leave u (duo_right hne)) (noOverflow_right hne (by simp))
    (duo_goto_right hne)

/-- With two threads one unit too many can be given away. -/
theorem overAdmitted_of_two (hne : u ≠ t) (hv : 0 ≤ v.toInt) :
    ∃ s : HsemState T, (hsem v).ReachableVia NoOverflow s ∧ ¬NotOverAdmitted v s := by
  have hr := duo_drained hne hv v.toNat le_rfl
  rw [Nat.sub_self] at hr
  refine ⟨_, duo_over hne hr, fun hover => ?_⟩
  have hover : ((v.toNat + 2 : ℕ) : ℤ) ≤ v.toInt + ((0 + 1 : ℕ) : ℤ) := hover
  rw [toInt_eq_toNat hv] at hover
  omega

end Two

/-- **hsem over-admits.**  No more calls of `hsem_wait` return than there are units,
    in all runs whose additions stay within the word, iff there are fewer than two
    threads; and among these runs the ones in which it holds throughout are those in
    which every woken thread returns while there is a unit for it. -/
theorem admission_iff [Fintype T] {v : BitVec 32} (hv : 0 ≤ v.toInt) :
    ((∀ s : HsemState T, (hsem v).ReachableVia NoOverflow s → NotOverAdmitted v s)
        ↔ Subsingleton T)
      ∧ ∀ {as : List (HsemAct T)} {s : HsemState T}, (hsem v).run (hsemInit v) as = some s →
          (hsem v).StepsMeet NoOverflow (hsemInit v) as →
            ((hsem v).Always (NotOverAdmitted v) (hsemInit v) as
              ↔ (hsem v).StepsMeet UnitThere (hsemInit v) as) := by
  refine ⟨⟨fun h => ⟨fun t u => ?_⟩, fun _ s hr => admitted_of_one hv hr⟩, ?_⟩
  · by_contra hne
    obtain ⟨s, hr, hover⟩ := overAdmitted_of_two (t := t) (Ne.symm hne) hv
    exact hover (h s hr)
  · intro as s hrun hno
    exact Machine.always_iff_stepsMeet_of (hsem_keeps hv) (fun _ h => h.admitted)
      (fun _ _ _ h _ hunit hs => not_admitted_of_none h.accounted hunit hs) rfl hrun hno

/-- Thread 0 posts the only unit, thread 1 takes it, calls `hsem_wait` again and sleeps,
    the wake-up call of thread 0 lets it go. -/
def overActs : List (HsemAct (Fin 2)) :=
  [.call 0 .hsemPost, .go 0, .call 1 .hsemWait, .go 1, .call 1 .hsemWait, .go 1, .go 1, .rouse 0 1,
    .go 1]

theorem hsem_over_admits :
    ∃ s, (hsem 0).run (hsemInit 0) overActs = some s ∧ s.waits = 2 ∧ s.posts = 1
      ∧ ¬NotOverAdmitted 0 s :=
  ⟨_, rfl, rfl, rfl, by unfold NotOverAdmitted; decide⟩

/-- Thread 1 sleeps, and the wake-up call of thread 0 lets it go: the unit is there. -/
def wokenActs : List (HsemAct (Fin 2)) :=
  [.call 1 .hsemWait, .go 1, .go 1, .call 0 .hsemPost, .go 0, .rouse 0 1, .go 1]

theorem admission_before :
    (∃ s, (hsem 0).run (hsemInit 0) (wokenActs.take 6) = some s ∧ s.pc 1 = .woken)
      ∧ (∃ t, (hsem 0).run (hsemInit 0) wokenActs = some t ∧ t.waits = 1 ∧ t.posts = 1)
      ∧ (hsem 0).Always (NotOverAdmitted 0) (hsemInit 0) wokenActs
      ∧ (hsem 0).Always (NotOverAdmitted 0) (hsemInit 0) (overActs.take 7) :=
  ⟨⟨_, rfl, rfl⟩, ⟨_, rfl, rfl, rfl⟩,
    ((admission_iff (by decide)).2 rfl
      (Machine.stepsMeet_of_check (fun _ _ => of_decide_eq_true) _ _ rfl)).mpr
      (Machine.stepsMeet_of_check (fun _ _ => of_decide_eq_true) _ _ rfl),
    ((admission_iff (by decide)).2 rfl
      (Machine.stepsMeet_of_check (fun _ _ => of_decide_eq_true) _ _ rfl)).mpr
      (Machine.stepsMeet_of_check (fun _ _ => of_decide_eq_true) _ _ rfl)⟩

end HThread.Hsem
