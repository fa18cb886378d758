/-
  HThread.Join.Effects — what a step in the join code can do.

  `join_mutex` of `t` protects the list behind `join_wait_queue`, the count
  `join_waiters_num` and the moment at which `cur_status` becomes
  STATUS_FINISHED.  `Free` is what holds of them while nobody has the mutex,
  `Guard` what the agent that has it knows, point by point.

  Key lemma:
    * `joinCode_effect` — every step in the code is one of eighteen effects.
-/
import Mathlib.Data.Int.Notation
import HThread.Interleave.SpinLock
import HThread.Join.Vthread

namespace HThread.Join

open Interleave
open Function (update)

variable {A V : Type} [DecidableEq A] [DecidableEq V]

/-! ## §1. What a program point says. -/

namespace JoinPc

/-- The vthread whose `join_mutex` the agent has. -/
def lock (me : Option V) : JoinPc V → Option V
  | joinRetval t _ | joinTest t _ | joinNum t | joinInc t _ | joinStatus t | joinHead t
  | joinPush t _ | joinLink t _ | joinRelease t | joinOut t _ | joinStore t _ _
  | joinUnlock t => some t
  | exitSet _ | exitUnlock => me
  | wakeRetval | wakeOut _ | wakeStore _ _ | wakeStatus | wakeNum | wakeWaiters | wakeZero _
  | wakeHead _ | wakeNull _ _ | wakeUnlock _ _ => me
  | _ => none

/-- The head of the list that the agent has cut off. -/
def cutHead : JoinPc V → Option V
  | wakeUnlock _ h | wakeCheck _ h | wakeDeq _ h => h
  | wakeClear _ _ h | wakeSet _ _ h | wakeEnq _ _ h => h
  | _ => none

/-- `waiters` covers the `len` nodes still in that list, and the one in hand. -/
def Covers (len : ℕ) : JoinPc V → Prop
  | wakeUnlock n _ | wakeCheck n _ | wakeDeq n _ => (len : ℤ) ≤ n
  | wakeClear n _ _ | wakeSet n _ _ | wakeEnq n _ _ => (len : ℤ) + 1 ≤ n
  | wakePost n | wakeFutex n => 0 ≤ n
  | _ => True

/-- `wake_up_joined` has set `cur_status`. -/
def past : JoinPc V → Bool
  | wakeNum | wakeWaiters | wakeZero _ | wakeHead _ | wakeNull _ _ | wakeUnlock _ _
  | wakeCheck _ _ | wakeDeq _ _ | wakeClear _ _ _ | wakeSet _ _ _ | wakeEnq _ _ _ | wakePost _
  | wakeFutex _ => true
  | _ => false

end JoinPc

/-- The list of the joiners of `t` starts at `h`, and `n` counts them. -/
def Listed (s : JoinState A V) (t : V) (h : Option V) (n : ℤ) : Prop :=
  Chain s.next h (s.linked (.queue t)) ∧ ((s.linked (.queue t)).length : ℤ) ≤ n

/-- Nobody has the mutex of `t`; a finished `t` has no joiners any more. -/
def Free (s : JoinState A V) (t : V) : Prop :=
  Listed s t (s.joinWaitQueue t) (s.joinWaitersNum t)
    ∧ (s.curStatus t = .finished → s.linked (.queue t) = [])

/-- `t` has not finished, and one joiner is counted that is not in its list. -/
def Owing (s : JoinState A V) (t : V) (h : Option V) : Prop :=
  Listed s t h (s.joinWaitersNum t - 1) ∧ s.curStatus t ≠ .finished

/-- What the agent that has the mutex of `t` knows. -/
def Guard (s : JoinState A V) (me : Option V) (t : V) : JoinPc V → Prop
  | .joinNum _ => Free s t ∧ s.curStatus t ≠ .finished
  | .joinInc _ n => Free s t ∧ s.curStatus t ≠ .finished ∧ n = s.joinWaitersNum t
  | .joinStatus _ | .joinHead _ => Owing s t (s.joinWaitQueue t)
  | .joinPush _ prev => Owing s t prev
  | .joinLink _ prev => Owing s t prev ∧ s.joinWaitQueue t = me
  | .wakeNum | .wakeWaiters => Listed s t (s.joinWaitQueue t) (s.joinWaitersNum t)
  | .wakeZero n => Listed s t (s.joinWaitQueue t) n
  | .wakeHead n => Listed s t (s.joinWaitQueue t) n ∧ 0 ≤ s.joinWaitersNum t
  | .wakeNull n h => Listed s t h n ∧ 0 ≤ s.joinWaitersNum t
  | _ => Free s t

/-- The store of another status finishes nobody. -/
theorem finished_of_update {cs : V → Status} {u v : V} {st : Status} (hst : st ≠ .finished)
    (h : update cs u st v = .finished) : cs v = .finished := by
  by_cases hv : v = u
  · rw [hv, Function.update_self] at h
    exact absurd h hst
  · rw [Function.update_of_ne hv] at h
    exact h

/-! ## §2. The effects. -/

/-- Moving from `p` to `p'` changes nothing that others depend on. -/
structure Quiet (s : JoinState A V) (me : Option V) (p p' : JoinPc V) : Prop where
  hand : joinShape.hand p' = joinShape.hand p
  lock : p'.lock me = p.lock me
  guard : ∀ t, p.lock me = some t → Guard s me t p → Guard s me t p'
  cutHead : p'.cutHead = p.cutHead
  covers : ∀ len, (p.cutHead = none → len = 0) → p.Covers len → p'.Covers len
  past : p'.past = p.past
  wakes : p'.wakes = p.wakes

/-- The points of the lock loops, before and after the lock was taken. -/
inductive Locks (t : V) : Option V → JoinPc V → JoinPc V → Prop
  | join (me r) : Locks t me (.cont (.joinLock t r)) (.joinRetval t r)
  | exit (val) : Locks t (some t) (.cont (.exitLock val)) (.exitSet val)
  | wake : Locks t (some t) (.cont .wakeLock) .wakeRetval

/-- The points before and after the release of a mutex. -/
inductive Unlocks (t : V) : Option V → JoinPc V → JoinPc V → Prop
  | join (me) : Unlocks t me (.joinUnlock t) (.cont .user)
  | raw (me) : Unlocks t me (.joinRelease t) (.semCas t)
  | wake (n h) : Unlocks t (some t) (.wakeUnlock n h) (.wakeCheck n h)

/-- The effects of one step in the code of `me` at `p`. -/
inductive CodeEffect (s : JoinState A V) (a : A) (me : Option V) (p : JoinPc V) :
    JoinState A V → Prop
  | quiet (rv rr cl ft sl p') (h : Quiet s me p p') :
      CodeEffect s a me p { s with
        retval := rv
        routineRet := rr
        cell := cl
        fut := ft
        sleepers := sl
        pc := update s.pc a (.exec me p') }
  | acquire (t p') (hp : Locks t me p p') (hc : s.c t = false) :
      CodeEffect s a me p { s with
        c := update s.c t true
        pc := update s.pc a (.exec me p') }
  | unlock (t p') (hp : Unlocks t me p p') :
      CodeEffect s a me p { s with
        c := update s.c t false
        pc := update s.pc a (.exec me p') }
  | exit (v) (hme : me = some v) (hp : p = .exitUnlock) :
      CodeEffect s a me p { s with
        c := update s.c v false
        pc := update s.pc a (.switch v (.status .finished) .dead) }
  | ret (v val) (hme : me = some v) (hp : p = .manageRet val) :
      CodeEffect s a me p { s with
        routineRet := update s.routineRet v val
        pc := update s.pc a (.switch v (.status .finished) .dead) }
  | count (t n p') (hp : p = .joinInc t n) (hp' : p' = .joinStatus t ∨ p' = .joinRelease t) :
      CodeEffect s a me p { s with
        joinWaitersNum := update s.joinWaitersNum t (n + 1)
        pc := update s.pc a (.exec me p') }
  | block (v t) (hme : me = some v) (hp : p = .joinStatus t) :
      CodeEffect s a me p { s with
        curStatus := update s.curStatus v .blocked
        pc := update s.pc a (.exec me (.joinHead t)) }
  | push (v t prev) (hme : me = some v) (hp : p = .joinPush t prev) :
      CodeEffect s a me p { s with
        joinWaitQueue := update s.joinWaitQueue t (some v)
        pc := update s.pc a (.exec me (.joinLink t prev)) }
  | link (v t prev) (hme : me = some v) (hp : p = .joinLink t prev) :
      CodeEffect s a me p { s with
        next := update s.next v prev
        linked := update s.linked (.queue t) (v :: s.linked (.queue t))
        pushes := update s.pushes v (s.pushes v + 1)
        pc := update s.pc a (.switch v (.mutex t) .user) }
  | mark (v) (hme : me = some v) (hp : p = .wakeStatus) :
      CodeEffect s a me p { s with
        curStatus := update s.curStatus v .finished
        pc := update s.pc a (.exec me .wakeNum) }
  | zero (v n) (hme : me = some v) (hp : p = .wakeZero n) :
      CodeEffect s a me p { s with
        joinWaitersNum := update s.joinWaitersNum v 0
        pc := update s.pc a (.exec me (.wakeHead n)) }
  | cut (v n h) (hme : me = some v) (hp : p = .wakeNull n h) :
      CodeEffect s a me p { s with
        joinWaitQueue := update s.joinWaitQueue v none
        linked := update (update s.linked (.queue v) []) (.cut a) (s.linked (.queue v))
        pc := update s.pc a (.exec me (.wakeUnlock n h)) }
  | take (v n w) (hme : me = some v) (hp : p = .wakeDeq n (some w)) :
      CodeEffect s a me p { s with
        linked := update s.linked (.cut a) ((s.linked (.cut a)).erase w)
        pc := update s.pc a (.exec me (.wakeClear n w (s.next w))) }
  | clear (v n w h) (hme : me = some v) (hp : p = .wakeClear n w h) :
      CodeEffect s a me p { s with
        next := update s.next w none
        pc := update s.pc a (.exec me (.wakeSet n w h)) }
  | suspend (v n w h) (hme : me = some v) (hp : p = .wakeSet n w h) :
      CodeEffect s a me p { s with
        curStatus := update s.curStatus w .suspended
        pc := update s.pc a (.exec me (.wakeEnq n w h)) }
  | wake (v n w h) (hme : me = some v) (hp : p = .wakeEnq n w h) :
      CodeEffect s a me p { s with
        vsQueue := s.vsQueue ++ [w]
        puts := update s.puts w (s.puts w + 1)
        pc := update s.pc a (.exec me (.wakeDeq (n - 1) h)) }
  | finish (v) (hme : me = some v) (hp : p = .wakePost 0 ∨ ∃ h, p = .wakeCheck 0 h) :
      CodeEffect s a me p { s with
        done := update s.done v true
        pc := update s.pc a .top }
  | yield (v st k k') (hme : me = some v) (hk : p = .cont k)
      (hst : st = .suspended ∧ k = .user ∨ st = .lockFail ∧ ∃ t p', Locks t me p p' ∧ s.c t = true) :
      CodeEffect s a me p { s with pc := update s.pc a (.switch v (.status st) k') }
  | crash (k) (hk : p = .cont k) (hw : k ≠ .wakeLock) :
      CodeEffect s a me p { s with pc := update s.pc a .crashed }

omit [DecidableEq A] [DecidableEq V] in
/-- Between two points at which the mutex is held for no special purpose. -/
theorem Quiet.of_rfl {s : JoinState A V} {me : Option V} {p p' : JoinPc V}
    (hhand : joinShape.hand p' = joinShape.hand p) (hlock : p'.lock me = p.lock me)
    (hguard : ∀ t, Guard s me t p → Guard s me t p') (hcut : p'.cutHead = p.cutHead)
    (hcov : ∀ len, p'.Covers len) (hpast : p'.past = p.past) (hwakes : p'.wakes = p.wakes) :
    Quiet s me p p' :=
  ⟨hhand, hlock, fun t _ => hguard t, hcut, fun len _ _ => hcov len, hpast, hwakes⟩

theorem lockLoop_effect (s : JoinState A V) (a : A) {me : Option V} {t : V} {k : JoinCont V}
    {p : JoinPc V} (hp : Locks t me (.cont k) p) :
    CodeEffect s a me (.cont k) (lockLoop s a me t k p) := by
  unfold lockLoop
  split
  · next hc =>
      cases me with
      | some v => exact .yield v .lockFail k k rfl rfl (.inr ⟨rfl, t, p, hp, hc⟩)
      | none =>
          -- a raw thread spins
          refine .quiet _ _ _ _ _ (.cont k) ?_
          exact ⟨rfl, rfl, fun _ _ => id, rfl, fun _ _ => id, rfl, rfl⟩
  · next hc => exact .acquire t p hp (by simpa using hc)

theorem join_effect {s s' : JoinState A V} {a : A} {me : Option V} {p : JoinPc V}
    (hs : join s a me p = some s') : CodeEffect s a me p s' := by
  cases p with
  | cont k =>
      cases k with
      | joinLock t r => exact Option.some.inj hs ▸ lockLoop_effect s a (.join me r)
      | _ => cases hs
  | joinRetval t r =>
      obtain rfl := Option.some.inj hs
      exact .quiet _ _ _ _ _ (.joinTest t r)
        (.of_rfl rfl rfl (fun _ => id) rfl (fun _ => trivial) rfl rfl)
  | joinTest t r =>
      obtain rfl := Option.some.inj hs
      by_cases hst : s.curStatus t = .finished
      · rw [if_pos hst]
        exact .quiet _ _ _ _ _ (.joinOut t r)
          (.of_rfl rfl rfl (fun _ => id) rfl (fun _ => trivial) rfl rfl)
      · rw [if_neg hst]
        refine .quiet _ _ _ _ _ (.joinNum t)
          ⟨rfl, rfl, fun t' ht' hg => ?_, rfl, fun _ _ => id, rfl, rfl⟩
        obtain rfl := Option.some.inj ht'
        exact ⟨hg, hst⟩
  | joinNum t =>
      obtain rfl := Option.some.inj hs
      refine .quiet _ _ _ _ _ (.joinInc t _) ⟨rfl, rfl, fun t' ht' hg => ?_, rfl, fun _ _ => id, rfl, rfl⟩
      obtain rfl := Option.some.inj ht'
      exact ⟨hg.1, hg.2, rfl⟩
  | joinInc t n =>
      obtain rfl := Option.some.inj hs
      cases me with
      | some v => exact .count t n _ rfl (.inl rfl)
      | none => exact .count t n _ rfl (.inr rfl)
  | joinStatus t =>
      simp only [join, Option.map_eq_some_iff] at hs
      obtain ⟨v, hme, rfl⟩ := hs
      exact .block v t hme rfl
  | joinHead t =>
      obtain rfl := Option.some.inj hs
      refine .quiet _ _ _ _ _ (.joinPush t _) ⟨rfl, rfl, fun t' ht' hg => ?_, rfl, fun _ _ => id, rfl, rfl⟩
      obtain rfl := Option.some.inj ht'
      exact hg
  | joinPush t prev =>
      simp only [join, Option.map_eq_some_iff] at hs
      obtain ⟨v, hme, rfl⟩ := hs
      exact .push v t prev hme rfl
  | joinLink t prev =>
      simp only [join, Option.map_eq_some_iff] at hs
      obtain ⟨v, hme, rfl⟩ := hs
      exact .link v t prev hme rfl
  | joinRelease t => exact Option.some.inj hs ▸ .unlock t _ (.raw me)
  | joinOut t r =>
      obtain rfl := Option.some.inj hs
      cases r with
      | some x =>
          exact .quiet _ _ _ _ _ (.joinStore t x _)
            (.of_rfl rfl rfl (fun _ => id) rfl (fun _ => trivial) rfl rfl)
      | none =>
          exact .quiet _ _ _ _ _ (.joinUnlock t)
            (.of_rfl rfl rfl (fun _ => id) rfl (fun _ => trivial) rfl rfl)
  | joinStore t x val =>
      obtain rfl := Option.some.inj hs
      exact .quiet _ _ _ _ _ (.joinUnlock t)
        (.of_rfl rfl rfl (fun _ => id) rfl (fun _ => trivial) rfl rfl)
  | joinUnlock t => exact Option.some.inj hs ▸ .unlock t _ (.join me)
  | _ => cases hs

omit [DecidableEq A] [DecidableEq V] in
/-- Between two points of `wait`, and out of it: nothing is in hand, no mutex is held. -/
theorem Quiet.of_sleeps {s : JoinState A V} {me : Option V} {p p' : JoinPc V}
    (hp : p.sleeps = true) (hp' : p'.sleeps = true ∨ p' = .cont .user) : Quiet s me p p' := by
  have huser : Quiet s me p (.cont .user) := by
    cases p with
    | semCas t | semFutex t | semSleep t =>
        exact .of_rfl rfl rfl (fun _ => id) rfl (fun _ => trivial) rfl rfl
    | _ => cases hp
  rcases hp' with hsleep | rfl
  · cases p' with
    | semCas t | semFutex t | semSleep t =>
        exact ⟨huser.hand, huser.lock, huser.guard, huser.cutHead, huser.covers, huser.past,
          huser.wakes⟩
    | _ => cases hsleep
  · exact huser

theorem semaWait_effect {s s' : JoinState A V} {a : A} {me : Option V} {p : JoinPc V}
    (hs : semaWait s a me p = some s') : CodeEffect s a me p s' := by
  cases p with
  | semCas t =>
      simp only [semaWait] at hs
      split at hs
      · exact Option.some.inj hs ▸ .quiet _ _ _ _ _ _ (.of_sleeps rfl (.inr rfl))
      · exact Option.some.inj hs ▸ .quiet _ _ _ _ _ _ (.of_sleeps rfl (.inl rfl))
  | semFutex t =>
      simp only [semaWait] at hs
      split at hs
      · exact Option.some.inj hs ▸ .quiet _ _ _ _ _ _ (.of_sleeps rfl (.inl rfl))
      · exact Option.some.inj hs ▸ .quiet _ _ _ _ _ _ (.of_sleeps rfl (.inl rfl))
  | semSleep t =>
      simp only [semaWait, Option.ite_none_left_eq_some] at hs
      exact Option.some.inj hs.2 ▸ .quiet _ _ _ _ _ _ (.of_sleeps rfl (.inl rfl))
  | _ => cases hs

theorem pthreadExit_effect {s s' : JoinState A V} {a : A} {me : Option V} {p : JoinPc V}
    (hs : pthreadExit s a me p = some s') : CodeEffect s a me p s' := by
  cases p with
  | cont k =>
      cases k with
      | exitLock val =>
          obtain rfl := Option.some.inj hs
          cases me with
          | some v => exact lockLoop_effect s a (.exit val)
          | none => exact .crash _ rfl (by simp)
      | _ => cases hs
  | exitSet val =>
      simp only [pthreadExit, Option.map_eq_some_iff] at hs
      obtain ⟨v, hme, rfl⟩ := hs
      exact .quiet _ _ _ _ _ .exitUnlock
        (.of_rfl rfl rfl (fun _ => id) rfl (fun _ => trivial) rfl rfl)
  | exitUnlock =>
      simp only [pthreadExit, Option.map_eq_some_iff] at hs
      obtain ⟨v, hme, rfl⟩ := hs
      exact .exit v hme rfl
  | _ => cases hs

theorem manage_effect {s s' : JoinState A V} {a : A} {me : Option V} {p : JoinPc V}
    (hs : manage s a me p = some s') : CodeEffect s a me p s' := by
  cases p with
  | cont k =>
      cases k with
      | dead => exact Option.some.inj hs ▸ .crash _ rfl (by simp)
      | _ => cases hs
  | manageRet val =>
      simp only [manage, Option.map_eq_some_iff] at hs
      obtain ⟨v, hme, rfl⟩ := hs
      exact .ret v val hme rfl
  | _ => cases hs

theorem wakeUpJoined_effect {s s' : JoinState A V} {a : A} {v : V} {p : JoinPc V}
    (hs : wakeUpJoined s a v p = some s') : CodeEffect s a (some v) p s' := by
  cases p with
  | cont k =>
      cases k with
      | wakeLock => exact Option.some.inj hs ▸ lockLoop_effect s a .wake
      | _ => cases hs
  | wakeRetval =>
      obtain rfl := Option.some.inj hs
      cases s.retval v with
      | some x =>
          exact .quiet _ _ _ _ _ (.wakeOut x)
            (.of_rfl rfl rfl (fun _ => id) rfl (fun _ => trivial) rfl rfl)
      | none =>
          exact .quiet _ _ _ _ _ .wakeStatus
            (.of_rfl rfl rfl (fun _ => id) rfl (fun _ => trivial) rfl rfl)
  | wakeOut x =>
      obtain rfl := Option.some.inj hs
      exact .quiet _ _ _ _ _ (.wakeStore x _)
        (.of_rfl rfl rfl (fun _ => id) rfl (fun _ => trivial) rfl rfl)
  | wakeStore x val =>
      obtain rfl := Option.some.inj hs
      exact .quiet _ _ _ _ _ .wakeStatus
        (.of_rfl rfl rfl (fun _ => id) rfl (fun _ => trivial) rfl rfl)
  | wakeStatus => exact Option.some.inj hs ▸ .mark v rfl rfl
  | wakeNum =>
      obtain rfl := Option.some.inj hs
      by_cases hn : s.joinWaitersNum v = 0
      · rw [if_pos hn]
        refine .quiet _ _ _ _ _ (.wakeUnlock 0 none)
          ⟨rfl, rfl, fun t ht hg => ?_, rfl, fun len hlen _ => ?_, rfl, rfl⟩
        · -- nobody was counted, so the list is empty
          obtain rfl := Option.some.inj ht
          refine ⟨hg, fun _ => ?_⟩
          have hlen := hg.2
          rw [hn] at hlen
          exact List.eq_nil_of_length_eq_zero (by omega)
        · rw [hlen rfl]
          exact Int.le_refl 0
      · rw [if_neg hn]
        exact .quiet _ _ _ _ _ .wakeWaiters
          (.of_rfl rfl rfl (fun _ => id) rfl (fun _ => trivial) rfl rfl)
  | wakeWaiters =>
      obtain rfl := Option.some.inj hs
      refine .quiet _ _ _ _ _ (.wakeZero _)
        ⟨rfl, rfl, fun t ht hg => ?_, rfl, fun _ _ => id, rfl, rfl⟩
      obtain rfl := Option.some.inj ht
      exact hg
  | wakeZero n => exact Option.some.inj hs ▸ .zero v n rfl rfl
  | wakeHead n =>
      obtain rfl := Option.some.inj hs
      refine .quiet _ _ _ _ _ (.wakeNull n _)
        ⟨rfl, rfl, fun t ht hg => ?_, rfl, fun _ _ => id, rfl, rfl⟩
      obtain rfl := Option.some.inj ht
      exact hg
  | wakeNull n h => exact Option.some.inj hs ▸ .cut v n h rfl rfl
  | wakeUnlock n h => exact Option.some.inj hs ▸ .unlock v _ (.wake n h)
  | wakeCheck n h =>
      obtain rfl := Option.some.inj hs
      by_cases hn : n = 0
      · rw [if_pos hn]
        exact .finish v rfl (.inr ⟨h, by rw [hn]⟩)
      · rw [if_neg hn]
        exact .quiet _ _ _ _ _ (.wakeDeq n h)
          ⟨rfl, rfl, fun t ht => (by cases ht), rfl, fun _ _ => id, rfl, rfl⟩
  | wakeDeq n h =>
      cases h with
      | some w => exact Option.some.inj hs ▸ .take v n w rfl rfl
      | none =>
          obtain rfl := Option.some.inj hs
          refine .quiet _ _ _ _ _ (.wakePost n)
            ⟨rfl, rfl, fun t ht => (by cases ht), rfl, fun len _ hlen => ?_, rfl, rfl⟩
          exact Int.le_trans (Int.natCast_nonneg len) hlen
  | wakeClear n w h => exact Option.some.inj hs ▸ .clear v n w h rfl rfl
  | wakeSet n w h => exact Option.some.inj hs ▸ .suspend v n w h rfl rfl
  | wakeEnq n w h => exact Option.some.inj hs ▸ .wake v n w h rfl rfl
  | wakePost n =>
      obtain rfl := Option.some.inj hs
      by_cases hn : n = 0
      · rw [if_pos hn]
        exact .finish v rfl (.inl (by rw [hn]))
      · rw [if_neg hn]
        have hcov : (0 : ℤ) ≤ n → (0 : ℤ) ≤ n - 1 := by omega
        split
        · exact .quiet _ _ _ _ _ (.wakeFutex (n - 1))
            ⟨rfl, rfl, fun t ht => (by cases ht), rfl, fun _ _ => hcov, rfl, rfl⟩
        · exact .quiet _ _ _ _ _ (.wakePost (n - 1))
            ⟨rfl, rfl, fun t ht => (by cases ht), rfl, fun _ _ => hcov, rfl, rfl⟩
  | wakeFutex n =>
      simp only [wakeUpJoined, Option.ite_none_right_eq_some] at hs
      obtain ⟨-, hs⟩ := hs
      obtain rfl := Option.some.inj hs
      exact .quiet _ _ _ _ _ (.wakePost n)
        ⟨rfl, rfl, fun t ht => (by cases ht), rfl, fun _ _ => id, rfl, rfl⟩
  | _ => cases hs

/-- **Every step in the code has one of these effects.** -/
theorem joinCode_effect {s s' : JoinState A V} {a : A} {me : Option V} {p : JoinPc V}
    (hs : joinCode s a me p = some s') : CodeEffect s a me p s' := by
  unfold joinCode at hs
  split at hs
  · rw [Option.bind_eq_some_iff] at hs
    obtain ⟨v, rfl, hs⟩ := hs
    exact wakeUpJoined_effect hs
  · split at hs
    · exact semaWait_effect hs
    · split at hs
      · exact pthreadExit_effect hs
      · split at hs
        · exact manage_effect hs
        · exact join_effect hs

/-- A call by the program is such a step. -/
theorem joinCall_effect {s s' : JoinState A V} {a : A} {me : Option V} {f : JoinCall V}
    (hs : joinCall s a me f = some s') : CodeEffect s a me (.cont .user) s' := by
  cases f with
  | join t r =>
      obtain rfl := Option.some.inj hs
      exact .quiet _ _ _ _ _ (.cont (.joinLock t r))
        (.of_rfl rfl rfl (fun _ => id) rfl (fun _ => trivial) rfl rfl)
  | pthreadExit val =>
      obtain rfl := Option.some.inj hs
      exact .quiet _ _ _ _ _ (.cont (.exitLock val))
        (.of_rfl rfl rfl (fun _ => id) rfl (fun _ => trivial) rfl rfl)
  | ret val =>
      simp only [joinCall, Option.map_eq_some_iff] at hs
      obtain ⟨v, rfl, rfl⟩ := hs
      exact .quiet _ _ _ _ _ (.manageRet val)
        (.of_rfl rfl rfl (fun _ => id) rfl (fun _ => trivial) rfl rfl)
  | schedYield =>
      obtain rfl := Option.some.inj hs
      cases me with
      | some v => exact .yield v .suspended .user .user rfl rfl (.inl ⟨rfl, rfl⟩)
      | none => exact .crash _ rfl (by simp)

/-- So is the wake-up of a sleeping raw thread. -/
theorem futexWake_effect {s s' : JoinState A V} {a b : A} {v : V} {p : JoinPc V}
    (hs : futexWake s a v b p = some s') : CodeEffect s a (some v) p s' := by
  cases p with
  | wakeFutex n =>
      simp only [futexWake, Option.ite_none_right_eq_some] at hs
      obtain ⟨-, hs⟩ := hs
      obtain rfl := Option.some.inj hs
      exact .quiet _ _ _ _ _ (.wakePost n)
        ⟨rfl, rfl, fun t ht => (by cases ht), rfl, fun _ _ => id, rfl, rfl⟩
  | _ => cases hs

/-- The effects of one action. -/
inductive StepEffect (s : JoinState A V) (act : JoinAct A V) : JoinState A V → Prop
  | code (me p s') (hpc : s.pc act.agent = .exec me p) (h : CodeEffect s act.agent me p s') :
      StepEffect s act s'
  | dequeue (v) (hpc : s.pc act.agent = .top) (hv : v ∈ s.vsQueue) :
      StepEffect s act { s with
        vsQueue := s.vsQueue.erase v
        pc := update s.pc act.agent (.got v) }
  | release (v t) (hpc : s.pc act.agent = .ret v (.mutex t)) :
      StepEffect s act { s with
        c := update s.c t false
        releases := update s.releases v (s.releases v + 1)
        pc := update s.pc act.agent (.setRunnable v) }
  | move (q run k n p') (hgo : act = .go act.agent)
      (hs : workerRoutine JoinPc.cont finishVthread s.toSched act.agent (s.pc act.agent)
        = some { s.toSched with
            vsQueue := q, runnable := run, ctx := k, selfPuts := n,
            pc := update s.pc act.agent p' })
      (h : WorkerMove JoinPc.cont finishVthread (s.pc act.agent) p') :
      StepEffect s act { s with
        vsQueue := q
        runnable := run
        ctx := k
        selfPuts := n
        handed := match s.pc act.agent with
          | .ret v (.status .finished) => update s.handed v true
          | _ => s.handed
        pc := update s.pc act.agent p' }

/-- **Every step is one of these.** -/
theorem joinStep_effect {s s' : JoinState A V} {act : JoinAct A V}
    (hs : joinStep s act = some s') : StepEffect s act s' := by
  cases act with
  | call a f =>
      simp only [joinStep] at hs
      split at hs
      · next me hpc => exact .code me _ s' hpc (joinCall_effect hs)
      · cases hs
  | pick a v =>
      simp only [joinStep, Option.map_eq_some_iff] at hs
      obtain ⟨σ, hσ, rfl⟩ := hs
      obtain ⟨hpc, hv, rfl⟩ := getAndWork_cases hσ
      exact .dequeue v hpc hv
  | rouse a b =>
      simp only [joinStep] at hs
      split at hs
      · next v p hpc => exact .code (some v) p s' hpc (futexWake_effect hs)
      · cases hs
  | go a =>
      simp only [joinStep] at hs
      split at hs
      · next me p hpc => exact .code me p s' hpc (joinCode_effect hs)
      · simp only [joinWorker, Option.map_eq_some_iff] at hs
        obtain ⟨σ, hσ, rfl⟩ := hs
        rcases worker_cases hσ with ⟨v, t, hpc, rfl⟩ | ⟨q, run, k, n, p', hmove, rfl⟩
        · simp only [hpc]
          exact .release v t hpc
        · exact .move q run k n p' rfl hσ hmove

end HThread.Join
