/-
  HThread.Tthreads.Quota — the shared count of processes and the worker quota,
  hinit.cpp:15 and mgr_thread.cpp:22.

  Every process that uses the library adds one to an `int` in shared memory when
  it starts and takes one away when it exits; the tool `clean_shm`, such a
  process itself, overwrites the count.  `init_task_num` and
  `task_num_update_handler` divide the processors by the count, the handler with
  guards for 0 and for large counts, `init_task_num` without.

  Key lemmas:
    * `share_ok`     — which counts give stores in range.
    * `quotas_step`  — after one event all is still well iff the count was sane.
  Main results:
    * `quotas_iff_sane`  — a run divides by zero or stores a value out of range
      iff an event meets a count that is not sane.
    * `quotas_of_plain`  — without `clean_shm` and with at most N processes at a
      time all is well.
-/
import HThread.Interleave.Machine
import HThread.Interleave.Words

namespace HThread.Workers

open Interleave

/-! ## §1. The code. -/

/-- The shared count, and the processes that run: ordinary ones, `clean_shm`
    before its store and after.  History: whether a process died of a division
    by zero, and all values stored in `N_THREADS_ALLOWED`. -/
structure Quota where
  counter : BitVec 32
  live : ℕ
  cleaning : ℕ
  cleaned : ℕ
  divByZero : Bool
  stored : List (BitVec 32)
  deriving DecidableEq, Repr

/-- A process starts or exits; `clean_shm` starts, stores (`none`: no argument) and
    exits; the handler runs, in a process that has mapped the count or has not. -/
inductive QuotaEvent where
  | start
  | exit
  | cleanStart
  | cleanWrite (arg : Option (BitVec 32))
  | cleanExit
  | tick (mapped : Bool)
  deriving DecidableEq, Repr

/-- What `N_THREADS_ALLOWED = N_THREADS / t; if (N_THREADS % t) N_THREADS_ALLOWED++` stores. -/
def share (nThreads t : BitVec 32) : List (BitVec 32) :=
  let allowed := nThreads.sdiv t
  if nThreads.srem t = 0 then [allowed] else [allowed, allowed + 1]

/-- hinit.cpp:15, `init_task_num`, from the `__sync_fetch_and_add` on; `s'` is the
    state with the new process running. -/
def initTaskNum (nThreads : BitVec 32) (s : Quota) (running : Quota → Quota) : Quota :=
  let counter := s.counter + 1
  if counter = 0 then { s with counter := counter, divByZero := true }
  else running { s with counter := counter, stored := s.stored ++ share nThreads counter }

/-- hinit.cpp:63, `hthread_fini`. -/
def hthreadFini (s : Quota) : Quota := { s with counter := s.counter - 1 }

/-- mgr_thread.cpp:22, `task_num_update_handler`; `none`: `ptask_number` is null. -/
def taskNumUpdateHandler (nThreads : BitVec 32) (ptaskNumber : Option (BitVec 32)) :
    List (BitVec 32) :=
  let taskNumber := ptaskNumber.getD 1
  let taskNumber := if taskNumber = 0 then 1 else taskNumber
  if nThreads.sle taskNumber then [1] else share nThreads taskNumber

/-- clean_shm.cpp:7, what `main` stores in the count. -/
def cleanShm : Option (BitVec 32) → BitVec 32
  | none => 1
  | some k => k + 1

/-- One event.  `clean_shm` is given no negative argument. -/
def quotaStep (nThreads : BitVec 32) (s : Quota) : QuotaEvent → Option Quota
  | .start => some (initTaskNum nThreads s fun s => { s with live := s.live + 1 })
  | .exit => if 0 < s.live then some (hthreadFini { s with live := s.live - 1 }) else none
  | .cleanStart => some (initTaskNum nThreads s fun s => { s with cleaning := s.cleaning + 1 })
  | .cleanWrite arg =>
      if 0 < s.cleaning ∧ 0 ≤ (arg.getD 0).toInt then
        some { s with
          counter := cleanShm arg, cleaning := s.cleaning - 1, cleaned := s.cleaned + 1 }
      else none
  | .cleanExit =>
      if 0 < s.cleaned then some (hthreadFini { s with cleaned := s.cleaned - 1 }) else none
  | .tick mapped =>
      if mapped = true → 0 < s.live + s.cleaning + s.cleaned then
        some { s with
          stored := s.stored ++
            taskNumUpdateHandler nThreads (if mapped then some s.counter else none) }
      else none

/-- The count is zero and nothing runs. -/
def noProcess : Quota where
  counter := 0
  live := 0
  cleaning := 0
  cleaned := 0
  divByZero := false
  stored := []

def quota (nThreads : BitVec 32) : Machine Quota QuotaEvent where
  init s := s = noProcess
  step := quotaStep nThreads

/-! ## §2. The property, and the sane counts. -/

/-- Nobody has divided by zero, and all quotas lie between 1 and the number of
    processors. -/
structure Quotas (nThreads : BitVec 32) (s : Quota) : Prop where
  divided : s.divByZero = false
  stored : ∀ x ∈ s.stored, 1 ≤ x.toInt ∧ x.toInt ≤ nThreads.toInt

/-- The count that the event finds: not negative, and for a start less than the
    number of processors. -/
def Sane (nThreads : BitVec 32) (s : Quota) : QuotaEvent → Prop
  | .start | .cleanStart => 0 ≤ s.counter.toInt ∧ s.counter.toInt < nThreads.toInt
  | .tick true => 0 ≤ s.counter.toInt
  | .tick false | .exit | .cleanWrite _ | .cleanExit => True

/-! ## §3. The division. -/

/-- The quotient in signed numbers. -/
theorem toInt_allowed {n t : BitVec 32} (hn : 1 ≤ n.toInt) :
    (n.sdiv t).toInt = n.toInt.tdiv t.toInt := by
  -- the one quotient that overflows has a negative dividend
  apply BitVec.toInt_sdiv_of_ne_or_ne
  left
  rintro rfl
  have hmin : (BitVec.intMin 32).toInt = -2147483648 := rfl
  omega

/-- All stores are in range iff the count is. -/
theorem share_ok {n t : BitVec 32} (hn : 1 ≤ n.toInt) :
    (∀ x ∈ share n t, 1 ≤ x.toInt ∧ x.toInt ≤ n.toInt) ↔ 1 ≤ t.toInt ∧ t.toInt ≤ n.toInt := by
  have hquot := toInt_allowed (t := t) hn
  have hrem : (n.srem t).toInt = n.toInt.tmod t.toInt := BitVec.toInt_srem n t
  have hhead : n.sdiv t ∈ share n t := by
    unfold share
    split
    · exact List.mem_singleton_self _
    · exact List.mem_cons_self
  constructor
  · intro hall
    have hq := hall _ hhead
    rw [hquot] at hq
    by_contra hout
    -- a count above N gives 0, one that is not positive nothing positive
    rcases Int.lt_or_le 0 t.toInt with hpos | hneg
    · have hzero : n.toInt.tdiv t.toInt = 0 := Int.tdiv_eq_zero_of_lt (by omega) (by omega)
      omega
    · have hle : n.toInt.tdiv t.toInt ≤ 0 := Int.tdiv_nonpos_of_nonneg_of_nonpos (by omega) hneg
      omega
  · rintro ⟨hlow, hhigh⟩
    have hdiv : n.toInt.tdiv t.toInt * t.toInt + n.toInt.tmod t.toInt = n.toInt :=
      Int.tdiv_mul_add_tmod _ _
    have hmod : 0 ≤ n.toInt.tmod t.toInt := Int.tmod_nonneg _ (by omega)
    -- the count divides N at least once
    have hone : 1 ≤ n.toInt.tdiv t.toInt := by
      rw [Int.tdiv_eq_ediv_of_nonneg (by omega), Int.le_ediv_iff_mul_le (by omega)]
      omega
    have hmul : n.toInt.tdiv t.toInt * 1 ≤ n.toInt.tdiv t.toInt * t.toInt :=
      Int.mul_le_mul_of_nonneg_left hlow (by omega)
    intro x hx
    unfold share at hx
    split at hx
    · obtain rfl := List.mem_singleton.mp hx
      rw [hquot]
      omega
    · next hne =>
        -- a remainder leaves room for one more
        have hmodPos : n.toInt.tmod t.toInt ≠ 0 := by
          intro h0
          apply hne
          apply BitVec.eq_of_toInt_eq
          rw [hrem, h0]
          rfl
        have hlt := BitVec.toInt_lt (x := n)
        simp only [List.mem_cons, List.not_mem_nil, or_false] at hx
        rcases hx with rfl | rfl
        · rw [hquot]
          omega
        · rw [toInt_succ (by rw [hquot]; omega), hquot]
          omega

/-- The count after the increment, also where it wraps. -/
theorem succ_range {n c : BitVec 32} :
    (1 ≤ (c + 1).toInt ∧ (c + 1).toInt ≤ n.toInt) ↔ 0 ≤ c.toInt ∧ c.toInt < n.toInt := by
  have hn := BitVec.toInt_lt (x := n)
  have hc := BitVec.toInt_lt (x := c)
  by_cases hmax : c.toInt < 2 ^ 31 - 1
  · rw [toInt_succ hmax]
    omega
  -- at the maximum the sum is negative, and N is not above it
  · have hlast : c = BitVec.intMax 32 := by
      apply BitVec.eq_of_toInt_eq
      have hval : (BitVec.intMax 32).toInt = 2147483647 := rfl
      omega
    have hwrap : (c + 1).toInt = -2147483648 := by
      rw [hlast]
      rfl
    omega

/-! ## §4. One event. -/

/-- More stores are in range iff the old and the new ones are. -/
theorem stored_append {n : BitVec 32} {s : Quota} (h : Quotas n s) (new : List (BitVec 32)) :
    (∀ x ∈ s.stored ++ new, 1 ≤ x.toInt ∧ x.toInt ≤ n.toInt) ↔
      ∀ x ∈ new, 1 ≤ x.toInt ∧ x.toInt ≤ n.toInt := by
  constructor
  · intro hall x hx
    exact hall x (List.mem_append_right _ hx)
  · intro hnew x hx
    rcases List.mem_append.mp hx with hold | hx'
    · exact h.stored x hold
    · exact hnew x hx'

/-- A start goes well iff the count it finds is sane. -/
theorem quotas_initTaskNum {n : BitVec 32} (hn : 1 ≤ n.toInt) {s : Quota} (h : Quotas n s)
    {running : Quota → Quota} (hdiv : ∀ r, (running r).divByZero = r.divByZero)
    (hst : ∀ r, (running r).stored = r.stored) :
    Quotas n (initTaskNum n s running) ↔ 0 ≤ s.counter.toInt ∧ s.counter.toInt < n.toInt := by
  rw [← succ_range]
  unfold initTaskNum
  simp only
  split
  · next hzero =>
      -- the division by zero
      refine iff_of_false (fun hP => ?_) ?_
      · have hdead : true = false := hP.divided
        cases hdead
      · rw [hzero]
        show ¬(1 ≤ (0 : Int) ∧ (0 : Int) ≤ n.toInt)
        omega
  · rw [← share_ok hn, ← stored_append h]
    constructor
    · intro hP
      have hall := hP.stored
      rw [hst] at hall
      exact hall
    · intro hall
      refine ⟨?_, ?_⟩
      · rw [hdiv]
        exact h.divided
      · rw [hst]
        exact hall

/-- The handler goes well iff the count it finds is not negative. -/
theorem handler_ok {n : BitVec 32} (hn : 1 ≤ n.toInt) (c : BitVec 32) :
    (∀ x ∈ taskNumUpdateHandler n (some c), 1 ≤ x.toInt ∧ x.toInt ≤ n.toInt) ↔ 0 ≤ c.toInt := by
  have hone : (1 : BitVec 32).toInt = 1 := rfl
  unfold taskNumUpdateHandler
  rw [Option.getD_some]
  by_cases hzero : c = 0
  · -- taken for 1
    subst hzero
    refine iff_of_true ?_ (Int.le_refl 0)
    simp only [if_pos]
    split
    · intro x hx
      obtain rfl := List.mem_singleton.mp hx
      omega
    · rw [share_ok hn]
      omega
  · simp only [if_neg hzero]
    have hne : c.toInt ≠ 0 := fun h0 => hzero (BitVec.eq_of_toInt_eq h0)
    split
    · next hmany =>
        -- as many processes as processors: one each
        have hle : n.toInt ≤ c.toInt := by simpa [BitVec.sle] using hmany
        refine iff_of_true ?_ (by omega)
        intro x hx
        obtain rfl := List.mem_singleton.mp hx
        omega
    · next hfew =>
        have hlt : c.toInt < n.toInt := by simpa [BitVec.sle] using hfew
        rw [share_ok hn]
        omega

/-- Before the count is mapped it is taken for 1. -/
theorem handler_unmapped {n : BitVec 32} (hn : 1 ≤ n.toInt) :
    ∀ x ∈ taskNumUpdateHandler n none, 1 ≤ x.toInt ∧ x.toInt ≤ n.toInt := by
  have hsame : taskNumUpdateHandler n none = taskNumUpdateHandler n (some 1) := rfl
  rw [hsame, handler_ok hn]
  show (0 : Int) ≤ 1
  omega

/-- **One event.**  When all is well before, all is well after iff the event finds
    a sane count. -/
theorem quotas_step {n : BitVec 32} (hn : 1 ≤ n.toInt) {s s' : Quota} {e : QuotaEvent}
    (h : Quotas n s) (hs : quotaStep n s e = some s') : Quotas n s' ↔ Sane n s e := by
  cases e with
  | start | cleanStart =>
      obtain rfl := Option.some.inj hs
      exact quotas_initTaskNum hn h (fun _ => rfl) fun _ => rfl
  | exit | cleanWrite arg | cleanExit =>
      -- nothing is stored in a quota
      simp only [quotaStep, Option.ite_none_right_eq_some] at hs
      obtain ⟨-, hs⟩ := hs
      obtain rfl := Option.some.inj hs
      exact iff_of_true ⟨h.divided, h.stored⟩ trivial
  | tick mapped =>
      simp only [quotaStep, Option.ite_none_right_eq_some] at hs
      obtain ⟨-, hs⟩ := hs
      obtain rfl := Option.some.inj hs
      -- an unmapped count is taken for 1, a mapped one is divided by
      cases mapped with
      | false =>
          exact iff_of_true ⟨h.divided, (stored_append h _).mpr (handler_unmapped hn)⟩ trivial
      | true =>
          show _ ↔ 0 ≤ s.counter.toInt
          rw [← handler_ok hn, ← stored_append h]
          exact ⟨fun hP => hP.stored, fun hall => ⟨h.divided, hall⟩⟩

/-! ## §5. Runs. -/

theorem quotas_start (n : BitVec 32) : Quotas n noProcess where
  divided := rfl
  stored x hx := by cases hx

theorem quota_keeps {n : BitVec 32} (hn : 1 ≤ n.toInt) :
    (quota n).Keeps (Sane n) (Quotas n) where
  start s hs := by
    obtain rfl : s = noProcess := hs
    exact quotas_start n
  step _ _ _ h hok hs := (quotas_step hn h hs).mpr hok

/-- **The shared count.**  Throughout a run nobody divides by zero and all quotas
    lie between 1 and N, iff every start finds a count from 0 to N − 1 and every
    handler one that is not negative. -/
theorem quotas_iff_sane {n : BitVec 32} (hn : 1 ≤ n.toInt) {es : List QuotaEvent} {t : Quota}
    (hrun : (quota n).run noProcess es = some t) :
    (quota n).Always (Quotas n) noProcess es ↔ (quota n).StepsMeet (Sane n) noProcess es :=
  Machine.always_iff_stepsMeet (quota_keeps hn) (fun _ h => h)
    (fun _ _ _ h hno hs hP => hno ((quotas_step hn h hs).mp hP)) rfl hrun

/-- Two processes, the handler, and a `clean_shm` that is told of one of them. -/
def tidyEvents : List QuotaEvent :=
  [.start, .start, .tick true, .cleanStart, .cleanWrite (some 2), .cleanExit, .exit, .exit, .start]

theorem quotas_iff_sane_tidy :
    ∃ t, (quota 4).run noProcess tidyEvents = some t ∧ t.stored = [4, 2, 2, 1, 2, 4]
      ∧ ((quota 4).Always (Quotas 4) noProcess tidyEvents ↔
          (quota 4).StepsMeet (Sane 4) noProcess tidyEvents) :=
  ⟨_, rfl, rfl, quotas_iff_sane (n := 4) (by decide) (t := _) rfl⟩

/-- `clean_shm` without an argument while a process runs; that one exits and
    another starts. -/
def cleanedTooFar : List QuotaEvent :=
  [.start, .cleanStart, .cleanWrite none, .cleanExit, .exit, .start]

/-- The last start divides by zero. -/
theorem division_by_zero :
    ∃ t, (quota 4).run noProcess cleanedTooFar = some t ∧ t.divByZero = true
      ∧ ¬(quota 4).Always (Quotas 4) noProcess cleanedTooFar := by
  refine ⟨_, rfl, rfl, fun hA => ?_⟩
  have hdiv := (hA.last (t := _) rfl).divided
  cases hdiv

/-! ## §6. Without clean_shm. -/

/-- No `clean_shm`, and a start only while fewer than N processes run. -/
def Plain (n : BitVec 32) (s : Quota) : QuotaEvent → Prop
  | .start => (s.live : Int) < n.toInt
  | .cleanStart => False
  | _ => True

/-- The count is the number of processes. -/
structure Counted (n : BitVec 32) (s : Quota) : Prop where
  counter : s.counter.toInt = s.live
  live : (s.live : Int) ≤ n.toInt
  cleaning : s.cleaning = 0
  cleaned : s.cleaned = 0

theorem Counted.sane {n : BitVec 32} {s : Quota} {e : QuotaEvent} (h : Counted n s)
    (hok : Plain n s e) : Sane n s e := by
  have hc := h.counter
  cases e with
  | start =>
      have hlt : (s.live : Int) < n.toInt := hok
      show 0 ≤ s.counter.toInt ∧ s.counter.toInt < n.toInt
      omega
  | cleanStart => exact hok.elim
  | tick mapped =>
      cases mapped with
      | false => trivial
      | true =>
          show 0 ≤ s.counter.toInt
          omega
  | _ => trivial

theorem Counted.pos {n : BitVec 32} {s : Quota} (h : Counted n s) (hlive : 0 < s.live) :
    ((s.counter - 1).toInt : Int) = (s.live - 1 : ℕ) := by
  have hc := h.counter
  have hup := BitVec.toInt_lt (x := s.counter)
  have hone : (1 : BitVec 32).toInt = 1 := rfl
  rw [BitVec.toInt_sub, hone, Int.bmod_eq_of_le (by omega) (by omega)]
  omega

theorem counted_step {n : BitVec 32} (hn : 1 ≤ n.toInt) {s s' : Quota} {e : QuotaEvent}
    (h : Counted n s) (hok : Plain n s e) (hs : quotaStep n s e = some s') : Counted n s' := by
  have hc := h.counter
  have hmax := BitVec.toInt_lt (x := n)
  cases e with
  | start =>
      obtain rfl := Option.some.inj hs
      have hlt : (s.live : Int) < n.toInt := hok
      have hnext : (s.counter + 1).toInt = s.live + 1 := by
        rw [toInt_succ (by omega), hc]
      have hne : s.counter + 1 ≠ 0 := by
        intro h0
        rw [h0] at hnext
        have hzero : (0 : BitVec 32).toInt = 0 := rfl
        omega
      unfold initTaskNum
      simp only [if_neg hne]
      refine ⟨?_, ?_, h.cleaning, h.cleaned⟩
      · show (s.counter + 1).toInt = ((s.live + 1 : ℕ) : Int)
        omega
      · show ((s.live + 1 : ℕ) : Int) ≤ n.toInt
        omega
  | cleanStart => exact hok.elim
  | exit =>
      simp only [quotaStep, Option.ite_none_right_eq_some] at hs
      obtain ⟨hlive, hs⟩ := hs
      obtain rfl := Option.some.inj hs
      refine ⟨h.pos hlive, ?_, h.cleaning, h.cleaned⟩
      have hle := h.live
      show ((s.live - 1 : ℕ) : Int) ≤ n.toInt
      omega
  | cleanWrite arg =>
      simp only [quotaStep, Option.ite_none_right_eq_some] at hs
      -- no `clean_shm` runs
      have hnone := h.cleaning
      omega
  | cleanExit =>
      simp only [quotaStep, Option.ite_none_right_eq_some] at hs
      have hnone := h.cleaned
      omega
  | tick mapped =>
      simp only [quotaStep, Option.ite_none_right_eq_some] at hs
      obtain ⟨-, hs⟩ := hs
      obtain rfl := Option.some.inj hs
      exact ⟨hc, h.live, h.cleaning, h.cleaned⟩

/-- **Without clean_shm**, and with at most N processes at a time, the count is the
    number of processes and all is well. -/
theorem quotas_of_plain {n : BitVec 32} (hn : 1 ≤ n.toInt) {s : Quota}
    (hr : (quota n).ReachableVia (Plain n) s) : Counted n s ∧ Quotas n s := by
  have hkeeps : (quota n).Keeps (Plain n) fun s => Counted n s ∧ Quotas n s := by
    refine ⟨fun s hs => ?_, fun s e s' h hok hs => ?_⟩
    · obtain rfl : s = noProcess := hs
      refine ⟨⟨rfl, ?_, rfl, rfl⟩, quotas_start n⟩
      show (0 : Int) ≤ n.toInt
      omega
    · exact ⟨counted_step hn h.1 hok hs, (quotas_step hn h.2 hs).mpr (h.1.sane hok)⟩
  exact hkeeps.reachable hr

end HThread.Workers
