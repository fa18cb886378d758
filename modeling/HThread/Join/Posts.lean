/-
  HThread.Join.Posts — the posts of `wake_up_joined` and the raw joiners.

  `wake_up_joined` takes `join_waiters_num`, wakes the vthreads of the list and
  posts `join_sem` once for each waiter that is left.  The post is a
  compare-and-swap from 0 to 1: one that finds the permit of the post before
  still there is lost.

  The machine is that of HThread.Join.Vthread from the moment the target has
  taken its mutex, with the steps of the target and of the joiners in
  `join_sem.wait()` only.

  Key lemmas:
    * `owed_step`     — what a step of the target does to the posts still to come.
    * `served_step`   — as long as no post is lost, permits and posts to come are
      as many as the raw joiners that wait.
    * `target_ends`   — the target can always run to its end on its own.
  Main result:
    * `served_iff` — nobody is left behind iff there is at most one raw joiner.
-/
import HThread.Interleave.Tally
import HThread.Join.Finish

namespace HThread.Join

open Interleave
open Function (update)

variable {A V : Type} [DecidableEq A] [DecidableEq V]

/-! ## §1. The target and the raw joiners. -/

/-- Inside `join_sem.wait()` of `v`. -/
def JoinPc.waitsFor (v : V) : JoinPc V → Bool
  | semCas t | semFutex t | semSleep t => t = v
  | _ => false

/-- A raw joiner of `v` that waits. -/
def waitsFor (v : V) : Pc V (JoinPc V) (JoinCont V) V → ℕ
  | .exec none p => if p.waitsFor v then 1 else 0
  | _ => 0

/-- How many raw joiners of `v` wait. -/
def rawWaiting [Fintype A] (s : JoinState A V) (v : V) : ℕ := tally (waitsFor v) s.pc

/-- The action is one of the target, which agent `a` runs, or of a raw joiner of
    `v` that waits. -/
def takesPart (v : V) (a : A) (s : JoinState A V) (act : JoinAct A V) : Bool :=
  match s.pc act.agent with
  | .exec (some u) p => act.agent = a && u = v && p.wakes
  | .exec none p => p.waitsFor v
  | _ => false

/-- The posts of `v` and the waits, from the state `s₀` on. -/
def posting (v : V) (a : A) (s₀ : JoinState A V) : Machine (JoinState A V) (JoinAct A V) where
  init s := s = s₀
  step s act := if takesPart v a s act then joinStep s act else none

/-- The vthreads in the list from `h` and `k` more make `n`. -/
def Linked (s : JoinState A V) (k : ℕ) (h : Option V) (n : ℤ) : Prop :=
  ∃ l, Chain s.next h l ∧ l.Nodup ∧ n = l.length + k

/-- Agent `a` has just taken the mutex in `wake_up_joined` of `v`, with `k` raw
    joiners and as many vthreads as are in the list registered. -/
structure Posting [Fintype A] (v : V) (a : A) (k : ℕ) (s : JoinState A V) : Prop where
  pc : s.pc a = .exec (some v) .wakeRetval
  listed : Linked s k (s.joinWaitQueue v) (s.joinWaitersNum v)
  waiting : rawWaiting s v = k
  fut : s.fut v = 0
  done : s.done v = false

/-- After `wake_up_joined` has returned there is a permit for each raw joiner that
    still waits. -/
def NobodyLeft [Fintype A] (v : V) (s : JoinState A V) : Prop :=
  s.done v = true → rawWaiting s v ≤ s.fut v

/-! ## §2. The posts still to come. -/

/-- At point `p` of `wake_up_joined` of `v` there are `x` posts to come; `k` in all. -/
def Owed (s : JoinState A V) (v : V) (k x : ℕ) : JoinPc V → Prop
  | .wakeRetval | .wakeOut _ | .wakeStore _ _ | .wakeStatus | .wakeNum | .wakeWaiters =>
      x = k ∧ Linked s k (s.joinWaitQueue v) (s.joinWaitersNum v)
  | .wakeZero n | .wakeHead n => x = k ∧ Linked s k (s.joinWaitQueue v) n
  | .wakeNull n h | .wakeUnlock n h | .wakeCheck n h | .wakeDeq n h => x = k ∧ Linked s k h n
  | .wakeClear n w h =>
      x = k ∧ ∃ l, Chain s.next h l ∧ l.Nodup ∧ w ∉ l ∧ n - 1 = l.length + k
  | .wakeSet n _ h | .wakeEnq n _ h => x = k ∧ Linked s k h (n - 1)
  | .wakePost n | .wakeFutex n => n = x
  | _ => False

/-- The bound on the steps that the target still takes. -/
def rank (s : JoinState A V) (v : V) : JoinPc V → ℕ
  | .wakeRetval => 4 * (s.joinWaitersNum v).toNat + 16
  | .wakeOut _ => 4 * (s.joinWaitersNum v).toNat + 15
  | .wakeStore _ _ => 4 * (s.joinWaitersNum v).toNat + 14
  | .wakeStatus => 4 * (s.joinWaitersNum v).toNat + 13
  | .wakeNum => 4 * (s.joinWaitersNum v).toNat + 12
  | .wakeWaiters => 4 * (s.joinWaitersNum v).toNat + 11
  | .wakeZero n => 4 * n.toNat + 10
  | .wakeHead n => 4 * n.toNat + 9
  | .wakeNull n _ => 4 * n.toNat + 8
  | .wakeUnlock n _ => 4 * n.toNat + 7
  | .wakeCheck n _ => 4 * n.toNat + 6
  | .wakeDeq n _ => 4 * n.toNat + 5
  | .wakeClear n _ _ => 4 * n.toNat + 4
  | .wakeSet n _ _ => 4 * n.toNat + 3
  | .wakeEnq n _ _ => 4 * n.toNat + 2
  | .wakePost n => 2 * n.toNat
  | .wakeFutex n => 2 * n.toNat + 1
  | _ => 0

/-- What a step of the target from `p` leads to: it goes on to `p'` with `x'` posts
    to come, having made a post if that is one less, or it returns. -/
inductive TargetStep (s : JoinState A V) (v : V) (a : A) (k x : ℕ) (p : JoinPc V) :
    JoinState A V → Prop
  | on (s' p') (hpc : s'.pc = update s.pc a (.exec (some v) p')) (hfut : s'.fut = s.fut)
      (hdone : s'.done = s.done) (howed : Owed s' v k x p') (hrank : rank s' v p' < rank s v p) :
      TargetStep s v a k x p s'
  | post (s' p' x') (hx : x = x' + 1) (hzero : s.fut v = 0)
      (hpc : s'.pc = update s.pc a (.exec (some v) p')) (hfut : s'.fut = update s.fut v 1)
      (hdone : s'.done = s.done) (howed : Owed s' v k x' p') (hrank : rank s' v p' < rank s v p) :
      TargetStep s v a k x p s'
  | lost (s' p' x' n) (hp : p = .wakePost n) (hn : n ≠ 0) (hx : x = x' + 1) (hone : s.fut v ≠ 0)
      (hpc : s'.pc = update s.pc a (.exec (some v) p')) (hfut : s'.fut = s.fut)
      (hdone : s'.done = s.done) (howed : Owed s' v k x' p') (hrank : rank s' v p' < rank s v p) :
      TargetStep s v a k x p s'
  | ret (hx : x = 0) : TargetStep s v a k x p (s.finish a v)

variable {s s' : JoinState A V} {v : V} {a : A} {k x : ℕ} {p : JoinPc V}

omit [DecidableEq A] [DecidableEq V] in
theorem Linked.nonneg {h : Option V} {n : ℤ} (hl : Linked s k h n) : 0 ≤ n := by
  obtain ⟨l, -, -, hn⟩ := hl
  omega

omit [DecidableEq A] [DecidableEq V] in
/-- With nobody counted the list is empty. -/
theorem Linked.none_of_zero {h : Option V} (hl : Linked s k h 0) : k = 0 ∧ Linked s k none 0 := by
  obtain ⟨l, -, -, hn⟩ := hl
  have hk : k = 0 := by omega
  exact ⟨hk, [], Chain.nil, List.nodup_nil, by rw [hk]; rfl⟩

/-- **One step of the target.** -/
theorem owed_step (howed : Owed s v k x p) (hs : wakeUpJoined s a v p = some s') :
    TargetStep s v a k x p s' := by
  cases p with
  | wakeRetval =>
      obtain rfl := Option.some.inj hs
      cases s.retval v with
      | some r => exact .on _ (.wakeOut r) rfl rfl rfl howed (Nat.lt_succ_self _)
      | none =>
          refine .on _ .wakeStatus rfl rfl rfl howed ?_
          show 4 * (s.joinWaitersNum v).toNat + 13 < 4 * (s.joinWaitersNum v).toNat + 16
          omega
  | wakeOut r =>
      obtain rfl := Option.some.inj hs
      exact .on _ (.wakeStore r _) rfl rfl rfl howed (Nat.lt_succ_self _)
  | wakeStore r val =>
      obtain rfl := Option.some.inj hs
      exact .on _ .wakeStatus rfl rfl rfl howed (Nat.lt_succ_self _)
  | wakeStatus =>
      obtain rfl := Option.some.inj hs
      exact .on _ .wakeNum rfl rfl rfl howed (Nat.lt_succ_self _)
  | wakeNum =>
      obtain rfl := Option.some.inj hs
      obtain ⟨hx, hl⟩ := howed
      -- nobody is counted, so there is nobody in the list and no post to make
      by_cases hn : s.joinWaitersNum v = 0
      · rw [if_pos hn]
        rw [hn] at hl
        refine .on _ (.wakeUnlock 0 none) rfl rfl rfl ⟨hx, hl.none_of_zero.2⟩ ?_
        show 4 * (0 : ℤ).toNat + 7 < 4 * (s.joinWaitersNum v).toNat + 12
        omega
      · rw [if_neg hn]
        exact .on _ .wakeWaiters rfl rfl rfl ⟨hx, hl⟩ (Nat.lt_succ_self _)
  | wakeWaiters =>
      obtain rfl := Option.some.inj hs
      exact .on _ (.wakeZero (s.joinWaitersNum v)) rfl rfl rfl howed (Nat.lt_succ_self _)
  | wakeZero n =>
      obtain rfl := Option.some.inj hs
      exact .on _ (.wakeHead n) rfl rfl rfl howed (Nat.lt_succ_self _)
  | wakeHead n =>
      obtain rfl := Option.some.inj hs
      exact .on _ (.wakeNull n (s.joinWaitQueue v)) rfl rfl rfl howed (Nat.lt_succ_self _)
  | wakeNull n h =>
      obtain rfl := Option.some.inj hs
      exact .on _ (.wakeUnlock n h) rfl rfl rfl howed (Nat.lt_succ_self _)
  | wakeUnlock n h =>
      obtain rfl := Option.some.inj hs
      exact .on _ (.wakeCheck n h) rfl rfl rfl howed (Nat.lt_succ_self _)
  | wakeCheck n h =>
      obtain rfl := Option.some.inj hs
      obtain ⟨hx, hl⟩ := howed
      by_cases hn : n = 0
      · rw [if_pos hn]
        rw [hn] at hl
        exact .ret (hx.trans hl.none_of_zero.1)
      · rw [if_neg hn]
        exact .on _ (.wakeDeq n h) rfl rfl rfl ⟨hx, hl⟩ (Nat.lt_succ_self _)
  | wakeDeq n h =>
      obtain ⟨hx, l, hc, hnd, hn⟩ := howed
      cases h with
      | none =>
          obtain rfl := Option.some.inj hs
          -- the list is empty: what is left of `waiters` are the raw joiners
          rw [Chain.nil_iff] at hc
          subst hc
          refine .on _ (.wakePost n) rfl rfl rfl ?_ ?_
          · show n = (x : ℤ)
            rw [hn, hx]
            simp
          · show 2 * n.toNat < 4 * n.toNat + 5
            omega
      | some w =>
          obtain rfl := Option.some.inj hs
          obtain ⟨l', rfl, hc'⟩ := hc.uncons
          rw [List.nodup_cons] at hnd
          refine .on _ (.wakeClear n w (s.next w)) rfl rfl rfl ⟨hx, l', hc', hnd.2, hnd.1, ?_⟩
            (Nat.lt_succ_self _)
          rw [hn, List.length_cons]
          omega
  | wakeClear n w h =>
      obtain rfl := Option.some.inj hs
      obtain ⟨hx, l, hc, hnd, hw, hn⟩ := howed
      exact .on _ (.wakeSet n w h) rfl rfl rfl ⟨hx, l, hc.update_of_not_mem hw none, hnd, hn⟩
        (Nat.lt_succ_self _)
  | wakeSet n w h =>
      obtain rfl := Option.some.inj hs
      exact .on _ (.wakeEnq n w h) rfl rfl rfl howed (Nat.lt_succ_self _)
  | wakeEnq n w h =>
      obtain rfl := Option.some.inj hs
      obtain ⟨hx, hl⟩ := howed
      have hnon := hl.nonneg
      refine .on _ (.wakeDeq (n - 1) h) rfl rfl rfl ⟨hx, hl⟩ ?_
      show 4 * (n - 1).toNat + 5 < 4 * n.toNat + 2
      omega
  | wakePost n =>
      obtain rfl := Option.some.inj hs
      have hn : n = x := howed
      by_cases h0 : n = 0
      · rw [if_pos h0]
        exact .ret (by omega)
      · rw [if_neg h0]
        obtain ⟨y, hy⟩ : ∃ y, x = y + 1 := ⟨x - 1, by omega⟩
        -- a post is lost when the permit of the one before is still there
        by_cases hf : s.fut v = 0
        · rw [if_pos hf]
          refine .post _ (.wakeFutex (n - 1)) y hy hf rfl rfl rfl ?_ ?_
          · show n - 1 = (y : ℤ)
            omega
          · show 2 * (n - 1).toNat + 1 < 2 * n.toNat
            omega
        · rw [if_neg hf]
          refine .lost _ (.wakePost (n - 1)) y n rfl h0 hy hf rfl rfl rfl ?_ ?_
          · show n - 1 = (y : ℤ)
            omega
          · show 2 * (n - 1).toNat < 2 * n.toNat
            omega
  | wakeFutex n =>
      simp only [wakeUpJoined, Option.ite_none_right_eq_some] at hs
      obtain ⟨-, hs⟩ := hs
      obtain rfl := Option.some.inj hs
      exact .on _ (.wakePost n) rfl rfl rfl howed (Nat.lt_succ_self _)
  | _ => exact howed.elim

omit [DecidableEq A] [DecidableEq V] in
theorem Owed.late (howed : Owed s v k x p) : p.late = true := by
  cases p with
  | cont c => exact howed.elim
  | wakeRetval | wakeOut _ | wakeStore _ _ | wakeStatus | wakeNum | wakeWaiters | wakeZero _
  | wakeHead _ | wakeNull _ _ | wakeUnlock _ _ | wakeCheck _ _ | wakeDeq _ _ | wakeClear _ _ _
  | wakeSet _ _ _ | wakeEnq _ _ _ | wakePost _ | wakeFutex _ => rfl
  | _ => exact howed.elim

omit [DecidableEq A] [DecidableEq V] in
theorem Owed.wakes (howed : Owed s v k x p) : p.wakes = true := wakes_of_late howed.late

omit [DecidableEq A] [DecidableEq V] in
/-- The posts to come depend on the list only. -/
theorem Owed.congr (howed : Owed s v k x p) (hnext : s'.next = s.next)
    (hqueue : s'.joinWaitQueue = s.joinWaitQueue) (hnum : s'.joinWaitersNum = s.joinWaitersNum) :
    Owed s' v k x p := by
  unfold Owed Linked at howed ⊢
  rw [hnext, hqueue, hnum]
  exact howed

/-- The target also goes on when its futex call finds a sleeper. -/
theorem target_step {act : JoinAct A V} (ha : act.agent = a) (hpc : s.pc a = .exec (some v) p)
    (howed : Owed s v k x p) (hs : joinStep s act = some s') : TargetStep s v a k x p s' := by
  rcases late_step ha hpc howed.late hs with hs | ⟨b, hs⟩
  · exact owed_step howed hs
  · cases p with
    | wakeFutex n =>
        simp only [futexWake, Option.ite_none_right_eq_some] at hs
        obtain ⟨-, hs⟩ := hs
        obtain rfl := Option.some.inj hs
        exact .on _ (.wakePost n) rfl rfl rfl howed (Nat.lt_succ_self _)
    | _ => cases hs

/-! ## §3. Permits and posts against waiters. -/

variable [Fintype A] {s₀ : JoinState A V} {act : JoinAct A V}

/-- While no post is lost, the permit and the posts to come are for the raw joiners
    that wait. -/
structure Served (v : V) (a : A) (k : ℕ) (s : JoinState A V) : Prop where
  target : (∃ p x, s.pc a = .exec (some v) p ∧ Owed s v k x p ∧ s.fut v + x = rawWaiting s v
      ∧ s.done v = false)
    ∨ s.pc a = .top ∧ s.fut v = rawWaiting s v
  atMost : rawWaiting s v ≤ k

/-- A post finds the permit of the post before taken. -/
def NoneLost (v : V) (s : JoinState A V) (act : JoinAct A V) : Prop :=
  ∀ n, s.pc act.agent = .exec (some v) (.wakePost n) → n ≠ 0 → s.fut v = 0

omit [DecidableEq A] in
theorem Posting.served (h : Posting v a k s) : Served v a k s where
  target := by
    refine .inl ⟨.wakeRetval, k, h.pc, ⟨rfl, h.listed⟩, ?_, h.done⟩
    rw [h.fut, h.waiting, Nat.zero_add]
  atMost := h.waiting.le

omit [DecidableEq A] in
theorem Served.nobodyLeft (h : Served v a k s) : NobodyLeft v s := by
  intro hd
  rcases h.target with ⟨p, x, -, -, -, hnot⟩ | ⟨-, heq⟩
  · rw [hnot] at hd
    cases hd
  · exact heq.ge

/-- The target's own steps leave the number of waiting joiners alone. -/
theorem rawWaiting_target {q : Pc V (JoinPc V) (JoinCont V) V} (hpc : s.pc a = .exec (some v) p)
    (hq : waitsFor v q = 0) (hs : s'.pc = update s.pc a q) : rawWaiting s' v = rawWaiting s v := by
  unfold rawWaiting
  rw [hs]
  apply tally_update_same
  rw [hq, hpc]
  rfl

/-- A joiner that waits and goes on waiting leaves the permits alone. -/
theorem joiner_waits {b : A} {p' : JoinPc V} (hpc : waitsFor v (s.pc b) = 1)
    (hw : p'.waitsFor v = true) (hs : s'.pc = update s.pc b (.exec none p')) (hf : s'.fut = s.fut) :
    (∀ c, c ≠ b → s'.pc c = s.pc c)
      ∧ (s'.fut v + rawWaiting s v = s.fut v + rawWaiting s' v
        ∧ rawWaiting s' v ≤ rawWaiting s v) := by
  have hsame : rawWaiting s' v = rawWaiting s v := by
    unfold rawWaiting
    rw [hs]
    apply tally_update_same
    rw [hpc]
    show (if p'.waitsFor v then 1 else 0) = 1
    rw [if_pos hw]
  refine ⟨fun c hc => ?_, ?_, hsame.le⟩
  · rw [hs]
    exact Function.update_of_ne hc ..
  · rw [hf, hsame]

/-- A step of a waiting joiner takes the permit or leaves everything to the target
    as it is. -/
theorem joiner_step {b : A} (hpc : s.pc b = .exec none p) (hw : p.waitsFor v = true)
    (hs : semaWait s b none p = some s') :
    s'.next = s.next ∧ s'.joinWaitQueue = s.joinWaitQueue ∧ s'.joinWaitersNum = s.joinWaitersNum
      ∧ s'.done = s.done ∧ (∀ c, c ≠ b → s'.pc c = s.pc c)
      ∧ (s'.fut v + rawWaiting s v = s.fut v + rawWaiting s' v ∧ rawWaiting s' v ≤ rawWaiting s v) := by
  have hhere : waitsFor v (s.pc b) = 1 := by
    rw [hpc]
    show (if p.waitsFor v then 1 else 0) = 1
    rw [if_pos hw]
  cases p with
  | semCas t =>
      obtain rfl : t = v := of_decide_eq_true hw
      by_cases hf : s.fut t = 1
      · -- it takes the permit and waits no longer
        simp only [semaWait, if_pos hf, Option.some.injEq] at hs
        subst hs
        have hleave := tally_update (waitsFor t) s.pc b (.exec none (.cont .user))
        have hout : waitsFor t (.exec none (.cont .user)) = 0 := rfl
        refine ⟨rfl, rfl, rfl, rfl, fun c hc => Function.update_of_ne hc .., ?_⟩
        show update s.fut t 0 t + tally (waitsFor t) s.pc = s.fut t
          + tally (waitsFor t) (update s.pc b (.exec none (.cont .user))) ∧ _
        rw [Function.update_self]
        constructor
        · omega
        · show tally (waitsFor t) (update s.pc b (.exec none (.cont .user))) ≤ tally (waitsFor t) s.pc
          omega
      · simp only [semaWait, if_neg hf, Option.some.injEq] at hs
        subst hs
        have hwait : JoinPc.waitsFor t (.semFutex t) = true := decide_eq_true rfl
        exact ⟨rfl, rfl, rfl, rfl, joiner_waits hhere hwait rfl rfl⟩
  | semFutex t =>
      obtain rfl : t = v := of_decide_eq_true hw
      by_cases hf : s.fut t = 0
      · simp only [semaWait, if_pos hf, Option.some.injEq] at hs
        subst hs
        have hwait : JoinPc.waitsFor t (.semSleep t) = true := decide_eq_true rfl
        exact ⟨rfl, rfl, rfl, rfl, joiner_waits hhere hwait rfl rfl⟩
      · simp only [semaWait, if_neg hf, Option.some.injEq] at hs
        subst hs
        have hwait : JoinPc.waitsFor t (.semCas t) = true := decide_eq_true rfl
        exact ⟨rfl, rfl, rfl, rfl, joiner_waits hhere hwait rfl rfl⟩
  | semSleep t =>
      obtain rfl : t = v := of_decide_eq_true hw
      simp only [semaWait, Option.ite_none_left_eq_some, Option.some.injEq] at hs
      obtain ⟨-, rfl⟩ := hs
      have hwait : JoinPc.waitsFor t (.semCas t) = true := decide_eq_true rfl
      exact ⟨rfl, rfl, rfl, rfl, joiner_waits hhere hwait rfl rfl⟩
  | _ => cases hw

omit [Fintype A] in
/-- Whose step it is. -/
theorem posting_step (hs : (posting v a s₀).step s act = some s') :
    (∃ p, act.agent = a ∧ s.pc a = .exec (some v) p ∧ joinStep s act = some s')
      ∨ ∃ b p, s.pc b = .exec none p ∧ p.waitsFor v = true ∧ semaWait s b none p = some s' := by
  simp only [posting, Option.ite_none_right_eq_some] at hs
  obtain ⟨hpart, hs⟩ := hs
  unfold takesPart at hpart
  split at hpart
  · next u p hpc =>
      simp only [Bool.and_eq_true, decide_eq_true_eq] at hpart
      obtain ⟨⟨ha, rfl⟩, -⟩ := hpart
      exact .inl ⟨p, ha, ha ▸ hpc, hs⟩
  · next p hpc =>
      refine .inr ⟨act.agent, p, hpc, hpart, ?_⟩
      cases p with
      | semCas t | semFutex t | semSleep t =>
          cases act with
          | go b =>
              have hpc' : s.pc b = .exec none _ := hpc
              simpa [joinStep, hpc', joinCode, JoinPc.wakes, JoinPc.sleeps, JoinAct.agent] using hs
          | call b f =>
              have hpc' : s.pc b = .exec none _ := hpc
              simp [joinStep, hpc'] at hs
          | pick b w =>
              have hpc' : s.pc b = .exec none _ := hpc
              simp [joinStep, getAndWork, hpc'] at hs
          | rouse b w =>
              have hpc' : s.pc b = .exec none _ := hpc
              simp [joinStep, hpc'] at hs
      | _ => cases hpart
  · cases hpart

/-- **One step**, if it loses no post. -/
theorem served_step (h : Served v a k s) (hok : NoneLost v s act)
    (hs : (posting v a s₀).step s act = some s') : Served v a k s' := by
  rcases posting_step hs with ⟨p, rfl, hpc, hstep⟩ | ⟨b, p, hpc, hw, hstep⟩
  · rcases h.target with ⟨p', x, hpc', howed, hsum, hdone⟩ | ⟨htop, -⟩
    · obtain ⟨-, rfl⟩ := Pc.exec.inj (hpc.symm.trans hpc')
      -- a step of the target
      have hraw : ∀ q, waitsFor v q = 0 → s'.pc = update s.pc act.agent q →
          rawWaiting s' v = rawWaiting s v := fun q hq hs' => rawWaiting_target hpc hq hs'
      cases target_step rfl hpc howed hstep with
      | on s' p' hpc'' hfut hd howed' _ =>
          have hr := hraw _ rfl hpc''
          refine ⟨.inl ⟨p', x, ?_, howed', ?_, ?_⟩, hr ▸ h.atMost⟩
          · rw [hpc'', Function.update_self]
          · rw [hfut, hr, hsum]
          · rw [hd, hdone]
      | post s' p' x' hx hzero hpc'' hfut hd howed' _ =>
          have hr := hraw _ rfl hpc''
          refine ⟨.inl ⟨p', x', ?_, howed', ?_, ?_⟩, hr ▸ h.atMost⟩
          · rw [hpc'', Function.update_self]
          · rw [hfut, Function.update_self, hr]
            omega
          · rw [hd, hdone]
      | lost s' p' x' n hp hn hx hone hpc'' hfut hd howed' _ =>
          subst hp
          exact absurd (hok n hpc hn) hone
      | ret hx =>
          have hr : rawWaiting (s.finish act.agent v) v = rawWaiting s v := hraw .top rfl rfl
          refine ⟨.inr ⟨Function.update_self .., ?_⟩, hr ▸ h.atMost⟩
          show s.fut v = _
          rw [hr, ← hsum, hx, Nat.add_zero]
    · rw [htop] at hpc
      cases hpc
  -- a step of a raw joiner
  · obtain ⟨hnext, hqueue, hnum, hd, hother, hpermit, hle⟩ := joiner_step hpc hw hstep
    refine ⟨?_, hle.trans h.atMost⟩
    rcases h.target with ⟨p', x, hpc', howed, hsum, hdone⟩ | ⟨htop, heq⟩
    · have hab : a ≠ b := by
        rintro rfl
        rw [hpc'] at hpc
        cases hpc
      refine .inl ⟨p', x, ?_, howed.congr hnext hqueue hnum, ?_, ?_⟩
      · rw [hother a hab, hpc']
      · omega
      · rw [hd, hdone]
    · have hab : a ≠ b := by
        rintro rfl
        rw [htop] at hpc
        cases hpc
      refine .inr ⟨?_, ?_⟩
      · rw [hother a hab, htop]
      · omega

/-- With one raw joiner there is one post, and no permit before it. -/
theorem Served.noneLost (h : Served v a k s) (hk : k ≤ 1)
    (hs : (posting v a s₀).step s act = some s') : NoneLost v s act := by
  intro n hn h0
  -- the agent at a post is the target
  simp only [posting, Option.ite_none_right_eq_some] at hs
  obtain ⟨hpart, -⟩ := hs
  simp only [takesPart, hn, Bool.and_eq_true, decide_eq_true_eq] at hpart
  obtain ⟨⟨ha, -⟩, -⟩ := hpart
  rcases h.target with ⟨p', x, hpc', howed, hsum, -⟩ | ⟨htop, -⟩
  · rw [ha, hpc'] at hn
    obtain ⟨-, rfl⟩ := Pc.exec.inj hn
    have hx : n = x := howed
    have hle := h.atMost
    omega
  · rw [ha, htop] at hn
    cases hn

/-! ## §4. The target on its own. -/

/-- From any point of `wake_up_joined` the target can run to its end alone; it
    leaves one permit at most. -/
theorem target_ends {m : ℕ} (hpc : s.pc a = .exec (some v) p) (howed : Owed s v k x p)
    (hfut : s.fut v ≤ 1) (hm : rank s v p < m) :
    ∃ acts t, (posting v a s₀).run s acts = some t ∧ t.done v = true
      ∧ rawWaiting t v = rawWaiting s v ∧ t.fut v ≤ 1 := by
  induction m generalizing s p x with
  | zero => exact absurd hm (Nat.not_lt_zero _)
  | succ m ih =>
      -- induction on the rank, which every step of the target lowers
      obtain ⟨act, ha, hcan⟩ := canStep hpc howed.wakes
      obtain ⟨r, hr⟩ := Option.isSome_iff_exists.mp hcan
      have hstep : (posting v a s₀).step s act = some r := by
        have hpart : takesPart v a s act = true := by
          simp [takesPart, ha, hpc, howed.wakes]
        show (if takesPart v a s act then joinStep s act else none) = some r
        rw [if_pos hpart, hr]
      have hgo : ∀ acts t, (posting v a s₀).run r acts = some t →
          (posting v a s₀).run s (act :: acts) = some t := by
        intro acts t ht
        show ((posting v a s₀).step s act).bind _ = some t
        rw [hstep]
        exact ht
      have hon : ∀ p' x', r.pc = update s.pc a (.exec (some v) p') → Owed r v k x' p' →
          r.fut v ≤ 1 → rank r v p' < rank s v p →
          ∃ acts t, (posting v a s₀).run s acts = some t ∧ t.done v = true
            ∧ rawWaiting t v = rawWaiting s v ∧ t.fut v ≤ 1 := by
        intro p' x' hpc' howed' hfut' hlt
        have hhere : r.pc a = .exec (some v) p' := by rw [hpc', Function.update_self]
        obtain ⟨acts, t, hrun, hdone, hraw, hfin⟩ := ih hhere howed' hfut' (by omega)
        refine ⟨act :: acts, t, hgo acts t hrun, hdone, ?_, hfin⟩
        rw [hraw, rawWaiting_target hpc rfl hpc']
      cases target_step ha hpc howed hr with
      | on s' p' hpc' hf hd howed' hlt => exact hon p' x hpc' howed' (hf ▸ hfut) hlt
      | post s' p' x' hx hzero hpc' hf hd howed' hlt =>
          refine hon p' x' hpc' howed' ?_ hlt
          rw [hf, Function.update_self]
      | lost s' p' x' n hp hn hx hone hpc' hf hd howed' hlt =>
          exact hon p' x' hpc' howed' (hf ▸ hfut) hlt
      | ret hx =>
          refine ⟨[act], _, hgo [] _ rfl, Function.update_self .., ?_, hfut⟩
          exact rawWaiting_target (p := p) (q := .top) hpc rfl rfl

/-- **No raw joiner is left behind** iff at most one was registered; with more it
    still is so in every run in which no post is lost. -/
theorem served_iff (h : Posting v a k s₀) :
    ((∀ t, (posting v a s₀).Reachable t → NobodyLeft v t) ↔ k ≤ 1)
      ∧ ∀ t, (posting v a s₀).ReachableVia (NoneLost v) t → NobodyLeft v t := by
  refine ⟨⟨fun hall => ?_, fun hk t hr => ?_⟩, fun t hr => ?_⟩
  -- left alone the target ends with one permit and `k` raw joiners
  · have howed : Owed s₀ v k k .wakeRetval := ⟨rfl, h.listed⟩
    have hfut : s₀.fut v ≤ 1 := by
      rw [h.fut]
      exact Nat.zero_le 1
    obtain ⟨acts, t, hrun, hdone, hraw, hone⟩ := target_ends h.pc howed hfut (Nat.lt_succ_self _)
    have hleft := hall t (.after rfl acts hrun) hdone
    rw [hraw, h.waiting] at hleft
    omega
  · have hkeeps : (posting v a s₀).Keeps (fun _ _ => True) (Served v a k) := by
      refine ⟨fun s hs => ?_, fun s act s' hI _ hs => served_step hI (hI.noneLost hk hs) hs⟩
      obtain rfl : s = s₀ := hs
      exact h.served
    exact (hkeeps.reachable hr).nobodyLeft
  · have hkeeps : (posting v a s₀).Keeps (NoneLost v) (Served v a k) := by
      refine ⟨fun s hs => ?_, fun s act s' hI hok hs => served_step hI hok hs⟩
      obtain rfl : s = s₀ := hs
      exact h.served
    exact (hkeeps.reachable hr).nobodyLeft

/-! ## §5. One raw joiner, and two. -/

/-- Worker 0, raw threads 1 and 2; the vthreads are in the run queue. -/
def oneWorker : JoinState (Fin 3) (Fin 2) := joinInit (fun a => a ≠ 0) [0, 1]

/-- Raw thread `a` registers as a joiner of vthread 1 and comes to `join_sem.wait()`. -/
def rawJoin (a : Fin 3) : List (JoinAct (Fin 3) (Fin 2)) :=
  .call a (.join 1 none) :: List.replicate 6 (.go a)

/-- Vthread 0 registers as a joiner of vthread 1, and the worker lets go of it. -/
def vthreadJoin : List (JoinAct (Fin 3) (Fin 2)) :=
  [.pick 0 0, .go 0, .go 0, .call 0 (.join 1 none)] ++ List.replicate 13 (.go 0)

/-- Vthread 1 returns, and the worker takes its mutex in `wake_up_joined`. -/
def targetReturns : List (JoinAct (Fin 3) (Fin 2)) :=
  [.pick 0 1, .go 0, .go 0, .call 0 (.ret 7), .go 0, .go 0, .go 0, .go 0]

/-- A vthread and a raw thread join. -/
theorem served_iff_one :
    ∃ s, joining.run oneWorker (vthreadJoin ++ rawJoin 1 ++ targetReturns) = some s
      ∧ ((∀ t, (posting 1 0 s).Reachable t → NobodyLeft 1 t) ↔ 1 ≤ 1)
      ∧ ∀ t, (posting 1 0 s).ReachableVia (NoneLost 1) t → NobodyLeft 1 t := by
  refine ⟨_, rfl, served_iff (k := 1) ⟨rfl, ⟨[0], ⟨rfl, rfl⟩, by decide, rfl⟩, ?_, rfl, rfl⟩⟩
  decide

/-- Two raw threads join; the second post is lost, and one of them has no permit. -/
theorem second_post_lost :
    ∃ s t, joining.init oneWorker
      ∧ joining.run oneWorker (rawJoin 1 ++ rawJoin 2 ++ targetReturns) = some s ∧ Posting 1 0 2 s
      ∧ (posting 1 0 s).run s (List.replicate 14 (.go 0)) = some t
      ∧ t.done 1 = true ∧ rawWaiting t 1 = 2 ∧ t.fut 1 = 1 ∧ ¬NobodyLeft 1 t := by
  refine ⟨_, _, ⟨_, _, by decide, rfl⟩, rfl, ?_, rfl, rfl, ?_, rfl, fun hleft => ?_⟩
  · exact ⟨rfl, ⟨[], rfl, List.nodup_nil, rfl⟩, by decide, rfl, rfl⟩
  · decide
  · have hle := hleft rfl
    revert hle
    decide

end HThread.Join
