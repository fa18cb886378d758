/-
  HThread.Semaphore.Trywait — when `sem_trywait` may turn a caller away.

  Between a failed decrement and its compensating increment `c` is below the
  value the semaphore stands for, and whoever reads it then is turned away
  although a unit is free.  The semaphore is watched: for each caller whether
  the value was zero since its last call of `sem_trywait` began, and whether a
  call was ever turned away without that.

  Key lemmas:
    * `watched_sem`   — watching does not change the runs.
    * `fair_keeps`    — while no unit is hidden nobody is turned away wrongly.
    * `hidden_unit`   — with two callers a unit can be hidden from every start.
  Main result:
    * `trywait_iff` — for which numbers of callers `sem_trywait` is that of a
      counting semaphore, and in which runs.
-/
import HThread.Semaphore

namespace HThread.Semaphore

open Interleave
open Function (update)

variable {T : Type} [DecidableEq T]

/-! ## §1. The watched semaphore. -/

/-- The semaphore, for each caller whether the value was zero at some step since
    its last call of `sem_trywait` began, and whether a call that returned
    non-zero had no such step. -/
structure Watched (T : Type) where
  sem : SemState T
  sawZero : T → Bool
  wrongBusy : Bool

/-- The action begins a call of `sem_trywait` by `u`. -/
def starts (s : SemState T) (a : SemAct T) (u : T) : Bool :=
  match a with
  | .call t .semTrywait | .call t .semWait => u = t
  | .call _ .semPost => false
  | .go t => u = t ∧ s.pc t = .yield

/-- The caller whose call of `sem_trywait` returns `EBUSY` by the action. -/
def turnedAway (s : SemState T) : SemAct T → Option T
  | .call _ _ => none
  | .go t =>
      match s.pc t with
      | .load _ => if s.c ≤ 0 then some t else none
      | .undo _ => some t
      | _ => none

/-- What is noted when the action leads to `s'`. -/
def note (v : ℤ) (w : Watched T) (a : SemAct T) (s' : SemState T) : Watched T where
  sem := s'
  sawZero u := (w.sawZero u && !starts w.sem a u) || decide (value v s' = 0)
  wrongBusy := w.wrongBusy || match turnedAway w.sem a with
    | some t => !w.sawZero t
    | none => false

def watchedStep (v : ℤ) (w : Watched T) (a : SemAct T) : Option (Watched T) :=
  (semStep w.sem a).map (note v w a)

def watched (v : ℤ) : Machine (Watched T) (SemAct T) where
  init w := w = { sem := semInit v, sawZero := fun _ => decide (v = 0), wrongBusy := false }
  step := watchedStep v

/-- The history is that of a counting semaphore: no unit is taken that was not
    there, and whoever was turned away could have been when the value was zero. -/
structure Linearizable (v : ℤ) (w : Watched T) : Prop where
  nonneg : 0 ≤ value v w.sem
  busy : w.wrongBusy = false

/-- Watching is possible in every run. -/
theorem watched_sem {v : ℤ} {w : Watched T} {as : List (SemAct T)} {s' : SemState T}
    (h : (semaphore v).run w.sem as = some s') :
    ∃ w', (watched v).run w as = some w' ∧ w'.sem = s' := by
  induction as generalizing w with
  | nil =>
      obtain rfl := Option.some.inj h
      exact ⟨w, rfl, rfl⟩
  | cons a as ih =>
      -- the watcher follows step by step
      obtain ⟨r, hr, hrest⟩ := Machine.run_cons h
      have hr' : semStep w.sem a = some r := hr
      obtain ⟨w', hrun, hsem⟩ := ih (w := note v w a r) hrest
      refine ⟨w', ?_, hsem⟩
      show ((semStep w.sem a).map (note v w a)).bind _ = _
      rw [hr']
      exact hrun

/-! ## §2. No hidden unit. -/

variable [Fintype T]

/-- No unit is hidden from the action: a load or decrement that finds `c ≤ 0` finds
    it so although all compensating increments had been made. -/
def NoHiddenUnit (w : Watched T) : SemAct T → Prop
  | .call _ _ => True
  | .go t =>
      match w.sem.pc t with
      | .load _ | .dec _ => w.sem.c ≤ 0 → w.sem.c + inUndo w.sem ≤ 0
      | _ => True

/-- A caller on its way to be turned away has seen the value zero. -/
structure Fair (v : ℤ) (w : Watched T) : Prop where
  accounted : Accounted v w.sem
  zero : value v w.sem = 0 → ∀ u, w.sawZero u = true
  undo : ∀ u wait, w.sem.pc u = .undo wait → w.sawZero u = true
  busy : w.wrongBusy = false

omit [DecidableEq T] in
theorem Fair.linearizable {v : ℤ} {w : Watched T} (h : Fair v w) : Linearizable v w where
  nonneg := h.accounted.2
  busy := h.busy

omit [DecidableEq T] in
/-- If no unit is hidden, a caller that finds `c ≤ 0` has seen the value zero. -/
theorem Fair.sawZero {v : ℤ} {w : Watched T} (h : Fair v w)
    (hno : w.sem.c + inUndo w.sem ≤ 0) (u : T) : w.sawZero u = true := by
  obtain ⟨hsum, hnonneg⟩ := h.accounted
  exact h.zero (by omega) u

/-- At the decrement or its compensation. -/
def SemPc.tries : SemPc → Bool
  | .dec _ | .undo _ => true
  | _ => false

/-- Where a step of `t` leads, as far as these go. -/
inductive Moves (s r : SemState T) (t : T) : SemPc → Prop
  | dec (wait) (hpc : s.pc t = .load wait) (hc : 0 < s.c) (hsame : r.c = s.c) :
      Moves s r t (.dec wait)
  | undo (wait) (hpc : s.pc t = .dec wait) (hc : s.c ≤ 0) : Moves s r t (.undo wait)
  | other (p) (hp : p.tries = false) : Moves s r t p

omit [Fintype T] in
/-- One step of `t` moves `t` only. -/
theorem go_moves {s r : SemState T} {t : T} (hs : semStep s (.go t) = some r) :
    ∃ p, r.pc = update s.pc t p ∧ Moves s r t p := by
  have hbusy : ∀ wait : Bool, Moves s r t (if wait then .yield else .idle) := by
    intro wait
    cases wait with
    | true => exact .other _ rfl
    | false => exact .other _ rfl
  cases hp : s.pc t with
  | idle => simp [semStep, hp] at hs
  | yield =>
      simp only [semStep, hp, semWait] at hs
      obtain rfl := Option.some.inj hs
      exact ⟨_, rfl, .other _ rfl⟩
  | post =>
      simp only [semStep, hp, semPost] at hs
      obtain rfl := Option.some.inj hs
      exact ⟨_, rfl, .other _ rfl⟩
  -- turned away, or on to the decrement
  | load wait =>
      simp only [semStep, hp, semTrywait] at hs
      split at hs
      · obtain rfl := Option.some.inj hs
        exact ⟨_, SemState.busy_pc .., hbusy wait⟩
      · next hc =>
          obtain rfl := Option.some.inj hs
          exact ⟨_, rfl, .dec wait hp (by omega) rfl⟩
  -- the test of the result: too late, or a unit is taken
  | dec wait =>
      simp only [semStep, hp, semTrywait] at hs
      split at hs
      · next hc =>
          obtain rfl := Option.some.inj hs
          exact ⟨_, rfl, .undo wait hp hc⟩
      · obtain rfl := Option.some.inj hs
        exact ⟨_, rfl, .other _ rfl⟩
  | undo wait =>
      simp only [semStep, hp, semTrywait] at hs
      obtain rfl := Option.some.inj hs
      exact ⟨_, SemState.busy_pc .., hbusy wait⟩

omit [Fintype T] in
/-- Whoever is at its compensating increment was there before, or its decrement
    has just failed. -/
theorem undo_from {s r : SemState T} {a : SemAct T} (hs : semStep s a = some r) {u : T}
    {wait : Bool} (hu : r.pc u = .undo wait) :
    starts s a u = false ∧ (s.pc u = .undo wait ∨ a = .go u ∧ s.pc u = .dec wait ∧ s.c ≤ 0) := by
  cases a with
  | call t f =>
      simp only [semStep, Option.ite_none_right_eq_some] at hs
      obtain ⟨-, hs⟩ := hs
      obtain rfl := Option.some.inj hs
      have hut : u ≠ t := by
        intro he
        change update s.pc t f.entry u = .undo wait at hu
        rw [he, Function.update_self] at hu
        cases f <;> cases hu
      change update s.pc t f.entry u = .undo wait at hu
      rw [Function.update_of_ne hut] at hu
      refine ⟨?_, .inl hu⟩
      cases f with
      | semWait => exact decide_eq_false hut
      | semTrywait => exact decide_eq_false hut
      | semPost => rfl
  | go t =>
      obtain ⟨p, hpc, hmoves⟩ := go_moves hs
      rw [hpc] at hu
      by_cases hut : u = t
      · -- its own step: only the failed decrement leads there
        subst hut
        rw [Function.update_self] at hu
        subst hu
        cases hmoves with
        | undo _ hdec hc => exact ⟨by simp [starts, hdec], .inr ⟨rfl, hdec, hc⟩⟩
        | other _ hp => cases hp
      · rw [Function.update_of_ne hut] at hu
        exact ⟨by simp [starts, hut], .inl hu⟩

theorem fair_step {v : ℤ} {w w' : Watched T} {a : SemAct T} (h : Fair v w)
    (hno : NoHiddenUnit w a) (hs : watchedStep v w a = some w') : Fair v w' := by
  simp only [watchedStep, Option.map_eq_some_iff] at hs
  obtain ⟨r, hr, rfl⟩ := hs
  refine ⟨semStep_accounted h.accounted hr, fun hz u => ?_, fun u wait hu => ?_, ?_⟩
  · have hz' : value v r = 0 := hz
    show (w.sawZero u && !starts w.sem a u || decide (value v r = 0)) = true
    rw [decide_eq_true hz', Bool.or_true]
  -- a decrement fails only where no unit is hidden, so it saw the value zero
  · obtain ⟨hstart, hfrom⟩ := undo_from hr hu
    have hsaw : w.sawZero u = true := by
      rcases hfrom with hold | ⟨rfl, hdec, hc⟩
      · exact h.undo u wait hold
      · simp only [NoHiddenUnit, hdec] at hno
        exact h.sawZero (hno hc) u
    show (w.sawZero u && !starts w.sem a u || decide (value v r = 0)) = true
    rw [hsaw, hstart]
    rfl
  · -- whoever is turned away now has seen the value zero
    have haway : ∀ t, turnedAway w.sem a = some t → w.sawZero t = true := by
      intro t ht
      cases a with
      | call x f => cases ht
      | go x =>
          cases hp : w.sem.pc x with
          | load wait =>
              simp only [turnedAway, hp, Option.ite_none_right_eq_some, Option.some.injEq] at ht
              obtain ⟨hc, rfl⟩ := ht
              simp only [NoHiddenUnit, hp] at hno
              exact h.sawZero (hno hc) x
          | undo wait =>
              simp only [turnedAway, hp, Option.some.injEq] at ht
              subst ht
              exact h.undo x wait hp
          | idle | dec | yield | post => simp [turnedAway, hp] at ht
    show (w.wrongBusy || match turnedAway w.sem a with
      | some t => !w.sawZero t
      | none => false) = false
    rw [h.busy]
    cases ht : turnedAway w.sem a with
    | none => rfl
    | some t =>
        show (false || !w.sawZero t) = false
        rw [haway t ht]
        rfl

theorem fair_start {v : ℤ} (hv : 0 ≤ v) {w : Watched T} (hw : (watched v).init w) : Fair v w := by
  obtain rfl : w = { sem := semInit v, sawZero := fun _ => decide (v = 0), wrongBusy := false } := hw
  refine ⟨(semaphore_keeps v hv).start _ rfl, fun hz u => ?_, fun u wait hu => ?_, rfl⟩
  · have hzero : v = 0 := by simpa [value, semInit] using hz
    exact decide_eq_true hzero
  · cases hu

theorem fair_keeps {v : ℤ} (hv : 0 ≤ v) : (watched (T := T) v).Keeps NoHiddenUnit (Fair v) where
  start _ := fair_start hv
  step _ _ _ h hno hs := fair_step h hno hs

/-! ## §3. One caller. -/

/-- A single caller is never at its compensating increment: `c` does not fall
    between its load and its decrement. -/
structure Steady (w : Watched T) : Prop where
  undo : ∀ u wait, w.sem.pc u ≠ .undo wait
  dec : ∀ u wait, w.sem.pc u = .dec wait → 0 < w.sem.c

omit [DecidableEq T] in
theorem Steady.noHiddenUnit {w : Watched T} (h : Steady w) (a : SemAct T) : NoHiddenUnit w a := by
  have hzero : inUndo w.sem = 0 := by
    refine (tally_eq_zero owes w.sem.pc).mpr fun u => ?_
    cases hp : w.sem.pc u with
    | undo wait => exact absurd hp (h.undo u wait)
    | _ => rfl
  cases a with
  | call t f => trivial
  | go t =>
      cases hp : w.sem.pc t with
      | load wait | dec wait =>
          simp only [NoHiddenUnit, hp]
          omega
      | idle | undo | yield | post => simp [NoHiddenUnit, hp]

omit [Fintype T] in
theorem steady_step [Subsingleton T] {v : ℤ} {w w' : Watched T} {a : SemAct T} (h : Steady w)
    (hs : watchedStep v w a = some w') : Steady w' := by
  simp only [watchedStep, Option.map_eq_some_iff] at hs
  obtain ⟨r, hr, rfl⟩ := hs
  refine ⟨fun u wait hu => ?_, fun u wait hu => ?_⟩
  -- the only caller decrements what it has just loaded
  · rcases (undo_from hr hu).2 with hold | ⟨-, hdec, hc⟩
    · exact h.undo u wait hold
    · have hpos := h.dec u wait hdec
      omega
  · have hu' : r.pc u = .dec wait := hu
    cases a with
    | call t f =>
        obtain rfl := Subsingleton.elim u t
        simp only [semStep, Option.ite_none_right_eq_some] at hr
        obtain ⟨-, hr⟩ := hr
        obtain rfl := Option.some.inj hr
        change update w.sem.pc u f.entry u = .dec wait at hu'
        rw [Function.update_self] at hu'
        cases f <;> cases hu'
    | go t =>
        obtain rfl := Subsingleton.elim u t
        obtain ⟨p, hpc, hmoves⟩ := go_moves hr
        rw [hpc, Function.update_self] at hu'
        subst hu'
        cases hmoves with
        | dec _ _ hpos hsame =>
            show 0 < r.c
            rw [hsame]
            exact hpos
        | other _ hp => cases hp

theorem linearizable_of_one [Subsingleton T] {v : ℤ} (hv : 0 ≤ v) {w : Watched T}
    (hr : (watched v).Reachable w) : Linearizable v w := by
  have hkeeps : (watched v).Keeps (fun _ _ => True) fun w : Watched T => Fair v w ∧ Steady w := by
    refine ⟨fun w hw => ⟨fair_start hv hw, ?_⟩, fun w a w' h _ hs => ⟨?_, steady_step h.2 hs⟩⟩
    · obtain rfl : w = { sem := semInit v, sawZero := fun _ => decide (v = 0), wrongBusy := false } := hw
      exact ⟨fun u wait hu => (by cases hu), fun u wait hu => (by cases hu)⟩
    · exact fair_step h.1 (h.2.noHiddenUnit a) hs
  exact (hkeeps.reachable hr).1.linearizable

/-! ## §4. Two callers. -/

section Hidden

omit [Fintype T]

/-- A caller takes a unit undisturbed. -/
theorem take_run (v : ℤ) {s : SemState T} {u : T} (hidle : s.pc u = .idle) (hc : 0 < s.c) :
    (semaphore v).run s [.call u .semTrywait, .go u, .go u] = some { s with
      c := s.c - 1
      waits := s.waits + 1
      pc := update s.pc u .idle
      ret := update s.ret u 0 } := by
  have hpos : ¬s.c ≤ 0 := by omega
  simp [Machine.run, semaphore, semStep, semTrywait, SemCall.entry, SemState.goto,
    SemState.return_, hidle, hpos]

/-- The units can be taken until one is left. -/
theorem one_left (v : ℤ) (u : T) {n : ℕ} {s : SemState T} (hidle : ∀ x, s.pc x = .idle)
    (hc : s.c = n + 1) :
    ∃ as s', (semaphore v).run s as = some s' ∧ s'.c = 1 ∧ value v s' = value v s - n
      ∧ ∀ x, s'.pc x = .idle := by
  induction n generalizing s with
  | zero => exact ⟨[], s, rfl, by omega, by omega, hidle⟩
  -- induction on the units above the last one; `u` takes one
  | succ n ih =>
      have htake := take_run v (hidle u) (show 0 < s.c by omega)
      obtain ⟨as, s', hrun, hc', hval, hidle'⟩ := ih (s := { s with
        c := s.c - 1
        waits := s.waits + 1
        pc := update s.pc u .idle
        ret := update s.ret u 0 })
        (fun x => by
          by_cases hx : x = u
          · rw [hx]
            exact Function.update_self ..
          · exact (Function.update_of_ne hx ..).trans (hidle x))
        (by
          show s.c - 1 = n + 1
          omega)
      refine ⟨_, s', Machine.run_append htake hrun, hc', ?_, hidle'⟩
      rw [hval]
      simp only [value]
      omega

/-- A caller `t` has seen the last unit; `u` takes it, t's decrement fails, and `u`
    puts a unit back: it is there, but `c` is 0. -/
theorem hide_run (v : ℤ) {s : SemState T} {t u : T} (hne : t ≠ u) (hidle : ∀ x, s.pc x = .idle)
    (hc : s.c = 1) :
    ∃ s', (semaphore v).run s [.call t .semTrywait, .go t, .call u .semTrywait, .go u, .go u, .go t,
        .call u .semPost, .go u] = some s'
      ∧ s'.c = 0 ∧ value v s' = value v s ∧ s'.pc u = .idle := by
  refine ⟨{ s with
    c := 0
    waits := s.waits + 1
    posts := s.posts + 1
    pc := update (update s.pc t (.undo false)) u .idle
    ret := update s.ret u 0 }, ?_, rfl, ?_, Function.update_self ..⟩
  · simp [Machine.run, semaphore, semStep, semTrywait, semPost, SemCall.entry, SemState.goto,
      SemState.return_, hidle, hc, hne.symm, Function.update_comm hne]
  · simp only [value]
    omega

/-- Whoever calls `sem_trywait` now is turned away. -/
theorem turned_away_run (v : ℤ) {w : Watched T} {u : T} (hidle : w.sem.pc u = .idle)
    (hc : w.sem.c = 0) (hval : value v w.sem = 1) :
    ∃ w', (watched v).run w [.call u .semTrywait, .go u] = some w' ∧ w'.wrongBusy = true := by
  have hcall : semStep w.sem (.call u .semTrywait) = some (w.sem.goto u (.load false)) :=
    if_pos hidle
  obtain ⟨r, hload⟩ : ∃ r, semStep (w.sem.goto u (.load false)) (.go u) = some r := by
    simp [semStep, SemState.goto, semTrywait, hc]
  have hne : value v (w.sem.goto u (.load false)) ≠ 0 := by
    show value v w.sem ≠ 0
    omega
  have haway : turnedAway (w.sem.goto u (.load false)) (.go u) = some u := by
    simp [turnedAway, SemState.goto, hc]
  have hsaw : (note v w (.call u .semTrywait) (w.sem.goto u (.load false))).sawZero u = false := by
    show (w.sawZero u && !decide (u = u) || decide (value v (w.sem.goto u (.load false)) = 0)) = false
    rw [decide_eq_true rfl, decide_eq_false hne, Bool.not_true, Bool.and_false]
    rfl
  refine ⟨note v (note v w (.call u .semTrywait) (w.sem.goto u (.load false))) (.go u) r, ?_, ?_⟩
  · simp [Machine.run, watched, watchedStep, hcall, note, hload]
  · unfold note
    simp only [haway]
    show (_ || !(note v w (.call u .semTrywait) (w.sem.goto u (.load false))).sawZero u) = true
    rw [hsaw]
    exact Bool.or_true _

/-- With two callers a unit can be hidden, whatever the initial value. -/
theorem hidden_unit {v : ℤ} (hv : 0 ≤ v) {t u : T} (hne : t ≠ u) :
    ∃ w : Watched T, (watched v).Reachable w ∧ w.wrongBusy = true := by
  -- at least one unit: from 0 on somebody posts first
  have hfirst : ∃ (as : List (SemAct T)) (s : SemState T),
      (semaphore v).run (semInit v) as = some s ∧ (∀ x, s.pc x = .idle)
      ∧ 1 ≤ s.c ∧ value v s = s.c := by
    by_cases hzero : v = 0
    · refine ⟨[.call u .semPost, .go u], { (semInit v : SemState T) with
        c := 1, posts := 1, ret := update (fun _ => 0) u 0 }, ?_, fun _ => rfl, le_refl _, ?_⟩
      · simp [Machine.run, semaphore, semStep, semPost, SemCall.entry, SemState.goto,
          SemState.return_, semInit, hzero]
      · simp [value, semInit, hzero]
    · refine ⟨[], semInit v, rfl, fun _ => rfl, ?_, ?_⟩
      · show 1 ≤ v
        omega
      · simp [value, semInit]
  obtain ⟨as₀, s₀, hrun₀, hidle₀, hpos, hval₀⟩ := hfirst
  obtain ⟨n, hn⟩ : ∃ n : ℕ, s₀.c = n + 1 := ⟨(s₀.c - 1).toNat, by omega⟩
  obtain ⟨as₁, s₁, hrun₁, hc₁, hval₁, hidle₁⟩ := one_left v u hidle₀ hn
  obtain ⟨s₂, hrun₂, hc₂, hval₂, hidle₂⟩ := hide_run v hne hidle₁ hc₁
  have hall := Machine.run_append hrun₀ (Machine.run_append hrun₁ hrun₂)
  obtain ⟨w, hw, hsem⟩ := watched_sem (v := v)
    (w := { sem := semInit v, sawZero := fun _ => decide (v = 0), wrongBusy := false }) hall
  obtain ⟨w', hw', hbusy⟩ := turned_away_run v (w := w) (u := u) (by rw [hsem, hidle₂])
    (by rw [hsem, hc₂]) (by rw [hsem]; omega)
  exact ⟨w', Machine.Reachable.after rfl _ (Machine.run_append hw hw'), hbusy⟩

end Hidden

/-! ## §5. The exact condition. -/

/-- **sem_trywait fails only when the semaphore is empty** iff there are fewer than
    two callers; with more it still does in every run in which no load and no
    decrement finds a hidden unit. -/
theorem trywait_iff {v : ℤ} (hv : 0 ≤ v) :
    ((∀ w : Watched T, (watched v).Reachable w → Linearizable v w) ↔ Subsingleton T)
      ∧ ∀ w : Watched T, (watched v).ReachableVia NoHiddenUnit w → Linearizable v w := by
  refine ⟨⟨fun hall => ⟨fun t u => ?_⟩, fun hone w hr => linearizable_of_one hv hr⟩, fun w hr => ?_⟩
  · by_contra hne
    obtain ⟨w, hr, hbusy⟩ := hidden_unit hv hne
    have hfair := (hall w hr).busy
    rw [hbusy] at hfair
    cases hfair
  · exact ((fair_keeps hv).reachable hr).linearizable

/-- The start with `v` units. -/
def watchedInit (v : ℤ) : Watched T :=
  { sem := semInit v, sawZero := fun _ => decide (v = 0), wrongBusy := false }

/-- Caller 0 is turned away when caller 1 has the unit, and gets it after a post. -/
def calmActs : List (SemAct (Fin 2)) :=
  [.call 1 .semTrywait, .go 1, .go 1, .call 0 .semTrywait, .go 0, .call 1 .semPost, .go 1,
    .call 0 .semWait, .go 0, .go 0]

/-- No unit is hidden, executable. -/
def noHiddenUnit (w : Watched (Fin 2)) : SemAct (Fin 2) → Bool
  | .call _ _ => true
  | .go t =>
      match w.sem.pc t with
      | .load _ | .dec _ => decide (w.sem.c ≤ 0 → w.sem.c + inUndo w.sem ≤ 0)
      | _ => true

theorem noHiddenUnit_sound (w : Watched (Fin 2)) (a : SemAct (Fin 2))
    (h : noHiddenUnit w a = true) : NoHiddenUnit w a := by
  cases a with
  | call t f => trivial
  | go t =>
      cases hp : w.sem.pc t with
      | load wait | dec wait =>
          simp only [noHiddenUnit, hp] at h
          simp only [NoHiddenUnit, hp]
          exact of_decide_eq_true h
      | idle | undo | yield | post => simp [NoHiddenUnit, hp]

theorem trywait_iff_calm :
    ∃ w, (watched 1).run (watchedInit 1) calmActs = some w ∧ w.sem.ret 0 = 0 ∧ w.sem.waits = 2
      ∧ Linearizable 1 w :=
  ⟨_, rfl, rfl, rfl, (trywait_iff (by decide)).2 _
    (.run noHiddenUnit_sound (.start rfl) calmActs rfl rfl)⟩

/-- Caller 0 loads 1, caller 1 takes the unit, caller 0's decrement fails, caller 1
    puts the unit back and asks for it. -/
def hiddenActs : List (SemAct (Fin 2)) :=
  [.call 0 .semTrywait, .go 0, .call 1 .semTrywait, .go 1, .go 1, .go 0, .call 1 .semPost, .go 1,
    .call 1 .semTrywait, .go 1]

/-- Caller 1 is turned away although the value was 1 all through its call. -/
theorem turned_away_wrongly :
    ∃ w, (watched 1).run (watchedInit 1) hiddenActs = some w ∧ w.sem.ret 1 = ebusy
      ∧ value 1 w.sem = 1 ∧ w.sem.c = 0 ∧ ¬Linearizable 1 w := by
  refine ⟨_, rfl, rfl, rfl, rfl, fun h => ?_⟩
  have hbusy := h.busy
  cases hbusy

end HThread.Semaphore
