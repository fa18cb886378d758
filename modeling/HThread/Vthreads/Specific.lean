/-
  HThread.Vthreads.Specific — thread-specific data of the vthreads, strategy.h:799.

  `pthread_setspecific` and `pthread_getspecific` keep a vthread's values in the
  map `vtls` of its slot, by key number.  `vthread::init` clears the map when
  the slot is initialised again; the key numbers are handed out by libc's own
  `pthread_key_create`, which knows nothing of the maps.

  The slots and their numbering are the table of HThread.Vthreads.Identity.

  Key lemma:
    * `delivers_step` — after one event every value is still right iff the
      event finds nothing old in its way.
  Main result:
    * `delivers_iff_clean` — in a run every `pthread_getspecific` gives what was
      last set iff all its events are clean.
-/
import HThread.Vthreads.Identity

namespace HThread.Specific

open Interleave HThread.Identity
open Function (update)

/-! ## §1. The code. -/

/-- Who calls: the vthread of creation `u`, or a raw thread, for which
    `raw_pthread_getspecific(cur_hcoroutine)` is null. -/
inductive Caller (R : Type*) where
  | vth (u : ℕ)
  | raw (r : R)
  deriving DecidableEq, Repr

/-- libc's own thread-specific data (`pwarpper::raw_…`), which serves the raw threads. -/
structure Libc (L R K : Type*) where
  getspecific : L → R → K → ℕ
  setspecific : L → R → K → ℕ → L
  keyCreate : L → K → L
  keyDelete : L → K → L

/-- One event.  A creation is named by its number; `keyCreate k` is a
    `pthread_key_create` that hands out the number `k`. -/
inductive Event (R K : Type*) where
  | create (u : ℕ)
  | finish (u : ℕ)
  | keyCreate (k : K)
  | keyDelete (k : K)
  | get (c : Caller R) (k : K)
  | set (c : Caller R) (k : K) (x : ℕ)
  deriving DecidableEq, Repr

/-- The table of slots, the map `vtls` of each slot (`none`: no entry), libc's
    data and the keys it has handed out.  History: `log` has the events so far,
    the latest first. -/
structure Tls (L R K : Type*) extends Table where
  vtls : ℕ → K → Option ℕ
  keys : K → Bool
  libc : L
  log : List (Event R K)

variable {L R K : Type*} [DecidableEq K]

/-- `m[key]` on an `unordered_map`: a missing entry is made, with a null value. -/
def subscript (m : K → Option ℕ) (key : K) : K → Option ℕ :=
  update m key (some ((m key).getD 0))

/-- strategy.h:799, `pthread_getspecific`: the value and the state after. -/
def pthreadGetspecific (lib : Libc L R K) (s : Tls L R K) : Caller R → K → ℕ × Tls L R K
  | .vth u, key =>
      let m := subscript (s.vtls (s.idOf u)) key
      ((m key).getD 0, { s with vtls := update s.vtls (s.idOf u) m })
  | .raw r, key => (lib.getspecific s.libc r key, s)

/-- strategy.h:809, `pthread_setspecific`. -/
def pthreadSetspecific (lib : Libc L R K) (s : Tls L R K) : Caller R → K → ℕ → Tls L R K
  | .vth u, key, value =>
      { s with vtls := update s.vtls (s.idOf u) (update (s.vtls (s.idOf u)) key (some value)) }
  | .raw r, key, value => { s with libc := lib.setspecific s.libc r key value }

/-- `pthread_create`: `add_vthread` picks the slot, `vthread::init` clears its
    map (vthread.hpp:158). -/
def pthreadCreate (s : Tls L R K) : Tls L R K :=
  let curVid := s.vid % 2 ^ 32 % maxVthreads
  { s with toTable := addVthread s.toTable, vtls := update s.vtls curVid fun _ => none }

/-- Only vthreads that exist make calls. -/
def Caller.running (s : Tls L R K) : Caller R → Bool
  | .vth u => decide (u < s.creations) && !s.finished u
  | .raw _ => true

/-- The effect of an event; libc hands out only key numbers that are free. -/
def happen (lib : Libc L R K) (s : Tls L R K) : Event R K → Option (Tls L R K)
  | .create u => if u = s.creations then some (pthreadCreate s) else none
  | .finish u =>
      if u < s.creations ∧ s.finished u = false then
        some { s with toTable := finishVthread s.toTable u }
      else none
  | .keyCreate k =>
      if s.keys k = false then
        some { s with keys := update s.keys k true, libc := lib.keyCreate s.libc k }
      else none
  | .keyDelete k =>
      if s.keys k = true then
        some { s with keys := update s.keys k false, libc := lib.keyDelete s.libc k }
      else none
  | .get c k => if c.running s then some (pthreadGetspecific lib s c k).2 else none
  | .set c k x => if c.running s then some (pthreadSetspecific lib s c k x) else none

def tlsStep (lib : Libc L R K) (s : Tls L R K) (a : Event R K) : Option (Tls L R K) :=
  (happen lib s a).map fun s' => { s' with log := a :: s'.log }

/-- The life of the maps: nothing created and every map empty at the start, any
    keys handed out already. -/
def specific (lib : Libc L R K) : Machine (Tls L R K) (Event R K) where
  init s := s.toTable = emptyTable ∧ (∀ i k, s.vtls i k = none) ∧ s.log = []
  step := tlsStep lib

/-! ## §2. What the values should be. -/

/-- Read backwards, the log tells what vthread `u` should find under `k`: what it
    last set there itself, or null from its own creation, or the key's, on. -/
def lastSet : List (Event R K) → ℕ → K → ℕ
  | [], _, _ => 0
  | .create v :: log, u, k => if v = u then 0 else lastSet log u k
  | .keyCreate j :: log, u, k => if j = k then 0 else lastSet log u k
  | .set (.vth v) j x :: log, u, k => if v = u ∧ j = k then x else lastSet log u k
  | .set (.raw _) _ _ :: log, u, k => lastSet log u k
  | .finish _ :: log, u, k => lastSet log u k
  | .keyDelete _ :: log, u, k => lastSet log u k
  | .get _ _ :: log, u, k => lastSet log u k

/-- Whatever a running vthread asks for now, it gets what it last set. -/
def Delivers (lib : Libc L R K) (s : Tls L R K) : Prop :=
  ∀ u, Live s.toTable u → ∀ k, (pthreadGetspecific lib s (.vth u) k).1 = lastSet s.log u k

/-- The value that lies in the map of u's slot. -/
def Tls.value (s : Tls L R K) (u : ℕ) (k : K) : ℕ := (s.vtls (s.idOf u) k).getD 0

/-- The event finds nothing old in its way: a new key no value of a running
    vthread, a creation no value of a running vthread in its slot, a set no
    other vthread in its slot that has something else there. -/
def Clean (s : Tls L R K) : Event R K → Prop
  | .create _ => ∀ v, Live s.toTable v → s.idOf v = s.vid % 2 ^ 32 % maxVthreads →
      ∀ k, s.value v k = 0
  | .keyCreate k => ∀ v, Live s.toTable v → s.value v k = 0
  | .set (.vth u) k x => ∀ v, Live s.toTable v → v ≠ u → s.idOf v = s.idOf u → s.value v k = x
  | .set (.raw _) _ _ => True
  | .finish _ => True
  | .keyDelete _ => True
  | .get _ _ => True

/-! ## §3. One event. -/

theorem getspecific_value (lib : Libc L R K) (s : Tls L R K) (u : ℕ) (k : K) :
    (pthreadGetspecific lib s (.vth u) k).1 = s.value u k := by
  show (subscript (s.vtls (s.idOf u)) k k).getD 0 = (s.vtls (s.idOf u) k).getD 0
  unfold subscript
  rw [Function.update_self, Option.getD_some]

theorem delivers_iff {lib : Libc L R K} {s : Tls L R K} :
    Delivers lib s ↔ ∀ u, Live s.toTable u → ∀ k, s.value u k = lastSet s.log u k := by
  unfold Delivers
  simp only [getspecific_value]

/-- Looking a value up changes no value. -/
theorem value_get (lib : Libc L R K) (s : Tls L R K) (c : Caller R) (j : K) (u : ℕ) (k : K) :
    (pthreadGetspecific lib s c j).2.value u k = s.value u k := by
  cases c with
  | raw r => rfl
  | vth v =>
      show (update s.vtls (s.idOf v) (subscript (s.vtls (s.idOf v)) j) (s.idOf u) k).getD 0
        = (s.vtls (s.idOf u) k).getD 0
      by_cases hslot : s.idOf u = s.idOf v
      · rw [hslot, Function.update_self]
        unfold subscript
        by_cases hk : k = j
        · rw [hk, Function.update_self, Option.getD_some]
        · rw [Function.update_of_ne hk]
      · rw [Function.update_of_ne hslot]

/-- A set changes the value of everyone in the caller's slot. -/
theorem value_set (lib : Libc L R K) (s : Tls L R K) (v : ℕ) (j : K) (x u : ℕ) (k : K) :
    (pthreadSetspecific lib s (.vth v) j x).value u k
      = if s.idOf u = s.idOf v ∧ k = j then x else s.value u k := by
  show (update s.vtls (s.idOf v) (update (s.vtls (s.idOf v)) j (some x)) (s.idOf u) k).getD 0 = _
  by_cases hslot : s.idOf u = s.idOf v
  · rw [hslot, Function.update_self]
    by_cases hk : k = j
    · rw [hk, Function.update_self, if_pos ⟨rfl, rfl⟩, Option.getD_some]
    · rw [Function.update_of_ne hk, if_neg fun h => hk h.2]
      show _ = (s.vtls (s.idOf u) k).getD 0
      rw [hslot]
  · rw [Function.update_of_ne hslot, if_neg fun h => hslot h.1]
    rfl

omit [DecidableEq K] in
/-- A creation clears the values of everyone whose slot it takes. -/
theorem value_create (s : Tls L R K) {u : ℕ} (hu : u < s.creations) (k : K) :
    (pthreadCreate s).value u k
      = if s.idOf u = s.vid % 2 ^ 32 % maxVthreads then 0 else s.value u k := by
  show (update s.vtls (s.vid % 2 ^ 32 % maxVthreads) (fun _ => none)
    (update s.idOf s.creations (s.vid % 2 ^ 32 % maxVthreads) u) k).getD 0 = _
  rw [Function.update_of_ne (show u ≠ s.creations by omega)]
  by_cases hslot : s.idOf u = s.vid % 2 ^ 32 % maxVthreads
  · rw [hslot, Function.update_self, if_pos rfl]
    rfl
  · rw [Function.update_of_ne hslot, if_neg hslot]
    rfl

omit [DecidableEq K] in
/-- The new vthread itself finds its map empty. -/
theorem value_create_new (s : Tls L R K) (k : K) : (pthreadCreate s).value s.creations k = 0 := by
  show (update s.vtls (s.vid % 2 ^ 32 % maxVthreads) (fun _ => none)
    (update s.idOf s.creations (s.vid % 2 ^ 32 % maxVthreads) s.creations) k).getD 0 = 0
  rw [Function.update_self, Function.update_self]
  rfl

/-- A new vthread is to find nothing, and the others what they had. -/
theorem create_delivers {lib : Libc L R K} {s : Tls L R K} (h : Delivers lib s) :
    Delivers lib { pthreadCreate s with log := .create s.creations :: (pthreadCreate s).log } ↔
      Clean s (.create s.creations) := by
  rw [delivers_iff] at h ⊢
  constructor
  · intro hP v hv hslot k
    have hlt : v < s.creations := hv.1
    have hlog : (pthreadCreate s).value v k = if s.creations = v then 0 else lastSet s.log v k :=
      hP v ⟨Nat.lt_succ_of_lt hlt, hv.2⟩ k
    rw [value_create s hlt, if_pos hslot, if_neg (show s.creations ≠ v by omega)] at hlog
    rw [h v hv, ← hlog]
  · intro hclean v hv k
    have hlt : v < s.creations + 1 := hv.1
    show (pthreadCreate s).value v k = if s.creations = v then 0 else lastSet s.log v k
    by_cases hnew : s.creations = v
    · rw [if_pos hnew, ← hnew, value_create_new]
    · have hold : Live s.toTable v := ⟨by omega, hv.2⟩
      rw [if_neg hnew, value_create s hold.1, ← h v hold]
      -- an older vthread in the slot loses what it had
      by_cases hslot : s.idOf v = s.vid % 2 ^ 32 % maxVthreads
      · rw [if_pos hslot, hclean v hold hslot]
      · rw [if_neg hslot]

/-- Under a new key everybody is to find nothing. -/
theorem keyCreate_delivers {lib : Libc L R K} {s : Tls L R K} {j : K} {l : L}
    (h : Delivers lib s) :
    Delivers lib { s with
      keys := update s.keys j true, libc := l, log := .keyCreate j :: s.log } ↔
      Clean s (.keyCreate j) := by
  rw [delivers_iff] at h ⊢
  constructor
  · intro hP v hv
    have hlog : s.value v j = if j = j then 0 else lastSet s.log v j := hP v hv j
    rw [hlog, if_pos rfl]
  · intro hclean v hv k
    show s.value v k = if j = k then 0 else lastSet s.log v k
    by_cases hk : j = k
    · rw [if_pos hk, ← hk, hclean v hv]
    · rw [if_neg hk, h v hv]

/-- A set is to change the value of the caller only. -/
theorem set_delivers {lib : Libc L R K} {s : Tls L R K} {u : ℕ} {j : K} {x : ℕ}
    (h : Delivers lib s) :
    Delivers lib { pthreadSetspecific lib s (.vth u) j x with
      log := .set (.vth u) j x :: (pthreadSetspecific lib s (.vth u) j x).log } ↔
      Clean s (.set (.vth u) j x) := by
  rw [delivers_iff] at h ⊢
  constructor
  · intro hP v hv hne hslot
    have hlog : (pthreadSetspecific lib s (.vth u) j x).value v j
        = if u = v ∧ j = j then x else lastSet s.log v j := hP v hv j
    rw [value_set, if_pos ⟨hslot, rfl⟩, if_neg fun e => hne e.1.symm] at hlog
    rw [h v hv, hlog]
  · intro hclean v hv k
    show (pthreadSetspecific lib s (.vth u) j x).value v k
      = if u = v ∧ j = k then x else lastSet s.log v k
    rw [value_set, ← h v hv]
    by_cases hk : k = j
    · by_cases hv' : v = u
      · rw [if_pos ⟨by rw [hv'], hk⟩, if_pos ⟨hv'.symm, hk.symm⟩]
      · rw [if_neg (show ¬(u = v ∧ j = k) from fun e => hv' e.1.symm)]
        -- another vthread, in the caller's slot or in its own
        split
        · next hsame => rw [hk, hclean v hv hv' hsame.1]
        · rfl
    · rw [if_neg fun e => hk e.2, if_neg fun e => hk e.2.symm]

/-- **One event.**  When every value is right before, every value is right after
    iff the event is clean. -/
theorem delivers_step {lib : Libc L R K} {s s' : Tls L R K} {a : Event R K}
    (h : Delivers lib s) (hs : (specific lib).step s a = some s') :
    Delivers lib s' ↔ Clean s a := by
  simp only [specific, tlsStep, Option.map_eq_some_iff] at hs
  obtain ⟨r, hr, rfl⟩ := hs
  cases a with
  | create u =>
      simp only [happen, Option.ite_none_right_eq_some] at hr
      obtain ⟨rfl, hr⟩ := hr
      obtain rfl := Option.some.inj hr
      exact create_delivers h
  | finish u =>
      simp only [happen, Option.ite_none_right_eq_some] at hr
      obtain ⟨hu, hr⟩ := hr
      obtain rfl := Option.some.inj hr
      refine iff_of_true (fun v hv k => ?_) trivial
      -- whoever runs afterwards ran before
      have hfin : update s.finished u true v = false := hv.2
      have hne : v ≠ u := by
        intro he
        rw [he, Function.update_self] at hfin
        cases hfin
      rw [Function.update_of_ne hne] at hfin
      exact h v ⟨hv.1, hfin⟩ k
  | keyCreate j =>
      simp only [happen, Option.ite_none_right_eq_some] at hr
      obtain ⟨-, hr⟩ := hr
      obtain rfl := Option.some.inj hr
      exact keyCreate_delivers (s := s) h
  | keyDelete j =>
      simp only [happen, Option.ite_none_right_eq_some] at hr
      obtain ⟨-, hr⟩ := hr
      obtain rfl := Option.some.inj hr
      exact iff_of_true h trivial
  | get c j =>
      simp only [happen, Option.ite_none_right_eq_some] at hr
      obtain ⟨-, hr⟩ := hr
      obtain rfl := Option.some.inj hr
      rw [delivers_iff] at h ⊢
      refine iff_of_true (fun v hv k => ?_) trivial
      show (pthreadGetspecific lib s c j).2.value v k = lastSet (pthreadGetspecific lib s c j).2.log v k
      rw [value_get]
      cases c <;> exact h v hv k
  | set c j x =>
      simp only [happen, Option.ite_none_right_eq_some] at hr
      obtain ⟨-, hr⟩ := hr
      obtain rfl := Option.some.inj hr
      cases c with
      -- libc's data are its own
      | raw r => exact iff_of_true h trivial
      | vth u => exact set_delivers h

/-! ## §4. Runs. -/

theorem delivers_start {lib : Libc L R K} {s : Tls L R K} (hs : (specific lib).init s) :
    Delivers lib s := by
  rw [delivers_iff]
  intro u _ k
  unfold Tls.value
  rw [hs.2.1, hs.2.2]
  rfl

theorem specific_keeps (lib : Libc L R K) : (specific lib).Keeps Clean (Delivers lib) where
  start _ := delivers_start
  step _ _ _ h hok hs := (delivers_step h hs).mpr hok

/-- **Thread-specific data.**  Throughout a run every running vthread finds under
    every key what it last set there since its own and the key's creation, iff
    all events of the run are clean. -/
theorem delivers_iff_clean (lib : Libc L R K) {s t : Tls L R K} {as : List (Event R K)}
    (hs : (specific lib).init s) (hrun : (specific lib).run s as = some t) :
    (specific lib).Always (Delivers lib) s as ↔ (specific lib).StepsMeet Clean s as :=
  Machine.always_iff_stepsMeet (specific_keeps lib) (fun _ h => h)
    (fun _ _ _ h hno hs' hP => hno ((delivers_step h hs').mp hP)) hs hrun

/-- A libc with one raw thread, whose values a new key resets. -/
def oneRaw : Libc (ℕ → ℕ) Unit ℕ where
  getspecific l _ k := l k
  setspecific l _ k x := update l k x
  keyCreate l k := update l k 0
  keyDelete l _ := l

/-- The start: no vthread, no key. -/
def blank : Tls (ℕ → ℕ) Unit ℕ :=
  { emptyTable with vtls := fun _ _ => none, keys := fun _ => false, libc := fun _ => 0, log := [] }

/-- Vthread 0 resets its value before the key number 5 is handed out again. -/
def tidyActs : List (Event Unit ℕ) :=
  [.create 0, .keyCreate 5, .set (.vth 0) 5 7, .get (.vth 0) 5, .set (.vth 0) 5 0, .keyDelete 5,
    .keyCreate 5, .get (.vth 0) 5, .finish 0, .create 1, .set (.vth 1) 5 8]

theorem delivers_iff_clean_tidy :
    ∃ t, (specific oneRaw).run blank tidyActs = some t
      ∧ ((specific oneRaw).Always (Delivers oneRaw) blank tidyActs ↔
          (specific oneRaw).StepsMeet Clean blank tidyActs) :=
  ⟨_, rfl, delivers_iff_clean oneRaw (t := _) ⟨rfl, fun _ _ => rfl, rfl⟩ rfl⟩

/-- The key number 5 is deleted and handed out again while vthread 0 still has a
    value under it. -/
def recycledKey : List (Event Unit ℕ) :=
  [.create 0, .keyCreate 5, .set (.vth 0) 5 7, .keyDelete 5, .keyCreate 5]

/-- Under the new key vthread 0 finds the value of the old one. -/
theorem stale_value :
    ∃ t, (specific oneRaw).run blank recycledKey = some t ∧ Live t.toTable 0
      ∧ (pthreadGetspecific oneRaw t (.vth 0) 5).1 = 7 ∧ lastSet t.log 0 5 = 0
      ∧ ¬ (specific oneRaw).Always (Delivers oneRaw) blank recycledKey := by
  refine ⟨_, rfl, ⟨by decide, rfl⟩, rfl, rfl, fun hA => ?_⟩
  have hP := hA.last (t := _) rfl
  have hget : (7 : ℕ) = 0 := hP 0 ⟨by decide, rfl⟩ 5
  cases hget

end HThread.Specific
