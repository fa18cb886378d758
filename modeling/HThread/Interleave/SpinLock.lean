/-
  HThread.Interleave.SpinLock — test-and-set locks and the data behind them.

  `locks p l` says that an agent at program point `p` has lock `l`.  While
  nobody has it the data of `l` meets `free l`; the agent that has it sees the
  data as `held p l` describes, point by point.  Nobody else touches the data.

  Key lemmas:
    * `Guarded.move`, `acquire`, `release` — one rule for each kind of step.
-/
import Mathlib.Logic.Function.Basic

namespace Interleave

open Function (update)

variable {A P L : Type*}

/-- At most one agent has a lock, its word is set then, and the data meets
    `held` for the agent that has the lock and `free` if nobody has it. -/
structure Guarded (locks : P → L → Prop) (free : L → Prop) (held : P → L → Prop) (pc : A → P)
    (c : L → Bool) : Prop where
  unique : ∀ l a a', locks (pc a) l → locks (pc a') l → a = a'
  taken : ∀ l a, locks (pc a) l → c l = true
  inside : ∀ l a, locks (pc a) l → held (pc a) l
  outside : ∀ l, (∀ a, ¬locks (pc a) l) → free l

namespace Guarded

variable {locks : P → L → Prop} {free free' : L → Prop} {held held' : P → L → Prop} {pc : A → P}
  {c : L → Bool} {a : A} {p : P}

/-- A change that nobody needs to know about. -/
theorem mono (h : Guarded locks free held pc c) (hfree : ∀ l, free l → free' l)
    (hheld : ∀ l q, held q l → held' q l) : Guarded locks free' held' pc c where
  unique := h.unique
  taken := h.taken
  inside l x hx := hheld l (pc x) (h.inside l x hx)
  outside l hno := hfree l (h.outside l hno)

variable [DecidableEq A]

/-- A step that takes and gives back no lock: it may change the data behind the
    locks the agent has. -/
theorem move (h : Guarded locks free held pc c) (hl : ∀ l, locks p l ↔ locks (pc a) l)
    (hown : ∀ l, locks (pc a) l → held (pc a) l → held' p l)
    (hheld : ∀ l q, ¬locks (pc a) l → held q l → held' q l)
    (hfree : ∀ l, ¬locks (pc a) l → free l → free' l) :
    Guarded locks free' held' (update pc a p) c := by
  have hpc : ∀ l x, locks (update pc a p x) l ↔ locks (pc x) l := by
    intro l x
    by_cases hx : x = a
    · subst hx
      rw [Function.update_self]
      exact hl l
    · rw [Function.update_of_ne hx]
  refine ⟨fun l x y hx hy => h.unique l x y ((hpc l x).mp hx) ((hpc l y).mp hy),
    fun l x hx => h.taken l x ((hpc l x).mp hx), fun l x hx => ?_, fun l hno => ?_⟩
  · rw [hpc] at hx
    by_cases hxa : x = a
    · subst hxa
      rw [Function.update_self]
      exact hown l hx (h.inside l x hx)
    · rw [Function.update_of_ne hxa]
      exact hheld l (pc x) (fun ha => hxa (h.unique l x a hx ha)) (h.inside l x hx)
  · have hno' : ∀ x, ¬locks (pc x) l := fun x hx => hno x ((hpc l x).mpr hx)
    exact hfree l (hno' a) (h.outside l hno')

variable [DecidableEq L] {l : L}

/-- The test-and-set finds the lock free. -/
theorem acquire (h : Guarded locks free held pc c) (hc : c l = false)
    (hno : ∀ x, ¬locks (pc a) x) (hl : ∀ x, locks p x → x = l) (hin : free l → held p l) :
    Guarded locks free held (update pc a p) (update c l true) := by
  have hfree : ∀ x, ¬locks (pc x) l := by
    intro x hx
    have := h.taken l x hx
    rw [hc] at this
    cases this
  have hother : ∀ x y, x ≠ a → locks (update pc a p x) y → locks (pc x) y ∧ y ≠ l := by
    intro x y hx hxy
    rw [Function.update_of_ne hx] at hxy
    exact ⟨hxy, fun he => hfree x (he ▸ hxy)⟩
  have hself : ∀ y, locks (update pc a p a) y → y = l := by
    intro y hy
    rw [Function.update_self] at hy
    exact hl y hy
  refine ⟨fun y x x' hx hx' => ?_, fun y x hx => ?_, fun y x hx => ?_, fun y hnone => ?_⟩
  · by_cases hxa : x = a
    · subst hxa
      by_contra hne
      exact (hother x' y (Ne.symm hne) hx').2 (hself y hx)
    · by_cases hxa' : x' = a
      · subst hxa'
        exact absurd (hself y hx') (hother x y hxa hx).2
      · exact h.unique y x x' (hother x y hxa hx).1 (hother x' y hxa' hx').1
  · by_cases hyl : y = l
    · rw [hyl, Function.update_self]
    · rw [Function.update_of_ne hyl]
      have hxa : x ≠ a := fun he => hyl (hself y (he ▸ hx))
      exact h.taken y x (hother x y hxa hx).1
  · by_cases hxa : x = a
    · subst hxa
      obtain rfl := hself y hx
      rw [Function.update_self]
      exact hin (h.outside y hfree)
    · rw [Function.update_of_ne hxa]
      exact h.inside y x (hother x y hxa hx).1
  · refine h.outside y fun x hx => ?_
    have hxa : x ≠ a := fun he => hno y (he ▸ hx)
    refine hnone x ?_
    rw [Function.update_of_ne hxa]
    exact hx

/-- The agent gives its lock back. -/
theorem release (h : Guarded locks free held pc c) (ha : locks (pc a) l)
    (hl : ∀ x, locks (pc a) x → x = l) (hno : ∀ x, ¬locks p x) (hout : held (pc a) l → free l) :
    Guarded locks free held (update pc a p) (update c l false) := by
  have hother : ∀ x y, locks (update pc a p x) y → x ≠ a ∧ locks (pc x) y ∧ y ≠ l := by
    intro x y hx
    have hxa : x ≠ a := by
      rintro rfl
      rw [Function.update_self] at hx
      exact hno y hx
    rw [Function.update_of_ne hxa] at hx
    refine ⟨hxa, hx, ?_⟩
    rintro rfl
    exact hxa (h.unique y x a hx ha)
  refine ⟨fun y x x' hx hx' => h.unique y x x' (hother x y hx).2.1 (hother x' y hx').2.1,
    fun y x hx => ?_, fun y x hx => ?_, fun y hnone => ?_⟩
  · obtain ⟨-, hxy, hyl⟩ := hother x y hx
    rw [Function.update_of_ne hyl]
    exact h.taken y x hxy
  · obtain ⟨hxa, hxy, -⟩ := hother x y hx
    rw [Function.update_of_ne hxa]
    exact h.inside y x hxy
  · by_cases hyl : y = l
    · rw [hyl]
      exact hout (h.inside l a ha)
    · refine h.outside y fun x hx => ?_
      have hxa : x ≠ a := fun he => hyl (hl y (he ▸ hx))
      refine hnone x ?_
      rw [Function.update_of_ne hxa]
      exact hx

end Guarded

end Interleave
