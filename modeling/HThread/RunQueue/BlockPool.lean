/-
  HThread.RunQueue.BlockPool — a block is handed out to one sub-queue at a time.

  Where a block is follows from the threads' program points, but for three cases:
  it is in use, it is on the list, or it waits to be added by the last thread that
  looks at it.  The count in a block is the number of threads that look at it, and
  one more while it is on the list or on its way to it or from it.

  Key lemmas:
    * `PoolInv.raise`, `swap`, `drop`, … — one lemma for each access.
    * `blocks_keep`      — the places of the blocks, over whole runs.
  Main results:
    * `block_pool_exclusive` — the three sources of blocks are a pool.
    * `free_list_sound`      — what is on the list; no block is lost.
-/
import HThread.Interleave.Chain
import HThread.Interleave.Pool
import HThread.Interleave.Refinement
import HThread.Interleave.Tally
import HThread.Interleave.Words
import HThread.RunQueue.FreeList

namespace HThread.RunQueue

open Interleave
open Function (update)

/-! ## §1. Where a block is. -/

/-- What a thread is doing with the block in its hand. -/
inductive Stage where
  | adding
  | linking
  | linked
  | taken
  | given
  deriving DecidableEq, Repr

inductive Place (T : Type) where
  /-- Not handed out yet. -/
  | fresh
  | used
  /-- To be added by the thread that looks at it last. -/
  | pending
  | listed
  | hand (t : T) (g : Stage)
  deriving DecidableEq, Repr

/-- The block is marked. -/
def Place.waits {T : Type} : Place T → Bool
  | pending | hand _ .linking => true
  | _ => false

/-- What the list itself has in the block's count. -/
def Place.share {T : Type} : Place T → ℕ
  | listed | hand _ .linked | hand _ .taken => 1
  | _ => 0

/-- Fresh or in use: no matter of the list. -/
def Place.apart {T : Type} : Place T → Option Bool
  | fresh => some false
  | used => some true
  | _ => none

theorem apart_fresh {T : Type} {x : Place T} : x.apart = some false ↔ x = .fresh := by
  cases x <;> simp [Place.apart]

theorem apart_used {T : Type} {x : Place T} : x.apart = some true ↔ x = .used := by
  cases x <;> simp [Place.apart]

/-- The block in a thread's hand. -/
def FreePc.hand {N : Type} : FreePc N → Option (N × Stage)
  | add node => some (node, .adding)
  | addHead node _ | addNext node _ _ | addRefs node _ _ => some (node, .linking)
  | addSwap node _ _ | addAgain node _ _ => some (node, .linked)
  | settle head => some (head, .taken)
  | got (some node) => some (node, .given)
  | _ => none

/-- The block that a thread has raised the count of. -/
def FreePc.look {N : Type} : FreePc N → Option N
  | next head | swap head _ | settle head | drop head _ => some head
  | _ => none

/-- What a thread knows of the successors: they are what it has read or stored. -/
def FreePc.Ok {N : Type} (succ : N → Option N) : FreePc N → Prop
  | swap head read => succ head = read
  | addRefs node head _ | addSwap node head _ => succ node = head
  | _ => True

def PoolPc.hand : PoolPc → Option (BlockId × Stage)
  | list q => q.hand
  | got (some b) => some (b, .given)
  | _ => none

def PoolPc.look : PoolPc → Option BlockId
  | list q => q.look
  | _ => none

def PoolPc.Ok (succ : BlockId → Option BlockId) : PoolPc → Prop
  | list q => q.Ok succ
  | _ => True

theorem afterList_hand (q : FreePc BlockId) : (afterList q).hand = q.hand := by
  cases q with
  | got node => cases node <;> rfl
  | _ => rfl

theorem afterList_look (q : FreePc BlockId) : (afterList q).look = q.look := by
  cases q with
  | got node => cases node <;> rfl
  | _ => rfl

theorem afterList_ok {succ : BlockId → Option BlockId} {q : FreePc BlockId} (h : q.Ok succ) :
    (afterList q).Ok succ := by
  cases q with
  | got node => cases node <;> trivial
  | added => trivial
  | _ => exact h

theorem whileHead_hand {N : Type} (o : Option N) : (whileHead o).hand = none := by
  cases o <;> rfl

theorem whileHead_look {N : Type} (o : Option N) : (whileHead o).look = none := by
  cases o <;> rfl

theorem whileHead_ok {N : Type} {succ : N → Option N} (o : Option N) : (whileHead o).Ok succ := by
  cases o <;> trivial

theorem after_hand {N : Type} (x : AddThen N) : x.pc.hand = none := by
  cases x with
  | ret => rfl
  | loop o => exact whileHead_hand o

theorem after_look {N : Type} (x : AddThen N) : x.pc.look = none := by
  cases x with
  | ret => rfl
  | loop o => exact whileHead_look o

theorem after_ok {N : Type} {succ : N → Option N} (x : AddThen N) : x.pc.Ok succ := by
  cases x with
  | ret => trivial
  | loop o => exact whileHead_ok o

/-- One for a thread that looks at the block. -/
def lookAt (b : BlockId) (p : PoolPc) : ℕ := if p.look = some b then 1 else 0

def PoolPc.drawing : PoolPc → ℕ
  | poolAdd => 1
  | _ => 0

/-- Not handed out yet, or none of the blocks there are. -/
def BlockPool.Fresh (size : ℕ) (σ : BlockPool) : BlockId → Prop
  | .initial i => σ.initialBlockPoolIndex ≤ i ∨ size ≤ i
  | .created k => σ.made ≤ k

variable {T : Type} [Fintype T]

/-- The number of threads that look at the block. -/
def PoolState.looks (s : PoolState T) (b : BlockId) : ℕ := tally (lookAt b) s.pc

/-! ## §2. The invariant. -/

/-- The blocks of `l` are those on the list. -/
structure Listed (σ : FreeList BlockId) (l : List BlockId) (place : BlockId → Place T) : Prop where
  chain : Chain σ.freeListNext σ.freeListHead l
  nodup : l.Nodup
  mem : ∀ b, b ∈ l ↔ place b = .listed

/-- The counts. -/
structure Counted (refs : BlockId → BitVec 32) (looks : BlockId → ℕ) (place : BlockId → Place T) :
    Prop where
  refs : ∀ b, refs b = marked (place b).waits (looks b + (place b).share)
  pending : ∀ b, place b = .pending → 0 < looks b
  linking : ∀ b t, place b = .hand t .linking → looks b = 0

structure PoolInv (size : ℕ) (s : PoolState T) (l : List BlockId) (place : BlockId → Place T) :
    Prop where
  listed : Listed s.blocks.list l place
  hands : ∀ t b g, (s.pc t).hand = some (b, g) ↔ place b = .hand t g
  counts : Counted s.blocks.list.freeListRefs s.looks place
  points : ∀ t, (s.pc t).Ok s.blocks.list.freeListNext
  used : ∀ b, s.blocks.used b = true ↔ place b = .used
  fresh : ∀ b, place b = .fresh ↔ s.blocks.Fresh size b
  index : s.blocks.initialBlockPoolIndex + tally PoolPc.drawing s.pc ≤ size + Fintype.card T

theorem looks_le (s : PoolState T) (b : BlockId) : s.looks b ≤ Fintype.card T :=
  tally_le_card (fun p => by unfold lookAt; split <;> omega) s.pc

theorem looks_update [DecidableEq T] (s : PoolState T) (σ : BlockPool) (t : T) (p : PoolPc) (b : BlockId) :
    (⟨σ, update s.pc t p⟩ : PoolState T).looks b + lookAt b (s.pc t) = s.looks b + lookAt b p :=
  tally_update (lookAt b) s.pc t p

omit [Fintype T] in
theorem share_le (x : Place T) : x.share ≤ 1 := by
  cases x with
  | hand t g => cases g <;> simp [Place.share]
  | _ => simp [Place.share]

omit [Fintype T] in
/-- A block changes its place, together with the thread that has or had it. -/
theorem places_update [DecidableEq T] {pc : T → PoolPc} {place : BlockId → Place T} {t : T} {b : BlockId}
    {κ : Place T} {p : PoolPc} (h : ∀ u c g, (pc u).hand = some (c, g) ↔ place c = .hand u g)
    (hold : ∀ c g, (pc t).hand = some (c, g) → c = b) (hown : ∀ u g, place b = .hand u g → u = t)
    (hnew : ∀ c g, p.hand = some (c, g) ↔ c = b ∧ κ = .hand t g)
    (hκ : ∀ u g, κ = .hand u g → u = t) (u : T) (c : BlockId) (g : Stage) :
    (update pc t p u).hand = some (c, g) ↔ update place b κ c = .hand u g := by
  by_cases hu : u = t
  · subst hu
    rw [Function.update_self, hnew]
    by_cases hc : c = b
    · subst hc
      rw [Function.update_self]
      exact ⟨fun hcκ => hcκ.2, fun hcκ => ⟨rfl, hcκ⟩⟩
    · rw [Function.update_of_ne hc]
      exact ⟨fun hcκ => absurd hcκ.1 hc, fun hpl => absurd (hold c g ((h u c g).mpr hpl)) hc⟩
  · rw [Function.update_of_ne hu, h]
    by_cases hc : c = b
    · subst hc
      rw [Function.update_self]
      exact ⟨fun hpl => absurd (hown u g hpl) hu, fun hpl => absurd (hκ u g hpl) hu⟩
    · rw [Function.update_of_ne hc]

omit [Fintype T] in
/-- No block changes its place. -/
theorem places_same [DecidableEq T] {pc : T → PoolPc} {place : BlockId → Place T} {t : T} {p : PoolPc}
    (h : ∀ u c g, (pc u).hand = some (c, g) ↔ place c = .hand u g) (hp : p.hand = (pc t).hand)
    (u : T) (c : BlockId) (g : Stage) :
    (update pc t p u).hand = some (c, g) ↔ place c = .hand u g := by
  by_cases hu : u = t
  · subst hu
    rw [Function.update_self, hp]
    exact h u c g
  · rw [Function.update_of_ne hu]
    exact h u c g

omit [Fintype T] in
/-- The account of one block changes. -/
theorem Counted.change {refs refs' : BlockId → BitVec 32} {looks looks' : BlockId → ℕ}
    {place : BlockId → Place T} {b : BlockId} {κ : Place T} (h : Counted refs looks place)
    (hrefs : ∀ c, c ≠ b → refs' c = refs c) (hlooks : ∀ c, c ≠ b → looks' c = looks c)
    (hb : refs' b = marked κ.waits (looks' b + κ.share)) (hpending : κ = .pending → 0 < looks' b)
    (hlinking : ∀ t, κ = .hand t .linking → looks' b = 0) :
    Counted refs' looks' (update place b κ) where
  refs c := by
    by_cases hc : c = b
    · subst hc
      rw [Function.update_self]
      exact hb
    · rw [Function.update_of_ne hc, hrefs c hc, hlooks c hc]
      exact h.refs c
  pending c hpl := by
    by_cases hc : c = b
    · subst hc
      rw [Function.update_self] at hpl
      exact hpending hpl
    · rw [Function.update_of_ne hc] at hpl
      rw [hlooks c hc]
      exact h.pending c hpl
  linking c t hpl := by
    by_cases hc : c = b
    · subst hc
      rw [Function.update_self] at hpl
      exact hlinking t hpl
    · rw [Function.update_of_ne hc] at hpl
      rw [hlooks c hc]
      exact h.linking c t hpl

omit [Fintype T] in
/-- A block that is not on the list changes its place. -/
theorem Listed.change {σ : FreeList BlockId} {l : List BlockId} {place : BlockId → Place T}
    {b : BlockId} {κ : Place T} (h : Listed σ l place) (hb : place b ≠ .listed)
    (hκ : κ ≠ .listed) : Listed σ l (update place b κ) where
  chain := h.chain
  nodup := h.nodup
  mem c := by
    by_cases hc : c = b
    · subst hc
      rw [Function.update_self, h.mem]
      exact ⟨fun hl => absurd hl hb, fun hl => absurd hl hκ⟩
    · rw [Function.update_of_ne hc]
      exact h.mem c

/-! ## §3. The steps of the list. -/

variable [DecidableEq T] {size : ℕ} {s : PoolState T} {l l' : List BlockId}
  {place : BlockId → Place T} {t : T} {q q' : FreePc BlockId} {b c : BlockId} {κ : Place T}
  {σ : FreeList BlockId}

/-- Thread `t` has made a step in the code of the list. -/
def PoolState.move (s : PoolState T) (t : T) (σ : FreeList BlockId) (q : FreePc BlockId) :
    PoolState T :=
  ⟨{ s.blocks with list := σ }, update s.pc t (afterList q)⟩

theorem looks_same (hpc : s.pc t = .list q) (h : q'.look = some c ↔ q.look = some c) :
    (s.move t σ q').looks c = s.looks c := by
  have hupd := looks_update s { s.blocks with list := σ } t (afterList q') c
  have hlook : lookAt c (afterList q') = lookAt c (s.pc t) := by
    unfold lookAt
    rw [afterList_look, hpc]
    exact if_congr h rfl rfl
  show (⟨{ s.blocks with list := σ }, update s.pc t (afterList q')⟩ : PoolState T).looks c = _
  omega

theorem looks_up (hpc : s.pc t = .list q) (hold : q.look ≠ some c) (hnew : q'.look = some c) :
    (s.move t σ q').looks c = s.looks c + 1 := by
  have hupd := looks_update s { s.blocks with list := σ } t (afterList q') c
  have hlook : lookAt c (afterList q') = 1 := by
    unfold lookAt
    rw [afterList_look]
    exact if_pos hnew
  have hlook' : lookAt c (s.pc t) = 0 := by
    unfold lookAt
    rw [hpc]
    exact if_neg hold
  show (⟨{ s.blocks with list := σ }, update s.pc t (afterList q')⟩ : PoolState T).looks c = _
  omega

theorem looks_down (hpc : s.pc t = .list q) (hold : q.look = some c) (hnew : q'.look ≠ some c) :
    s.looks c = (s.move t σ q').looks c + 1 := by
  have hupd := looks_update s { s.blocks with list := σ } t (afterList q') c
  have hlook : lookAt c (afterList q') = 0 := by
    unfold lookAt
    rw [afterList_look]
    exact if_neg hnew
  have hlook' : lookAt c (s.pc t) = 1 := by
    unfold lookAt
    rw [hpc]
    exact if_pos hold
  show _ = (⟨{ s.blocks with list := σ }, update s.pc t (afterList q')⟩ : PoolState T).looks c + 1
  omega

/-- The rule for a step of the list, about block `b`. -/
theorem PoolInv.move (h : PoolInv size s l place) (hpc : s.pc t = .list q)
    (hlisted : Listed σ l' (update place b κ))
    (hhands : ∀ u c g, (update s.pc t (afterList q') u).hand = some (c, g) ↔
      update place b κ c = .hand u g)
    (hcounts : Counted σ.freeListRefs (s.move t σ q').looks (update place b κ))
    (hothers : ∀ u, u ≠ t → (s.pc u).Ok σ.freeListNext) (hok : q'.Ok σ.freeListNext)
    (hapart : κ.apart = (place b).apart) :
    PoolInv size (s.move t σ q') l' (update place b κ) where
  listed := hlisted
  hands := hhands
  counts := hcounts
  points u := by
    by_cases hu : u = t
    · subst hu
      show (update s.pc u (afterList q') u).Ok _
      rw [Function.update_self]
      exact afterList_ok hok
    · show (update s.pc t (afterList q') u).Ok _
      rw [Function.update_of_ne hu]
      exact hothers u hu
  used c := by
    show s.blocks.used c = true ↔ _
    by_cases hc : c = b
    · subst hc
      rw [Function.update_self, ← apart_used, hapart, apart_used]
      exact h.used c
    · rw [Function.update_of_ne hc]
      exact h.used c
  fresh c := by
    have hsame : (s.move t σ q').blocks.Fresh size c ↔ s.blocks.Fresh size c := by
      cases c <;> exact Iff.rfl
    rw [hsame]
    by_cases hc : c = b
    · subst hc
      rw [Function.update_self, ← apart_fresh, hapart, apart_fresh]
      exact h.fresh c
    · rw [Function.update_of_ne hc]
      exact h.fresh c
  index := by
    have hdraw : (afterList q').drawing = (s.pc t).drawing := by
      rw [hpc]
      cases q' with
      | got node => cases node <;> rfl
      | _ => rfl
    show s.blocks.initialBlockPoolIndex + tally PoolPc.drawing (update s.pc t (afterList q')) ≤ _
    rw [tally_update_same _ _ _ hdraw]
    exact h.index

/-- The rule for a step after which every block is where it was. -/
theorem PoolInv.keep (h : PoolInv size s l place) (hpc : s.pc t = .list q)
    (hlisted : Listed σ l place) (hhand : q'.hand = q.hand)
    (hcounts : Counted σ.freeListRefs (s.move t σ q').looks place)
    (hothers : ∀ u, u ≠ t → (s.pc u).Ok σ.freeListNext) (hok : q'.Ok σ.freeListNext) :
    PoolInv size (s.move t σ q') l place := by
  have hsame : update place (.created 0) (place (.created 0)) = place := Function.update_eq_self ..
  have hmove : PoolInv size (s.move t σ q') l (update place (.created 0) (place (.created 0))) := by
    refine h.move hpc ?_ ?_ ?_ hothers hok rfl
    · rw [hsame]
      exact hlisted
    · rw [hsame]
      refine places_same h.hands ?_
      rw [afterList_hand, hpc]
      exact hhand
    · rw [hsame]
      exact hcounts
  rw [hsame] at hmove
  exact hmove

/-- The rule for a step that only reads. -/
theorem PoolInv.stay (h : PoolInv size s l place) (hpc : s.pc t = .list q)
    (hhand : q'.hand = q.hand) (hlook : q'.look = q.look)
    (hok : q'.Ok s.blocks.list.freeListNext) :
    PoolInv size (s.move t s.blocks.list q') l place := by
  have hlooks : (s.move t s.blocks.list q').looks = s.looks := by
    funext c
    exact looks_same hpc (by rw [hlook])
  refine h.keep hpc h.listed hhand ?_ (fun u _ => h.points u) hok
  rw [hlooks]
  exact h.counts

omit [DecidableEq T] in
/-- The account of block `b` in numbers that fit the word. -/
theorem count_lt (hT : Fintype.card T + 1 < 2147483648) (s : PoolState T) (b : BlockId)
    (x : Place T) : s.looks b + x.share < 2147483648 := by
  have hlooks := looks_le s b
  have hshare := share_le x
  omega

omit [DecidableEq T] in
theorem PoolInv.place_of (h : PoolInv size s l place) (hpc : s.pc t = .list q) {g : Stage}
    (hq : q.hand = some (b, g)) : place b = .hand t g := by
  refine (h.hands t b g).mp ?_
  rw [hpc]
  exact hq

/-- A step of the thread that has block `b` in its hand moves the block on. -/
theorem PoolInv.hands_own (h : PoolInv size s l place) (hpc : s.pc t = .list q) {g : Stage}
    (hq : q.hand = some (b, g))
    (hnew : ∀ c g, q'.hand = some (c, g) ↔ c = b ∧ κ = .hand t g)
    (hκ : ∀ u g, κ = .hand u g → u = t) (u : T) (c : BlockId) (g' : Stage) :
    (update s.pc t (afterList q') u).hand = some (c, g') ↔ update place b κ c = .hand u g' := by
  refine places_update h.hands ?_ ?_ ?_ hκ u c g'
  · intro c' g'' hc
    have hc : q.hand = some (c', g'') := by
      rw [hpc] at hc
      exact hc
    rw [hq] at hc
    exact (Prod.mk.inj (Option.some.inj hc)).1.symm
  · intro u' g'' hb
    rw [h.place_of hpc hq] at hb
    exact (Place.hand.inj hb).1.symm
  · intro c' g''
    rw [afterList_hand]
    exact hnew c' g''

omit [Fintype T] [DecidableEq T] in
theorem hand_iff {n b : BlockId} {g g' : Stage} :
    some (b, g) = some (n, g') ↔ n = b ∧ Place.hand t g = .hand t g' := by
  constructor
  · intro h
    obtain ⟨rfl, rfl⟩ := Prod.mk.inj (Option.some.inj h)
    exact ⟨rfl, rfl⟩
  · rintro ⟨rfl, h⟩
    rw [(Place.hand.inj h).2]

theorem eq_zero_iff {k : ℕ} (hk : k < 2147483648) : marked false k = 0 ↔ k = 0 := by
  rw [show (0 : BitVec 32) = marked false 0 by decide, marked_inj hk (by decide)]
  exact ⟨fun h => h.2, fun h => ⟨rfl, h⟩⟩

theorem eq_one_iff {k : ℕ} (hk : k < 2147483648) : marked false k = 1 ↔ k = 1 := by
  rw [show (1 : BitVec 32) = marked false 1 by decide, marked_inj hk (by decide)]
  exact ⟨fun h => h.2, fun h => ⟨rfl, h⟩⟩

/-- Marked, and one thread looks at the block. -/
theorem eq_last_iff {mark : Bool} {k : ℕ} (hk : k < 2147483648) :
    marked mark k = shouldBeOnFreelist + 1 ↔ mark = true ∧ k = 1 := by
  rw [show shouldBeOnFreelist + 1 = marked true 1 by decide, marked_inj hk (by decide)]

theorem looks_none (hpc : s.pc t = .list q) (hq : q.look = none) (hq' : q'.look = none)
    (σ : FreeList BlockId) (c : BlockId) : (s.move t σ q').looks c = s.looks c :=
  looks_same hpc (by rw [hq, hq'])

omit [Fintype T] [DecidableEq T] in
/-- The counts are no matter of the list. -/
theorem Listed.of_eq {σ' : FreeList BlockId} (h : Listed σ l place)
    (hhead : σ'.freeListHead = σ.freeListHead) (hnext : σ'.freeListNext = σ.freeListNext) :
    Listed σ' l place where
  chain := by
    rw [hhead, hnext]
    exact h.chain
  nodup := h.nodup
  mem := h.mem

/-- The changed count of one block. -/
theorem addRefs_self (σ : FreeList BlockId) (b : BlockId) (d : BitVec 32) :
    (σ.addRefs b d).freeListRefs b = σ.freeListRefs b + d := Function.update_self ..

theorem addRefs_ne (σ : FreeList BlockId) (d : BitVec 32) (h : c ≠ b) :
    (σ.addRefs b d).freeListRefs c = σ.freeListRefs c := Function.update_of_ne h ..

/-- concurrentqueue.h:1372. -/
theorem PoolInv.add (hT : Fintype.card T + 1 < 2147483648) (h : PoolInv size s l place)
    (hpc : s.pc t = .list (.add b)) :
    ∃ place', PoolInv size (s.move t (s.blocks.list.add b).1 (s.blocks.list.add b).2) l place' := by
  have hplace := h.place_of hpc rfl
  have hlt := count_lt hT s b (place b)
  have hrefs := h.counts.refs b
  rw [hplace] at hrefs hlt
  change _ = marked false (s.looks b) at hrefs
  change s.looks b < _ at hlt
  have hword : ((s.blocks.list.add b).1).freeListRefs b = marked true (s.looks b) := by
    show (s.blocks.list.addRefs b _).freeListRefs b = _
    rw [addRefs_self, hrefs]
    exact marked_mark _
  have hzero : s.blocks.list.freeListRefs b = 0 ↔ s.looks b = 0 := by
    rw [hrefs]
    exact eq_zero_iff hlt
  have hlisted : ∀ κ : Place T, κ ≠ .listed →
      Listed (s.blocks.list.add b).1 l (update place b κ) := fun κ hκ =>
    (h.listed.change (by rw [hplace]; nofun) hκ).of_eq rfl rfl
  by_cases hlast : s.blocks.list.freeListRefs b = 0
  · -- nobody looks at the block: it is added at once
    have hq' : (s.blocks.list.add b).2 = .addHead b .ret := if_pos hlast
    rw [hq']
    refine ⟨update place b (.hand t .linking), h.move hpc (hlisted _ nofun)
      (h.hands_own hpc rfl (fun _ _ => hand_iff) fun u g hu => (Place.hand.inj hu).1.symm) ?_
      (fun u _ => h.points u) trivial ?_⟩
    · refine h.counts.change (fun c hc => addRefs_ne _ _ hc) (fun c _ => looks_none hpc rfl rfl _ c) ?_
        (fun hκ => by cases hκ) (fun _ _ => ?_)
      · rw [hword, looks_none hpc rfl rfl _ b]
        rfl
      · rw [looks_none hpc rfl rfl _ b]
        exact hzero.mp hlast
    · rw [hplace]
      rfl
  · have hq' : (s.blocks.list.add b).2 = .added := if_neg hlast
    rw [hq']
    refine ⟨update place b .pending, h.move hpc (hlisted _ nofun)
      (h.hands_own hpc rfl (fun _ _ => ⟨nofun, fun hκ => by cases hκ.2⟩) nofun) ?_
      (fun u _ => h.points u) trivial ?_⟩
    · refine h.counts.change (fun c hc => addRefs_ne _ _ hc) (fun c _ => looks_none hpc rfl rfl _ c) ?_
        (fun _ => ?_) (fun _ hκ => by cases hκ)
      · rw [hword, looks_none hpc rfl rfl _ b]
        rfl
      · rw [looks_none hpc rfl rfl _ b]
        exact Nat.pos_of_ne_zero fun hno => hlast (hzero.mpr hno)
    · rw [hplace]
      rfl

/-- concurrentqueue.h:1388: the count was not zero, so no thread is about to set it. -/
theorem PoolInv.raise (hT : Fintype.card T + 1 < 2147483648) (h : PoolInv size s l place)
    {refs : BitVec 32} (hpc : s.pc t = .list (.raise b refs))
    (hmask : ¬(refs &&& refsMask = 0)) (hrefs : s.blocks.list.freeListRefs b = refs) :
    PoolInv size (s.move t (s.blocks.list.addRefs b 1) (.next b)) l place := by
  have hup : (s.move t (s.blocks.list.addRefs b 1) (.next b)).looks b = s.looks b + 1 :=
    looks_up hpc nofun rfl
  have hpos : s.looks b + (place b).share ≠ 0 := by
    intro hzero
    refine hmask ?_
    rw [← hrefs, h.counts.refs b]
    exact (marked_mask (count_lt hT s b (place b))).mpr hzero
  have hcounts : Counted (s.blocks.list.addRefs b 1).freeListRefs
      (s.move t (s.blocks.list.addRefs b 1) (.next b)).looks (update place b (place b)) := by
    refine h.counts.change (fun c hc => addRefs_ne _ _ hc)
      (fun c hc => looks_same hpc ⟨fun he => absurd (Option.some.inj he).symm hc, nofun⟩) ?_
      (fun _ => by omega) (fun u hu => ?_)
    · rw [addRefs_self, h.counts.refs b, hup, Nat.add_right_comm]
      exact marked_succ _
    · -- a block that a thread is about to link has the count zero
      have hlook := h.counts.linking b u hu
      rw [hu, hlook] at hpos
      exact absurd rfl hpos
  rw [Function.update_eq_self] at hcounts
  exact h.keep hpc (h.listed.of_eq rfl rfl) rfl hcounts (fun u _ => h.points u) trivial

/-- concurrentqueue.h:1396: the first block of the list is taken off. -/
theorem PoolInv.swap (h : PoolInv size s l place) {next : Option BlockId}
    (hpc : s.pc t = .list (.swap b next)) (hhead : s.blocks.list.freeListHead = some b) :
    ∃ l' place', PoolInv size
      (s.move t { s.blocks.list with freeListHead := next } (.settle b)) l' place' := by
  obtain ⟨hchain, hnodup, hmem⟩ := h.listed
  have hpoint := h.points t
  rw [hpc] at hpoint
  have hnext : s.blocks.list.freeListNext b = next := hpoint
  cases l with
  | nil =>
      have hnone : s.blocks.list.freeListHead = none := hchain
      rw [hhead] at hnone
      cases hnone
  | cons c l =>
      obtain ⟨hc, hrest⟩ := hchain
      obtain rfl : b = c := Option.some.inj (hhead.symm.trans hc)
      have hplace : place b = .listed := (hmem b).mp (List.mem_cons_self ..)
      have hnot : b ∉ l := (List.nodup_cons.mp hnodup).1
      refine ⟨l, update place b (.hand t .taken), h.move hpc ⟨?_, ?_, fun c => ?_⟩ ?_ ?_
        (fun u _ => h.points u) trivial ?_⟩
      · rw [hnext] at hrest
        exact hrest
      · exact (List.nodup_cons.mp hnodup).2
      · by_cases hcb : c = b
        · subst hcb
          rw [Function.update_self]
          exact ⟨fun hin => absurd hin hnot, nofun⟩
        · rw [Function.update_of_ne hcb, ← hmem c, List.mem_cons]
          exact ⟨.inr, fun hin => hin.resolve_left hcb⟩
      · refine places_update h.hands ?_ ?_ ?_ fun u g hu => (Place.hand.inj hu).1.symm
        · rw [hpc]
          nofun
        · rw [hplace]
          nofun
        · exact fun _ _ => hand_iff
      · have hlooks : (s.move t { s.blocks.list with freeListHead := next } (.settle b)).looks b =
            s.looks b := looks_same hpc Iff.rfl
        refine h.counts.change (fun _ _ => rfl) (fun c _ => looks_same hpc Iff.rfl) ?_
          (fun hκ => by cases hκ) (fun _ hκ => by cases hκ)
        have hrefs := h.counts.refs b
        rw [hplace] at hrefs
        rw [hlooks]
        exact hrefs
      · rw [hplace]
        rfl

/-- concurrentqueue.h:1402: the thread's share of the count, and that of the list. -/
theorem PoolInv.settle (h : PoolInv size s l place) (hpc : s.pc t = .list (.settle b)) :
    PoolInv size (s.move t (s.blocks.list.addRefs b (-2)) (.got (some b))) l
      (update place b (.hand t .given)) := by
  have hplace := h.place_of hpc rfl
  have hdown : s.looks b =
      (s.move t (s.blocks.list.addRefs b (-2)) (.got (some b))).looks b + 1 :=
    looks_down hpc rfl nofun
  have hrefs := h.counts.refs b
  rw [hplace, hdown] at hrefs
  have hlisted : Listed s.blocks.list l (update place b (.hand t .given)) :=
    h.listed.change (by rw [hplace]; nofun) nofun
  refine h.move hpc (hlisted.of_eq rfl rfl)
    (h.hands_own hpc rfl (fun _ _ => hand_iff) fun u g hu => (Place.hand.inj hu).1.symm) ?_
    (fun u _ => h.points u) trivial ?_
  · refine h.counts.change (fun c hc => addRefs_ne _ _ hc)
      (fun c hc => looks_same hpc ⟨nofun, fun he => absurd (Option.some.inj he).symm hc⟩) ?_
      (fun hκ => by cases hκ) (fun _ hκ => by cases hκ)
    rw [addRefs_self, hrefs]
    exact marked_pred_two _
  · rw [hplace]
    rfl

/-- concurrentqueue.h:1409: the last thread that looks at a marked block adds it. -/
theorem PoolInv.drop (hT : Fintype.card T + 1 < 2147483648) (h : PoolInv size s l place)
    {head : Option BlockId} (hpc : s.pc t = .list (.drop b head)) :
    ∃ place', PoolInv size (s.move t (s.blocks.list.addRefs b (-1))
      (if s.blocks.list.freeListRefs b = shouldBeOnFreelist + 1 then .addHead b (.loop head)
        else whileHead head)) l place' := by
  have hlt := count_lt hT s b (place b)
  have hrefs := h.counts.refs b
  have hlast : s.blocks.list.freeListRefs b = shouldBeOnFreelist + 1 ↔
      (place b).waits = true ∧ s.looks b + (place b).share = 1 := by
    rw [hrefs]
    exact eq_last_iff hlt
  have hpos : ∀ q' : FreePc BlockId, q'.look ≠ some b →
      s.looks b = (s.move t (s.blocks.list.addRefs b (-1)) q').looks b + 1 := fun q' hq' =>
    looks_down hpc rfl hq'
  have hothers : ∀ q' : FreePc BlockId, q'.look = none → ∀ c, c ≠ b →
      (s.move t (s.blocks.list.addRefs b (-1)) q').looks c = s.looks c := by
    intro q' hq' c hc
    refine looks_same hpc ?_
    rw [hq']
    exact ⟨nofun, fun he => absurd (Option.some.inj he).symm hc⟩
  have hnot : ∀ u, place b ≠ .hand u .linking := by
    intro u hu
    have hzero := h.counts.linking b u hu
    have := hpos (.got none) nofun
    omega
  split
  · rename_i hword
    obtain ⟨hwaits, hone⟩ := hlast.mp hword
    have hplace : place b = .pending := by
      cases hb : place b with
      | pending => rfl
      | hand u g =>
          rw [hb] at hwaits
          cases g with
          | linking => exact absurd hb (hnot u)
          | _ => cases hwaits
      | _ =>
          rw [hb] at hwaits
          cases hwaits
    have hlook := hpos (.addHead b (.loop head)) nofun
    rw [hplace] at hone hrefs
    have hone : s.looks b = 1 := hone
    have hlisted : Listed s.blocks.list l (update place b (.hand t .linking)) :=
      h.listed.change (by rw [hplace]; nofun) nofun
    refine ⟨update place b (.hand t .linking), h.move hpc (hlisted.of_eq rfl rfl)
      (places_update h.hands ?_ ?_ (fun _ _ => hand_iff) fun u g hu => (Place.hand.inj hu).1.symm)
      ?_ (fun u _ => h.points u) trivial ?_⟩
    · rw [hpc]
      nofun
    · rw [hplace]
      nofun
    · refine h.counts.change (fun c hc => addRefs_ne _ _ hc) (fun c hc => hothers _ rfl c hc) ?_
        (fun hκ => by cases hκ) (fun _ _ => by omega)
      rw [addRefs_self, hrefs, hlook]
      exact marked_pred _
    · rw [hplace]
      rfl
  · rename_i hword
    have hlook := hpos (whileHead head) (by rw [whileHead_look]; nofun)
    have hcounts : Counted (s.blocks.list.addRefs b (-1)).freeListRefs
        (s.move t (s.blocks.list.addRefs b (-1)) (whileHead head)).looks
        (update place b (place b)) := by
      refine h.counts.change (fun c hc => addRefs_ne _ _ hc)
        (fun c hc => hothers _ (whileHead_look head) c hc) ?_ (fun hb => ?_) fun u hu =>
          absurd hu (hnot u)
      · rw [addRefs_self, hrefs, hlook, Nat.add_right_comm]
        exact marked_pred _
      · -- somebody else looks at the block still
        have hmore : s.looks b ≠ 1 := by
          intro hone
          refine hword (hlast.mpr ?_)
          rw [hb]
          exact ⟨rfl, hone⟩
        omega
    rw [Function.update_eq_self] at hcounts
    exact ⟨place, h.keep hpc (h.listed.of_eq rfl rfl) (whileHead_hand head) hcounts
      (fun u _ => h.points u) (whileHead_ok head)⟩

/-- A store to the successor of a block that a thread neither looks at nor has in its hand. -/
theorem PoolPc.Ok.store {succ : BlockId → Option BlockId} {p : PoolPc} {v : Option BlockId}
    (h : p.Ok succ) (hlook : p.look ≠ some b) (hhand : ∀ g, p.hand ≠ some (b, g)) :
    p.Ok (update succ b v) := by
  have hstep : ∀ {n m}, succ n = m → n ≠ b → update succ b v n = m := by
    intro n m hn hnb
    rw [Function.update_of_ne hnb]
    exact hn
  cases p with
  | list q =>
      cases q with
      | swap head read => exact hstep h fun hb => hlook (congrArg some hb)
      | addRefs node head after =>
          exact hstep h fun hb => hhand .linking (congrArg (fun n => some (n, _)) hb)
      | addSwap node head after =>
          exact hstep h fun hb => hhand .linked (congrArg (fun n => some (n, _)) hb)
      | _ => trivial
  | _ => trivial

/-- concurrentqueue.h:1434: nobody looks at the block whose successor is stored. -/
theorem PoolInv.addNext (h : PoolInv size s l place) {head : Option BlockId}
    {after : AddThen BlockId} (hpc : s.pc t = .list (.addNext b head after)) :
    PoolInv size (s.move t
      { s.blocks.list with freeListNext := update s.blocks.list.freeListNext b head }
      (.addRefs b head after)) l place := by
  have hplace := h.place_of hpc rfl
  have hzero := h.counts.linking b t hplace
  obtain ⟨hchain, hnodup, hmem⟩ := h.listed
  have hnot : b ∉ l := by
    rw [hmem, hplace]
    nofun
  refine h.keep hpc ⟨hchain.update_of_not_mem hnot head, hnodup, hmem⟩ rfl ?_ (fun u hu => ?_)
    (Function.update_self ..)
  · have hlooks : (s.move t
        { s.blocks.list with freeListNext := update s.blocks.list.freeListNext b head }
        (.addRefs b head after)).looks = s.looks := funext fun c => looks_none hpc rfl rfl _ c
    rw [hlooks]
    exact h.counts
  · refine (h.points u).store ?_ fun g hg => ?_
    · intro hlook
      have hle := le_tally (lookAt b) s.pc u
      rw [show lookAt b (s.pc u) = 1 from if_pos hlook] at hle
      have hzero : tally (lookAt b) s.pc = 0 := hzero
      omega
    · have hu' := (h.hands u b g).mp hg
      rw [hplace] at hu'
      exact hu (Place.hand.inj hu').1.symm

/-- concurrentqueue.h:1435: the list's share of the count. -/
theorem PoolInv.addRefs (h : PoolInv size s l place) {head : Option BlockId}
    {after : AddThen BlockId} (hpc : s.pc t = .list (.addRefs b head after)) :
    PoolInv size (s.move t
      { s.blocks.list with freeListRefs := update s.blocks.list.freeListRefs b 1 }
      (.addSwap b head after)) l (update place b (.hand t .linked)) := by
  have hplace := h.place_of hpc rfl
  have hzero := h.counts.linking b t hplace
  have hpoint := h.points t
  rw [hpc] at hpoint
  have hlisted : Listed s.blocks.list l (update place b (.hand t .linked)) :=
    h.listed.change (by rw [hplace]; nofun) nofun
  refine h.move hpc (hlisted.of_eq rfl rfl)
    (h.hands_own hpc rfl (fun _ _ => hand_iff) fun u g hu => (Place.hand.inj hu).1.symm) ?_
    (fun u _ => h.points u) hpoint ?_
  · refine h.counts.change (fun c hc => Function.update_of_ne hc _ _)
      (fun c _ => looks_none hpc rfl rfl _ c) ?_ (fun hκ => by cases hκ) (fun _ hκ => by cases hκ)
    rw [looks_none hpc rfl rfl _ b, hzero]
    show update s.blocks.list.freeListRefs b 1 b = marked false 1
    rw [Function.update_self]
    decide
  · rw [hplace]
    rfl

/-- concurrentqueue.h:1436: the block is the first of the list. -/
theorem PoolInv.addSwap (h : PoolInv size s l place) {after : AddThen BlockId}
    (hpc : s.pc t = .list (.addSwap b s.blocks.list.freeListHead after)) :
    PoolInv size (s.move t { s.blocks.list with freeListHead := some b } after.pc) (b :: l)
      (update place b .listed) := by
  have hplace := h.place_of hpc rfl
  have hpoint := h.points t
  rw [hpc] at hpoint
  have hnext : s.blocks.list.freeListNext b = s.blocks.list.freeListHead := hpoint
  obtain ⟨hchain, hnodup, hmem⟩ := h.listed
  have hnot : b ∉ l := by
    rw [hmem, hplace]
    nofun
  refine h.move hpc ⟨⟨rfl, ?_⟩, List.nodup_cons.mpr ⟨hnot, hnodup⟩, fun c => ?_⟩
    (h.hands_own hpc rfl ?_ nofun) ?_ (fun u _ => h.points u) (after_ok after) ?_
  · show Chain s.blocks.list.freeListNext (s.blocks.list.freeListNext b) l
    rw [hnext]
    exact hchain
  · by_cases hcb : c = b
    · subst hcb
      rw [Function.update_self]
      exact ⟨fun _ => rfl, fun _ => List.mem_cons_self ..⟩
    · rw [Function.update_of_ne hcb, ← hmem c, List.mem_cons]
      exact ⟨fun hin => hin.resolve_left hcb, .inr⟩
  · rw [after_hand]
    exact fun _ _ => ⟨nofun, fun hκ => by cases hκ.2⟩
  · refine h.counts.change (fun _ _ => rfl)
      (fun c _ => looks_none hpc rfl (after_look after) _ c) ?_
      (fun hκ => by cases hκ) (fun _ hκ => by cases hκ)
    have hrefs := h.counts.refs b
    rw [hplace] at hrefs
    rw [looks_none hpc rfl (after_look after) _ b]
    exact hrefs
  · rw [hplace]
    rfl

/-- concurrentqueue.h:1438: the block is marked again; if nobody has looked at it
    meanwhile the thread tries once more. -/
theorem PoolInv.addAgain (hT : Fintype.card T + 1 < 2147483648) (h : PoolInv size s l place)
    {head : Option BlockId} {after : AddThen BlockId}
    (hpc : s.pc t = .list (.addAgain b head after)) :
    ∃ place', PoolInv size (s.move t (s.blocks.list.addRefs b (shouldBeOnFreelist - 1))
      (if s.blocks.list.freeListRefs b = 1 then .addNext b head after else after.pc)) l place' := by
  have hplace := h.place_of hpc rfl
  have hlt := count_lt hT s b (place b)
  have hrefs := h.counts.refs b
  rw [hplace] at hrefs hlt
  have hrefs : s.blocks.list.freeListRefs b = marked false (s.looks b + 1) := hrefs
  have hword : (s.blocks.list.addRefs b (shouldBeOnFreelist - 1)).freeListRefs b =
      marked true (s.looks b) := by
    rw [addRefs_self, hrefs]
    exact marked_mark_pred _
  have hlt : s.looks b + 1 < 2147483648 := hlt
  have hone : s.blocks.list.freeListRefs b = 1 ↔ s.looks b = 0 := by
    rw [hrefs, eq_one_iff hlt]
    omega
  have hlisted : ∀ κ : Place T, κ ≠ .listed →
      Listed (s.blocks.list.addRefs b (shouldBeOnFreelist - 1)) l (update place b κ) := fun κ hκ =>
    (h.listed.change (by rw [hplace]; nofun) hκ).of_eq rfl rfl
  split
  · rename_i hlast
    refine ⟨update place b (.hand t .linking), h.move hpc (hlisted _ nofun)
      (h.hands_own hpc rfl (fun _ _ => hand_iff) fun u g hu => (Place.hand.inj hu).1.symm) ?_
      (fun u _ => h.points u) trivial ?_⟩
    · refine h.counts.change (fun c hc => addRefs_ne _ _ hc)
        (fun c _ => looks_none hpc rfl rfl _ c) ?_ (fun hκ => by cases hκ) (fun _ _ => ?_)
      · rw [hword, looks_none hpc rfl rfl _ b]
        rfl
      · rw [looks_none hpc rfl rfl _ b]
        exact hone.mp hlast
    · rw [hplace]
      rfl
  · rename_i hlast
    refine ⟨update place b .pending, h.move hpc (hlisted _ nofun)
      (h.hands_own hpc rfl ?_ nofun) ?_ (fun u _ => h.points u) (after_ok after) ?_⟩
    · rw [after_hand]
      exact fun _ _ => ⟨nofun, fun hκ => by cases hκ.2⟩
    · refine h.counts.change (fun c hc => addRefs_ne _ _ hc)
        (fun c _ => looks_none hpc rfl (after_look after) _ c) ?_ (fun _ => ?_)
        (fun _ hκ => by cases hκ)
      · rw [hword, looks_none hpc rfl (after_look after) _ b]
        rfl
      · rw [looks_none hpc rfl (after_look after) _ b]
        exact Nat.pos_of_ne_zero fun hno => hlast (hone.mpr hno)
    · rw [hplace]
      rfl

/-- Every step of the list. -/
theorem PoolInv.list_step (hT : Fintype.card T + 1 < 2147483648) (h : PoolInv size s l place)
    (hpc : s.pc t = .list q) {r : FreeList BlockId × FreePc BlockId}
    (hstep : freeListStep s.blocks.list q = some r) :
    ∃ l' place', PoolInv size (s.move t r.1 r.2) l' place' := by
  cases q with
  | add node =>
      obtain rfl := Option.some.inj hstep
      exact ⟨l, h.add hT hpc⟩
  | load =>
      obtain rfl := Option.some.inj hstep
      exact ⟨l, place, h.stay hpc (whileHead_hand _) (whileHead_look _) (whileHead_ok _)⟩
  | refs head =>
      obtain rfl := Option.some.inj hstep
      exact ⟨l, place, h.stay hpc rfl rfl trivial⟩
  | raise head refs =>
      simp only [freeListStep, tryGet] at hstep
      split at hstep
      · obtain rfl := Option.some.inj hstep
        exact ⟨l, place, h.stay hpc rfl rfl trivial⟩
      · rename_i hno
        obtain rfl := Option.some.inj hstep
        rw [not_or, not_not] at hno
        exact ⟨l, place, h.raise hT hpc hno.1 hno.2⟩
  | next head =>
      obtain rfl := Option.some.inj hstep
      exact ⟨l, place, h.stay hpc rfl rfl rfl⟩
  | swap head read =>
      simp only [freeListStep, tryGet] at hstep
      split at hstep
      · rename_i hhead
        obtain rfl := Option.some.inj hstep
        exact h.swap hpc hhead
      · obtain rfl := Option.some.inj hstep
        exact ⟨l, place, h.stay hpc rfl rfl trivial⟩
  | settle head =>
      obtain rfl := Option.some.inj hstep
      exact ⟨l, _, h.settle hpc⟩
  | drop prevHead head =>
      obtain rfl := Option.some.inj hstep
      exact ⟨l, h.drop hT hpc⟩
  | addHead node after =>
      obtain rfl := Option.some.inj hstep
      exact ⟨l, place, h.stay hpc rfl rfl trivial⟩
  | addNext node head after =>
      obtain rfl := Option.some.inj hstep
      exact ⟨l, place, h.addNext hpc⟩
  | addRefs node head after =>
      obtain rfl := Option.some.inj hstep
      exact ⟨l, _, h.addRefs hpc⟩
  | addSwap node head after =>
      simp only [freeListStep, addKnowingRefcountIsZero] at hstep
      split at hstep
      · rename_i hhead
        obtain rfl := Option.some.inj hstep
        subst hhead
        exact ⟨_, _, h.addSwap hpc⟩
      · obtain rfl := Option.some.inj hstep
        exact ⟨l, place, h.stay hpc rfl rfl trivial⟩
  | addAgain node head after =>
      obtain rfl := Option.some.inj hstep
      exact ⟨l, h.addAgain hT hpc⟩
  | added => cases hstep
  | got node => cases hstep

/-! ## §4. The other steps. -/

/-- A place that the list has nothing to do with. -/
def Place.out {T : Type} : Place T → Bool
  | fresh | used | hand _ .adding | hand _ .given => true
  | _ => false

omit [Fintype T] [DecidableEq T] in
theorem out_facts {x : Place T} (h : x.out = true) :
    x.waits = false ∧ x.share = 0 ∧ x ≠ .listed ∧ x ≠ .pending ∧ ∀ t, x ≠ .hand t .linking := by
  cases x with
  | hand t g =>
      cases g with
      | adding => exact ⟨rfl, rfl, nofun, nofun, nofun⟩
      | given => exact ⟨rfl, rfl, nofun, nofun, nofun⟩
      | _ => cases h
  | fresh => exact ⟨rfl, rfl, nofun, nofun, nofun⟩
  | used => exact ⟨rfl, rfl, nofun, nofun, nofun⟩
  | _ => cases h

variable {σ' : BlockPool} {p : PoolPc}

theorem looks_quiet (hold : (s.pc t).look = none) (hnew : p.look = none) :
    (⟨σ', update s.pc t p⟩ : PoolState T).looks = s.looks := by
  funext c
  have hupd := looks_update s σ' t p c
  have h0 : lookAt c p = 0 := by
    unfold lookAt
    rw [hnew]
    exact if_neg nofun
  have h1 : lookAt c (s.pc t) = 0 := by
    unfold lookAt
    rw [hold]
    exact if_neg nofun
  omega

/-- The rule for a step outside the list; a block may go from one place outside the list
    to another. -/
theorem PoolInv.turn (h : PoolInv size s l place) (hlist : σ'.list = s.blocks.list)
    (hold : (s.pc t).look = none) (hnew : p.look = none)
    (hhands : ∀ u c g, (update s.pc t p u).hand = some (c, g) ↔ update place b κ c = .hand u g)
    (hb : (place b).out = true) (hκ : κ.out = true) (hok : p.Ok s.blocks.list.freeListNext)
    (hused : ∀ c, σ'.used c = true ↔ update place b κ c = .used)
    (hfresh : ∀ c, update place b κ c = .fresh ↔ σ'.Fresh size c)
    (hindex : σ'.initialBlockPoolIndex + tally PoolPc.drawing (update s.pc t p) ≤
      size + Fintype.card T) :
    PoolInv size ⟨σ', update s.pc t p⟩ l (update place b κ) where
  listed := by
    show Listed σ'.list _ _
    rw [hlist]
    exact h.listed.change (out_facts hb).2.2.1 (out_facts hκ).2.2.1
  hands := hhands
  counts := by
    show Counted σ'.list.freeListRefs _ _
    rw [hlist, looks_quiet hold hnew]
    refine h.counts.change (fun _ _ => rfl) (fun _ _ => rfl) ?_
      (fun hp => absurd hp (out_facts hκ).2.2.2.1) fun u hu => absurd hu ((out_facts hκ).2.2.2.2 u)
    rw [h.counts.refs b, (out_facts hb).1, (out_facts hb).2.1, (out_facts hκ).1,
      (out_facts hκ).2.1]
  points u := by
    show (update s.pc t p u).Ok σ'.list.freeListNext
    rw [hlist]
    by_cases hu : u = t
    · subst hu
      rw [Function.update_self]
      exact hok
    · rw [Function.update_of_ne hu]
      exact h.points u
  used := hused
  fresh := hfresh
  index := hindex

/-- The rule for a step outside the list that leaves the blocks where they are. -/
theorem PoolInv.walk (h : PoolInv size s l place) (hlist : σ'.list = s.blocks.list)
    (hold : (s.pc t).look = none) (hnew : p.look = none) (hhand : p.hand = (s.pc t).hand)
    (hok : p.Ok s.blocks.list.freeListNext) (hused : σ'.used = s.blocks.used)
    (hfresh : ∀ c, s.blocks.Fresh size c ↔ σ'.Fresh size c)
    (hindex : σ'.initialBlockPoolIndex + tally PoolPc.drawing (update s.pc t p) ≤
      size + Fintype.card T) :
    PoolInv size ⟨σ', update s.pc t p⟩ l place where
  listed := by
    show Listed σ'.list _ _
    rw [hlist]
    exact h.listed
  hands := places_same h.hands hhand
  counts := by
    show Counted σ'.list.freeListRefs _ _
    rw [hlist, looks_quiet hold hnew]
    exact h.counts
  points u := by
    show (update s.pc t p u).Ok σ'.list.freeListNext
    rw [hlist]
    by_cases hu : u = t
    · subst hu
      rw [Function.update_self]
      exact hok
    · rw [Function.update_of_ne hu]
      exact h.points u
  used c := by
    show σ'.used c = true ↔ _
    rw [hused]
    exact h.used c
  fresh c := (h.fresh c).trans (hfresh c)
  index := hindex

/-- A step that draws no number keeps the bound of `initialBlockPoolIndex`. -/
theorem PoolInv.index_of (h : PoolInv size s l place)
    (hsame : σ'.initialBlockPoolIndex = s.blocks.initialBlockPoolIndex)
    (hp : p.drawing = (s.pc t).drawing) :
    σ'.initialBlockPoolIndex + tally PoolPc.drawing (update s.pc t p) ≤ size + Fintype.card T := by
  rw [hsame, tally_update_same _ _ _ hp]
  exact h.index

omit [Fintype T] [DecidableEq T] in
/-- What `x` tells of the places changes with the place of one block. -/
theorem place_update {x : Place T} {P P' : BlockId → Prop} (h : ∀ c, P c ↔ place c = x)
    (hrest : ∀ c, c ≠ b → (P' c ↔ P c)) (hb : P' b ↔ κ = x) (c : BlockId) :
    P' c ↔ update place b κ c = x := by
  by_cases hc : c = b
  · subst hc
    rw [Function.update_self]
    exact hb
  · rw [Function.update_of_ne hc, hrest c hc]
    exact h c

/-- The block that a thread has in its hand outside the list is a new one, or one in use. -/
theorem places_take (h : PoolInv size s l place) (hpc : (s.pc t).hand = none)
    (hb : ∀ u g, place b ≠ .hand u g) {g : Stage} (hp : p.hand = some (b, g)) (u : T)
    (c : BlockId) (g' : Stage) :
    (update s.pc t p u).hand = some (c, g') ↔ update place b (.hand t g) c = .hand u g' := by
  refine places_update h.hands ?_ (fun u g hu => absurd hu (hb u g)) ?_
    (fun u g hu => (Place.hand.inj hu).1.symm) u c g'
  · rw [hpc]
    nofun
  · rw [hp]
    exact fun _ _ => hand_iff

theorem PoolInv.requisition (h : PoolInv size s l place) (hpc : s.pc t = .elsewhere) :
    PoolInv size ⟨s.blocks, update s.pc t .poolLoad⟩ l place := by
  refine h.walk rfl ?_ rfl ?_ trivial rfl (fun _ => Iff.rfl) (h.index_of rfl ?_) <;>
    rw [hpc] <;> rfl

theorem PoolInv.giveBack (h : PoolInv size s l place) (hpc : s.pc t = .elsewhere)
    (hused : s.blocks.used b = true) :
    PoolInv size ⟨{ s.blocks with used := update s.blocks.used b false },
      update s.pc t (.list (.add b))⟩ l (update place b (.hand t .adding)) := by
  have hplace := (h.used b).mp hused
  refine h.turn rfl ?_ rfl (places_take h ?_ (by rw [hplace]; nofun) rfl) ?_ rfl trivial
    (place_update h.used (fun c hc => ?_) ?_)
    (fun c => (place_update (fun c => (h.fresh c).symm) (fun c _ => ?_) ?_ c).symm)
    (h.index_of rfl ?_)
  · rw [hpc]
    rfl
  · rw [hpc]
    rfl
  · rw [hplace]
    rfl
  · show update s.blocks.used b false c = true ↔ _
    rw [Function.update_of_ne hc]
  · show update s.blocks.used b false b = true ↔ _
    rw [Function.update_self]
    exact ⟨nofun, nofun⟩
  · cases c <;> exact Iff.rfl
  · have hno : ¬s.blocks.Fresh size b := by
      rw [← h.fresh, hplace]
      nofun
    refine ⟨fun hf => absurd ?_ hno, nofun⟩
    cases b <;> exact hf
  · rw [hpc]
    rfl

/-- concurrentqueue.h:2957. -/
theorem PoolInv.poolLoad (h : PoolInv size s l place) (hpc : s.pc t = .poolLoad) :
    PoolInv size ⟨s.blocks, update s.pc t
      (if size ≤ s.blocks.initialBlockPoolIndex then .list .load else .poolAdd)⟩ l place := by
  split
  · refine h.walk rfl ?_ rfl ?_ trivial rfl (fun _ => Iff.rfl) (h.index_of rfl ?_) <;>
      rw [hpc] <;> rfl
  · rename_i hlt
    refine h.walk rfl ?_ rfl ?_ trivial rfl (fun _ => Iff.rfl) ?_
    · rw [hpc]
      rfl
    · rw [hpc]
      rfl
    · have hcard := tally_le_card (w := PoolPc.drawing)
        (fun p => by unfold PoolPc.drawing; split <;> omega) (update s.pc t .poolAdd)
      omega

/-- concurrentqueue.h:2961: no two threads draw the same number. -/
theorem PoolInv.poolAdd (h : PoolInv size s l place) (hpc : s.pc t = .poolAdd) :
    ∃ place', PoolInv size
      ⟨{ s.blocks with initialBlockPoolIndex := s.blocks.initialBlockPoolIndex + 1 },
        update s.pc t (if s.blocks.initialBlockPoolIndex < size then
          .got (some (.initial s.blocks.initialBlockPoolIndex)) else .list .load)⟩ l place' := by
  have hindex : ∀ p : PoolPc, p.drawing = 0 →
      s.blocks.initialBlockPoolIndex + 1 + tally PoolPc.drawing (update s.pc t p) ≤
        size + Fintype.card T := by
    intro p hp
    have hupd := tally_update PoolPc.drawing s.pc t p
    rw [hp, hpc] at hupd
    have hupd : tally PoolPc.drawing (update s.pc t p) + 1 = tally PoolPc.drawing s.pc + 0 := hupd
    have hold := h.index
    omega
  split
  · rename_i hlt
    have hplace : place (.initial s.blocks.initialBlockPoolIndex) = .fresh :=
      (h.fresh _).mpr (.inl (Nat.le_refl _))
    refine ⟨update place (.initial s.blocks.initialBlockPoolIndex) (.hand t .given),
      h.turn rfl ?_ rfl (places_take h ?_ (by rw [hplace]; nofun) rfl) ?_ rfl trivial
        (place_update h.used (fun c _ => Iff.rfl) ?_)
        (fun c => (place_update (fun c => (h.fresh c).symm) (fun c hc => ?_) ?_ c).symm)
        (hindex _ rfl)⟩
    · rw [hpc]
      rfl
    · rw [hpc]
      rfl
    · rw [hplace]
      rfl
    · rw [h.used, hplace]
      exact ⟨nofun, nofun⟩
    · cases c with
      | initial i =>
          have hi : i ≠ s.blocks.initialBlockPoolIndex := fun hi => hc (by rw [hi])
          show s.blocks.initialBlockPoolIndex + 1 ≤ i ∨ size ≤ i ↔
            s.blocks.initialBlockPoolIndex ≤ i ∨ size ≤ i
          omega
      | created k => exact Iff.rfl
    · refine ⟨fun hf => ?_, nofun⟩
      have hf : s.blocks.initialBlockPoolIndex + 1 ≤ s.blocks.initialBlockPoolIndex ∨
        size ≤ s.blocks.initialBlockPoolIndex := hf
      omega
  · rename_i hge
    refine ⟨place, h.walk rfl ?_ rfl ?_ trivial rfl (fun c => ?_) (hindex _ rfl)⟩
    · rw [hpc]
      rfl
    · rw [hpc]
      rfl
    · cases c with
      | initial i =>
          show s.blocks.initialBlockPoolIndex ≤ i ∨ size ≤ i ↔
            s.blocks.initialBlockPoolIndex + 1 ≤ i ∨ size ≤ i
          omega
      | created k => exact Iff.rfl

/-- concurrentqueue.h:3003: a block made by the allocator. -/
theorem PoolInv.create (h : PoolInv size s l place) (hpc : s.pc t = .create) :
    PoolInv size ⟨{ s.blocks with made := s.blocks.made + 1 },
      update s.pc t (.got (some (.created s.blocks.made)))⟩ l
      (update place (.created s.blocks.made) (.hand t .given)) := by
  have hplace : place (.created s.blocks.made) = .fresh := (h.fresh _).mpr (Nat.le_refl _)
  refine h.turn rfl ?_ rfl (places_take h ?_ (by rw [hplace]; nofun) rfl) ?_ rfl trivial
    (place_update h.used (fun c _ => Iff.rfl) ?_)
    (fun c => (place_update (fun c => (h.fresh c).symm) (fun c hc => ?_) ?_ c).symm)
    (h.index_of rfl ?_)
  · rw [hpc]
    rfl
  · rw [hpc]
    rfl
  · rw [hplace]
    rfl
  · rw [h.used, hplace]
    exact ⟨nofun, nofun⟩
  · cases c with
    | initial i => exact Iff.rfl
    | created k =>
        have hk : k ≠ s.blocks.made := fun hk => hc (by rw [hk])
        show s.blocks.made + 1 ≤ k ↔ s.blocks.made ≤ k
        omega
  · refine ⟨fun hf => ?_, nofun⟩
    have hf : s.blocks.made + 1 ≤ s.blocks.made := hf
    omega
  · rw [hpc]
    rfl

/-- The thread goes off with its block. -/
theorem PoolInv.leave (h : PoolInv size s l place) (hpc : s.pc t = .got (some b)) :
    PoolInv size ⟨{ s.blocks with used := update s.blocks.used b true }, update s.pc t .elsewhere⟩ l
      (update place b .used) := by
  have hplace : place b = .hand t .given := (h.hands t b .given).mp (by rw [hpc]; rfl)
  refine h.turn rfl ?_ rfl (places_update h.hands ?_ ?_ ?_ nofun) ?_ rfl trivial
    (place_update h.used (fun c hc => ?_) ?_)
    (fun c => (place_update (fun c => (h.fresh c).symm) (fun c _ => ?_) ?_ c).symm)
    (h.index_of rfl ?_)
  · rw [hpc]
    rfl
  · intro c g hc
    rw [hpc] at hc
    exact (Prod.mk.inj (Option.some.inj hc)).1.symm
  · intro u g hu
    rw [hplace] at hu
    exact (Place.hand.inj hu).1.symm
  · exact fun _ _ => ⟨nofun, fun hκ => by cases hκ.2⟩
  · rw [hplace]
    rfl
  · show update s.blocks.used b true c = true ↔ _
    rw [Function.update_of_ne hc]
  · show update s.blocks.used b true b = true ↔ _
    rw [Function.update_self]
    exact ⟨fun _ => rfl, fun _ => rfl⟩
  · cases c <;> exact Iff.rfl
  · have hno : ¬s.blocks.Fresh size b := by
      rw [← h.fresh, hplace]
      nofun
    refine ⟨fun hf => absurd ?_ hno, nofun⟩
    cases b <;> exact hf
  · rw [hpc]
    rfl

theorem PoolInv.walked (h : PoolInv size s l place) (hold : (s.pc t).look = none)
    (hhand : (s.pc t).hand = none) (hdraw : (s.pc t).drawing = 0) :
    PoolInv size ⟨s.blocks, update s.pc t .elsewhere⟩ l place :=
  h.walk rfl hold rfl hhand.symm trivial rfl (fun _ => Iff.rfl) (h.index_of rfl hdraw.symm)

theorem PoolInv.step (hT : Fintype.card T + 1 < 2147483648) (h : PoolInv size s l place)
    {act : BlockAct T} {s' : PoolState T} (hstep : poolThreadStep size s act = some s') :
    ∃ l' place', PoolInv size s' l' place' := by
  cases act with
  | requisition t =>
      simp only [poolThreadStep, Option.ite_none_right_eq_some] at hstep
      obtain ⟨hpc, hstep⟩ := hstep
      obtain rfl := Option.some.inj hstep
      exact ⟨l, place, h.requisition hpc⟩
  | giveBack t b =>
      simp only [poolThreadStep, Option.ite_none_right_eq_some] at hstep
      obtain ⟨⟨hpc, hused⟩, hstep⟩ := hstep
      obtain rfl := Option.some.inj hstep
      exact ⟨l, _, h.giveBack hpc hused⟩
  | go t alloc =>
      obtain ⟨r, hr, rfl⟩ := Option.map_eq_some_iff.mp hstep
      cases hpc : s.pc t with
      | elsewhere =>
          rw [hpc] at hr
          cases hr
      | poolLoad =>
          rw [hpc] at hr
          obtain rfl := Option.some.inj hr
          exact ⟨l, place, h.poolLoad hpc⟩
      | poolAdd =>
          rw [hpc] at hr
          obtain rfl := Option.some.inj hr
          exact ⟨l, h.poolAdd hpc⟩
      | list q =>
          rw [hpc] at hr
          obtain ⟨x, hx, rfl⟩ := Option.map_eq_some_iff.mp hr
          exact h.list_step hT hpc hx
      | create =>
          rw [hpc] at hr
          simp only [requisitionBlock] at hr
          split at hr
          · obtain rfl := Option.some.inj hr
            exact ⟨l, _, h.create hpc⟩
          · obtain rfl := Option.some.inj hr
            refine ⟨l, place, h.walk rfl ?_ rfl ?_ trivial rfl (fun _ => Iff.rfl)
              (h.index_of rfl ?_)⟩ <;> rw [hpc] <;> rfl
      | got block =>
          rw [hpc] at hr
          cases hr
  | leave t =>
      simp only [poolThreadStep] at hstep
      cases hpc : s.pc t with
      | got block =>
          rw [hpc] at hstep
          cases block with
          | none =>
              obtain rfl := Option.some.inj hstep
              exact ⟨l, place, h.walked (by rw [hpc]; rfl) (by rw [hpc]; rfl) (by rw [hpc]; rfl)⟩
          | some b =>
              obtain rfl := Option.some.inj hstep
              exact ⟨l, _, h.leave hpc⟩
      | _ =>
          rw [hpc] at hstep
          cases hstep

/-- **The blocks are where they belong, in every reachable state.** -/
theorem blocks_keep (hT : Fintype.card T + 1 < 2147483648) :
    (blockPool T size).Keeps (fun _ _ => True) fun s => ∃ l place, PoolInv size s l place where
  start s hs := by
    obtain rfl := hs
    have hzero : ∀ (w : PoolPc → ℕ), w .elsewhere = 0 → tally w (fun _ : T => .elsewhere) = 0 :=
      fun w hw => (tally_eq_zero w _).mpr fun _ => hw
    refine ⟨[], fun _ => .fresh, ⟨rfl, List.nodup_nil, fun b => ⟨nofun, nofun⟩⟩,
      fun _ _ _ => ⟨nofun, nofun⟩, ⟨fun b => ?_, nofun, nofun⟩, fun _ => trivial,
      fun _ => ⟨nofun, nofun⟩, fun b => ⟨fun _ => ?_, fun _ => rfl⟩, ?_⟩
    · have hlooks : (⟨.new, fun _ : T => .elsewhere⟩ : PoolState T).looks b = 0 := hzero _ rfl
      rw [hlooks]
      show (0 : BitVec 32) = marked false (0 + 0)
      decide
    · cases b with
      | initial i => exact .inl (Nat.zero_le _)
      | created k => exact Nat.zero_le _
    · have hdraw : tally PoolPc.drawing (fun _ : T => PoolPc.elsewhere) = 0 := hzero _ rfl
      show 0 + tally PoolPc.drawing (fun _ : T => PoolPc.elsewhere) ≤ _
      rw [hdraw]
      exact Nat.zero_le _
  step s act s' h _ hstep := by
    obtain ⟨l, place, h⟩ := h
    exact h.step hT hstep

/-! ## §5. What the pool is for. -/

/-- The block that a thread has been given. -/
def FreePc.given {N : Type} : FreePc N → Option N
  | settle head => some head
  | got node => node
  | _ => none

def PoolPc.given : PoolPc → Option BlockId
  | list q => q.given
  | got block => block
  | _ => none

/-- What is seen of the blocks from outside. -/
def PoolState.abs (s : PoolState T) : Pool T BlockId := ⟨s.blocks.used, fun t => (s.pc t).given⟩

theorem afterList_given (q : FreePc BlockId) : (afterList q).given = q.given := by
  cases q with
  | got node => cases node <;> rfl
  | _ => rfl

theorem whileHead_given {N : Type} (o : Option N) : (whileHead o).given = none := by
  cases o <;> rfl

theorem after_given {N : Type} (x : AddThen N) : x.pc.given = none := by
  cases x with
  | ret => rfl
  | loop o => exact whileHead_given o

theorem hand_of_given {p : PoolPc} (h : p.given = some b) :
    p.hand = some (b, .taken) ∨ p.hand = some (b, .given) := by
  cases p with
  | list q =>
      cases q with
      | settle head =>
          obtain rfl := Option.some.inj h
          exact .inl rfl
      | got node =>
          have h : node = some b := h
          rw [h]
          exact .inr rfl
      | _ => cases h
  | got block =>
      have h : block = some b := h
      rw [h]
      exact .inr rfl
  | _ => cases h

omit [Fintype T] in
/-- A thread's step, seen from outside. -/
theorem abs_update (p : PoolPc) :
    (⟨σ', update s.pc t p⟩ : PoolState T).abs = ⟨σ'.used, update s.abs.hand t p.given⟩ := by
  unfold PoolState.abs
  congr 1
  funext u
  by_cases hu : u = t
  · subst hu
    rw [Function.update_self]
    exact congrArg PoolPc.given (Function.update_self ..)
  · rw [Function.update_of_ne hu]
    exact congrArg PoolPc.given (Function.update_of_ne hu ..)

omit [Fintype T] in
theorem abs_same {p : PoolPc} (hused : σ'.used = s.blocks.used) (hp : p.given = (s.pc t).given) :
    (⟨σ', update s.pc t p⟩ : PoolState T).abs = s.abs := by
  rw [abs_update, hused, hp]
  show (⟨_, update s.abs.hand t (s.abs.hand t)⟩ : Pool T BlockId) = _
  rw [Function.update_eq_self]
  rfl

/-- A block that is in the pool is handed out. -/
theorem abs_take {p : PoolPc} (h : PoolInv size s l place) (hused : σ'.used = s.blocks.used)
    (hold : (s.pc t).given = none) (hp : p.given = some b) (hplace : place b ≠ .used)
    (hfree : ∀ u g, place b ≠ .hand u g) :
    (pool T BlockId).step s.abs (.take t b) =
      some (⟨σ', update s.pc t p⟩ : PoolState T).abs := by
  rw [abs_update, hused, hp]
  have hnot : s.blocks.used b = false := by
    cases hb : s.blocks.used b with
    | false => rfl
    | true => exact absurd ((h.used b).mp hb) hplace
  have hnobody : ∀ u, s.abs.hand u ≠ some b := by
    intro u hu
    rcases hand_of_given hu with hg | hg
    · exact hfree u .taken ((h.hands u b .taken).mp hg)
    · exact hfree u .given ((h.hands u b .given).mp hg)
  show poolStep s.abs (.take t b) = _
  unfold poolStep
  exact if_pos ⟨hold, hnot, hnobody⟩

/-- In the code of the list a thread is given a block by the exchange of the head only. -/
theorem list_given {σ : FreeList BlockId} {r : FreeList BlockId × FreePc BlockId}
    (hstep : freeListStep σ q = some r) :
    r.2.given = q.given ∨ ∃ b read, q = .swap b read ∧ σ.freeListHead = some b ∧ r.2 = .settle b := by
  cases q with
  | add node =>
      obtain rfl := Option.some.inj hstep
      refine .inl ?_
      show (if σ.freeListRefs node = 0 then FreePc.addHead node .ret else .added).given = none
      split <;> rfl
  | load =>
      obtain rfl := Option.some.inj hstep
      exact .inl (whileHead_given _)
  | raise head refs =>
      simp only [freeListStep, tryGet] at hstep
      split at hstep <;> obtain rfl := Option.some.inj hstep <;> exact .inl rfl
  | swap head read =>
      simp only [freeListStep, tryGet] at hstep
      split at hstep
      · rename_i hhead
        obtain rfl := Option.some.inj hstep
        exact .inr ⟨head, read, rfl, hhead, rfl⟩
      · obtain rfl := Option.some.inj hstep
        exact .inl rfl
  | drop prevHead head =>
      obtain rfl := Option.some.inj hstep
      refine .inl ?_
      show (if _ then FreePc.addHead prevHead (.loop head) else whileHead head).given = none
      split
      · rfl
      · exact whileHead_given _
  | addSwap node head after =>
      simp only [freeListStep, addKnowingRefcountIsZero] at hstep
      split at hstep
      · obtain rfl := Option.some.inj hstep
        exact .inl (after_given _)
      · obtain rfl := Option.some.inj hstep
        exact .inl rfl
  | addAgain node head after =>
      obtain rfl := Option.some.inj hstep
      refine .inl ?_
      show (if _ then FreePc.addNext node head after else after.pc).given = none
      split
      · rfl
      · exact after_given _
  | added => cases hstep
  | got node => cases hstep
  | _ =>
      obtain rfl := Option.some.inj hstep
      exact .inl rfl

/-- A step of a thread in the code of the list, seen from outside. -/
theorem abs_list (h : PoolInv size s l place) (hpc : s.pc t = .list q)
    {r : FreeList BlockId × FreePc BlockId} (hstep : freeListStep s.blocks.list q = some r) :
    (s.move t r.1 r.2).abs = s.abs ∨
      ∃ act, (pool T BlockId).step s.abs act = some (s.move t r.1 r.2).abs := by
  rcases list_given hstep with hsame | ⟨b, read, rfl, hhead, hr⟩
  · refine .inl (abs_same rfl ?_)
    rw [afterList_given, hpc]
    exact hsame
  · -- the first block of the list is in nobody's hand
    obtain ⟨hchain, -, hmem⟩ := h.listed
    have hplace : place b = .listed := by
      cases l with
      | nil =>
          have hnone : s.blocks.list.freeListHead = none := hchain
          rw [hhead] at hnone
          cases hnone
      | cons c l =>
          obtain rfl : b = c := Option.some.inj (hhead.symm.trans hchain.1)
          exact (hmem b).mp (List.mem_cons_self ..)
    refine .inr ⟨.take t b, abs_take h rfl ?_ ?_ ?_ ?_⟩
    · rw [hpc]
      rfl
    · rw [hr]
      rfl
    · rw [hplace]
      nofun
    · rw [hplace]
      nofun

theorem abs_step (h : PoolInv size s l place) {act : BlockAct T} {s' : PoolState T}
    (hstep : poolThreadStep size s act = some s') :
    s'.abs = s.abs ∨ ∃ a, (pool T BlockId).step s.abs a = some s'.abs := by
  cases act with
  | requisition t =>
      simp only [poolThreadStep, Option.ite_none_right_eq_some] at hstep
      obtain ⟨hpc, hstep⟩ := hstep
      obtain rfl := Option.some.inj hstep
      refine .inl (abs_same rfl ?_)
      rw [hpc]
      rfl
  | giveBack t b =>
      simp only [poolThreadStep, Option.ite_none_right_eq_some] at hstep
      obtain ⟨⟨hpc, hused⟩, hstep⟩ := hstep
      obtain rfl := Option.some.inj hstep
      refine .inr ⟨.put b, ?_⟩
      have hsame : update s.abs.hand t (PoolPc.list (.add b)).given = s.abs.hand := by
        rw [Function.update_eq_self_iff]
        show none = (s.pc t).given
        rw [hpc]
        rfl
      rw [abs_update, hsame]
      exact if_pos hused
  | go t alloc =>
      obtain ⟨r, hr, rfl⟩ := Option.map_eq_some_iff.mp hstep
      cases hpc : s.pc t with
      | elsewhere =>
          rw [hpc] at hr
          cases hr
      | poolLoad =>
          rw [hpc] at hr
          obtain rfl := Option.some.inj hr
          refine .inl (abs_same rfl ?_)
          rw [hpc]
          split <;> rfl
      | poolAdd =>
          rw [hpc] at hr
          obtain rfl := Option.some.inj hr
          dsimp only
          split
          · have hplace : place (.initial s.blocks.initialBlockPoolIndex) = .fresh :=
              (h.fresh _).mpr (.inl (Nat.le_refl _))
            refine .inr ⟨.take t _, abs_take h rfl ?_ rfl ?_ ?_⟩
            · rw [hpc]
              rfl
            · rw [hplace]
              nofun
            · rw [hplace]
              nofun
          · refine .inl (abs_same rfl ?_)
            rw [hpc]
            rfl
      | list q =>
          rw [hpc] at hr
          obtain ⟨x, hx, rfl⟩ := Option.map_eq_some_iff.mp hr
          exact abs_list h hpc hx
      | create =>
          rw [hpc] at hr
          simp only [requisitionBlock] at hr
          split at hr
          · obtain rfl := Option.some.inj hr
            have hplace : place (.created s.blocks.made) = .fresh :=
              (h.fresh _).mpr (Nat.le_refl _)
            refine .inr ⟨.take t _, abs_take h rfl ?_ rfl ?_ ?_⟩
            · rw [hpc]
              rfl
            · rw [hplace]
              nofun
            · rw [hplace]
              nofun
          · obtain rfl := Option.some.inj hr
            refine .inl (abs_same rfl ?_)
            rw [hpc]
            rfl
      | got block =>
          rw [hpc] at hr
          cases hr
  | leave t =>
      simp only [poolThreadStep] at hstep
      cases hpc : s.pc t with
      | got block =>
          rw [hpc] at hstep
          cases block with
          | none =>
              obtain rfl := Option.some.inj hstep
              refine .inl (abs_same rfl ?_)
              rw [hpc]
              rfl
          | some b =>
              obtain rfl := Option.some.inj hstep
              refine .inr ⟨.leave t, ?_⟩
              have hhand : s.abs.hand t = some b := by
                show (s.pc t).given = _
                rw [hpc]
                rfl
              rw [abs_update]
              simp only [pool, poolStep, hhand]
              rfl
      | _ =>
          rw [hpc] at hstep
          cases hstep

theorem blocks_refine (hT : Fintype.card T + 1 < 2 ^ 31) :
    (blockPool T size).Refines (pool T BlockId) (fun _ _ => True) (fun _ _ => True)
      PoolState.abs where
  start s hs := by
    obtain rfl := hs
    rfl
  step s act s' hr _ hstep := by
    obtain ⟨l, place, h⟩ := (blocks_keep (by omega)).reachable hr
    rcases abs_step h hstep with hsame | ⟨a, ha⟩
    · exact .inl hsame
    · exact .inr ⟨a, trivial, ha⟩

/-- **The array, the list and the allocator together are a pool**: `requisition_block` hands
    out blocks that are in no hand and not in use, whatever the threads do meanwhile. -/
theorem block_pool_exclusive (hT : Fintype.card T + 1 < 2 ^ 31) :
    (blockPool T size).Refines (pool T BlockId) (fun _ _ => True) (fun _ _ => True)
      PoolState.abs ∧
    ∀ s, (blockPool T size).Reachable s → s.abs.Exclusive :=
  ⟨blocks_refine hT, fun _ hs => (blocks_refine hT).keeps pool_exclusive hs⟩

/-- Thread 0 gets a block, thread 1 gives it back, and thread 0 gets it from the list; then
    thread 1 gets another one. -/
def reusedActs : List (BlockAct (Fin 2)) :=
  [.requisition 0, .go 0 true, .go 0 true, .go 0 true, .leave 0, .giveBack 1 (.created 0)] ++
    List.replicate 5 (.go 1 true) ++ .requisition 0 :: List.replicate 7 (.go 0 true) ++
    [.requisition 1, .go 1 true, .go 1 true, .go 1 true]

theorem block_pool_exclusive_two :
    (blockPool (Fin 2) 6).Refines (pool (Fin 2) BlockId) (fun _ _ => True) (fun _ _ => True)
        PoolState.abs
      ∧ ∃ s, (blockPool (Fin 2) 0).run ⟨.new, fun _ => .elsewhere⟩ reusedActs = some s
        ∧ s.pc 0 = .got (some (.created 0)) ∧ s.pc 1 = .got (some (.created 1))
        ∧ s.abs.hand 0 = some (.created 0) ∧ s.abs.hand 1 = some (.created 1)
        ∧ s.abs.Exclusive := by
  have hrun : ((blockPool (Fin 2) 0).run ⟨.new, fun _ => .elsewhere⟩ reusedActs).map
      (fun s => (s.pc 0, s.pc 1, s.abs.hand 0, s.abs.hand 1))
      = some (.got (some (.created 0)), .got (some (.created 1)), some (.created 0),
        some (.created 1)) := by decide
  obtain ⟨s, hrun, hends⟩ := Option.map_eq_some_iff.mp hrun
  simp only [Prod.mk.injEq] at hends
  obtain ⟨h0, h1, hh0, hh1⟩ := hends
  exact ⟨(block_pool_exclusive (by decide)).1, s, hrun, h0, h1, hh0, hh1,
    (block_pool_exclusive (by decide)).2 s (.after rfl reusedActs hrun)⟩

/-! ## §6. What is on the list. -/

/-- A thread is inside a call with the block. -/
def PoolPc.Handles (p : PoolPc) (b : BlockId) : Prop :=
  (∃ g, p.hand = some (b, g)) ∨ p.look = some b

/-- The list, in a state in which it works. -/
structure FreeListOk (size : ℕ) (s : PoolState T) (l : List BlockId) : Prop where
  chain : Chain s.blocks.list.freeListNext s.blocks.list.freeListHead l
  nodup : l.Nodup
  /-- A block on the list is in nobody's hand and not in use. -/
  free : ∀ b ∈ l, s.blocks.used b = false ∧ ∀ t g, (s.pc t).hand ≠ some (b, g)
  /-- Its count is the number of threads that look at it, and one more. -/
  counted : ∀ b ∈ l, (s.blocks.list.freeListRefs b).toNat = s.looks b + 1
  /-- A block that has been handed out and is neither in use nor on the list is with a
      thread that has not finished its call. -/
  kept : ∀ b, ¬s.blocks.Fresh size b → s.blocks.used b = false → b ∉ l →
    ∃ t, (s.pc t).Handles b
  /-- concurrentqueue.h:1399, the assertion. -/
  asserted : ∀ t b, s.pc t = .list (.settle b) →
    s.blocks.list.freeListRefs b &&& shouldBeOnFreelist = 0
  /-- `initialBlockPoolIndex` does not run away. -/
  drawn : s.blocks.initialBlockPoolIndex ≤ size + Fintype.card T

omit [DecidableEq T] in
theorem exists_look (h : 0 < s.looks b) : ∃ t, (s.pc t).look = some b := by
  by_contra hno
  have hzero : s.looks b = 0 := by
    refine (tally_eq_zero _ _).mpr fun t => if_neg fun ht => hno ⟨t, ht⟩
  omega

/-- **The free list loses no block and hands none out twice**, with any number of threads
    that the counts can count: in every reachable state what is linked from the head are
    blocks that nobody has, each once, and every other block is fresh, in use or in a call. -/
theorem free_list_sound (hT : Fintype.card T + 1 < 2 ^ 31)
    (hs : (blockPool T size).Reachable s) : ∃ l, FreeListOk size s l := by
  obtain ⟨l, place, h⟩ := (blocks_keep (by omega)).reachable hs
  obtain ⟨hchain, hnodup, hmem⟩ := h.listed
  have hT' : Fintype.card T + 1 < 2147483648 := by omega
  refine ⟨l, hchain, hnodup, fun b hb => ⟨?_, fun t g hg => ?_⟩, fun b hb => ?_,
    fun b hfresh hused hb => ?_, fun t b hpc => ?_, ?_⟩
  · have hplace := (hmem b).mp hb
    cases hu : s.blocks.used b with
    | false => rfl
    | true =>
        rw [(h.used b).mp hu] at hplace
        cases hplace
  · have hplace := (hmem b).mp hb
    rw [(h.hands t b g).mp hg] at hplace
    cases hplace
  · have hlt := count_lt hT' s b (place b)
    have hrefs := h.counts.refs b
    rw [(hmem b).mp hb] at hrefs hlt
    rw [hrefs]
    exact marked_toNat hlt
  · cases hplace : place b with
    | fresh => exact absurd ((h.fresh b).mp hplace) hfresh
    | used =>
        rw [(h.used b).mpr hplace] at hused
        cases hused
    | pending =>
        obtain ⟨t, ht⟩ := exists_look (h.counts.pending b hplace)
        exact ⟨t, .inr ht⟩
    | listed => exact absurd ((hmem b).mpr hplace) hb
    | hand t g => exact ⟨t, .inl ⟨g, (h.hands t b g).mpr hplace⟩⟩
  · have hplace := h.place_of (b := b) (g := .taken) hpc rfl
    have hlt := count_lt hT' s b (place b)
    rw [h.counts.refs b]
    rw [hplace] at hlt ⊢
    exact unmarked_and hlt
  · have hindex := h.index
    omega

/-- A block is made, used and given back: it is on the list then. -/
def oneBack : List (BlockAct (Fin 2)) :=
  [.requisition 0, .go 0 true, .go 0 true, .go 0 true, .leave 0, .giveBack 1 (.created 0)] ++
    List.replicate 5 (.go 1 true)

theorem free_list_sound_oneBack :
    ∃ s, (blockPool (Fin 2) 0).run ⟨.new, fun _ => .elsewhere⟩ oneBack = some s ∧
      s.blocks.list.freeListHead = some (.created 0) ∧ ∃ l, FreeListOk 0 s l := by
  have hhead : ((blockPool (Fin 2) 0).run ⟨.new, fun _ => .elsewhere⟩ oneBack).map
      (fun s => s.blocks.list.freeListHead) = some (some (.created 0)) := by decide
  obtain ⟨s, hrun, hhead⟩ := Option.map_eq_some_iff.mp hhead
  exact ⟨s, hrun, hhead, free_list_sound (by decide) (.after rfl _ hrun)⟩

end HThread.RunQueue
