import BfTree.CircularBuffer.Layout
import BfTree.Lib.Ownership

/-!
# Who owns a block

Between steps each block of the ring is in one place: a task has it for itself, a free
list keeps it, or it stands in the ring for anyone to take. Each reserved block that is
not evicted has one task that is evicting it.
-/

namespace BfTree

open Lib

/-- The block is large enough for a free list. -/
def CircularBuffer.HasClass (b : CircularBuffer) (ptr : Nat) : Prop :=
  ∃ c, b.sizeClassSmallerThan (b.getMetaFromDataPtr ptr).size = some c

namespace Task

/-- The block that a task has for itself, and the state it is in. -/
def claim (b : CircularBuffer) : Task → Option (Nat × Claim Nat MetaState)
  | .guard ptr => some (ptr, ⟨.notReady, none⟩)
  | .handle ptr => some (ptr, ⟨.beginTombstone, none⟩)
  | .alloc (.taken ptr) _ => some (ptr, ⟨.freeListed, none⟩)
  | .dealloc (.linked c) ptr => some (ptr, ⟨.beginTombstone, some c⟩)
  | .dealloc _ ptr => some (ptr, ⟨.beginTombstone, none⟩)
  | .evict .callback start _ => some (b.dataPtr start, ⟨.beginTombstone, none⟩)
  | .evict .dealloc start _ => some (b.dataPtr start, ⟨.beginTombstone, none⟩)
  | .evict .unlinked start _ => some (b.dataPtr start, ⟨.freeListed, none⟩)
  | .evict .tombstoned start _ => some (b.dataPtr start, ⟨.tombstone, none⟩)
  | _ => none

/-- The block that a task has reserved and not evicted yet. -/
def reserves : Task → Option Nat
  | .evict .finish _ _ => none
  | .evict .bump _ _ => none
  | .evict _ start _ => some start
  | _ => none

/-- The task is in `evict_one`, between the reservation and the end. -/
def isEvict : Task → Bool
  | .evict .. => true
  | _ => false

theorem claim_ne_evicted {b : CircularBuffer} {t : Task} {p : Nat} {y : Claim Nat MetaState}
    (h : t.claim b = some (p, y)) : y.state ≠ .evicted ∧ y.state ≠ .ready := by
  unfold claim at h
  split at h <;> cases h <;> exact ⟨nofun, nofun⟩

theorem claim_link {b : CircularBuffer} {t : Task} {p c : Nat} {st : MetaState}
    (h : t.claim b = some (p, ⟨st, some c⟩)) : t = .dealloc (.linked c) p := by
  unfold claim at h
  split at h <;> cases h
  rfl

theorem claim_tombstone {b : CircularBuffer} {t : Task} {p : Nat} {link : Option Nat}
    (h : t.claim b = some (p, ⟨.tombstone, link⟩)) :
    ∃ start, t.reserves = some start ∧ p = b.dataPtr start := by
  unfold claim at h
  split at h <;> cases h
  exact ⟨_, rfl, rfl⟩

/-- What a task relies on about sizes. -/
def SizesOk (b : CircularBuffer) : Task → Prop
  | .alloc (.taken ptr) size =>
    0 < size ∧ size ∈ b.sizeClasses ∧ size ≤ (b.getMetaFromDataPtr ptr).size
  | .alloc _ size => 0 < size ∧ size ∈ b.sizeClasses
  | .evict .find start _ => b.HasClass (b.dataPtr start)
  | _ => True

theorem SizesOk.congr {b b' : CircularBuffer} {t : Task} (h : t.SizesOk b)
    (hclasses : b'.sizeClasses = b.sizeClasses)
    (htaken : ∀ ptr size, t = .alloc (.taken ptr) size →
      (b'.getMetaFromDataPtr ptr).size = (b.getMetaFromDataPtr ptr).size)
    (hfind : ∀ start stop, t = .evict .find start stop → b.HasClass (b.dataPtr start) →
      b'.HasClass (b'.dataPtr start)) : t.SizesOk b' := by
  cases t with
  | alloc phase size =>
    cases phase with
    | taken ptr =>
      simp only [SizesOk, hclasses, htaken ptr size rfl]
      exact h
    | _ =>
      simp only [SizesOk, hclasses]
      exact h
  | evict phase start stop =>
    cases phase with
    | find => exact hfind start stop rfl h
    | _ => trivial
  | _ => trivial

end Task

/-! ## Changes of one block -/

namespace CircularBuffer

variable {b b' : CircularBuffer} {p : Nat} {reserved rest : List Nat}

/-- Only the state of one block changes, and the places where it is linked. -/
structure SameRing (b b' : CircularBuffer) (p : Nat) : Prop where
  capacity : b'.capacity = b.capacity
  classes : b'.sizeClasses = b.sizeClasses
  head : b'.headAddr = b.headAddr
  evicting : b'.evictingAddr = b.evictingAddr
  tail : b'.tailAddr = b.tailAddr
  size : ∀ q, (b'.getMetaFromDataPtr q).size = (b.getMetaFromDataPtr q).size
  state : ∀ q, q ≠ p → cbAllocMetaSize ≤ q →
    (b'.getMetaFromDataPtr q).state = (b.getMetaFromDataPtr q).state
  lists : ∀ c q, q ≠ p → (b'.listHeads c).count q = (b.listHeads c).count q

theorem SameRing.refl (b : CircularBuffer) (p : Nat) : SameRing b b p :=
  ⟨rfl, rfl, rfl, rfl, rfl, fun _ => rfl, fun _ _ _ => rfl, fun _ _ _ => rfl⟩

theorem getMetaFromDataPtr_setState (b : CircularBuffer) (p : Nat) (st : MetaState) :
    (b.setState p st).getMetaFromDataPtr p = ⟨(b.getMetaFromDataPtr p).size, st⟩ :=
  Function.update_self ..

theorem SameRing.setState (b : CircularBuffer) (hp : cbAllocMetaSize ≤ p) (st : MetaState) :
    SameRing b (b.setState p st) p where
  capacity := rfl
  classes := rfl
  head := rfl
  evicting := rfl
  tail := rfl
  size q := by
    by_cases h : q - cbAllocMetaSize = p - cbAllocMetaSize
    · have hq : ∀ b : CircularBuffer, b.getMetaFromDataPtr q = b.getMetaFromDataPtr p := fun b => by
        rw [getMetaFromDataPtr, h, getMetaFromDataPtr]
      rw [hq, hq, getMetaFromDataPtr_setState]
    · exact congrArg AllocMeta.size (Function.update_of_ne h _ _)
  state q hq hle := congrArg AllocMeta.state (Function.update_of_ne (by omega) _ _)
  lists _ _ _ := rfl

theorem SameRing.setList (b : CircularBuffer) {c : Nat} {list : List Nat}
    (h : ∀ q, q ≠ p → list.count q = (b.listHeads c).count q) : SameRing b (b.setList c list) p where
  capacity := rfl
  classes := rfl
  head := rfl
  evicting := rfl
  tail := rfl
  size _ := rfl
  state _ _ _ := rfl
  lists c' q hq := by
    by_cases hc : c' = c
    · subst hc
      rw [← h q hq]
      exact congrArg (List.count q) (Function.update_self ..)
    · exact congrArg (List.count q) (Function.update_of_ne hc _ _)

theorem SameRing.dataPtr (h : SameRing b b' p) : b'.dataPtr = b.dataPtr := by
  funext a
  rw [CircularBuffer.dataPtr, logicalToPhysical, h.capacity]
  rfl

theorem SameRing.getMeta_size (h : SameRing b b' p) (a : Nat) :
    (b'.getMeta a).size = (b.getMeta a).size := by
  rw [← getMeta_eq, ← getMeta_eq, h.dataPtr, h.size]

theorem SameRing.blockLen (h : SameRing b b' p) : b'.blockLen = b.blockLen := by
  funext a
  rw [CircularBuffer.blockLen, h.getMeta_size, CircularBuffer.blockLen]

theorem SameRing.layout (h : SameRing b b' p) (hl : Layout b reserved rest) :
    Layout b' reserved rest :=
  hl.congr h.capacity h.blockLen h.head h.evicting h.tail h.classes

theorem SameRing.isBlock (h : SameRing b b' p) (blocks : List Nat) :
    b'.IsBlock blocks = b.IsBlock blocks := by
  funext q
  rw [IsBlock, h.dataPtr]
  rfl

theorem SameRing.smaller (h : SameRing b b' p) (size : Nat) :
    b'.sizeClassSmallerThan size = b.sizeClassSmallerThan size := by
  rw [sizeClassSmallerThan, h.classes]
  rfl

theorem SameRing.hasClass (h : SameRing b b' p) {q : Nat} (hq : b.HasClass q) : b'.HasClass q := by
  obtain ⟨c, hc⟩ := hq
  exact ⟨c, by rw [h.smaller, h.size, hc]⟩

theorem SameRing.claim (h : SameRing b b' p) (t : Task) : t.claim b' = t.claim b := by
  unfold Task.claim
  rw [h.dataPtr]

theorem SameRing.sizesOk (h : SameRing b b' p) {t : Task} (ht : t.SizesOk b) : t.SizesOk b' :=
  ht.congr h.classes (fun _ _ _ => h.size _) fun start _ _ hclass => by
    rw [h.dataPtr]
    exact h.hasClass hclass

theorem IsBlock.le {blocks : List Nat} (h : b.IsBlock blocks p) : cbAllocMetaSize ≤ p := by
  obtain ⟨a, -, rfl⟩ := h
  exact Nat.le_add_left _ _

end CircularBuffer

open CircularBuffer

/-! ## The invariant -/

namespace RingSys

variable {W : Type} [DecidableEq W] {s s' : RingSys W} {reserved rest lost lost' : List Nat}
  {i : W} {t : Task} {p : Nat} {b' : CircularBuffer} {l : Option W}

/-- The blocks of the ring as cells. -/
def cells (s : RingSys W) (blocks lost : List Nat) : Cells W Nat Nat MetaState where
  IsCell := s.buffer.IsBlock blocks
  cls ptr := s.buffer.sizeClassSmallerThan (s.buffer.getMetaFromDataPtr ptr).size
  own i := (s.tasks i).claim s.buffer
  lists := s.buffer.listHeads
  state ptr := (s.buffer.getMetaFromDataPtr ptr).state
  lost := lost

/-- Evictions in progress. -/
structure Evictions (s : RingSys W) (reserved rest : List Nat) : Prop where
  working : ∀ i a, (s.tasks i).reserves = some a →
    a ∈ reserved ∧ (s.buffer.getMeta a).state ≠ .evicted
  distinct : ∀ i j a, (s.tasks i).reserves = some a → (s.tasks j).reserves = some a → i = j
  pending : ∀ a ∈ reserved, (s.buffer.getMeta a).state ≠ .evicted →
    ∃ i, (s.tasks i).reserves = some a
  untouched : ∀ a ∈ rest, (s.buffer.getMeta a).state ≠ .evicted
  busy : s.buffer.headAddr < s.buffer.evictingAddr → ∃ i, (s.tasks i).isEvict = true

/-- The blocks that were taken from a free list and not used are `lost`. -/
structure Inv (s : RingSys W) (reserved rest lost : List Nat) : Prop where
  layout : Layout s.buffer reserved rest
  coherent : (s.cells (reserved ++ rest) lost).Coherent .freeListed
  evictions : s.Evictions reserved rest
  sizes : ∀ i, (s.tasks i).SizesOk s.buffer
  classed : ∀ q, s.buffer.IsBlock (reserved ++ rest) q →
    (s.buffer.getMetaFromDataPtr q).state = .freeListed → s.buffer.HasClass q
  locks : ∀ i c ptr, s.tasks i = .dealloc (.linked c) ptr → s.listLocks c = some i

theorem Evictions.congr (h : s.Evictions reserved rest)
    (hstate : ∀ a ∈ reserved ++ rest,
      ((s'.buffer.getMeta a).state = .evicted ↔ (s.buffer.getMeta a).state = .evicted))
    (hreserves : ∀ j, (s'.tasks j).reserves = (s.tasks j).reserves)
    (hevict : ∀ j, (s.tasks j).isEvict = true → (s'.tasks j).isEvict = true)
    (hhead : s'.buffer.headAddr = s.buffer.headAddr)
    (hevicting : s'.buffer.evictingAddr = s.buffer.evictingAddr) : s'.Evictions reserved rest where
  working j a hj := by
    rw [hreserves] at hj
    obtain ⟨hmem, hne⟩ := h.working j a hj
    exact ⟨hmem, fun he => hne ((hstate a (List.mem_append_left _ hmem)).1 he)⟩
  distinct j k a hj hk := by
    rw [hreserves] at hj hk
    exact h.distinct j k a hj hk
  pending a ha hne := by
    obtain ⟨j, hj⟩ := h.pending a ha fun he => hne ((hstate a (List.mem_append_left _ ha)).2 he)
    exact ⟨j, by rw [hreserves, hj]⟩
  untouched a ha he := h.untouched a ha ((hstate a (List.mem_append_right _ ha)).1 he)
  busy hlt := by
    rw [hhead, hevicting] at hlt
    obtain ⟨j, hj⟩ := h.busy hlt
    exact ⟨j, hevict j hj⟩

theorem Evictions.update (h : s.Evictions reserved rest) {locks : Nat → Option W}
    (hreserves : t.reserves = (s.tasks i).reserves)
    (hevict : (s.tasks i).isEvict = true → t.isEvict = true)
    (hstate : ∀ a ∈ reserved ++ rest,
      ((b'.getMeta a).state = .evicted ↔ (s.buffer.getMeta a).state = .evicted))
    (hhead : b'.headAddr = s.buffer.headAddr) (hevicting : b'.evictingAddr = s.buffer.evictingAddr) :
    Evictions ⟨b', l, locks, Function.update s.tasks i t⟩ reserved rest := by
  refine h.congr hstate ?_ ?_ hhead hevicting
  · exact (Function.forall_update_iff s.tasks fun j t => t.reserves = (s.tasks j).reserves).2
      ⟨hreserves, fun _ _ => rfl⟩
  · exact (Function.forall_update_iff s.tasks fun j t =>
      (s.tasks j).isEvict = true → t.isEvict = true).2 ⟨hevict, fun _ _ hj => hj⟩

/-- The other blocks when a task changes one block. -/
theorem sameAt (hring : s.buffer.SameRing b' p)
    (hold : ∀ q y, (s.tasks i).claim s.buffer = some (q, y) → q = p)
    (hnew : ∀ q y, t.claim s.buffer = some (q, y) → q = p)
    (hlost : ∀ q, q ≠ p → (q ∈ lost' ↔ q ∈ lost)) {locks : Nat → Option W} (blocks : List Nat) (q : Nat)
    (hq : q ≠ p) :
    Cells.SameAt (s.cells blocks lost)
      (cells ⟨b', l, locks, Function.update s.tasks i t⟩ blocks lost') q where
  own j y := by
    show (Function.update s.tasks i t j).claim b' = _ ↔ _
    rw [hring.claim]
    rw [Function.apply_update (fun _ t => Task.claim s.buffer t)]
    exact Cells.own_update_iff (i := i) (hold q) (hnew q) hq j y
  lists c := hring.lists c q hq
  state hcell := hring.state q hq hcell.le
  isCell := by
    show b'.IsBlock blocks q ↔ _
    rw [hring.isBlock]
    rfl
  cls _ := by
    show b'.sizeClassSmallerThan _ = _
    rw [hring.smaller, hring.size]
    rfl
  lost := hlost q hq

/-- A step of one task that changes one block. -/
theorem Inv.move (h : s.Inv reserved rest lost) {locks : Nat → Option W}
    (hring : s.buffer.SameRing b' p)
    (hold : ∀ q y, (s.tasks i).claim s.buffer = some (q, y) → q = p)
    (hnew : ∀ q y, t.claim s.buffer = some (q, y) → q = p)
    (hlost : ∀ q, q ≠ p → (q ∈ lost' ↔ q ∈ lost))
    (hplace : (cells ⟨b', l, locks, Function.update s.tasks i t⟩ (reserved ++ rest) lost').Placed
      .freeListed p)
    (hevicted : (b'.getMetaFromDataPtr p).state = .evicted ↔
      (s.buffer.getMetaFromDataPtr p).state = .evicted)
    (hclass : (b'.getMetaFromDataPtr p).state = .freeListed → s.buffer.HasClass p)
    (hreserves : t.reserves = (s.tasks i).reserves)
    (hevict : (s.tasks i).isEvict = true → t.isEvict = true) (hsizes : t.SizesOk s.buffer)
    (hlock : ∀ c ptr, t = .dealloc (.linked c) ptr → locks c = some i)
    (hlocks : ∀ j c ptr, j ≠ i → s.tasks j = .dealloc (.linked c) ptr → locks c = some j) :
    Inv ⟨b', l, locks, Function.update s.tasks i t⟩ reserved rest lost' where
  layout := hring.layout h.layout
  coherent := h.coherent.move p (sameAt hring hold hnew hlost _) hplace
  evictions := by
    refine h.evictions.update hreserves hevict (fun a _ => ?_) hring.head hring.evicting
    rw [← getMeta_eq, ← getMeta_eq, hring.dataPtr]
    by_cases hp : s.buffer.dataPtr a = p
    · rw [hp]
      exact hevicted
    · rw [hring.state _ hp (Nat.le_add_left _ _)]
  sizes := (Function.forall_update_iff s.tasks fun _ t => t.SizesOk b').2
    ⟨hring.sizesOk hsizes, fun j _ => hring.sizesOk (h.sizes j)⟩
  classed q hq hstate := by
    rw [hring.isBlock] at hq
    by_cases hqp : q = p
    · subst hqp
      exact hring.hasClass (hclass hstate)
    · rw [hring.state q hqp hq.le] at hstate
      exact hring.hasClass (h.classed q hq hstate)
  locks := (Function.forall_update_iff s.tasks fun j t =>
    ∀ c ptr, t = .dealloc (.linked c) ptr → locks c = some j).2
      ⟨hlock, fun j hj c ptr => hlocks j c ptr hj⟩

/-! ## Moves of a block -/

theorem claim_fst {o : Option (Nat × Claim Nat MetaState)} {q : Nat} {y y' : Claim Nat MetaState}
    (hq : o = some (q, y)) (hp : o = some (p, y')) : q = p :=
  congrArg Prod.fst (Option.some.inj (hq.symm.trans hp))

theorem not_linked {st : MetaState} (ht : t.claim s.buffer = some (p, ⟨st, none⟩)) (c ptr : Nat)
    (hc : t = .dealloc (.linked c) ptr) : s.listLocks c = some i := by
  rw [hc] at ht
  cases ht

theorem own_update (hring : s.buffer.SameRing b' p) {locks : Nat → Option W} {blocks : List Nat} :
    (cells ⟨b', l, locks, Function.update s.tasks i t⟩ blocks lost').own i = t.claim s.buffer := by
  show (Function.update s.tasks i t i).claim b' = _
  rw [Function.update_self, hring.claim]

theorem alone_update (hring : s.buffer.SameRing b' p) {locks : Nat → Option W} {blocks : List Nat}
    (halone : ∀ j, j ≠ i → ∀ y, (s.tasks j).claim s.buffer ≠ some (p, y)) (j : W) (hj : j ≠ i)
    (y : Claim Nat MetaState) :
    (cells ⟨b', l, locks, Function.update s.tasks i t⟩ blocks lost').own j ≠ some (p, y) := by
  show (Function.update s.tasks i t j).claim b' ≠ _
  rw [Function.update_of_ne hj, hring.claim]
  exact halone j hj y

theorem unowned_update (hring : s.buffer.SameRing b' p) {locks : Nat → Option W} {blocks : List Nat}
    (halone : ∀ j, j ≠ i → ∀ y, (s.tasks j).claim s.buffer ≠ some (p, y))
    (ht : t.claim s.buffer = none) :
    (cells ⟨b', l, locks, Function.update s.tasks i t⟩ blocks lost').Unowned p := by
  intro j y
  by_cases hj : j = i
  · rw [hj, own_update hring, ht]
    nofun
  · exact alone_update hring halone j hj y

section Moves

variable (h : s.Inv reserved rest lost)
include h

/-- A block in a list whose lock is free. -/
theorem Inv.inList {c : Nat} (hp : p ∈ s.buffer.listHeads c) (hlock : s.listLocks c = none) :
    (s.cells (reserved ++ rest) lost).InList .freeListed c p := by
  refine h.coherent.inList hp fun j y hj hlink => ?_
  obtain ⟨st, link⟩ := y
  subst hlink
  rw [h.locks j c p (Task.claim_link hj)] at hlock
  cases hlock

theorem Inv.owner {y : Claim Nat MetaState} (hi : (s.tasks i).claim s.buffer = some (p, y)) :
    (s.cells (reserved ++ rest) lost).Owner i p y :=
  h.coherent.owner (i := i) hi

variable {st st' : MetaState} (hreserves : t.reserves = (s.tasks i).reserves)
  (hevict : (s.tasks i).isEvict = true → t.isEvict = true) (hsizes : t.SizesOk s.buffer)
include hreserves hevict hsizes

/-- Nothing changes but the phase of a task. -/
theorem Inv.retask (ht : t.claim s.buffer = (s.tasks i).claim s.buffer) :
    Inv ⟨s.buffer, l, s.listLocks, Function.update s.tasks i t⟩ reserved rest lost where
  layout := h.layout
  coherent := by
    have hcells : cells ⟨s.buffer, l, s.listLocks, Function.update s.tasks i t⟩ (reserved ++ rest)
        lost = s.cells (reserved ++ rest) lost := by
      simp only [cells, Cells.mk.injEq, and_true, true_and]
      funext j
      exact (Function.forall_update_iff s.tasks fun j t =>
        t.claim s.buffer = (s.tasks j).claim s.buffer).2 ⟨ht, fun _ _ => rfl⟩ j
    rw [hcells]
    exact h.coherent
  evictions := h.evictions.update hreserves hevict (fun _ _ => Iff.rfl) rfl rfl
  sizes := (Function.forall_update_iff s.tasks fun _ t => t.SizesOk s.buffer).2
    ⟨hsizes, fun j _ => h.sizes j⟩
  classed := h.classed
  locks := by
    refine (Function.forall_update_iff s.tasks fun j t =>
      ∀ c ptr, t = .dealloc (.linked c) ptr → s.listLocks c = some j).2
        ⟨fun c ptr hc => ?_, fun j _ => h.locks j⟩
    rw [hc] at ht
    exact h.locks _ _ _ (Task.claim_link ht.symm)

/-- A task changes the state of the block it has. -/
theorem Inv.keep (hi : (s.tasks i).claim s.buffer = some (p, ⟨st, none⟩))
    (ht : t.claim s.buffer = some (p, ⟨st', none⟩)) (hfree : st' ≠ .freeListed) :
    Inv ⟨s.buffer.setState p st', l, s.listLocks, Function.update s.tasks i t⟩ reserved rest
      lost := by
  have ho := h.owner hi
  have hring := SameRing.setState s.buffer ho.cell.le st'
  have hstate : ((s.buffer.setState p st').getMetaFromDataPtr p).state = st' := by
    rw [getMetaFromDataPtr_setState]
  refine h.move hring (fun q y hq => claim_fst hq hi) (fun q y hq => claim_fst hq ht)
    (fun _ _ => Iff.rfl) ?_ ?_ (fun hs => absurd (hstate.symm.trans hs) hfree) hreserves hevict hsizes
    (not_linked ht) (fun j c ptr _ hj => h.locks j c ptr hj)
  · exact .owned ((own_update hring).trans ht) (alone_update hring ho.alone) ho.cell hstate
      ho.lists nofun ho.notLost
  · rw [hstate]
    refine iff_of_false (Task.claim_ne_evicted ht).1 ?_
    rw [show (s.buffer.getMetaFromDataPtr p).state = st from ho.state]
    exact (Task.claim_ne_evicted hi).1

/-- A task gives up its block. -/
theorem Inv.release (hi : (s.tasks i).claim s.buffer = some (p, ⟨st, none⟩))
    (ht : t.claim s.buffer = none) (hfree : st' ≠ .freeListed) (hne : st' ≠ .evicted) :
    Inv ⟨s.buffer.setState p st', l, s.listLocks, Function.update s.tasks i t⟩ reserved rest
      lost := by
  have ho := h.owner hi
  have hring := SameRing.setState s.buffer ho.cell.le st'
  have hstate : ((s.buffer.setState p st').getMetaFromDataPtr p).state = st' := by
    rw [getMetaFromDataPtr_setState]
  refine h.move hring (fun q y hq => claim_fst hq hi) (fun q y hq => by rw [ht] at hq; cases hq)
    (fun _ _ => Iff.rfl) ?_ ?_ (fun hs => absurd (hstate.symm.trans hs) hfree) hreserves hevict hsizes
    (fun c ptr hc => by rw [hc] at ht; cases ht) (fun j c ptr _ hj => h.locks j c ptr hj)
  · exact .standing (unowned_update hring ho.alone ht) (fun c => List.count_eq_zero.1 (ho.lists c))
      ho.notLost (fun _ => hstate.trans_ne hfree)
  · rw [hstate]
    refine iff_of_false hne ?_
    rw [show (s.buffer.getMetaFromDataPtr p).state = st from ho.state]
    exact (Task.claim_ne_evicted hi).1

/-- A task leaves a block that it has taken from a list. -/
theorem Inv.lose (hi : (s.tasks i).claim s.buffer = some (p, ⟨.freeListed, none⟩))
    (ht : t.claim s.buffer = none) :
    Inv ⟨s.buffer, l, s.listLocks, Function.update s.tasks i t⟩ reserved rest (p :: lost) := by
  have ho := h.owner hi
  have hring := SameRing.refl s.buffer p
  refine h.move hring (fun q y hq => claim_fst hq hi) (fun q y hq => by rw [ht] at hq; cases hq)
    (fun q hq => by simp [hq]) ?_ Iff.rfl (h.classed p ho.cell) hreserves hevict hsizes
    (fun c ptr hc => by rw [hc] at ht; cases ht) (fun j c ptr _ hj => h.locks j c ptr hj)
  exact .lost (unowned_update hring ho.alone ht) (fun c => List.count_eq_zero.1 (ho.lists c))
    ho.cell ho.state List.mem_cons_self

/-- A task takes a block that stands in the ring. -/
theorem Inv.take (hi : (s.tasks i).claim s.buffer = none) (hp : s.buffer.IsBlock (reserved ++ rest) p)
    (hun : (s.cells (reserved ++ rest) lost).Unowned p)
    (hfree : (s.buffer.getMetaFromDataPtr p).state ≠ .freeListed)
    (hne : (s.buffer.getMetaFromDataPtr p).state ≠ .evicted) (hring : s.buffer.SameRing b' p)
    (hlists : b'.listHeads = s.buffer.listHeads) (hstate : (b'.getMetaFromDataPtr p).state = st')
    (hfree' : st' ≠ .freeListed) (ht : t.claim s.buffer = some (p, ⟨st', none⟩)) :
    Inv ⟨b', l, s.listLocks, Function.update s.tasks i t⟩ reserved rest lost := by
  obtain ⟨hnot, hlost⟩ := h.coherent.stands hun hp hfree
  refine h.move hring (fun q y hq => by rw [hi] at hq; cases hq) (fun q y hq => claim_fst hq ht)
    (fun _ _ => Iff.rfl) ?_ ?_ (fun hs => absurd (hstate.symm.trans hs) hfree') hreserves hevict hsizes
    (not_linked ht) (fun j c ptr _ hj => h.locks j c ptr hj)
  · refine .owned ((own_update hring).trans ht) (alone_update hring fun j _ => hun j)
      (by rw [cells, hring.isBlock]; exact hp) hstate (fun c => ?_) nofun hlost
    show (b'.listHeads c).count p = 0
    rw [hlists]
    exact List.count_eq_zero.2 (hnot c)
  · rw [hstate]
    exact iff_of_false (Task.claim_ne_evicted ht).1 hne

/-- A task takes a block from its list. -/
theorem Inv.unlist (hi : (s.tasks i).claim s.buffer = none) {c : Nat}
    (hp : p ∈ s.buffer.listHeads c) (hlock : s.listLocks c = none)
    (ht : t.claim s.buffer = some (p, ⟨.freeListed, none⟩)) :
    Inv ⟨s.buffer.setList c ((s.buffer.listHeads c).erase p), l, s.listLocks,
      Function.update s.tasks i t⟩ reserved rest lost := by
  have hin := h.inList hp hlock
  have hring : s.buffer.SameRing (s.buffer.setList c ((s.buffer.listHeads c).erase p)) p :=
    .setList _ fun q hq => List.count_erase_of_ne hq
  refine h.move hring (fun q y hq => by rw [hi] at hq; cases hq) (fun q y hq => claim_fst hq ht)
    (fun _ _ => Iff.rfl) ?_ Iff.rfl (h.classed p hin.cell) hreserves hevict hsizes (not_linked ht)
    (fun j c ptr _ hj => h.locks j c ptr hj)
  refine .owned ((own_update hring).trans ht) (alone_update hring fun j _ => hin.unowned j) hin.cell
    hin.state (fun c' => ?_) nofun hin.notLost
  have hcount := hin.lists c'
  show (Function.update s.buffer.listHeads c _ c').count p = 0
  by_cases hc : c' = c
  · subst hc
    rw [Function.update_self, List.count_erase_self]
    rw [if_pos rfl] at hcount
    exact congrArg (· - 1) hcount
  · rw [Function.update_of_ne hc]
    rwa [if_neg hc] at hcount

omit hreserves hevict hsizes in
/-- A task puts its block on a list and keeps the lock of the list. -/
theorem Inv.link {c : Nat} (hi : s.tasks i = .dealloc .start p)
    (hcls : s.buffer.sizeClassSmallerThan (s.buffer.getMetaFromDataPtr p).size = some c)
    (hlock : s.listLocks c = none) :
    Inv ⟨s.buffer.setList c (p :: s.buffer.listHeads c), l, Function.update s.listLocks c (some i),
      Function.update s.tasks i (.dealloc (.linked c) p)⟩ reserved rest lost := by
  have hclaim : (s.tasks i).claim s.buffer = some (p, ⟨.beginTombstone, none⟩) := by rw [hi]; rfl
  have ho := h.owner hclaim
  have hring : s.buffer.SameRing (s.buffer.setList c (p :: s.buffer.listHeads c)) p :=
    .setList _ fun q hq => List.count_cons_of_ne (Ne.symm hq)
  refine h.move hring (fun q y hq => claim_fst hq hclaim)
    (fun q y hq => (congrArg Prod.fst (Option.some.inj hq)).symm) (fun _ _ => Iff.rfl) ?_ Iff.rfl
    (h.classed p ho.cell) (by rw [hi]; rfl) (by rw [hi]; nofun) trivial (fun c' ptr hc => ?_) (fun j c' ptr hj ht => ?_)
  · refine .owned (own_update hring) (alone_update hring ho.alone) ho.cell ho.state (fun c' => ?_)
      (fun c' hc => ?_) ho.notLost
    · have hcount : (s.buffer.listHeads c').count p = 0 := ho.lists c'
      show (Function.update s.buffer.listHeads c _ c').count p = if some c = some c' then 1 else 0
      by_cases hc : c' = c
      · subst hc
        rw [Function.update_self, List.count_cons_self, hcount, if_pos rfl]
      · rw [Function.update_of_ne hc, if_neg (fun heq => hc (Option.some.inj heq).symm), hcount]
    · cases hc
      exact hcls
  · cases hc
    exact Function.update_self ..
  · have hheld := h.locks j c' ptr ht
    rw [Function.update_of_ne, hheld]
    rintro rfl
    rw [hlock] at hheld
    cases hheld

omit hreserves hevict hsizes in
/-- The block is on the list, and the lock is given back. -/
theorem Inv.linkDone {c : Nat} (hi : s.tasks i = .dealloc (.linked c) p) :
    Inv ⟨s.buffer.setState p .freeListed, l, Function.update s.listLocks c none,
      Function.update s.tasks i .idle⟩ reserved rest lost := by
  have hclaim : (s.tasks i).claim s.buffer = some (p, ⟨.beginTombstone, some c⟩) := by rw [hi]; rfl
  have ho := h.owner hclaim
  have hring := SameRing.setState s.buffer ho.cell.le .freeListed
  have hstate : ((s.buffer.setState p .freeListed).getMetaFromDataPtr p).state = .freeListed := by
    rw [getMetaFromDataPtr_setState]
  refine h.move hring (fun q y hq => claim_fst hq hclaim) nofun (fun _ _ => Iff.rfl) ?_ ?_
    (fun _ => ⟨c, ho.cls c rfl⟩) (by rw [hi]; rfl) (by rw [hi]; nofun) trivial nofun (fun j c' ptr hj ht => ?_)
  · refine .listed (c := c) (unowned_update hring ho.alone rfl) ho.cell hstate (fun c' => ?_) ?_
      ho.notLost
    · have hcount := ho.lists c'
      simp only [Option.some.injEq] at hcount
      simp only [eq_comm (a := c'), hcount]
      exact hcount
    · have := ho.cls c rfl
      simpa only [cells, hring.smaller, hring.size] using this
  · rw [hstate, show (s.buffer.getMetaFromDataPtr p).state = .beginTombstone from ho.state]
    exact iff_of_false nofun nofun
  · have hheld := h.locks j c' ptr ht
    rw [Function.update_of_ne, hheld]
    rintro rfl
    rw [h.locks i c' p hi] at hheld
    exact hj (Option.some.inj hheld).symm

end Moves

end RingSys

end BfTree
