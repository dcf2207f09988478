import BfTree.CircularBuffer.LifeCycle

/-!
# Safety of the ring buffer

What holds in every state that tasks can reach from a new buffer: the layout of the ring,
the life cycle of its blocks, and the agreement of states and free lists. The last one
fails exactly when a `compare_exchange_weak` has failed without cause.
-/

namespace BfTree

open Lib CircularBuffer

namespace RingSys

variable {W : Type} [DecidableEq W] {cfg : Config} {capacity threshold : Nat}
  {memory : Nat → AllocMeta} {b : CircularBuffer} {s s' : RingSys W} {events : List RingEvent}

/-! ## Runs -/

theorem new_empty (hb : CircularBuffer.new cfg capacity threshold memory = some b) :
    b.headAddr = b.evictingAddr ∧ b.listHeads = fun _ => [] := by
  simp only [CircularBuffer.new, Option.bind_eq_bind, Option.bind_eq_some_iff] at hb
  obtain ⟨_, _, _, _, heq⟩ := hb
  rw [← Option.some.inj heq]
  exact ⟨rfl, rfl⟩

theorem new_inv (hb : CircularBuffer.new cfg capacity threshold memory = some b) :
    (new b : RingSys W).Inv [] [] [] where
  layout := new_layout hb
  coherent p := by
    refine .standing nofun (fun c hc => ?_) nofun nofun
    have hlist : p ∈ b.listHeads c := hc
    rw [(new_empty hb).2] at hlist
    cases hlist
  evictions := ⟨nofun, nofun, nofun, nofun, fun hlt => absurd (new_empty hb).1 hlt.ne⟩
  sizes _ := trivial
  classed := nofun
  locks := nofun

/-- The blocks lost in a run are those of its weak failures. -/
theorem Run.inv (hb : CircularBuffer.new cfg capacity threshold memory = some b)
    (h : Run (new b) events s) : ∃ reserved rest lost, s.Inv reserved rest lost ∧
      ∀ ptr, ptr ∈ lost ↔ .weakFailure ptr ∈ events := by
  induction h with
  | refl => exact ⟨[], [], [], new_inv hb, by simp⟩
  | @step events s s' a event _ ha hs ih =>
    obtain ⟨reserved, rest, lost, hinv, hlost⟩ := ih
    have hgood := hinv.step ha
    rw [hs] at hgood
    obtain ⟨reserved', rest', hinv'⟩ := hgood.inv
    refine ⟨reserved', rest', _, hinv', fun ptr => ?_⟩
    rw [List.mem_append, ← hlost ptr]
    cases event with
    | none => simp [lostAfter]
    | some event => cases event <;> simp [lostAfter, or_comm]

instance (s : RingSys W) (a : RingAction W) : Decidable (s.Allowed a) := by
  cases a <;> simp only [Allowed] <;> infer_instance

/-- The steps of a run, one after the other. -/
def exec : List (RingAction W) → RingSys W → Option (List RingEvent × RingSys W)
  | [], s => some ([], s)
  | a :: as, s =>
    if s.Allowed a then
      match s.step a with
      | .error _ => none
      | .ok (event, s') => (exec as s').map fun r => (event.toList ++ r.1, r.2)
    else none

theorem Run.exec {s₀ : RingSys W} {before : List RingEvent} {as : List (RingAction W)}
    (h : Run s₀ before s) (hs : exec as s = some (events, s')) : Run s₀ (before ++ events) s' := by
  induction as generalizing s before events with
  | nil =>
    cases hs
    rwa [List.append_nil]
  | cons a as ih =>
    rw [RingSys.exec] at hs
    split at hs
    · next ha =>
      split at hs
      · cases hs
      · next event s₁ hstep =>
        obtain ⟨⟨events', s₂⟩, hrest, heq⟩ := Option.map_eq_some_iff.1 hs
        obtain ⟨rfl, rfl⟩ := Prod.mk.inj heq
        rw [← List.append_assoc]
        exact ih (h.step ha hstep) hrest
    · cases hs

/-- Nothing unusual happens, and the tail is seen after the first small block. -/
def calm : StepEnv := ⟨false, false, 72, true⟩

/-- A buffer of two leaf pages. -/
def sampleBuffer : Option CircularBuffer :=
  CircularBuffer.new .default 8192 7372 fun _ => ⟨0, .evicted⟩

/-- The first task allocates a block, gives it back to its free list, and allocates again. -/
def reuse (spurious : Bool) : List (RingAction Unit) :=
  [.alloc () 64, .step () calm, .step () calm, .step () calm, .drop (), .acquire () 8, .dealloc (),
    .step () calm, .step () calm, .alloc () 64, .step () calm, .step () calm,
    .step () { calm with spurious := spurious }]

/-- A run of the sample buffer. -/
theorem exists_run (as : List (RingAction Unit)) (o : List RingEvent × Task)
    (h : (sampleBuffer.bind fun b => (exec as (new b)).map fun r => (r.1, r.2.tasks ())) = some o) :
    ∃ b s, sampleBuffer = some b ∧ Run (new b) o.1 s ∧ s.tasks () = o.2 := by
  obtain ⟨b, hb, h⟩ := Option.bind_eq_some_iff.1 h
  obtain ⟨⟨events, s⟩, hs, rfl⟩ := Option.map_eq_some_iff.1 h
  exact ⟨b, s, hb, Run.refl.exec hs, rfl⟩

/-! ## Layout -/

/-- The layout of the ring: the blocks lie one after the other from head to tail, within
one length of the memory, and do not overlap in memory. -/
structure RingLayout (b : CircularBuffer) : Prop where
  head_le : b.headAddr ≤ b.evictingAddr
  evicting_le : b.evictingAddr ≤ b.tailAddr
  tail_le : b.tailAddr ≤ b.headAddr + b.capacity
  aligned : 8 ∣ b.headAddr ∧ 8 ∣ b.evictingAddr ∧ 8 ∣ b.tailAddr
  tiles : Tiling b.blockLen b.headAddr b.iter b.tailAddr
  within : ∀ a ∈ b.iter, a % b.capacity + b.blockLen a ≤ b.capacity
  disjoint : ∀ a ∈ b.iter, ∀ a' ∈ b.iter, a ≠ a' →
    b.logicalToPhysical a + b.blockLen a ≤ b.logicalToPhysical a' ∨
      b.logicalToPhysical a' + b.blockLen a' ≤ b.logicalToPhysical a

omit [DecidableEq W] in
theorem Inv.ringLayout {reserved rest lost : List Nat} (h : s.Inv reserved rest lost) :
    RingLayout s.buffer := by
  have hl := h.layout
  have hmem := hl.iter_eq
  refine ⟨hl.reserved_tiling.le, hl.rest_tiling.le, hl.bound, ⟨hl.head_aligned, ?_, hl.tail_aligned⟩,
    ?_, ?_, ?_⟩
  · exact hl.reserved_tiling.dvd hl.head_aligned fun a ha =>
      hl.len_aligned a (List.mem_append_left _ ha)
  · rw [hmem]
    exact hl.tiling
  · rw [hmem]
    exact hl.inside
  · rw [hmem]
    intro a ha a' ha' hne
    rw [hl.physical, hl.physical]
    exact hl.tiling.disjoint hl.bound ha ha' hne hl.inside

/-- In every state the ring is laid out well, callers hold pointers to blocks of the ring
only, and an allocation returns a block of at least its size. -/
theorem ring_laid_out (hb : CircularBuffer.new cfg capacity threshold memory = some b)
    (hrun : Run (new b) events s) :
    RingLayout s.buffer ∧
    (∀ i ptr, s.tasks i = .guard ptr ∨ s.tasks i = .handle ptr →
      ∃ x ∈ s.buffer.iter, ptr = s.buffer.dataPtr x) ∧
    ∀ a size ptr s', s.Allowed a → s.step a = .ok (some (.allocated size ptr), s') →
      ∃ x ∈ s'.buffer.iter, ptr = s'.buffer.dataPtr x ∧ size ≤ (s'.buffer.getMeta x).size := by
  obtain ⟨reserved, rest, lost, hinv, -⟩ := hrun.inv hb
  refine ⟨hinv.ringLayout, fun i ptr hi => ?_, fun a size ptr s' ha hs => ?_⟩
  · rw [hinv.layout.iter_eq]
    rcases hi with hi | hi
    · have hclaim : (s.tasks i).claim s.buffer = some (ptr, ⟨.notReady, none⟩) := by rw [hi]; rfl
      exact (hinv.owner hclaim).cell
    · have hclaim : (s.tasks i).claim s.buffer = some (ptr, ⟨.beginTombstone, none⟩) := by
        rw [hi]; rfl
      exact (hinv.owner hclaim).cell
  · have hgood := hinv.step ha
    rw [hs] at hgood
    obtain ⟨x, hx, hptr, hsize, -⟩ := hgood.allocated size ptr rfl
    exact ⟨x, hx, hptr, hsize⟩

theorem ring_laid_out_reuse : ∃ b, ∃ s : RingSys Unit, sampleBuffer = some b ∧
    Run (new b) [.allocated 64 8, .allocated 64 8] s ∧ s.tasks () = .guard 8 ∧
    RingLayout s.buffer := by
  obtain ⟨b, s, hb, hrun, hi⟩ := exists_run (reuse false)
    ([.allocated 64 8, .allocated 64 8], .guard 8) (by decide +kernel)
  exact ⟨b, s, hb, hrun, hi, (ring_laid_out hb hrun).1⟩

/-! ## Life cycle -/

/-- The block of a tombstone handle, held by a caller or by a call that it was given to. -/
def tombstoneHandle (b : CircularBuffer) : Task → Option Nat
  | .handle ptr => some ptr
  | .dealloc _ ptr => some ptr
  | .evict .callback start _ => some (b.dataPtr start)
  | .evict .dealloc start _ => some (b.dataPtr start)
  | _ => none

theorem claim_of_tombstoneHandle {b : CircularBuffer} {t : Task} {ptr : Nat}
    (h : tombstoneHandle b t = some ptr) : ∃ y, t.claim b = some (ptr, y) := by
  unfold tombstoneHandle at h
  split at h
  · exact ⟨_, congrArg (fun p => some (p, _)) (Option.some.inj h)⟩
  · next phase _ =>
    cases h
    cases phase <;> exact ⟨_, rfl⟩
  · exact ⟨_, congrArg (fun p => some (p, _)) (Option.some.inj h)⟩
  · exact ⟨_, congrArg (fun p => some (p, _)) (Option.some.inj h)⟩
  · cases h

/-- Some task holds the block, or a free list does. -/
def Held (s : RingSys W) (ptr : Nat) : Prop :=
  (∃ i y, (s.tasks i).claim s.buffer = some (ptr, y)) ∨ ∃ c, ptr ∈ s.buffer.listHeads c

/-- The life cycle of blocks, in one state and over one step. -/
structure LifeCycle (s : RingSys W) : Prop where
  /-- No transition of a state panics. -/
  transitions : ∀ a expected actual, s.Allowed a →
    s.step a ≠ .error (.panicked (.metaState expected actual))
  /-- There is at most one handle for a block. -/
  oneHandle : ∀ i j ptr, tombstoneHandle s.buffer (s.tasks i) = some ptr →
    tombstoneHandle s.buffer (s.tasks j) = some ptr → i = j
  /-- The head passes evicted blocks only. -/
  passed : ∀ a event s', s.Allowed a → s.step a = .ok (event, s') → ∀ x ∈ s.buffer.iter,
    x < s'.buffer.headAddr → (s.buffer.getMeta x).state = .evicted
  /-- An evicted block is not evicted again. -/
  once : ∀ a event s', s.Allowed a → s.step a = .ok (event, s') → ∀ x ∈ s.buffer.iter,
    (s.buffer.getMeta x).state = .evicted → (s'.buffer.getMeta x).state = .evicted
  /-- Nobody holds an evicted block. -/
  released : ∀ x ∈ s.buffer.iter, (s.buffer.getMeta x).state = .evicted →
    ¬s.Held (s.buffer.dataPtr x)
  /-- Without an eviction in progress, all evicted memory has been reclaimed. -/
  reclaimed : (∀ i, (s.tasks i).isEvict = false) → s.buffer.headAddr = s.buffer.evictingAddr

theorem Inv.lifeCycle {reserved rest lost : List Nat} (h : s.Inv reserved rest lost) :
    s.LifeCycle := by
  have hiter := h.layout.iter_eq
  refine ⟨fun a expected actual ha hs => ?_, fun i j ptr hi hj => ?_, fun a event s' ha hs x hx => ?_,
    fun a event s' ha hs x hx => ?_, fun x hx hst hheld => ?_, fun hno => ?_⟩
  · have hgood := h.step ha
    rw [hs] at hgood
    cases hgood
  · obtain ⟨y, hi⟩ := claim_of_tombstoneHandle hi
    obtain ⟨y', hj⟩ := claim_of_tombstoneHandle hj
    exact h.coherent.unique (i := i) (j := j) hi hj
  · have hgood := h.step ha
    rw [hs] at hgood
    exact hgood.passed x (hiter ▸ hx)
  · have hgood := h.step ha
    rw [hs] at hgood
    exact hgood.stays x (hiter ▸ hx)
  · have hst' : (s.buffer.getMetaFromDataPtr (s.buffer.dataPtr x)).state = .evicted := by
      rw [getMeta_eq, hst]
    have hun := h.unowned_of_evicted hst'
    rcases hheld with ⟨i, y, hi⟩ | ⟨c, hc⟩
    · exact hun i y hi
    · exact (h.coherent.stands hun ⟨x, hiter ▸ hx, rfl⟩ (hst'.trans_ne nofun)).1 c hc
  · by_contra hne
    have hle := h.layout.reserved_tiling.le
    obtain ⟨i, hi⟩ := h.evictions.busy (by omega)
    rw [hno i] at hi
    cases hi

theorem ring_life_cycle (hb : CircularBuffer.new cfg capacity threshold memory = some b)
    (hrun : Run (new b) events s) : s.LifeCycle := by
  obtain ⟨reserved, rest, lost, hinv, -⟩ := hrun.inv hb
  exact hinv.lifeCycle

/-- The block is reused, given back and evicted. -/
theorem ring_life_cycle_evict : ∃ b, ∃ s : RingSys Unit, sampleBuffer = some b ∧
    Run (new b) [.allocated 64 8, .allocated 64 8, .evicted 72] s ∧ s.LifeCycle := by
  obtain ⟨b, s, hb, hrun, -⟩ := exists_run
    (reuse false ++ .drop () :: .evict () :: List.replicate 7 (.step () calm))
    ([.allocated 64 8, .allocated 64 8, .evicted 72], .idle) (by decide +kernel)
  exact ⟨b, s, hb, hrun, ring_life_cycle hb hrun⟩

/-! ## Free lists -/

/-- The task is inside `alloc`, `dealloc` or `evict_one`. -/
def inCall : Task → Bool
  | .alloc .. => true
  | .dealloc .. => true
  | .evict .. => true
  | _ => false

/-- Only calls hold a block that is free. -/
theorem inCall_of_freeListed {b : CircularBuffer} {t : Task} {ptr : Nat} {y : Claim Nat MetaState}
    (h : t.claim b = some (ptr, y)) (hy : y.state = .freeListed) : inCall t = true := by
  unfold Task.claim at h
  split at h <;> cases h <;> first | rfl | cases hy

/-- The list of the largest size class that is not larger than the block holds it once,
and no other list does. -/
def LinkedOnce (b : CircularBuffer) (a : Nat) : Prop :=
  ∃ c k, b.sizeClasses[c]? = some k ∧ k ≤ (b.getMeta a).size ∧
    (∀ k' ∈ b.sizeClasses, k' ≤ (b.getMeta a).size → k' ≤ k) ∧
    b.sizeClassSmallerThan (b.getMeta a).size = some c ∧
    (b.listHeads c).count (b.dataPtr a) = 1 ∧ ∀ c', c' ≠ c → b.dataPtr a ∉ b.listHeads c'

/-- States and free lists agree. -/
def FreeListsAgree (b : CircularBuffer) : Prop :=
  ∀ a ∈ b.iter, (b.getMeta a).state = .freeListed ↔ LinkedOnce b a

omit [DecidableEq W] in
theorem linkedOnce_of_inList {reserved rest lost : List Nat} (h : s.Inv reserved rest lost)
    {a c : Nat} (hin : (s.cells (reserved ++ rest) lost).InList .freeListed c (s.buffer.dataPtr a)) :
    LinkedOnce s.buffer a := by
  have hcls : s.buffer.sizeClassSmallerThan (s.buffer.getMeta a).size = some c := by
    rw [← getMeta_eq]
    exact hin.cls
  obtain ⟨k, hk, hle, hbefore⟩ := sizeClassSmallerThan_eq_some hcls
  refine ⟨c, k, hk, hle, fun k' hk' hle' => ?_, hcls, ?_, fun c' hc' => ?_⟩
  · -- a class that is found later is smaller
    obtain ⟨c', hlt', rfl⟩ := List.getElem_of_mem hk'
    obtain ⟨hlt, rfl⟩ := List.getElem?_eq_some_iff.1 hk
    rcases Nat.lt_trichotomy c' c with hcc | rfl | hcc
    · have := hbefore c' _ hcc (List.getElem?_eq_getElem hlt')
      omega
    · exact Nat.le_refl _
    · exact (List.pairwise_iff_getElem.1 h.layout.descending c c' hlt hlt' hcc).le
  · exact (hin.lists c).trans (if_pos rfl)
  · exact List.count_eq_zero.1 ((hin.lists c').trans (if_neg hc'))

/-- Between calls the states and the free lists agree, unless some
`compare_exchange_weak` has failed without cause. -/
theorem free_lists_agree_iff (hb : CircularBuffer.new cfg capacity threshold memory = some b)
    (hrun : Run (new b) events s) (hquiet : ∀ i, inCall (s.tasks i) = false) :
    FreeListsAgree s.buffer ↔ ∀ ptr, .weakFailure ptr ∉ events := by
  obtain ⟨reserved, rest, lost, hinv, hlost⟩ := hrun.inv hb
  have hiter := hinv.layout.iter_eq
  constructor
  · intro hagree ptr hptr
    cases hinv.coherent ptr with
    | owned _ _ _ _ _ _ hnot => exact hnot ((hlost ptr).2 hptr)
    | standing _ _ hnot => exact hnot ((hlost ptr).2 hptr)
    | listed _ _ _ _ _ hnot => exact hnot ((hlost ptr).2 hptr)
    | lost _ hlists hcell hstate =>
      obtain ⟨a, ha, rfl⟩ := hcell
      have hstate' : (s.buffer.getMeta a).state = .freeListed := by
        rw [← getMeta_eq]
        exact hstate
      obtain ⟨c, k, -, -, -, -, hcount, -⟩ := (hagree a (hiter ▸ ha)).1 hstate'
      have hzero : (s.buffer.listHeads c).count (s.buffer.dataPtr a) = 0 :=
        List.count_eq_zero.2 (hlists c)
      omega
  · intro hnone a ha
    rw [hiter] at ha
    constructor
    · intro hstate
      rw [← getMeta_eq] at hstate
      cases hinv.coherent (s.buffer.dataPtr a) with
      | @owned i y hi =>
        have hst : (s.buffer.getMetaFromDataPtr (s.buffer.dataPtr a)).state = y.state :=
          (hinv.owner hi).state
        have hq := hquiet i
        rw [inCall_of_freeListed hi (hst.symm.trans hstate)] at hq
        cases hq
      | standing _ _ _ hst => exact absurd hstate (hst ⟨a, ha, rfl⟩)
      | @listed c hown hcell hst hlists hcls hnot =>
        exact linkedOnce_of_inList hinv ⟨hown, hcell, hst, hlists, hcls, hnot⟩
      | lost _ _ _ _ hmem => exact absurd ((hlost _).1 hmem) (hnone _)
    · rintro ⟨c, k, -, -, -, -, hcount, -⟩
      have hmem : s.buffer.dataPtr a ∈ s.buffer.listHeads c := List.count_pos_iff.1 (by omega)
      have hin := hinv.coherent.inList (p := s.buffer.dataPtr a) (c := c) hmem fun i y hi hlink => by
        obtain ⟨st, link⟩ := y
        subst hlink
        have := hquiet i
        rw [Task.claim_link hi] at this
        cases this
      rw [← getMeta_eq]
      exact hin.state

/-- The block is in its free list. -/
theorem free_lists_agree_dealloc : ∃ b, ∃ s : RingSys Unit, sampleBuffer = some b ∧
    Run (new b) [.allocated 64 8] s ∧ FreeListsAgree s.buffer := by
  obtain ⟨b, s, hb, hrun, hi⟩ := exists_run ((reuse false).take 9) ([.allocated 64 8], .idle)
    (by decide +kernel)
  refine ⟨b, s, hb, hrun, (free_lists_agree_iff hb hrun fun _ => ?_).2 (by simp)⟩
  rw [hi]
  rfl

/-- After a weak failure the allocation takes new memory; the old block has the state of a
free block and is in no list. -/
theorem weak_failure_loses_block :
    ((sampleBuffer.bind fun b => exec (W := Unit)
      (reuse true ++ [.step () calm, .step () calm]) (new b)).map
      fun r => (r.1, r.2.tasks (), (r.2.buffer.getMeta 0).state,
        (List.range r.2.buffer.sizeClasses.length).map r.2.buffer.listHeads)) =
    some ([.allocated 64 8, .weakFailure 8, .allocated 64 80], .guard 80, .freeListed,
      List.replicate 8 []) := by
  decide +kernel

end RingSys

end BfTree
