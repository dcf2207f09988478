import BfTree.CircularBuffer.Invariant

/-!
# Steps of the ring buffer

The steps that move an address or evict a block, and all steps together: each one keeps
the invariant, and none panics.
-/

namespace BfTree

open Lib CircularBuffer

namespace RingSys

variable {W : Type} [DecidableEq W] {s s' : RingSys W} {reserved rest lost : List Nat} {i : W}
  {t : Task} {p : Nat} {l : Option W} {start stop : Nat}

theorem isEvict_of_reserves {t : Task} {a : Nat} (h : t.reserves = some a) : t.isEvict = true := by
  cases t <;> first | rfl | cases h

theorem isEvict_update (h : t.isEvict = true) :
    (Function.update s.tasks i t i).isEvict = true := by
  rwa [Function.update_self]

theorem reserves_update {o : Option Nat} (h : t.reserves = o) :
    (Function.update s.tasks i t i).reserves = o := by
  rwa [Function.update_self]

section Steps

variable (h : s.Inv reserved rest lost)
include h

/-- Reserved blocks and the others are different. -/
theorem Inv.ne_of_mem {a a' : Nat} (ha : a ∈ reserved) (ha' : a' ∈ rest) : a ≠ a' := by
  have h1 := h.layout.reserved_tiling.bounds ha
  have h2 := h.layout.rest_tiling.bounds ha'
  omega

/-- An evicted block is in no task and on no list. -/
theorem Inv.unowned_of_evicted (hp : (s.buffer.getMetaFromDataPtr p).state = .evicted) :
    (s.cells (reserved ++ rest) lost).Unowned p := by
  intro j y hj
  have hstate : (s.buffer.getMetaFromDataPtr p).state = y.state := (h.owner hj).state
  exact (Task.claim_ne_evicted hj).1 (hstate.symm.trans hp)

/-! ## Eviction -/

/-- The last step on a block: it is evicted. -/
theorem Inv.evicted (hi : s.tasks i = .evict .tombstoned start stop) :
    Inv ⟨s.buffer.setState (s.buffer.dataPtr start) .evicted, l, s.listLocks,
      Function.update s.tasks i (.evict .finish start stop)⟩ reserved rest lost := by
  have hclaim : (s.tasks i).claim s.buffer =
      some (s.buffer.dataPtr start, ⟨.tombstone, none⟩) := by rw [hi]; rfl
  have hres : (s.tasks i).reserves = some start := by rw [hi]; rfl
  have ho := h.owner hclaim
  have hring := SameRing.setState s.buffer ho.cell.le .evicted
  have hstate : ((s.buffer.setState (s.buffer.dataPtr start) .evicted).getMetaFromDataPtr
      (s.buffer.dataPtr start)).state = .evicted := by rw [getMetaFromDataPtr_setState]
  obtain ⟨hstart, -⟩ := h.evictions.working i start hres
  have hother : ∀ a ∈ reserved ++ rest, a ≠ start →
      ((s.buffer.setState (s.buffer.dataPtr start) .evicted).getMeta a).state =
        (s.buffer.getMeta a).state := by
    intro a ha hne
    rw [← getMeta_eq, ← getMeta_eq, hring.dataPtr]
    refine hring.state _ (fun heq => hne ?_) (Nat.le_add_left _ _)
    exact h.layout.dataPtr_inj ha (List.mem_append_left _ hstart) heq
  have hself : ((s.buffer.setState (s.buffer.dataPtr start) .evicted).getMeta start).state =
      .evicted := by rw [← getMeta_eq]; exact hstate
  have hreserves : ∀ j a, (Function.update s.tasks i (.evict .finish start stop) j).reserves = some a →
      j ≠ i ∧ (s.tasks j).reserves = some a := by
    intro j a hj
    by_cases hji : j = i
    · rw [hji, Function.update_self] at hj
      cases hj
    · rw [Function.update_of_ne hji] at hj
      exact ⟨hji, hj⟩
  refine {
    layout := hring.layout h.layout
    coherent := h.coherent.move (s.buffer.dataPtr start) (sameAt hring
      (fun q y hq => claim_fst hq hclaim) (fun _ _ hq => by cases hq) (fun _ _ => Iff.rfl) _) ?_
    evictions := {
      working := fun j a hj => ?_
      distinct := fun j k a hj hk => ?_
      pending := fun a ha hne => ?_
      untouched := fun a ha => ?_
      busy := fun _ => ⟨i, isEvict_update rfl⟩ }
    sizes := (Function.forall_update_iff s.tasks fun _ t => t.SizesOk _).2
      ⟨trivial, fun j _ => hring.sizesOk (h.sizes j)⟩
    classed := fun q hq hfree => ?_
    locks := (Function.forall_update_iff s.tasks fun j t =>
      ∀ c ptr, t = .dealloc (.linked c) ptr → s.listLocks c = some j).2
        ⟨nofun, fun j _ => h.locks j⟩ }
  · exact .standing (unowned_update hring ho.alone rfl) (fun c => List.count_eq_zero.1 (ho.lists c))
      ho.notLost (fun _ => hstate.trans_ne nofun)
  · obtain ⟨hji, hj'⟩ := hreserves j a hj
    obtain ⟨ha, hne⟩ := h.evictions.working j a hj'
    have hneq : a ≠ start := by
      rintro rfl
      exact hji (h.evictions.distinct j i a hj' hres)
    exact ⟨ha, (hother a (List.mem_append_left _ ha) hneq).trans_ne hne⟩
  · exact h.evictions.distinct j k a (hreserves j a hj).2 (hreserves k a hk).2
  · have hneq : a ≠ start := by
      rintro rfl
      exact hne hself
    rw [hother a (List.mem_append_left _ ha) hneq] at hne
    obtain ⟨j, hj⟩ := h.evictions.pending a ha hne
    have hji : j ≠ i := by
      rintro rfl
      exact hneq (Option.some.inj (hj.symm.trans hres))
    exact ⟨j, (congrArg Task.reserves (Function.update_of_ne hji _ _)).trans hj⟩
  · rw [hother a (List.mem_append_right _ ha) (Ne.symm (h.ne_of_mem hstart ha))]
    exact h.evictions.untouched a ha
  · have hqp : q ≠ s.buffer.dataPtr start := by
      rintro rfl
      exact absurd (hstate.symm.trans hfree) nofun
    rw [hring.isBlock] at hq
    rw [hring.state q hqp hq.le] at hfree
    exact hring.hasClass (h.classed q hq hfree)

/-- The reservation of the next block. -/
theorem Inv.reserve (hi : s.tasks i = .idle) (hne : s.buffer.evictingAddr ≠ s.buffer.tailAddr) :
    ∃ rest', rest = s.buffer.evictingAddr :: rest' ∧
      Inv ⟨{ s.buffer with evictingAddr := s.buffer.evictingAddr +
          s.buffer.blockLen s.buffer.evictingAddr }, l, s.listLocks,
        Function.update s.tasks i (.evict .acquire s.buffer.evictingAddr stop)⟩
        (reserved ++ [s.buffer.evictingAddr]) rest' lost := by
  obtain ⟨rest', rfl, hlayout⟩ := h.layout.reserve hne
  have hblocks : reserved ++ [s.buffer.evictingAddr] ++ rest' =
      reserved ++ s.buffer.evictingAddr :: rest' := by rw [List.append_assoc]; rfl
  have hmem : s.buffer.evictingAddr ∈ s.buffer.evictingAddr :: rest' := List.mem_cons_self
  have hreserves : ∀ j a, (Function.update s.tasks i
      (.evict .acquire s.buffer.evictingAddr stop) j).reserves = some a →
      (j = i ∧ a = s.buffer.evictingAddr) ∨ (j ≠ i ∧ (s.tasks j).reserves = some a) := by
    intro j a hj
    by_cases hji : j = i
    · rw [hji, Function.update_self] at hj
      exact .inl ⟨hji, (Option.some.inj hj).symm⟩
    · rw [Function.update_of_ne hji] at hj
      exact .inr ⟨hji, hj⟩
  refine ⟨rest', rfl, {
    layout := hlayout
    coherent := ?_
    evictions := {
      working := fun j a hj => ?_
      distinct := fun j k a hj hk => ?_
      pending := fun a ha hne => ?_
      untouched := fun a ha => h.evictions.untouched a (List.mem_cons_of_mem _ ha)
      busy := fun _ => ⟨i, isEvict_update rfl⟩ }
    sizes := (Function.forall_update_iff s.tasks fun _ t => t.SizesOk s.buffer).2
      ⟨trivial, fun j _ => h.sizes j⟩
    classed := fun q hq => h.classed q (hblocks ▸ hq)
    locks := (Function.forall_update_iff s.tasks fun j t =>
      ∀ c ptr, t = .dealloc (.linked c) ptr → s.listLocks c = some j).2
        ⟨nofun, fun j _ => h.locks j⟩ }⟩
  · rw [hblocks]
    refine h.coherent.same fun q => ⟨fun j y => ?_, fun _ => rfl, fun _ => rfl, Iff.rfl,
      fun _ => rfl, Iff.rfl⟩
    refine (Function.forall_update_iff s.tasks fun j t =>
      t.claim s.buffer = some (q, y) ↔ (s.tasks j).claim s.buffer = some (q, y)).2
        ⟨?_, fun _ _ => Iff.rfl⟩ j
    rw [hi]
    exact Iff.rfl
  · rcases hreserves j a hj with ⟨-, rfl⟩ | ⟨-, hj⟩
    · exact ⟨List.mem_append_right _ (List.mem_singleton.2 rfl), h.evictions.untouched _ hmem⟩
    · obtain ⟨ha, hst⟩ := h.evictions.working j a hj
      exact ⟨List.mem_append_left _ ha, hst⟩
  · rcases hreserves j a hj with ⟨rfl, rfl⟩ | ⟨-, hj'⟩ <;>
      rcases hreserves k _ hk with ⟨rfl, heq⟩ | ⟨-, hk'⟩
    · rfl
    · exact absurd rfl (h.ne_of_mem (h.evictions.working k _ hk').1 hmem)
    · exact absurd heq (h.ne_of_mem (h.evictions.working j a hj').1 hmem)
    · exact h.evictions.distinct j k a hj' hk'
  · rcases List.mem_append.1 ha with ha | ha
    · obtain ⟨j, hj⟩ := h.evictions.pending a ha hne
      have hji : j ≠ i := by
        rintro rfl
        rw [hi] at hj
        cases hj
      exact ⟨j, (congrArg Task.reserves (Function.update_of_ne hji _ _)).trans hj⟩
    · rw [List.mem_singleton.1 ha]
      exact ⟨i, reserves_update rfl⟩

/-- The head passes an evicted block. -/
theorem Inv.bump (hlt : s.buffer.headAddr < s.buffer.evictingAddr)
    (hevicted : (s.buffer.getMeta s.buffer.headAddr).state = .evicted) :
    ∃ reserved', reserved = s.buffer.headAddr :: reserved' ∧
      Inv ⟨{ s.buffer with headAddr := s.buffer.headAddr + s.buffer.blockLen s.buffer.headAddr },
        s.lock, s.listLocks, s.tasks⟩ reserved' rest lost := by
  obtain ⟨reserved', rfl, hlayout⟩ := h.layout.bump hlt
  have hstate : (s.buffer.getMetaFromDataPtr (s.buffer.dataPtr s.buffer.headAddr)).state =
      .evicted := by rw [getMeta_eq, hevicted]
  have hun := h.unowned_of_evicted hstate
  have hcell : s.buffer.IsBlock (s.buffer.headAddr :: reserved' ++ rest)
      (s.buffer.dataPtr s.buffer.headAddr) := ⟨_, List.mem_cons_self, rfl⟩
  obtain ⟨hnot, hlost⟩ := h.coherent.stands hun hcell (hstate.trans_ne nofun)
  refine ⟨reserved', rfl, {
    layout := hlayout
    coherent := h.coherent.move (s.buffer.dataPtr s.buffer.headAddr) (fun q hq =>
      ⟨fun _ _ => Iff.rfl, fun _ => rfl, fun _ => rfl, ⟨?_, ?_⟩, fun _ => rfl, Iff.rfl⟩)
      (.standing hun hnot hlost fun _ => hstate.trans_ne nofun)
    evictions := {
      working := fun j a hj => ?_
      distinct := h.evictions.distinct
      pending := fun a ha => h.evictions.pending a (List.mem_cons_of_mem _ ha)
      untouched := h.evictions.untouched
      busy := fun _ => h.evictions.busy hlt }
    sizes := h.sizes
    classed := fun q ⟨a, ha, heq⟩ => h.classed q ⟨a, List.mem_cons_of_mem _ ha, heq⟩
    locks := h.locks }⟩
  · rintro ⟨a, ha, heq⟩
    exact ⟨a, List.mem_cons_of_mem _ ha, heq⟩
  · rintro ⟨a, ha, heq⟩
    rcases List.mem_cons.1 ha with rfl | ha
    · exact absurd heq hq
    · exact ⟨a, ha, heq⟩
  · obtain ⟨ha, hne⟩ := h.evictions.working j a hj
    rcases List.mem_cons.1 ha with rfl | ha
    · exact absurd hevicted hne
    · exact ⟨ha, hne⟩

/-- The end of an eviction: if the head could not be moved up to the evicting address,
some other task is still evicting. -/
theorem Inv.finish (hi : s.tasks i = .evict .bump start stop)
    (hstop : ¬(s.buffer.headAddr < s.buffer.evictingAddr ∧
      (s.buffer.getMeta s.buffer.headAddr).state = .evicted)) :
    Inv ⟨s.buffer, l, s.listLocks, Function.update s.tasks i .idle⟩ reserved rest lost := by
  have hreserves : ∀ j, (Function.update s.tasks i .idle j).reserves = (s.tasks j).reserves :=
    (Function.forall_update_iff s.tasks fun j t => t.reserves = (s.tasks j).reserves).2
      ⟨by rw [hi]; rfl, fun _ _ => rfl⟩
  refine {
    layout := h.layout
    coherent := h.coherent.same fun q => ⟨fun j y => ?_, fun _ => rfl, fun _ => rfl, Iff.rfl,
      fun _ => rfl, Iff.rfl⟩
    evictions := {
      working := fun j a hj => h.evictions.working j a (hreserves j ▸ hj)
      distinct := fun j k a hj hk => h.evictions.distinct j k a (hreserves j ▸ hj) (hreserves k ▸ hk)
      pending := fun a ha hne => ?_
      untouched := h.evictions.untouched
      busy := fun hlt => ?_ }
    sizes := (Function.forall_update_iff s.tasks fun _ t => t.SizesOk s.buffer).2
      ⟨trivial, fun j _ => h.sizes j⟩
    classed := h.classed
    locks := (Function.forall_update_iff s.tasks fun j t =>
      ∀ c ptr, t = .dealloc (.linked c) ptr → s.listLocks c = some j).2
        ⟨nofun, fun j _ => h.locks j⟩ }
  · refine (Function.forall_update_iff s.tasks fun j t =>
      t.claim s.buffer = some (q, y) ↔ (s.tasks j).claim s.buffer = some (q, y)).2
        ⟨?_, fun _ _ => Iff.rfl⟩ j
    rw [hi]
    exact Iff.rfl
  · obtain ⟨j, hj⟩ := h.evictions.pending a ha hne
    exact ⟨j, (hreserves j).trans hj⟩
  · -- the block at the head is not evicted, so its task is not done
    obtain ⟨reserved', rfl, -⟩ := h.layout.bump hlt
    obtain ⟨j, hj⟩ := h.evictions.pending _ List.mem_cons_self fun he => hstop ⟨hlt, he⟩
    exact ⟨j, isEvict_of_reserves ((hreserves j).trans hj)⟩

/-! ## Allocation at the tail -/

/-- A new block at the tail, for the task or as padding. -/
theorem Inv.push {size : Nat} {m : AllocMeta} (hi : s.tasks i = .alloc .tail size)
    (hpushed : Pushed s.buffer reserved rest m) (hfree : m.state ≠ .freeListed)
    (hne : m.state ≠ .evicted) (hevict : t.reserves = none) (hsizes : t.SizesOk s.buffer)
    (hsizes' : t.SizesOk s.buffer → t.SizesOk (s.buffer.push m))
    (ht : t.claim s.buffer = none ∨
      t.claim s.buffer = some (s.buffer.dataPtr s.buffer.tailAddr, ⟨m.state, none⟩)) :
    Inv ⟨s.buffer.push m, l, s.listLocks, Function.update s.tasks i t⟩ reserved
      (rest ++ [s.buffer.tailAddr]) lost := by
  obtain ⟨hlayout, hnew, hold⟩ := hpushed
  have hblocks : reserved ++ (rest ++ [s.buffer.tailAddr]) =
      (reserved ++ rest) ++ [s.buffer.tailAddr] := by rw [List.append_assoc]
  have htail : s.buffer.tailAddr ∈ reserved ++ (rest ++ [s.buffer.tailAddr]) := by
    rw [hblocks]
    exact List.mem_append_right _ (List.mem_singleton.2 rfl)
  have hmeta : ∀ q, s.buffer.IsBlock (reserved ++ rest) q →
      (s.buffer.push m).getMetaFromDataPtr q = s.buffer.getMetaFromDataPtr q := by
    rintro q ⟨a, ha, rfl⟩
    exact (getMeta_eq (s.buffer.push m) a).trans ((hold a ha).trans (getMeta_eq s.buffer a).symm)
  have hnotCell : ¬s.buffer.IsBlock (reserved ++ rest) (s.buffer.dataPtr s.buffer.tailAddr) := by
    rintro ⟨a, ha, heq⟩
    have hmem : a ∈ reserved ++ (rest ++ [s.buffer.tailAddr]) := by
      rw [hblocks]
      exact List.mem_append_left _ ha
    obtain rfl := hlayout.dataPtr_inj htail hmem heq
    have := h.layout.tiling.bounds ha
    omega
  obtain ⟨hun, hnot, hlost⟩ := h.coherent.nowhere hnotCell
  refine {
    layout := hlayout
    coherent := h.coherent.move (s.buffer.dataPtr s.buffer.tailAddr) (fun q hq => ?_) ?_
    evictions := ?_
    sizes := (Function.forall_update_iff s.tasks fun _ t => t.SizesOk _).2
      ⟨hsizes' hsizes, fun j _ => ?_⟩
    classed := fun q hq hst => ?_
    locks := (Function.forall_update_iff s.tasks fun j t =>
      ∀ c ptr, t = .dealloc (.linked c) ptr → s.listLocks c = some j).2
        ⟨fun c ptr hc => ?_, fun j _ => h.locks j⟩ }
  · -- other pointers
    refine ⟨fun j y => ?_, fun _ => rfl, fun hcell => ?_, ?_, fun hcell => ?_, Iff.rfl⟩
    · refine (Function.forall_update_iff s.tasks fun j t =>
        t.claim s.buffer = some (q, y) ↔ (s.tasks j).claim s.buffer = some (q, y)).2
          ⟨iff_of_false (fun htq => ?_) (by rw [hi]; nofun), fun _ _ => Iff.rfl⟩ j
      rcases ht with ht | ht
      · rw [ht] at htq
        cases htq
      · exact hq (claim_fst htq ht)
    · exact congrArg AllocMeta.state (hmeta q hcell)
    · show (∃ a ∈ reserved ++ (rest ++ [s.buffer.tailAddr]), q = s.buffer.dataPtr a) ↔
        ∃ a ∈ reserved ++ rest, q = s.buffer.dataPtr a
      rw [hblocks]
      constructor
      · rintro ⟨a, ha, heq⟩
        rcases List.mem_append.1 ha with ha | ha
        · exact ⟨a, ha, heq⟩
        · exact absurd (List.mem_singleton.1 ha ▸ heq) hq
      · rintro ⟨a, ha, heq⟩
        exact ⟨a, List.mem_append_left _ ha, heq⟩
    · exact congrArg (fun m : AllocMeta => s.buffer.sizeClassSmallerThan m.size) (hmeta q hcell)
  · -- the new block
    have hstate : ((s.buffer.push m).getMetaFromDataPtr (s.buffer.dataPtr s.buffer.tailAddr)).state =
        m.state := congrArg AllocMeta.state ((getMeta_eq (s.buffer.push m) _).trans hnew)
    rcases ht with ht | ht
    · refine .standing (fun j y => ?_) hnot hlost (fun _ => hstate.trans_ne hfree)
      refine (Function.forall_update_iff s.tasks fun _ t => t.claim s.buffer ≠ some (_, y)).2
        ⟨by rw [ht]; nofun, fun j _ => hun j y⟩ j
    · refine .owned (i := i) (y := ⟨m.state, none⟩) ?_ (fun j hj y => ?_) ⟨_, htail, rfl⟩ hstate
        (fun c => List.count_eq_zero.2 (hnot c)) nofun hlost
      · show (Function.update s.tasks i t i).claim s.buffer = _
        rw [Function.update_self, ht]
      · show (Function.update s.tasks i t j).claim s.buffer ≠ _
        rw [Function.update_of_ne hj]
        exact hun j y
  · -- evictions
    have hreserves : ∀ j, (Function.update s.tasks i t j).reserves = (s.tasks j).reserves :=
      (Function.forall_update_iff s.tasks fun j t => t.reserves = (s.tasks j).reserves).2
        ⟨by rw [hi, hevict]; rfl, fun _ _ => rfl⟩
    refine ⟨fun j a hj => ?_, fun j k a hj hk => ?_, fun a ha hst => ?_, fun a ha => ?_, fun hlt => ?_⟩
    · obtain ⟨ha, hst⟩ := h.evictions.working j a (hreserves j ▸ hj)
      refine ⟨ha, ?_⟩
      rw [hold a (List.mem_append_left _ ha)]
      exact hst
    · exact h.evictions.distinct j k a (hreserves j ▸ hj) (hreserves k ▸ hk)
    · rw [hold a (List.mem_append_left _ ha)] at hst
      obtain ⟨j, hj⟩ := h.evictions.pending a ha hst
      exact ⟨j, (hreserves j).trans hj⟩
    · rcases List.mem_append.1 ha with ha | ha
      · rw [hold a (List.mem_append_right _ ha)]
        exact h.evictions.untouched a ha
      · rw [List.mem_singleton.1 ha, hnew]
        exact hne
    · obtain ⟨j, hj⟩ := h.evictions.busy hlt
      have hji : j ≠ i := by
        rintro rfl
        rw [hi] at hj
        cases hj
      exact ⟨j, (congrArg Task.isEvict (Function.update_of_ne hji _ _)).trans hj⟩
  · -- sizes of old blocks
    refine (h.sizes j).congr rfl (fun ptr size heq => ?_) (fun start' stop' heq => ?_)
    · have hclaim : (s.tasks j).claim s.buffer = some (ptr, ⟨.freeListed, none⟩) := by rw [heq]; rfl
      rw [hmeta ptr (h.owner hclaim).cell]
    · have hres : (s.tasks j).reserves = some start' := by rw [heq]; rfl
      have hmem := List.mem_append_left rest (h.evictions.working j start' hres).1
      rintro ⟨c, hc⟩
      exact ⟨c, (congrArg (fun m : AllocMeta => s.buffer.sizeClassSmallerThan m.size)
        (hmeta _ ⟨start', hmem, rfl⟩)).trans hc⟩
  · obtain ⟨a, ha, rfl⟩ := hq
    rw [hblocks] at ha
    rcases List.mem_append.1 ha with ha | ha
    · have heq := hmeta _ ⟨a, ha, rfl⟩
      obtain ⟨c, hc⟩ := h.classed (s.buffer.dataPtr a) ⟨a, ha, rfl⟩
        ((congrArg AllocMeta.state heq).symm.trans hst)
      exact ⟨c, (congrArg (fun m : AllocMeta => s.buffer.sizeClassSmallerThan m.size) heq).trans hc⟩
    · have heq := (getMeta_eq (s.buffer.push m) a).trans (List.mem_singleton.1 ha ▸ hnew)
      exact absurd ((congrArg AllocMeta.state heq).symm.trans hst) hfree
  · rw [hc] at ht
    simp [Task.claim] at ht

end Steps

end RingSys

end BfTree
