import BfTree.CircularBuffer.Steps

/-!
# Runs of the ring buffer

Every step of every task keeps the invariant, and the only panic is the overflow of the
tail address.
-/

namespace BfTree

open Lib CircularBuffer

/-! ## Size classes -/

namespace CircularBuffer

variable {b : CircularBuffer} {reserved rest : List Nat}

theorem sizeClassLargerThan_of_mem {size : Nat} (h : size ∈ b.sizeClasses) :
    ∃ c k, b.sizeClassLargerThan size = some c ∧ b.sizeClasses[c]? = some k ∧ size ≤ k := by
  have hsome : (b.sizeClasses.reverse.findIdx? (size ≤ ·)).isSome := by
    rw [List.findIdx?_isSome, List.any_eq_true]
    exact ⟨size, List.mem_reverse.2 h, by simp⟩
  obtain ⟨n, hn⟩ := Option.isSome_iff_exists.1 hsome
  obtain ⟨hlt, hk, -⟩ := List.findIdx?_eq_some_iff_getElem.1 hn
  rw [List.length_reverse] at hlt
  refine ⟨b.sizeClasses.length - 1 - n, b.sizeClasses[b.sizeClasses.length - 1 - n], ?_,
    List.getElem?_eq_getElem (by omega), ?_⟩
  · rw [sizeClassLargerThan, hn]
    rfl
  · rw [List.getElem_reverse] at hk
    simpa using hk

theorem sizeClassSmallerThan_eq_some {size c : Nat} (h : b.sizeClassSmallerThan size = some c) :
    ∃ k, b.sizeClasses[c]? = some k ∧ k ≤ size ∧
      ∀ c' k', c' < c → b.sizeClasses[c']? = some k' → size < k' := by
  obtain ⟨hlt, hk, hbefore⟩ := List.findIdx?_eq_some_iff_getElem.1 h
  refine ⟨b.sizeClasses[c], List.getElem?_eq_getElem hlt, by simpa using hk, fun c' k' hc hk' => ?_⟩
  obtain ⟨hlt', rfl⟩ := List.getElem?_eq_some_iff.1 hk'
  simpa using hbefore c' hc

theorem Layout.getLastD_le (h : Layout b reserved rest) {k : Nat} (hk : k ∈ b.sizeClasses) :
    b.sizeClasses.getLastD 0 ≤ k := by
  obtain ⟨front, hfront⟩ : ∃ front, b.sizeClasses = front ++ [b.sizeClasses.getLastD 0] := by
    refine List.getLast?_eq_some_iff.1 ?_
    rw [List.getLastD_eq_getLast?, List.getLast?_eq_some_getLast h.nonempty]
    rfl
  have hdesc := h.descending
  rw [hfront] at hk hdesc
  rcases List.mem_append.1 hk with hk | hk
  · exact ((List.pairwise_append.1 hdesc).2.2 k hk _ (List.mem_singleton.2 rfl)).le
  · exact (List.mem_singleton.1 hk).ge

theorem Layout.exists_smaller (h : Layout b reserved rest) {size : Nat}
    (hsize : ¬size < b.sizeClasses.getLastD 0) : ∃ c, b.sizeClassSmallerThan size = some c := by
  refine Option.isSome_iff_exists.1 ?_
  rw [sizeClassSmallerThan, List.findIdx?_isSome, List.any_eq_true]
  refine ⟨b.sizeClasses.getLastD 0, ?_, by simpa using hsize⟩
  rw [List.getLastD_eq_getLast?, List.getLast?_eq_some_getLast h.nonempty]
  exact List.getLast_mem h.nonempty

/-- A change of a state leaves evicted blocks evicted. -/
theorem evicted_setState {p : Nat} {st : MetaState} (hp : (b.getMetaFromDataPtr p).state ≠ .evicted)
    (a : Nat) (ha : (b.getMeta a).state = .evicted) :
    ((b.setState p st).getMeta a).state = .evicted := by
  have hne : b.logicalToPhysical a ≠ p - cbAllocMetaSize := by
    intro heq
    rw [getMeta, heq] at ha
    exact hp ha
  rw [← ha]
  exact congrArg AllocMeta.state (Function.update_of_ne hne _ _)

end CircularBuffer

namespace RingSys

variable {W : Type} [DecidableEq W] {s s' : RingSys W} {reserved rest lost : List Nat} {i : W}
  {env : StepEnv}

/-- The blocks that are lost after an event. -/
def lostAfter (lost : List Nat) : Option RingEvent → List Nat
  | some (.weakFailure ptr) => ptr :: lost
  | _ => lost

/-- What a step does to the blocks. -/
structure StepOk (s : RingSys W) (reserved rest lost : List Nat) (r : Result W) : Prop where
  inv : ∃ reserved' rest', r.2.Inv reserved' rest' (lostAfter lost r.1)
  /-- An evicted block stays evicted. -/
  stays : ∀ a ∈ reserved ++ rest, (s.buffer.getMeta a).state = .evicted →
    (r.2.buffer.getMeta a).state = .evicted
  /-- The head passes evicted blocks only. -/
  passed : ∀ a ∈ reserved ++ rest, a < r.2.buffer.headAddr → (s.buffer.getMeta a).state = .evicted
  /-- An allocation gets a block that is large enough. -/
  allocated : ∀ size ptr, r.1 = some (.allocated size ptr) → ∃ a ∈ r.2.buffer.iter,
    ptr = r.2.buffer.dataPtr a ∧ size ≤ (r.2.buffer.getMeta a).size ∧
      (r.2.buffer.getMeta a).state = .notReady

/-- The outcome of a step. -/
def Good (s : RingSys W) (reserved rest lost : List Nat) : Except Halt (Result W) → Prop
  | .ok r => s.StepOk reserved rest lost r
  | .error .blocked => True
  | .error (.panicked reason) => reason = .overflow

omit [DecidableEq W] in
/-- The tail address may overflow; the padding always has room for its meta. -/
theorem allocTail_error (h : Layout s.buffer reserved rest) {size : Nat} {e : Halt}
    (hr : s.buffer.allocTail size = .error e) : s.Good reserved rest lost (.error e) := by
  have haligned := (Nat.dvd_mod_iff h.aligned).2 h.tail_aligned
  have hcap := h.aligned
  obtain ⟨k, hk⟩ := h.pow
  have hlt : s.buffer.tailAddr % s.buffer.capacity < s.buffer.capacity :=
    Nat.mod_lt _ (hk ▸ Nat.two_pow_pos k)
  have hmod : s.buffer.tailAddr &&& (s.buffer.capacity - 1) =
      s.buffer.tailAddr % s.buffer.capacity := h.physical _
  rw [CircularBuffer.allocTail, hmod] at hr
  split at hr
  · cases hr
  · split at hr
    · split at hr
      · next hsmall =>
        simp only [cbAllocMetaSize] at hsmall
        omega
      · split at hr
        · cases hr
        · obtain rfl := Except.error.inj hr
          rfl
    · split at hr
      · cases hr
      · obtain rfl := Except.error.inj hr
        rfl

section Steps

variable (h : s.Inv reserved rest lost)
include h

omit [DecidableEq W] in
/-- A step that does not touch head or evicted blocks. -/
theorem StepOk.of {r : Result W} {reserved' rest' : List Nat}
    (hinv : r.2.Inv reserved' rest' (lostAfter lost r.1))
    (hstays : ∀ a ∈ reserved ++ rest, (s.buffer.getMeta a).state = .evicted →
      (r.2.buffer.getMeta a).state = .evicted)
    (hhead : r.2.buffer.headAddr = s.buffer.headAddr)
    (hevent : ∀ size ptr, r.1 ≠ some (.allocated size ptr)) : s.StepOk reserved rest lost r where
  inv := ⟨_, _, hinv⟩
  stays := hstays
  passed a ha hlt := by
    have := (h.layout.tiling.bounds ha).1
    omega
  allocated size ptr he := absurd he (hevent size ptr)

/-- A step that changes the phase of a task only. -/
theorem Inv.phase {t : Task} {l : Option W} {event : Option RingEvent}
    (hreserves : t.reserves = (s.tasks i).reserves)
    (hevict : (s.tasks i).isEvict = true → t.isEvict = true) (hsizes : t.SizesOk s.buffer)
    (ht : t.claim s.buffer = (s.tasks i).claim s.buffer) (hlost : lostAfter lost event = lost)
    (hevent : ∀ size ptr, event ≠ some (.allocated size ptr)) :
    s.Good reserved rest lost (.ok (event,
      ⟨s.buffer, l, s.listLocks, Function.update s.tasks i t⟩)) := by
  have hinv : Inv ⟨s.buffer, l, s.listLocks, Function.update s.tasks i t⟩ reserved rest
      (lostAfter lost event) := by
    rw [hlost]
    exact h.retask hreserves hevict hsizes ht
  exact .of h (r := (event, _)) hinv (fun _ _ ha => ha) rfl hevent

/-- A step that changes the state of a block. -/
theorem Inv.changed {p : Nat} {st : MetaState} {l : Option W} {locks : Nat → Option W}
    {tasks : W → Task} (hp : (s.buffer.getMetaFromDataPtr p).state ≠ .evicted)
    (hinv : Inv ⟨s.buffer.setState p st, l, locks, tasks⟩ reserved rest lost) :
    s.Good reserved rest lost (.ok (none, ⟨s.buffer.setState p st, l, locks, tasks⟩)) :=
  .of h (r := (none, _)) hinv (fun a _ => evicted_setState hp a) rfl nofun

/-! ## Allocation -/

omit [DecidableEq W] in
/-- A step that returns an allocation. -/
theorem Inv.allocated {size a : Nat} {m : AllocMeta} {b' : CircularBuffer} {l : Option W}
    {tasks : W → Task} {reserved' rest' : List Nat}
    (hinv : Inv ⟨b', l, s.listLocks, tasks⟩ reserved' rest' lost)
    (hstays : ∀ a ∈ reserved ++ rest, (s.buffer.getMeta a).state = .evicted →
      (b'.getMeta a).state = .evicted)
    (hhead : b'.headAddr = s.buffer.headAddr) (ha : a ∈ reserved' ++ rest')
    (hm : b'.getMeta a = m) (hsize : size ≤ m.size) (hready : m.state = .notReady) :
    s.Good reserved rest lost (.ok (some (.allocated size (b'.dataPtr a)),
      ⟨b', l, s.listLocks, tasks⟩)) where
  inv := ⟨_, _, hinv⟩
  stays := hstays
  passed a ha hlt := by
    have hle := (h.layout.tiling.bounds ha).1
    rw [← hhead] at hle
    exact absurd hlt (Nat.not_lt.2 hle)
  allocated size' ptr' he := by
    cases he
    refine ⟨a, hinv.layout.iter_eq ▸ ha, rfl, ?_⟩
    show size ≤ (b'.getMeta a).size ∧ (b'.getMeta a).state = .notReady
    rw [hm]
    exact ⟨hsize, hready⟩

theorem Inv.allocStep {size : Nat} {phase : AllocPhase} (hi : s.tasks i = .alloc phase size) :
    s.Good reserved rest lost (s.allocStep i env size phase) := by
  have hsizes := h.sizes i
  rw [hi] at hsizes
  cases phase with
  | lock =>
    rw [RingSys.allocStep]
    split
    · trivial
    · exact h.phase (by rw [hi]; rfl) (by rw [hi]; nofun) hsizes (by rw [hi]; rfl) rfl nofun
  | remove =>
    obtain ⟨c, k, hc, hk, hle⟩ := sizeClassLargerThan_of_mem hsizes.2
    simp only [RingSys.allocStep, hc]
    split
    · trivial
    · next hlock =>
      split
      · exact h.phase (by rw [hi]; rfl) (by rw [hi]; nofun) hsizes (by rw [hi]; rfl) rfl nofun
      · next ptr list hlist =>
        have hmem : ptr ∈ s.buffer.listHeads c := hlist ▸ List.mem_cons_self
        have hfree : s.listLocks c = none := Option.not_isSome_iff_eq_none.1 (by simpa using hlock)
        -- the block is in the list of its class, which is not smaller than the size
        have hsize : size ≤ (s.buffer.getMetaFromDataPtr ptr).size := by
          obtain ⟨k', hk', hle', -⟩ := sizeClassSmallerThan_eq_some (h.inList hmem hfree).cls
          rw [hk] at hk'
          cases hk'
          exact hle.trans hle'
        have hinv := h.unlist (i := i) (t := .alloc (.taken ptr) size) (l := s.lock)
          (by rw [hi]; rfl) (by rw [hi]; nofun) ⟨hsizes.1, hsizes.2, hsize⟩ (by rw [hi]; rfl)
          hmem hfree rfl
        rw [hlist, List.erase_cons_head] at hinv
        exact .of h (r := (none, _)) hinv (fun _ _ ha => ha) rfl nofun
  | taken ptr =>
    have hclaim : (s.tasks i).claim s.buffer = some (ptr, ⟨.freeListed, none⟩) := by rw [hi]; rfl
    have ho := h.owner hclaim
    have hstate : (s.buffer.getMetaFromDataPtr ptr).state = .freeListed := ho.state
    have hne : (s.buffer.getMetaFromDataPtr ptr).state ≠ .evicted := by rw [hstate]; nofun
    rw [RingSys.allocStep]
    split
    · simp only [freeListToTombstone, transition_of_state hstate]
      exact h.changed hne (h.release (by rw [hi]; rfl) (by rw [hi]; nofun) ⟨hsizes.1, hsizes.2.1⟩
        hclaim rfl nofun nofun)
    · rw [if_neg (Nat.not_lt.2 hsizes.2.2)]
      split
      · have hinv := h.keep (i := i) (t := .guard ptr) (l := none) (by rw [hi]; rfl)
          (by rw [hi]; nofun) trivial hclaim rfl nofun
        obtain ⟨a, ha, rfl⟩ := ho.cell
        have hmeta : (s.buffer.setState (s.buffer.dataPtr a) .notReady).getMeta a =
            ⟨(s.buffer.getMetaFromDataPtr (s.buffer.dataPtr a)).size, .notReady⟩ := by
          rw [← getMeta_eq]
          exact getMetaFromDataPtr_setState ..
        refine h.allocated (m := ⟨_, .notReady⟩) hinv (fun a _ => evicted_setState hne a) rfl ha hmeta
          hsizes.2.2 rfl
      · exact .of h (r := (_, _)) (h.lose (by rw [hi]; rfl) (by rw [hi]; nofun)
          ⟨hsizes.1, hsizes.2.1⟩ hclaim rfl) (fun _ _ ha => ha) rfl nofun
  | tail =>
    have hle := h.layout.class_le size hsizes.2
    rw [RingSys.allocStep]
    cases hr : s.buffer.allocTail size with
    | error e => exact allocTail_error h.layout hr
    | ok result =>
      have hok := h.layout.allocTail hsizes.1 hle hr
      cases result with
      | full =>
        exact h.phase (by rw [hi]; rfl) (by rw [hi]; nofun) trivial (by rw [hi]; rfl) rfl nofun
      | padded b' =>
        obtain ⟨m, hm, rfl, hpushed⟩ := hok
        have hinv := h.push (t := .alloc .lock size) (l := none) hi hpushed (by rw [hm]; nofun)
          (by rw [hm]; nofun) rfl hsizes id (.inl rfl)
        exact .of h (r := (none, _)) hinv (fun a ha he => (hpushed.2.2 a ha).symm ▸ he) rfl
          nofun
      | done ptr b' =>
        obtain ⟨m, hm, hsize, rfl, rfl, hpushed⟩ := hok
        have hinv := h.push (t := .guard (s.buffer.dataPtr s.buffer.tailAddr)) (l := none) hi
          hpushed (by rw [hm]; nofun) (by rw [hm]; nofun) rfl trivial id (.inr (by rw [hm]; rfl))
        exact h.allocated hinv (fun a ha he => (hpushed.2.2 a ha).symm ▸ he) rfl
          (by simp) hpushed.2.1 hsize hm

/-! ## Deallocation -/

theorem Inv.deallocStep {ptr : Nat} {phase : DeallocPhase} (hi : s.tasks i = .dealloc phase ptr) :
    s.Good reserved rest lost (s.deallocStep i env ptr phase) := by
  cases phase with
  | start =>
    have htombstone : s.Good reserved rest lost
        (.ok (none, s.setTask i (.dealloc .tombstone ptr))) :=
      h.phase (by rw [hi]; rfl) (by rw [hi]; nofun) trivial (by rw [hi]; rfl) rfl nofun
    simp only [RingSys.deallocStep]
    split
    · exact htombstone
    · split
      · exact htombstone
      · next hsize =>
        obtain ⟨c, hc⟩ := h.layout.exists_smaller hsize
        simp only [hc]
        split
        · exact htombstone
        · next hlock =>
          have hfree : s.listLocks c = none :=
            Option.not_isSome_iff_eq_none.1 fun hsome => hlock (.inr hsome)
          exact .of h (r := (none, _)) (h.link hi hc hfree) (fun _ _ ha => ha) rfl nofun
  | tombstone =>
    have hclaim : (s.tasks i).claim s.buffer = some (ptr, ⟨.beginTombstone, none⟩) := by
      rw [hi]; rfl
    have hstate : (s.buffer.getMetaFromDataPtr ptr).state = .beginTombstone :=
      (h.owner hclaim).state
    simp only [RingSys.deallocStep, toTombstone, transition_of_state hstate]
    exact h.changed (by rw [hstate]; nofun) (h.release (by rw [hi]; rfl) (by rw [hi]; nofun) trivial
      hclaim rfl nofun nofun)
  | linked c =>
    have hclaim : (s.tasks i).claim s.buffer = some (ptr, ⟨.beginTombstone, some c⟩) := by
      rw [hi]; rfl
    have hstate : (s.buffer.getMetaFromDataPtr ptr).state = .beginTombstone :=
      (h.owner hclaim).state
    simp only [RingSys.deallocStep, toFreelist, transition_of_state hstate]
    exact h.changed (by rw [hstate]; nofun) (h.linkDone hi)

/-! ## Eviction -/

/-- No task has a block that is ready. -/
theorem Inv.unowned_of_ready {p : Nat} (hp : (s.buffer.getMetaFromDataPtr p).state = .ready) :
    (s.cells (reserved ++ rest) lost).Unowned p := by
  intro j y hj
  have hstate : (s.buffer.getMetaFromDataPtr p).state = y.state := (h.owner hj).state
  exact (Task.claim_ne_evicted hj).2 (hstate.symm.trans hp)

/-- No other task has the tombstone that a task is about to evict. -/
theorem Inv.unowned_of_tombstone {start : Nat} (hres : (s.tasks i).reserves = some start)
    (hi : (s.tasks i).claim s.buffer = none)
    (hp : (s.buffer.getMetaFromDataPtr (s.buffer.dataPtr start)).state = .tombstone) :
    (s.cells (reserved ++ rest) lost).Unowned (s.buffer.dataPtr start) := by
  rintro j ⟨st, link⟩ hj
  have hstate : (s.buffer.getMetaFromDataPtr (s.buffer.dataPtr start)).state = st :=
    (h.owner hj).state
  rw [hp] at hstate
  subst hstate
  obtain ⟨start', hres', heq⟩ := Task.claim_tombstone hj
  have hmem := fun {j a} hj => List.mem_append_left rest (h.evictions.working j a hj).1
  obtain rfl := h.layout.dataPtr_inj (hmem hres) (hmem hres') heq
  obtain rfl := h.evictions.distinct i j start hres hres'
  exact absurd (hi.symm.trans hj) nofun

theorem Inv.evictStep {start stop : Nat} {phase : EvictPhase}
    (hi : s.tasks i = .evict phase start stop) :
    s.Good reserved rest lost (s.evictStep i env start stop phase) := by
  have hmem : (s.tasks i).reserves = some start → start ∈ reserved ++ rest := fun hres =>
    List.mem_append_left rest (h.evictions.working i start hres).1
  have hphase : ∀ phase' : EvictPhase,
      (Task.evict phase' start stop).reserves = (Task.evict phase start stop).reserves →
      (Task.evict phase' start stop).SizesOk s.buffer →
      (Task.evict phase' start stop).claim s.buffer = (Task.evict phase start stop).claim s.buffer →
      ∀ {l : Option W}, s.Good reserved rest lost (.ok (none,
        ⟨s.buffer, l, s.listLocks, Function.update s.tasks i (.evict phase' start stop)⟩)) :=
    fun _ hres hsizes hclaim _ =>
      h.phase (by rw [hi, hres]) (fun _ => rfl) hsizes (by rw [hi, hclaim]) rfl nofun
  cases phase with
  | acquire =>
    rw [RingSys.evictStep]
    split
    · next hready =>
      rw [← getMeta_eq] at hready
      exact h.changed (by rw [hready]; nofun) (h.take (by rw [hi]; rfl) (fun _ => rfl) trivial
        (by rw [hi]; rfl) ⟨start, hmem (by rw [hi]; rfl), rfl⟩ (h.unowned_of_ready hready)
        (by rw [hready]; nofun) (by rw [hready]; nofun) (.setState _ (Nat.le_add_left _ _) _) rfl
        (by rw [getMetaFromDataPtr_setState]) (by nofun) rfl)
    · exact hphase .load rfl trivial rfl
  | load =>
    rw [RingSys.evictStep]
    split
    · next hst =>
      rw [← getMeta_eq] at hst
      have hinv := h.take (i := i) (t := .evict .tombstoned start stop) (l := s.lock)
        (by rw [hi]; rfl) (fun _ => rfl) trivial
        (by rw [hi]; rfl) ⟨start, hmem (by rw [hi]; rfl), rfl⟩
        (h.unowned_of_tombstone (by rw [hi]; rfl) (by rw [hi]; rfl) hst) (by rw [hst]; nofun)
        (by rw [hst]; nofun) (.refl _ _) rfl hst nofun rfl
      exact .of h (r := (none, _)) hinv (fun _ _ ha => ha) rfl nofun
    · next hst =>
      rw [← getMeta_eq] at hst
      exact hphase .find rfl (h.classed _ ⟨start, hmem (by rw [hi]; rfl), rfl⟩ hst) rfl
    · exact hphase .acquire rfl trivial rfl
  | callback =>
    have hclaim : (s.tasks i).claim s.buffer =
        some (s.buffer.dataPtr start, ⟨.beginTombstone, none⟩) := by rw [hi]; rfl
    have hstate : (s.buffer.getMetaFromDataPtr (s.buffer.dataPtr start)).state = .beginTombstone :=
      (h.owner hclaim).state
    rw [RingSys.evictStep]
    split
    · exact hphase .dealloc rfl trivial rfl
    · simp only [revertToReady, transition_of_state hstate]
      exact h.changed (by rw [hstate]; nofun) (h.release (by rw [hi]; rfl) (fun _ => rfl) trivial
        hclaim rfl nofun nofun)
  | dealloc =>
    have hclaim : (s.tasks i).claim s.buffer =
        some (s.buffer.dataPtr start, ⟨.beginTombstone, none⟩) := by rw [hi]; rfl
    have hstate : (s.buffer.getMetaFromDataPtr (s.buffer.dataPtr start)).state = .beginTombstone :=
      (h.owner hclaim).state
    simp only [RingSys.evictStep, toTombstone, transition_of_state hstate]
    exact h.changed (by rw [hstate]; nofun) (h.keep (by rw [hi]; rfl) (fun _ => rfl) trivial hclaim
      rfl nofun)
  | find =>
    have hsizes := h.sizes i
    rw [hi] at hsizes
    obtain ⟨c, hc⟩ := hsizes
    rw [getMeta_eq] at hc
    simp only [RingSys.evictStep, hc]
    split
    · trivial
    · next hlock =>
      have hfree : s.listLocks c = none := Option.not_isSome_iff_eq_none.1 (by simpa using hlock)
      split
      · next hin =>
        have hinv := h.unlist (i := i) (t := .evict .unlinked start stop) (l := s.lock)
          (by rw [hi]; rfl) (fun _ => rfl) trivial (by rw [hi]; rfl) hin hfree rfl
        exact .of h (r := (none, _)) hinv (fun _ _ ha => ha) rfl nofun
      · exact hphase .acquire rfl trivial rfl
  | unlinked =>
    have hclaim : (s.tasks i).claim s.buffer =
        some (s.buffer.dataPtr start, ⟨.freeListed, none⟩) := by rw [hi]; rfl
    have hstate : (s.buffer.getMetaFromDataPtr (s.buffer.dataPtr start)).state = .freeListed :=
      (h.owner hclaim).state
    simp only [RingSys.evictStep, freeListToTombstone, transition_of_state hstate]
    exact h.changed (by rw [hstate]; nofun) (h.keep (by rw [hi]; rfl) (fun _ => rfl) trivial hclaim
      rfl nofun)
  | tombstoned =>
    have hclaim : (s.tasks i).claim s.buffer =
        some (s.buffer.dataPtr start, ⟨.tombstone, none⟩) := by rw [hi]; rfl
    have hstate : (s.buffer.getMetaFromDataPtr (s.buffer.dataPtr start)).state = .tombstone :=
      (h.owner hclaim).state
    simp only [RingSys.evictStep, tombstoneToEvicted, transition_of_state hstate]
    exact h.changed (by rw [hstate]; nofun) (h.evicted hi)
  | finish =>
    rw [RingSys.evictStep]
    split
    · trivial
    · exact hphase .bump rfl trivial rfl
  | bump =>
    rw [RingSys.evictStep]
    split
    · next hbump =>
      obtain ⟨reserved', hres, hinv⟩ := h.bump hbump.1 hbump.2
      refine ⟨⟨_, _, hinv⟩, fun _ _ ha => ha, fun a ha hlt => ?_, nofun⟩
      have hhead : s.buffer.headAddr ∈ reserved ++ rest := by rw [hres]; exact List.mem_cons_self
      have hle := (h.layout.tiling.bounds ha).1
      rcases Nat.lt_or_eq_of_le hle with hgt | heq
      · exact absurd hlt (Nat.not_lt.2 (h.layout.tiling.lt_of_lt hhead ha hgt))
      · rw [← heq]
        exact hbump.2
    · next hstop => exact .of h (r := (_, _)) (h.finish hi hstop) (fun _ _ ha => ha) rfl nofun

/-! ## All steps -/

theorem Inv.step {a : RingAction W} (ha : s.Allowed a) :
    s.Good reserved rest lost (s.step a) := by
  have hsame : ∀ event, lostAfter lost event = lost → (∀ size ptr, event ≠ some (.allocated size ptr)) →
      s.Good reserved rest lost (.ok (event, s)) := fun event hlost hevent =>
    .of h (r := (event, s)) (hlost.symm ▸ h) (fun _ _ ha => ha) rfl hevent
  cases a with
  | alloc i size =>
    rw [RingSys.step]
    split
    · trivial
    · next hidle =>
      have hi : s.tasks i = .idle := Classical.not_not.1 hidle
      split
      · exact hsame _ rfl nofun
      · next hpos =>
        rw [if_neg (Nat.not_lt.2 (h.layout.getLastD_le ha))]
        exact h.phase (by rw [hi]; rfl) (by rw [hi]; nofun) ⟨Nat.pos_of_ne_zero hpos, ha⟩
          (by rw [hi]; rfl) rfl nofun
  | drop i =>
    rw [RingSys.step]
    split
    · next ptr hi =>
      have hclaim : (s.tasks i).claim s.buffer = some (ptr, ⟨.notReady, none⟩) := by rw [hi]; rfl
      have hstate : (s.buffer.getMetaFromDataPtr ptr).state = .notReady := (h.owner hclaim).state
      simp only [toReady, transition_of_state hstate]
      exact h.changed (by rw [hstate]; nofun) (h.release (by rw [hi]; rfl) (by rw [hi]; nofun)
        trivial hclaim rfl nofun nofun)
    · next ptr hi =>
      have hclaim : (s.tasks i).claim s.buffer = some (ptr, ⟨.beginTombstone, none⟩) := by
        rw [hi]; rfl
      have hstate : (s.buffer.getMetaFromDataPtr ptr).state = .beginTombstone :=
        (h.owner hclaim).state
      simp only [revertToReady, transition_of_state hstate]
      exact h.changed (by rw [hstate]; nofun) (h.release (by rw [hi]; rfl) (by rw [hi]; nofun)
        trivial hclaim rfl nofun nofun)
    · trivial
  | acquire i ptr =>
    rw [RingSys.step]
    split
    · trivial
    · next hidle =>
      have hi : s.tasks i = .idle := Classical.not_not.1 hidle
      split
      · next hready =>
        obtain ⟨a, ha, rfl⟩ := ha
        rw [h.layout.iter_eq] at ha
        exact h.changed (by rw [hready]; nofun) (h.take (by rw [hi]; rfl) (by rw [hi]; nofun) trivial
          (by rw [hi]; rfl) ⟨a, ha, rfl⟩ (h.unowned_of_ready hready) (by rw [hready]; nofun)
          (by rw [hready]; nofun) (.setState _ (Nat.le_add_left _ _) _) rfl
          (by rw [getMetaFromDataPtr_setState]) (by nofun) rfl)
      · exact hsame _ rfl nofun
  | dealloc i =>
    rw [RingSys.step]
    split
    · next ptr hi =>
      exact h.phase (by rw [hi]; rfl) (by rw [hi]; nofun) trivial (by rw [hi]; rfl) rfl nofun
    · trivial
  | evict i =>
    simp only [RingSys.step]
    split
    · trivial
    · next hfree =>
      have hi : s.tasks i = .idle := Classical.not_not.1 fun hne => hfree (.inl hne)
      split
      · exact hsame _ rfl nofun
      · next hne =>
        obtain ⟨rest', hrest, hinv⟩ := h.reserve hi hne
        exact .of h (r := (none, _)) hinv (fun _ _ ha => ha) rfl nofun
  | step i env =>
    rw [RingSys.step]
    split
    · next phase size hi => exact h.allocStep hi
    · next phase ptr hi => exact h.deallocStep hi
    · next phase start stop hi => exact h.evictStep hi
    · trivial

end Steps

end RingSys

end BfTree
