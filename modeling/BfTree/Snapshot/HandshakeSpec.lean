import BfTree.Snapshot.Handshake

/-!
# Safety of the phase handshake

A worker is *committed* to a state word from the moment its second load of the
global state returned that word. New commitments are always to the current global
state, so a scan that finds no older commitment rules older ones out for good.
-/

namespace BfTree

/-- The position of a state word in the sequence of states. -/
def wordRank (word : Nat) : Int :=
  ((SnapshotState.decode word).map SnapshotState.rank).getD 0

theorem wordRank_encode {st : SnapshotState} {word : Nat} (h : st.encode = some word) :
    wordRank word = st.rank := by
  simp [wordRank, SnapshotState.decode_encode h]

/-- The words `new_snapshot_state` makes. -/
def ValidWord (word : Nat) : Prop := ∃ st : SnapshotState, st.encode = some word

theorem ValidWord.ne_invalid {word : Nat} (h : ValidWord word) : word ≠ invalidSnapshotState := by
  obtain ⟨st, hst⟩ := h
  exact st.encode_ne_invalid hst

theorem ValidWord.decode {word : Nat} {phase : PhaseId} (h : ValidWord word)
    (hp : wordPhaseId word = some phase) :
    (⟨phase, wordVersion word⟩ : SnapshotState).encode = some word := by
  obtain ⟨st, hst⟩ := h
  have hd := SnapshotState.decode_encode hst
  rw [SnapshotState.decode, hp] at hd
  obtain rfl : (⟨phase, wordVersion word⟩ : SnapshotState) = st := by simpa using hd
  exact hst

namespace WorkerPc

/-- The slot a worker occupies. -/
def owner : WorkerPc → Option SlotId
  | idle | cas _ => none
  | loadGlobal tid | setLoad tid _ | setStore tid _ | recheckGlobal tid _
  | recheckLocal tid _ _ | recheckPause tid _ | revertLoad tid | revertStore tid
  | revertSlot tid | reserved tid _ _ | releaseLoad tid | releaseStore tid
  | releaseSlot tid => some tid

/-- The slot and the state word a worker is committed to. -/
def committed : WorkerPc → Option (SlotId × Nat)
  | recheckLocal tid g cur => if g = cur then some (tid, g) else none
  | recheckPause tid g | reserved tid g _ => some (tid, g)
  | _ => none

/-- The state word a worker has stored in its slot and not yet taken back. -/
def published : WorkerPc → Option (SlotId × Nat)
  | recheckGlobal tid g | recheckLocal tid g _ | recheckPause tid g
  | reserved tid g _ => some (tid, g)
  | _ => none

/-- The state word a worker has loaded. -/
def loaded : WorkerPc → Option Nat
  | setLoad _ g | setStore _ g | recheckGlobal _ g | recheckLocal _ g _
  | recheckPause _ g | reserved _ g _ => some g
  | _ => none

theorem published_of_committed {pc : WorkerPc} {tid : SlotId} {g : Nat}
    (h : pc.committed = some (tid, g)) : pc.published = some (tid, g) := by
  cases pc <;> simp_all [committed, published]

theorem owner_of_published {pc : WorkerPc} {tid : SlotId} {g : Nat}
    (h : pc.published = some (tid, g)) : pc.owner = some tid := by
  cases pc <;> simp_all [owner, published]

theorem loaded_of_published {pc : WorkerPc} {tid : SlotId} {g : Nat}
    (h : pc.published = some (tid, g)) : pc.loaded = some g := by
  cases pc <;> simp_all [loaded, published]

/-- What holds of one worker and the shared state. -/
structure Inv (m : SnapshotMgr) (pc : WorkerPc) : Prop where
  slot : ∀ tid, pc.owner = some tid → m.threadSlots tid = true
  stored : ∀ tid g, pc.published = some (tid, g) → m.threadLocalStates tid = g
  past : ∀ g, pc.loaded = some g → ValidWord g ∧ wordRank g ≤ wordRank m.globalState
  decoded : ∀ tid g st, pc = reserved tid g st → st.encode = some g

/-- A worker is not affected by what happens outside its slot. -/
theorem Inv.frame {m m' : SnapshotMgr} {pc : WorkerPc} (h : pc.Inv m)
    (hslots : ∀ tid, pc.owner = some tid → m'.threadSlots tid = m.threadSlots tid)
    (hlocal : ∀ tid, pc.owner = some tid → m'.threadLocalStates tid = m.threadLocalStates tid)
    (hglobal : wordRank m.globalState ≤ wordRank m'.globalState) : pc.Inv m' where
  slot tid ht := (hslots tid ht).trans (h.slot tid ht)
  stored tid g ht := (hlocal tid (owner_of_published ht)).trans (h.stored tid g ht)
  past g hg := ⟨(h.past g hg).1, Int.le_trans (h.past g hg).2 hglobal⟩
  decoded := h.decoded

end WorkerPc

/-- What one step of a worker can do: it keeps its own invariant, touches no slot
of another worker, and commits only to the current global state. -/
structure WorkerStepSpec (m m' : SnapshotMgr) (pc pc' : WorkerPc) : Prop where
  globalState : m'.globalState = m.globalState
  pauseSnapshot : m'.pauseSnapshot = m.pauseSnapshot
  inv : pc'.Inv m'
  slots : ∀ tid, pc.owner ≠ some tid → m.threadSlots tid = true → m'.threadSlots tid = true
  locals : ∀ tid, pc.owner ≠ some tid → m'.threadLocalStates tid = m.threadLocalStates tid
  owner : ∀ tid, pc'.owner = some tid → pc.owner = some tid ∨ m.threadSlots tid = false
  committed : ∀ tid g, pc'.committed = some (tid, g) →
    pc.committed = some (tid, g) ∨ g = m.globalState
  reserved : ∀ tid g st, pc' = .reserved tid g st → m.pauseSnapshot = false

/-- A step that only moves the program counter. -/
theorem WorkerStepSpec.local_step {m : SnapshotMgr} {pc pc' : WorkerPc} (hinv : pc'.Inv m)
    (howner : pc'.owner = pc.owner ∨ pc'.owner = none)
    (hcommitted : ∀ tid g, pc'.committed = some (tid, g) →
      pc.committed = some (tid, g) ∨ g = m.globalState)
    (hreserved : ∀ tid g st, pc' = .reserved tid g st → m.pauseSnapshot = false) :
    WorkerStepSpec m m pc pc' where
  globalState := rfl
  pauseSnapshot := rfl
  inv := hinv
  slots _ _ h := h
  locals _ _ := rfl
  owner tid ht := by
    obtain h | h := howner
    · exact .inl (h ▸ ht)
    · simp [h] at ht
  committed := hcommitted
  reserved := hreserved

open WorkerPc in
theorem workerStep_spec {m m' : SnapshotMgr} {start : SlotId} {pc pc' : WorkerPc}
    (h : workerStep m start pc = some (m', pc')) (hinv : pc.Inv m)
    (hglobal : ValidWord m.globalState) : WorkerStepSpec m m' pc pc' := by
  obtain ⟨hslot, hstored, hpast, -⟩ := hinv
  cases pc with
  | idle =>
    obtain ⟨rfl, rfl⟩ : m = m' ∧ _ = pc' := by simpa [workerStep] using h
    split <;> exact .local_step (by constructor <;> simp_all [owner, published, loaded])
          (by simp [owner]) (by simp [committed]) (by simp)
  | cas i =>
    simp only [workerStep] at h
    split at h
    · split at h
      · obtain ⟨rfl, rfl⟩ : m = m' ∧ _ = pc' := by simpa using h
        exact .local_step (by constructor <;> simp_all [owner, published, loaded])
          (by simp [owner]) (by simp [committed]) (by simp)
      · next hfree =>
        obtain ⟨rfl, rfl⟩ : _ = m' ∧ _ = pc' := by simpa using h
        constructor <;> simp_all [owner, committed, SnapshotMgr.setSlot, Function.update_apply]
        constructor <;> simp [owner, published, loaded]
    · obtain ⟨rfl, rfl⟩ : m = m' ∧ _ = pc' := by simpa using h
      exact .local_step (by constructor <;> simp_all [owner, published, loaded])
          (by simp [owner]) (by simp [committed]) (by simp)
  | loadGlobal tid =>
    obtain ⟨rfl, rfl⟩ : m = m' ∧ _ = pc' := by simpa [workerStep] using h
    exact .local_step (by constructor <;> simp_all [owner, published, loaded])
          (by simp [owner]) (by simp [committed]) (by simp)
  | setLoad tid g =>
    obtain ⟨rfl, rfl⟩ : m = m' ∧ _ = pc' := by simpa [workerStep] using h
    split <;> exact .local_step (by constructor <;> simp_all [owner, published, loaded])
          (by simp [owner]) (by simp [committed]) (by simp)
  | setStore tid g =>
    obtain ⟨rfl, rfl⟩ : _ = m' ∧ _ = pc' := by simpa [workerStep] using h
    constructor <;> simp_all [owner, committed, SnapshotMgr.storeLocal, Function.update_apply]
    · constructor <;> simp_all [owner, published, loaded]
    · grind
  | recheckGlobal tid g =>
    obtain ⟨rfl, rfl⟩ : m = m' ∧ _ = pc' := by simpa [workerStep] using h
    exact .local_step (by constructor <;> simp_all [owner, published, loaded])
          (by simp [owner]) (by simp [committed]) (by simp)
  | recheckLocal tid g cur =>
    obtain ⟨rfl, rfl⟩ : m = m' ∧ _ = pc' := by simpa [workerStep] using h
    have hg : m.threadLocalStates tid = g := hstored tid g rfl
    split
    · next heq =>
      have hcur : g = cur := hg.symm.trans heq
      exact .local_step (by constructor <;> simp_all [owner, published, loaded]) (by simp [owner])
        (by simp [committed, hcur]) (by simp)
    · exact .local_step (by constructor <;> simp_all [owner, published, loaded]) (by simp [owner])
        (by simp [committed]) (by simp)
  | recheckPause tid g =>
    have hdecode (phase : PhaseId) (hp : wordPhaseId g = some phase) := (hpast g rfl).1.decode hp
    simp only [workerStep] at h
    split at h
    · obtain ⟨rfl, rfl⟩ : m = m' ∧ _ = pc' := by simpa using h
      exact .local_step (by constructor <;> simp_all [owner, published, loaded])
          (by simp [owner]) (by simp [committed]) (by simp)
    · obtain ⟨phase, hp, hr⟩ := Option.bind_eq_some_iff.mp h
      obtain ⟨rfl, rfl⟩ : m = m' ∧ _ = pc' := by simpa using hr
      exact .local_step (by constructor <;> simp_all [owner, published, loaded])
          (by simp [owner]) (by simp_all [committed]) (by simp_all)
  | revertLoad tid | releaseLoad tid =>
    obtain ⟨rfl, rfl⟩ : m = m' ∧ _ = pc' := by simpa [workerStep] using h
    split <;> exact .local_step (by constructor <;> simp_all [owner, published, loaded])
          (by simp [owner]) (by simp [committed]) (by simp)
  | revertStore tid | releaseStore tid =>
    obtain ⟨rfl, rfl⟩ : _ = m' ∧ _ = pc' := by simpa [workerStep] using h
    constructor <;> simp_all [owner, committed, SnapshotMgr.storeLocal, Function.update_apply]
    · constructor <;> simp_all [owner, published, loaded]
    · grind
  | revertSlot tid | releaseSlot tid =>
    obtain ⟨rfl, rfl⟩ : m.setSlot tid false = m' ∧ _ = pc' := by
      simpa [workerStep, hslot tid rfl] using h
    constructor <;> simp_all [owner, committed, SnapshotMgr.setSlot, Function.update_apply]
    · constructor <;> simp [owner, published, loaded]
    · grind
  | reserved tid g st =>
    obtain ⟨rfl, rfl⟩ : m = m' ∧ _ = pc' := by simpa [workerStep] using h
    exact .local_step (by constructor <;> simp_all [owner, published, loaded])
          (by simp [owner]) (by simp [committed]) (by simp)

variable {W : Type}

/-- What one step of the manager can do. -/
inductive ManagerStepSpec (s : HandshakeSys W) : ManagerAction → HandshakeSys W → Prop where
  | advance {phase : PhaseId} (hpc : s.managerPc = .idle)
      (hphase : wordPhaseId s.mgr.globalState = some phase) :
      ManagerStepSpec s .advance { s with managerPc := .advanceVersion phase }
  | check {target : Nat} (hpc : s.managerPc = .idle) :
      ManagerStepSpec s (.check target) { s with managerPc := .check target 0 }
  | pause (hpc : s.managerPc = .idle) :
      ManagerStepSpec s .pause
        { s with mgr := { s.mgr with pauseSnapshot := true }, drained := false }
  | resume (hpc : s.managerPc = .idle) :
      ManagerStepSpec s .resume
        { s with mgr := { s.mgr with pauseSnapshot := false }, drained := false }
  | version {phase : PhaseId} {newState : Nat} (hpc : s.managerPc = .advanceVersion phase)
      (hnew : (SnapshotState.next ⟨phase, wordVersion s.mgr.globalState⟩).encode =
        some newState) :
      ManagerStepSpec s .continue { s with managerPc := .advanceStore newState }
  | store {newState : Nat} (hpc : s.managerPc = .advanceStore newState) :
      ManagerStepSpec s .continue
        { s with
          mgr := { s.mgr with globalState := newState }
          managerPc := .idle
          phaseCompleted := false }
  | reject {target slot : Nat} (hpc : s.managerPc = .check target slot) :
      ManagerStepSpec s .continue { s with managerPc := .idle }
  | pass {target slot : Nat} (hpc : s.managerPc = .check target slot)
      (hslot : slot < maxSnapshotThreadNum)
      (hlocal : s.mgr.threadLocalStates ⟨slot, hslot⟩ = invalidSnapshotState ∨
        s.mgr.threadLocalStates ⟨slot, hslot⟩ = target) :
      ManagerStepSpec s .continue { s with managerPc := .check target (slot + 1) }
  | done {target slot : Nat} (hpc : s.managerPc = .check target slot)
      (hslot : maxSnapshotThreadNum ≤ slot) :
      ManagerStepSpec s .continue
        { s with
          managerPc := .idle
          phaseCompleted := s.phaseCompleted || decide (target = s.mgr.globalState)
          drained := s.drained || decide (target = invalidSnapshotState) }

theorem managerStep_spec {s s' : HandshakeSys W} {a : ManagerAction}
    (h : managerStep s a = some s') : ManagerStepSpec s a s' := by
  rw [managerStep.eq_def] at h
  split at h
  · next hpc =>
    obtain ⟨phase, hphase, hr⟩ := Option.bind_eq_some_iff.mp h
    obtain rfl : _ = s' := by simpa using hr
    exact .advance hpc hphase
  · next hpc => cases h; exact .check hpc
  · next hpc => cases h; exact .pause hpc
  · next hpc => cases h; exact .resume hpc
  · next hpc =>
    obtain ⟨newState, hnew, hr⟩ := Option.bind_eq_some_iff.mp h
    obtain rfl : _ = s' := by simpa using hr
    exact .version hpc hnew
  · next hpc => cases h; exact .store hpc
  · next target slot hpc =>
    by_cases hslot : slot < maxSnapshotThreadNum
    · simp only [dif_pos hslot] at h
      split at h
      · cases h; exact .reject hpc
      · next hlocal => cases h; exact .pass hpc hslot (by tauto)
    · simp only [dif_neg hslot] at h
      cases h
      exact .done hpc (by omega)
  · cases h

/-- No worker on a slot below `n` is committed to a state before position `x`. -/
def NoneBefore (x : Int) (n : Nat) (workers : W → WorkerPc) : Prop :=
  ∀ w tid g, (workers w).committed = some (tid, g) → tid.val < n → x ≤ wordRank g

/-- No worker on a slot below `n` holds a reservation. -/
def NoneReserved (n : Nat) (workers : W → WorkerPc) : Prop :=
  ∀ w tid g st, workers w = .reserved tid g st → n ≤ tid.val

namespace HandshakeSys

structure Inv (s : HandshakeSys W) : Prop where
  worker : ∀ w, (s.workers w).Inv s.mgr
  exclusive : ∀ w w' tid, (s.workers w).owner = some tid → (s.workers w').owner = some tid → w = w'
  valid : ValidWord s.mgr.globalState
  version : ∀ phase, s.managerPc = .advanceVersion phase →
    wordPhaseId s.mgr.globalState = some phase
  store : ∀ newState, s.managerPc = .advanceStore newState →
    ValidWord newState ∧ wordRank newState = wordRank s.mgr.globalState + 1

/-- What the manager knows from the slots it has scanned. -/
structure ScanInv (s : HandshakeSys W) : Prop where
  scan : ∀ target slot, s.managerPc = .check target slot → target = s.mgr.globalState →
    NoneBefore (wordRank s.mgr.globalState) slot s.workers
  completed : s.phaseCompleted →
    NoneBefore (wordRank s.mgr.globalState) maxSnapshotThreadNum s.workers
  drain : ∀ slot, s.managerPc = .check invalidSnapshotState slot → s.mgr.pauseSnapshot →
    NoneReserved slot s.workers
  drained : s.drained → s.mgr.pauseSnapshot → NoneReserved maxSnapshotThreadNum s.workers

theorem Inv.new {version : Nat} {s : HandshakeSys W} (h : new W version = some s) : s.Inv := by
  obtain ⟨m, hm, rfl⟩ := Option.map_eq_some_iff.mp h
  obtain ⟨g, hg, hm⟩ := Option.bind_eq_some_iff.mp hm
  obtain rfl : _ = m := by simpa using hm
  exact {
    worker := fun w => by
      constructor <;> simp [start, WorkerPc.owner, WorkerPc.published, WorkerPc.loaded]
    exclusive := by simp [start, WorkerPc.owner]
    valid := ⟨⟨.rest, version⟩, hg⟩
    version := by simp [start]
    store := by simp [start] }

theorem Inv.managerStep {s s' : HandshakeSys W} {a : ManagerAction} (hinv : s.Inv)
    (h : ManagerStepSpec s a s') :
    s'.Inv ∧ wordRank s.mgr.globalState ≤ wordRank s'.mgr.globalState := by
  obtain ⟨hworker, hexcl, hvalid, hversion, hstore⟩ := hinv
  have hrefl := Int.le_refl (wordRank s.mgr.globalState)
  cases h with
  | advance hpc hphase =>
    refine ⟨⟨hworker, hexcl, hvalid, ?_, by simp⟩, hrefl⟩
    simpa using hphase
  | check | reject | pass | done => exact ⟨⟨hworker, hexcl, hvalid, by simp, by simp⟩, hrefl⟩
  | pause hpc | resume hpc =>
    exact ⟨⟨fun w => (hworker w).frame (fun _ _ => rfl) (fun _ _ => rfl) hrefl, hexcl, hvalid,
      hversion, hstore⟩, hrefl⟩
  | version hpc hnew =>
    have hcur := hvalid.decode (hversion _ hpc)
    refine ⟨⟨hworker, hexcl, hvalid, by simp, ?_⟩, hrefl⟩
    rintro newState ⟨⟩
    exact ⟨⟨_, hnew⟩, by rw [wordRank_encode hnew, SnapshotState.rank_next, wordRank_encode hcur]⟩
  | store hpc =>
    obtain ⟨hnew, hrank⟩ := hstore _ hpc
    have hle := hrank ▸ Int.le_add_one hrefl
    exact ⟨⟨fun w => (hworker w).frame (fun _ _ => rfl) (fun _ _ => rfl) hle, hexcl, hnew,
      by simp, by simp⟩, hle⟩

theorem managerStep_workers {s s' : HandshakeSys W} {a : ManagerAction}
    (h : ManagerStepSpec s a s') : s'.workers = s.workers := by
  cases h <;> rfl

/-- A slot that reads invalid or `target` has no owner committed to another word. -/
theorem noneBefore_pass {s : HandshakeSys W} {slot : Nat} (hinv : s.Inv)
    (hslot : slot < maxSnapshotThreadNum)
    (hlocal : s.mgr.threadLocalStates ⟨slot, hslot⟩ = invalidSnapshotState ∨
      s.mgr.threadLocalStates ⟨slot, hslot⟩ = s.mgr.globalState)
    (hn : NoneBefore (wordRank s.mgr.globalState) slot s.workers) :
    NoneBefore (wordRank s.mgr.globalState) (slot + 1) s.workers := by
  intro w tid g hc ht
  obtain hlt | heq : tid.val < slot ∨ tid.val = slot := by omega
  · exact hn w tid g hc hlt
  · obtain rfl : tid = ⟨slot, hslot⟩ := Fin.ext heq
    have hpub := WorkerPc.published_of_committed hc
    rw [(hinv.worker w).stored _ g hpub] at hlocal
    have hvalid := ((hinv.worker w).past g (WorkerPc.loaded_of_published hpub)).1
    obtain h | h := hlocal
    · exact (hvalid.ne_invalid h).elim
    · exact Int.le_of_eq (by rw [h])

theorem noneReserved_pass {s : HandshakeSys W} {slot : Nat} (hinv : s.Inv)
    (hslot : slot < maxSnapshotThreadNum)
    (hlocal : s.mgr.threadLocalStates ⟨slot, hslot⟩ = invalidSnapshotState)
    (hn : NoneReserved slot s.workers) : NoneReserved (slot + 1) s.workers := by
  intro w tid g st hr
  have hge := hn w tid g st hr
  by_contra hlt
  obtain rfl : tid = ⟨slot, hslot⟩ := Fin.ext (show tid.val = slot by omega)
  have hpub : (s.workers w).published = some (⟨slot, hslot⟩, g) := by rw [hr]; rfl
  rw [(hinv.worker w).stored _ g hpub] at hlocal
  exact ((hinv.worker w).past g (WorkerPc.loaded_of_published hpub)).1.ne_invalid hlocal

theorem ScanInv.managerStep {s s' : HandshakeSys W} {a : ManagerAction} (hinv : s.Inv)
    (hscan : s.ScanInv) (h : ManagerStepSpec s a s') : s'.ScanInv := by
  obtain ⟨hscan, hcompleted, hdrain, hdrained⟩ := hscan
  cases h with
  | advance | version | reject => exact ⟨by simp, hcompleted, by simp, hdrained⟩
  | check =>
    refine ⟨?_, hcompleted, ?_, hdrained⟩
    · rintro target slot ⟨⟩ - w tid g - ht
      omega
    · rintro slot ⟨⟩ - w tid g st -
      exact Nat.zero_le _
  | pause hpc | resume hpc => exact ⟨by simp [hpc], hcompleted, by simp [hpc], by simp⟩
  | store hpc => exact ⟨by simp, by simp, by simp, hdrained⟩
  | @pass target slot hpc hslot hlocal =>
    refine ⟨?_, hcompleted, ?_, hdrained⟩
    · rintro _ _ ⟨⟩ (ht : target = s.mgr.globalState)
      have hpass := noneBefore_pass hinv hslot (ht ▸ hlocal) (hscan _ _ hpc ht)
      exact hpass
    · rintro _ ⟨⟩ hpause
      have hpass := noneReserved_pass hinv hslot (by simpa using hlocal) (hdrain _ hpc hpause)
      exact hpass
  | @done target slot hpc hslot =>
    refine ⟨by simp, fun hc => ?_, by simp, fun hd hpause => ?_⟩
    · obtain hc | rfl : s.phaseCompleted ∨ target = s.mgr.globalState := by simpa using hc
      · exact hcompleted hc
      · exact fun w tid g hg ht => hscan _ _ hpc rfl w tid g hg (by omega)
    · obtain hd | rfl : s.drained ∨ target = invalidSnapshotState := by simpa using hd
      · exact hdrained hd hpause
      · exact fun w tid g st hr => hslot.trans (hdrain _ hpc hpause w tid g st hr)

theorem ScanInv.new {version : Nat} {s : HandshakeSys W} (h : new W version = some s) :
    s.ScanInv := by
  obtain ⟨m, -, rfl⟩ := Option.map_eq_some_iff.mp h
  constructor <;> simp [start]

/-- A held reservation is a commitment to the encoding of its state. -/
theorem Inv.holds {s : HandshakeSys W} (hinv : s.Inv) {w : W} {tid : SlotId} {st : SnapshotState}
    (h : s.Holds w tid st) : ∃ g, (s.workers w).committed = some (tid, g) ∧
      wordRank g = st.rank ∧ wordRank g ≤ wordRank s.mgr.globalState := by
  obtain ⟨g, hg⟩ := h
  have hpast := (hinv.worker w).past g (by rw [hg]; rfl)
  exact ⟨g, by rw [hg]; rfl, wordRank_encode ((hinv.worker w).decoded tid g st hg), hpast.2⟩

/-- While the manager advances only out of completed phases, commitments lag
behind the global state by at most one state, and by none during an advance. -/
structure LagInv (s : HandshakeSys W) : Prop where
  lag : NoneBefore (wordRank s.mgr.globalState - 1) maxSnapshotThreadNum s.workers
  advancing : (∃ phase, s.managerPc = .advanceVersion phase) ∨
    (∃ newState, s.managerPc = .advanceStore newState) →
      NoneBefore (wordRank s.mgr.globalState) maxSnapshotThreadNum s.workers

theorem LagInv.managerStep {s s' : HandshakeSys W} {a : ManagerAction} (hinv : s.Inv)
    (hlag : s.LagInv) (h : ManagerStepSpec s a s')
    (hadvance : a = .advance →
      NoneBefore (wordRank s.mgr.globalState) maxSnapshotThreadNum s.workers) : s'.LagInv := by
  obtain ⟨hlag, hadvancing⟩ := hlag
  cases h with
  | advance => exact ⟨hlag, fun _ => hadvance rfl⟩
  | check | reject | pass | done => exact ⟨hlag, by simp⟩
  | pause hpc | resume hpc => exact ⟨hlag, by simp [hpc]⟩
  | version hpc => exact ⟨hlag, fun _ => hadvancing (.inl ⟨_, hpc⟩)⟩
  | store hpc =>
    refine ⟨?_, by simp⟩
    rw [(hinv.store _ hpc).2, Int.add_sub_cancel]
    exact hadvancing (.inr ⟨_, hpc⟩)

variable [DecidableEq W]

/-- A worker step changes one program counter as `WorkerStepSpec` says. -/
theorem handshakeStep_worker {s s' : HandshakeSys W} {w : W} {start : SlotId} (hinv : s.Inv)
    (h : handshakeStep s (.worker w start) = some s') :
    ∃ mgr pc, WorkerStepSpec s.mgr mgr (s.workers w) pc ∧
      s' = { s with mgr := mgr, workers := Function.update s.workers w pc } := by
  obtain ⟨⟨mgr, pc⟩, hstep, hs⟩ := Option.bind_eq_some_iff.mp h
  obtain rfl : _ = s' := by simpa using hs
  exact ⟨mgr, pc, workerStep_spec hstep (hinv.worker w) hinv.valid, rfl⟩

theorem Inv.workerStep {s : HandshakeSys W} {w : W} {mgr : SnapshotMgr} {pc : WorkerPc}
    (hinv : s.Inv) (h : WorkerStepSpec s.mgr mgr (s.workers w) pc) :
    Inv { s with mgr := mgr, workers := Function.update s.workers w pc } where
  worker w' := by
    by_cases hw : w' = w
    · subst hw
      simpa using h.inv
    · simp only [Function.update_of_ne hw]
      -- the stepping worker owns another slot than `w'`
      have hne : ∀ tid, (s.workers w').owner = some tid → (s.workers w).owner ≠ some tid :=
        fun tid h' h'' => hw (hinv.exclusive w' w tid h' h'')
      refine (hinv.worker w').frame (fun tid ht => ?_) (fun tid ht => h.locals tid (hne tid ht))
        (Int.le_of_eq (by rw [h.globalState]))
      have hslot := (hinv.worker w').slot tid ht
      rw [h.slots tid (hne tid ht) hslot, hslot]
  exclusive w₁ w₂ tid h₁ h₂ := by
    have hstep (w' : W) (hw : w' ≠ w) (h' : (s.workers w').owner = some tid)
        (hpc : pc.owner = some tid) : False := by
      obtain ho | ho := h.owner tid hpc
      · exact hw (hinv.exclusive w' w tid h' ho)
      · simp [(hinv.worker w').slot tid h'] at ho
    by_cases hw₁ : w₁ = w <;> by_cases hw₂ : w₂ = w
    · rw [hw₁, hw₂]
    · subst hw₁
      simp only [Function.update_self, Function.update_of_ne hw₂] at h₁ h₂
      exact (hstep w₂ hw₂ h₂ h₁).elim
    · subst hw₂
      simp only [Function.update_self, Function.update_of_ne hw₁] at h₁ h₂
      exact (hstep w₁ hw₁ h₁ h₂).elim
    · simp only [Function.update_of_ne hw₁, Function.update_of_ne hw₂] at h₁ h₂
      exact hinv.exclusive w₁ w₂ tid h₁ h₂
  valid := by rw [h.globalState]; exact hinv.valid
  version phase hp := by rw [h.globalState]; exact hinv.version phase hp
  store newState hp := by rw [h.globalState]; exact hinv.store newState hp

theorem Inv.step {s s' : HandshakeSys W} (hinv : s.Inv) (h : Step s s') :
    s'.Inv ∧ wordRank s.mgr.globalState ≤ wordRank s'.mgr.globalState := by
  obtain ⟨a, ha⟩ := h
  cases a with
  | worker w start =>
    obtain ⟨mgr, pc, hspec, rfl⟩ := handshakeStep_worker hinv ha
    exact ⟨hinv.workerStep hspec, Int.le_of_eq (by rw [hspec.globalState])⟩
  | manager a => exact hinv.managerStep (managerStep_spec ha)

/-- New commitments are to the current global state, so none is older than it. -/
theorem noneBefore_workerStep {s : HandshakeSys W} {w : W} {mgr : SnapshotMgr} {pc : WorkerPc}
    {x : Int} {n : Nat} (h : WorkerStepSpec s.mgr mgr (s.workers w) pc)
    (hx : x ≤ wordRank s.mgr.globalState) (hn : NoneBefore x n s.workers) :
    NoneBefore x n (Function.update s.workers w pc) := by
  intro w' tid g hc ht
  by_cases hw : w' = w
  · subst hw
    rw [Function.update_self] at hc
    obtain hold | rfl := h.committed tid g hc
    · exact hn w' tid g hold ht
    · exact hx
  · rw [Function.update_of_ne hw] at hc
    exact hn w' tid g hc ht

theorem noneReserved_workerStep {s : HandshakeSys W} {w : W} {mgr : SnapshotMgr} {pc : WorkerPc}
    {n : Nat} (h : WorkerStepSpec s.mgr mgr (s.workers w) pc) (hpause : s.mgr.pauseSnapshot)
    (hn : NoneReserved n s.workers) : NoneReserved n (Function.update s.workers w pc) := by
  intro w' tid g st hr
  by_cases hw : w' = w
  · subst hw
    rw [Function.update_self] at hr
    simp [h.reserved tid g st hr] at hpause
  · rw [Function.update_of_ne hw] at hr
    exact hn w' tid g st hr

theorem noneBefore_step {s s' : HandshakeSys W} {x : Int} {n : Nat} (hinv : s.Inv)
    (h : Step s s') (hx : x ≤ wordRank s.mgr.globalState) (hn : NoneBefore x n s.workers) :
    NoneBefore x n s'.workers := by
  obtain ⟨a, ha⟩ := h
  cases a with
  | worker w start =>
    obtain ⟨mgr, pc, hspec, rfl⟩ := handshakeStep_worker hinv ha
    exact noneBefore_workerStep hspec hx hn
  | manager a =>
    rw [managerStep_workers (managerStep_spec ha)]
    exact hn

theorem ScanInv.workerStep {s : HandshakeSys W} {w : W} {mgr : SnapshotMgr} {pc : WorkerPc}
    (hscan : s.ScanInv) (h : WorkerStepSpec s.mgr mgr (s.workers w) pc) :
    ScanInv { s with mgr := mgr, workers := Function.update s.workers w pc } := by
  have hx := Int.le_refl (wordRank s.mgr.globalState)
  constructor <;> simp only [h.globalState, h.pauseSnapshot]
  · exact fun target slot hpc ht => noneBefore_workerStep h hx (hscan.scan target slot hpc ht)
  · exact fun hc => noneBefore_workerStep h hx (hscan.completed hc)
  · exact fun slot hpc hp => noneReserved_workerStep h hp (hscan.drain slot hpc hp)
  · exact fun hd hp => noneReserved_workerStep h hp (hscan.drained hd hp)

theorem ScanInv.step {s s' : HandshakeSys W} (hinv : s.Inv) (hscan : s.ScanInv)
    (h : Step s s') : s'.ScanInv := by
  obtain ⟨a, ha⟩ := h
  cases a with
  | worker w start =>
    obtain ⟨mgr, pc, hspec, rfl⟩ := handshakeStep_worker hinv ha
    exact hscan.workerStep hspec
  | manager a => exact hscan.managerStep hinv (managerStep_spec ha)

/-- The invariants along a run; what a scan has ruled out stays ruled out. -/
theorem run_noneBefore {s s' : HandshakeSys W} {x : Int} {n : Nat} (hinv : s.Inv)
    (hx : x ≤ wordRank s.mgr.globalState) (hn : NoneBefore x n s.workers)
    (h : Relation.ReflTransGen Step s s') :
    s'.Inv ∧ x ≤ wordRank s'.mgr.globalState ∧ NoneBefore x n s'.workers := by
  induction h with
  | refl => exact ⟨hinv, hx, hn⟩
  | tail _ hstep ih =>
    obtain ⟨hinv', hx', hn'⟩ := ih
    obtain ⟨hinv'', hle⟩ := hinv'.step hstep
    exact ⟨hinv'', Int.le_trans hx' hle, noneBefore_step hinv' hstep hx' hn'⟩

/-- What a worker commits to from some point on is not older than that point. -/
theorem run_committed {s s' : HandshakeSys W} {w : W} {x : Int} (hinv : s.Inv)
    (hx : x ≤ wordRank s.mgr.globalState)
    (hw : ∀ tid g, (s.workers w).committed = some (tid, g) → x ≤ wordRank g)
    (h : Relation.ReflTransGen Step s s') :
    s'.Inv ∧ x ≤ wordRank s'.mgr.globalState ∧
      ∀ tid g, (s'.workers w).committed = some (tid, g) → x ≤ wordRank g := by
  induction h with
  | refl => exact ⟨hinv, hx, hw⟩
  | tail _ hstep ih =>
    obtain ⟨hinv', hx', hw'⟩ := ih
    obtain ⟨hinv'', hle⟩ := hinv'.step hstep
    refine ⟨hinv'', Int.le_trans hx' hle, fun tid g hc => ?_⟩
    obtain ⟨a, ha⟩ := hstep
    cases a with
    | worker w' start =>
      obtain ⟨mgr, pc, hspec, rfl⟩ := handshakeStep_worker hinv' ha
      dsimp only at hc
      by_cases hww : w = w'
      · subst hww
        rw [Function.update_self] at hc
        obtain hold | rfl := hspec.committed tid g hc
        · exact hw' tid g hold
        · exact hx'
      · rw [Function.update_of_ne hww] at hc
        exact hw' tid g hc
    | manager a =>
      rw [managerStep_workers (managerStep_spec ha)] at hc
      exact hw' tid g hc

/-- Of two reservations the one that is begun once the other is held comes later in the
cycle of phases. -/
theorem held_in_order {s₁ s₂ s₃ : HandshakeSys W} {w w' : W} {tid tid' : SlotId}
    {st st' : SnapshotState} (hinv : s₁.Inv) (hw : s₁.Holds w tid st)
    (h₂ : Relation.ReflTransGen Step s₁ s₂) (hidle : s₂.workers w' = .idle)
    (h₃ : Relation.ReflTransGen Step s₂ s₃) (hw' : s₃.Holds w' tid' st') :
    st.rank ≤ st'.rank := by
  obtain ⟨g, hc, hg, hle⟩ := hinv.holds hw
  have hnone : NoneBefore (wordRank s₁.mgr.globalState) 0 s₁.workers :=
    fun _ _ _ _ ht => absurd ht (Nat.not_lt_zero _)
  obtain ⟨hinv₂, hle₂, -⟩ := run_noneBefore hinv (Int.le_refl _) hnone h₂
  obtain ⟨hinv₃, -, hsince⟩ := run_committed (w := w') hinv₂ (Int.le_trans hle hle₂)
    (fun tid g hc => by rw [hidle] at hc; cases hc) h₃
  obtain ⟨g', hc', hg', -⟩ := hinv₃.holds hw'
  rw [← hg, ← hg']
  exact hsince tid' g' hc'

theorem run_inv {s s' : HandshakeSys W} (hinv : s.Inv) (hscan : s.ScanInv)
    (h : Relation.ReflTransGen Step s s') : s'.Inv ∧ s'.ScanInv := by
  induction h with
  | refl => exact ⟨hinv, hscan⟩
  | tail _ hstep ih => exact ⟨(ih.1.step hstep).1, ih.2.step ih.1 hstep⟩

theorem LagInv.step {s s' : HandshakeSys W} {v : Nat} {x : Int} (hinv : s.Inv)
    (hscan : s.ScanInv) (hlag : s.LagInv) (h : SnapshotStep v s s')
    (hinit : ∀ g, newSnapshotState 0 v = some g → wordRank g = x)
    (hx : NoneBefore x maxSnapshotThreadNum s.workers) : s'.LagInv := by
  obtain ⟨a, ha, hadvance⟩ := h
  cases a with
  | worker w start =>
    obtain ⟨mgr, pc, hspec, rfl⟩ := handshakeStep_worker hinv ha
    constructor <;> simp only [hspec.globalState]
    · exact noneBefore_workerStep hspec (by omega) hlag.lag
    · exact fun hpc => noneBefore_workerStep hspec (Int.le_refl _) (hlag.advancing hpc)
  | manager a =>
    refine hlag.managerStep hinv (managerStep_spec ha) fun hadv => ?_
    obtain hc | hg := hadvance (by rw [hadv])
    · exact hscan.completed hc
    · rw [hinit _ hg]
      exact hx

theorem SnapshotStep.step {v : Nat} {s s' : HandshakeSys W} (h : SnapshotStep v s s') :
    Step s s' := by
  obtain ⟨a, ha, -⟩ := h
  exact ⟨a, ha⟩

theorem run_lagInv {s₀ s : HandshakeSys W} {v : Nat} (h₀ : new W v = some s₀)
    (h : Relation.ReflTransGen (SnapshotStep v) s₀ s) : s.LagInv := by
  -- before the first advance every commitment is to the initial state
  have hnone : ∀ x, NoneBefore x maxSnapshotThreadNum s₀.workers := by
    obtain ⟨m, -, rfl⟩ := Option.map_eq_some_iff.mp h₀
    simp [start, NoneBefore, WorkerPc.committed]
  have hinit : ∀ g, newSnapshotState 0 v = some g → wordRank g = wordRank s₀.mgr.globalState := by
    intro g hg
    obtain ⟨m, hm, rfl⟩ := Option.map_eq_some_iff.mp h₀
    rw [SnapshotMgr.new, hg] at hm
    obtain rfl : _ = m := by simpa using hm
    rfl
  induction h with
  | refl => exact ⟨hnone _, fun _ => hnone _⟩
  | tail hrun hstep ih =>
    have hrun := Relation.ReflTransGen.mono (fun _ _ => SnapshotStep.step) _ _ hrun
    obtain ⟨hinv, hscan⟩ := run_inv (.new h₀) (.new h₀) hrun
    have hx := (run_noneBefore (.new h₀) (Int.le_refl _) (hnone _) hrun).2.2
    exact ih.step hinv hscan hstep hinit hx

/-- While the pause flag stays set, a drained tree stays drained. -/
theorem run_paused {s s' : HandshakeSys W} (hinv : s.Inv) (hpause : s.mgr.pauseSnapshot)
    (hn : NoneReserved maxSnapshotThreadNum s.workers)
    (h : Relation.ReflTransGen PausedStep s s') :
    NoneReserved maxSnapshotThreadNum s'.workers := by
  have hall : s'.Inv ∧ s'.mgr.pauseSnapshot ∧ NoneReserved maxSnapshotThreadNum s'.workers := by
    induction h with
    | refl => exact ⟨hinv, hpause, hn⟩
    | tail _ hstep ih =>
      obtain ⟨hinv, hpause, hn⟩ := ih
      refine ⟨(hinv.step hstep.1).1, hstep.2, ?_⟩
      obtain ⟨a, ha⟩ := hstep.1
      cases a with
      | worker w start =>
        obtain ⟨mgr, pc, hspec, rfl⟩ := handshakeStep_worker hinv ha
        exact noneReserved_workerStep hspec hpause hn
      | manager a =>
        rw [managerStep_workers (managerStep_spec ha)]
        exact hn
  exact hall.2.2

/-- The phase handshake, over every interleaving of the workers' and the manager's
atomic steps. Once `check_if_phase_completed` has returned true for the global
state, no reservation of an earlier state is held from then on; a manager that
advances only out of completed phases keeps all held reservations in the same or
in adjacent states; and once the slots are drained under `pause_snapshot`, none is
held until the flag is cleared. -/
theorem handshake_safe {v : Nat} {s₀ : HandshakeSys W} (h₀ : new W v = some s₀) :
    (∀ s, Relation.ReflTransGen Step s₀ s → s.phaseCompleted →
      ∀ s', Relation.ReflTransGen Step s s' →
        ∀ w tid st, s'.Holds w tid st →
          ∀ x, SnapshotState.decode s.mgr.globalState = some x → ¬ st.Precedes x) ∧
    (∀ s, Relation.ReflTransGen (SnapshotStep v) s₀ s →
      ∀ w tid st w' tid' st', s.Holds w tid st → s.Holds w' tid' st' →
        st.SameOrAdjacent st') ∧
    (∀ s, Relation.ReflTransGen Step s₀ s → s.mgr.pauseSnapshot → s.drained →
      ∀ s', Relation.ReflTransGen PausedStep s s' →
        ∀ w tid st, ¬ s'.Holds w tid st) := by
  refine ⟨?_, ?_, ?_⟩
  · intro s hrun hcompleted s' hrun' w tid st hholds x hx hprecedes
    obtain ⟨hinv, hscan⟩ := run_inv (.new h₀) (.new h₀) hrun
    obtain ⟨hinv', -, hn⟩ := run_noneBefore hinv (Int.le_refl _) (hscan.completed hcompleted) hrun'
    obtain ⟨g, hg, hrank, -⟩ := hinv'.holds hholds
    have hge := hn w tid g hg tid.isLt
    have hlt := hprecedes.rank_lt
    have hword : wordRank s.mgr.globalState = x.rank := by simp [wordRank, hx]
    omega
  · intro s hrun w tid st w' tid' st' hholds hholds'
    have hlag := run_lagInv h₀ hrun
    obtain ⟨hinv, -⟩ := run_inv (.new h₀) (.new h₀) (Relation.ReflTransGen.mono (fun _ _ => SnapshotStep.step) _ _ hrun)
    obtain ⟨g, hg, hrank, hle⟩ := hinv.holds hholds
    obtain ⟨g', hg', hrank', hle'⟩ := hinv.holds hholds'
    have hge := hlag.lag w tid g hg tid.isLt
    have hge' := hlag.lag w' tid' g' hg' tid'.isLt
    obtain ⟨x, hx⟩ := hinv.valid
    rw [wordRank_encode hx] at hle hle' hge hge'
    exact SnapshotState.sameOrAdjacent_of_rank (g := x) (by omega) (by omega)
  · intro s hrun hpause hdrained s' hrun' w tid st hholds
    obtain ⟨hinv, hscan⟩ := run_inv (.new h₀) (.new h₀) hrun
    obtain ⟨g, hg⟩ := hholds
    have hn := run_paused hinv hpause (hscan.drained hdrained hpause) hrun'
    exact absurd tid.isLt (Nat.not_lt.mpr (hn w tid g st hg))

/-- The manager of a fresh tree at version 0. -/
def freshMgr : SnapshotMgr :=
  ⟨0, fun _ => false, fun _ => invalidSnapshotState, false⟩

theorem handshake_safe_two_workers :
    new (Fin 2) 0 = some (start (Fin 2) freshMgr) ∧
    ∀ s, Relation.ReflTransGen (SnapshotStep 0) (start (Fin 2) freshMgr) s →
      ∀ w tid st w' tid' st', s.Holds w tid st → s.Holds w' tid' st' → st.SameOrAdjacent st' :=
  ⟨rfl, (handshake_safe rfl).2.1⟩

-- Worker 0 reserves slot 5 at rest, the manager advances, worker 1 reserves slot 6 in
-- prepare, and the scan for prepare stops at slot 5.
example :
    let actions : List (HandshakeAction (Fin 2)) :=
      List.replicate 8 (.worker 0 5) ++
        [.manager .advance, .manager .continue, .manager .continue] ++
        List.replicate 8 (.worker 1 6) ++ .manager (.check (2 ^ 61)) ::
        List.replicate 6 (.manager .continue)
    (actions.foldlM handshakeStep (start (Fin 2) freshMgr)).map
      (fun s => (s.workers 0, s.workers 1, s.managerPc)) =
    some (.reserved 5 0 ⟨.rest, 0⟩, .reserved 6 (2 ^ 61) ⟨.prepare, 0⟩, .idle) := by
  decide

end HandshakeSys

end BfTree
