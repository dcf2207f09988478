import BfTree.Utils.RwLock

/-!
# New entries of the page table

A split puts a new entry into the page table and only then locks it, with `try_write`
and an `unwrap`. From the insertion on the entry is below the next page id, which is all
that a snapshot sweep looks at; every other thread finds the entry through the parent,
which gets to know it while it is locked. The steps of any number of threads and of one
sweep interleave freely.
-/

namespace BfTree

/-- The mapping table of the leaves: lock words, and, for the proofs, whether the page
behind an entry has been handed over by the thread that made it. -/
structure PageTable where
  nextId : Nat
  lockVal : Nat → Nat
  linked : Nat → Bool
  ready : Nat → Bool

namespace PageTable

def setLock (t : PageTable) (id word : Nat) : PageTable :=
  { t with lockVal := Function.update t.lockVal id word }

/-- `MappingTable::insert`, one step under its mutex. -/
def insert (t : PageTable) : PageTable :=
  { nextId := t.nextId + 1
    lockVal := Function.update t.lockVal t.nextId 0
    linked := Function.update t.linked t.nextId false
    ready := Function.update t.ready t.nextId false }

/-- The parent gets the new child. -/
def link (t : PageTable) (id : Nat) : PageTable :=
  { t with linked := Function.update t.linked id true }

/-- The lock of the initialised page is dropped. -/
def publish (t : PageTable) (id : Nat) : PageTable :=
  { t with lockVal := Function.update t.lockVal id 0, ready := Function.update t.ready id true }

end PageTable

/-- Where a thread is in `alloc_base_page_mapping` or `insert_mini_page_mapping`, or on
its way into a leaf. -/
inductive PagePc where
  | idle
  /-- The entry is inserted, `try_write` starts. -/
  | tryLoad (id : Nat)
  | tryCas (id s : Nat)
  /-- The page is locked and being initialised. -/
  | locked (id : Nat)
  | panicked
  | access (id : Nat) (pc : LockPc)
  deriving DecidableEq

/-- The entry the thread has made and not yet handed over. -/
def PagePc.owns : PagePc → Option Nat
  | .tryLoad id | .tryCas id _ | .locked id => some id
  | _ => none

/-- `PageTableIter`, and the entry it is at. -/
inductive SweepPc where
  | idle
  | walk (curId highId : Nat)
  | visit (curId highId : Nat) (pc : LockPc)
  deriving DecidableEq

structure FreshSys (W : Type) where
  table : PageTable
  threads : W → PagePc
  sweep : SweepPc

inductive FreshAction (W : Type) where
  | alloc (w : W)
  | access (w : W) (id : Nat) (mode : LockMode)
  | link (w : W)
  | step (w : W) (spurious : Bool)
  | startSweep
  | sweep (spurious : Bool)

namespace FreshSys

variable {W : Type} [DecidableEq W]

def set (s : FreshSys W) (table : PageTable) (w : W) (pc : PagePc) : FreshSys W :=
  { s with table := table, threads := Function.update s.threads w pc }

/-- The next step of a running call. -/
def threadStep (t : PageTable) (spurious : Bool) : PagePc → Option (PageTable × PagePc)
  | .tryLoad id =>
    -- a lock that is taken is an error, and `unwrap` panics
    some (t, if t.lockVal id ≤ 1 then .tryCas id (t.lockVal id) else .panicked)
  | .tryCas id s =>
    if t.lockVal id = s ∧ spurious = false then some (t.setLock id writeLocked, .locked id)
    else some (t, .panicked)
  | .locked id => some (t.publish id, .idle)
  | .access id pc =>
    let (pc', word) := pc.step spurious (t.lockVal id)
    some (t.setLock id word, if pc' = .released then .idle else .access id pc')
  | .idle | .panicked => none

def step (s : FreshSys W) : FreshAction W → Option (FreshSys W)
  | .alloc w =>
    if s.threads w = .idle then some (s.set s.table.insert w (.tryLoad s.table.nextId)) else none
  | .access w id mode =>
    if s.threads w = .idle ∧ s.table.linked id = true then
      some (s.set s.table w (.access id (.enter mode)))
    else none
  | .link w =>
    match s.threads w with
    | .locked id => some { s with table := s.table.link id }
    | _ => none
  | .step w spurious =>
    (threadStep s.table spurious (s.threads w)).map fun r => s.set r.1 w r.2
  | .startSweep =>
    if s.sweep = .idle then some { s with sweep := .walk 0 s.table.nextId } else none
  | .sweep spurious =>
    match s.sweep with
    | .idle => none
    | .walk cur high =>
      some { s with sweep := if cur = high then .idle else .visit cur high .readLoad }
    | .visit cur high pc =>
      let (pc', word) := pc.step spurious (s.table.lockVal cur)
      some { s with
        table := s.table.setLock cur word
        sweep := if pc' = .released then .walk (cur + 1) high else .visit cur high pc' }

def run (s : FreshSys W) (actions : List (FreshAction W)) : Option (FreshSys W) :=
  actions.foldlM step s

/-- A table with `n` leaves that nobody works on. -/
def start (W : Type) (n : Nat) : FreshSys W where
  table := ⟨n, fun _ => 0, fun id => decide (id < n), fun id => decide (id < n)⟩
  threads := fun _ => .idle
  sweep := .idle

/-! ## The property -/

/-- The thread or the sweep looks at the page of the entry. -/
def Visits (s : FreshSys W) (id : Nat) : Prop :=
  (∃ w pc, s.threads w = .access id pc ∧ pc.holds = true) ∨
    ∃ high pc, s.sweep = .visit id high pc ∧ pc.holds = true

/-- No `unwrap` has panicked, and pages that are looked at have been handed over. -/
def Safe (s : FreshSys W) : Prop :=
  (∀ w, s.threads w ≠ .panicked) ∧ ∀ id, s.Visits id → s.table.ready id = true

/-- The entry is published, but not yet locked. -/
def Unlocked (s : FreshSys W) (id : Nat) : Prop :=
  ∃ w, s.threads w = .tryLoad id ∨ ∃ v, s.threads w = .tryCas id v

/-- The action is a spurious failure of `try_write`, or takes the read lock of an entry
that is not yet locked. -/
def Intrudes (s : FreshSys W) : FreshAction W → Prop
  | .step w spurious => spurious = true ∧ ∃ id v, s.threads w = .tryCas id v
  | .sweep spurious => spurious = false ∧ ∃ id high, s.Unlocked id ∧
      s.sweep = .visit id high (.readTest (s.table.lockVal id)) ∧ s.table.lockVal id % 2 = 0
  | _ => False

/-! ## What every run keeps -/

/-- Everything a step can do. -/
inductive Steps (s : FreshSys W) : FreshAction W → FreshSys W → Prop
  | alloc {w : W} (h : s.threads w = .idle) :
      Steps s (.alloc w) (s.set s.table.insert w (.tryLoad s.table.nextId))
  | access {w : W} {id : Nat} {mode : LockMode} (h : s.threads w = .idle)
      (hlinked : s.table.linked id = true) :
      Steps s (.access w id mode) (s.set s.table w (.access id (.enter mode)))
  | link {w : W} {id : Nat} (h : s.threads w = .locked id) :
      Steps s (.link w) (s.set (s.table.link id) w (.locked id))
  | load {w : W} {id : Nat} {spurious : Bool} (h : s.threads w = .tryLoad id)
      (hfree : s.table.lockVal id ≤ 1) :
      Steps s (.step w spurious) (s.set s.table w (.tryCas id (s.table.lockVal id)))
  | take {w : W} {id v : Nat} (h : s.threads w = .tryCas id v) (hword : s.table.lockVal id = v) :
      Steps s (.step w false) (s.set (s.table.setLock id writeLocked) w (.locked id))
  | panic {w : W} {id : Nat} {spurious : Bool}
      (h : s.threads w = .tryLoad id ∧ 1 < s.table.lockVal id ∨
        ∃ v, s.threads w = .tryCas id v ∧ (s.table.lockVal id ≠ v ∨ spurious = true)) :
      Steps s (.step w spurious) (s.set s.table w .panicked)
  | publish {w : W} {id : Nat} {spurious : Bool} (h : s.threads w = .locked id) :
      Steps s (.step w spurious) (s.set (s.table.publish id) w .idle)
  | move {w : W} {id : Nat} {pc : LockPc} {spurious : Bool} (h : s.threads w = .access id pc) :
      Steps s (.step w spurious)
        (s.set (s.table.setLock id (pc.step spurious (s.table.lockVal id)).2) w
          (if (pc.step spurious (s.table.lockVal id)).1 = .released then .idle
          else .access id (pc.step spurious (s.table.lockVal id)).1))
  | startSweep (h : s.sweep = .idle) :
      Steps s .startSweep { s with sweep := .walk 0 s.table.nextId }
  | walk {cur high : Nat} {spurious : Bool} (h : s.sweep = .walk cur high) :
      Steps s (.sweep spurious)
        { s with sweep := if cur = high then .idle else .visit cur high .readLoad }
  | visit {cur high : Nat} {pc : LockPc} {spurious : Bool} (h : s.sweep = .visit cur high pc) :
      Steps s (.sweep spurious)
        { s with
          table := s.table.setLock cur (pc.step spurious (s.table.lockVal cur)).2
          sweep := if (pc.step spurious (s.table.lockVal cur)).1 = .released then .walk (cur + 1) high
            else .visit cur high (pc.step spurious (s.table.lockVal cur)).1 }

variable {s s' : FreshSys W} {a : FreshAction W}

theorem step_cases (h : s.step a = some s') : Steps s a s' := by
  cases a with
  | alloc w =>
    rw [step, Option.ite_none_right_eq_some] at h
    obtain ⟨hw, rfl⟩ := And.imp_right Option.some.inj h
    exact .alloc hw
  | access w id mode =>
    rw [step, Option.ite_none_right_eq_some] at h
    obtain ⟨⟨hw, hid⟩, rfl⟩ := And.imp_right Option.some.inj h
    exact .access hw hid
  | link w =>
    simp only [step] at h
    split at h
    · next id hw =>
      cases h
      have hsame : s.set (s.table.link id) w (.locked id) = { s with table := s.table.link id } := by
        rw [set, ← hw, Function.update_eq_self]
      exact hsame ▸ .link hw
    · cases h
  | step w spurious =>
    rw [step, Option.map_eq_some_iff] at h
    obtain ⟨r, hr, rfl⟩ := h
    cases hw : s.threads w with
    | idle => rw [hw] at hr; cases hr
    | panicked => rw [hw] at hr; cases hr
    | tryLoad id =>
      rw [hw] at hr
      cases hr
      dsimp only
      split
      · next hle => exact .load hw hle
      · next hgt => exact .panic (.inl ⟨hw, Nat.lt_of_not_le hgt⟩)
    | tryCas id v =>
      rw [hw, threadStep] at hr
      split at hr
      · next hc =>
        cases hr
        obtain ⟨hword, rfl⟩ := hc
        exact .take hw hword
      · next hc =>
        cases hr
        refine .panic (.inr ⟨v, hw, ?_⟩)
        by_cases hword : s.table.lockVal id = v
        · exact .inr (by simpa [hword] using hc)
        · exact .inl hword
    | locked id =>
      rw [hw] at hr
      cases hr
      exact .publish hw
    | access id pc =>
      rw [hw] at hr
      cases hr
      exact .move hw
  | startSweep =>
    rw [step, Option.ite_none_right_eq_some] at h
    obtain ⟨hw, rfl⟩ := And.imp_right Option.some.inj h
    exact .startSweep hw
  | sweep spurious =>
    simp only [step] at h
    split at h
    · cases h
    · next hw =>
      cases h
      exact .walk hw
    · next hw =>
      cases h
      exact .visit hw

/-- An entry that a thread owns has not been handed over, and nobody else owns it. -/
structure Owned (s : FreshSys W) : Prop where
  fresh : ∀ w id, (s.threads w).owns = some id → id < s.table.nextId ∧ s.table.ready id = false
  apart : ∀ w w' id, (s.threads w).owns = some id → (s.threads w').owns = some id → w = w'

theorem Owned.set (h : s.Owned) {t : PageTable} {w : W} {pc : PagePc}
    (howns : pc.owns = none ∨ pc.owns = (s.threads w).owns)
    (ht : ∀ v id, v ≠ w ∨ pc.owns = some id → (s.threads v).owns = some id →
      id < t.nextId ∧ t.ready id = false) : (s.set t w pc).Owned := by
  have hkept : ∀ v id, (Function.update s.threads w pc v).owns = some id →
      (s.threads v).owns = some id ∧ (v ≠ w ∨ pc.owns = some id) := by
    intro v id hv
    by_cases hvw : v = w
    · subst hvw
      rw [Function.update_self] at hv
      obtain hn | he := howns
      · rw [hn] at hv; cases hv
      · exact ⟨he ▸ hv, .inr hv⟩
    · rw [Function.update_of_ne hvw] at hv
      exact ⟨hv, .inl hvw⟩
  refine ⟨fun v id hv => ?_, fun v v' id hv hv' => ?_⟩
  · obtain ⟨hold, hcase⟩ := hkept v id hv
    exact ht v id hcase hold
  · exact h.apart v v' id (hkept v id hv).1 (hkept v' id hv').1

theorem Owned.step (h : s.Owned) (hs : s.step a = some s') : s'.Owned := by
  have hold : ∀ {t : PageTable} {w : W} {pc : PagePc}, t.nextId = s.table.nextId →
      t.ready = s.table.ready → pc.owns = none ∨ pc.owns = (s.threads w).owns →
      (s.set t w pc).Owned := by
    intro t w pc hn hr howns
    refine h.set howns fun v id _ hv => ?_
    rw [hn, hr]
    exact h.fresh v id hv
  cases step_cases hs with
  | @alloc w hw =>
    have hnew : ∀ v, (s.threads v).owns ≠ some s.table.nextId := fun v hv =>
      Nat.lt_irrefl _ (h.fresh v _ hv).1
    refine ⟨fun v id hv => ?_, fun v v' id hv hv' => ?_⟩
    · simp only [FreshSys.set, PageTable.insert] at hv ⊢
      by_cases hvw : v = w
      · rw [hvw, Function.update_self] at hv
        obtain rfl : s.table.nextId = id := Option.some.inj hv
        exact ⟨Nat.lt_succ_self _, Function.update_self ..⟩
      · rw [Function.update_of_ne hvw] at hv
        obtain ⟨hlt, hready⟩ := h.fresh v id hv
        exact ⟨Nat.lt_succ_of_lt hlt, by rw [Function.update_of_ne (Nat.ne_of_lt hlt), hready]⟩
    · simp only [FreshSys.set, Function.update_apply] at hv hv'
      split at hv <;> split at hv'
      · next h₁ h₂ => rw [h₁, h₂]
      · cases hv
        exact (hnew v' hv').elim
      · cases hv'
        exact (hnew v hv).elim
      · exact h.apart v v' id hv hv'
  | access hw => exact hold rfl rfl (.inl rfl)
  | link hw => exact hold rfl rfl (.inr (by rw [hw]))
  | load hw => exact hold rfl rfl (.inr (by rw [hw]; rfl))
  | take hw => exact hold rfl rfl (.inr (by rw [hw]; rfl))
  | panic => exact hold rfl rfl (.inl rfl)
  | @publish w id _ hw =>
    refine h.set (.inl rfl) fun v id' hcase hv => ?_
    have hne : v ≠ w := hcase.resolve_right nofun
    have hid : id' ≠ id := fun he => hne (h.apart v w id (he ▸ hv) (by rw [hw]; rfl))
    obtain ⟨hlt, hready⟩ := h.fresh v id' hv
    exact ⟨hlt, (Function.update_of_ne hid ..).trans hready⟩
  | move hw => exact hold rfl rfl (.inl (by split <;> rfl))
  | startSweep => exact ⟨h.fresh, h.apart⟩
  | walk => exact ⟨h.fresh, h.apart⟩
  | visit => exact ⟨h.fresh, h.apart⟩

/-! ## Runs without intrusion -/

/-- What holds of a thread as long as nobody intrudes. -/
def ThreadOk (t : PageTable) : PagePc → Prop
  | .idle => True
  | .tryLoad id => t.lockVal id = 0 ∧ t.linked id = false
  | .tryCas id v => v = 0 ∧ t.lockVal id = 0 ∧ t.linked id = false
  | .locked id => t.lockVal id = writeLocked
  | .panicked => False
  | .access id pc => t.linked id = true ∧ (pc.holds = true → t.ready id = true)

def SweepOk (t : PageTable) : SweepPc → Prop
  | .idle => True
  | .walk cur high => cur ≤ high ∧ high ≤ t.nextId
  | .visit cur high pc =>
    cur < high ∧ high ≤ t.nextId ∧ pc.reads = true ∧ (pc.holds = true → t.ready cur = true)

structure Undisturbed (s : FreshSys W) : Prop extends s.Owned where
  all : ∀ id, id < s.table.nextId → s.table.ready id = true ∨ ∃ w, (s.threads w).owns = some id
  known : ∀ id, s.table.linked id = true ∨ s.table.ready id = true → id < s.table.nextId
  threads : ∀ w, ThreadOk s.table (s.threads w)
  sweep : SweepOk s.table s.sweep

theorem ThreadOk.frame {t t' : PageTable} {pc : PagePc} (h : ThreadOk t pc)
    (howned : ∀ id, pc.owns = some id → t'.lockVal id = t.lockVal id ∧ t'.linked id = t.linked id)
    (hlinked : ∀ id, t.linked id = true → t'.linked id = true)
    (hready : ∀ id, t.ready id = true → t'.ready id = true) : ThreadOk t' pc := by
  cases pc with
  | idle => trivial
  | tryLoad id =>
    obtain ⟨hw, hl⟩ := howned id rfl
    exact ⟨hw.trans h.1, hl.trans h.2⟩
  | tryCas id v =>
    obtain ⟨hw, hl⟩ := howned id rfl
    exact ⟨h.1, hw.trans h.2.1, hl.trans h.2.2⟩
  | locked id => exact (howned id rfl).1.trans h
  | panicked => exact h
  | access id pc => exact ⟨hlinked id h.1, fun hp => hready id (h.2 hp)⟩

theorem SweepOk.frame {t t' : PageTable} {pc : SweepPc} (h : SweepOk t pc) (hn : t.nextId ≤ t'.nextId)
    (hready : ∀ id, t.ready id = true → t'.ready id = true) : SweepOk t' pc := by
  cases pc with
  | idle => trivial
  | walk cur high => exact ⟨h.1, Nat.le_trans h.2 hn⟩
  | visit cur high pc => exact ⟨h.1, Nat.le_trans h.2.1 hn, h.2.2.1, fun hp => hready cur (h.2.2.2 hp)⟩

namespace Undisturbed

theorem set (h : s.Undisturbed) {t : PageTable} {w : W} {pc : PagePc} (howned : (s.set t w pc).Owned)
    (hn : t.nextId = s.table.nextId) (hready : ∀ id, s.table.ready id = true → t.ready id = true)
    (hlinked : ∀ id, s.table.linked id = true → t.linked id = true)
    (hknown : ∀ id, t.linked id = true ∨ t.ready id = true → id < s.table.nextId)
    (hsame : ∀ v, v ≠ w → ∀ id, (s.threads v).owns = some id →
      t.lockVal id = s.table.lockVal id ∧ t.linked id = s.table.linked id)
    (hpc : ThreadOk t pc)
    (hall : ∀ id, (s.threads w).owns = some id → pc.owns = some id ∨ t.ready id = true) :
    (s.set t w pc).Undisturbed := by
  refine ⟨howned, fun id hid => ?_, fun id hid => ?_, fun v => ?_, ?_⟩
  · obtain hr | ⟨v, hv⟩ := h.all id (hn ▸ hid)
    · exact .inl (hready id hr)
    · by_cases hvw : v = w
      · obtain hp | hr := hall id (hvw ▸ hv)
        · exact .inr ⟨w, (congrArg PagePc.owns (Function.update_self ..)).trans hp⟩
        · exact .inl hr
      · exact .inr ⟨v, (congrArg PagePc.owns (Function.update_of_ne hvw ..)).trans hv⟩
  · rw [FreshSys.set, hn]
    exact hknown id hid
  · simp only [FreshSys.set, Function.update_apply]
    split
    · exact hpc
    · next hvw => exact (h.threads v).frame (hsame v hvw) hlinked hready
  · exact h.sweep.frame (Nat.le_of_eq hn.symm) hready

omit [DecidableEq W] in
/-- Nobody owns an entry that has been handed over. -/
theorem not_owns (h : s.Undisturbed) {id : Nat} (hready : s.table.ready id = true) (v : W) :
    (s.threads v).owns ≠ some id := by
  intro hv
  rw [(h.fresh v id hv).2] at hready
  cases hready

omit [DecidableEq W] in
/-- Who owns an entry that has not been handed over holds its lock, or has just published
it. -/
theorem owner (h : s.Undisturbed) {id : Nat} (hid : id < s.table.nextId)
    (hready : s.table.ready id = false) :
    s.table.lockVal id = writeLocked ∨
      s.Unlocked id ∧ s.table.lockVal id = 0 ∧ s.table.linked id = false := by
  obtain hr | ⟨v, hv⟩ := h.all id hid
  · rw [hready] at hr
    cases hr
  · have hok := h.threads v
    cases hpc : s.threads v with
    | tryLoad id' =>
      rw [hpc] at hv hok
      obtain rfl : id' = id := Option.some.inj hv
      exact .inr ⟨⟨v, .inl hpc⟩, hok⟩
    | tryCas id' x =>
      rw [hpc] at hv hok
      obtain rfl : id' = id := Option.some.inj hv
      exact .inr ⟨⟨v, .inr ⟨x, hpc⟩⟩, hok.2⟩
    | locked id' =>
      rw [hpc] at hv hok
      obtain rfl : id' = id := Option.some.inj hv
      exact .inl hok
    | idle => rw [hpc] at hv; cases hv
    | panicked => rw [hpc] at hv; cases hv
    | access => rw [hpc] at hv; cases hv

omit [DecidableEq W] in
/-- The word of a lock may change once the entry has been handed over. -/
theorem setLock_same (h : s.Undisturbed) {id word : Nat}
    (hword : s.table.ready id = true ∨ word = s.table.lockVal id) (v : W) (id' : Nat)
    (hv : (s.threads v).owns = some id') :
    (s.table.setLock id word).lockVal id' = s.table.lockVal id' := by
  show Function.update s.table.lockVal id word id' = _
  obtain hr | rfl := hword
  · have hne : id' ≠ id := fun he => h.not_owns hr v (he ▸ hv)
    rw [Function.update_of_ne hne]
  · rw [Function.update_eq_self]

omit [DecidableEq W] in
/-- A thread that came through the parent gets a lock that its maker has dropped. -/
theorem access_step (h : s.Undisturbed) {w : W} {id : Nat} {pc : LockPc}
    (hw : s.threads w = .access id pc) (spurious : Bool) :
    (s.table.ready id = true ∨ (pc.step spurious (s.table.lockVal id)).2 = s.table.lockVal id) ∧
      ((pc.step spurious (s.table.lockVal id)).1.holds = true → s.table.ready id = true) := by
  have hok := h.threads w
  rw [hw] at hok
  cases hready : s.table.ready id with
  | true => exact ⟨.inl rfl, fun _ => rfl⟩
  | false =>
    have hfree : pc.holds = false := by
      by_contra hh
      have := hok.2 (by simpa using hh)
      rw [hready] at this
      cases this
    obtain hword | ⟨-, -, hlinked⟩ := h.owner (h.known id (.inl hok.1)) hready
    · rw [hword]
      obtain ⟨hno, hsame⟩ := LockPc.step_writeLocked hfree spurious
      exact ⟨.inr hsame, fun hh => by rw [hno] at hh; cases hh⟩
    · rw [hok.1] at hlinked
      cases hlinked

omit [DecidableEq W] in
/-- So does the sweep, if it does not intrude. -/
theorem visit_step (h : s.Undisturbed) {cur high : Nat} {pc : LockPc}
    (hw : s.sweep = .visit cur high pc) {spurious : Bool} (hno : ¬ s.Intrudes (.sweep spurious)) :
    (s.table.ready cur = true ∨ (pc.step spurious (s.table.lockVal cur)).2 = s.table.lockVal cur) ∧
      ((pc.step spurious (s.table.lockVal cur)).1.holds = true → s.table.ready cur = true) := by
  have hok := h.sweep
  rw [hw] at hok
  obtain ⟨hlt, hhigh, hreads, hholds⟩ := hok
  cases hready : s.table.ready cur with
  | true => exact ⟨.inl rfl, fun _ => rfl⟩
  | false =>
    have hfree : pc.holds = false := by
      by_contra hh
      have := hholds (by simpa using hh)
      rw [hready] at this
      cases this
    obtain hword | ⟨hunlocked, hword, -⟩ := h.owner (Nat.lt_of_lt_of_le hlt hhigh) hready
    · rw [hword]
      obtain ⟨hnot, hsame⟩ := LockPc.step_writeLocked hfree spurious
      exact ⟨.inr hsame, fun hh => by rw [hnot] at hh; cases hh⟩
    · obtain ⟨-, ⟨hnot, hsame⟩ | ⟨rfl, heven, rfl⟩⟩ :=
        LockPc.step_reads hreads hfree spurious (s.table.lockVal cur)
      · exact ⟨.inr hsame, fun hh => by rw [hnot] at hh; cases hh⟩
      · exact (hno ⟨rfl, cur, high, hunlocked, hw, heven⟩).elim

/-- A new entry. -/
theorem alloc (h : s.Undisturbed) {w : W} (hw : s.threads w = .idle)
    (howned : (s.set s.table.insert w (.tryLoad s.table.nextId)).Owned) :
    (s.set s.table.insert w (.tryLoad s.table.nextId)).Undisturbed := by
  have hne : ∀ id, id < s.table.nextId → id ≠ s.table.nextId := fun _ => Nat.ne_of_lt
  refine ⟨howned, fun id hid => ?_, fun id hid => ?_, fun v => ?_, ?_⟩
  · by_cases he : id = s.table.nextId
    · exact .inr ⟨w, (congrArg PagePc.owns (Function.update_self ..)).trans (he ▸ rfl)⟩
    · obtain hr | ⟨v, hv⟩ := h.all id (Nat.lt_of_le_of_ne (Nat.le_of_lt_succ hid) he)
      · exact .inl ((Function.update_of_ne he ..).trans hr)
      · have hvw : v ≠ w := fun he => by rw [he, hw] at hv; cases hv
        exact .inr ⟨v, (congrArg PagePc.owns (Function.update_of_ne hvw ..)).trans hv⟩
  · simp only [FreshSys.set, PageTable.insert, Function.update_apply] at hid ⊢
    split at hid
    · simp at hid
    · exact Nat.lt_succ_of_lt (h.known id hid)
  · simp only [FreshSys.set, Function.update_apply]
    split
    · exact ⟨Function.update_self .., Function.update_self ..⟩
    · refine (h.threads v).frame (fun id hid => ?_) (fun id hid => ?_) fun id hid => ?_
      · have hold := hne id (h.fresh v id hid).1
        exact ⟨Function.update_of_ne hold .., Function.update_of_ne hold ..⟩
      · exact (Function.update_of_ne (hne id (h.known id (.inl hid))) ..).trans hid
      · exact (Function.update_of_ne (hne id (h.known id (.inr hid))) ..).trans hid
  · refine h.sweep.frame (Nat.le_succ _) fun id hid => ?_
    exact (Function.update_of_ne (hne id (h.known id (.inr hid))) ..).trans hid

omit [DecidableEq W] in
/-- The sweep moves on. -/
theorem visit (h : s.Undisturbed) {cur high : Nat} {pc : LockPc}
    (hw : s.sweep = .visit cur high pc) {spurious : Bool} (hno : ¬ s.Intrudes (.sweep spurious))
    (howned : s.Owned) :
    Undisturbed { s with
      table := s.table.setLock cur (pc.step spurious (s.table.lockVal cur)).2
      sweep := if (pc.step spurious (s.table.lockVal cur)).1 = .released then .walk (cur + 1) high
        else .visit cur high (pc.step spurious (s.table.lockVal cur)).1 } := by
  obtain ⟨hword, hready⟩ := h.visit_step hw hno
  have hok := h.sweep
  rw [hw] at hok
  refine ⟨⟨howned.fresh, howned.apart⟩, h.all, h.known, fun v => ?_, ?_⟩
  · exact (h.threads v).frame (fun id hid => ⟨h.setLock_same hword v id hid, rfl⟩) (fun _ h => h)
      fun _ h => h
  · dsimp only
    split
    · exact ⟨hok.1, hok.2.1⟩
    · next hnot =>
      have hfree : pc.holds = false := by
        by_contra hh
        exact hnot (LockPc.step_reads_holds hok.2.2.1 (by simpa using hh) spurious _)
      exact ⟨hok.1, hok.2.1, (LockPc.step_reads hok.2.2.1 hfree spurious _).1, hready⟩

/-- A step that does not intrude. -/
theorem step (h : s.Undisturbed) (hs : s.step a = some s') (hno : ¬ s.Intrudes a) :
    s'.Undisturbed := by
  have howned := h.toOwned.step hs
  -- another thread owns another entry
  have hother : ∀ {w id}, (s.threads w).owns = some id → ∀ v, v ≠ w → ∀ id',
      (s.threads v).owns = some id' → id' ≠ id := by
    rintro w id hw v hvw id' hv rfl
    exact hvw (h.apart v w id' hv hw)
  cases step_cases hs with
  | alloc hw => exact h.alloc hw howned
  | @access w id mode hw hlinked =>
    refine h.set howned rfl (fun _ h => h) (fun _ h => h) h.known (fun _ _ _ _ => ⟨rfl, rfl⟩)
      ⟨hlinked, fun hh => ?_⟩ fun id hid => ?_
    · cases mode <;> cases hh
    · rw [hw] at hid
      cases hid
  | @link w id hw =>
    have hown : (s.threads w).owns = some id := by rw [hw]; rfl
    have hok := h.threads w
    rw [hw] at hok
    refine h.set howned rfl (fun _ h => h) (fun id' hid => ?_) (fun id' hid => ?_)
      (fun v hvw id' hv => ⟨rfl, Function.update_of_ne (hother hown v hvw id' hv) ..⟩) hok
      fun id' hid => .inl ?_
    · simp only [PageTable.link, Function.update_apply]
      split
      · rfl
      · exact hid
    · simp only [PageTable.link, Function.update_apply] at hid
      split at hid
      · next he => exact he ▸ (h.fresh w id hown).1
      · exact h.known id' hid
    · rw [hw] at hid
      exact hid
  | @load w id _ hw hfree =>
    have hok := h.threads w
    rw [hw] at hok
    refine h.set howned rfl (fun _ h => h) (fun _ h => h) h.known (fun _ _ _ _ => ⟨rfl, rfl⟩)
      ⟨hok.1, hok⟩ fun id' hid => .inl ?_
    rw [hw] at hid
    exact hid
  | @take w id v hw hword =>
    have hown : (s.threads w).owns = some id := by rw [hw]; rfl
    refine h.set howned rfl (fun _ h => h) (fun _ h => h) h.known
      (fun u huw id' hu => ⟨Function.update_of_ne (hother hown u huw id' hu) .., rfl⟩)
      (Function.update_self ..) fun id' hid => .inl ?_
    rw [hw] at hid
    exact hid
  | @panic w id spurious hpanic =>
    exfalso
    have hok := h.threads w
    obtain ⟨hw, hlt⟩ | ⟨v, hw, hbad⟩ := hpanic
    · rw [hw] at hok
      rw [hok.1] at hlt
      exact Nat.not_lt_zero _ hlt
    · rw [hw] at hok
      obtain hne | hsp := hbad
      · exact hne (hok.2.1.trans hok.1.symm)
      · exact hno ⟨hsp, id, v, hw⟩
  | @publish w id _ hw =>
    have hown : (s.threads w).owns = some id := by rw [hw]; rfl
    refine h.set howned rfl (fun id' hid => ?_) (fun _ h => h) (fun id' hid => ?_)
      (fun u huw id' hu => ⟨Function.update_of_ne (hother hown u huw id' hu) .., rfl⟩) trivial
      fun id' hid => .inr ?_
    · simp only [PageTable.publish, Function.update_apply]
      split
      · rfl
      · exact hid
    · simp only [PageTable.publish, Function.update_apply] at hid
      split at hid
      · next he => exact he ▸ (h.fresh w id hown).1
      · exact h.known id' hid
    · rw [hown] at hid
      cases hid
      exact Function.update_self ..
  | @move w id pc spurious hw =>
    have hok := h.threads w
    rw [hw] at hok
    obtain ⟨hword, hready⟩ := h.access_step hw spurious
    refine h.set howned rfl (fun _ h => h) (fun _ h => h) h.known
      (fun v _ id' hv => ⟨h.setLock_same hword v id' hv, rfl⟩) ?_ fun id' hid => ?_
    · split
      · trivial
      · exact ⟨hok.1, hready⟩
    · rw [hw] at hid
      cases hid
  | startSweep => exact ⟨howned, h.all, h.known, h.threads, Nat.zero_le _, Nat.le_refl _⟩
  | @walk cur high _ hw =>
    have hok := h.sweep
    rw [hw] at hok
    refine ⟨howned, h.all, h.known, h.threads, ?_⟩
    dsimp only
    split
    · trivial
    · next hne => exact ⟨Nat.lt_of_le_of_ne hok.1 hne, hok.2, rfl, nofun⟩
  | visit hw => exact h.visit hw hno h.toOwned

omit [DecidableEq W] in
/-- An undisturbed state is safe. -/
theorem safe (h : s.Undisturbed) : s.Safe := by
  refine ⟨fun w hw => ?_, ?_⟩
  · have hok := h.threads w
    rw [hw] at hok
    exact hok
  · rintro id (⟨w, pc, hw, hh⟩ | ⟨high, pc, hw, hh⟩)
    · have hok := h.threads w
      rw [hw] at hok
      exact hok.2 hh
    · have hok := h.sweep
      rw [hw] at hok
      exact hok.2.2.2 hh

end Undisturbed

/-- After an intrusion a thread has panicked, or the sweep looks at a page that is not
initialised. -/
theorem Intrudes.not_safe (h : s.Owned) (hi : s.Intrudes a) :
    ∃ s', s.step a = some s' ∧ ¬ s'.Safe := by
  cases a with
  | step w spurious =>
    obtain ⟨rfl, id, v, hw⟩ := hi
    refine ⟨s.set s.table w .panicked, ?_, fun hsafe => hsafe.1 w (Function.update_self ..)⟩
    rw [step, hw, threadStep, if_neg (by simp)]
    rfl
  | sweep spurious =>
    obtain ⟨rfl, id, high, ⟨w, hw⟩, hsweep, heven⟩ := hi
    have hown : (s.threads w).owns = some id := by
      obtain hw | ⟨v, hw⟩ := hw <;> rw [hw] <;> rfl
    have hstep : (LockPc.readTest (s.table.lockVal id)).step false (s.table.lockVal id) =
        (.reading, s.table.lockVal id + 2) := by
      rw [LockPc.step, if_pos heven, if_pos ⟨rfl, rfl⟩]
    refine ⟨{ s with
      table := s.table.setLock id (s.table.lockVal id + 2), sweep := .visit id high .reading },
      by simp only [step, hsweep, hstep]; rfl, fun hsafe => ?_⟩
    have hready : s.table.ready id = true := hsafe.2 id (.inr ⟨high, .reading, rfl, rfl⟩)
    rw [(h.fresh w id hown).2] at hready
    cases hready
  | _ => exact hi.elim

theorem run_append (s : FreshSys W) (xs ys : List (FreshAction W)) :
    s.run (xs ++ ys) = (s.run xs).bind fun s' => s'.run ys := by
  rw [run, List.foldlM_append]
  rfl

theorem start_undisturbed (W : Type) [DecidableEq W] (n : Nat) : (start W n).Undisturbed := by
  refine ⟨⟨nofun, nofun⟩, fun id hid => .inl (decide_eq_true hid), fun id hid => ?_, fun _ => trivial,
    trivial⟩
  simpa [start] using hid

theorem run_owned {n : Nat} {actions : List (FreshAction W)} {s : FreshSys W}
    (h : (start W n).run actions = some s) : s.Owned := by
  induction actions using List.reverseRecOn generalizing s with
  | nil =>
    cases h
    exact (start_undisturbed W n).toOwned
  | append_singleton xs a ih =>
    rw [run_append, Option.bind_eq_some_iff] at h
    obtain ⟨s', hs', ha⟩ := h
    exact (ih hs').step (by simpa [run] using ha)

/-- The `unwrap` of `try_write` does not panic, and nobody looks at a page before it has
been handed over, exactly in the runs in which no compare-exchange of `try_write` fails
spuriously and the sweep takes no lock between its insertion and that compare-exchange. -/
theorem fresh_pages_safe_iff (n : Nat) (actions : List (FreshAction W)) :
    (∀ pre post, actions = pre ++ post → ∀ s, (start W n).run pre = some s → s.Safe) ↔
      ∀ pre a post, actions = pre ++ a :: post →
        ∀ s, (start W n).run pre = some s → ¬ s.Intrudes a := by
  constructor
  · intro hsafe pre a post heq s hs hi
    obtain ⟨s', hs', hno⟩ := hi.not_safe (run_owned hs)
    refine hno (hsafe (pre ++ [a]) post (by rw [heq, List.append_assoc]; rfl) s' ?_)
    rw [run_append, hs]
    simpa [run] using hs'
  · intro hno pre post heq s hs
    suffices hu : s.Undisturbed from hu.safe
    induction pre using List.reverseRecOn generalizing s post with
    | nil =>
      cases hs
      exact start_undisturbed W n
    | append_singleton xs a ih =>
      rw [run_append, Option.bind_eq_some_iff] at hs
      obtain ⟨s', hs', ha⟩ := hs
      have heq' : actions = xs ++ a :: post := by rw [heq, List.append_assoc]; rfl
      exact (ih (a :: post) heq' s' hs').step (by simpa [run] using ha) (hno xs a post heq' s' hs')

/-- A split of the only leaf, while a sweep is on its way: the new entry is below the next
id that the sweep sees, the sweep locks it first, and `unwrap` panics. -/
theorem sweep_locks_fresh_page :
    let actions : List (FreshAction (Fin 1)) :=
      .alloc 0 :: .startSweep :: List.replicate 7 (.sweep false) ++ [.step 0 false]
    ∃ s, (start (Fin 1) 1).run actions = some s ∧ s.threads 0 = .panicked ∧
      s.sweep = .visit 1 2 .reading ∧ s.table.ready 1 = false := by
  refine ⟨_, rfl, ?_, ?_, ?_⟩ <;> decide

end FreshSys

end BfTree
