import BfTree.Attempts
import BfTree.Wal.Recovery

/-!
# Clients of a tree with a log

`write_inner` applies a write under the lock of its leaf, and still under that lock
hands it to the log. Any number of clients run inserts and deletes; the attempts of each
may be restarted, reads, scans and evictions come in between, and the flush job runs
at any time.

A leaf that lost its page takes a write without logging it, and the entry is to carry a
disk offset that the leaves of a cache-only tree do not have: what the log owes to its
clients is kept exactly by the trees on disk.
-/

namespace BfTree

open Lib WalEntry

theorem WriteOp.writable {cfg : Config} (op : WriteOp) (hcfg : cfg.Bounds)
    (h : op.accepted cfg = true) : Tree.Writable cfg op.key op.value op.opType := by
  rw [accepted] at h
  split at h
  · next hop =>
    rw [hop]
    exact Tree.writable_insert h
  · next hop =>
    rw [Bool.and_eq_true, decide_eq_true_eq] at h
    rw [hop, h.2]
    exact Tree.writable_delete hcfg h.1
  · cases h

namespace Tree

variable {cfg : Config} {s : Shape} {C : Key → Option Value} {t : Tree}

/-! ## One attempt -/

/-- How `write_inner` goes on once the leaf is written: it returns, or it logs the write
with the disk offset of the leaf at `pid`. Without an offset `get_disk_offset` panics. -/
inductive WriteOutcome where
  | done
  | logs (pid : Nat) (offset : Option Nat)
deriving DecidableEq

/-- `write_inner` up to the log. -/
def writeLogged (env : AttemptEnv) (op : WriteOp) (aggressiveSplit : Bool) : M WriteOutcome := do
  let landing ← traverseToLeaf env op.key aggressiveSplit
  let t ← Prog.get
  withLeaf landing.pid landing.parent
    (LeafEntry.write t.config t.sizeClasses env op.key op.value op.opType)
  let t' ← Prog.get
  -- the branch for a leaf without page returns past the log
  if t.pages[landing.pid]? = some .null then pure .done
  else pure (.logs landing.pid (t'.pages[landing.pid]?.bind PageLocation.offset))

/-- Apart from its answer this is the attempt of the tree without log. -/
theorem writeLogged_writeInner (env : AttemptEnv) (op : WriteOp) (aggressive : Bool) (t : Tree) :
    writeInner env op.key op.value op.opType aggressive t =
      (writeLogged env op aggressive t).map fun r => (r.1.map fun _ => (), r.2) := by
  rw [writeInner, writeLogged]
  rcases hland : traverseToLeaf env op.key aggressive t with _ | ⟨_ | landing, t₁⟩
  · rw [bind_of_none hland, bind_of_none hland]
    rfl
  · rw [bind_of_error hland, bind_of_error hland]
    rfl
  · rw [bind_of_ok hland, bind_of_ok hland, bind_of_ok (get_apply t₁),
      bind_of_ok (get_apply t₁)]
    rcases hleaf : withLeaf landing.pid landing.parent
      (LeafEntry.write t₁.config t₁.sizeClasses env op.key op.value op.opType) t₁
      with _ | ⟨_ | done, t₂⟩
    · rw [bind_of_none hleaf]
      rfl
    · rw [bind_of_error hleaf]
      rfl
    · rw [bind_of_ok hleaf, bind_of_ok (get_apply t₂)]
      split <;> rfl

/-- Keys of other leaves stay where they are, and all keys if there is no new leaf. -/
theorem Reshaped.leafOf_eq {C' : Key → Option Value} {t' : Tree} {key k : Key}
    (h : t.Ok cfg s C) (h' : Reshaped cfg C' s t.pages.length key t')
    (hne : t'.pages.length = t.pages.length ∨ t.leafOf k ≠ t.leafOf key) :
    t'.leafOf k = t.leafOf k := by
  obtain ⟨s', hok, hle, hrange⟩ := h'
  obtain ⟨pid, hpid, hlt, hin⟩ := h.leafOf k
  obtain ⟨pidKey, hpidKey, hltKey, hinKey⟩ := h.leafOf key
  obtain ⟨pid', hpid', hlt', hin'⟩ := hok.leafOf k
  have hsame : s'.range (.id pid) = s.range (.id pid) := by
    refine hrange pid hlt (hne.imp_right fun hne hkey => hne ?_)
    rw [hpid, hpidKey, h.shaped.leaf_unique hlt hltKey hkey hinKey]
  rw [hpid, hpid', hok.shaped.leaf_unique hlt' (hlt.trans_le hle) hin' (by rw [hsame]; exact hin)]

/-- A descent finds the leaf of its key. -/
theorem Lands.leafOf_eq {key : Key} {landing : Landing} (h : t.Ok cfg s C)
    (hl : Lands s t key landing) : t.leafOf key = some landing.pid := by
  obtain ⟨pid, hpid, hlt, hin⟩ := h.leafOf key
  rw [hpid, h.shaped.leaf_unique hlt hl.alive hin hl.inRange]

/-- On disk every leaf has an offset. -/
theorem Ok.offset_isSome (h : t.Ok cfg s C) (hdisk : cfg.cacheOnly = false) {pid : Nat}
    {loc : PageLocation} (hloc : t.pages[pid]? = some loc) : ∃ o, loc.offset = some o := by
  obtain ⟨c, hleaf, -⟩ := h.stored.leaf pid loc hloc
  rw [leafOk_disk hdisk] at hleaf
  obtain ⟨offset, base, -, -, hcaches, -⟩ := hleaf
  exact ⟨offset, hcaches.offset_eq⟩

/-- In cache-only mode none has one. -/
theorem Ok.offset_eq_none (h : t.Ok cfg s C) (hcache : cfg.cacheOnly = true) (pid : Nat) :
    t.pages[pid]?.bind PageLocation.offset = none := by
  cases hloc : t.pages[pid]? with
  | none => rfl
  | some loc =>
    obtain ⟨c, hleaf, -⟩ := h.stored.leaf pid loc hloc
    rw [leafOk_cacheOnly hcache] at hleaf
    exact hleaf.offset_eq

theorem withLeaf_write_disk (h : t.Ok cfg s C) (hdisk : cfg.cacheOnly = false) {pid : Nat}
    {parent : Option Nat} (hpid : pid < t.pages.length) (hparent : s.parent (.id pid) = parent)
    (sizeClasses : List Nat) (env : AttemptEnv) {key : Key} {value : Value} {op : OpType}
    (hs : Storable cfg (s.range (.id pid)).1 (s.range (.id pid)).2 key value op) :
    wp (withLeaf pid parent (LeafEntry.write cfg sizeClasses env key value op))
      (fun _ t' => ∃ C', t'.Ok cfg s C' ∧ t'.pages.length = t.pages.length)
      (fun _ t' => ∃ C', Reshaped cfg C' s t.pages.length key t') t := by
  obtain ⟨loc, par, c, hloc, hpar, hleaf, hc⟩ := h.lock hpid hparent
  refine wp_withLeaf hloc hpar (wp_mono
    (LeafEntry.write_settles (t := t.lockLeaf pid loc par) sizeClasses env hleaf (h.fresh hloc par)
      hs hdisk) (fun _ l hl l' hl' => ?_) fun _ l hl l' hl' => ?_)
  · have hset := hl l' hl'
    refine ⟨_, h.settle hloc hpar hparent hset, ?_⟩
    rw [unlockLeaf, hset.sibling]
    simp
  · exact ⟨_, h.commit hloc hpar hparent (hl l' hl') hs.inRange⟩

theorem writeLogged_disk (h : t.Ok cfg s C) (hdisk : cfg.cacheOnly = false) (env : AttemptEnv)
    {op : WriteOp} (hw : Writable cfg op.key op.value op.opType) (aggressive : Bool) :
    wp (writeLogged env op aggressive)
      (fun w t' => (∃ pid o, w = .logs pid (some o) ∧ t.leafOf op.key = some pid) ∧
        ∃ C', t'.Ok cfg s C' ∧ t'.pages.length = t.pages.length)
      (fun _ t' => ∃ C', Reshaped cfg C' s t.pages.length op.key t') t := by
  simp only [writeLogged, wp_bind, wp_get]
  refine wp_mono (traverseToLeaf_reshapes h env op.key aggressive) ?_ fun _ _ h₁ => ⟨C, h₁⟩
  rintro landing t₁ ⟨h₁, hland, hlen⟩
  have hleafOf : t.leafOf op.key = some landing.pid := by
    rw [← hland.leafOf_eq h₁, (hlen ▸ h₁.reshaped op.key : Reshaped cfg C s _ op.key t₁).leafOf_eq h
      (.inl hlen)]
  have hnull : t₁.pages[landing.pid]? ≠ some .null := by
    intro hloc
    obtain ⟨o, ho⟩ := h₁.offset_isSome hdisk hloc
    cases ho
  rw [h₁.config]
  refine wp_mono (withLeaf_write_disk h₁ hdisk hland.alive hland.parent _ env
    ⟨hland.inRange, hw.nonempty, hw.dirty, hw.small⟩) ?_ fun _ _ h₂ => hlen ▸ h₂
  rintro - t₂ ⟨C', h₂, hlen₂⟩
  rw [if_neg hnull, wp_pure]
  obtain ⟨loc, hloc₂⟩ : ∃ loc, t₂.pages[landing.pid]? = some loc :=
    ⟨_, List.getElem?_eq_getElem (hlen₂ ▸ hland.alive)⟩
  obtain ⟨o, ho⟩ := h₂.offset_isSome hdisk hloc₂
  exact ⟨⟨landing.pid, o, by rw [hloc₂, Option.bind_some, ho], hleafOf⟩, C', h₂, hlen₂.trans hlen⟩

theorem writeLogged_cacheOnly (h : t.Inv cfg C) (hcache : cfg.cacheOnly = true) (env : AttemptEnv)
    {op : WriteOp} (hw : Writable cfg op.key op.value op.opType) (aggressive : Bool) :
    wp (writeLogged env op aggressive)
      (fun w t' => (w = .done ∨ ∃ pid, w = .logs pid none) ∧ ∃ C', t'.Inv cfg C')
      (fun _ t' => ∃ C', t'.Inv cfg C') t := by
  obtain ⟨s, h⟩ := h
  simp only [writeLogged, wp_bind, wp_get]
  refine wp_mono (traverseToLeaf_spec h env op.key aggressive) ?_ fun _ _ h₁ => ⟨C, h₁⟩
  rintro landing t₁ ⟨h₁, hland⟩
  rw [h₁.config]
  refine wp_mono (withLeaf_write h₁ hland.alive hland.parent _ env
    ⟨hland.inRange, hw.nonempty, hw.dirty, hw.small⟩) ?_ fun _ _ h₂ => h₂.imp fun _ h₂ => h₂.2.inv
  intro _ t₂ h₂
  obtain ⟨s₂, hok⟩ := h₂.inv
  refine wp_ite (fun _ => ?_) (fun _ => ?_)
  · exact (wp_pure _).2 ⟨.inl rfl, _, s₂, hok⟩
  · rw [wp_pure, hok.offset_eq_none hcache]
    exact ⟨.inr ⟨landing.pid, rfl⟩, _, s₂, hok⟩

/-- The key that an attempt descends with. An eviction takes it from the page. -/
def Attempt.target (t : Tree) : Attempt → Option Key
  | .insert _ key _ _ | .delete _ key _ | .read _ key _ _ | .scan _ key _ => some key
  | .evict e =>
    match evictionKey e t with
    | some (.ok key, _) => some key
    | _ => none

/-- An attempt changes the ranges of no leaf but the one that it descends to. -/
theorem Attempt.exec_reshapes (h : t.Ok cfg s C) (a : Attempt) (ha : a.accepted cfg = true) :
    Ensures a.exec (fun t' => t' = t ∨
      ∃ key C', a.target t = some key ∧ Reshaped cfg C' s t.pages.length key t') t := by
  cases a with
  | insert env key value aggressive =>
    exact wp_mono (writeInner_reshapes h env (writable_insert ha) aggressive)
      (fun _ _ h' => .inr ⟨key, _, rfl, h'⟩) fun _ _ ⟨C', _, h'⟩ => .inr ⟨key, C', rfl, h'⟩
  | delete env key aggressive =>
    exact wp_mono (writeInner_reshapes h env (writable_delete h.bounds ha) aggressive)
      (fun _ _ h' => .inr ⟨key, _, rfl, h'⟩) fun _ _ ⟨C', _, h'⟩ => .inr ⟨key, C', rfl, h'⟩
  | read env key out aggressive =>
    simp only [Ensures, exec, wp_bind, wp_pure]
    exact wp_mono (readInner_reshapes h env (validKey_iff.1 ha).2.2 out aggressive)
      (fun _ _ h' => .inr ⟨key, _, rfl, h'.2⟩) fun _ _ h' => .inr ⟨key, _, rfl, h'⟩
  | scan env key aggressive =>
    simp only [Ensures, exec, wp_bind, wp_pure]
    exact wp_mono (moveCursorToLeaf_reshapes h env key aggressive)
      (fun _ _ h' => .inr ⟨key, _, rfl, h'.1⟩) fun _ _ h' => .inr ⟨key, _, rfl, h'.1⟩
  | evict e =>
    have hkey : wp (evictionKey e)
        (fun key t' => t' = t ∧ target t (.evict e) = some key) (fun _ t' => t' = t) t :=
      ⟨fun key t' hm => ⟨(evictionKey_same e).1 key t' hm, by rw [target, hm]⟩,
        (evictionKey_same e).2⟩
    refine .bind (wp_mono hkey ?_ fun _ _ h' => .inl h')
    rintro key _ ⟨rfl, htarget⟩
    refine .bind (wp_mono (traverseToLeaf_reshapes h e.env key true) ?_
      fun _ _ h' => .inr ⟨key, _, htarget, h'⟩)
    rintro landing t₁ ⟨h₁, hland, hlen⟩
    refine wp_ite (fun _ => ?_)
      fun _ => (wp_fail _).2 (.inr ⟨key, _, htarget, hlen ▸ h₁.reshaped key⟩)
    simp only [wp_bind, wp_get]
    rw [h₁.config]
    refine (withLeaf_evict h₁ hland.alive hland.parent hland.inRange e.env.leaf).mono ?_
    rintro t₂ ⟨C', -, h₂⟩
    exact .inr ⟨key, C', htarget, hlen ▸ h₂⟩

theorem Attempt.exec_result (h : t.Ok cfg s C) (a : Attempt) (ha : a.accepted cfg = true)
    {r : Except TreeError Unit} {t' : Tree} (hrun : a.exec t = some (r, t')) :
    t' = t ∨ ∃ key C', a.target t = some key ∧ Reshaped cfg C' s t.pages.length key t' := by
  cases r with
  | ok u => exact (a.exec_reshapes h ha).1 u t' hrun
  | error e => exact (a.exec_reshapes h ha).2 e t' hrun

end Tree

/-! ## The system -/

/-- Where a client stands in `insert` or `delete`. -/
inductive Client where
  | idle
  | trying (op : WriteOp)
  /-- In `append_and_wait`, with the lock of the leaf. -/
  | logging (pid : Nat) (op : WriteOp)
  | panicked
deriving DecidableEq

/-- `effects` lists the writes in the order in which the leaves took them, and `returned`
the operations that have returned, with the number of their entry. No step reads them. -/
structure Server where
  tree : Tree
  wal : WalSys
  clients : Nat → Client
  locked : List Nat
  effects : List WriteOp
  returned : List (WriteOp × Option Nat)

inductive ServerAction where
  | start (i : Nat) (op : WriteOp)
  | write (i : Nat) (env : AttemptEnv) (aggressiveSplit : Bool)
  | other (a : Tree.Attempt)
  | append (i : Nat)
  | wake (i : Nat)
  | flush

/-- The log has taken the entry of a caller, which now waits. -/
def WalSys.appended (w : WalSys) (i : Nat) (e : WalEntry) (log : WriteAheadLogInner) : WalSys :=
  setCaller { w with log := log, entries := w.entries ++ [e] } i (.waiting w.entries.length e)

namespace WalSys

variable {w w' : WalSys} {i : Nat} {returned : Option (Nat × WalEntry)}

/-- A caller tries again, waits for its entry, or returns at once. -/
theorem Inv.step_append (h : w.Inv) (hs : step (.append i) w = some (returned, w')) :
    ∃ e log, w.callers i = .calling e ∧
      (returned = none ∧ w' = { w with log := log } ∨
      returned = none ∧ w' = w.appended i e log ∨
      returned = some (w.entries.length, e) ∧ w' = (w.appended i e log).setCaller i .idle) := by
  simp only [step] at hs
  split at hs
  · next e he =>
    obtain ⟨⟨lsn, log⟩, happ, hs⟩ := Option.bind_eq_some_iff.mp hs
    refine ⟨e, log, he, ?_⟩
    cases lsn with
    | none =>
      cases hs
      exact .inl ⟨rfl, rfl⟩
    | some lsn =>
      obtain ⟨-, rfl⟩ := h.append happ
      have hs := Option.some.inj hs
      rw [WalSys.await] at hs
      split at hs
      · obtain ⟨rfl, rfl⟩ := Prod.mk.inj hs
        exact .inr (.inl ⟨rfl, rfl⟩)
      · obtain ⟨rfl, rfl⟩ := Prod.mk.inj hs
        refine .inr (.inr ⟨rfl, ?_⟩)
        rw [appended, WalSys.setCaller, WalSys.setCaller, WalSys.setCaller,
          Function.update_idem]
  · cases hs

theorem step_wake (hs : step (.wake i) w = some (returned, w')) :
    ∃ lsn e, w.callers i = .waiting lsn e ∧
      (returned = none ∧ w' = w ∨ returned = some (lsn, e) ∧ w' = w.setCaller i .idle) := by
  simp only [step] at hs
  split at hs
  · next lsn e he =>
    refine ⟨lsn, e, he, ?_⟩
    have hs := Option.some.inj hs
    rw [await] at hs
    split at hs
    · obtain ⟨rfl, rfl⟩ := Prod.mk.inj hs
      refine .inl ⟨rfl, ?_⟩
      rw [setCaller, ← he, Function.update_eq_self]
    · obtain ⟨rfl, rfl⟩ := Prod.mk.inj hs
      exact .inr ⟨rfl, rfl⟩
  · cases hs

end WalSys

namespace Server

open Tree

def setClient (s : Server) (i : Nat) (c : Client) : Server :=
  { s with clients := Function.update s.clients i c }

@[simp] theorem setClient_self (s : Server) (i : Nat) (c : Client) :
    (s.setClient i c).clients i = c := Function.update_self ..

theorem setClient_of_ne (s : Server) {i j : Nat} (c : Client) (h : j ≠ i) :
    (s.setClient i c).clients j = s.clients j := Function.update_of_ne h ..

/-- The leaf of the key is locked by a client that is still logging. -/
def blocked (s : Server) (key : Key) : Bool :=
  s.locked.any fun pid => s.tree.leafOf key = some pid

/-- An attempt waits at a locked leaf. It may have been stopped above the leaves before. -/
def mayRun {α : Type} (s : Server) (key : Key) (r : Except TreeError α) (tree : Tree) : Bool :=
  !s.blocked key || (!r.toBool && tree.pages = s.tree.pages)

/-- What follows an attempt that has written its leaf. -/
def wrote (s : Server) (i : Nat) (op : WriteOp) : WriteOutcome → Server
  | .done =>
    -- a delete of nothing returns as well
    if op.opType = .delete then s.setClient i .idle
    else { s.setClient i .idle with
      effects := s.effects ++ [op], returned := s.returned ++ [(op, none)] }
  | .logs _ none => { s.setClient i .panicked with effects := s.effects ++ [op] }
  | .logs pid (some offset) =>
    { s.setClient i (.logging pid op) with
      locked := pid :: s.locked
      effects := s.effects ++ [op]
      wal := s.wal.setCaller i (.calling ⟨op, UInt64.ofNat offset⟩) }

/-- `append_and_wait` goes on; once it returns a number, the leaf is unlocked and the
operation returns. -/
def logged (s : Server) (i : Nat) (r : Option (Nat × WalEntry) × WalSys) : Server :=
  match r.1, s.clients i with
  | some (lsn, _), .logging pid op =>
    { s.setClient i .idle with
      wal := r.2, locked := s.locked.erase pid, returned := s.returned ++ [(op, some lsn)] }
  | _, _ => { s with wal := r.2 }

def step : ServerAction → Server → Option Server
  | .start i op, s =>
    match s.clients i with
    | .idle => if op.accepted s.tree.config then some (s.setClient i (.trying op)) else none
    | _ => none
  | .write i env aggressive, s =>
    match s.clients i with
    | .trying op => do
        let (r, tree) ← writeLogged env op aggressive s.tree
        if s.mayRun op.key r tree then
          match r with
          -- the operation starts over
          | .error _ => some { s with tree := tree }
          | .ok w => some (wrote { s with tree := tree } i op w)
        else none
    | _ => none
  | .other a, s => do
      let (r, tree) ← a.exec s.tree
      if a.key = none ∧ a.accepted s.tree.config ∧
          (a.target s.tree).all fun key => s.mayRun key r tree then
        some { s with tree := tree }
      else none
  | .append i, s => (WalSys.step (.append i) s.wal).map (s.logged i)
  | .wake i, s => (WalSys.step (.wake i) s.wal).map (s.logged i)
  | .flush, s => (WalSys.step .flush s.wal).map fun r => { s with wal := r.2 }

/-- The states that a new tree with a new log gets to. -/
inductive Reachable (cfg : Config) : Server → Prop
  | new {ver : Nat} {t : Tree} {buffer : List UInt8} (h : withConfig cfg ver = some (.ok t))
      (hb : buffer.length < 2 ^ 64) :
      Reachable cfg ⟨t, .new buffer, fun _ => .idle, [], [], []⟩
  | step {s s' : Server} {a : ServerAction} (h : Reachable cfg s) (hs : step a s = some s') :
      Reachable cfg s'

/-! ## What the log owes to its clients -/

/-- The writes of one key. -/
def ofKey (key : Key) (ops : List WriteOp) : List WriteOp := ops.filter fun op => op.key = key

theorem ofKey_append_of_eq {key : Key} {op : WriteOp} (ops : List WriteOp) (h : op.key = key) :
    ofKey key (ops ++ [op]) = ofKey key ops ++ [op] := by
  simp [ofKey, h]

theorem ofKey_append_of_ne {key : Key} {op : WriteOp} (ops : List WriteOp) (h : op.key ≠ key) :
    ofKey key (ops ++ [op]) = ofKey key ops := by
  simp [ofKey, h]

theorem key_of_mem_ofKey {key : Key} {op : WriteOp} {ops : List WriteOp} (h : op ∈ ofKey key ops) :
    op.key = key := by
  simpa using (List.mem_filter.1 h).2

/-- Every operation that has returned has an entry of its own; the entries of a key are
its writes in the order of their effect, apart from a last one that is about to be
appended; and no client has panicked over the log. -/
structure Logged (s : Server) : Prop where
  returned : ∀ r ∈ s.returned, ∃ lsn e, r.2 = some lsn ∧ s.wal.entries[lsn]? = some e ∧ e.op = r.1
  once : (s.returned.map (·.2)).Nodup
  order : ∀ key, ∃ pending, ofKey key s.effects =
      ofKey key (s.wal.entries.map (·.op)) ++ pending ∧ pending.length ≤ 1 ∧
      ∀ op ∈ pending, ∃ i pid, s.clients i = .logging pid op
  noPanic : ∀ i, s.clients i ≠ .panicked

/-! ## On disk -/

/-- Between steps: who logs holds the lock of its leaf alone and is a caller of the log. -/
structure DiskInv (cfg : Config) (s : Server) : Prop where
  tree : ∃ sh C, s.tree.Ok cfg sh C
  accepted : ∀ i op, s.clients i = .trying op → op.accepted cfg = true
  quiet : ∀ i, (∀ pid op, s.clients i ≠ .logging pid op) → s.wal.callers i = .idle
  holds : ∀ i pid op, s.clients i = .logging pid op →
    pid ∈ s.locked ∧ s.tree.leafOf op.key = some pid
  calls : ∀ i pid op, s.clients i = .logging pid op → ∃ e, e.op = op ∧
    (s.wal.callers i = .calling e ∨ ∃ lsn, s.wal.callers i = .waiting lsn e)
  exclusive : ∀ i j pid op op', s.clients i = .logging pid op → s.clients j = .logging pid op' → i = j
  entry : ∀ i lsn e, s.wal.callers i = .waiting lsn e → s.wal.entries[lsn]? = some e ∧
    some lsn ∉ s.returned.map (·.2)
  numbers : ∀ i j lsn e e', s.wal.callers i = .waiting lsn e →
    s.wal.callers j = .waiting lsn e' → i = j
  returned : ∀ r ∈ s.returned, ∃ lsn e, r.2 = some lsn ∧ s.wal.entries[lsn]? = some e ∧ e.op = r.1
  once : (s.returned.map (·.2)).Nodup
  order : ∀ key, ∃ pending, ofKey key s.effects =
      ofKey key (s.wal.entries.map (·.op)) ++ pending ∧ pending.length ≤ 1 ∧
      (∀ op ∈ pending, ∃ i e, s.wal.callers i = .calling e ∧ e.op = op) ∧
      ∀ i e, s.wal.callers i = .calling e → e.op.key = key → e.op ∈ pending
  noPanic : ∀ i, s.clients i ≠ .panicked

namespace DiskInv

variable {cfg : Config} {s : Server}

/-- A caller of the log is a client that logs. -/
theorem client (h : DiskInv cfg s) {i : Nat} (hi : s.wal.callers i ≠ .idle) :
    ∃ pid op, s.clients i = .logging pid op := by
  by_contra hno
  exact hi (h.quiet i fun pid op heq => hno ⟨pid, op, heq⟩)

theorem client_calling (h : DiskInv cfg s) {i : Nat} {e : WalEntry}
    (hi : s.wal.callers i = .calling e) : ∃ pid, s.clients i = .logging pid e.op := by
  obtain ⟨pid, op, hc⟩ := h.client (by rw [hi]; nofun)
  obtain ⟨e', rfl, hcall | ⟨lsn, hwait⟩⟩ := h.calls i pid op hc
  · rw [hi] at hcall
    cases hcall
    exact ⟨pid, hc⟩
  · rw [hi] at hwait
    cases hwait

theorem client_waiting (h : DiskInv cfg s) {i lsn : Nat} {e : WalEntry}
    (hi : s.wal.callers i = .waiting lsn e) : ∃ pid, s.clients i = .logging pid e.op := by
  obtain ⟨pid, op, hc⟩ := h.client (by rw [hi]; nofun)
  obtain ⟨e', rfl, hcall | ⟨lsn', hwait⟩⟩ := h.calls i pid op hc
  · rw [hi] at hcall
    cases hcall
  · rw [hi] at hwait
    cases hwait
    exact ⟨pid, hc⟩

/-- Two clients do not log the same key: they would hold the lock of one leaf. -/
theorem calling_unique (h : DiskInv cfg s) {i j : Nat} {e e' : WalEntry}
    (hi : s.wal.callers i = .calling e) (hj : s.wal.callers j = .calling e')
    (hkey : e.op.key = e'.op.key) : i = j := by
  obtain ⟨pid, hci⟩ := h.client_calling hi
  obtain ⟨pid', hcj⟩ := h.client_calling hj
  have hpid := (h.holds i pid _ hci).2
  have hpid' := (h.holds j pid' _ hcj).2
  rw [hkey, hpid'] at hpid
  cases hpid
  exact h.exclusive i j _ _ _ hci hcj

theorem logged (h : DiskInv cfg s) : s.Logged where
  returned := h.returned
  once := h.once
  order key := by
    obtain ⟨pending, heq, hlen, hcalls, -⟩ := h.order key
    refine ⟨pending, heq, hlen, fun op hop => ?_⟩
    obtain ⟨i, e, hi, rfl⟩ := hcalls op hop
    obtain ⟨pid, hc⟩ := h.client_calling hi
    exact ⟨i, pid, hc⟩
  noPanic := h.noPanic

theorem new {t : Tree} {buffer : List UInt8} {sh : Shape} {C : Key → Option Value}
    (h : t.Ok cfg sh C) : DiskInv cfg ⟨t, .new buffer, fun _ => .idle, [], [], []⟩ where
  tree := ⟨sh, C, h⟩
  accepted := nofun
  quiet := fun _ _ => rfl
  holds := nofun
  calls := nofun
  exclusive := nofun
  entry := nofun
  numbers := nofun
  returned := nofun
  once := List.nodup_nil
  order := fun _ => ⟨[], rfl, Nat.zero_le 1, nofun, nofun⟩
  noPanic := nofun

/-- A client that does not log does something else that is not logging. -/
theorem setClient (h : DiskInv cfg s) {i : Nat} {c : Client}
    (hi : ∀ pid op, s.clients i ≠ .logging pid op) (hc : ∀ pid op, c ≠ .logging pid op)
    (ha : ∀ op, c = .trying op → op.accepted cfg = true) (hp : c ≠ .panicked) :
    DiskInv cfg (s.setClient i c) := by
  have hlog : ∀ j pid op, (s.setClient i c).clients j = .logging pid op →
      s.clients j = .logging pid op := by
    intro j pid op hj
    by_cases hji : j = i
    · subst hji
      rw [setClient_self] at hj
      exact absurd hj (hc pid op)
    · rwa [setClient_of_ne s c hji] at hj
  refine { h with
    accepted := fun j op hj => ?_
    quiet := fun j hj => ?_
    holds := fun j pid op hj => h.holds j pid op (hlog j pid op hj)
    calls := fun j pid op hj => h.calls j pid op (hlog j pid op hj)
    exclusive := fun j k pid op op' hj hk =>
      h.exclusive j k pid op op' (hlog j pid op hj) (hlog k pid op' hk)
    noPanic := fun j hj => ?_ }
  · by_cases hji : j = i
    · subst hji
      rw [setClient_self] at hj
      exact ha op hj
    · rw [setClient_of_ne s c hji] at hj
      exact h.accepted j op hj
  · by_cases hji : j = i
    · exact h.quiet j (hji ▸ hi)
    · refine h.quiet j fun pid op heq => hj pid op ?_
      rwa [setClient_of_ne s c hji]
  · by_cases hji : j = i
    · subst hji
      rw [setClient_self] at hj
      exact hp hj
    · rw [setClient_of_ne s c hji] at hj
      exact h.noPanic j hj

/-- An attempt leaves the keys of locked leaves where they are. -/
theorem setTree (h : DiskInv cfg s) {tree : Tree} {sh : Shape} {C : Key → Option Value}
    (hok : tree.Ok cfg sh C)
    (hkeep : ∀ pid ∈ s.locked, ∀ k, s.tree.leafOf k = some pid → tree.leafOf k = some pid) :
    DiskInv cfg { s with tree := tree } :=
  { h with
    tree := ⟨sh, C, hok⟩
    holds := fun i pid op hi => by
      obtain ⟨hmem, hleaf⟩ := h.holds i pid op hi
      exact ⟨hmem, hkeep pid hmem op.key hleaf⟩ }

/-- The write of a client goes to the log. Its leaf was free. -/
theorem wrote (h : DiskInv cfg s) {i pid : Nat} {op : WriteOp} (offset : Nat)
    (hi : s.clients i = .trying op) (hleaf : s.tree.leafOf op.key = some pid)
    (hfree : pid ∉ s.locked) : DiskInv cfg (s.wrote i op (.logs pid (some offset))) := by
  have hidle : s.wal.callers i = .idle := h.quiet i fun _ _ heq => by
    rw [hi] at heq
    cases heq
  have hclient : ∀ {j pid' op'}, (s.setClient i (.logging pid op)).clients j = .logging pid' op' →
      (j = i ∧ pid' = pid ∧ op' = op) ∨ (j ≠ i ∧ s.clients j = .logging pid' op') := by
    intro j pid' op' hj
    by_cases hji : j = i
    · subst hji
      rw [setClient_self] at hj
      cases hj
      exact .inl ⟨rfl, rfl, rfl⟩
    · rw [setClient_of_ne s _ hji] at hj
      exact .inr ⟨hji, hj⟩
  have hcaller : ∀ {j c}, (s.wal.setCaller i (.calling ⟨op, UInt64.ofNat offset⟩)).callers j = c →
      (j = i ∧ c = .calling ⟨op, UInt64.ofNat offset⟩) ∨ (j ≠ i ∧ s.wal.callers j = c) := by
    intro j c hj
    by_cases hji : j = i
    · subst hji
      rw [WalSys.setCaller_self] at hj
      exact .inl ⟨rfl, hj.symm⟩
    · rw [WalSys.setCaller_of_ne _ _ hji] at hj
      exact .inr ⟨hji, hj⟩
  have hself := WalSys.setCaller_self s.wal i (.calling ⟨op, UInt64.ofNat offset⟩)
  have hother : ∀ {j}, j ≠ i → (s.wal.setCaller i (.calling ⟨op, UInt64.ofNat offset⟩)).callers j =
      s.wal.callers j := fun hji => WalSys.setCaller_of_ne _ _ hji
  -- nobody else is about to append this key
  have hnone : ∀ {j e}, s.wal.callers j = .calling e → e.op.key ≠ op.key := by
    intro j e hj hkey
    obtain ⟨pid', hc⟩ := h.client_calling hj
    obtain ⟨hmem, hleaf'⟩ := h.holds j pid' _ hc
    rw [hkey, hleaf] at hleaf'
    exact hfree (Option.some.inj hleaf' ▸ hmem)
  refine {
    tree := h.tree
    accepted := fun j op' hj => ?_
    quiet := fun j hj => ?_
    holds := fun j pid' op' hj => ?_
    calls := fun j pid' op' hj => ?_
    exclusive := fun j k pid' op₁ op₂ hj hk => ?_
    entry := fun j lsn e hj => ?_
    numbers := fun j k lsn e e' hj hk => ?_
    returned := h.returned
    once := h.once
    order := fun key => ?_
    noPanic := fun j hj => ?_ }
  · by_cases hji : j = i
    · subst hji
      cases (setClient_self s j _).symm.trans hj
    · exact h.accepted j op' ((setClient_of_ne s _ hji).symm.trans hj)
  · have hji : j ≠ i := by
      rintro rfl
      exact hj pid op (setClient_self s j _)
    refine (hother hji).trans (h.quiet j fun pid' op' heq => hj pid' op' ?_)
    exact (setClient_of_ne s _ hji).trans heq
  · rcases hclient hj with ⟨-, rfl, rfl⟩ | ⟨-, hj⟩
    · exact ⟨List.mem_cons_self, hleaf⟩
    · exact (h.holds j pid' op' hj).imp_left (List.mem_cons_of_mem _)
  · rcases hclient hj with ⟨rfl, rfl, rfl⟩ | ⟨hji, hj⟩
    · exact ⟨_, rfl, .inl hself⟩
    · obtain ⟨e, heq, hc⟩ := h.calls j pid' op' hj
      exact ⟨e, heq, by rw [← hother hji] at hc; exact hc⟩
  · rcases hclient hj with ⟨hji, hpid, -⟩ | ⟨-, hj'⟩ <;>
      rcases hclient hk with ⟨hki, hpid', -⟩ | ⟨-, hk'⟩
    · rw [hji, hki]
    · exact absurd (hpid ▸ (h.holds k _ _ hk').1) hfree
    · exact absurd (hpid' ▸ (h.holds j _ _ hj').1) hfree
    · exact h.exclusive j k _ _ _ hj' hk'
  · rcases hcaller hj with ⟨-, heq⟩ | ⟨-, hj⟩
    · cases heq
    · exact h.entry j lsn e hj
  · rcases hcaller hj with ⟨-, heq⟩ | ⟨-, hj⟩
    · cases heq
    · rcases hcaller hk with ⟨-, heq⟩ | ⟨-, hk⟩
      · cases heq
      · exact h.numbers j k lsn e e' hj hk
  · obtain ⟨pending, heq, hlen, hcalls, hall⟩ := h.order key
    by_cases hkey : op.key = key
    · have hnil : pending = [] := by
        refine List.eq_nil_iff_forall_not_mem.2 fun op' hop' => ?_
        obtain ⟨j, e, hj, rfl⟩ := hcalls op' hop'
        have hmem : e.op ∈ ofKey key s.effects := heq ▸ List.mem_append_right _ hop'
        exact hnone hj ((key_of_mem_ofKey hmem).trans hkey.symm)
      rw [hnil, List.append_nil] at heq
      refine ⟨[op], ?_, Nat.le_refl 1, fun op' hop' => ?_, fun j e hj hje => ?_⟩
      · exact (ofKey_append_of_eq s.effects hkey).trans (by rw [heq]; rfl)
      · obtain rfl := List.mem_singleton.1 hop'
        exact ⟨i, _, hself, rfl⟩
      · rcases hcaller hj with ⟨-, hc⟩ | ⟨-, hj⟩
        · cases hc
          exact List.mem_singleton.2 rfl
        · exact absurd (hje.trans hkey.symm) (hnone hj)
    · refine ⟨pending, (ofKey_append_of_ne s.effects hkey).trans heq, hlen, fun op' hop' => ?_,
        fun j e hj hje => ?_⟩
      · obtain ⟨j, e, hj, rfl⟩ := hcalls op' hop'
        have hji : j ≠ i := by
          rintro rfl
          rw [hidle] at hj
          cases hj
        exact ⟨j, e, (hother hji).trans hj, rfl⟩
      · rcases hcaller hj with ⟨-, hc⟩ | ⟨-, hj⟩
        · cases hc
          exact absurd hje hkey
        · exact hall j e hj hje
  · by_cases hji : j = i
    · subst hji
      cases (setClient_self s j _).symm.trans hj
    · exact h.noPanic j ((setClient_of_ne s _ hji).symm.trans hj)

/-- The log has changed, but neither its entries nor its callers. -/
theorem setLog (h : DiskInv cfg s) (log : WriteAheadLogInner) :
    DiskInv cfg { s with wal := { s.wal with log := log } } :=
  { h with }

/-- The entry of a caller is appended with the next number. -/
theorem append (h : DiskInv cfg s) {i : Nat} {e : WalEntry} (hi : s.wal.callers i = .calling e)
    (log : WriteAheadLogInner) :
    DiskInv cfg { s with wal := s.wal.appended i e log } := by
  have hcaller : ∀ {j c}, (s.wal.appended i e log).callers j = c →
      (j = i ∧ c = .waiting s.wal.entries.length e) ∨ (j ≠ i ∧ s.wal.callers j = c) := by
    intro j c hj
    by_cases hji : j = i
    · subst hji
      rw [WalSys.appended, WalSys.setCaller_self] at hj
      exact .inl ⟨rfl, hj.symm⟩
    · rw [WalSys.appended, WalSys.setCaller_of_ne _ _ hji] at hj
      exact .inr ⟨hji, hj⟩
  have hself : (s.wal.appended i e log).callers i = .waiting s.wal.entries.length e :=
    WalSys.setCaller_self ..
  have hother : ∀ {j}, j ≠ i → (s.wal.appended i e log).callers j = s.wal.callers j :=
    fun hji => WalSys.setCaller_of_ne _ _ hji
  -- old entries keep their numbers, and the new number is not among those in use
  have hold : ∀ {lsn e'}, s.wal.entries[lsn]? = some e' →
      (s.wal.entries ++ [e])[lsn]? = some e' ∧ lsn ≠ s.wal.entries.length := by
    intro lsn e' hlsn
    have hlt := (List.getElem?_eq_some_iff.1 hlsn).1
    exact ⟨(List.getElem?_append_left hlt).trans hlsn, Nat.ne_of_lt hlt⟩
  refine { h with
    quiet := fun j hj => ?_
    calls := fun j pid op hj => ?_
    entry := fun j lsn e' hj => ?_
    numbers := fun j k lsn e₁ e₂ hj hk => ?_
    returned := fun r hr => ?_
    order := fun key => ?_ }
  · have hji : j ≠ i := by
      rintro rfl
      obtain ⟨pid, hc⟩ := h.client_calling hi
      exact hj pid _ hc
    exact (hother hji).trans (h.quiet j hj)
  · obtain ⟨e', rfl, hc⟩ := h.calls j pid op hj
    by_cases hji : j = i
    · subst hji
      rcases hc with hc | ⟨lsn, hc⟩
      · rw [hi] at hc
        cases hc
        exact ⟨e, rfl, .inr ⟨_, hself⟩⟩
      · rw [hi] at hc
        cases hc
    · exact ⟨e', rfl, by rw [← hother hji] at hc; exact hc⟩
  · rcases hcaller hj with ⟨-, heq⟩ | ⟨-, hj'⟩
    · cases heq
      refine ⟨List.getElem?_concat_length, fun hmem => ?_⟩
      obtain ⟨r, hr, hlsn⟩ := List.mem_map.1 hmem
      obtain ⟨lsn, e', hr2, hget, -⟩ := h.returned r hr
      rw [hr2] at hlsn
      exact (hold hget).2 (Option.some.inj hlsn)
    · exact (h.entry j lsn e' hj').imp_left fun hget => (hold hget).1
  · rcases hcaller hj with ⟨hji, heq⟩ | ⟨-, hj'⟩ <;> rcases hcaller hk with ⟨hki, heq'⟩ | ⟨-, hk'⟩
    · rw [hji, hki]
    · cases heq
      exact absurd rfl (hold (h.entry k _ _ hk').1).2
    · cases heq'
      exact absurd rfl (hold (h.entry j _ _ hj').1).2
    · exact h.numbers j k lsn e₁ e₂ hj' hk'
  · obtain ⟨lsn, e', hr2, hget, heq⟩ := h.returned r hr
    exact ⟨lsn, e', hr2, (hold hget).1, heq⟩
  · obtain ⟨pending, heq, hlen, hcalls, hall⟩ := h.order key
    show ∃ pending, ofKey key s.effects = ofKey key ((s.wal.entries ++ [e]).map (·.op)) ++ pending ∧ _
    rw [List.map_append, List.map_singleton]
    by_cases hkey : e.op.key = key
    · have hmem := hall i e hi hkey
      obtain ⟨op, rfl⟩ : ∃ op, pending = [op] := by
        cases pending with
        | nil => cases hmem
        | cons op rest =>
          rw [List.length_cons] at hlen
          exact ⟨op, by rw [List.length_eq_zero_iff.1 (show rest.length = 0 by omega)]⟩
      obtain rfl := List.mem_singleton.1 hmem
      refine ⟨[], ?_, Nat.zero_le 1, nofun, fun j e' hj hje => ?_⟩
      · rw [List.append_nil, ofKey_append_of_eq _ hkey, heq]
      · rcases hcaller hj with ⟨-, hc⟩ | ⟨hji, hj'⟩
        · cases hc
        · exact absurd (h.calling_unique hj' hi (hje.trans hkey.symm)) hji
    · rw [ofKey_append_of_ne _ hkey]
      refine ⟨pending, heq, hlen, fun op hop => ?_, fun j e' hj hje => ?_⟩
      · obtain ⟨j, e', hj, rfl⟩ := hcalls op hop
        have hji : j ≠ i := by
          rintro rfl
          rw [hi] at hj
          cases hj
          exact hkey (key_of_mem_ofKey (heq ▸ List.mem_append_right _ hop))
        exact ⟨j, e', (hother hji).trans hj, rfl⟩
      · rcases hcaller hj with ⟨-, hc⟩ | ⟨-, hj'⟩
        · cases hc
        · exact hall j e' hj' hje

/-- A caller that waits returns with its number, and the leaf is unlocked. -/
theorem finish (h : DiskInv cfg s) {i lsn pid : Nat} {e : WalEntry}
    (hi : s.wal.callers i = .waiting lsn e) (hc : s.clients i = .logging pid e.op) :
    DiskInv cfg { s.setClient i .idle with
      wal := s.wal.setCaller i .idle
      locked := s.locked.erase pid
      returned := s.returned ++ [(e.op, some lsn)] } := by
  have hclient : ∀ {j c}, (s.setClient i .idle).clients j = c →
      (j = i ∧ c = .idle) ∨ (j ≠ i ∧ s.clients j = c) := by
    intro j c hj
    by_cases hji : j = i
    · subst hji
      rw [setClient_self] at hj
      exact .inl ⟨rfl, hj.symm⟩
    · rw [setClient_of_ne s _ hji] at hj
      exact .inr ⟨hji, hj⟩
  have hcaller : ∀ {j c}, (s.wal.setCaller i .idle).callers j = c →
      (j = i ∧ c = .idle) ∨ (j ≠ i ∧ s.wal.callers j = c) := by
    intro j c hj
    by_cases hji : j = i
    · subst hji
      rw [WalSys.setCaller_self] at hj
      exact .inl ⟨rfl, hj.symm⟩
    · rw [WalSys.setCaller_of_ne _ _ hji] at hj
      exact .inr ⟨hji, hj⟩
  have hother : ∀ {j}, j ≠ i → (s.wal.setCaller i .idle).callers j = s.wal.callers j :=
    fun hji => WalSys.setCaller_of_ne _ _ hji
  refine {
    tree := h.tree
    accepted := fun j op hj => ?_
    quiet := fun j hj => ?_
    holds := fun j pid' op hj => ?_
    calls := fun j pid' op hj => ?_
    exclusive := fun j k pid' op op' hj hk => ?_
    entry := fun j lsn' e' hj => ?_
    numbers := fun j k lsn' e₁ e₂ hj hk => ?_
    returned := fun r hr => ?_
    once := ?_
    order := fun key => ?_
    noPanic := fun j hj => ?_ }
  · rcases hclient hj with ⟨-, heq⟩ | ⟨-, hj'⟩
    · cases heq
    · exact h.accepted j op hj'
  · by_cases hji : j = i
    · subst hji
      exact WalSys.setCaller_self ..
    · refine (hother hji).trans (h.quiet j fun pid' op heq => hj pid' op ?_)
      exact (setClient_of_ne s _ hji).trans heq
  · rcases hclient hj with ⟨-, heq⟩ | ⟨hji, hj'⟩
    · cases heq
    · obtain ⟨hmem, hleaf⟩ := h.holds j pid' op hj'
      refine ⟨(List.mem_erase_of_ne ?_).2 hmem, hleaf⟩
      rintro rfl
      exact hji (h.exclusive j i _ _ _ hj' hc)
  · rcases hclient hj with ⟨-, heq⟩ | ⟨hji, hj'⟩
    · cases heq
    · obtain ⟨e', heq, hcall⟩ := h.calls j pid' op hj'
      exact ⟨e', heq, by rw [← hother hji] at hcall; exact hcall⟩
  · rcases hclient hj with ⟨-, heq⟩ | ⟨-, hj'⟩
    · cases heq
    · rcases hclient hk with ⟨-, heq⟩ | ⟨-, hk'⟩
      · cases heq
      · exact h.exclusive j k pid' op op' hj' hk'
  · rcases hcaller hj with ⟨-, heq⟩ | ⟨hji, hj'⟩
    · cases heq
    · obtain ⟨hget, hnot⟩ := h.entry j lsn' e' hj'
      refine ⟨hget, fun hmem => ?_⟩
      rw [List.map_append, List.mem_append, List.map_singleton, List.mem_singleton] at hmem
      rcases hmem with hmem | heq
      · exact hnot hmem
      · cases heq
        exact hji (h.numbers j i _ _ _ hj' hi)
  · rcases hcaller hj with ⟨-, heq⟩ | ⟨-, hj'⟩
    · cases heq
    · rcases hcaller hk with ⟨-, heq⟩ | ⟨-, hk'⟩
      · cases heq
      · exact h.numbers j k lsn' e₁ e₂ hj' hk'
  · rcases List.mem_append.1 hr with hr | hr
    · exact h.returned r hr
    · obtain rfl := List.mem_singleton.1 hr
      exact ⟨lsn, e, rfl, (h.entry i lsn e hi).1, rfl⟩
  · rw [List.map_append, List.map_singleton, List.nodup_append]
    refine ⟨h.once, List.nodup_singleton _, fun a ha b hb => ?_⟩
    obtain rfl := List.mem_singleton.1 hb
    rintro rfl
    exact (h.entry i lsn e hi).2 ha
  · obtain ⟨pending, heq, hlen, hcalls, hall⟩ := h.order key
    refine ⟨pending, heq, hlen, fun op hop => ?_, fun j e' hj hje => ?_⟩
    · obtain ⟨j, e', hj, heq'⟩ := hcalls op hop
      have hji : j ≠ i := by
        rintro rfl
        rw [hi] at hj
        cases hj
      exact ⟨j, e', (hother hji).trans hj, heq'⟩
    · rcases hcaller hj with ⟨-, heq'⟩ | ⟨-, hj'⟩
      · cases heq'
      · exact hall j e' hj' hje
  · rcases hclient hj with ⟨-, heq⟩ | ⟨-, hj'⟩
    · cases heq
    · exact h.noPanic j hj'

/-- What the lock of a leaf is good for: an attempt that may run does not move the keys
of locked leaves. -/
theorem keeps {α : Type} {key : Key} {r : Except TreeError α} {tree : Tree} {sh : Shape}
    {C C' : Key → Option Value} (h : s.tree.Ok cfg sh C)
    (h' : Reshaped cfg C' sh s.tree.pages.length key tree) (hrun : s.mayRun key r tree = true) :
    ∀ pid ∈ s.locked, ∀ k, s.tree.leafOf k = some pid → tree.leafOf k = some pid := by
  intro pid hpid k hk
  rw [mayRun, Bool.or_eq_true, Bool.and_eq_true, decide_eq_true_eq] at hrun
  refine (Reshaped.leafOf_eq h h' ?_).trans hk
  rcases hrun with hfree | ⟨-, hpages⟩
  · refine .inr fun heq => ?_
    rw [Bool.not_eq_true', blocked, List.any_eq_false] at hfree
    exact hfree pid hpid (decide_eq_true (heq.symm.trans hk))
  · exact .inl (congrArg List.length hpages)

theorem step (h : DiskInv cfg s) (hw : s.wal.Inv) (hdisk : cfg.cacheOnly = false)
    {a : ServerAction} {s' : Server} (hs : Server.step a s = some s') :
    DiskInv cfg s' ∧ s'.wal.Inv := by
  obtain ⟨sh, C, hok⟩ := h.tree
  cases a with
  | start i op =>
    simp only [Server.step] at hs
    split at hs
    · next hi =>
      split at hs
      · next ha =>
        cases hs
        rw [hok.config] at ha
        refine ⟨h.setClient (by rw [hi]; nofun) nofun (fun op' heq => ?_) nofun, hw⟩
        cases heq
        exact ha
      · cases hs
    · cases hs
  | write i env aggressive =>
    simp only [Server.step] at hs
    split at hs
    · next op hi =>
      obtain ⟨⟨r, tree⟩, hrun, hs⟩ := Option.bind_eq_some_iff.mp hs
      have hspec := writeLogged_disk hok hdisk env
        (op.writable hok.bounds (h.accepted i op hi)) aggressive
      simp only at hs
      split at hs
      · next hmay =>
        cases r with
        | error e =>
          cases hs
          obtain ⟨C', hre⟩ := hspec.2 e tree hrun
          obtain ⟨sh', hok'⟩ := hre.inv
          exact ⟨h.setTree hok' (keeps hok hre hmay), hw⟩
        | ok w =>
          cases hs
          obtain ⟨⟨pid, o, rfl, hleaf⟩, C', hok', hlen⟩ := hspec.1 w tree hrun
          have hre : Reshaped cfg C' sh s.tree.pages.length op.key tree :=
            hlen ▸ hok'.reshaped op.key
          have hfree : pid ∉ s.locked := fun hmem => by
            rw [mayRun, Bool.or_eq_true] at hmay
            rcases hmay with hfree | hfalse
            · rw [Bool.not_eq_true', blocked, List.any_eq_false] at hfree
              exact hfree pid hmem (decide_eq_true hleaf)
            · cases hfalse
          have hleaf' : tree.leafOf op.key = some pid :=
            (hre.leafOf_eq hok (.inl hlen)).trans hleaf
          have hinv := h.setTree hok' (keeps hok hre hmay)
          refine ⟨hinv.wrote o hi hleaf' hfree, ?_⟩
          exact hw.setCaller i nofun
      · cases hs
    · cases hs
  | other a =>
    simp only [Server.step] at hs
    obtain ⟨⟨r, tree⟩, hrun, hs⟩ := Option.bind_eq_some_iff.mp hs
    simp only at hs
    split at hs
    · next hmay =>
      cases hs
      obtain ⟨-, ha, hmay⟩ := hmay
      rw [hok.config] at ha
      rcases a.exec_result hok ha hrun with rfl | ⟨key, C', htarget, hre⟩
      · exact ⟨h, hw⟩
      · rw [htarget] at hmay
        obtain ⟨sh', hok'⟩ := hre.inv
        exact ⟨h.setTree hok' (keeps hok hre hmay), hw⟩
    · cases hs
  | append i =>
    simp only [Server.step, Option.map_eq_some_iff] at hs
    obtain ⟨⟨returned, w'⟩, hwal, rfl⟩ := hs
    have hw' := WalSys.step_inv hw hwal
    obtain ⟨e, log, hi, ⟨rfl, rfl⟩ | ⟨rfl, rfl⟩ | ⟨rfl, rfl⟩⟩ := hw.step_append hwal
    · exact ⟨h.setLog log, hw'⟩
    · exact ⟨h.append hi log, hw'⟩
    · obtain ⟨pid, hc⟩ := h.client_calling hi
      have hfin := (h.append hi log).finish (WalSys.setCaller_self ..) hc
      simp only [Server.logged, hc]
      exact ⟨hfin, hw'⟩
  | wake i =>
    simp only [Server.step, Option.map_eq_some_iff] at hs
    obtain ⟨⟨returned, w'⟩, hwal, rfl⟩ := hs
    have hw' := WalSys.step_inv hw hwal
    obtain ⟨lsn, e, hi, ⟨rfl, rfl⟩ | ⟨rfl, rfl⟩⟩ := WalSys.step_wake hwal
    · exact ⟨h, hw'⟩
    · obtain ⟨pid, hc⟩ := h.client_waiting hi
      have hfin := h.finish hi hc
      simp only [Server.logged, hc]
      exact ⟨hfin, hw'⟩
  | flush =>
    simp only [Server.step, Option.map_eq_some_iff] at hs
    obtain ⟨⟨returned, w'⟩, hwal, rfl⟩ := hs
    have hw' := WalSys.step_inv hw hwal
    cases hwal
    exact ⟨h.setLog _, hw'⟩

end DiskInv

/-! ## In cache-only mode -/

/-- Nobody ever gets to the log: a write has returned past it, or its client has panicked. -/
structure CacheInv (cfg : Config) (s : Server) : Prop where
  tree : ∃ sh C, s.tree.Ok cfg sh C
  accepted : ∀ i op, s.clients i = .trying op → op.accepted cfg = true
  callers : ∀ i, s.wal.callers i = .idle
  entries : s.wal.entries = []
  returned : ∀ r ∈ s.returned, r.2 = none
  effects : s.effects = [] ↔ s.returned = [] ∧ ∀ i, s.clients i ≠ .panicked

namespace CacheInv

variable {cfg : Config} {s : Server}

theorem new {t : Tree} {buffer : List UInt8} {sh : Shape} {C : Key → Option Value}
    (h : t.Ok cfg sh C) : CacheInv cfg ⟨t, .new buffer, fun _ => .idle, [], [], []⟩ where
  tree := ⟨sh, C, h⟩
  accepted := nofun
  callers := fun _ => rfl
  entries := rfl
  returned := nofun
  effects := ⟨fun _ => ⟨rfl, nofun⟩, fun _ => rfl⟩

theorem setTree (h : CacheInv cfg s) {tree : Tree} {sh : Shape} {C : Key → Option Value}
    (hok : tree.Ok cfg sh C) : CacheInv cfg { s with tree := tree } :=
  { h with tree := ⟨sh, C, hok⟩ }

/-- A client that has not panicked goes on. -/
theorem setClient (h : CacheInv cfg s) {i : Nat} {c : Client} (hi : s.clients i ≠ .panicked)
    (ha : ∀ op, c = .trying op → op.accepted cfg = true) (hp : c ≠ .panicked) :
    CacheInv cfg (s.setClient i c) := by
  refine { h with
    accepted := fun j op hj => ?_
    effects := h.effects.trans (and_congr_right fun _ => forall_congr' fun j => ?_) }
  · by_cases hji : j = i
    · subst hji
      rw [setClient_self] at hj
      exact ha op hj
    · rw [setClient_of_ne s c hji] at hj
      exact h.accepted j op hj
  · by_cases hji : j = i
    · subst hji
      rw [setClient_self]
      exact iff_of_true hi hp
    · rw [setClient_of_ne s c hji]

/-- A write that returns past the log is returned without a number, and one that gets to it
panics. -/
theorem wrote (h : CacheInv cfg s) {i : Nat} {op : WriteOp} (hi : s.clients i = .trying op)
    {w : WriteOutcome} (hw : w = .done ∨ ∃ pid, w = .logs pid none) :
    CacheInv cfg (s.wrote i op w) := by
  have hne : s.clients i ≠ .panicked := by rw [hi]; nofun
  have hidle := h.setClient (c := .idle) hne nofun nofun
  rcases hw with rfl | ⟨pid, rfl⟩
  · rw [Server.wrote]
    split
    · exact hidle
    · refine { hidle with
        returned := fun r hr => ?_
        effects := iff_of_false (List.concat_ne_nil _ _)
          fun hnil => List.concat_ne_nil _ _ hnil.1 }
      rcases List.mem_append.1 hr with hr | hr
      · exact h.returned r hr
      · rw [List.mem_singleton.1 hr]
  · refine { h with
      accepted := fun j op' hj => ?_
      effects := iff_of_false (List.concat_ne_nil _ _)
        fun hnil => hnil.2 i (setClient_self ..) }
    by_cases hji : j = i
    · subst hji
      cases (setClient_self ..).symm.trans hj
    · exact h.accepted j op' ((setClient_of_ne s _ hji).symm.trans hj)

theorem step (h : CacheInv cfg s) (hcache : cfg.cacheOnly = true) {a : ServerAction} {s' : Server}
    (hs : Server.step a s = some s') : CacheInv cfg s' := by
  obtain ⟨sh, C, hok⟩ := h.tree
  cases a with
  | start i op =>
    simp only [Server.step] at hs
    split at hs
    · next hi =>
      split at hs
      · next ha =>
        cases hs
        rw [hok.config] at ha
        refine h.setClient (by rw [hi]; nofun) (fun op' heq => ?_) nofun
        cases heq
        exact ha
      · cases hs
    · cases hs
  | write i env aggressive =>
    simp only [Server.step] at hs
    split at hs
    · next op hi =>
      obtain ⟨⟨r, tree⟩, hrun, hs⟩ := Option.bind_eq_some_iff.mp hs
      have hspec := writeLogged_cacheOnly ⟨sh, hok⟩ hcache env
        (op.writable hok.bounds (h.accepted i op hi)) aggressive
      simp only at hs
      split at hs
      · cases r with
        | error e =>
          cases hs
          obtain ⟨C', sh', hok'⟩ := hspec.2 e tree hrun
          exact h.setTree hok'
        | ok w =>
          cases hs
          obtain ⟨hw, C', sh', hok'⟩ := hspec.1 w tree hrun
          exact (h.setTree hok').wrote hi hw
      · cases hs
    · cases hs
  | other a =>
    simp only [Server.step] at hs
    obtain ⟨⟨r, tree⟩, hrun, hs⟩ := Option.bind_eq_some_iff.mp hs
    simp only at hs
    split at hs
    · next hmay =>
      cases hs
      rcases a.exec_result hok (hok.config ▸ hmay.2.1) hrun with rfl | ⟨key, C', -, hre⟩
      · exact h
      · obtain ⟨sh', hok'⟩ := hre.inv
        exact h.setTree hok'
    · cases hs
  | append i =>
    simp only [Server.step, WalSys.step, h.callers i, Option.map_none] at hs
    cases hs
  | wake i =>
    simp only [Server.step, WalSys.step, h.callers i, Option.map_none] at hs
    cases hs
  | flush =>
    cases hs
    exact { h with }

/-- What has taken effect is not in the log. -/
theorem logged_iff (h : CacheInv cfg s) : s.Logged ↔ s.effects = [] := by
  constructor
  · intro hlogged
    refine h.effects.2 ⟨?_, hlogged.noPanic⟩
    refine List.eq_nil_iff_forall_not_mem.2 fun r hr => ?_
    obtain ⟨lsn, e, hlsn, -⟩ := hlogged.returned r hr
    rw [h.returned r hr] at hlsn
    cases hlsn
  · intro hnil
    obtain ⟨hret, hpanic⟩ := h.effects.1 hnil
    refine ⟨?_, ?_, fun key => ⟨[], ?_, Nat.zero_le 1, nofun⟩, hpanic⟩
    · rw [hret]
      nofun
    · rw [hret]
      exact List.nodup_nil
    · rw [hnil, h.entries]
      rfl

end CacheInv

/-! ## Every run -/

theorem Reachable.diskInv {cfg : Config} {s : Server} (h : Reachable cfg s)
    (hdisk : cfg.cacheOnly = false) : DiskInv cfg s ∧ s.wal.Inv := by
  induction h with
  | new h hb =>
    obtain ⟨sh, hok⟩ := withConfig_inv h
    exact ⟨.new hok, WalSys.new_inv hb⟩
  | step _ hs ih => exact ih.1.step ih.2 hdisk hs

theorem Reachable.cacheInv {cfg : Config} {s : Server} (h : Reachable cfg s)
    (hcache : cfg.cacheOnly = true) : CacheInv cfg s := by
  induction h with
  | new h hb =>
    obtain ⟨sh, hok⟩ := withConfig_inv h
    exact .new hok
  | step _ hs ih => exact ih.step hcache hs

/-- On disk the log is complete and in order in every run. In cache-only mode it is so
only as long as nothing is written. -/
theorem Reachable.logged_iff_disk {cfg : Config} {s : Server} (h : Reachable cfg s) :
    s.Logged ↔ cfg.cacheOnly = false ∨ s.effects = [] := by
  cases hcache : cfg.cacheOnly with
  | false => exact iff_of_true (h.diskInv hcache).1.logged (.inl rfl)
  | true =>
    rw [(h.cacheInv hcache).logged_iff]
    exact ⟨.inr, fun h => h.resolve_left nofun⟩

/-- A run of a new server. -/
def fromNew (cfg : Config) (ver : Nat) (buffer : List UInt8) (as : List ServerAction) :
    Option Server := do
  let r ← withConfig cfg ver
  let t ← r.toOption
  as.foldlM (fun s a => step a s) ⟨t, .new buffer, fun _ => .idle, [], [], []⟩

theorem Reachable.fromNew {cfg : Config} {ver : Nat} {buffer : List UInt8}
    {as : List ServerAction} {s : Server} (hb : buffer.length < 2 ^ 64)
    (h : Server.fromNew cfg ver buffer as = some s) : Reachable cfg s := by
  have hfold : ∀ (as : List ServerAction) (s₀ : Server), Reachable cfg s₀ →
      as.foldlM (fun s a => Server.step a s) s₀ = some s → Reachable cfg s := by
    intro as
    induction as with
    | nil =>
      intro s₀ h₀ hrun
      cases hrun
      exact h₀
    | cons a as ih =>
      intro s₀ h₀ hrun
      rw [List.foldlM_cons] at hrun
      obtain ⟨s₁, hstep, hrun⟩ := Option.bind_eq_some_iff.mp hrun
      exact ih s₁ (h₀.step hstep) hrun
  simp only [Server.fromNew, Option.bind_eq_bind, Option.bind_eq_some_iff] at h
  obtain ⟨r, hnew, t, hr, hrun⟩ := h
  cases r with
  | error e => cases hr
  | ok t₁ =>
    obtain rfl : t₁ = t := Option.some.inj hr
    exact hfold as _ (.new hnew hb) hrun

/-- Two clients write the same key. The second is restarted once, and returns before the
first is done with its next write. -/
def twoClients : List ServerAction :=
  [.start 0 (.makeInsert [1, 2] [3, 4]), .start 1 (.makeDelete [1, 2]), .write 0 calm false,
    .append 0, .write 1 { calm with descent := false } false, .write 1 calm false,
    .start 0 (.makeInsert [1, 2] [5, 6]), .append 1, .flush, .wake 1, .write 0 calm false]

theorem logged_two_clients : ∃ s, Reachable Config.default s ∧
    s.effects = [.makeInsert [1, 2] [3, 4], .makeDelete [1, 2], .makeInsert [1, 2] [5, 6]] ∧
    s.Logged := by
  have hrun : (fromNew Config.default 0 (List.replicate 512 0) twoClients).map (·.effects) =
      some [.makeInsert [1, 2] [3, 4], .makeDelete [1, 2], .makeInsert [1, 2] [5, 6]] := by
    decide +kernel
  obtain ⟨s, hs, heff⟩ := Option.map_eq_some_iff.1 hrun
  have hreach := Reachable.fromNew (by rw [List.length_replicate]; decide) hs
  exact ⟨s, hreach, heff, hreach.logged_iff_disk.2 (.inl rfl)⟩

def cacheOnlyConfig : Config := { Config.default with cacheOnly := true }

/-- The pages of a cache-only tree have no disk offset, and the first insert asks for one. -/
theorem cacheOnly_insert_panics : ∃ s, Reachable cacheOnlyConfig s ∧
    s.effects = [.makeInsert [1, 2] [3, 4]] ∧ s.clients 0 = .panicked ∧ ¬ s.Logged := by
  have hrun : (fromNew cacheOnlyConfig 0 (List.replicate 512 0)
      [.start 0 (.makeInsert [1, 2] [3, 4]), .write 0 calm false]).map
        (fun s => (s.effects, s.clients 0)) =
      some ([.makeInsert [1, 2] [3, 4]], .panicked) := by
    decide +kernel
  obtain ⟨s, hs, heq⟩ := Option.map_eq_some_iff.1 hrun
  obtain ⟨heff, hpanic⟩ := Prod.mk.inj heq
  have hreach := Reachable.fromNew (by rw [List.length_replicate]; decide) hs
  exact ⟨s, hreach, heff, hpanic, fun hlogged => hlogged.noPanic 0 hpanic⟩

end Server

end BfTree
