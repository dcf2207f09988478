import BfTree.Attempts

/-!
# Inserts that fail

An insert into a leaf fails for many reasons, some of them after the page has been
consolidated, merged or split. On disk this is never visible. A cache-only page that
comes to its split starts with a consolidation without the old record of the key, and
may then give up.
-/

namespace BfTree

open Lib LeafNode

namespace LeafEntry

variable {cfg : Config} {lo hi key : Key} {value : Value} {op : OpType} {t : LeafEntry}
  {c : Key → Option Value}

theorem dropsKey_disk (h : cfg.cacheOnly = false) (sizeClasses : List Nat)
    (guard : Option SnapshotGuard) (isRoot : Bool) (loc : PageLocation) :
    dropsKey cfg sizeClasses guard isRoot key value op loc = false := by
  cases loc with
  | mini p => rw [dropsKey, h, Bool.false_and, Bool.false_and, Bool.false_and]
  | full p => rfl
  | base o => rfl
  | null => rfl

/-- What a failed insert leaves behind. -/
theorem insert_fails (h : LeafOk cfg lo hi c t.loc t.vfs) (hf : Fresh t) (hcfg : cfg.Bounds)
    (sizeClasses : List Nat) (env : Env) (key : Key) (value : Value) (op : OpType) :
    wp (insert cfg sizeClasses env key value op) (fun _ _ => True)
      (fun _ => Flushes (Committed cfg lo hi
        (if dropsKey cfg sizeClasses env.snapshotGuard t.parent.isNone key value op t.loc then
          Function.update c key none else c) t)) t := by
  cases hc : cfg.cacheOnly with
  | true =>
    rw [leafOk_cacheOnly hc] at h
    cases hl : t.loc with
    | mini p =>
      have hp := h
      rw [hl] at hp
      rw [← hl]
      exact wp_mono (insert_cacheOnly sizeClasses env hp.1 hp.2 hl hcfg hc)
        (fun _ _ _ => trivial)
        fun _ t₁ hk t' ht' => .keeps (hk.settled hf h.offset_eq hc t' ht')
    | full p => rw [hl] at h; exact h.elim
    | base o => rw [hl] at h; exact h.elim
    | null =>
      unfold insert
      cases env.snapshotGuard with
      | none =>
        rw [wp_fail]
        exact fun t' ht' => .keeps ((CacheKeeps.same h).settled hf h.offset_eq hc t' ht')
      | some g =>
        simp only [wp_bind, wp_get, hl]
        exact wp_crash.2 trivial
  | false =>
    obtain ⟨offset, base, hover, rfl⟩ := hf.over h hc
    rw [dropsKey_disk hc]
    exact wp_mono (wp_and (insert_root cfg sizeClasses hover env hc)
      (insert_total cfg sizeClasses env hover hc)) (fun _ _ _ => trivial)
      fun _ t₁ ho => ho.2.committed hf hover.offset_eq ho.1 hc

end LeafEntry

namespace Tree

variable {cfg : Config} {C : Key → Option Value} {s : Shape} {t : Tree} {key : Key}

theorem parentOf_isNone {parent : Option Nat} {par : Option Parent}
    (h : t.parentOf parent = some par) : par.isNone = parent.isNone := by
  cases parent with
  | none => rw [← Option.some.inj h]; rfl
  | some ptr =>
    obtain ⟨n, -, rfl⟩ := Option.map_eq_some_iff.1 h
    rfl

theorem patch_dropsKey {lo hi : Key} {c : Key → Option Value} (drops : Bool)
    (hc : ∀ k, InRange lo hi k → c k = C k) (hkey : InRange lo hi key) :
    patch lo hi (if drops then Function.update c key none else c) C =
      if drops then Function.update C key none else C := by
  cases drops with
  | false => exact patch_eq hc fun _ _ => rfl
  | true =>
    refine patch_eq (fun k hk => ?_) fun k hk => ?_
    · simp only [if_true, Function.update_apply, hc k hk]
    · rw [if_pos rfl, Function.update_of_ne]
      rintro rfl
      exact hk hkey

/-- The insert, if it fails, does so after the leaf has lost the old record of the key. -/
def dropsKey (t : Tree) (landing : Landing) (env : Env) (key : Key) (value : Value)
    (op : OpType) : Bool :=
  (t.pages[landing.pid]?).any
    (LeafEntry.dropsKey t.config t.sizeClasses env.snapshotGuard landing.parent.isNone key value op)

theorem withLeaf_insert_fails (h : t.Ok cfg s C) {landing : Landing} (hland : Lands s t key landing)
    (env : Env) (value : Value) (op : OpType) :
    wp (withLeaf landing.pid landing.parent
        (LeafEntry.insert t.config t.sizeClasses env key value op)) (fun _ _ => True)
      (fun _ t' => t'.Inv cfg
        (if t.dropsKey landing env key value op then Function.update C key none else C)) t := by
  obtain ⟨loc, par, c, hloc, hpar, hleaf, hc⟩ := h.lock hland.alive hland.parent
  rw [dropsKey, hloc, Option.any_some, h.config, ← parentOf_isNone hpar]
  refine wp_withLeaf hloc hpar (wp_mono
    (LeafEntry.insert_fails (t := t.lockLeaf landing.pid loc par) hleaf (h.fresh hloc par)
      h.bounds t.sizeClasses env key value op) (fun _ _ _ _ _ => trivial) fun _ l hl l' hl' => ?_)
  rw [← patch_dropsKey _ hc hland.inRange]
  exact (h.commit hloc hpar hland.parent (hl l' hl') hland.inRange).inv

/-- A failed insert changes no value, unless it was to split a cache-only leaf that has
a value for the key. -/
theorem failed_insert_keeps_iff {t₁ t' : Tree} {denv : AttemptEnv} {aggressive : Bool}
    {landing : Landing} {env : Env} {value : Value} {op : OpType} {e : TreeError}
    (h : Reachable cfg t) (hland : traverseToLeaf denv key aggressive t = some (.ok landing, t₁))
    (hins : withLeaf landing.pid landing.parent
      (LeafEntry.insert t₁.config t₁.sizeClasses env key value op) t₁ = some (.error e, t')) :
    (∀ k, t'.lookup k = t₁.lookup k) ↔
      t₁.lookup key = none ∨ t₁.dropsKey landing env key value op = false := by
  obtain ⟨C, s, hok⟩ := h.inv
  obtain ⟨hok₁, hl, -⟩ := (traverseToLeaf_reshapes hok denv key aggressive).1 landing t₁ hland
  have hinv := (withLeaf_insert_fails hok₁ hl env value op).2 e t' hins
  simp only [hinv.lookup_eq, hok₁.lookup_eq]
  cases hdrops : t₁.dropsKey landing env key value op with
  | false => exact iff_of_true (fun _ => rfl) (.inr rfl)
  | true =>
    simp only [if_true, or_false, Bool.true_eq_false]
    constructor
    · intro heq
      rw [← heq key, Function.update_self]
    · intro hnone k
      by_cases hkey : k = key
      · rw [hkey, Function.update_self, hnone]
      · rw [Function.update_of_ne hkey]

/-- A descent and the insert at the leaf that it lands on: the trees before and after the
insert, and whether it succeeds. -/
def descendAndInsert (env : Env) (key : Key) (value : Value) (op : OpType) (t : Tree) :
    Option (Landing × Tree × Except TreeError Unit × Tree) := do
  let (r, t₁) ← traverseToLeaf calm key false t
  let landing ← r.toOption
  let (r, t') ← withLeaf landing.pid landing.parent
    (LeafEntry.insert t₁.config t₁.sizeClasses env key value op) t₁
  some (landing, t₁, r, t')

theorem descendAndInsert_eq_some {env : Env} {value : Value} {op : OpType} {landing : Landing}
    {t₁ t' : Tree} {r : Except TreeError Unit}
    (h : descendAndInsert env key value op t = some (landing, t₁, r, t')) :
    traverseToLeaf calm key false t = some (.ok landing, t₁) ∧
      withLeaf landing.pid landing.parent
        (LeafEntry.insert t₁.config t₁.sizeClasses env key value op) t₁ = some (r, t') := by
  simp only [descendAndInsert, Option.bind_eq_bind, Option.bind_eq_some_iff] at h
  obtain ⟨⟨r₁, t₂⟩, hland, landing', hr, ⟨r₂, t₃⟩, hins, heq⟩ := h
  cases r₁ with
  | error e => cases hr
  | ok landing₁ =>
    obtain rfl : landing₁ = landing' := Option.some.inj hr
    cases heq
    exact ⟨hland, hins⟩

/-- A cache-only tree of two leaves, one of them full. -/
def fullLeafAttempts : List Attempt :=
  let v : Value := List.replicate 1300 0
  [.insert calm [1, 2] v false, .insert calm [2, 2] v false, .insert calm [3, 2] v false,
    .insert calm [4, 2] v false, .insert calm [4, 2] v true, .insert calm [4, 2] v false]

/-- The parent of the leaf is locked by somebody else. -/
def parentLocked : Env := { calm.leaf with parentUpgrade := some .locked }

theorem failed_insert_of_result {cfg : Config} {as : List Attempt} {key key' : Key} {value : Value}
    {op : OpType} {before after : Option Value} (hacc : ∀ a ∈ as, a.accepted cfg = true)
    (h : fromNew cfg 0 as (fun _ t => (descendAndInsert parentLocked key value op t).map fun x =>
      (x.2.2.1.toBool, x.2.1.lookup key', x.2.2.2.lookup key')) = some (some (false, before, after))) :
    ∃ t t₁ t' landing e, Reachable cfg t ∧
      traverseToLeaf calm key false t = some (.ok landing, t₁) ∧
      withLeaf landing.pid landing.parent
        (LeafEntry.insert t₁.config t₁.sizeClasses parentLocked key value op) t₁ =
          some (.error e, t') ∧ t₁.lookup key' = before ∧ t'.lookup key' = after := by
  obtain ⟨t₀, t, done, hnew, hrun, hres⟩ := fromNew_eq_some h
  obtain ⟨⟨landing, t₁, r, t'⟩, hins, heq⟩ := Option.map_eq_some_iff.1 hres
  obtain ⟨hland, hleaf⟩ := descendAndInsert_eq_some hins
  cases r with
  | ok u => cases heq
  | error e =>
    cases heq
    exact ⟨t, t₁, t', landing, e, .attempts _ (.new hnew) hacc hrun, hland, hleaf, rfl, rfl⟩

theorem failed_insert_keeps_new_key : ∃ t t₁ t' landing e,
    Reachable { Config.default with cacheOnly := true } t ∧
    traverseToLeaf calm [3, 3] false t = some (.ok landing, t₁) ∧
    withLeaf landing.pid landing.parent (LeafEntry.insert t₁.config t₁.sizeClasses parentLocked
      [3, 3] (List.replicate 1900 0) .insert) t₁ = some (.error e, t') ∧
    ∀ k, t'.lookup k = t₁.lookup k := by
  obtain ⟨t, t₁, t', landing, e, hreach, hland, hins, hbefore, -⟩ := failed_insert_of_result
    (by decide +kernel : ∀ a ∈ fullLeafAttempts,
      a.accepted { Config.default with cacheOnly := true } = true)
    (by decide +kernel : fromNew { Config.default with cacheOnly := true } 0 fullLeafAttempts
      (fun _ t => (descendAndInsert parentLocked [3, 3] (List.replicate 1900 0) .insert t).map
        fun x => (x.2.2.1.toBool, x.2.1.lookup [3, 3], x.2.2.2.lookup [3, 3])) =
      some (some (false, none, none)))
  exact ⟨t, t₁, t', landing, e, hreach, hland, hins,
    (failed_insert_keeps_iff hreach hland hins).2 (.inl hbefore)⟩

/-- The value of the key is gone although the insert of the new one has failed. -/
theorem failed_insert_loses_value : ∃ t t₁ t' landing e,
    Reachable { Config.default with cacheOnly := true } t ∧
    traverseToLeaf calm [3, 2] false t = some (.ok landing, t₁) ∧
    withLeaf landing.pid landing.parent (LeafEntry.insert t₁.config t₁.sizeClasses parentLocked
      [3, 2] (List.replicate 1900 0) .insert) t₁ = some (.error e, t') ∧
    t₁.lookup [3, 2] = some (List.replicate 1300 0) ∧ t'.lookup [3, 2] = none :=
  failed_insert_of_result
    (by decide +kernel : ∀ a ∈ fullLeafAttempts,
      a.accepted { Config.default with cacheOnly := true } = true)
    (by decide +kernel)

end Tree

end BfTree
