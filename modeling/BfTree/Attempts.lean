import BfTree.Client

/-!
# Attempts of many clients

An operation is a series of attempts, and the attempts of different clients come in any
order. An attempt that fails may have changed the tree, but not the map; one that
completes has done its write. The states that attempts lead to are search trees.
-/

namespace BfTree

open Lib LeafNode

namespace Tree

/-- One attempt of an operation of some client. -/
inductive Attempt where
  | insert (env : AttemptEnv) (key : Key) (value : Value) (aggressiveSplit : Bool)
  | delete (env : AttemptEnv) (key : Key) (aggressiveSplit : Bool)
  | read (env : AttemptEnv) (key : Key) (outBuffer : List UInt8) (aggressiveSplit : Bool)
  | scan (env : AttemptEnv) (key : Key) (aggressiveSplit : Bool)
  | evict (eviction : Eviction)

namespace Attempt

/-- The operation has accepted its arguments. A scan also goes to the keys where leaves
start. -/
def accepted (cfg : Config) : Attempt → Bool
  | .insert _ key value _ => validRecord cfg key value
  | .delete _ key _ => validKey cfg key
  | .read _ key _ _ => validKey cfg key
  | .scan .. => true
  | .evict _ => true

def exec : Attempt → M Unit
  | .insert env key value aggressive => writeInner env key value .insert aggressive
  | .delete env key aggressive => writeInner env key [] .delete aggressive
  | .read env key out aggressive => do
    let _ ← readInner env key out aggressive
  | .scan env key aggressive => do
    let _ ← moveCursorToLeaf env key aggressive
  | .evict e => evictionCallback e

/-- The key that the attempt writes. -/
def key : Attempt → Option Key
  | .insert _ key _ _ => some key
  | .delete _ key _ => some key
  | _ => none

/-- The value that the attempt leaves at a key, if it writes it. -/
def writes (key : Key) : Attempt → Option (Option Value)
  | .insert _ k v _ => if k = key then some (some v) else none
  | .delete _ k _ => if k = key then some none else none
  | _ => none

/-- The map once the attempt has completed. -/
def apply (a : Attempt) (C : Key → Option Value) (key : Key) : Option Value :=
  (a.writes key).getD (C key)

variable {cfg : Config} {C : Key → Option Value} {t : Tree}

theorem exec_spec (h : t.Inv cfg C) (a : Attempt) (ha : a.accepted cfg = true) :
    wp a.exec (fun _ t' => ∃ C', Loses cfg none C C' ∧ t'.Inv cfg (a.apply C'))
      (fun _ t' => ∃ C', Loses cfg a.key C C' ∧ t'.Inv cfg C') t := by
  have hbounds : cfg.Bounds := by obtain ⟨s, h⟩ := h; exact h.bounds
  cases a with
  | insert env key value aggressive =>
    refine wp_mono (writeInner_spec h env (writable_insert ha) aggressive)
      (fun _ t' h' => ⟨C, .refl _ _ _, ?_⟩) (fun _ _ h' => h')
    have happly : apply (.insert env key value aggressive) C = written C key value .insert := by
      funext k
      by_cases hk : k = key
      · simp [apply, writes, written, hk, OpType.isAbsent]
      · simp [apply, writes, written, hk, Ne.symm hk]
    rwa [happly]
  | delete env key aggressive =>
    refine wp_mono (writeInner_spec h env (writable_delete hbounds ha) aggressive)
      (fun _ t' h' => ⟨C, .refl _ _ _, ?_⟩) (fun _ _ h' => h')
    have happly : apply (.delete env key aggressive) C = written C key [] .delete := by
      funext k
      by_cases hk : k = key
      · simp [apply, writes, written, hk, OpType.isAbsent]
      · simp [apply, writes, written, hk, Ne.symm hk]
    rwa [happly]
  | read env key out aggressive =>
    simp only [exec, wp_bind, wp_pure]
    exact wp_mono (readInner_spec h env (validKey_iff.1 ha).2.2 out aggressive)
      (fun _ _ h' => ⟨C, .refl _ _ _, h'.2⟩) (fun _ _ h' => ⟨C, .refl _ _ _, h'⟩)
  | scan env key aggressive =>
    simp only [exec, wp_bind, wp_pure]
    exact wp_mono (moveCursorToLeaf_spec h env key aggressive)
      (fun _ _ h' => ⟨C, .refl _ _ _, h'.1⟩) (fun _ _ h' => ⟨C, .refl _ _ _, h'.1⟩)
  | evict e => exact evictionCallback_spec h e

end Attempt

/-- The trees that attempts lead to. -/
inductive Reachable (cfg : Config) : Tree → Prop
  | new {ver : Nat} {t : Tree} (h : withConfig cfg ver = some (.ok t)) : Reachable cfg t
  | step {t t' : Tree} {a : Attempt} {r : Except TreeError Unit} (h : Reachable cfg t)
      (ha : a.accepted cfg = true) (hstep : a.exec t = some (r, t')) : Reachable cfg t'

variable {cfg : Config} {C : Key → Option Value} {s : Shape} {t : Tree}

theorem Reachable.inv (h : Reachable cfg t) : ∃ C, t.Inv cfg C := by
  induction h with
  | new h => exact ⟨_, withConfig_inv h⟩
  | @step t t' a r _ ha hstep ih =>
    obtain ⟨C, hC⟩ := ih
    have hspec := a.exec_spec hC ha
    cases r with
    | ok u =>
      obtain ⟨C', -, h'⟩ := hspec.1 u t' hstep
      exact ⟨_, h'⟩
    | error e =>
      obtain ⟨C', -, h'⟩ := hspec.2 e t' hstep
      exact ⟨_, h'⟩

/-! ## Lost updates -/

/-- Attempts one after the other, each with the answer whether it completed. -/
def attempts : List Attempt → Tree → Option (List Bool × Tree)
  | [], t => some ([], t)
  | a :: as, t => do
      let (r, t) ← a.exec t
      let (rs, t) ← attempts as t
      some (r.toBool :: rs, t)

/-- Something about the outcome of attempts on a new tree. -/
def fromNew {α : Type} (cfg : Config) (ver : Nat) (as : List Attempt)
    (f : List Bool → Tree → α) : Option α := do
  let r ← withConfig cfg ver
  let t ← r.toOption
  let (done, t) ← attempts as t
  some (f done t)

theorem fromNew_eq_some {α : Type} {ver : Nat} {as : List Attempt} {f : List Bool → Tree → α} {a : α}
    (h : fromNew cfg ver as f = some a) :
    ∃ t₀ t done, withConfig cfg ver = some (.ok t₀) ∧ attempts as t₀ = some (done, t) ∧
      f done t = a := by
  simp only [fromNew, Option.bind_eq_bind, Option.bind_eq_some_iff] at h
  obtain ⟨r, hnew, t₀, hr, ⟨done, t⟩, hrun, heq⟩ := h
  cases r with
  | error e => cases hr
  | ok t₁ =>
    obtain rfl : t₁ = t₀ := Option.some.inj hr
    exact ⟨t₁, t, done, hnew, hrun, Option.some.inj heq⟩

/-- The value that the last completed write left at a key. -/
def lastCompleted (key : Key) (as : List (Attempt × Bool)) : Option Value :=
  (as.reverse.findSome? fun x => if x.2 then x.1.writes key else none).join

theorem Reachable.attempts (as : List Attempt) : ∀ {t t' : Tree} {done : List Bool},
    Reachable cfg t → (∀ a ∈ as, a.accepted cfg = true) → Tree.attempts as t = some (done, t') →
    Reachable cfg t' := by
  induction as with
  | nil =>
    intro t t' done h _ hrun
    cases hrun
    exact h
  | cons a as ih =>
    intro t t' done h hacc hrun
    simp only [Tree.attempts, Option.bind_eq_bind, Option.bind_eq_some_iff] at hrun
    obtain ⟨⟨r, t₁⟩, hstep, ⟨rs, t₂⟩, hrest, heq⟩ := hrun
    cases heq
    exact ih (.step h (hacc a List.mem_cons_self) hstep)
      (fun b hb => hacc b (List.mem_cons_of_mem a hb)) hrest

theorem attempts_spec (hdisk : cfg.cacheOnly = false) (as : List Attempt) :
    ∀ {C : Key → Option Value} {t t' : Tree} {done : List Bool}, t.Inv cfg C →
      (∀ a ∈ as, a.accepted cfg = true) → attempts as t = some (done, t') →
      t'.Inv cfg ((as.zip done).foldl (fun C x => if x.2 then x.1.apply C else C) C) := by
  induction as with
  | nil =>
    intro C t t' done h _ hrun
    cases hrun
    exact h
  | cons a as ih =>
    intro C t t' done h hacc hrun
    simp only [attempts, Option.bind_eq_bind, Option.bind_eq_some_iff] at hrun
    obtain ⟨⟨r, t₁⟩, hstep, ⟨rs, t₂⟩, hrest, heq⟩ := hrun
    cases heq
    have hspec := a.exec_spec h (hacc a List.mem_cons_self)
    rw [List.zip_cons_cons, List.foldl_cons]
    refine ih ?_ (fun b hb => hacc b (List.mem_cons_of_mem a hb)) hrest
    cases r with
    | ok u =>
      obtain ⟨C', hl, h'⟩ := hspec.1 u t₁ hstep
      rw [loses_disk hdisk] at hl
      exact hl ▸ h'
    | error e =>
      obtain ⟨C', hl, h'⟩ := hspec.2 e t₁ hstep
      rw [loses_disk hdisk] at hl
      exact hl ▸ h'

theorem foldl_completed (as : List (Attempt × Bool)) (key : Key) :
    as.foldl (fun C x => if x.2 then x.1.apply C else C) (fun _ => none) key =
      lastCompleted key as := by
  induction as using List.reverseRecOn with
  | nil => rfl
  | append_singleton as x ih =>
    rw [List.foldl_append, List.foldl_cons, List.foldl_nil, lastCompleted, List.reverse_append,
      List.reverse_singleton, List.singleton_append, List.findSome?_cons]
    cases hx : x.2 with
    | false => simpa [lastCompleted] using ih
    | true =>
      simp only [if_true, Attempt.apply]
      cases x.1.writes key with
      | none => simpa [lastCompleted] using ih
      | some v => simp

/-- In disk-backed mode no completed write is lost and no other step changes a value:
every key has the value of the last write that completed on it. -/
theorem no_lost_update {cfg : Config} {ver : Nat} {t₀ t : Tree} {as : List Attempt}
    {done : List Bool} (hnew : withConfig cfg ver = some (.ok t₀)) (hdisk : cfg.cacheOnly = false)
    (hacc : ∀ a ∈ as, a.accepted cfg = true) (hrun : attempts as t₀ = some (done, t)) (key : Key) :
    t.lookup key = lastCompleted key (as.zip done) := by
  rw [(attempts_spec hdisk as (withConfig_inv hnew) hacc hrun).lookup_eq key, foldl_completed]

/-- An insert, a delete that runs into a lock, and another insert. -/
def sampleAttempts : List Attempt :=
  [.insert calm [1, 2] [3, 4] false, .delete { calm with descent := false } [1, 2] false,
    .insert calm [2, 2] [5, 6] false]

theorem no_lost_update_sample : ∃ t₀ t, withConfig Config.default 0 = some (.ok t₀) ∧
    attempts sampleAttempts t₀ = some ([true, false, true], t) ∧ t.lookup [1, 2] = some [3, 4] := by
  obtain ⟨t₀, t, done, hnew, hrun, rfl⟩ := fromNew_eq_some
    (by decide +kernel : fromNew Config.default 0 sampleAttempts (fun done _ => done) =
      some [true, false, true])
  exact ⟨t₀, t, hnew, hrun, no_lost_update hnew rfl (by decide) hrun [1, 2]⟩

end Tree

end BfTree
