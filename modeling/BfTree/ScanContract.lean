import BfTree.Attempts

/-!
# The contract of a scan

A scan of a tree that nobody else works on returns the records from its start key on, in
key order, up to its count or its end key, whatever the promotion dice say. After that it
returns nothing any more.
-/

namespace BfTree

open Lib LeafNode

namespace Tree

/-- The records that a scan returns, out of those that it covers. -/
def ScanLimit.expected {α : Type} (limit : ScanLimit) (R : List α) : List α :=
  match limit with
  | .count cnt => R.take cnt
  | .endKey _ => R

/-- A whole scan: the results of calls of `next` on a new iterator. -/
def scanRun (rounds : List Round) (startKey : Key) (limit : ScanLimit) (field : ScanReturnField)
    (calls : List NextCall) : M (List (Option (Nat × Nat) × List UInt8) × ScanIter) := do
  let it ← openIter rounds startKey limit field
  nexts calls it

/-- What a caller gets: the lengths and the bytes. -/
def yielded (r : Option (Nat × Nat) × List UInt8) : Option ((Nat × Nat) × List UInt8) :=
  r.1.map fun lens => (lens, r.2.take (lens.1 + lens.2))

variable {cfg : Config} {C : Key → Option Value} {t : Tree}

theorem scanRun_spec (h : t.Inv cfg C) (rounds : List Round) (startKey : Key) (limit : ScanLimit)
    (field : ScanReturnField) (calls : List NextCall) {R : List (Key × Value)}
    (hR : Enumerates (limit.Covers startKey) C R) :
    wp (scanRun rounds startKey limit field calls)
      (fun r _ => Yields field (limit.expected R) r.1 ∧ r.1.length = calls.length ∧
        ((∃ cnt, limit = .count cnt) ∨ R.length < 2 ^ 64 →
          r.2.scanCnt + found r.1 ≤ limit.start)) (fun _ _ => False) t := by
  simp only [scanRun, wp_bind]
  refine wp_mono (openIter_spec h rounds startKey limit field) ?_ fun _ _ hf => hf
  rintro it t₁ ⟨h₁, hi, hs, hleft, hcnt, hfield, hend⟩
  refine wp_mono (nexts_spec calls h₁ hs (hleft R hR) (hcnt ▸ limit.start_lt)) ?_
    fun _ _ hf => hf
  rintro ⟨rs, it'⟩ t₂ ⟨-, hy, hlen, hsum⟩
  have hexp : expected it R = limit.expected R := by
    cases limit with
    | count cnt => rw [expected, if_pos (hend.2 ⟨cnt, rfl⟩), hcnt]; rfl
    | endKey e =>
      rw [expected, if_neg fun hn => by obtain ⟨cnt, hc⟩ := hend.1 hn; cases hc]
      rfl
  rw [hfield, hexp] at hy
  refine ⟨hy, hlen, fun hle => ?_⟩
  rw [← hcnt]
  cases limit with
  | count cnt => exact hsum (.inl (hend.2 ⟨cnt, rfl⟩))
  | endKey e =>
    refine hsum (.inr ?_)
    rw [hcnt]
    exact Nat.le_sub_one_of_lt (hle.resolve_left fun ⟨cnt, hc⟩ => by cases hc)

/-- The scan returns the live records from the start key on, each once and in key order, up
to the count or the end key, and then nothing any more. The counter is decremented once for
each record returned and does not wrap around, for a tree with less than `2 ^ 64` records. A
leaf whose page was evicted in cache-only mode has no records. -/
theorem Reachable.scan_contract {cfg : Config} {t : Tree} (h : Reachable cfg t) (rounds : List Round)
    (startKey : Key) (limit : ScanLimit) (field : ScanReturnField) :
    ∃ R, Enumerates (limit.Covers startKey) t.lookup R ∧
      (∀ calls rs it t', scanRun rounds startKey limit field calls t = some (.ok (rs, it), t') →
        Yields field (limit.expected R) rs ∧ rs.length = calls.length ∧
          ((∃ cnt, limit = .count cnt) ∨ R.length < 2 ^ 64 → it.scanCnt + found rs ≤ limit.start)) ∧
      ∀ k pid, t.leafOf k = some pid → t.pages[pid]? = some .null → ∀ v, (k, v) ∉ R := by
  obtain ⟨C, hinv⟩ := h.inv
  obtain ⟨R, hR, -⟩ := Enumerates.exists_of_keys (fun k hk => hinv.mem_keys hk)
    (limit.Covers startKey)
  have hlook : t.lookup = C := funext hinv.lookup_eq
  refine ⟨R, hlook ▸ hR, fun calls rs it t' hrun =>
    (scanRun_spec hinv rounds startKey limit field calls hR).1 (rs, it) t' hrun, ?_⟩
  intro k pid hpid hnull v hmem
  have hv := ((hR.mem k v).1 hmem).2
  rw [← hlook] at hv
  simp [lookup, hpid, hnull, readLeaf] at hv

/-- What a scan of a tree returns, if it returns. -/
def scanned (rounds : List Round) (startKey : Key) (limit : ScanLimit) (field : ScanReturnField)
    (calls : List NextCall) (t : Tree) : Option (List (Option (Nat × Nat) × List UInt8)) :=
  match scanRun rounds startKey limit field calls t with
  | some (.ok (rs, _), _) => some rs
  | _ => none

theorem scanned_eq_some {rounds : List Round} {startKey : Key} {limit : ScanLimit}
    {field : ScanReturnField} {calls : List NextCall} {t : Tree}
    {rs : List (Option (Nat × Nat) × List UInt8)}
    (h : scanned rounds startKey limit field calls t = some rs) :
    ∃ it t', scanRun rounds startKey limit field calls t = some (.ok (rs, it), t') := by
  unfold scanned at h
  split at h
  · next rs' it t' hrun =>
    cases h
    exact ⟨it, t', hrun⟩
  · cases h

/-- Three calls on a tree with two records. -/
theorem Reachable.scan_contract_two_records : ∃ t R rs it t', Reachable Config.default t ∧
    Enumerates ((ScanLimit.count 5).Covers [1]) t.lookup R ∧
    scanRun [⟨calm, []⟩] [1] (.count 5) .key (.replicate 3 ⟨2, [], [0, 0]⟩) t =
      some (.ok (rs, it), t') ∧
    rs.map yielded = [some ((2, 0), [1, 2]), some ((2, 0), [2, 2]), none] ∧
    Yields .key (R.take 5) rs ∧ it.scanCnt + 2 ≤ 5 := by
  obtain ⟨t₀, t, done, hnew, hrun, hscan⟩ := fromNew_eq_some
    (by decide +kernel : fromNew Config.default 0 sampleAttempts (fun _ t =>
      scanned [⟨calm, []⟩] [1] (.count 5) .key (.replicate 3 ⟨2, [], [0, 0]⟩) t) =
      some (some [(some (2, 0), [1, 2]), (some (2, 0), [2, 2]), (none, [0, 0])]))
  have h : Reachable Config.default t := .attempts _ (.new hnew) (by decide +kernel) hrun
  obtain ⟨it, t', hrun'⟩ := scanned_eq_some hscan
  obtain ⟨R, hR, hall, -⟩ := h.scan_contract [⟨calm, []⟩] [1] (.count 5) .key
  obtain ⟨hy, -, hcnt⟩ := hall _ _ it t' hrun'
  exact ⟨t, R, _, it, t', h, hR, hrun', by decide, hy, hcnt (.inl ⟨5, rfl⟩)⟩

end Tree

end BfTree
