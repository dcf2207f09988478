import BfTree.SizeClasses
import BfTree.Nodes.Reads

/-!
# Growth of mini pages

A mini page that refuses a record moves to a larger size class and takes it there. The
class is chosen by the size of the old page, not by its records, so that the copy and the
record always fit: also a record whose key is in the page and that leaves its old bytes
behind.
-/

namespace BfTree

open Lib

namespace LeafNode

variable {p q : LeafNode} {front : List Nat} {maxMini leaf incoming size : Nat} {cacheOnly : Bool}

/-! ## The new size -/

/-- The new class has room for the old page and the record. -/
theorem newSizeIfUpgrade_spec
    (h : p.newSizeIfUpgrade incoming (front ++ [maxMini, leaf]) cacheOnly = some (some size)) :
    size ∈ front ++ [maxMini, leaf] ∧ p.nodeSize + incoming ≤ size := by
  simp only [newSizeIfUpgrade, dropLast_classes, getLast?_classes] at h
  split at h
  · next s hs =>
    split at h
    · cases h
    · obtain rfl : s = size := Option.some.inj (Option.some.inj h)
      have hfound := List.find?_some hs
      refine ⟨?_, Nat.le_of_lt (of_decide_eq_true hfound)⟩
      rw [show front ++ [maxMini, leaf] = (front ++ [maxMini]) ++ [leaf] by simp]
      exact List.mem_append_left _ (List.mem_of_find?_eq_some hs)
  · split at h
    · next hle =>
      obtain rfl : leaf = size := Option.some.inj (Option.some.inj h)
      exact ⟨by simp, hle.2⟩
    · cases h

/-- The smallest class is never the answer for a page that has a class. -/
theorem newSizeIfUpgrade_isSome (hsorted : (front ++ [maxMini, leaf]).Pairwise (· < ·))
    (hmem : p.nodeSize ∈ front ++ [maxMini, leaf]) :
    ∃ r, p.newSizeIfUpgrade incoming (front ++ [maxMini, leaf]) cacheOnly = some r := by
  simp only [newSizeIfUpgrade, dropLast_classes, getLast?_classes]
  split
  · next s hs =>
    have hfound := List.find?_some hs
    have hlt : p.nodeSize + incoming < s := of_decide_eq_true hfound
    split
    · next hhead =>
      exfalso
      obtain ⟨rest, hrest⟩ : ∃ rest, front ++ [maxMini, leaf] = s :: rest := by
        cases hc : front ++ [maxMini, leaf] with
        | nil => rw [hc] at hhead; cases hhead
        | cons a rest =>
          rw [hc, List.head?_cons, Option.some.injEq] at hhead
          exact ⟨rest, by rw [hhead]⟩
      rw [hrest] at hsorted hmem
      rcases List.mem_cons.1 hmem with heq | hmem
      · omega
      · have := (List.pairwise_cons.1 hsorted).1 _ hmem
        omega
    · exact ⟨_, rfl⟩
  · split <;> exact ⟨_, rfl⟩

/-- In cache-only mode only the largest pages cannot grow: the largest class below them
leaves room for any record. -/
theorem nodeSize_of_newSizeIfUpgrade_none (hsorted : (front ++ [maxMini, leaf]).Pairwise (· < ·))
    (hmem : p.nodeSize ∈ front ++ [maxMini, leaf]) (hgap : maxMini + incoming ≤ leaf)
    (h : p.newSizeIfUpgrade incoming (front ++ [maxMini, leaf]) true = some none) :
    p.nodeSize = leaf := by
  have hfront : ∀ s ∈ front, s < maxMini := fun s hs =>
    (List.pairwise_append.1 hsorted).2.2 s hs maxMini (by simp)
  simp only [newSizeIfUpgrade, dropLast_classes, getLast?_classes] at h
  split at h
  · split at h <;> cases h
  · split at h
    · cases h
    · next hno =>
      rcases List.mem_append.1 hmem with hmem | hmem
      · have := hfront _ hmem
        exact absurd ⟨trivial, by omega⟩ hno
      · rcases List.mem_cons.1 hmem with heq | hmem
        · exact absurd ⟨trivial, by omega⟩ hno
        · exact List.mem_singleton.1 hmem

/-! ## The copy -/

/-- A record that a move leaves behind. -/
def Cold (m : LeafKVMeta) : Prop := m.opType.isCache = true ∧ m.referenced = false

/-- The copy succeeds, keeps all but cold records, and has as much more room as the new
page is larger. -/
theorem copyInitializeTo_of_fits (h : p.WF) (hf : p.hasFence = false) (hbase : p.isBasePage = false)
    (hfits : p.Fits) (hle : p.nodeSize ≤ size) (discard : Bool) (version : Nat) :
    ∃ q, p.copyInitializeTo size discard version = some q ∧ q.WF ∧ q.hasFence = false ∧
      q.isBasePage = false ∧ size - p.nodeSize ≤ q.remainingSize ∧
      ∀ k, q.entry k = p.entry k ∨
        q.entry k = none ∧ ∃ m ∈ p.metas, p.getFullKey m = k ∧ Cold m := by
  have hempty := h.no_fence hf
  have hkey : ∀ m, p.getFullKey m = m.remainingKey := by
    intro m
    rw [getFullKey, getPrefix, hempty.1, List.take_nil, List.nil_append]
  have hcov : ∀ k, (initializeNode [] [] size p.nextLevel false p.isCacheOnlyLeaf version).Covers k :=
    inRange_nil_nil
  have hfresh : (initializeNode [] [] size p.nextLevel false p.isCacheOnlyLeaf version).isBasePage
      = false := by
    simpa [isBasePage] using hbase
  have hg : ∀ m e, (if (discard && m.opType.isCache && !m.referenced) = true then none
      else some (p.getFullKey m, m.value, m.opType)) = some e →
      e = (p.getFullKey m, m.value, m.opType) := by
    intro m e he
    split at he
    · cases he
    · exact (Option.some.inj he).symm
  have hused : p.used ≤ p.nodeSize - leafHeaderSize := by
    have hspace := hfits.space
    rw [capacity, hf] at hspace
    exact (Nat.le_add_left _ _).trans hspace
  obtain ⟨q, hq, hleft⟩ := rebuild_of_room h (List.Sublist.refl _) _ (fun m e he => by rw [hg m e he])
    (wf_initializeNode [] [] size p.nextLevel false p.isCacheOnlyLeaf version)
    (initializeNode_metas ..) (fun m _ => hcov _) storedSize
    (fun m e he => by
      rw [hg m e he, pairCost, if_neg (by simp [hfresh]), storedSize, hkey m, List.length_drop]
      dsimp only
      omega)
    (hused.trans (Nat.sub_le_sub_right hle _))
  have hcopy : p.copyInitializeTo size discard version = some q := by
    rw [copyInitializeTo, if_neg (by simp [hbase, hle])]
    exact hq
  obtain ⟨hw, hh, he⟩ := rebuild_spec h (List.Sublist.refl _) _ (fun m e he => by rw [hg m e he])
    (wf_initializeNode ..) (initializeNode_metas ..) (fun m _ => hcov _) hq
  have hfree : (initializeNode [] [] size p.nextLevel false p.isCacheOnlyLeaf version).remainingSize =
      size - leafHeaderSize := rfl
  have hheader := hfits.header_le
  refine ⟨q, hcopy, hw, by rw [hh.hasFence]; rfl, by rw [hh.isBasePage, hfresh], ?_, fun k => ?_⟩
  · rw [hfree] at hleft
    change _ ≤ q.remainingSize + p.used at hleft
    omega
  · rw [he k, hfresh, entry]
    cases hm : findKey p.getFullKey p.metas k with
    | none => exact .inl rfl
    | some m =>
      obtain ⟨hmem, hk⟩ := findKey_some hm
      by_cases hcold : (discard && m.opType.isCache && !m.referenced) = true
      · refine .inr ⟨by rw [Option.bind_some, if_pos hcold]; rfl, m, hmem, hk, ?_⟩
        simp only [Bool.and_eq_true, Bool.not_eq_true'] at hcold
        exact ⟨hcold.1.2, hcold.2⟩
      · left
        rw [Option.bind_some, if_neg hcold]
        simp [insertEntry]

/-! ## Growth -/

/-- A mini page without room for a record moves to a larger class and takes the record there.
Other keys read as before, but for cold cached records. In cache-only mode a page that has
no larger class is as large as a leaf page. -/
theorem growth_keeps_records {c : Config} {classes : List Nat} (hc : c.validate = some (.ok ()))
    (hclasses : c.createMemPageSizeClasses = some classes) {key : Key} {value : Value} {op : OpType}
    (hrec : key.length + value.length ≤ c.cbMaxRecordSize) (h : p.WF) (hf : p.hasFence = false)
    (hbase : p.isBasePage = false) (hfits : p.Fits) (hmem : p.nodeSize ∈ classes)
    (hcache : op = .cache → p.entry key = none) :
    (∃ r, p.newSizeIfUpgrade (key.length + value.length + kvMetaSize) classes c.cacheOnly = some r) ∧
      (∀ s, p.newSizeIfUpgrade (key.length + value.length + kvMetaSize) classes c.cacheOnly =
          some (some s) →
        s ∈ classes ∧ p.nodeSize < s ∧
        ∀ version, ∃ q q', p.copyInitializeTo s true version = some q ∧
          q.insert key value op 0 = some (true, q') ∧ q'.Reads key (live (some (op, value))) ∧
          ∀ k w, k ≠ key → p.Reads k w →
            q'.Reads k w ∨
              q'.Reads k none ∧ ∃ m ∈ p.metas, p.getFullKey m = k ∧ m.opType = .cache ∧
                m.referenced = false) ∧
      (c.cacheOnly = true →
        p.newSizeIfUpgrade (key.length + value.length + kvMetaSize) classes c.cacheOnly = some none →
        p.nodeSize = c.leafPageSize) := by
  obtain ⟨maxMini, front, hmini, rfl⟩ := Config.classes_eq_append hc hclasses
  obtain ⟨hsorted, -⟩ := Config.createMemPageSizeClasses_spec hclasses
  have hslot : 0 < kvMetaSize := by decide
  refine ⟨newSizeIfUpgrade_isSome hsorted hmem, fun s hs => ?_, fun honly hs => ?_⟩
  · obtain ⟨hsmem, hroom⟩ := newSizeIfUpgrade_spec hs
    refine ⟨hsmem, by omega, fun version => ?_⟩
    obtain ⟨q, hq, hqw, hqf, hqb, hfree, hentry⟩ :=
      copyInitializeTo_of_fits h hf hbase hfits (by omega : p.nodeSize ≤ s) true version
    have hcov : ∀ {r : LeafNode}, r.WF → r.hasFence = false → ∀ k, r.Covers k := by
      intro r hr hrf k
      rw [Covers, (hr.no_fence hrf).1, (hr.no_fence hrf).2]
      exact inRange_nil_nil k
    obtain ⟨q', hq', -⟩ := insert_of_room hqw (hcov hqw hqf key)
      (fun hop => by
        obtain hsame | ⟨hnone, -⟩ := hentry key
        · rw [hsame, hcache hop]
        · exact hnone)
      (by
        rw [pairCost, if_neg (by simp [hqb]), List.length_drop]
        dsimp only
        omega : q.pairCost (key, value, op) ≤ q.remainingSize)
    obtain ⟨hw', hh', -, he'⟩ := insert_spec hqw (hcov hqw hqf key) hq'
    have hqf' : q'.hasFence = false := by rw [hh'.hasFence, hqf]
    refine ⟨q, q', hq, hq', ?_, fun k w hk hread => ?_⟩
    · have hreads := reads_entry hw' (hcov hw' hqf' key)
      rwa [he' rfl, if_pos rfl, hqb, live_insertEntry] at hreads
    · have hreads := reads_entry hw' (hcov hw' hqf' k)
      rw [he' rfl, if_neg hk] at hreads
      rw [hread.eq_entry h (hcov h hf k)]
      obtain hsame | ⟨hnone, m, hm, hkey, hcold⟩ := hentry k
      · exact .inl (hsame ▸ hreads)
      · rw [hnone] at hreads
        have hpk : p.entry k = some (m.opType, m.value) := (entry_eq_some h).2 ⟨m, hm, hkey, rfl, rfl⟩
        cases hop : m.opType with
        | cache => exact .inr ⟨hreads, m, hm, hkey, hop, hcold.2⟩
        | phantom =>
          left
          rw [hpk, hop]
          exact hreads
        | insert => rw [Cold, hop] at hcold; cases hcold.1
        | delete => rw [Cold, hop] at hcold; cases hcold.1
  · rw [honly] at hs
    obtain ⟨hres, hmax⟩ := Config.maxMiniPageSize_eq_some hmini
    have hround := Nat.div_mul_le_self (c.leafPageSize - c.reserved) cacheLineSize
    have hreserved : c.reserved = c.cbMaxRecordSize + kvMetaSize := by
      rw [Config.reserved, if_pos honly]
      rfl
    exact nodeSize_of_newSizeIfUpgrade_none hsorted hmem (by omega) hs

theorem growth_keeps_records_oneRecord :
    oneRecord.insert [5] (List.replicate 12 6) .insert 0 = some (false, oneRecord) ∧
      ∃ q q', oneRecord.copyInitializeTo 128 true 1 = some q ∧
        q.insert [5] (List.replicate 12 6) .insert 0 = some (true, q') ∧
        q'.Reads [5] (some (List.replicate 12 6)) := by
  have hclasses : Config.default.createMemPageSizeClasses =
      some [64, 128, 256, 448, 832, 1600, 2048, 4096] := by decide
  have hrec : ([5] : Key).length + (List.replicate 12 6 : Value).length ≤
      Config.default.cbMaxRecordSize := by decide
  have hcache : OpType.insert = .cache → oneRecord.entry [5] = none := nofun
  have hgrow := (growth_keeps_records (by decide) hclasses hrec oneRecord_wf rfl (by decide)
    ⟨by decide, by decide, by decide⟩ (by decide) hcache).2.1 128 (by decide)
  obtain ⟨q, q', hq, hq', hread, -⟩ := hgrow.2.2 1
  exact ⟨by decide, q, q', hq, hq', hread⟩

end LeafNode

end BfTree
