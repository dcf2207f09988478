import BfTree.Nodes.PageLayout
import BfTree.Nodes.RebuildSpec

/-!
# BfTree.Nodes.PageRebuild — consolidation and reads of a page as bytes

The full keys of a page are read from its low fence and its slots, so the records a
consolidation reads out, and with them the page it writes, are those of the image.
-/

namespace BfTree

open Lib PackedMeta

namespace Image

variable {page : LeafPage} {p : LeafNode} {fences : List PackedMeta}
  {recs : List (PackedMeta × LeafKVMeta)} {e : PackedMeta × LeafKVMeta}

/-! ## Keys and fences -/

section

variable (h : Image page p fences recs)
include h

theorem getPrefix (hw : p.WF) : page.getPrefix = p.getPrefix := by
  rw [LeafPage.getPrefix, LeafNode.getPrefix, h.prefixLen]
  by_cases hnil : p.lowFence = []
  · rw [hw.prefixLen_eq, hnil, commonPrefixLen_nil_left]
    rfl
  · have hf : p.hasFence = true := by
      cases hf : p.hasFence with
      | true => rfl
      | false => exact absurd (hw.no_fence hf).1 hnil
    have hle : p.prefixLen ≤ p.lowFence.length := hw.prefixLen_eq ▸ commonPrefixLen_le _ _
    have hread : page.data.read (page.getKvMeta lowFenceIdx).offset.toNat p.lowFence.length =
        p.lowFence := (h.chunk_read (h.lowFence_chunk hf hnil)).1
    conv_rhs => rw [← hread, Memory.take_read hle]

theorem getFullKey (hw : p.WF) (he : e ∈ recs) : page.getFullKey e.1 = p.getFullKey e.2 := by
  rw [LeafPage.getFullKey, LeafNode.getFullKey, h.getPrefix hw, h.getRemainingKey he]

theorem getLowFenceKey (hf : p.hasFence = true) : page.getLowFenceKey = p.lowFence := by
  rw [LeafPage.getLowFenceKey, h.isInfiniteLowFenceKey hf]
  by_cases hnil : p.lowFence = []
  · rw [if_pos (decide_eq_true hnil), hnil]
  · rw [if_neg (by simpa using hnil)]
    have hslot := (h.fence_cases hf).2.1
    rw [FenceSlot, if_neg hnil] at hslot
    rw [hslot]
    exact (h.chunk_read (h.lowFence_chunk hf hnil)).1

theorem getHighFenceKey (hw : p.WF) (hf : p.hasFence = true) : page.getHighFenceKey = p.highFence := by
  rw [LeafPage.getHighFenceKey, h.isInfiniteHighFenceKey hf]
  by_cases hnil : p.highFence = []
  · rw [if_pos (decide_eq_true hnil), hnil]
  · rw [if_neg (by simpa using hnil)]
    have hslot := (h.fence_cases hf).2.2
    rw [FenceSlot, if_neg hnil] at hslot
    have hle : p.prefixLen ≤ p.highFence.length := hw.prefixLen_eq ▸ commonPrefixLen_le_right _ _
    have hlen : ((page.getKvMeta highFenceIdx).getKeyLen - page.prefixLen).toNat =
        (p.highFence.drop p.prefixLen).length := by
      rw [UInt16.toNat_sub_of_le, hslot, h.prefixLen, List.length_drop]
      rwa [UInt16.le_iff_toNat_le, hslot, h.prefixLen]
    rw [LeafPage.getFullKey, h.getPrefix hw, LeafPage.getRemainingKey, hlen]
    have hread := (h.chunk_read (h.highFence_chunk hf hnil)).1
    dsimp only at hread
    rw [hread, LeafNode.getPrefix, hw.prefixLen_eq, take_commonPrefixLen, List.take_append_drop]

theorem metaIter : page.metaIter = recs.map Prod.fst := by
  rw [LeafPage.metaIter, h.firstMetaPosAfterFence, h.metaCountWithFence, Nat.add_sub_cancel_left]
  refine List.ext_getElem (by simp) fun i hi hi' => ?_
  have hlt : i < recs.length := by simpa using hi
  simp only [List.getElem_map, List.getElem_range']
  rw [Nat.one_mul, h.getKvMeta (List.getElem?_eq_getElem hlt)]

theorem consolidatePairs (hw : p.WF) (op : OpType) (skip : Bool) (skipKey : Option Key) :
    page.consolidatePairs op skip skipKey = p.consolidatePairs op skip skipKey := by
  rw [LeafPage.consolidatePairs, LeafNode.consolidatePairs, h.metaIter, h.metas, List.filterMap_map,
    List.filterMap_map]
  refine List.filterMap_congr fun e he => ?_
  simp only [Function.comp_apply, (h.described e he).opType, h.getFullKey hw he, h.getValue he]

end

/-! ## Rebuilding -/

/-- Lengths that a page can take. -/
def PairsFit (pairs : List (Key × Value × OpType)) : Prop :=
  ∀ e ∈ pairs, e.1.length ≤ maxKeyLen ∧ e.2.1.length ≤ maxValueLen

/-- Lengths that a slot can hold. -/
def ShortPairs (pairs : List (Key × Value × OpType)) : Prop :=
  ∀ e ∈ pairs, e.1.length < 16384 ∧ e.2.1.length < 32768

theorem PairsFit.short {pairs : List (Key × Value × OpType)} (h : PairsFit pairs) : ShortPairs pairs := by
  intro e he
  obtain ⟨hkey, hvalue⟩ := h e he
  rw [maxKeyLen] at hkey
  rw [maxValueLen] at hvalue
  omega

theorem insertAll_of_short {pairs : List (Key × Value × OpType)} {maxFenceLen : Nat}
    (hfence : maxFenceLen / 2 ≤ maxKeyLen) :
    ∀ {page : LeafPage} {p : LeafNode} {recs : List (PackedMeta × LeafKVMeta)},
      Image page p fences recs → ShortPairs pairs →
      Option.Rel (fun page' p' => ∃ recs, Image page' p' fences recs) (page.insertAll maxFenceLen pairs)
        (p.insertAll maxFenceLen pairs) := by
  induction pairs with
  | nil => exact fun h _ => .some ⟨_, h⟩
  | cons e pairs ih =>
    obtain ⟨key, value, op⟩ := e
    intro page p recs h hfit
    obtain ⟨hkey, hvalue⟩ := hfit _ List.mem_cons_self
    rw [LeafPage.insertAll, LeafNode.insertAll]
    obtain ⟨hpage, hp⟩ | ⟨ok, page', p', recs', hpage, hp, himage⟩ :=
      (h.insert_of_lt op hkey hvalue hfence).cases
    · rw [hpage, hp]
      exact .none
    · rw [hpage, hp]
      cases ok with
      | true => exact ih himage fun e he => hfit e (List.mem_cons_of_mem _ he)
      | false => exact .none

theorem insertAll {pairs : List (Key × Value × OpType)} {maxFenceLen : Nat}
    (hfence : maxFenceLen / 2 ≤ maxKeyLen) (h : Image page p fences recs) (hfit : PairsFit pairs) :
    Option.Rel (fun page' p' => ∃ recs, Image page' p' fences recs) (page.insertAll maxFenceLen pairs)
      (p.insertAll maxFenceLen pairs) :=
  insertAll_of_short hfence h hfit.short

section

variable (h : Image page p fences recs)
include h

theorem length_lowFence (hf : p.hasFence = true) : p.lowFence.length < 16384 := by
  have hslot := (h.fence_cases hf).2.1
  rw [FenceSlot] at hslot
  split at hslot
  · next hnil => rw [hnil]; decide
  · rw [← hslot, toNat_getKeyLen]
    omega

theorem length_highFence (hf : p.hasFence = true) : p.highFence.length < 16384 := by
  have hslot := (h.fence_cases hf).2.2
  rw [FenceSlot] at hslot
  split at hslot
  · next hnil => rw [hnil]; decide
  · rw [← hslot, toNat_getKeyLen]
    omega

variable {op : OpType} {newHigh : Option Key} {skip c : Bool} {skipKey : Option Key} {version : UInt64}

/-- A consolidation first makes a new page between the fences it is given. -/
theorem consolidateInner_eq (hw : p.WF) :
    page.consolidateInner op newHigh skip c skipKey version =
      (page.initializePage (if p.hasFence then p.lowFence else [])
        (if p.hasFence then newHigh.getD p.highFence else []) p.nodeSize p.nextLevel p.hasFence c
          version).bind (·.insertAll 0 (p.consolidatePairs op skip skipKey)) := by
  rw [LeafPage.consolidateInner, h.consolidatePairs hw, h.hasFence, h.nodeSize, h.nextLevel]
  cases hf : p.hasFence with
  | true =>
    rw [h.getLowFenceKey hf, h.getHighFenceKey hw hf]
    rfl
  | false => rfl

theorem length_newHigh (hhigh : ∀ k, newHigh = some k → k.length < 16384) (hf : p.hasFence = true) :
    (newHigh.getD p.highFence).length < 16384 := by
  cases newHigh with
  | none => exact h.length_highFence hf
  | some k => exact hhigh k rfl

/-- **A consolidation does the same to the bytes as to the records**, if its fences fit. -/
theorem consolidateInner_of_fits (hw : p.WF) (hfit : PairsFit (p.consolidatePairs op skip skipKey))
    (hhigh : ∀ k, newHigh = some k → k.length < 16384)
    (hroom : p.hasFence = true →
      LeafPage.FencesFit p.lowFence (newHigh.getD p.highFence) p.nodeSize) (v : Nat) :
    ∃ fences', Option.Rel (fun page' p' => ∃ recs, Image page' p' fences' recs)
      (page.consolidateInner op newHigh skip c skipKey version)
      (p.consolidateInner op newHigh skip c skipKey v) := by
  rw [h.consolidateInner_eq hw, LeafNode.consolidateInner]
  cases hf : p.hasFence with
  | true =>
    obtain ⟨page', fences', heq, himage⟩ := page.initializePage_of_fits p.nextLevel version (c := c)
      h.nodeSize_le (h.length_lowFence hf) (h.length_newHigh hhigh hf) (hroom hf) v
    refine ⟨fences', ?_⟩
    simp only [if_true, heq, Option.bind_some]
    exact insertAll (Nat.zero_le _) himage hfit
  | false =>
    have himage := page.image_blank (c := c) p.nextLevel version h.nodeSize_le v
    exact ⟨[], insertAll (Nat.zero_le _) himage hfit⟩

/-- A consolidation whose fences do not fit panics. -/
theorem fits_of_consolidateInner (hw : p.WF) (hhigh : ∀ k, newHigh = some k → k.length < 16384)
    {page' : LeafPage} (hres : page.consolidateInner op newHigh skip c skipKey version = some page')
    (hf : p.hasFence = true) : LeafPage.FencesFit p.lowFence (newHigh.getD p.highFence) p.nodeSize := by
  rw [h.consolidateInner_eq hw, hf] at hres
  obtain ⟨page₁, hinit, -⟩ := Option.bind_eq_some_iff.1 hres
  exact page.initializePage_fits p.nextLevel version h.nodeSize_le (h.length_lowFence hf)
    (h.length_newHigh hhigh hf) hinit

/-! ## Read -/

theorem readByKey (key : Key) (buf : List UInt8) :
    Option.Rel (fun x y => x.1 = y.1 ∧ x.2.1 = y.2.1 ∧ ∃ recs, Image x.2.2 y.2.2 fences recs)
      (page.readByKey key buf) (p.readByKey key buf) := by
  simp only [LeafPage.readByKey, LeafNode.readByKey, LeafNode.readByKeyInner, LeafNode.searchPos,
    if_true, h.lowerBound, Option.bind_eq_bind]
  cases hlb : p.lowerBound key with
  | none => exact .none
  | some pos =>
    simp only [Option.map_some, Option.bind_some]
    have hpos : pos ≤ recs.length := h.length_metas ▸ LeafNode.lowerBound_le hlb
    by_cases hlt : pos < recs.length
    · have hget : recs[pos]? = some recs[pos] := List.getElem?_eq_getElem hlt
      have hmem : recs[pos] ∈ recs := List.getElem_mem hlt
      have hmark : Image (page.writeInitialKvMeta (fences.length + pos) recs[pos].1.markAsRef)
          (p.setMeta pos { recs[pos].2 with referenced := true }) fences
          (recs.take pos ++ (recs[pos].1.markAsRef, { recs[pos].2 with referenced := true }) ::
            recs.drop (pos + 1)) := by
        have hsplit : recs.take pos ++ recs[pos] :: recs.drop (pos + 1) = recs := by simp
        have htake : (recs.take pos).length = pos := by rw [List.length_take, min_eq_left hpos]
        have hmid := h
        rw [← hsplit] at hmid
        have hset := hmid.setMeta (h.described _ hmem).markAsRef rfl
        rwa [htake] at hset
      rw [if_neg (by rw [h.metaCountWithFence]; omega), h.getKvMeta hget, h.getRemainingKey hmem,
        h.prefixLen, h.getElem?_metas, hget, (h.described _ hmem).opType, h.getValue hmem,
        (h.described _ hmem).valueLen]
      simp only [Option.map_some]
      split
      · split
        · exact .some ⟨rfl, rfl, _, hmark⟩
        · cases LeafNode.copyFromSlice buf recs[pos].2.value with
          | none => exact .none
          | some out => exact .some ⟨rfl, rfl, _, hmark⟩
      · exact .some ⟨rfl, rfl, _, hmark⟩
    · rw [if_pos (by rw [h.metaCountWithFence]; omega), h.getElem?_metas,
        List.getElem?_eq_none (by omega)]
      exact .some ⟨rfl, rfl, _, h⟩

end

end Image

end BfTree
