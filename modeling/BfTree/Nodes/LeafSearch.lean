import BfTree.Nodes.SortedMap

/-!
# BfTree.Nodes.LeafSearch — the searches of a leaf page

`lower_bound` halves the slots behind the fences and `linear_lower_bound` walks along them.
Both compare two preview bytes of the stored part of a key first and the whole stored part
only on a tie. On a page whose slots are sorted, and whose keys omit no more than what the
fences share, a slot compares with a key as the full keys do, and both searches find the
first slot that is not below the key.
-/

namespace BfTree

open Lib PackedMeta

/-- Cutting a part that the fences share loses nothing on a key between them. -/
theorem take_append_drop_of_le {low high k : Key} {n : Nat} (h : InRange low high k)
    (hn : n ≤ commonPrefixLen low high) : low.take n ++ k.drop n = k ∧ n ≤ k.length := by
  obtain ⟨hk, hlen⟩ := take_append_drop_of_inRange h
  have hle : n ≤ (low.take (commonPrefixLen low high)).length := by
    rw [List.length_take, min_eq_left (commonPrefixLen_le low high)]
    exact hn
  have htake : k.take n = low.take n := by
    rw [← hk, List.take_append_of_le_length hle, List.take_take, min_eq_left hn]
  exact ⟨by rw [← htake, List.take_append_drop], hn.trans hlen⟩

namespace LeafPage

/-- The index is that of a record. -/
def IsRecord (page : LeafPage) (i : Nat) : Prop :=
  page.firstMetaPosAfterFence ≤ i ∧ i < page.metaCountWithFence

/-- The full key of slot `i`. -/
def keyAt (page : LeafPage) (i : Nat) : Key := page.getFullKey (page.getKvMeta i)

/-- What the searches rely on: the part of the keys that is not stored belongs to both fences,
every slot has the preview of the stored part it points to, and the keys are strictly sorted. -/
structure Searchable (page : LeafPage) : Prop where
  first_le : page.firstMetaPosAfterFence ≤ page.metaCountWithFence
  prefixLen_le : page.prefixLen.toNat ≤
    if page.hasFence then commonPrefixLen page.getLowFenceKey page.getHighFenceKey else 0
  prefixLen_le_keyLen : ∀ i, page.IsRecord i → page.prefixLen ≤ (page.getKvMeta i).getKeyLen
  preview : ∀ i, page.IsRecord i →
    (page.getKvMeta i).previewBytes = previewOf (page.getRemainingKey (page.getKvMeta i))
  sorted : ∀ i j, page.IsRecord i → page.IsRecord j → i < j → page.keyAt i < page.keyAt j

/-- Slot `i` is the first record whose key is not below `key`, or the end of the slots. -/
structure IsLowerBound (page : LeafPage) (key : Key) (i : Nat) : Prop where
  first_le : page.firstMetaPosAfterFence ≤ i
  le_count : i ≤ page.metaCountWithFence
  below : ∀ j, page.firstMetaPosAfterFence ≤ j → j < i → page.keyAt j < key
  reached : i < page.metaCountWithFence → key ≤ page.keyAt i

theorem IsLowerBound.le {page : LeafPage} {key : Key} {i j : Nat} (hi : page.IsLowerBound key i)
    (hj : page.IsLowerBound key j) : i ≤ j := by
  by_contra hlt
  have hlt : j < i := not_le.1 hlt
  exact absurd (hi.below j hj.first_le hlt) (not_lt.2 (hj.reached (hlt.trans_le hi.le_count)))

theorem IsLowerBound.unique {page : LeafPage} {key : Key} {i j : Nat}
    (hi : page.IsLowerBound key i) (hj : page.IsLowerBound key j) : i = j :=
  le_antisymm (hi.le hj) (hj.le hi)

namespace Searchable

variable {page : LeafPage} (h : page.Searchable) {key : Key}
include h

/-- The common part is the beginning of every key inside the fences. -/
theorem getPrefix_append_drop (hk : page.Covers key) :
    page.getPrefix ++ key.drop page.prefixLen.toNat = key ∧ page.prefixLen.toNat ≤ key.length := by
  have hle := h.prefixLen_le
  cases hf : page.hasFence with
  | false =>
    rw [hf] at hle
    have hzero : page.prefixLen.toNat = 0 := Nat.le_zero.1 hle
    rw [getPrefix, hzero]
    exact ⟨rfl, Nat.zero_le _⟩
  | true =>
    rw [if_pos hf] at hle
    have hlow : page.getPrefix = page.getLowFenceKey.take page.prefixLen.toNat := by
      have hlen := hle.trans (commonPrefixLen_le _ _)
      simp only [getPrefix, getLowFenceKey] at hlen ⊢
      split at hlen
      · next hinf =>
        rw [if_pos hinf, Nat.le_zero.1 hlen]
        rfl
      · next hinf =>
        rw [if_neg hinf]
        rw [Memory.length_read] at hlen
        exact (Memory.take_read hlen).symm
    rw [hlow]
    exact take_append_drop_of_le (hk hf) hle

/-- **The preview never changes the outcome**: a slot compares with a key inside the fences as
its full key does. -/
theorem keyCmp_getKvMeta (hk : page.Covers key) {i : Nat} (hi : page.IsRecord i) :
    page.keyCmp (page.getKvMeta i) key = lexCmp (page.keyAt i) key := by
  have hlen : (page.getKvMeta i).getKeyLen.toNat - page.prefixLen.toNat =
      (page.getRemainingKey (page.getKvMeta i)).length := by
    rw [getRemainingKey, Memory.length_read, UInt16.toNat_sub_of_le _ _ (h.prefixLen_le_keyLen i hi)]
  have hsuffix : ∀ suffix : Key,
      suffix.take (min suffix.length previewSize) = suffix.take previewSize := by
    intro suffix
    rw [Nat.min_comm, ← List.take_take, List.take_length]
  rw [keyCmp, h.preview i hi, hlen, LeafNode.take_previewOf, hsuffix,
    lexCmp_take_then previewSize _ _ _ (.inl rfl), ← lexCmp_append_append page.getPrefix,
    (h.getPrefix_append_drop hk).1]
  rfl

theorem strictTest (hk : page.Covers key) :
    StrictTest (fun i => page.keyCmp (page.getKvMeta i) key) page.firstMetaPosAfterFence
      page.metaCountWithFence := by
  intro i j hi hij hj hng
  have hreci : page.IsRecord i := ⟨hi, hij.trans hj⟩
  have hrecj : page.IsRecord j := ⟨hi.trans hij.le, hj⟩
  dsimp only at hng ⊢
  rw [h.keyCmp_getKvMeta hk hrecj, ne_eq, lexCmp_eq_gt, not_lt] at hng
  rw [h.keyCmp_getKvMeta hk hreci, lexCmp_eq_lt]
  exact (h.sorted i j hreci hrecj hij).trans_le hng

theorem lowerBound_spec (hk : page.Covers key) :
    ∃ i, page.lowerBound key = some i ∧ page.IsLowerBound key i := by
  have hspec := binarySearch_spec h.first_le (h.strictTest hk)
  rw [lowerBound, if_neg (not_lt.2 (h.getPrefix_append_drop hk).2)]
  dsimp only
  cases hr : binarySearch (fun i => page.keyCmp (page.getKvMeta i) key)
      (page.metaCountWithFence - page.firstMetaPosAfterFence) page.firstMetaPosAfterFence
      page.metaCountWithFence with
  | ok i =>
    obtain ⟨hfirst, hlt, heq⟩ := hspec.ok i hr
    have hrec : page.IsRecord i := ⟨hfirst, hlt⟩
    rw [h.keyCmp_getKvMeta hk hrec, lexCmp_eq_eq] at heq
    refine ⟨i, rfl, hfirst, hlt.le, fun j hj hji => ?_, fun _ => heq.ge⟩
    exact (h.sorted j i ⟨hj, hji.trans hlt⟩ hrec hji).trans_eq heq
  | error i =>
    obtain ⟨hfirst, hle, hleft, hright⟩ := hspec.error i hr
    refine ⟨i, rfl, hfirst, hle, fun j hj hji => ?_, fun hlt => ?_⟩
    · have hlt := hleft j hj hji
      rwa [h.keyCmp_getKvMeta hk ⟨hj, hji.trans_le hle⟩, lexCmp_eq_lt] at hlt
    · have hgt := hright i le_rfl hlt
      rw [h.keyCmp_getKvMeta hk ⟨hfirst, hlt⟩, lexCmp_eq_gt] at hgt
      exact hgt.le

/-- The loop goes on from a slot that everything before is below the key of. -/
theorem linearFrom_spec (hk : page.Covers key) (fuel index : Nat)
    (hfuel : page.metaCountWithFence - index ≤ fuel)
    (hfirst : page.firstMetaPosAfterFence ≤ index) (hle : index ≤ page.metaCountWithFence)
    (hbelow : ∀ j, page.firstMetaPosAfterFence ≤ j → j < index → page.keyAt j < key) :
    ∃ i, page.linearFrom key fuel index = some i ∧ page.IsLowerBound key i := by
  induction fuel generalizing index with
  | zero => exact ⟨index, rfl, hfirst, hle, hbelow, fun hlt => by omega⟩
  | succ fuel ih =>
    rw [linearFrom]
    by_cases hlt : index < page.metaCountWithFence
    · have hcmp := h.keyCmp_getKvMeta hk ⟨hfirst, hlt⟩
      rw [if_pos hlt, if_neg (not_lt.2 (h.getPrefix_append_drop hk).2), hcmp]
      by_cases hkey : page.keyAt index < key
      · rw [if_neg (not_not.2 (lexCmp_eq_lt.2 hkey))]
        refine ih (index + 1) (by omega) (by omega) hlt fun j hj hji => ?_
        rcases Nat.lt_succ_iff_lt_or_eq.1 hji with hji | rfl
        · exact hbelow j hj hji
        · exact hkey
      · rw [if_pos (fun hc => hkey (lexCmp_eq_lt.1 hc))]
        exact ⟨index, rfl, hfirst, hle, hbelow, fun _ => not_lt.1 hkey⟩
    · rw [if_neg hlt]
      exact ⟨index, rfl, hfirst, hle, hbelow, fun hlt' => absurd hlt' hlt⟩

theorem linearLowerBound_spec (hk : page.Covers key) :
    ∃ i, page.linearLowerBound key = some i ∧ page.IsLowerBound key i :=
  h.linearFrom_spec hk _ _ le_rfl le_rfl h.first_le fun _ hj hji => absurd hji (not_lt.2 hj)

end Searchable

end LeafPage

/-! ## Pages that the calls lead to -/

theorem Image.isRecord {page : LeafPage} {p : LeafNode} {fences : List PackedMeta}
    {recs : List (PackedMeta × LeafKVMeta)} (h : Image page p fences recs) {i : Nat}
    (hi : page.IsRecord i) : ∃ n e, i = fences.length + n ∧ recs[n]? = some e ∧
      e ∈ recs ∧ page.getKvMeta i = e.1 := by
  obtain ⟨hfirst, hlt⟩ := hi
  rw [h.firstMetaPosAfterFence] at hfirst
  rw [h.metaCountWithFence] at hlt
  obtain ⟨n, rfl⟩ := Nat.exists_eq_add_of_le hfirst
  have hget : recs[n]? = some recs[n] := List.getElem?_eq_getElem (by omega)
  exact ⟨n, recs[n], rfl, hget, List.getElem_mem _, h.getKvMeta hget⟩

theorem Image.searchable {page : LeafPage} {p : LeafNode} {fences : List PackedMeta}
    {recs : List (PackedMeta × LeafKVMeta)} (h : Image page p fences recs) (hw : p.WF) :
    page.Searchable where
  first_le := by
    rw [h.firstMetaPosAfterFence, h.metaCountWithFence]
    exact Nat.le_add_right _ _
  prefixLen_le := by
    rw [h.prefixLen, h.hasFence, hw.prefixLen_eq]
    cases hf : p.hasFence with
    | true => rw [if_pos rfl, h.getLowFenceKey hf, h.getHighFenceKey hw hf]
    | false => simp [hw.no_fence hf]
  prefixLen_le_keyLen := by
    intro i hi
    obtain ⟨n, e, -, -, he, hslot⟩ := h.isRecord hi
    rw [hslot, UInt16.le_iff_toNat_le, (h.described e he).keyLen, h.prefixLen]
    exact Nat.le_add_right _ _
  preview := by
    intro i hi
    obtain ⟨n, e, -, -, he, hslot⟩ := h.isRecord hi
    rw [hslot, h.getRemainingKey he, (h.described e he).preview, e.2.preview_eq]
  sorted := by
    intro i j hi hj hij
    obtain ⟨n, e, rfl, hn, he, hslot⟩ := h.isRecord hi
    obtain ⟨m, e', rfl, hm, he', hslot'⟩ := h.isRecord hj
    rw [LeafPage.keyAt, LeafPage.keyAt, hslot, hslot', h.getFullKey hw he, h.getFullKey hw he']
    have hsorted := hw.sorted
    rw [h.metas, KeySorted, List.pairwise_map] at hsorted
    obtain ⟨hnlt, rfl⟩ := List.getElem?_eq_some_iff.1 hn
    obtain ⟨hmlt, rfl⟩ := List.getElem?_eq_some_iff.1 hm
    exact List.pairwise_iff_getElem.1 hsorted n m hnlt hmlt (by omega)

/-- Every page that accepted calls lead to can be searched. -/
theorem Reaches.searchable {C : LeafPage → PageCall → Prop} {page : LeafPage} {w : Written}
    (h : Reaches C page w) : page.Searchable := by
  obtain ⟨p, ⟨hgood, fences, recs, himage⟩, -⟩ := h.good
  exact himage.searchable hgood.wf

/-- **Leaf search is the lexicographic lower bound.** For a key inside the fences both searches
return the first record whose full key is not below it, or the number of slots if there is
none, and the comparison by previews decides every slot as the full keys do. -/
theorem LeafPage.Searchable.lower_bounds_agree {page : LeafPage} (h : page.Searchable) {key : Key}
    (hk : page.Covers key) :
    (∃ i, page.lowerBound key = some i ∧ page.linearLowerBound key = some i ∧
      page.IsLowerBound key i) ∧
    ∀ i, page.IsRecord i → page.keyCmp (page.getKvMeta i) key = lexCmp (page.keyAt i) key := by
  obtain ⟨i, hi, hspec⟩ := h.lowerBound_spec hk
  obtain ⟨j, hj, hspec'⟩ := h.linearLowerBound_spec hk
  obtain rfl := hspec.unique hspec'
  exact ⟨⟨i, hi, hj, hspec⟩, fun i hrec => h.keyCmp_getKvMeta hk hrec⟩

/-! ## A page with fences and a record -/

/-- A base page for the keys that begin with `1`, from `[1, 2]` up to `[1, 5]`. -/
def newFencedPage : LeafPage :=
  (zeroPage.initializePage [1, 2] [1, 5] 128 none true false 0).getD zeroPage

/-- The base page with a record under `[1, 3]`. -/
def fencedPage : LeafPage :=
  ((newFencedPage.insert [1, 3] [7] .insert 0).map Prod.snd).getD zeroPage

theorem initializePage_newFencedPage :
    zeroPage.initializePage [1, 2] [1, 5] 128 none true false 0 = some newFencedPage :=
  (Option.getD_of_ne_none (Option.isSome_iff_ne_none.1 (by decide +kernel)) _).symm

theorem insert_newFencedPage :
    newFencedPage.insert [1, 3] [7] .insert 0 = some (true, fencedPage) := by
  have hok : (newFencedPage.insert [1, 3] [7] .insert 0).map Prod.fst = some true := by
    decide +kernel
  obtain ⟨⟨ok, page⟩, heq, rfl⟩ := Option.map_eq_some_iff.1 hok
  rw [fencedPage, heq]
  rfl

theorem Reaches.fencedPage : ∃ w, Reaches (fun _ _ => True) fencedPage w := by
  have hins : (PageCall.insert [1, 3] [7] .insert 0).run newFencedPage =
      some (true, BfTree.fencedPage) := insert_newFencedPage
  refine ⟨_, .call (.fresh (by decide) (by decide) (by decide) (by decide)
    initializePage_newFencedPage) ?_ trivial hins⟩
  have hlow : newFencedPage.getLowFenceKey = [1, 2] := by decide +kernel
  have hhigh : newFencedPage.getHighFenceKey = [1, 5] := by decide +kernel
  refine ⟨fun _ => ?_, by decide, by decide, by decide, nofun⟩
  rw [hlow, hhigh]
  exact ⟨by decide, .inr (by decide)⟩

theorem LeafPage.Searchable.lower_bounds_agree_fenced :
    fencedPage.Covers [1, 3, 0] ∧ fencedPage.lowerBound [1, 3, 0] = some 3 ∧
      fencedPage.linearLowerBound [1, 3, 0] = some 3 ∧ fencedPage.IsLowerBound [1, 3, 0] 3 := by
  obtain ⟨w, hreaches⟩ := Reaches.fencedPage
  have hcovers : fencedPage.Covers [1, 3, 0] := by
    have hlow : fencedPage.getLowFenceKey = [1, 2] := by decide +kernel
    have hhigh : fencedPage.getHighFenceKey = [1, 5] := by decide +kernel
    intro _
    rw [hlow, hhigh]
    exact ⟨by decide, .inr (by decide)⟩
  obtain ⟨⟨i, hlower, hlinear, hi⟩, -⟩ := hreaches.searchable.lower_bounds_agree hcovers
  have hthree : fencedPage.lowerBound [1, 3, 0] = some 3 := by decide +kernel
  obtain rfl : i = 3 := Option.some.inj (hlower.symm.trans hthree)
  exact ⟨hcovers, hlower, hlinear, hi⟩

end BfTree
