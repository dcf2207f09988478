import BfTree.ScanSpec

/-!
# What a scan returns

The records that a scan has yet to return are those in the slots ahead of the cursor
and those of the leaves to its right. One step of the iterator takes the least of them.
-/

namespace BfTree

open Lib LeafNode

/-! ## Enumerations of a map -/

/-- The list holds the entries of the map whose keys satisfy `P`, in key order. -/
structure Enumerates (P : Key → Prop) (C : Key → Option Value) (R : List (Key × Value)) :
    Prop where
  sorted : KeySorted Prod.fst R
  mem : ∀ k v, (k, v) ∈ R ↔ P k ∧ C k = some v

namespace Enumerates

variable {P P' : Key → Prop} {C : Key → Option Value} {R : List (Key × Value)}

theorem congr (h : Enumerates P C R) (hP : ∀ k v, C k = some v → (P' k ↔ P k)) :
    Enumerates P' C R :=
  ⟨h.sorted, fun k v => (h.mem k v).trans
    ⟨fun hk => ⟨(hP k v hk.2).2 hk.1, hk.2⟩, fun hk => ⟨(hP k v hk.2).1 hk.1, hk.2⟩⟩⟩

theorem eq_nil (h : Enumerates P C R) (hP : ∀ k v, C k = some v → ¬ P k) : R = [] := by
  cases R with
  | nil => rfl
  | cons r R =>
    obtain ⟨hp, hc⟩ := (h.mem r.1 r.2).1 List.mem_cons_self
    exact absurd hp (hP r.1 r.2 hc)

/-- The least entry comes first. -/
theorem eq_cons (h : Enumerates P C R) {k : Key} {v : Value} (hk : P k) (hv : C k = some v)
    (hle : ∀ k' v', C k' = some v' → P k' → k ≤ k') :
    ∃ R', R = (k, v) :: R' ∧ Enumerates (fun k' => P k' ∧ k' ≠ k) C R' := by
  have hmem := (h.mem k v).2 ⟨hk, hv⟩
  cases R with
  | nil => cases hmem
  | cons r R =>
    obtain ⟨hlt, hsorted⟩ := keySorted_cons.1 h.sorted
    obtain ⟨hp, hc⟩ := (h.mem r.1 r.2).1 List.mem_cons_self
    have hr : (k, v) = r := by
      rcases List.mem_cons.1 hmem with he | hin
      · exact he
      · exact absurd (hlt _ hin) (not_lt.2 (hle r.1 r.2 hc hp))
    subst hr
    refine ⟨R, rfl, hsorted, fun k' v' => ⟨fun hin => ?_, ?_⟩⟩
    · obtain ⟨hp', hc'⟩ := (h.mem k' v').1 (List.mem_cons_of_mem _ hin)
      exact ⟨⟨hp', (hlt _ hin).ne'⟩, hc'⟩
    · rintro ⟨⟨hp', hne⟩, hc'⟩
      rcases List.mem_cons.1 ((h.mem k' v').2 ⟨hp', hc'⟩) with he | hin
      · exact absurd (congrArg Prod.fst he) hne
      · exact hin

/-- A finite map has an enumeration. -/
theorem exists_of_keys {L : List Key} (hL : ∀ k, C k ≠ none → k ∈ L) (P : Key → Prop) :
    ∃ R, Enumerates P C R ∧ R.length ≤ L.length := by
  classical
  let keys := (L.toFinset.filter P).sort (· ≤ ·)
  have hmem : ∀ k, k ∈ keys ↔ k ∈ L ∧ P k := by
    intro k
    simp [keys]
  refine ⟨keys.filterMap fun k => (C k).map fun v => (k, v), ⟨?_, fun k v => ?_⟩, ?_⟩
  · have hlt : KeySorted id keys := (Finset.sortedLT_sort _).pairwise
    refine hlt.filterMap _ fun a b hb => ?_
    obtain ⟨v, -, rfl⟩ := Option.map_eq_some_iff.1 hb
    rfl
  · simp only [List.mem_filterMap, Option.map_eq_some_iff, hmem]
    constructor
    · rintro ⟨k', ⟨-, hp⟩, v', hv', he⟩
      cases he
      exact ⟨hp, hv'⟩
    · rintro ⟨hp, hv⟩
      exact ⟨k, ⟨hL k (by simp [hv]), hp⟩, v, hv, rfl⟩
  · calc _ ≤ keys.length := List.length_filterMap_le _ _
      _ = (L.toFinset.filter P).card := Finset.length_sort _
      _ ≤ L.toFinset.card := Finset.card_filter_le _ _
      _ ≤ L.length := L.toFinset_card_le

end Enumerates

/-! ## The cursor -/

/-- The keys that a scan may return. -/
def WithinBound (endKey : Option Key) (k : Key) : Prop := ∀ e, endKey = some e → k ≤ e

/-- A record as the caller gets it: the lengths of its parts, and the bytes asked for. -/
def Returned (field : ScanReturnField) (r : Key × Value) (lens : Nat × Nat) (out : List UInt8) :
    Prop :=
  match field with
  | .key => lens = (r.1.length, 0) ∧ out.take r.1.length = r.1
  | .value => lens = (0, r.2.length) ∧ out.take r.2.length = r.2
  | .keyAndValue => lens = (r.1.length, r.2.length) ∧
      out.take (r.1.length + r.2.length) = r.1 ++ r.2

namespace ScanIter

/-- The cursor is on a leaf that ends at `hi`, and its page shows the map. -/
structure Stands (cfg : Config) (C : Key → Option Value) (hi : Key) (it : ScanIter) : Prop where
  sibling : it.getRightSibling cfg = some hi
  page : it.position = .null ∨ ∃ p, it.page = some p ∧ KeySorted p.getFullKey p.metas ∧
    ∀ m ∈ p.metas, C (p.getFullKey m) = live (some (m.opType, m.value)) ∧
      (hi = [] ∨ p.getFullKey m < hi)

/-- The cursor has not passed the key. -/
def Ahead (it : ScanIter) (hi k : Key) : Prop :=
  (it.position ≠ .null ∧ ∃ p, it.page = some p ∧
    ∃ m ∈ p.metas.drop it.position.slot, p.getFullKey m = k) ∨ hi ≠ [] ∧ hi ≤ k

/-- What the scan has yet to return. -/
def Left (it : ScanIter) (C : Key → Option Value) (hi : Key) (R : List (Key × Value)) : Prop :=
  Enumerates (fun k => it.Ahead hi k ∧ WithinBound it.endKey k) C R

variable {cfg : Config} {C : Key → Option Value} {lo hi key : Key} {it : ScanIter}
  {R : List (Key × Value)} {p : LeafNode} {pos : ScanPosition} {m : LeafKVMeta}

/-- A cursor placed at a key has the records from there on ahead. -/
theorem placed (h : CursorOk cfg C lo hi key (it.position, it.page)) (hr : InRange lo hi key)
    (hnext : it.nextKey = hi) :
    it.Stands cfg C hi ∧ ∀ k v, C k = some v → (it.Ahead hi k ↔ key ≤ k) := by
  -- a key that is not in the range of the leaf but not below it either
  have hright : ∀ k, key ≤ k → ¬ InRange lo hi k → hi ≠ [] ∧ hi ≤ k := by
    intro k hle hk
    have hlo : lo ≤ k := hr.1.trans hle
    refine ⟨fun he => hk ⟨hlo, .inl he⟩, not_lt.1 fun hlt => hk ⟨hlo, .inr hlt⟩⟩
  have hleft : ∀ k, hi ≠ [] → hi ≤ k → key ≤ k := fun k hne hle =>
    (hr.2.resolve_left hne).le.trans hle
  rcases h with ⟨hnull, hcache, hnone⟩ | ⟨hpos, p, hp, hpage, hfence⟩
  · refine ⟨⟨by simp [getRightSibling, hcache, hnext], .inl hnull⟩, fun k v hv => ?_⟩
    have hnot : ¬ InRange lo hi k := fun hk => by rw [hnone k hk] at hv; cases hv
    constructor
    · rintro (⟨hn, -⟩ | ⟨hne, hle⟩)
      · exact absurd hnull hn
      · exact hleft k hne hle
    · exact fun hle => .inr (hright k hle hnot)
  · have hentry : ∀ m ∈ p.metas, p.entry (p.getFullKey m) = some (m.opType, m.value) :=
      fun m hm => (entry_eq_some hpage.wf).2 ⟨m, hm, rfl, rfl, rfl⟩
    have hin : ∀ m ∈ p.metas, InRange lo hi (p.getFullKey m) :=
      fun m hm => hpage.inRange _ (by rw [hentry m hm]; simp)
    obtain ⟨A, B, hsplit, hslot⟩ := hpage.split
    have hdrop : p.metas.drop it.position.slot = B := by
      rw [hsplit.eq]
      exact List.drop_left' hslot.symm
    refine ⟨⟨?_, .inr ⟨p, hp, hpage.wf.sorted, fun m hm => ⟨?_, (hin m hm).2⟩⟩⟩, fun k v hv => ?_⟩
    · cases hc : cfg.cacheOnly with
      | true => simp [getRightSibling, hc, hnext]
      | false => simp [getRightSibling, hc, show it.page = some p from hp, hfence hc]
    · rw [← hpage.shows _ (hin m hm), hentry m hm]
    · constructor
      · rintro (⟨-, q, hq, m, hm, rfl⟩ | ⟨hne, hle⟩)
        · obtain rfl : p = q := Option.some.inj (hp.symm.trans hq)
          rw [hdrop] at hm
          exact hsplit.right m hm
        · exact hleft k hne hle
      · intro hle
        by_cases hk : InRange lo hi k
        · rw [← hpage.shows k hk] at hv
          cases he : p.entry k with
          | none => rw [he] at hv; cases hv
          | some e =>
            obtain ⟨m, hm, rfl, -⟩ := (entry_eq_some hpage.wf).1 he
            refine .inl ⟨hpos, p, hp, m, ?_, rfl⟩
            rw [hdrop]
            rw [hsplit.eq] at hm
            rcases List.mem_append.1 hm with hA | hB
            · exact absurd (hsplit.left m hA) (not_lt.2 hle)
            · exact hB
        · exact .inr (hright k hle hk)

theorem Stands.withCount (h : it.Stands cfg C hi) (n : Nat) :
    Stands cfg C hi { it with scanCnt := n } :=
  ⟨h.sibling, h.page⟩

theorem Left.withCount (h : it.Left C hi R) (n : Nat) : Left { it with scanCnt := n } C hi R := h

theorem moveToNext_some (h : it.position.moveToNext = some pos) :
    it.position ≠ .null ∧ pos ≠ .null ∧ pos.slot = it.position.slot + 1 := by
  cases hp : it.position with
  | null => rw [hp] at h; cases h
  | base i => rw [hp] at h; cases h; simp [ScanPosition.slot]
  | full i => rw [hp] at h; cases h; simp [ScanPosition.slot]
  | mini i => rw [hp] at h; cases h; simp [ScanPosition.slot]

theorem Stands.moveToNext (h : it.Stands cfg C hi) (hpos : it.position.moveToNext = some pos) :
    Stands cfg C hi { it with position := pos } := by
  refine ⟨h.sibling, ?_⟩
  rcases h.page with hn | hp
  · exact absurd hn (moveToNext_some hpos).1
  · exact .inr hp

/-- The record under the cursor is the least one ahead. -/
theorem ahead_iff (h : it.Stands cfg C hi) (hp : it.page = some p)
    (hm : p.metas[it.position.slot]? = some m) (hpos : it.position.moveToNext = some pos) (k : Key) :
    (it.Ahead hi k ↔ k = p.getFullKey m ∨ Ahead { it with position := pos } hi k) ∧
      (Ahead { it with position := pos } hi k → p.getFullKey m < k) := by
  obtain ⟨hnull, hnull', hslot⟩ := moveToNext_some hpos
  obtain ⟨q, hq, hsorted, hall⟩ := h.page.resolve_left hnull
  obtain rfl : p = q := Option.some.inj (hp.symm.trans hq)
  obtain ⟨hlt, rfl⟩ := List.getElem?_eq_some_iff.1 hm
  have hdrop := List.drop_eq_getElem_cons hlt
  constructor
  · simp only [Ahead, hp, Option.some.injEq, exists_eq_left', hnull, hnull', hslot, ne_eq,
      not_false_eq_true, true_and, hdrop, List.mem_cons, exists_eq_or_imp]
    rw [or_assoc, eq_comm]
  · rintro (⟨-, q, hq, m', hm', rfl⟩ | ⟨hne, hle⟩)
    · obtain rfl : p = q := Option.some.inj (hp.symm.trans hq)
      rw [hslot] at hm'
      have := hsorted.sublist (List.drop_sublist it.position.slot p.metas)
      rw [hdrop, keySorted_cons] at this
      exact this.1 m' hm'
    · exact lt_of_lt_of_le ((hall _ (List.getElem_mem hlt)).2.resolve_left hne) hle

/-- Absent records are passed over. -/
theorem Left.skip (h : it.Left C hi R) (hs : it.Stands cfg C hi) (hp : it.page = some p)
    (hm : p.metas[it.position.slot]? = some m) (hpos : it.position.moveToNext = some pos)
    (habs : m.opType.isAbsent = true) : Left { it with position := pos } C hi R := by
  refine Enumerates.congr h fun k v hv => ?_
  have hne : k ≠ p.getFullKey m := by
    rintro rfl
    obtain ⟨q, hq, -, hall⟩ := hs.page.resolve_left (moveToNext_some hpos).1
    obtain rfl : p = q := Option.some.inj (hp.symm.trans hq)
    rw [(hall m (List.mem_of_getElem? hm)).1] at hv
    simp [live, habs] at hv
  rw [(ahead_iff hs hp hm hpos k).1, or_iff_right hne]

/-- The record under the cursor is returned. -/
theorem Left.head (h : it.Left C hi R) (hs : it.Stands cfg C hi) (hp : it.page = some p)
    (hm : p.metas[it.position.slot]? = some m) (hpos : it.position.moveToNext = some pos)
    (hlive : m.opType.isAbsent = false) (hbound : WithinBound it.endKey (p.getFullKey m)) :
    ∃ R', R = (p.getFullKey m, m.value) :: R' ∧ Left { it with position := pos } C hi R' := by
  have hv : C (p.getFullKey m) = some m.value := by
    obtain ⟨q, hq, -, hall⟩ := hs.page.resolve_left (moveToNext_some hpos).1
    obtain rfl : p = q := Option.some.inj (hp.symm.trans hq)
    rw [(hall m (List.mem_of_getElem? hm)).1]
    simp [live, hlive]
  obtain ⟨R', rfl, hR'⟩ := Enumerates.eq_cons h
    ⟨((ahead_iff hs hp hm hpos _).1).2 (.inl rfl), hbound⟩ hv fun k' v' _ hk' => by
      rcases ((ahead_iff hs hp hm hpos k').1).1 hk'.1 with rfl | ha
      · exact le_refl _
      · exact ((ahead_iff hs hp hm hpos k').2 ha).le
  refine ⟨R', rfl, hR'.congr fun k v _ => ?_⟩
  rw [(ahead_iff hs hp hm hpos k).1]
  constructor
  · rintro ⟨ha, hb⟩
    exact ⟨⟨.inr ha, hb⟩, ((ahead_iff hs hp hm hpos k).2 ha).ne'⟩
  · rintro ⟨⟨ha, hb⟩, hne⟩
    exact ⟨ha.resolve_left hne, hb⟩

/-- The record under the cursor is beyond the end key, and so are those after it. -/
theorem Left.exceeded (h : it.Left C hi R) (hs : it.Stands cfg C hi) (hp : it.page = some p)
    (hm : p.metas[it.position.slot]? = some m) (hpos : it.position ≠ .null)
    (hbound : it.endKey.any (fun bound => bound < p.getFullKey m) = true) : R = [] := by
  obtain ⟨e, he, hlt⟩ : ∃ e, it.endKey = some e ∧ e < p.getFullKey m := by
    cases he : it.endKey with
    | none => rw [he] at hbound; cases hbound
    | some e => exact ⟨e, rfl, by simpa [he] using hbound⟩
  obtain ⟨pos, hnext⟩ : ∃ pos, it.position.moveToNext = some pos := by
    cases hpos' : it.position with
    | null => exact absurd hpos' hpos
    | base i => exact ⟨_, rfl⟩
    | full i => exact ⟨_, rfl⟩
    | mini i => exact ⟨_, rfl⟩
  refine Enumerates.eq_nil h fun k v _ hk => ?_
  have hle : p.getFullKey m ≤ k := by
    rcases ((ahead_iff hs hp hm hnext k).1).1 hk.1 with rfl | ha
    · exact le_refl _
    · exact ((ahead_iff hs hp hm hnext k).2 ha).le
  exact absurd (hk.2 e he) (not_le.2 (lt_of_lt_of_le hlt hle))

/-- At the end of a leaf only the leaves to the right are left. -/
theorem ahead_end (hend : it.position = .null ∨
      ∃ p, it.page = some p ∧ p.metas[it.position.slot]? = none) (k : Key) :
    it.Ahead hi k ↔ hi ≠ [] ∧ hi ≤ k := by
  refine ⟨?_, .inr⟩
  rintro (⟨hn, q, hq, m, hm, -⟩ | h)
  · obtain ⟨p, hp, hlen⟩ := hend.resolve_left hn
    obtain rfl : p = q := Option.some.inj (hp.symm.trans hq)
    rw [List.drop_eq_nil_of_le (List.getElem?_eq_none_iff.1 hlen)] at hm
    cases hm
  · exact h

end ScanIter

/-! ## Steps -/

theorem copyFromSlice_spec {out out' : List UInt8} {value : Value}
    (h : copyFromSlice out value = some out') : out'.take value.length = value := by
  unfold copyFromSlice at h
  split at h
  · cases h
    exact List.take_left' rfl
  · cases h

theorem getRecordByPosWithBound_spec {p : LeafNode} {slot : Nat} {out out' : List UInt8}
    {field : ScanReturnField} {bound : Option Key} {r : GetScanRecordByPosResult}
    (h : p.getRecordByPosWithBound slot out field bound = some (r, out')) :
    (r = .endOfLeaf ∧ p.metas[slot]? = none) ∨ ∃ m, p.metas[slot]? = some m ∧
      ((r = .deleted ∧ m.opType.isAbsent = true) ∨ m.opType.isAbsent = false ∧
        ((r = .boundKeyExceeded ∧ bound.any (fun b => b < p.getFullKey m) = true) ∨
          ∃ lens, r = .found lens.1 lens.2 ∧ WithinBound bound (p.getFullKey m) ∧
            Returned field (p.getFullKey m, m.value) lens out')) := by
  unfold getRecordByPosWithBound at h
  split at h
  · next hm => exact .inl ⟨(Prod.mk.inj (Option.some.inj h)).1.symm, hm⟩
  · next m hm =>
    refine .inr ⟨m, hm, ?_⟩
    split at h
    · next habs => exact .inl ⟨(Prod.mk.inj (Option.some.inj h)).1.symm, habs⟩
    · next habs =>
      refine .inr ⟨by simpa using habs, ?_⟩
      split at h
      · next hb => exact .inl ⟨(Prod.mk.inj (Option.some.inj h)).1.symm, hb⟩
      · next hb =>
        obtain ⟨o, ho, heq⟩ := Option.map_eq_some_iff.1 h
        obtain ⟨rfl, rfl⟩ := Prod.mk.inj heq
        refine .inr ⟨p.scanLengths m field, rfl, fun e he => ?_, ?_⟩
        · rw [he] at hb
          exact not_lt.1 (by simpa using hb)
        · have hcopy := copyFromSlice_spec ho
          cases field with
          | key => exact ⟨rfl, hcopy⟩
          | value => exact ⟨rfl, hcopy⟩
          | keyAndValue =>
            rw [scanBytes, List.length_append] at hcopy
            exact ⟨rfl, hcopy⟩

namespace Tree

variable {cfg : Config} {C : Key → Option Value} {t : Tree} {hi : Key} {it : ScanIter}
  {R : List (Key × Value)}

/-- Attempts that keep the map are repeated until one succeeds. -/
theorem retry_keeps {α : Type} {m : AttemptEnv → Bool → M α} {Q : α → Tree → Prop}
    {lockedSplits : Bool}
    (hm : ∀ {t : Tree} (env : AttemptEnv) (aggressive : Bool), t.Inv cfg C →
      wp (m env aggressive) Q
        (fun e t' => t'.Inv cfg C ∧ (e = .circularBufferFull → cfg.cacheOnly = false)) t)
    (rounds : List Round) : ∀ {t : Tree} {aggressive : Bool}, t.Inv cfg C →
      wp (retry m lockedSplits rounds aggressive) Q (fun _ _ => False) t := by
  induction rounds with
  | nil => intros; exact wp_crash.2 trivial
  | cons r rounds ih =>
    intro t aggressive h
    rw [retry, wp_handle]
    refine wp_mono (hm r.env aggressive h) (fun _ _ hq => hq) ?_
    rintro e t' ⟨h', hfull⟩
    cases e with
    | needRestart => exact ih h'
    | locked => exact ih h'
    | circularBufferFull =>
      rw [wp_bind, wp_ignore]
      refine (evictFromCircularBuffer_spec r.evictions h').mono ?_
      rintro t'' ⟨C', hl, h''⟩
      rw [loses_disk (hfull rfl)] at hl
      exact ih (hl ▸ h'')

/-- The cursor is placed at the key, and the map stays the same. -/
def Placed (cfg : Config) (C : Key → Option Value) (key : Key)
    (r : ScanPosition × Option LeafNode × Key) (t : Tree) : Prop :=
  t.Inv cfg C ∧ ∃ lo hi, InRange lo hi key ∧ r.2.2 = hi ∧ CursorOk cfg C lo hi key (r.1, r.2.1)

theorem moveToRightSibling_spec (h : t.Inv cfg C) (envs : List AttemptEnv) (key : Key) :
    wp (moveToRightSibling envs key it)
      (fun it' t' => t'.Inv cfg C ∧ ∃ hi, it'.Stands cfg C hi ∧
        (∀ k v, C k = some v → (it'.Ahead hi k ↔ key ≤ k)) ∧
        it' = { it with position := it'.position, page := it'.page, nextKey := it'.nextKey })
      (fun _ _ => False) t := by
  simp only [moveToRightSibling, wp_bind, wp_pure]
  refine wp_mono (retry_keeps (Q := Placed cfg C key)
    (fun env aggressive h => moveCursorToLeaf_spec h env key aggressive) _ h) ?_ (fun _ _ hf => hf)
  rintro ⟨pos, page, nextKey⟩ t₁ ⟨h₁, lo, hi, hr, rfl, hcur⟩
  obtain ⟨hs, ha⟩ := @ScanIter.placed _ _ _ _ _ { it with position := pos, page := page, nextKey := nextKey }
    hcur hr rfl
  exact ⟨h₁, _, hs, ha, trivial⟩

/-- What one call of the iterator does: it returns the first record that is left, or
ends the scan. -/
structure NextOk (cfg : Config) (C : Key → Option Value) (it : ScanIter) (R : List (Key × Value))
    (result : Option (Nat × Nat)) (out : List UInt8) (it' : ScanIter) : Prop where
  stands : ∃ hi R', it'.Stands cfg C hi ∧ it'.Left C hi R' ∧
    match result with
    | some lens => ¬ (it.scanCnt = 0 ∧ it.endKey = none) ∧
        (∃ r, R = r :: R' ∧ Returned it.returnField r lens out) ∧
        it'.scanCnt = (it.scanCnt + (2 ^ 64 - 1)) % 2 ^ 64
    | none => it'.scanCnt = 0 ∧ R' = R ∧ (it.scanCnt = 0 ∧ it.endKey = none ∨ R = [])
  endKey : it'.endKey = it.endKey
  returnField : it'.returnField = it.returnField

/-- Steps that only move the cursor. -/
theorem NextOk.of_moved {it₁ it' : ScanIter} {result : Option (Nat × Nat)} {out : List UInt8}
    (h : NextOk cfg C it₁ R result out it') (hcnt : it₁.scanCnt = it.scanCnt)
    (hend : it₁.endKey = it.endKey) (hfield : it₁.returnField = it.returnField) :
    NextOk cfg C it R result out it' := by
  obtain ⟨⟨hi, R', hs, hl, hres⟩, he, hf⟩ := h
  refine ⟨⟨hi, R', hs, hl, ?_⟩, he.trans hend, hf.trans hfield⟩
  rw [hcnt, hend, hfield] at hres
  exact hres

theorem next_spec (fuel : Nat) : ∀ {t : Tree} {it : ScanIter} {hi : Key} {R : List (Key × Value)}
    (moves : List (List AttemptEnv)) (out : List UInt8), t.Inv cfg C → it.Stands cfg C hi →
    it.Left C hi R → wp (next fuel moves it out)
      (fun r t' => t'.Inv cfg C ∧ NextOk cfg C it R r.1 r.2.1 r.2.2) (fun _ _ => False) t := by
  induction fuel with
  | zero => intros; exact wp_crash.2 trivial
  | succ fuel ih =>
    intro t it hi R moves out h hs hl
    rw [next]
    refine wp_ite (fun hdone => ?_) (fun hgo => ?_)
    · exact (wp_pure _).2 ⟨h, ⟨hi, R, hs, hl, hdone.1, rfl, .inl hdone⟩, rfl, rfl⟩
    simp only [wp_bind, wp_unwrap]
    rintro ⟨r, out'⟩ hrec
    -- the page under the cursor, or the end of the leaf
    have hcases : (r = .endOfLeaf ∧ (it.position = .null ∨
        ∃ p, it.page = some p ∧ p.metas[it.position.slot]? = none)) ∨
        ∃ p m, it.position ≠ .null ∧ it.page = some p ∧ p.metas[it.position.slot]? = some m ∧
          ((r = .deleted ∧ m.opType.isAbsent = true) ∨ m.opType.isAbsent = false ∧
            ((r = .boundKeyExceeded ∧ it.endKey.any (fun b => b < p.getFullKey m) = true) ∨
              ∃ lens, r = .found lens.1 lens.2 ∧ WithinBound it.endKey (p.getFullKey m) ∧
                Returned it.returnField (p.getFullKey m, m.value) lens out')) := by
      by_cases hnull : it.position = .null
      · rw [ScanIter.getRecord, hnull] at hrec
        exact .inl ⟨(Prod.mk.inj (Option.some.inj hrec)).1.symm, .inl hnull⟩
      · obtain ⟨p, hp, -⟩ := hs.page.resolve_left hnull
        have hrec' : p.getRecordByPosWithBound it.position.slot out it.returnField it.endKey =
            some (r, out') := by
          unfold ScanIter.getRecord at hrec
          split at hrec
          · next heq => exact absurd heq hnull
          · simpa [hp] using hrec
        rcases getRecordByPosWithBound_spec hrec' with ⟨hr, hm⟩ | ⟨m, hm, hres⟩
        · exact .inl ⟨hr, .inr ⟨p, hp, hm⟩⟩
        · exact .inr ⟨p, m, hnull, hp, hm, hres⟩
    rcases hcases with ⟨rfl, hend⟩ | ⟨p, m, hnull, hp, hm, ⟨rfl, habs⟩ | ⟨hlive, ⟨rfl, hb⟩ |
      ⟨lens, rfl, hb, hret⟩⟩⟩
    · -- on to the next leaf
      have hcfg : t.config = cfg := by obtain ⟨s, h⟩ := h; exact h.config
      simp only [wp_bind, wp_get, wp_unwrap, hcfg, hs.sibling, Option.some.injEq]
      rintro key rfl
      refine wp_ite (fun hnil => ?_) (fun hne => ?_)
      · have hR : R = [] := Enumerates.eq_nil hl fun k v _ hk =>
          ((ScanIter.ahead_end hend k).1 hk.1).1 hnil
        exact (wp_pure _).2 ⟨h, ⟨hi, R, hs.withCount 0, hl.withCount 0, rfl, rfl, .inr hR⟩, rfl, rfl⟩
      · cases moves with
        | nil => exact wp_crash.2 trivial
        | cons envs moves =>
          simp only [wp_bind]
          refine wp_mono (moveToRightSibling_spec h envs hi) ?_ (fun _ _ hf => hf)
          rintro it₁ t₁ ⟨h₁, hi₁, hs₁, ha₁, heq⟩
          have hend₁ : it₁.endKey = it.endKey := by rw [heq]
          have hl₁ : it₁.Left C hi₁ R := Enumerates.congr hl fun k v hv => by
            rw [ha₁ k v hv, ScanIter.ahead_end hend k, hend₁, and_iff_right hne]
          refine wp_mono (ih moves out' h₁ hs₁ hl₁) ?_ (fun _ _ hf => hf)
          rintro r t₂ ⟨h₂, hok⟩
          exact ⟨h₂, hok.of_moved (by rw [heq]) hend₁ (by rw [heq])⟩
    · simp only [wp_bind, wp_unwrap]
      intro pos hpos
      refine wp_mono (ih moves out' h (hs.moveToNext hpos)
        (hl.skip hs hp hm hpos habs)) ?_ (fun _ _ hf => hf)
      rintro r t₁ ⟨h₁, hok⟩
      exact ⟨h₁, hok.of_moved rfl rfl rfl⟩
    · have hR := hl.exceeded hs hp hm hnull hb
      exact (wp_pure _).2 ⟨h, ⟨hi, R, hs.withCount 0, hl.withCount 0, rfl, rfl, .inr hR⟩, rfl, rfl⟩
    · simp only [wp_bind, wp_unwrap, wp_pure]
      intro pos hpos
      obtain ⟨R', hR, hl'⟩ := hl.head hs hp hm hpos hlive hb
      have hs' := hs.moveToNext hpos
      exact ⟨h, ⟨hi, R', hs'.withCount _, hl'.withCount _, hgo, ⟨_, hR, hret⟩, rfl⟩, rfl, rfl⟩

end Tree

end BfTree
