import BfTree.Nodes.SplitKey

/-!
# How evenly a split key divides

As long as the sizes fit their 16-bit counters, the search stops at the record that
reaches half of the total and at the one after it, and the better of the two is at
most half a record away from the middle.
-/

namespace BfTree.LeafNode

open Lib

theorem u16_of_lt {n : Nat} (h : n < 65536) : u16 n = n := Nat.mod_eq_of_lt h

namespace SplitSearch

/-- The candidates of a search: `r` is the first record at which `target` is reached,
`X` and `Y` are the records before and after it. -/
structure Pivot (s : SplitSearch) (total target merged : Nat) (L X : List (Nat × Key)) (r : Nat × Key)
    (Y : List (Nat × Key)) : Prop where
  eq : L = X ++ r :: Y
  before : X = [] ∨ merged + itemsSize X < target
  reached : target ≤ merged + itemsSize X + r.1
  key1 : s.key1 = some r.2
  diff1 : s.diff1 = sideDiff (merged + itemsSize X) (u16 (total + 65536 - (merged + itemsSize X)))
  last : Y = [] → s.key2 = none
  next : ∀ r' Z, Y = r' :: Z → s.key2 = some r'.2 ∧
    s.diff2 = sideDiff (merged + itemsSize X + r.1)
      (u16 (total + 65536 - (merged + itemsSize X + r.1)))

/-- Once there is a first candidate, the next record is the second one. -/
theorem run_second {s : SplitSearch} (total target : Nat) {L : List (Nat × Key)} {k : Key}
    (h1 : s.key1 = some k) (h2 : s.key2 = none) (hm : target ≤ s.mergedSize)
    (hsize : s.mergedSize + itemsSize L < 65536) :
    (s.run total target L).key1 = some k ∧ (s.run total target L).diff1 = s.diff1 ∧
      (L = [] → (s.run total target L).key2 = none) ∧
      ∀ r Z, L = r :: Z → (s.run total target L).key2 = some r.2 ∧
        (s.run total target L).diff2 =
          sideDiff s.mergedSize (u16 (total + 65536 - s.mergedSize)) := by
  cases L with
  | nil => exact ⟨h1, rfl, fun _ => h2, fun r Z h => by cases h⟩
  | cons r Z =>
    have hsum : u16 (s.mergedSize + r.1) = s.mergedSize + r.1 :=
      u16_of_lt (by rw [itemsSize_cons] at hsize; omega)
    have hvisit : s.visit total target r.1 r.2 = { s with
        mergedSize := s.mergedSize + r.1
        key2 := some r.2
        diff2 := sideDiff s.mergedSize (u16 (total + 65536 - s.mergedSize)) } := by
      rw [visit, hsum, if_neg (by simp [h2]; omega), if_neg (by simp [h1])]
    have hagree := agree_run_of_isSome (s := s.visit total target r.1 r.2) (by rw [hvisit]; rfl)
      total target Z
    rw [run_cons]
    rw [hvisit] at hagree ⊢
    refine ⟨hagree.key1.trans h1, hagree.diff1, fun h => (by cases h), ?_⟩
    rintro r' Z' ⟨⟩
    exact ⟨hagree.key2, hagree.diff2⟩

theorem run_pivot (total target : Nat) (L : List (Nat × Key)) :
    ∀ {s : SplitSearch}, s.key1 = none → s.key2 = none → s.mergedSize + itemsSize L < 65536 →
      ((L = [] ∨ s.mergedSize + itemsSize L < target) ∧ (s.run total target L).key1 = none) ∨
      ∃ X r Y, (s.run total target L).Pivot total target s.mergedSize L X r Y := by
  induction L with
  | nil =>
    intro s h1 _ _
    exact .inl ⟨.inl rfl, h1⟩
  | cons r L ih =>
    intro s h1 h2 hsize
    rw [itemsSize_cons] at hsize
    have hsum : u16 (s.mergedSize + r.1) = s.mergedSize + r.1 := u16_of_lt (by omega)
    by_cases ht : s.mergedSize + r.1 < target
    · -- not yet there: the record goes to the left part
      have hvisit : s.visit total target r.1 r.2 =
          { s with mergedSize := s.mergedSize + r.1 } := by
        rw [visit, hsum, if_pos (.inl ht)]
      rw [run_cons, hvisit]
      obtain ⟨hnone, hkey⟩ | ⟨X, r', Y, hp⟩ :=
        ih (s := { s with mergedSize := s.mergedSize + r.1 }) h1 h2 (by dsimp only; omega)
      · refine .inl ⟨.inr ?_, hkey⟩
        rw [itemsSize_cons]
        obtain rfl | hlt := hnone
        · simpa [itemsSize] using ht
        · dsimp only at hlt; omega
      · refine .inr ⟨r :: X, r', Y, ?_⟩
        have hm : s.mergedSize + itemsSize (r :: X) = s.mergedSize + r.1 + itemsSize X := by
          rw [itemsSize_cons]; omega
        refine ⟨by rw [hp.eq]; rfl, .inr ?_, ?_, hp.key1, ?_, hp.last, ?_⟩
        · rw [hm]
          obtain rfl | hlt := hp.before
          · simpa [itemsSize] using ht
          · exact hlt
        · rw [hm]; exact hp.reached
        · rw [hm]; exact hp.diff1
        · rw [hm]; exact hp.next
    · -- the record reaches the target
      have hvisit : s.visit total target r.1 r.2 = { s with
          mergedSize := s.mergedSize + r.1
          key1 := some r.2
          diff1 := sideDiff s.mergedSize (u16 (total + 65536 - s.mergedSize)) } := by
        rw [visit, hsum, if_neg (by simp [h2]; omega), if_pos (by simp [h1])]
      rw [run_cons, hvisit]
      obtain ⟨hk1, hd1, hlast, hnext⟩ := run_second total target (L := L)
        (s := { s with
          mergedSize := s.mergedSize + r.1
          key1 := some r.2
          diff1 := sideDiff s.mergedSize (u16 (total + 65536 - s.mergedSize)) })
        rfl h2 (by dsimp only; omega) (by dsimp only; omega)
      refine .inr ⟨[], r, L, ⟨rfl, .inl rfl, ?_, hk1, ?_, hlast, ?_⟩⟩
      · simp only [itemsSize, List.map_nil, List.sum_nil]; omega
      · rw [hd1]; simp [itemsSize]
      · simpa [itemsSize] using hnext

/-- The search over all records finds a first candidate. -/
theorem start_pivot {L : List (Nat × Key)} (hne : L ≠ []) (hlt : itemsSize L < 65536) :
    ∃ X r Y, (start.run (itemsSize L) (itemsSize L / 2) L).Pivot (itemsSize L) (itemsSize L / 2) 0
      L X r Y := by
  obtain ⟨hempty, -⟩ | hp := run_pivot (itemsSize L) (itemsSize L / 2) L (s := .start) rfl rfl
    (by simpa [start] using hlt)
  · exfalso
    have hzero : start.mergedSize = 0 := rfl
    rcases hempty with rfl | hlt'
    · exact hne rfl
    · omega
  · exact hp

/-- With exact differences the better candidate leaves a record on its left, and neither
side exceeds half of the total by more than half a record. -/
theorem Pivot.best_balanced {s : SplitSearch} {total : Nat} {L X Y : List (Nat × Key)} {r : Nat × Key}
    (hp : s.Pivot total (total / 2) 0 L X r Y) (htotal : itemsSize L = total)
    (hpos : ∀ x ∈ L, 0 < x.1) (htwo : 2 ≤ L.length)
    (hdiff1 : s.diff1 = Nat.dist (itemsSize X) (total - itemsSize X))
    (hdiff2 : Y ≠ [] →
      s.diff2 = Nat.dist (itemsSize X + r.1) (total - (itemsSize X + r.1))) :
    ∃ A y B, L = A ++ y :: B ∧ A ≠ [] ∧ s.best = some y.2 ∧
      ∀ largest, (∀ x ∈ L, x.1 ≤ largest) →
        2 * itemsSize A ≤ total + largest ∧ 2 * itemsSize (y :: B) ≤ total + largest := by
  obtain ⟨heq, hbefore, hreached, hkey1, -, hlast, hnext⟩ := hp
  have hsum : total = itemsSize X + (r.1 + itemsSize Y) := by
    rw [← htotal, heq, itemsSize_append, itemsSize_cons]
  have hr : 0 < r.1 := hpos r (by rw [heq]; simp)
  have hbefore' : 2 * itemsSize X ≤ total := by
    rcases hbefore with rfl | hlt
    · exact Nat.zero_le _
    · omega
  have hlargest : ∀ largest, (∀ x ∈ L, x.1 ≤ largest) → r.1 ≤ largest :=
    fun largest h => h r (by rw [heq]; simp)
  rw [Nat.dist] at hdiff1
  by_cases hfirst : Y = [] ∨ s.diff1 < s.diff2
  · -- the record that reaches half of the total
    refine ⟨X, r, Y, heq, ?_, ?_, fun largest h => ?_⟩
    · rintro rfl
      have hempty : itemsSize ([] : List (Nat × Key)) = 0 := rfl
      rcases hfirst with rfl | hlt
      · simp [heq] at htwo
      · have hY : Y ≠ [] := by
          rintro rfl
          simp [heq] at htwo
        rw [hdiff2 hY, hdiff1, Nat.dist] at hlt
        have hrest : 0 < itemsSize Y := by
          cases Y with
          | nil => exact absurd rfl hY
          | cons y Y =>
            have := hpos y (by rw [heq]; simp)
            rw [itemsSize_cons]
            omega
        omega
    · have hbest : s.key2.isNone = true ∨ s.diff1 < s.diff2 :=
        hfirst.imp_left fun hY => by rw [hlast hY]; rfl
      rw [SplitSearch.best, if_pos (by simpa using hbest), hkey1]
    · have hle := hlargest largest h
      rw [itemsSize_cons]
      constructor
      · omega
      · rcases hfirst with rfl | hlt
        · have hempty : itemsSize ([] : List (Nat × Key)) = 0 := rfl
          omega
        · by_cases hY : Y = []
          · subst hY
            have hempty : itemsSize ([] : List (Nat × Key)) = 0 := rfl
            omega
          · rw [hdiff2 hY, hdiff1, Nat.dist] at hlt
            omega
  · -- the one after it
    rw [not_or] at hfirst
    obtain ⟨hY, hle⟩ := hfirst
    obtain ⟨y, Z, rfl⟩ := List.exists_cons_of_ne_nil hY
    obtain ⟨hkey2, -⟩ := hnext y Z rfl
    rw [hdiff2 hY, hdiff1, Nat.dist] at hle
    refine ⟨X ++ [r], y, Z, by rw [heq]; simp, by simp, ?_, fun largest h => ?_⟩
    · rw [SplitSearch.best, if_neg, hkey2]
      rw [hkey2]
      simpa [hdiff2 hY, hdiff1, Nat.dist] using hle
    · have hle' := hlargest largest h
      have hone : itemsSize [r] = r.1 := by simp [itemsSize]
      rw [itemsSize_append, hone]
      omega

end SplitSearch

theorem i16_of_bounds {z : Int} (h : -32768 ≤ z) (h' : z < 32768) : i16 z = z :=
  Int.bmod_eq_of_le (by omega) (by omega)

theorem sideDiff_eq {left right : Nat} (h : left ≤ right + 32767) (h' : right ≤ left + 32767) :
    sideDiff left right = Nat.dist left right := by
  have hd : i16 ((left : Int) - right) = left - right := i16_of_bounds (by omega) (by omega)
  simp only [sideDiff, hd, Nat.dist]
  split <;> rw [i16_of_bounds (by omega) (by omega)] <;> omega

/-- The right side is what the total leaves. -/
theorem u16_sub {total left : Nat} (h : total < 65536) (hle : left ≤ total) :
    u16 (total + 65536 - left) = total - left := by
  rw [show total + 65536 - left = total - left + 65536 by omega, u16, Nat.add_mod_right]
  exact u16_of_lt (by omega)

/-! ## Cache-only pages -/

/-- The records of the page and the new one, in key order. -/
def insertItems (p : LeafNode) (key : Key) (newSize : Nat) : List (Nat × Key) :=
  (p.metas.takeWhile fun m => p.getFullKey m < key).map p.item ++
    (newSize, key) :: (p.metas.dropWhile fun m => p.getFullKey m < key).map p.item

theorem itemsSize_insertItems (p : LeafNode) (key : Key) (newSize : Nat) :
    itemsSize (p.insertItems key newSize) = (p.metas.map p.recordSize).sum + newSize := by
  have hsplit : (p.metas.map p.recordSize).sum =
      itemsSize ((p.metas.takeWhile fun m => p.getFullKey m < key).map p.item) +
        itemsSize ((p.metas.dropWhile fun m => p.getFullKey m < key).map p.item) := by
    rw [← itemsSize_append, ← List.map_append, List.takeWhile_append_dropWhile, itemsSize_map_item]
  rw [insertItems, itemsSize_append, itemsSize_cons, hsplit]
  omega

theorem mem_insertItems {p : LeafNode} {key : Key} {newSize : Nat} {r : Nat × Key} :
    r ∈ p.insertItems key newSize ↔ (∃ m ∈ p.metas, p.item m = r) ∨ r = (newSize, key) := by
  have hmem : ∀ m, m ∈ p.metas ↔ m ∈ (p.metas.takeWhile fun m => p.getFullKey m < key) ∨
      m ∈ p.metas.dropWhile fun m => p.getFullKey m < key := by
    intro m
    rw [← List.mem_append, List.takeWhile_append_dropWhile]
  simp only [insertItems, List.mem_append, List.mem_cons, List.mem_map, hmem]
  constructor
  · rintro (⟨m, hm, he⟩ | he | ⟨m, hm, he⟩)
    · exact .inl ⟨m, .inl hm, he⟩
    · exact .inr he
    · exact .inl ⟨m, .inr hm, he⟩
  · rintro (⟨m, hm | hm, he⟩ | he)
    · exact .inl ⟨m, hm, he⟩
    · exact .inr (.inr ⟨m, hm, he⟩)
    · exact .inr (.inl he)

theorem insertItems_sorted {p : LeafNode} (h : p.WF) {key : Key} (hnew : p.entry key = none)
    (newSize : Nat) : KeySorted Prod.snd (p.insertItems key newSize) := by
  have hs := h.sorted.splitAt_takeWhile (k := key) (q := fun m => decide (p.getFullKey m < key))
    (fun m => by simp)
  have hne : ∀ m ∈ p.metas, p.getFullKey m ≠ key := by
    intro m hm heq
    exact h.entry_ne_none hm (heq ▸ hnew)
  have hsorted := h.sorted
  rw [hs.eq, keySorted_append] at hsorted
  have hmap : ∀ ms : List LeafKVMeta, KeySorted p.getFullKey ms →
      KeySorted Prod.snd (ms.map p.item) := by
    intro ms hms
    exact List.pairwise_map.2 hms
  rw [insertItems, keySorted_append, keySorted_cons]
  refine ⟨hmap _ hsorted.1, ⟨?_, hmap _ hsorted.2.1⟩, ?_⟩
  · intro r hr
    obtain ⟨m, hm, rfl⟩ := List.mem_map.1 hr
    exact lt_of_le_of_ne (hs.right m hm) (hne m ((List.dropWhile_sublist _).subset hm)).symm
  · intro r hr r' hr'
    obtain ⟨m, hm, rfl⟩ := List.mem_map.1 hr
    obtain rfl | hr' := List.mem_cons.1 hr'
    · exact hs.left m hm
    · obtain ⟨m', hm', rfl⟩ := List.mem_map.1 hr'
      exact hsorted.2.2 m hm m' hm'

theorem getCacheOnlyInsertSplitKey_run (p : LeafNode) (key : Key) (n : Nat) :
    p.getCacheOnlyInsertSplitKey key n =
      (SplitSearch.start.run (u16 (itemsSize (p.insertItems key (n + kvMetaSize))))
        (u16 (itemsSize (p.insertItems key (n + kvMetaSize))) / 2)
        (p.insertItems key (n + kvMetaSize))).best := by
  rw [itemsSize_insertItems, getCacheOnlyInsertSplitKey]
  generalize u16 ((p.metas.map p.recordSize).sum + (n + kvMetaSize)) = total
  dsimp only
  obtain ⟨hagree, hrest⟩ := visitBelow_run p total (total / 2) key p.metas .start
  rw [insertItems, SplitSearch.run_append, SplitSearch.run_cons]
  generalize hbelow : p.visitBelow total (total / 2) key p.metas .start = below at hagree hrest ⊢
  obtain ⟨rest, s⟩ := below
  dsimp only at hagree hrest ⊢
  apply SplitSearch.Agree.best
  by_cases hnone : s.key2.isNone
  · -- the new record is visited between the two runs
    have hrest' : rest = p.metas.dropWhile fun m => p.getFullKey m < key :=
      hrest.resolve_right (by simpa using hnone)
    rw [if_pos hnone, hrest']
    exact (visitRest_run p total (total / 2) _ _).trans
      ((hagree.visit total (total / 2) _ _).run total (total / 2) _)
  · -- both candidates are known before the new record
    have hsome : s.key2.isSome := by
      rw [Option.isSome_iff_ne_none]
      simpa using hnone
    rw [if_neg hnone]
    have h₁ := visitRest_run p total (total / 2) rest s
    have h₂ := SplitSearch.agree_run_of_isSome hsome total (total / 2) (rest.map p.item)
    have h₃ := hagree.run_of_isSome hsome total (total / 2) [] ((n + kvMetaSize, key) ::
      (p.metas.dropWhile fun m => p.getFullKey m < key).map p.item)
    exact (h₁.trans h₂).trans h₃

theorem length_insertItems (p : LeafNode) (key : Key) (newSize : Nat) :
    (p.insertItems key newSize).length = p.metas.length + 1 := by
  have hparts := congrArg List.length
    (List.takeWhile_append_dropWhile (p := fun m => decide (p.getFullKey m < key)) (l := p.metas))
  rw [List.length_append] at hparts
  simp only [insertItems, List.length_append, List.length_cons, List.length_map]
  omega

/-- A full cache-only page is split above its first record, and evenly. -/
theorem getCacheOnlyInsertSplitKey_balanced {p : LeafNode} {key : Key} {n : Nat} (hne : p.metas ≠ [])
    (hsum : (p.metas.map p.recordSize).sum ≤ 32736)
    (hrec : ∀ m ∈ p.metas, p.recordSize m ≤ 16368) (hn : n + kvMetaSize ≤ 16368) :
    ∃ A y B, p.insertItems key (n + kvMetaSize) = A ++ y :: B ∧ A ≠ [] ∧
      p.getCacheOnlyInsertSplitKey key n = some y.2 ∧
      ∀ largest, (∀ x ∈ p.insertItems key (n + kvMetaSize), x.1 ≤ largest) →
        2 * itemsSize A ≤ itemsSize (p.insertItems key (n + kvMetaSize)) + largest ∧
        2 * itemsSize (y :: B) ≤ itemsSize (p.insertItems key (n + kvMetaSize)) + largest := by
  have hmeta : 0 < kvMetaSize := by decide
  have hsize := itemsSize_insertItems p key (n + kvMetaSize)
  have hlen := length_insertItems p key (n + kvMetaSize)
  have hone := List.length_pos_of_ne_nil hne
  have hlt : itemsSize (p.insertItems key (n + kvMetaSize)) < 65536 := by omega
  have hitem : ∀ r ∈ p.insertItems key (n + kvMetaSize), 0 < r.1 ∧ r.1 ≤ 16368 := by
    intro r hr
    obtain ⟨m, hm, rfl⟩ | rfl := mem_insertItems.1 hr
    · refine ⟨?_, hrec m hm⟩
      simp only [item, recordSize]
      omega
    · exact ⟨by dsimp only; omega, hn⟩
  rw [getCacheOnlyInsertSplitKey_run, u16_of_lt hlt]
  generalize p.insertItems key (n + kvMetaSize) = L at hitem hlen hlt hsize
  obtain ⟨X, r, Y, hp⟩ := SplitSearch.start_pivot (List.ne_nil_of_length_pos (by omega)) hlt
  have hreached := hp.reached
  have hbefore := hp.before
  have hr := (hitem r (by rw [hp.eq]; simp)).2
  have hL : itemsSize L = itemsSize X + (r.1 + itemsSize Y) := by
    rw [hp.eq, itemsSize_append, itemsSize_cons]
  simp only [Nat.zero_add] at hbefore hreached
  have hX : itemsSize X ≤ itemsSize L / 2 := by
    rcases hbefore with rfl | hbefore
    · exact Nat.zero_le _
    · omega
  -- the sides are at most a page apart
  refine hp.best_balanced rfl (fun x hx => (hitem x hx).1) (by omega) ?_ fun hY => ?_
  · rw [hp.diff1, Nat.zero_add, u16_sub hlt (by omega), sideDiff_eq (by omega) (by omega)]
  · obtain ⟨r', Z, rfl⟩ := List.exists_cons_of_ne_nil hY
    rw [(hp.next r' Z rfl).2, Nat.zero_add, u16_sub hlt (by omega),
      sideDiff_eq (by omega) (by omega)]

/-- The split key is one of the records, and not the first. -/
theorem getCacheOnlyInsertSplitKey_spec {p : LeafNode} (h : p.WF) {key k : Key} {n : Nat}
    (hnew : p.entry key = none) (hne : p.metas ≠ [])
    (hsum : (p.metas.map p.recordSize).sum ≤ 32736)
    (hrec : ∀ m ∈ p.metas, p.recordSize m ≤ 16368) (hn : n + kvMetaSize ≤ 16368)
    (hk : p.getCacheOnlyInsertSplitKey key n = some k) :
    (p.entry k ≠ none ∨ k = key) ∧ ∃ k', (p.entry k' ≠ none ∨ k' = key) ∧ k' < k := by
  obtain ⟨A, y, B, heq, hA, hkey, -⟩ :=
    getCacheOnlyInsertSplitKey_balanced hne hsum hrec hn
  obtain rfl : y.2 = k := Option.some.inj (hkey.symm.trans hk)
  obtain ⟨x, A, rfl⟩ := List.exists_cons_of_ne_nil hA
  have hmem : ∀ r ∈ p.insertItems key (n + kvMetaSize), p.entry r.2 ≠ none ∨ r.2 = key := by
    intro r hr
    obtain ⟨m, hm, rfl⟩ | rfl := mem_insertItems.1 hr
    · exact .inl (h.entry_ne_none hm)
    · exact .inr rfl
  have hsorted := insertItems_sorted h hnew (n + kvMetaSize)
  rw [heq] at hmem hsorted
  refine ⟨hmem y (by simp), x.2, hmem x (by simp), ?_⟩
  exact (keySorted_append.1 hsorted).2.2 x List.mem_cons_self y List.mem_cons_self

end BfTree.LeafNode
