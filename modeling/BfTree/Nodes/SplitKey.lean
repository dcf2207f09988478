import BfTree.Nodes.RebuildSpec

/-!
# BfTree.Nodes.SplitKey — the searches for a split key

Both searches walk two sorted sources at once. They do the same as one walk over
the merged list of records, so what they find is a matter of that list: its keys
in order and the sums of its sizes. A search stops early once it has two
candidates, and from then on further visits would change nothing.
-/

namespace BfTree

open Lib

theorem u16_add_u16 (a b : Nat) : u16 (u16 a + b) = u16 (a + b) := by
  simp [u16]

namespace LeafNode

namespace SplitSearch

/-- Visit a list of sizes and keys. -/
def run (total target : Nat) (L : List (Nat × Key)) (s : SplitSearch) : SplitSearch :=
  L.foldl (fun s r => s.visit total target r.1 r.2) s

@[simp] theorem run_nil (total target : Nat) (s : SplitSearch) : s.run total target [] = s := rfl

@[simp] theorem run_cons (total target : Nat) (r : Nat × Key) (L : List (Nat × Key))
    (s : SplitSearch) :
    s.run total target (r :: L) = (s.visit total target r.1 r.2).run total target L := rfl

theorem run_append (total target : Nat) (L L' : List (Nat × Key)) (s : SplitSearch) :
    s.run total target (L ++ L') = (s.run total target L).run total target L' := by
  rw [run, List.foldl_append]
  rfl

/-- Same candidates, and the same sum as long as the sum still matters. -/
structure Agree (s t : SplitSearch) : Prop where
  key1 : s.key1 = t.key1
  key2 : s.key2 = t.key2
  diff1 : s.diff1 = t.diff1
  diff2 : s.diff2 = t.diff2
  mergedSize : s.key2 = none → s.mergedSize = t.mergedSize

theorem Agree.refl (s : SplitSearch) : Agree s s := ⟨rfl, rfl, rfl, rfl, fun _ => rfl⟩

theorem Agree.trans {s t u : SplitSearch} (h : Agree s t) (h' : Agree t u) : Agree s u where
  key1 := h.key1.trans h'.key1
  key2 := h.key2.trans h'.key2
  diff1 := h.diff1.trans h'.diff1
  diff2 := h.diff2.trans h'.diff2
  mergedSize hn := (h.mergedSize hn).trans (h'.mergedSize (h.key2 ▸ hn))

theorem Agree.best {s t : SplitSearch} (h : Agree s t) : s.best = t.best := by
  simp only [SplitSearch.best, h.key1, h.key2, h.diff1, h.diff2]

/-- With two candidates a visit changes nothing that matters. -/
theorem agree_visit_of_isSome {s : SplitSearch} (h : s.key2.isSome) (total target size : Nat)
    (key : Key) : Agree (s.visit total target size key) s := by
  have hne : s.key2 ≠ none := Option.isSome_iff_ne_none.mp h
  rw [visit, if_pos (.inr h)]
  exact ⟨rfl, rfl, rfl, rfl, fun hn => absurd hn hne⟩

theorem Agree.visit {s t : SplitSearch} (h : Agree s t) (total target size : Nat) (key : Key) :
    Agree (s.visit total target size key) (t.visit total target size key) := by
  cases hk : s.key2 with
  | some k =>
    have hs : s.key2.isSome := by rw [hk]; rfl
    have ht : t.key2.isSome := by rw [← h.key2, hk]; rfl
    have hsym : Agree t (t.visit total target size key) := by
      have := agree_visit_of_isSome ht total target size key
      exact ⟨this.key1.symm, this.key2.symm, this.diff1.symm, this.diff2.symm,
        fun hn => absurd hn (Option.isSome_iff_ne_none.mp ht)⟩
    exact ((agree_visit_of_isSome hs total target size key).trans h).trans hsym
  | none =>
    have hst : s = t := by
      obtain ⟨h1, h2, h3, h4, h5⟩ := h
      cases s; cases t
      simp_all
    rw [hst]
    exact .refl _

theorem agree_run_of_isSome {s : SplitSearch} (h : s.key2.isSome) (total target : Nat)
    (L : List (Nat × Key)) : Agree (s.run total target L) s := by
  induction L generalizing s with
  | nil => exact .refl s
  | cons r L ih =>
    have hv := agree_visit_of_isSome h total target r.1 r.2
    exact (ih (hv.key2 ▸ h)).trans hv

theorem Agree.run {s t : SplitSearch} (h : Agree s t) (total target : Nat) (L : List (Nat × Key)) :
    Agree (s.run total target L) (t.run total target L) := by
  induction L generalizing s t with
  | nil => exact h
  | cons r L ih => exact ih (h.visit total target r.1 r.2)

theorem Agree.symm {s t : SplitSearch} (h : Agree s t) : Agree t s :=
  ⟨h.key1.symm, h.key2.symm, h.diff1.symm, h.diff2.symm,
    fun hn => (h.mergedSize (h.key2.trans hn)).symm⟩

end SplitSearch

theorem SplitSearch.Agree.run_of_isSome {s t : SplitSearch} (h : SplitSearch.Agree s t)
    (hs : s.key2.isSome) (total target : Nat) (L L' : List (Nat × Key)) :
    SplitSearch.Agree (s.run total target L) (t.run total target L') :=
  ((SplitSearch.agree_run_of_isSome hs total target L).trans h).trans
    (SplitSearch.agree_run_of_isSome (h.key2 ▸ hs) total target L').symm

/-! ## Walks over pages -/

/-- Size and key of a record. -/
def item (p : LeafNode) (m : LeafKVMeta) : Nat × Key := (p.recordSize m, p.getFullKey m)

theorem SplitSearch.stops_isSome {s : SplitSearch} {target size : Nat} (h : s.stops target size) :
    s.key2.isSome := by
  simp only [SplitSearch.stops, Bool.and_eq_true] at h
  exact h.2

theorem visitBelow_run (p : LeafNode) (total target : Nat) (key : Key) (ms : List LeafKVMeta)
    (s : SplitSearch) :
    SplitSearch.Agree (p.visitBelow total target key ms s).2
      (s.run total target ((ms.takeWhile fun m => p.getFullKey m < key).map p.item)) ∧
    ((p.visitBelow total target key ms s).1 = ms.dropWhile (fun m => p.getFullKey m < key) ∨
      (p.visitBelow total target key ms s).2.key2.isSome) := by
  induction ms generalizing s with
  | nil => exact ⟨.refl s, .inl rfl⟩
  | cons m ms ih =>
    rw [visitBelow]
    by_cases hlt : p.getFullKey m < key
    · simp only [hlt, if_true, decide_true, List.takeWhile_cons_of_pos, List.dropWhile_cons_of_pos,
        List.map_cons, SplitSearch.run_cons, item]
      by_cases hstop : s.stops target (p.recordSize m)
      · have hsome := SplitSearch.stops_isSome hstop
        have hv := SplitSearch.agree_visit_of_isSome hsome total target (p.recordSize m)
          (p.getFullKey m)
        simp only [hstop, if_true]
        exact ⟨(SplitSearch.agree_run_of_isSome (hv.key2 ▸ hsome) _ _ _).symm,
          .inr (hv.key2 ▸ hsome)⟩
      · simp only [hstop, Bool.false_eq_true, if_false]
        exact ih _
    · simp [hlt, SplitSearch.Agree.refl]

theorem visitRest_run (p : LeafNode) (total target : Nat) (ms : List LeafKVMeta)
    (s : SplitSearch) :
    SplitSearch.Agree (p.visitRest total target ms s) (s.run total target (ms.map p.item)) := by
  induction ms generalizing s with
  | nil => exact .refl s
  | cons m ms ih =>
    rw [visitRest, List.map_cons, SplitSearch.run_cons, item]
    by_cases hstop : s.stops target (p.recordSize m)
    · have hsome := SplitSearch.stops_isSome hstop
      have hv := SplitSearch.agree_visit_of_isSome hsome total target (p.recordSize m)
        (p.getFullKey m)
      simp only [hstop, if_true]
      exact (SplitSearch.agree_run_of_isSome (hv.key2 ▸ hsome) _ _ _).symm
    · simp only [hstop, Bool.false_eq_true, if_false]
      exact ih _

/-- The records left after the one with the given key, if that comes first. -/
def dropKey (p : LeafNode) (key : Key) : List LeafKVMeta → List LeafKVMeta
  | b :: bs => if p.getFullKey b = key then bs else b :: bs
  | [] => []

theorem dropKey_sublist (p : LeafNode) (key : Key) (ms : List LeafKVMeta) :
    (p.dropKey key ms).Sublist ms := by
  cases ms with
  | nil => exact List.Sublist.refl _
  | cons b bs =>
    rw [dropKey]
    split
    · exact List.sublist_cons_self b bs
    · exact List.Sublist.refl _

/-- The records of a base page and the dirty records of a mini page in key order;
a key in both counts as the mini page's. -/
def mergedItems (base mini : LeafNode) : (minis rest : List LeafKVMeta) → List (Nat × Key)
  | [], rest => rest.map base.item
  | m :: ms, rest =>
    if m.opType.isDirty then
      (rest.takeWhile fun b => base.getFullKey b < mini.getFullKey m).map base.item ++
        mini.item m :: base.mergedItems mini ms (base.dropKey (mini.getFullKey m)
          (rest.dropWhile fun b => base.getFullKey b < mini.getFullKey m))
    else base.mergedItems mini ms rest

theorem visitMerged_run (base mini : LeafNode) (total target : Nat) (minis rest : List LeafKVMeta)
    (s : SplitSearch) :
    SplitSearch.Agree
      (base.visitRest total target (base.visitMerged mini total target minis rest s).1
        (base.visitMerged mini total target minis rest s).2)
      (s.run total target (base.mergedItems mini minis rest)) := by
  induction minis generalizing rest s with
  | nil => exact visitRest_run base total target rest s
  | cons m ms ih =>
    rw [visitMerged, mergedItems]
    by_cases hd : m.opType.isDirty
    · simp only [hd, Bool.not_true, Bool.false_eq_true, if_false, if_true]
      obtain ⟨hagree, hrest⟩ := visitBelow_run base total target (mini.getFullKey m) rest s
      rw [SplitSearch.run_append, SplitSearch.run_cons]
      generalize base.visitBelow total target (mini.getFullKey m) rest s = w at hagree hrest
      obtain ⟨rest₁, s₁⟩ := w
      simp only at hagree hrest
      have hnext := hagree.visit total target (mini.recordSize m) (mini.getFullKey m)
      by_cases hsome : s₁.key2.isSome
      · -- both candidates are there, the rest does not matter
        have hv := SplitSearch.agree_visit_of_isSome hsome total target (mini.recordSize m)
          (mini.getFullKey m)
        have hv' := hv.key2 ▸ hsome
        split
        · exact (visitRest_run ..).trans (hnext.run_of_isSome hv' ..)
        · exact (ih _ _).trans (hnext.run_of_isSome hv' ..)
      · have hstop : ¬ s₁.stops target (mini.recordSize m) :=
          fun h => hsome (SplitSearch.stops_isSome h)
        obtain rfl := hrest.resolve_right hsome
        rw [if_neg hstop]
        exact (ih _ _).trans (hnext.run _ _ _)
    · simp only [hd, Bool.not_false, if_true, Bool.false_eq_true, if_false]
      exact ih rest s

/-! ## Totals and duplicates -/

/-- Total size of a list of sizes and keys. -/
def itemsSize (L : List (Nat × Key)) : Nat := (L.map Prod.fst).sum

@[simp] theorem itemsSize_cons (r : Nat × Key) (L : List (Nat × Key)) :
    itemsSize (r :: L) = r.1 + itemsSize L := by simp [itemsSize]

@[simp] theorem itemsSize_append (L L' : List (Nat × Key)) :
    itemsSize (L ++ L') = itemsSize L + itemsSize L' := by simp [itemsSize]

theorem itemsSize_map_item (p : LeafNode) (ms : List LeafKVMeta) :
    itemsSize (ms.map p.item) = (ms.map p.recordSize).sum := by
  simp [itemsSize, item, Function.comp_def]

theorem skipBelow_spec (p : LeafNode) (key : Key) (ms : List LeafKVMeta) (pos total : Nat) :
    (p.skipBelow key ms pos total).1 = ms.dropWhile (fun m => p.getFullKey m < key) ∧
    (p.skipBelow key ms pos total).2.1 =
      pos + (ms.takeWhile fun m => p.getFullKey m < key).length ∧
    u16 (p.skipBelow key ms pos total).2.2 =
      u16 (total + itemsSize ((ms.takeWhile fun m => p.getFullKey m < key).map p.item)) := by
  induction ms generalizing pos total with
  | nil => simp [skipBelow, itemsSize]
  | cons m ms ih =>
    rw [skipBelow]
    by_cases hlt : p.getFullKey m < key
    · obtain ⟨h1, h2, h3⟩ := ih (pos + 1) (u16 (total + p.recordSize m))
      simp only [hlt, if_true, decide_true, List.takeWhile_cons_of_pos, List.dropWhile_cons_of_pos,
        List.map_cons, itemsSize_cons, List.length_cons, h1, h2, h3, u16_add_u16]
      exact ⟨trivial, by omega, by rw [item, Nat.add_assoc]⟩
    · simp [hlt, itemsSize]

/-- The first pass adds up the sizes of the merged records. -/
theorem mergedTotal_total (base mini : LeafNode) (minis rest : List LeafKVMeta) (pos total : Nat)
    (dups : List Nat) :
    (base.mergedTotal mini minis rest pos total dups).1 =
      u16 (total + itemsSize (base.mergedItems mini minis rest)) := by
  induction minis generalizing rest pos total dups with
  | nil => rw [mergedTotal, mergedItems, itemsSize_map_item]
  | cons m ms ih =>
    rw [mergedTotal, mergedItems]
    by_cases hd : m.opType.isDirty
    · obtain ⟨h1, -, h3⟩ := base.skipBelow_spec (mini.getFullKey m) rest pos total
      simp only [hd, Bool.not_true, Bool.false_eq_true, if_false, if_true]
      generalize base.skipBelow (mini.getFullKey m) rest pos total = w at h1 h3
      obtain ⟨rest₁, pos₁, total₁⟩ := w
      simp only at h1 h3
      subst h1
      have hsum : ∀ n, u16 (u16 (total₁ + mini.recordSize m) + n) = u16 (total +
          (itemsSize ((rest.takeWhile fun b => base.getFullKey b < mini.getFullKey m).map
            base.item) + (mini.recordSize m + n))) := by
        intro n
        simp only [u16] at h3 ⊢
        omega
      rw [itemsSize_append, itemsSize_cons, item]
      cases hB : rest.dropWhile fun b => decide (base.getFullKey b < mini.getFullKey m) with
      | nil =>
        simp only [ih, hsum, dropKey]
      | cons b bs =>
        by_cases hb : base.getFullKey b = mini.getFullKey m
        · simp only [hb, if_true, ih, hsum, dropKey]
        · simp only [hb, if_false, ih, hsum, dropKey]
    · simp only [hd, Bool.not_false, if_true, Bool.false_eq_true, if_false]
      exact ih rest pos total dups

/-- The list holds a dirty record with the key. -/
def hasDirty (mini : LeafNode) (minis : List LeafKVMeta) (k : Key) : Bool :=
  minis.any fun m => m.opType.isDirty && decide (mini.getFullKey m = k)

theorem hasDirty_eq_false {mini : LeafNode} {minis : List LeafKVMeta} {k : Key}
    (h : ∀ m ∈ minis, k < mini.getFullKey m) : mini.hasDirty minis k = false := by
  simp only [hasDirty, List.any_eq_false, Bool.and_eq_true, decide_eq_true_eq, not_and]
  exact fun m hm _ => (h m hm).ne'

/-- Mark a base record that a dirty mini record replaces. -/
def markReplaced (base mini : LeafNode) (minis : List LeafKVMeta) (b : LeafKVMeta) : LeafKVMeta :=
  if mini.hasDirty minis (base.getFullKey b) then { b with opType := .delete } else b

theorem map_markReplaced_of_lt {base mini : LeafNode} {minis ms : List LeafKVMeta}
    (h : ∀ b ∈ ms, ∀ m ∈ minis, base.getFullKey b < mini.getFullKey m) :
    ms.map (base.markReplaced mini minis) = ms := by
  have hid : ∀ b ∈ ms, base.markReplaced mini minis b = id b := fun b hb => by
    rw [markReplaced, hasDirty_eq_false (h b hb), if_neg Bool.false_ne_true, id]
  rw [List.map_congr_left hid, List.map_id]

/-- Skipping a mini record whose key no base record has. -/
theorem map_markReplaced_cons {base mini : LeafNode} {minis ms : List LeafKVMeta} {m : LeafKVMeta}
    (h : ∀ b ∈ ms, m.opType.isDirty → mini.getFullKey m ≠ base.getFullKey b) :
    ms.map (base.markReplaced mini (m :: minis)) = ms.map (base.markReplaced mini minis) := by
  refine List.map_congr_left fun b hb => ?_
  have hm : (m.opType.isDirty && decide (mini.getFullKey m = base.getFullKey b)) = false := by
    simpa using h b hb
  rw [markReplaced, markReplaced, hasDirty, List.any_cons, hm, Bool.false_or, hasDirty]

/-- The first pass finds exactly the base records that a dirty mini record
replaces. `pre` is what the walk has passed. -/
theorem mergedTotal_duplicates {base mini : LeafNode} {minis rest : List LeafKVMeta}
    (hminis : KeySorted mini.getFullKey minis) (hrest : KeySorted base.getFullKey rest)
    (pos total : Nat) (dups : List Nat) :
    ∃ D, (base.mergedTotal mini minis rest pos total dups).2 = dups ++ D ∧
      ∀ pre : List LeafKVMeta, pre.length = pos →
        D.foldl markDeletedAt (pre ++ rest) = pre ++ rest.map (base.markReplaced mini minis) := by
  induction minis generalizing rest pos total dups with
  | nil =>
    refine ⟨[], by simp [mergedTotal], fun pre _ => ?_⟩
    rw [List.foldl_nil, map_markReplaced_of_lt fun _ _ m hm => absurd hm List.not_mem_nil]
  | cons m ms ih =>
    obtain ⟨hm, hms⟩ := keySorted_cons.mp hminis
    rw [mergedTotal]
    by_cases hd : m.opType.isDirty
    · obtain ⟨h1, h2, -⟩ := base.skipBelow_spec (mini.getFullKey m) rest pos total
      simp only [hd, Bool.not_true, Bool.false_eq_true, if_false]
      generalize base.skipBelow (mini.getFullKey m) rest pos total = w at h1 h2
      obtain ⟨rest₁, pos₁, total₁⟩ := w
      simp only at h1 h2
      have hsplit := hrest.splitAt_takeWhile fun b =>
        (decide_eq_true_iff : _ ↔ base.getFullKey b < mini.getFullKey m)
      rw [← h1] at hsplit
      generalize rest.takeWhile (fun b => decide (base.getFullKey b < mini.getFullKey m)) = A
        at h2 hsplit
      obtain ⟨rfl, hlt, hge⟩ := hsplit
      obtain ⟨-, hsorted, -⟩ := keySorted_append.mp hrest
      -- the records below the key stay as they are
      have hA : A.map (base.markReplaced mini (m :: ms)) = A := by
        refine map_markReplaced_of_lt fun b hb x hx => ?_
        obtain rfl | hx := List.mem_cons.mp hx
        · exact hlt b hb
        · exact (hlt b hb).trans (hm x hx)
      -- when no record left has the key, the walk goes on after `A`
      have hnone (hne : ∀ b ∈ rest₁, mini.getFullKey m ≠ base.getFullKey b) (total₂ : Nat) :
          ∃ D, (base.mergedTotal mini ms rest₁ pos₁ total₂ dups).2 = dups ++ D ∧
            ∀ pre : List LeafKVMeta, pre.length = pos →
              D.foldl markDeletedAt (pre ++ (A ++ rest₁)) =
                pre ++ (A ++ rest₁).map (base.markReplaced mini (m :: ms)) := by
        obtain ⟨D, hD, hfold⟩ := ih hms hsorted pos₁ total₂ dups
        refine ⟨D, hD, fun pre hpre => ?_⟩
        rw [← List.append_assoc, hfold (pre ++ A) (by rw [List.length_append, hpre, h2]),
          List.map_append, hA, map_markReplaced_cons fun b hb _ => hne b hb, List.append_assoc]
      cases rest₁ with
      | nil => exact hnone (fun b hb => absurd hb List.not_mem_nil) _
      | cons b bs =>
        obtain ⟨hb, hbs⟩ := keySorted_cons.mp hsorted
        by_cases heq : base.getFullKey b = mini.getFullKey m
        · simp only [heq, if_true]
          obtain ⟨D, hD, hfold⟩ := ih hms hbs (pos₁ + 1) (u16 (total₁ + mini.recordSize m))
            (dups ++ [pos₁])
          refine ⟨pos₁ :: D, by rw [hD, List.append_assoc]; rfl, fun pre hpre => ?_⟩
          have hpos : pos₁ = (pre ++ A).length := by rw [List.length_append, hpre, h2]
          have hmark : markDeletedAt (pre ++ (A ++ b :: bs)) pos₁ =
              pre ++ A ++ [{ b with opType := .delete }] ++ bs := by
            rw [markDeletedAt, ← List.append_assoc, hpos, modify_length_append]
            simp
          have hbmap : base.markReplaced mini (m :: ms) b = { b with opType := .delete } := by
            rw [markReplaced, hasDirty, List.any_cons, hd, heq, decide_eq_true rfl]
            rfl
          rw [List.foldl_cons, hmark, hfold _ (by rw [List.length_append, ← hpos]; rfl), List.map_append, hA, List.map_cons,
            hbmap, map_markReplaced_cons fun x hx _ => heq ▸ (hb x hx).ne]
          simp
        · have hne : ∀ x ∈ b :: bs, mini.getFullKey m ≠ base.getFullKey x := by
            intro x hx
            obtain rfl | hx := List.mem_cons.mp hx
            · exact Ne.symm heq
            · exact ((hge b List.mem_cons_self).trans_lt (hb x hx)).ne
          simp only [heq, if_false]
          exact hnone hne _
    · simp only [hd, Bool.not_false, if_true]
      obtain ⟨D, hD, hfold⟩ := ih hms hrest pos total dups
      refine ⟨D, hD, fun pre hpre => ?_⟩
      rw [hfold pre hpre, map_markReplaced_cons fun _ _ hd' => absurd hd' hd]

/-! ## The candidates -/

/-- What is known of the candidates in every walk: they are visited keys, in
order. -/
structure SplitSearch.Candidates (s : SplitSearch) (K : Key → Prop) : Prop where
  key1_mem : ∀ k, s.key1 = some k → K k
  key2_mem : ∀ k, s.key2 = some k → K k
  lt : ∀ k k', s.key1 = some k → s.key2 = some k' → k < k'
  key2_none : s.key1 = none → s.key2 = none

theorem SplitSearch.visit_cases (s : SplitSearch) (total target size : Nat) (key : Key) :
    ((s.visit total target size key).key1 = s.key1 ∧
      (s.visit total target size key).key2 = s.key2) ∨
    (s.key1 = none ∧ (s.visit total target size key).key1 = some key ∧
      (s.visit total target size key).key2 = s.key2) ∨
    (s.key1 ≠ none ∧ (s.visit total target size key).key1 = s.key1 ∧
      (s.visit total target size key).key2 = some key) := by
  rw [SplitSearch.visit]
  split
  · exact .inl ⟨rfl, rfl⟩
  · split
    · next h => exact .inr (.inl ⟨Option.isNone_iff_eq_none.mp h, rfl, rfl⟩)
    · next h => exact .inr (.inr ⟨fun hn => h (Option.isNone_iff_eq_none.mpr hn), rfl, rfl⟩)

theorem SplitSearch.Candidates.run {s : SplitSearch} {K : Key → Prop} (hs : s.Candidates K)
    {L : List (Nat × Key)} (hL : KeySorted Prod.snd L) (hK : ∀ r ∈ L, K r.2)
    (hbelow : ∀ k, s.key1 = some k → ∀ r ∈ L, k < r.2) (total target : Nat) :
    (s.run total target L).Candidates K := by
  induction L generalizing s with
  | nil => exact hs
  | cons r L ih =>
    obtain ⟨hr, hL⟩ := keySorted_cons.mp hL
    have hKr := hK r List.mem_cons_self
    have hbelow' : ∀ k, s.key1 = some k → ∀ r ∈ L, k < r.2 :=
      fun k hk x hx => hbelow k hk x (List.mem_cons_of_mem r hx)
    obtain ⟨hm1, hm2, hlt, hnone⟩ := hs
    rw [SplitSearch.run_cons]
    obtain ⟨h1, h2⟩ | ⟨hn, h1, h2⟩ | ⟨hn, h1, h2⟩ := s.visit_cases total target r.1 r.2
    · refine ih ⟨?_, ?_, ?_, ?_⟩ hL (fun x hx => hK x (List.mem_cons_of_mem r hx)) ?_ <;>
        simpa only [h1, h2]
    · -- the first candidate
      have hkey2 : (s.visit total target r.1 r.2).key2 = none := h2.trans (hnone hn)
      refine ih ⟨?_, ?_, ?_, ?_⟩ hL (fun x hx => hK x (List.mem_cons_of_mem r hx)) ?_
      · rintro k hk
        obtain rfl : r.2 = k := by simpa [h1] using hk
        exact hKr
      · simp [hkey2]
      · simp [hkey2]
      · simp [hkey2]
      · rintro k hk
        obtain rfl : r.2 = k := by simpa [h1] using hk
        exact hr
    · -- the second candidate
      refine ih ⟨by rwa [h1], ?_, ?_, by simp [h1, hn]⟩ hL
        (fun x hx => hK x (List.mem_cons_of_mem r hx)) (by rwa [h1])
      · rintro k hk
        obtain rfl : r.2 = k := by simpa [h2] using hk
        exact hKr
      · intro k k' hk hk'
        obtain rfl : r.2 = k' := by simpa [h2] using hk'
        exact hbelow k (h1 ▸ hk) r List.mem_cons_self

theorem mergedItems_mem {base mini : LeafNode} {minis rest : List LeafKVMeta} {r : Nat × Key}
    (h : r ∈ base.mergedItems mini minis rest) :
    (∃ b ∈ rest, base.item b = r) ∨ ∃ m ∈ minis, m.opType.isDirty ∧ mini.item m = r := by
  induction minis generalizing rest with
  | nil =>
    obtain ⟨b, hb, hr⟩ := List.mem_map.mp h
    exact .inl ⟨b, hb, hr⟩
  | cons m ms ih =>
    rw [mergedItems] at h
    split at h
    · next hd =>
      obtain h | h | h : r ∈ _ ∨ r = mini.item m ∨ r ∈ _ := by
        simpa only [List.mem_append, List.mem_cons] using h
      · obtain ⟨b, hb, hr⟩ := List.mem_map.mp h
        exact .inl ⟨b, (List.takeWhile_sublist _).mem hb, hr⟩
      · exact .inr ⟨m, List.mem_cons_self, hd, h.symm⟩
      · obtain ⟨b, hb, hr⟩ | ⟨x, hx, hr⟩ := ih h
        · exact .inl ⟨b, (List.dropWhile_sublist _).mem (dropKey_sublist .. |>.mem hb), hr⟩
        · exact .inr ⟨x, List.mem_cons_of_mem m hx, hr⟩
    · obtain hb | ⟨x, hx, hr⟩ := ih h
      · exact .inl hb
      · exact .inr ⟨x, List.mem_cons_of_mem m hx, hr⟩

theorem mergedItems_sorted {base mini : LeafNode} {minis rest : List LeafKVMeta}
    (hminis : KeySorted mini.getFullKey minis) (hrest : KeySorted base.getFullKey rest) :
    KeySorted Prod.snd (base.mergedItems mini minis rest) := by
  have hitems (p : LeafNode) {ms : List LeafKVMeta} (h : KeySorted p.getFullKey ms) :
      KeySorted Prod.snd (ms.map p.item) := List.pairwise_map.mpr h
  induction minis generalizing rest with
  | nil => exact hitems base hrest
  | cons m ms ih =>
    obtain ⟨hm, hms⟩ := keySorted_cons.mp hminis
    rw [mergedItems]
    split
    · have hsplit := hrest.splitAt_takeWhile fun b =>
        (decide_eq_true_iff : _ ↔ base.getFullKey b < mini.getFullKey m)
      generalize rest.takeWhile (fun b => decide (base.getFullKey b < mini.getFullKey m)) = A
        at hsplit
      generalize rest.dropWhile (fun b => decide (base.getFullKey b < mini.getFullKey m)) = B
        at hsplit
      obtain ⟨rfl, hlt, hge⟩ := hsplit
      obtain ⟨hA, hB, -⟩ := keySorted_append.mp hrest
      -- what is left is above the mini record
      have hgt : ∀ b ∈ base.dropKey (mini.getFullKey m) B, mini.getFullKey m < base.getFullKey b := by
        cases B with
        | nil => intro b hb; simp [dropKey] at hb
        | cons x B =>
          obtain ⟨hx, -⟩ := keySorted_cons.mp hB
          have hge' := hge x List.mem_cons_self
          intro b hb
          rw [dropKey] at hb
          split at hb
          · next heq => exact heq ▸ hx b hb
          · next hne =>
            obtain rfl | hb := List.mem_cons.mp hb
            · exact lt_of_le_of_ne hge' (Ne.symm hne)
            · exact hge'.trans_lt (hx b hb)
      have htail := ih hms (hB.sublist (dropKey_sublist base (mini.getFullKey m) B))
      have hcons : KeySorted Prod.snd (mini.item m ::
          base.mergedItems mini ms (base.dropKey (mini.getFullKey m) B)) := by
        refine keySorted_cons.mpr ⟨fun r hr => ?_, htail⟩
        obtain ⟨b, hb, rfl⟩ | ⟨x, hx, -, rfl⟩ := mergedItems_mem hr
        · exact hgt b hb
        · exact hm x hx
      refine keySorted_append.mpr ⟨hitems base hA, hcons, fun r hr r' hr' => ?_⟩
      obtain ⟨a, ha, rfl⟩ := List.mem_map.mp hr
      refine (hlt a ha).trans_le ?_
      obtain rfl | hr' := List.mem_cons.mp hr'
      · exact le_rfl
      · exact ((keySorted_cons.mp hcons).1 r' hr').le
    · exact ih hms hrest

/-! ## The split key of a merge -/

theorem WF.entry_ne_none {p : LeafNode} (h : p.WF) {m : LeafKVMeta} (hm : m ∈ p.metas) :
    p.entry (p.getFullKey m) ≠ none := by
  rw [(entry_eq_some h).mpr ⟨m, hm, rfl, rfl, rfl⟩]
  simp

/-- The page holds a dirty record for the key. -/
def dirtyAt (p : LeafNode) (k : Key) : Bool :=
  (p.entry k).any fun e => e.1.isDirty

theorem hasDirty_metas {p : LeafNode} (h : p.WF) (k : Key) : p.hasDirty p.metas k = p.dirtyAt k := by
  rw [Bool.eq_iff_iff]
  simp only [hasDirty, dirtyAt, List.any_eq_true, Option.any_eq_true, Bool.and_eq_true,
    decide_eq_true_eq, Prod.exists]
  constructor
  · rintro ⟨m, hm, hd, hk⟩
    exact ⟨m.opType, m.value, (entry_eq_some h).mpr ⟨m, hm, hk, rfl, rfl⟩, hd⟩
  · rintro ⟨op, v, he, hd⟩
    obtain ⟨m, hm, hk, rfl, rfl⟩ := (entry_eq_some h).mp he
    exact ⟨m, hm, hd, hk⟩

/-- What the merge split key is: a key of the base page or of a dirty mini record,
strictly above the low fence. The base records that the mini page replaces end up
deleted. -/
structure MergeSplit (base mini base' : LeafNode) (key : Key) : Prop where
  wf : base'.WF
  header : SameHeader base base'
  entry : ∀ x, base'.entry x =
    (base.entry x).map fun e => (if mini.dirtyAt x then .delete else e.1, e.2)
  key_mem : base.entry key ≠ none ∨ mini.entry key ≠ none
  covers : base.Covers key
  ne_low : base.lowFence ≠ [] → base.lowFence < key

theorem start_candidates (K : Key → Prop) : SplitSearch.start.Candidates K := by
  constructor <;> simp [SplitSearch.start]

/-- The search is one walk over the merged records. -/
theorem mergeSearch_run (base mini : LeafNode) :
    (base.mergeSearch mini).1.Agree (SplitSearch.start.run
      (u16 (itemsSize (base.mergedItems mini mini.metas base.metas)))
      (u16 (itemsSize (base.mergedItems mini mini.metas base.metas)) / 2)
      (base.mergedItems mini mini.metas base.metas)) := by
  have htotal := mergedTotal_total base mini mini.metas base.metas 0 0 []
  rw [Nat.zero_add] at htotal
  rw [← htotal]
  exact visitMerged_run ..

theorem mergeSearch_duplicates {base mini : LeafNode} (hb : base.WF) (hm : mini.WF) :
    (base.mergeSearch mini).2.foldl markDeletedAt base.metas =
      base.metas.map (base.markReplaced mini mini.metas) := by
  obtain ⟨D, hD, hfold⟩ := mergedTotal_duplicates hm.sorted hb.sorted 0 0 []
  have hnil := hfold [] rfl
  rwa [List.nil_append, List.nil_append, ← List.nil_append D, ← hD] at hnil

theorem mergeSearch_candidates {base mini : LeafNode} (hb : base.WF) (hm : mini.WF) :
    (base.mergeSearch mini).1.Candidates fun k => base.entry k ≠ none ∨ mini.entry k ≠ none := by
  have hmem : ∀ r ∈ base.mergedItems mini mini.metas base.metas,
      base.entry r.2 ≠ none ∨ mini.entry r.2 ≠ none := by
    intro r hr
    obtain ⟨b, hb', rfl⟩ | ⟨m, hm', -, rfl⟩ := mergedItems_mem hr
    · exact .inl (hb.entry_ne_none hb')
    · exact .inr (hm.entry_ne_none hm')
  have hs := mergeSearch_run base mini
  generalize u16 (itemsSize (base.mergedItems mini mini.metas base.metas)) = total at hs
  have hc := (start_candidates fun k => base.entry k ≠ none ∨ mini.entry k ≠ none).run
    (mergedItems_sorted hm.sorted hb.sorted) hmem (by simp [SplitSearch.start]) total (total / 2)
  exact ⟨hs.key1 ▸ hc.key1_mem, hs.key2 ▸ hc.key2_mem, hs.key1 ▸ hs.key2 ▸ hc.lt,
    hs.key1 ▸ hs.key2 ▸ hc.key2_none⟩

theorem SplitSearch.best_mem {s : SplitSearch} {k : Key} (h : s.best = some k) :
    s.key1 = some k ∨ s.key2 = some k := by
  rw [SplitSearch.best] at h
  split at h
  · exact .inl h
  · exact .inr h

/-- The chosen key is a candidate above a low fence that no candidate is below. -/
theorem chooseSplitKey_spec {s : SplitSearch} {K : Key → Prop} {low high key : Key}
    (hc : s.Candidates K) (hlow : ∀ k, K k → low ≤ k)
    (h : chooseSplitKey s low high = some key) : K key ∧ (low ≠ [] → low < key) := by
  simp only [chooseSplitKey, Option.bind_eq_bind, Option.bind_eq_some_iff] at h
  obtain ⟨key1, hk1, _, -, best, hbest, splittingKey, hsplit, _, -, hkey⟩ := h
  obtain rfl : splittingKey = key := by simpa using hkey
  have hlow1 : low ≤ key1 := hlow key1 (hc.key1_mem key1 hk1)
  split at hsplit
  · -- the second candidate replaces the low fence
    exact ⟨hc.key2_mem _ hsplit, fun _ => hlow1.trans_lt (hc.lt _ _ hk1 hsplit)⟩
  · next hne =>
    obtain rfl : best = splittingKey := by simpa using hsplit
    have hK := (SplitSearch.best_mem hbest).elim (hc.key1_mem _) (hc.key2_mem _)
    exact ⟨hK, fun hl => lt_of_le_of_ne (hlow _ hK) fun he => hne ⟨hl, he.symm⟩⟩

theorem mapOp_dirtyAt {base mini : LeafNode} (hm : mini.WF) :
    base.mapOp (fun k op => if mini.dirtyAt k then .delete else op) =
      { base with metas := base.metas.map (base.markReplaced mini mini.metas) } := by
  rw [mapOp]
  congr 2
  funext b
  rw [markReplaced, hasDirty_metas hm]
  split <;> rfl

theorem getMergeSplitKey_spec {base base' mini : LeafNode} (hb : base.WF) (hm : mini.WF)
    (hcov : ∀ k, mini.entry k ≠ none → base.Covers k) {key : Key}
    (h : base.getMergeSplitKey mini = some (key, base')) : MergeSplit base mini base' key := by
  rw [getMergeSplitKey, mergeSearch_duplicates hb hm, Option.map_eq_some_iff] at h
  obtain ⟨k, hkey, hr⟩ := h
  obtain ⟨rfl, rfl⟩ := Prod.mk.inj hr
  have hcovers : ∀ k, base.entry k ≠ none ∨ mini.entry k ≠ none → base.Covers k := by
    rintro k (hk | hk)
    · obtain ⟨e, he⟩ := Option.ne_none_iff_exists'.mp hk
      exact hb.covers_of_entry he
    · exact hcov k hk
  obtain ⟨hK, hlt⟩ := chooseSplitKey_spec (mergeSearch_candidates hb hm)
    (fun k hk => (hcovers k hk).1) hkey
  obtain ⟨hwf, hentry⟩ := mapOp_spec hb fun k op => if mini.dirtyAt k then .delete else op
  rw [mapOp_dirtyAt hm] at hwf hentry
  exact ⟨hwf, rfl, hentry, hK, hcovers k hK, hlt⟩

/-! ## A second merge

The split key depends on the keys and sizes of the records only, so that marking the
replaced ones changes nothing for a merge that is tried again. -/

theorem mergedItems_map {base mini : LeafNode} {f : LeafKVMeta → LeafKVMeta}
    (hf : ∀ b, base.item (f b) = base.item b) (minis rest : List LeafKVMeta) :
    base.mergedItems mini minis (rest.map f) = base.mergedItems mini minis rest := by
  have hkey : ∀ b, base.getFullKey (f b) = base.getFullKey b := fun b => congrArg Prod.snd (hf b)
  induction minis generalizing rest with
  | nil =>
    rw [mergedItems, mergedItems, List.map_map]
    exact List.map_congr_left fun b _ => hf b
  | cons m ms ih =>
    have hdrop : ∀ k (bs : List LeafKVMeta),
        base.dropKey k (bs.map f) = (base.dropKey k bs).map f := by
      intro k bs
      cases bs with
      | nil => rfl
      | cons b bs =>
        rw [List.map_cons, dropKey, dropKey, hkey]
        split <;> rfl
    rw [mergedItems, mergedItems]
    simp only [List.takeWhile_map, List.dropWhile_map, Function.comp_def, hkey, hdrop, ih,
      List.map_map, hf]

/-- Only the keys and sizes of the records matter. -/
theorem mergedItems_congr {base base' mini mini' : LeafNode} (hb : base'.item = base.item)
    (hm : mini'.item = mini.item) (minis rest : List LeafKVMeta) :
    base'.mergedItems mini' minis rest = base.mergedItems mini minis rest := by
  have hbase : base'.getFullKey = base.getFullKey :=
    funext fun b => congrArg Prod.snd (congrFun hb b)
  have hmini : mini'.getFullKey = mini.getFullKey :=
    funext fun m => congrArg Prod.snd (congrFun hm m)
  have hdrop : ∀ k (bs : List LeafKVMeta), base'.dropKey k bs = base.dropKey k bs := by
    intro k bs
    cases bs with
    | nil => rfl
    | cons b bs => rw [dropKey, dropKey, hbase]
  induction minis generalizing rest with
  | nil => rw [mergedItems, mergedItems, hb]
  | cons m ms ih => rw [mergedItems, mergedItems, ih, ih, hbase, hmini, hb, hm, hdrop]

theorem chooseSplitKey_agree {s t : SplitSearch} (h : s.Agree t) (low high : Key) :
    chooseSplitKey s low high = chooseSplitKey t low high := by
  simp only [chooseSplitKey, h.key1, h.key2, h.best]

/-- The search over the merged records. -/
def mergeRun (base mini : LeafNode) : SplitSearch :=
  let items := base.mergedItems mini mini.metas base.metas
  SplitSearch.start.run (u16 (itemsSize items)) (u16 (itemsSize items) / 2) items

theorem mergeRun_congr {base base' mini mini' : LeafNode}
    (h : base'.mergedItems mini' mini'.metas base'.metas =
      base.mergedItems mini mini.metas base.metas) : base'.mergeRun mini' = base.mergeRun mini := by
  rw [mergeRun, mergeRun, h]

theorem getMergeSplitKey_eq {base mini : LeafNode} (hb : base.WF) (hm : mini.WF) :
    base.getMergeSplitKey mini =
      (chooseSplitKey (base.mergeRun mini) base.lowFence base.highFence).map fun key =>
        (key, { base with metas := base.metas.map (base.markReplaced mini mini.metas) }) := by
  rw [getMergeSplitKey, mergeSearch_duplicates hb hm,
    chooseSplitKey_agree (mergeSearch_run base mini), mergeRun]

theorem markReplaced_item (base mini : LeafNode) (minis : List LeafKVMeta) (b : LeafKVMeta) :
    base.item (base.markReplaced mini minis b) = base.item b := by
  rw [markReplaced]
  split <;> rfl

/-- The marked page has the same slots and the same free space. -/
theorem getMergeSplitKey_marks {base base' mini : LeafNode} (hb : base.WF) (hm : mini.WF) {key : Key}
    (h : base.getMergeSplitKey mini = some (key, base')) :
    base'.WF ∧ base' = { base with metas := base'.metas } ∧
      base'.metas.length = base.metas.length := by
  have hb' := (mapOp_spec hb fun k op => if mini.dirtyAt k then .delete else op).1
  rw [mapOp_dirtyAt hm] at hb'
  rw [getMergeSplitKey_eq hb hm, Option.map_eq_some_iff] at h
  obtain ⟨k, -, hr⟩ := h
  obtain ⟨rfl, rfl⟩ := Prod.mk.inj hr
  exact ⟨hb', rfl, List.length_map _⟩

theorem getMergeSplitKey_again {base base' mini : LeafNode} (hb : base.WF) (hm : mini.WF) {key : Key}
    (h : base.getMergeSplitKey mini = some (key, base')) :
    base'.getMergeSplitKey mini = some (key, base') := by
  have hb' := (getMergeSplitKey_marks hb hm h).1
  rw [getMergeSplitKey_eq hb hm, Option.map_eq_some_iff] at h
  obtain ⟨k, hkey, hr⟩ := h
  obtain ⟨rfl, rfl⟩ := Prod.mk.inj hr
  have hmark : ∀ b, base.markReplaced mini mini.metas (base.markReplaced mini mini.metas b) =
      base.markReplaced mini mini.metas b := by
    intro b
    have hk : base.getFullKey (base.markReplaced mini mini.metas b) = base.getFullKey b :=
      congrArg Prod.snd (markReplaced_item base mini mini.metas b)
    conv_lhs => rw [markReplaced, hk]
    rw [markReplaced]
    split <;> rfl
  have hrun : mergeRun { base with metas := base.metas.map (base.markReplaced mini mini.metas) } mini =
      base.mergeRun mini := by
    refine mergeRun_congr ?_
    rw [← mergedItems_map (markReplaced_item base mini mini.metas) mini.metas base.metas]
    refine mergedItems_congr ?_ ?_ _ _ <;> rfl
  rw [getMergeSplitKey_eq hb' hm, hrun, hkey, Option.map_some]
  congr 3
  rw [List.map_map]
  exact List.map_congr_left fun b _ => hmark b

/-- Nor do the versions matter. -/
theorem getMergeSplitKey_setSnapshotVersion {base mini : LeafNode} (hb : base.WF) (hm : mini.WF)
    (ver ver' : Nat) (changed changed' : Bool) :
    (base.setSnapshotVersion ver changed).getMergeSplitKey (mini.setSnapshotVersion ver' changed') =
      (base.getMergeSplitKey mini).map fun r => (r.1, r.2.setSnapshotVersion ver changed) := by
  have hb' : (base.setSnapshotVersion ver changed).WF := ⟨hb.prefixLen_eq, hb.no_fence, hb.sorted,
    hb.inRange⟩
  have hm' : (mini.setSnapshotVersion ver' changed').WF := ⟨hm.prefixLen_eq, hm.no_fence, hm.sorted,
    hm.inRange⟩
  have hrun : (base.setSnapshotVersion ver changed).mergeRun (mini.setSnapshotVersion ver' changed') =
      base.mergeRun mini := by
    refine mergeRun_congr (mergedItems_congr ?_ ?_ _ _) <;> rfl
  rw [getMergeSplitKey_eq hb' hm', getMergeSplitKey_eq hb hm, hrun, Option.map_map]
  rfl

end LeafNode

end BfTree
