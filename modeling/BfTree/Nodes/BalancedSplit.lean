import BfTree.Nodes.Reads
import BfTree.Nodes.SplitBalance

/-!
# BfTree.Nodes.BalancedSplit — the split key of a merge

The sizes of the two sides of a split are kept in unsigned 16-bit counters and compared as
signed 16-bit numbers. Where none of that wraps around, the key that a splitting merge
chooses divides the records of both pages evenly.
-/

namespace BfTree.LeafNode

open Lib

/-! ## Exact arithmetic -/

/-- Comparing the sides as signed numbers loses nothing. -/
structure ExactSides (left right : Nat) : Prop where
  left_exact : i16 left = left
  right_exact : i16 right = right
  diff_exact : i16 (i16 left - i16 right) = left - right
  abs_exact : sideDiff left right = Nat.dist left right

theorem i16_eq_self {n : Nat} (h : n < 65536) : i16 n = n ↔ n < 32768 := by
  constructor
  · intro he
    have hlt : i16 n < (65536 + 1) / 2 := Int.bmod_lt (by decide)
    rw [he] at hlt
    omega
  · intro hlt
    exact i16_of_bounds (by omega) (by omega)

theorem exactSides_iff {left right : Nat} (hl : left < 65536) (hr : right < 65536) :
    ExactSides left right ↔ left < 32768 ∧ right < 32768 := by
  constructor
  · intro h
    exact ⟨(i16_eq_self hl).1 h.left_exact, (i16_eq_self hr).1 h.right_exact⟩
  · rintro ⟨hl', hr'⟩
    refine ⟨(i16_eq_self hl).2 hl', (i16_eq_self hr).2 hr', ?_, sideDiff_eq (by omega) (by omega)⟩
    rw [(i16_eq_self hl).2 hl', (i16_eq_self hr).2 hr']
    exact i16_of_bounds (by omega) (by omega)

/-- The record is a candidate: half of the total is reached, and there are less than two
candidates before it. -/
def SplitSearch.takes (s : SplitSearch) (target size : Nat) : Prop :=
  target ≤ u16 (s.mergedSize + size) ∧ s.key2 = none

/-- A search over these records never wraps around: neither when it adds up their sizes nor
when it compares the sides of a candidate. -/
structure NoWrap (L : List (Nat × Key)) : Prop where
  sums : ∀ X Y, L = X ++ Y → itemsSize X < 65536
  sides : ∀ X r Y, L = X ++ r :: Y →
    (SplitSearch.start.run (itemsSize L) (itemsSize L / 2) X).takes (itemsSize L / 2) r.1 →
    ExactSides (itemsSize X) (itemsSize L - itemsSize X)

theorem NoWrap.total_lt {L : List (Nat × Key)} (h : NoWrap L) : itemsSize L < 65536 :=
  h.sums L [] (by simp)

theorem NoWrap.of_lt {L : List (Nat × Key)} (h : itemsSize L < 32768) : NoWrap L := by
  have hpart : ∀ X Y, L = X ++ Y → itemsSize X ≤ itemsSize L := by
    rintro X Y rfl
    rw [itemsSize_append]
    exact Nat.le_add_right _ _
  refine ⟨fun X Y hL => ?_, fun X r Y hL _ => ?_⟩
  · have := hpart X Y hL
    omega
  · have := hpart X (r :: Y) hL
    exact (exactSides_iff (by omega) (by omega)).2 ⟨by omega, by omega⟩

namespace SplitSearch

/-- Before half of the total is reached the search only adds up. -/
theorem run_before {L : List (Nat × Key)} {total target : Nat} :
    ∀ {s : SplitSearch}, s.mergedSize + itemsSize L < 65536 →
      (L = [] ∨ s.mergedSize + itemsSize L < target) →
      s.run total target L = { s with mergedSize := s.mergedSize + itemsSize L } := by
  induction L with
  | nil => intro s _ _; rfl
  | cons r L ih =>
    intro s hlt htarget
    rw [itemsSize_cons] at hlt htarget
    have htarget' : s.mergedSize + (r.1 + itemsSize L) < target := htarget.resolve_left (by simp)
    have hsum : u16 (s.mergedSize + r.1) = s.mergedSize + r.1 := u16_of_lt (by omega)
    have hvisit : s.visit total target r.1 r.2 = { s with mergedSize := s.mergedSize + r.1 } := by
      rw [visit, hsum, if_pos (.inl (by omega))]
    rw [run_cons, hvisit, ih (by dsimp only; omega) (.inr (by dsimp only; omega)), itemsSize_cons]
    dsimp only
    congr 1
    omega

end SplitSearch

/-- The search takes the record `r` that reaches half of the total and the one after it. -/
theorem noWrap_iff_sides {L X Y : List (Nat × Key)} {r : Nat × Key} (hlt : itemsSize L < 65536)
    (heq : L = X ++ r :: Y) (hbefore : X = [] ∨ itemsSize X < itemsSize L / 2)
    (hreached : itemsSize L / 2 ≤ itemsSize X + r.1) :
    NoWrap L ↔ ExactSides (itemsSize X) (itemsSize L - itemsSize X) ∧
      (Y ≠ [] → ExactSides (itemsSize X + r.1) (itemsSize L - (itemsSize X + r.1))) := by
  have hL : itemsSize L = itemsSize X + (r.1 + itemsSize Y) := by
    rw [heq, itemsSize_append, itemsSize_cons]
  have hzero : SplitSearch.start.mergedSize = 0 := rfl
  -- the states in which the two records are met
  have hX : SplitSearch.start.run (itemsSize L) (itemsSize L / 2) X =
      { SplitSearch.start with mergedSize := itemsSize X } := by
    rw [SplitSearch.run_before (by omega) (by rw [hzero, Nat.zero_add]; exact hbefore), hzero,
      Nat.zero_add]
  have hXr : (SplitSearch.start.run (itemsSize L) (itemsSize L / 2) (X ++ [r])).mergedSize =
        itemsSize X + r.1 ∧
      (SplitSearch.start.run (itemsSize L) (itemsSize L / 2) (X ++ [r])).key1 ≠ none ∧
      (SplitSearch.start.run (itemsSize L) (itemsSize L / 2) (X ++ [r])).key2 = none := by
    have hsum : u16 (itemsSize X + r.1) = itemsSize X + r.1 := u16_of_lt (by omega)
    have hnot : ¬ itemsSize X + r.1 < itemsSize L / 2 := by omega
    rw [SplitSearch.run_append, hX, SplitSearch.run_cons, SplitSearch.run_nil]
    simp [SplitSearch.visit, SplitSearch.start, hsum, hnot]
  constructor
  · intro h
    refine ⟨h.sides X r Y heq ?_, fun hY => ?_⟩
    · rw [hX]
      exact ⟨by dsimp only; rw [u16_of_lt (by omega)]; exact hreached, rfl⟩
    · obtain ⟨y, Z, rfl⟩ := List.exists_cons_of_ne_nil hY
      rw [itemsSize_cons] at hL
      have hone : itemsSize (X ++ [r]) = itemsSize X + r.1 := by simp [itemsSize]
      have hsides := h.sides (X ++ [r]) y Z (by rw [heq]; simp) ⟨?_, hXr.2.2⟩
      · rwa [hone] at hsides
      · rw [hXr.1, u16_of_lt (by omega)]
        omega
  · rintro ⟨hfirst, hsecond⟩
    refine ⟨fun A B hAB => ?_, fun A a B hAB htakes => ?_⟩
    · have := congrArg itemsSize hAB
      rw [itemsSize_append] at this
      omega
    · -- `a` is neither before `r` nor after the record behind it
      obtain ⟨htarget, hkey2⟩ := htakes
      rw [heq] at hAB
      obtain ⟨C, rfl, hC⟩ | ⟨C, rfl, hC⟩ := List.append_eq_append_iff.1 hAB
      · cases C with
        | nil => simpa using hfirst
        | cons c C =>
          obtain ⟨rfl, rfl⟩ := List.cons.inj hC
          cases C with
          | nil =>
            have hone : itemsSize (X ++ [r]) = itemsSize X + r.1 := by simp [itemsSize]
            rw [hone]
            exact hsecond (by simp)
          | cons c C =>
            exfalso
            obtain ⟨k, hk⟩ := Option.ne_none_iff_exists'.1 hXr.2.1
            change itemsSize L = itemsSize X + (r.1 + itemsSize ((c :: C) ++ a :: B)) at hL
            rw [itemsSize_append] at hL
            have hsome := (SplitSearch.run_second (itemsSize L) (itemsSize L / 2) (L := c :: C) hk
              hXr.2.2 (by rw [hXr.1]; exact hreached) (by
                rw [hXr.1]
                omega)).2.2.2 c C rfl
            rw [← SplitSearch.run_append, List.append_assoc] at hsome
            rw [show X ++ r :: c :: C = X ++ ([r] ++ c :: C) from rfl, hsome.1] at hkey2
            cases hkey2
      · cases C with
        | nil =>
          obtain ⟨rfl, rfl⟩ := List.cons.inj hC
          simpa using hfirst
        | cons c C =>
          exfalso
          obtain ⟨rfl, rfl⟩ := List.cons.inj hC
          have hlt' := hbefore.resolve_left (by simp)
          rw [itemsSize_append, itemsSize_cons] at hlt' hL
          rw [SplitSearch.run_before (by omega) (.inr (by omega)), hzero, Nat.zero_add] at htarget
          dsimp only at htarget
          rw [u16_of_lt (by omega)] at htarget
          omega

/-- Where the search does not wrap around, both differences are exact. -/
theorem NoWrap.best_balanced {L : List (Nat × Key)} (h : NoWrap L) (hpos : ∀ x ∈ L, 0 < x.1)
    (htwo : 2 ≤ L.length) :
    ∃ A y B, L = A ++ y :: B ∧ A ≠ [] ∧
      (SplitSearch.start.run (itemsSize L) (itemsSize L / 2) L).best = some y.2 ∧
      ∀ largest, (∀ x ∈ L, x.1 ≤ largest) →
        2 * itemsSize A ≤ itemsSize L + largest ∧ 2 * itemsSize (y :: B) ≤ itemsSize L + largest := by
  have hlt := h.total_lt
  obtain ⟨X, r, Y, hp⟩ := SplitSearch.start_pivot (List.ne_nil_of_length_pos (by omega)) hlt
  have hbefore := hp.before
  have hreached := hp.reached
  rw [Nat.zero_add] at hbefore hreached
  obtain ⟨hfirst, hsecond⟩ := (noWrap_iff_sides hlt hp.eq hbefore hreached).1 h
  have hL : itemsSize L = itemsSize X + (r.1 + itemsSize Y) := by
    rw [hp.eq, itemsSize_append, itemsSize_cons]
  refine hp.best_balanced rfl hpos htwo ?_ fun hY => ?_
  · rw [hp.diff1, Nat.zero_add, u16_sub hlt (by omega), hfirst.abs_exact]
  · obtain ⟨r', Z, rfl⟩ := List.exists_cons_of_ne_nil hY
    rw [(hp.next r' Z rfl).2, Nat.zero_add, u16_sub hlt (by omega), (hsecond hY).abs_exact]

/-- All records stay below 2^16 bytes. So do, below 2^15, those from the record on that
reaches half of them, and those up to it. -/
structure SidesFit (L : List (Nat × Key)) : Prop where
  total : itemsSize L < 65536
  right : ∀ X r Y, L = X ++ r :: Y → (X = [] ∨ itemsSize X < itemsSize L / 2) →
    itemsSize L / 2 ≤ itemsSize X + r.1 → itemsSize (r :: Y) < 32768
  left : ∀ X r Y, L = X ++ r :: Y → (X = [] ∨ itemsSize X < itemsSize L / 2) →
    itemsSize L / 2 ≤ itemsSize X + r.1 → Y ≠ [] → itemsSize (X ++ [r]) < 32768

theorem noWrap_iff_sidesFit (L : List (Nat × Key)) : NoWrap L ↔ SidesFit L := by
  have hsum : ∀ X r Y, L = X ++ r :: Y → itemsSize L = itemsSize X + itemsSize (r :: Y) := by
    rintro X r Y rfl
    rw [itemsSize_append]
  have hone : ∀ (X : List (Nat × Key)) r, itemsSize (X ++ [r]) = itemsSize X + r.1 := by
    intro X r
    simp [itemsSize]
  constructor
  · intro h
    have hlt := h.total_lt
    refine ⟨hlt, fun X r Y hL hbefore hreached => ?_, fun X r Y hL hbefore hreached hY => ?_⟩
    · have hsides := ((noWrap_iff_sides hlt hL hbefore hreached).1 h).1
      have := hsum X r Y hL
      have := ((exactSides_iff (by omega) (by omega)).1 hsides).2
      omega
    · have hsides := ((noWrap_iff_sides hlt hL hbefore hreached).1 h).2 hY
      have := hsum X r Y hL
      rw [itemsSize_cons] at this
      rw [hone]
      exact ((exactSides_iff (by omega) (by omega)).1 hsides).1
  · rintro ⟨hlt, hright, hleft⟩
    by_cases hne : L = []
    · subst hne
      exact NoWrap.of_lt (by decide)
    · obtain ⟨X, r, Y, hp⟩ := SplitSearch.start_pivot hne hlt
      have hL := hp.eq
      have hbefore := hp.before
      have hreached := hp.reached
      rw [Nat.zero_add] at hbefore hreached
      have htotal := hsum X r Y hL
      have hX : itemsSize X ≤ itemsSize L / 2 := by
        rcases hbefore with rfl | hlt'
        · exact Nat.zero_le _
        · exact hlt'.le
      have hr := hright X r Y hL hbefore hreached
      refine (noWrap_iff_sides hlt hL hbefore hreached).2 ⟨?_, fun hY => ?_⟩
      · exact (exactSides_iff (by omega) (by omega)).2 ⟨by omega, by omega⟩
      · have hl := hleft X r Y hL hbefore hreached hY
        rw [hone] at hl
        rw [itemsSize_cons] at htotal hr
        exact (exactSides_iff (by omega) (by omega)).2 ⟨by omega, by omega⟩

/-! ## The records of both pages -/

/-- The records that a merge of the mini page leaves, with their sizes: its dirty records,
and the base records that these do not replace. -/
def distinctRecords (base mini : LeafNode) : List (Nat × Key) :=
  (mini.metas.filter fun m => m.opType.isDirty).map mini.item ++
    (base.metas.filter fun b => !mini.dirtyAt (base.getFullKey b)).map base.item

theorem mergedItems_perm {base mini : LeafNode} {minis rest : List LeafKVMeta}
    (hminis : KeySorted mini.getFullKey minis) (hrest : KeySorted base.getFullKey rest) :
    (base.mergedItems mini minis rest).Perm
      ((minis.filter fun m => m.opType.isDirty).map mini.item ++
        (rest.filter fun b => !mini.hasDirty minis (base.getFullKey b)).map base.item) := by
  induction minis generalizing rest with
  | nil => simp [mergedItems, hasDirty]
  | cons m ms ih =>
    obtain ⟨hm, hms⟩ := keySorted_cons.1 hminis
    rw [mergedItems]
    by_cases hd : m.opType.isDirty
    · have hsplit := hrest.splitAt_takeWhile fun b =>
        (decide_eq_true_iff : _ ↔ base.getFullKey b < mini.getFullKey m)
      rw [if_pos hd]
      generalize rest.takeWhile (fun b => decide (base.getFullKey b < mini.getFullKey m)) = A
        at hsplit
      generalize rest.dropWhile (fun b => decide (base.getFullKey b < mini.getFullKey m)) = B
        at hsplit
      obtain ⟨rfl, hlt, hge⟩ := hsplit
      obtain ⟨-, hB, -⟩ := keySorted_append.1 hrest
      -- no record below the mini key is replaced
      have hA : A.filter (fun b => !mini.hasDirty (m :: ms) (base.getFullKey b)) = A := by
        refine List.filter_eq_self.2 fun b hb => ?_
        rw [hasDirty_eq_false fun x hx => ?_]
        · rfl
        · rcases List.mem_cons.1 hx with rfl | hx
          · exact hlt b hb
          · exact (hlt b hb).trans (hm x hx)
      -- of the others only one that has the key
      have hBfilter : B.filter (fun b => !mini.hasDirty (m :: ms) (base.getFullKey b)) =
          (base.dropKey (mini.getFullKey m) B).filter
            fun b => !mini.hasDirty ms (base.getFullKey b) := by
        have hcons : ∀ C : List LeafKVMeta, (∀ b ∈ C, mini.getFullKey m ≠ base.getFullKey b) →
            C.filter (fun b => !mini.hasDirty (m :: ms) (base.getFullKey b)) =
              C.filter fun b => !mini.hasDirty ms (base.getFullKey b) := by
          intro C hC
          refine List.filter_congr fun b hb => ?_
          rw [hasDirty, List.any_cons, decide_eq_false (hC b hb), Bool.and_false, Bool.false_or,
            hasDirty]
        cases B with
        | nil => rfl
        | cons b B =>
          obtain ⟨hb, -⟩ := keySorted_cons.1 hB
          have hgt : ∀ c ∈ B, mini.getFullKey m ≠ base.getFullKey c := fun c hc =>
            ((hge b List.mem_cons_self).trans_lt (hb c hc)).ne
          rw [dropKey]
          by_cases heq : base.getFullKey b = mini.getFullKey m
          · rw [if_pos heq, List.filter_cons_of_neg, hcons B hgt]
            rw [hasDirty, List.any_cons, hd, heq, decide_eq_true rfl]
            simp
          · rw [if_neg heq]
            refine hcons _ fun c hc => ?_
            rcases List.mem_cons.1 hc with rfl | hc
            · exact Ne.symm heq
            · exact hgt c hc
      have htail := ih hms (hB.sublist (dropKey_sublist base (mini.getFullKey m) B))
      rw [List.filter_cons, if_pos hd, List.filter_append, hA, hBfilter, List.map_append,
        List.map_cons, List.cons_append]
      refine List.perm_middle.trans (List.Perm.cons _ ?_)
      exact (List.Perm.append_left _ htail).trans (List.perm_append_comm_assoc _ _ _)
    · rw [if_neg hd, List.filter_cons, if_neg hd]
      refine (ih hms hrest).trans ?_
      refine List.Perm.append_left _ (List.Perm.of_eq (congrArg _ ?_))
      refine List.filter_congr fun b _ => ?_
      rw [hasDirty, hasDirty, List.any_cons, Bool.eq_false_iff.2 hd, Bool.false_and, Bool.false_or]

theorem mergedItems_perm_distinctRecords {base mini : LeafNode} (hb : base.WF) (hm : mini.WF) :
    (base.mergedItems mini mini.metas base.metas).Perm (base.distinctRecords mini) := by
  have h := mergedItems_perm hm.sorted hb.sorted
  simp only [hasDirty_metas hm] at h
  exact h

theorem itemsSize_perm {L L' : List (Nat × Key)} (h : L.Perm L') : itemsSize L = itemsSize L' :=
  (h.map _).sum_eq

/-- A sorted list, cut at one of its keys. -/
theorem filter_lt_of_sorted {A B : List (Nat × Key)} {y : Nat × Key}
    (h : KeySorted Prod.snd (A ++ y :: B)) :
    (A ++ y :: B).filter (fun r => r.2 < y.2) = A ∧
      (A ++ y :: B).filter (fun r => y.2 ≤ r.2) = y :: B := by
  obtain ⟨-, hB, hAB⟩ := keySorted_append.1 h
  obtain ⟨hy, -⟩ := keySorted_cons.1 hB
  have hge : ∀ r ∈ y :: B, y.2 ≤ r.2 := by
    intro r hr
    rcases List.mem_cons.1 hr with rfl | hr
    · exact le_rfl
    · exact (hy r hr).le
  have hlt : ∀ r ∈ A, r.2 < y.2 := fun r hr => hAB r hr y List.mem_cons_self
  rw [List.filter_append, List.filter_append]
  constructor
  · rw [List.filter_eq_self.2 fun r hr => decide_eq_true (hlt r hr),
      List.filter_eq_nil_iff.2 fun r hr => by simpa using hge r hr, List.append_nil]
  · rw [List.filter_eq_nil_iff.2 fun r hr => by simpa using hlt r hr,
      List.filter_eq_self.2 fun r hr => decide_eq_true (hge r hr), List.nil_append]

/-- The better candidate is chosen if it is strictly between the fences. -/
theorem chooseSplitKey_of_best {s : SplitSearch} {K : Key → Prop} {low high key : Key}
    (hc : s.Candidates K) (hbest : s.best = some key) (hlow : low < key)
    (hhigh : high = [] ∨ key < high) : chooseSplitKey s low high = some key := by
  obtain ⟨key1, hkey1⟩ : ∃ k, s.key1 = some k := by
    rcases SplitSearch.best_mem hbest with h | h
    · exact ⟨key, h⟩
    · refine Option.ne_none_iff_exists'.1 fun hnone => ?_
      rw [hc.key2_none hnone] at h
      cases h
  have hne : s.key2 ≠ some key1 := fun h => lt_irrefl _ (hc.lt _ _ hkey1 h)
  have hhigh' : high = [] ∨ key ≠ high := hhigh.imp_right fun h => h.ne
  simp [chooseSplitKey, hkey1, hne, hbest, hlow.ne', hhigh']

/-- As long as no sum wraps around, the key that splits a base page and a mini page is one
of their records and not the first, it divides them evenly, and of the base page only the
records that the mini page replaces are marked. -/
theorem getMergeSplitKey_balanced {base mini : LeafNode} (hb : base.WF) (hm : mini.WF)
    (hcov : ∀ k, mini.entry k ≠ none → base.Covers k) {k₁ k₂ : Key} (hne : k₁ ≠ k₂)
    (hk₁ : k₁ ∈ (base.distinctRecords mini).map Prod.snd)
    (hk₂ : k₂ ∈ (base.distinctRecords mini).map Prod.snd)
    (hexact : NoWrap (base.mergedItems mini mini.metas base.metas)) :
    ∃ key, base.getMergeSplitKey mini =
        some (key, base.mapOp fun k op => if mini.dirtyAt k then .delete else op) ∧
      key ∈ (base.distinctRecords mini).map Prod.snd ∧
      (∃ k ∈ (base.distinctRecords mini).map Prod.snd, k < key) ∧
      (base.lowFence ≠ [] → base.lowFence < key) ∧ (base.highFence ≠ [] → key < base.highFence) ∧
      ∀ largest, (∀ r ∈ base.distinctRecords mini, r.1 ≤ largest) →
        itemsSize ((base.distinctRecords mini).filter fun r => r.2 < key) ≤
          (itemsSize (base.distinctRecords mini) + largest) / 2 ∧
        itemsSize ((base.distinctRecords mini).filter fun r => key ≤ r.2) ≤
          (itemsSize (base.distinctRecords mini) + largest) / 2 := by
  have hperm := mergedItems_perm_distinctRecords hb hm
  have hsorted : KeySorted Prod.snd (base.mergedItems mini mini.metas base.metas) :=
    mergedItems_sorted hm.sorted hb.sorted
  -- every record has a slot, and its key is in the range of the base page
  have hitem : ∀ r ∈ base.mergedItems mini mini.metas base.metas, 0 < r.1 ∧ base.Covers r.2 := by
    intro r hr
    have hslot : 0 < kvMetaSize := by decide
    obtain ⟨b, hb', rfl⟩ | ⟨m, hm', -, rfl⟩ := mergedItems_mem hr
    · exact ⟨by simp only [item, recordSize]; omega, hb.inRange b hb'⟩
    · exact ⟨by simp only [item, recordSize]; omega, hcov _ (hm.entry_ne_none hm')⟩
  have htwo : 2 ≤ (base.mergedItems mini mini.metas base.metas).length := by
    have h₁ := (hperm.map Prod.snd).mem_iff.2 hk₁
    have h₂ := (hperm.map Prod.snd).mem_iff.2 hk₂
    rw [← List.length_map (f := Prod.snd)]
    by_contra hlt
    rcases hl : (base.mergedItems mini mini.metas base.metas).map Prod.snd with _ | ⟨k, _ | _⟩
    · rw [hl] at h₁
      cases h₁
    · rw [hl, List.mem_singleton] at h₁ h₂
      exact hne (h₁.trans h₂.symm)
    · rw [hl] at hlt
      simp at hlt
  obtain ⟨A, y, B, heq, hA, hbest, hbal⟩ :=
    hexact.best_balanced (fun r hr => (hitem r hr).1) htwo
  obtain ⟨x, A, rfl⟩ := List.exists_cons_of_ne_nil hA
  have hx : x ∈ base.mergedItems mini mini.metas base.metas := by rw [heq]; simp
  have hy : y ∈ base.mergedItems mini mini.metas base.metas := by rw [heq]; simp
  have hmem : ∀ r ∈ base.mergedItems mini mini.metas base.metas,
      r.2 ∈ (base.distinctRecords mini).map Prod.snd :=
    fun r hr => List.mem_map_of_mem (hperm.mem_iff.1 hr)
  have hsorted' := hsorted
  rw [heq] at hsorted'
  have hxy : x.2 < y.2 := (keySorted_append.1 hsorted').2.2 x List.mem_cons_self y List.mem_cons_self
  have hlow : base.lowFence < y.2 := (hitem x hx).2.1.trans_lt hxy
  refine ⟨y.2, ?_, hmem y hy, ⟨x.2, hmem x hx, hxy⟩, fun _ => hlow,
    fun hhigh => (hitem y hy).2.2.resolve_left hhigh, fun largest hlargest => ?_⟩
  · rw [getMergeSplitKey_eq hb hm, mapOp_dirtyAt hm, mergeRun, u16_of_lt hexact.total_lt,
      chooseSplitKey_of_best ?_ hbest hlow (hitem y hy).2.2, Option.map_some]
    · exact fun _ => True
    · exact (start_candidates _).run hsorted (fun _ _ => trivial) (by simp [SplitSearch.start]) _ _
  · obtain ⟨hleft, hright⟩ := hbal largest fun r hr => hlargest r (hperm.mem_iff.1 hr)
    obtain ⟨hbelow, habove⟩ := filter_lt_of_sorted hsorted'
    rw [← itemsSize_perm hperm, ← itemsSize_perm (hperm.filter _), ← itemsSize_perm (hperm.filter _)]
    rw [heq] at hleft hright ⊢
    rw [hbelow, habove]
    omega

theorem getMergeSplitKey_balanced_two :
    ∃ key, twoAndATombstone.getMergeSplitKey oneRecord =
        some (key, twoAndATombstone.mapOp fun k op => if oneRecord.dirtyAt k then .delete else op) ∧
      ∃ k ∈ [[1], [2], [3]], k < key := by
  have hne : ([1] : Key) ≠ [2] := by decide
  obtain ⟨key, hkey, -, ⟨k, hk, hlt⟩, -⟩ := getMergeSplitKey_balanced twoAndATombstone_wf
    oneRecord_wf (fun k _ => inRange_nil_nil k) hne (by decide) (by decide)
    (NoWrap.of_lt (by decide))
  exact ⟨key, hkey, k, hk, hlt⟩

end BfTree.LeafNode
