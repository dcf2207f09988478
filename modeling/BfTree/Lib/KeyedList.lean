import Mathlib

/-!
# BfTree.Lib.KeyedList — lists of records sorted by a key

A page holds its records in strictly increasing key order. Seen from outside it
is a finite map: `findKey` looks a key up. The lemmas say how the map changes
when a record is put between a part with smaller and a part with greater keys,
and when a record is replaced.
-/

namespace BfTree.Lib

variable {α κ : Type}

/-! ## Lookup -/

section Find

variable [DecidableEq κ]

/-- The record stored under a key. -/
def findKey (key : α → κ) (l : List α) (k : κ) : Option α :=
  l.find? fun a => key a = k

@[simp] theorem findKey_nil (key : α → κ) (k : κ) : findKey key [] k = none := rfl

theorem findKey_cons (key : α → κ) (a : α) (l : List α) (k : κ) :
    findKey key (a :: l) k = if key a = k then some a else findKey key l k := by
  unfold findKey
  by_cases h : key a = k
  · rw [List.find?_cons_of_pos (by simpa using h), if_pos h]
  · rw [List.find?_cons_of_neg (by simpa using h), if_neg h]

theorem findKey_append (key : α → κ) (l l' : List α) (k : κ) :
    findKey key (l ++ l') k = (findKey key l k).or (findKey key l' k) := by
  rw [findKey, findKey, findKey, List.find?_append]

theorem findKey_some {key : α → κ} {l : List α} {k : κ} {a : α} (h : findKey key l k = some a) :
    a ∈ l ∧ key a = k :=
  ⟨List.mem_of_find?_eq_some h, by simpa using List.find?_some h⟩

theorem findKey_eq_none {key : α → κ} {l : List α} {k : κ} :
    findKey key l k = none ↔ ∀ a ∈ l, key a ≠ k := by
  simp [findKey, List.find?_eq_none]

theorem findKey_map (key : α → κ) (f : α → α) (hf : ∀ a, key (f a) = key a) (l : List α) (k : κ) :
    findKey key (l.map f) k = (findKey key l k).map f := by
  induction l with
  | nil => rfl
  | cons a l ih =>
    rw [List.map_cons, findKey_cons, findKey_cons, hf]
    split <;> simp [ih]

end Find

/-! ## Sorted lists -/

section Sorted

variable [LinearOrder κ]

/-- Strictly increasing keys. -/
def KeySorted (key : α → κ) (l : List α) : Prop :=
  l.Pairwise fun a b => key a < key b

@[simp] theorem KeySorted.nil (key : α → κ) : KeySorted key [] := List.Pairwise.nil

theorem keySorted_cons {key : α → κ} {a : α} {l : List α} :
    KeySorted key (a :: l) ↔ (∀ b ∈ l, key a < key b) ∧ KeySorted key l :=
  List.pairwise_cons

theorem keySorted_append {key : α → κ} {l l' : List α} :
    KeySorted key (l ++ l') ↔
      KeySorted key l ∧ KeySorted key l' ∧ ∀ a ∈ l, ∀ b ∈ l', key a < key b :=
  List.pairwise_append

theorem KeySorted.sublist {key : α → κ} {l l' : List α} (h : KeySorted key l')
    (hs : l.Sublist l') : KeySorted key l :=
  List.Pairwise.sublist hs h

theorem KeySorted.map {key : α → κ} {l : List α} (h : KeySorted key l) (f : α → α)
    (hf : ∀ a, key (f a) = key a) : KeySorted key (l.map f) := by
  unfold KeySorted
  rw [List.pairwise_map]
  exact h.imp fun {a b} hab => by rwa [hf, hf]

theorem KeySorted.filterMap {β : Type} {key : α → κ} {key' : β → κ} {l : List α}
    (h : KeySorted key l) (g : α → Option β) (hg : ∀ a b, g a = some b → key' b = key a) :
    KeySorted key' (l.filterMap g) := by
  refine List.Pairwise.filterMap g (fun a a' haa' b hb b' hb' => ?_) h
  rw [hg a b hb, hg a' b' hb']
  exact haa'

end Sorted

-- equality of keys is decided on its own, not through the order, so that callers
-- may use the instance of their key type
variable [LinearOrder κ] [DecidableEq κ]

/-- In a sorted list membership determines the lookup. -/
theorem KeySorted.findKey_mem {key : α → κ} {l : List α} (h : KeySorted key l) {a : α}
    (ha : a ∈ l) : findKey key l (key a) = some a := by
  induction l with
  | nil => cases ha
  | cons b l ih =>
    obtain ⟨hb, hl⟩ := keySorted_cons.1 h
    rw [findKey_cons]
    rcases List.mem_cons.1 ha with rfl | ha'
    · rw [if_pos rfl]
    · rw [if_neg (ne_of_lt (hb a ha')), ih hl ha']

theorem KeySorted.findKey_iff {key : α → κ} {l : List α} (h : KeySorted key l) {k : κ} {a : α} :
    findKey key l k = some a ↔ a ∈ l ∧ key a = k :=
  ⟨findKey_some, fun ⟨ha, hk⟩ => hk ▸ h.findKey_mem ha⟩

/-- Looking up in a translated list is translating what the lookup finds. -/
theorem KeySorted.findKey_filterMap {β : Type} {key : α → κ} {key' : β → κ} {l : List α}
    (h : KeySorted key l) (g : α → Option β) (hg : ∀ a b, g a = some b → key' b = key a) (k : κ) :
    findKey key' (l.filterMap g) k = (findKey key l k).bind g := by
  induction l with
  | nil => rfl
  | cons a l ih =>
    obtain ⟨ha, hl⟩ := keySorted_cons.1 h
    rw [findKey_cons]
    cases hga : g a with
    | none =>
      rw [List.filterMap_cons_none hga, ih hl]
      by_cases hk : key a = k
      · have hn : findKey key l k = none :=
          findKey_eq_none.2 fun b hb => hk ▸ ne_of_gt (ha b hb)
        simp [hk, hn, hga]
      · rw [if_neg hk]
    | some b =>
      rw [List.filterMap_cons_some hga, findKey_cons, hg a b hga, ih hl]
      by_cases hk : key a = k
      · simp [hk, hga]
      · simp [hk]

/-- The lookup of a sublist picks the same record, if it kept it. -/
theorem KeySorted.findKey_filter {key : α → κ} {l : List α} (h : KeySorted key l) (q : α → Bool)
    (k : κ) : findKey key (l.filter q) k = (findKey key l k).filter q := by
  induction l with
  | nil => rfl
  | cons a l ih =>
    obtain ⟨ha, hl⟩ := keySorted_cons.1 h
    rw [findKey_cons]
    by_cases hk : key a = k
    · rw [if_pos hk]
      by_cases hq : q a
      · rw [List.filter_cons_of_pos hq, findKey_cons, if_pos hk, Option.filter_some, if_pos hq]
      · rw [List.filter_cons_of_neg hq, ih hl, Option.filter_some, if_neg hq]
        have hn : findKey key l k = none := by
          rw [findKey_eq_none]
          intro b hb e
          exact absurd (ha b hb) (by rw [e, hk]; exact lt_irrefl k)
        rw [hn, Option.filter_none]
    · rw [if_neg hk]
      by_cases hq : q a
      · rw [List.filter_cons_of_pos hq, findKey_cons, if_neg hk, ih hl]
      · rw [List.filter_cons_of_neg hq, ih hl]

/-! ## Splitting at a key -/

/-- `l` is `A` followed by `B`, with every key of `A` below `k` and no key of `B`
below it. -/
structure SplitAt (key : α → κ) (l : List α) (k : κ) (A B : List α) : Prop where
  eq : l = A ++ B
  left : ∀ a ∈ A, key a < k
  right : ∀ b ∈ B, k ≤ key b

omit [DecidableEq κ] in
/-- A sorted list splits where its records stop being below the key. -/
theorem KeySorted.splitAt_takeWhile {key : α → κ} {l : List α} (h : KeySorted key l) {k : κ}
    {q : α → Bool} (hq : ∀ a, q a = true ↔ key a < k) :
    SplitAt key l k (l.takeWhile q) (l.dropWhile q) where
  eq := List.takeWhile_append_dropWhile.symm
  left a ha := (hq a).mp (List.mem_takeWhile_imp ha)
  right b hb := by
    -- the first record that is left is not below the key, the others are above it
    have hsorted := h.sublist (List.dropWhile_sublist q)
    have hhead := List.head?_dropWhile_not q l
    cases hd : l.dropWhile q with
    | nil => simp [hd] at hb
    | cons m B =>
      rw [hd] at hb hsorted hhead
      have hm : k ≤ key m := not_lt.mp fun hlt => by simp [(hq m).mpr hlt] at hhead
      obtain rfl | hb := List.mem_cons.mp hb
      · exact hm
      · exact hm.trans ((keySorted_cons.mp hsorted).1 b hb).le

namespace SplitAt

variable {key : α → κ} {l A B : List α} {k : κ}

omit [DecidableEq κ] in
theorem filter_left (h : SplitAt key l k A B) {q : α → Bool} (hq : ∀ a, q a = true ↔ key a < k) :
    l.filter q = A := by
  have hA : ∀ a ∈ A, q a = true := fun a ha => (hq a).2 (h.left a ha)
  have hB : ∀ b ∈ B, ¬ q b = true := fun b hb hc => absurd ((hq b).1 hc) (not_lt.2 (h.right b hb))
  rw [h.eq, List.filter_append, List.filter_eq_self.2 hA, List.filter_eq_nil_iff.2 hB, List.append_nil]

omit [DecidableEq κ] in
theorem filter_right (h : SplitAt key l k A B) {q : α → Bool} (hq : ∀ a, q a = true ↔ k ≤ key a) :
    l.filter q = B := by
  have hA : ∀ a ∈ A, ¬ q a = true := fun a ha hc => absurd ((hq a).1 hc) (not_le.2 (h.left a ha))
  have hB : ∀ b ∈ B, q b = true := fun b hb => (hq b).2 (h.right b hb)
  rw [h.eq, List.filter_append, List.filter_eq_nil_iff.2 hA, List.filter_eq_self.2 hB, List.nil_append]

theorem findKey_left (h : SplitAt key l k A B) {x : κ} (hx : x < k) :
    findKey key l x = findKey key A x := by
  have hB : findKey key B x = none :=
    findKey_eq_none.2 fun b hb => ne_of_gt (lt_of_lt_of_le hx (h.right b hb))
  rw [h.eq, findKey_append, hB, Option.or_none]

theorem findKey_right (h : SplitAt key l k A B) {x : κ} (hx : k ≤ x) :
    findKey key l x = findKey key B x := by
  have hA : findKey key A x = none :=
    findKey_eq_none.2 fun a ha => ne_of_lt (lt_of_lt_of_le (h.left a ha) hx)
  rw [h.eq, findKey_append, hA, Option.none_or]

/-- The key is present exactly when the right part starts with it. -/
theorem findKey_head (h : SplitAt key l k A B) (hs : KeySorted key l) :
    findKey key l k = B.head?.filter fun b => key b = k := by
  rw [h.findKey_right (le_refl k)]
  have hB : KeySorted key B := hs.sublist (h.eq ▸ List.sublist_append_right A B)
  cases B with
  | nil => rfl
  | cons b B =>
    rw [findKey_cons, List.head?_cons, Option.filter_some]
    by_cases hb : key b = k
    · simp [hb]
    · have hlt : k < key b := lt_of_le_of_ne (h.right b (by simp)) (Ne.symm hb)
      have hn : findKey key B k = none :=
        findKey_eq_none.2 fun c hc => ne_of_gt (hlt.trans ((keySorted_cons.1 hB).1 c hc))
      simp [hb, hn]

/-- Putting a new record at the split point. -/
theorem sorted_insert (h : SplitAt key l k A B) (hs : KeySorted key l)
    (hk : findKey key l k = none) {n : α} (hn : key n = k) : KeySorted key (A ++ n :: B) := by
  have hs' := hs
  rw [h.eq, keySorted_append] at hs'
  obtain ⟨hA, hB, hAB⟩ := hs'
  have hlt : ∀ b ∈ B, k < key b := by
    intro b hb
    refine lt_of_le_of_ne (h.right b hb) fun e => ?_
    exact findKey_eq_none.1 hk b (h.eq ▸ List.mem_append_right A hb) e.symm
  refine keySorted_append.2 ⟨hA, keySorted_cons.2 ⟨fun b hb => hn ▸ hlt b hb, hB⟩, ?_⟩
  intro a ha b hb
  rcases List.mem_cons.1 hb with rfl | hb'
  · rw [hn]; exact h.left a ha
  · exact hAB a ha b hb'

theorem findKey_insert (h : SplitAt key l k A B) {n : α} (hn : key n = k) (x : κ) :
    findKey key (A ++ n :: B) x = if x = k then some n else findKey key l x := by
  rw [findKey_append, findKey_cons, hn]
  by_cases hx : x = k
  · have hA : findKey key A x = none :=
      findKey_eq_none.2 fun a ha => by rw [hx]; exact ne_of_lt (h.left a ha)
    rw [if_pos hx, if_pos hx.symm, hA, Option.none_or]
  · rw [if_neg hx, if_neg (Ne.symm hx), h.eq, findKey_append]

omit [DecidableEq κ] in
/-- Replacing the record at the split point by one with the same key. -/
theorem sorted_replace {b n : α} (h : SplitAt key l k A (b :: B)) (hs : KeySorted key l)
    (hb : key b = k) (hn : key n = k) : KeySorted key (A ++ n :: B) := by
  rw [h.eq, keySorted_append, keySorted_cons] at hs
  obtain ⟨hA, ⟨hbB, hB⟩, hAB⟩ := hs
  refine keySorted_append.2 ⟨hA, keySorted_cons.2 ⟨fun c hc => ?_, hB⟩, fun a ha c hc => ?_⟩
  · rw [hn, ← hb]; exact hbB c hc
  · rcases List.mem_cons.1 hc with rfl | hc'
    · rw [hn]; exact h.left a ha
    · exact hAB a ha c (List.mem_cons_of_mem b hc')

theorem findKey_replace {b n : α} (h : SplitAt key l k A (b :: B)) (hb : key b = k)
    (hn : key n = k) (x : κ) :
    findKey key (A ++ n :: B) x = if x = k then some n else findKey key l x := by
  rw [h.eq, findKey_append, findKey_append, findKey_cons, findKey_cons, hn, hb]
  by_cases hx : x = k
  · have hA : findKey key A x = none :=
      findKey_eq_none.2 fun a ha => by rw [hx]; exact ne_of_lt (h.left a ha)
    rw [if_pos hx, if_pos hx.symm, hA, Option.none_or]
  · rw [if_neg hx, if_neg (Ne.symm hx), if_neg (Ne.symm hx)]

end SplitAt

/-! ## Positions in an appended list -/

theorem getElem?_length_append (A B : List α) : (A ++ B)[A.length]? = B.head? := by
  rw [List.getElem?_append_right (Nat.le_refl _), Nat.sub_self, List.head?_eq_getElem?]

theorem insertIdx_length_append (A B : List α) (n : α) :
    (A ++ B).insertIdx A.length n = A ++ n :: B := by
  induction A with
  | nil => rfl
  | cons a A ih => simp [ih]

theorem modify_length_append (A : List α) (b : α) (B : List α) (f : α → α) :
    (A ++ b :: B).modify A.length f = A ++ f b :: B := by
  simp [List.modify_eq_take_cons_drop]

theorem set_length_append (A B : List α) (b n : α) :
    (A ++ b :: B).set A.length n = A ++ n :: B := by
  simp

end BfTree.Lib
