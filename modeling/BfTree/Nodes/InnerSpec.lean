import BfTree.Nodes.InnerNode
import BfTree.Nodes.LeafSpec

/-!
# BfTree.Nodes.InnerSpec — separators partition a key range

A node that is responsible for `[lo, hi)` gives every child the part of it between
two neighbouring separators (`spans`). Search picks the child whose part holds the
key, an insert cuts one part in two, a split cuts the list of parts in two.
-/

namespace BfTree

open Lib

/-- The separators increase strictly and lie strictly inside `(lo, hi)`. -/
structure SepsWithin (lo hi : Key) (records : List (Key × PageID)) : Prop where
  sorted : KeySorted Prod.fst records
  lo_lt : ∀ r ∈ records, lo < r.1
  lt_hi : ∀ r ∈ records, hi = [] ∨ r.1 < hi

/-- The parts of `[lo, hi)` with the child responsible for each. -/
def spans (lo hi : Key) : PageID → List (Key × PageID) → List (Key × Key × PageID)
  | child, [] => [(lo, hi, child)]
  | child, (key, next) :: records => (lo, key, child) :: spans key hi next records

/-- Children in slot order. -/
def InnerNode.children (n : InnerNode) : List PageID := n.leftMost :: n.records.map Prod.snd

theorem spans_children (lo hi : Key) (c : PageID) (records : List (Key × PageID)) :
    (spans lo hi c records).map (fun x => x.2.2) = c :: records.map Prod.snd := by
  induction records generalizing lo c with
  | nil => rfl
  | cons r records ih => simp [spans, ih]

theorem spans_append_cons (lo hi key : Key) (c next : PageID) (A B : List (Key × PageID)) :
    spans lo hi c (A ++ (key, next) :: B) = spans lo key c A ++ spans key hi next B := by
  induction A generalizing lo c with
  | nil => rfl
  | cons r A ih => simp [spans, ih]

/-! ## Sublists of separators -/

namespace SepsWithin

theorem nil (lo hi : Key) : SepsWithin lo hi [] :=
  ⟨by simp, by simp, by simp⟩

variable {lo hi key : Key} {next : PageID} {A B : List (Key × PageID)}

/-- Cutting at a separator. -/
theorem cut (h : SepsWithin lo hi (A ++ (key, next) :: B)) :
    SepsWithin lo key A ∧ SepsWithin key hi B ∧ lo < key ∧ (hi = [] ∨ key < hi) := by
  obtain ⟨hA, hB, hAB⟩ := keySorted_append.1 h.sorted
  obtain ⟨hkB, hB'⟩ := keySorted_cons.1 hB
  refine ⟨⟨hA, fun r hr => h.lo_lt r (by simp [hr]), fun r hr => .inr (hAB r hr (key, next) (by simp))⟩,
    ⟨hB', fun r hr => hkB r hr, fun r hr => h.lt_hi r (by simp [hr])⟩,
    h.lo_lt (key, next) (by simp), h.lt_hi (key, next) (by simp)⟩

/-- Putting a new separator between smaller and greater ones. -/
theorem insert {s : Key} {c : PageID} (h : SepsWithin lo hi (A ++ B)) (hA : ∀ r ∈ A, r.1 < s)
    (hB : ∀ r ∈ B, s < r.1) (hlo : lo < s) (hhi : hi = [] ∨ s < hi) :
    SepsWithin lo hi (A ++ (s, c) :: B) := by
  obtain ⟨hsA, hsB, hAB⟩ := keySorted_append.1 h.sorted
  refine ⟨keySorted_append.2 ⟨hsA, keySorted_cons.2 ⟨hB, hsB⟩, ?_⟩, ?_, ?_⟩
  · intro a ha b hb
    obtain rfl | hb := List.mem_cons.1 hb
    · exact hA a ha
    · exact hAB a ha b hb
  · intro r hr
    rcases List.mem_append.1 hr with hr | hr
    · exact h.lo_lt r (by simp [hr])
    · obtain rfl | hr := List.mem_cons.1 hr
      · exact hlo
      · exact h.lo_lt r (by simp [hr])
  · intro r hr
    rcases List.mem_append.1 hr with hr | hr
    · exact h.lt_hi r (by simp [hr])
    · obtain rfl | hr := List.mem_cons.1 hr
      · exact hhi
      · exact h.lt_hi r (by simp [hr])

theorem cons_iff {r : Key × PageID} :
    SepsWithin lo hi (r :: B) ↔ lo < r.1 ∧ (hi = [] ∨ r.1 < hi) ∧ SepsWithin r.1 hi B := by
  constructor
  · intro h
    obtain ⟨h1, h2⟩ := keySorted_cons.1 h.sorted
    exact ⟨h.lo_lt r (by simp), h.lt_hi r (by simp),
      h2, h1, fun r' hr' => h.lt_hi r' (by simp [hr'])⟩
  · rintro ⟨h1, h2, h3⟩
    refine ⟨keySorted_cons.2 ⟨h3.lo_lt, h3.sorted⟩, ?_, ?_⟩
    · intro r' hr'
      obtain rfl | hr' := List.mem_cons.1 hr'
      · exact h1
      · exact h1.trans (h3.lo_lt r' hr')
    · intro r' hr'
      obtain rfl | hr' := List.mem_cons.1 hr'
      · exact h2
      · exact h3.lt_hi r' hr'

/-- Every part lies inside the whole. -/
theorem span_subset {c x : PageID} {a b : Key} (h : SepsWithin lo hi B)
    (hx : (a, b, x) ∈ spans lo hi c B) : lo ≤ a ∧ (b = hi ∨ b ≠ [] ∧ (hi = [] ∨ b < hi)) := by
  induction B generalizing lo c with
  | nil =>
    obtain ⟨rfl, rfl, -⟩ : a = lo ∧ b = hi ∧ x = c := by simpa [spans] using hx
    exact ⟨le_refl _, .inl rfl⟩
  | cons r B ih =>
    obtain ⟨h1, h2, h3⟩ := cons_iff.1 h
    rw [spans, List.mem_cons] at hx
    rcases hx with hx | hx
    · obtain ⟨rfl, rfl, -⟩ : a = lo ∧ b = r.1 ∧ x = c := by simpa using hx
      exact ⟨le_refl _, .inr ⟨fun e => by rw [e] at h1; exact absurd h1 (not_lt.2 (nil_le _)), h2⟩⟩
    · obtain ⟨h4, h5⟩ := ih h3 hx
      exact ⟨h1.le.trans h4, h5⟩

theorem span_mono {c x : PageID} {a b k : Key} (h : SepsWithin lo hi B)
    (hx : (a, b, x) ∈ spans lo hi c B) (hk : InRange a b k) : InRange lo hi k := by
  obtain ⟨h1, h2⟩ := h.span_subset hx
  refine ⟨h1.trans hk.1, ?_⟩
  rcases h2 with rfl | ⟨hne, rfl | hlt⟩
  · exact hk.2
  · exact .inl rfl
  · exact .inr ((hk.2.resolve_left hne).trans hlt)

/-- Two parts that hold the same key are the same part. -/
theorem span_unique {c x x' : PageID} {a b a' b' k : Key} (h : SepsWithin lo hi B)
    (hx : (a, b, x) ∈ spans lo hi c B) (hx' : (a', b', x') ∈ spans lo hi c B)
    (hk : InRange a b k) (hk' : InRange a' b' k) : (a, b, x) = (a', b', x') := by
  induction B generalizing lo c with
  | nil =>
    rw [spans, List.mem_singleton] at hx hx'
    rw [hx, hx']
  | cons r B ih =>
    obtain ⟨h1, -, h3⟩ := cons_iff.1 h
    have hne : r.1 ≠ [] := fun e => by rw [e] at h1; exact absurd h1 (not_lt.2 (nil_le _))
    -- a key of the first part is below the separator, one of a later part is not
    have hfirst : ∀ {y : PageID} {p q : Key}, (p, q, y) = (lo, r.1, c) → InRange p q k → k < r.1 := by
      rintro y p q heq hkr
      obtain ⟨rfl, rfl, -⟩ : p = lo ∧ q = r.1 ∧ y = c := by simpa using heq
      exact hkr.2.resolve_left hne
    have hlater : ∀ {y : PageID} {p q : Key}, (p, q, y) ∈ spans r.1 hi r.2 B → InRange p q k →
        r.1 ≤ k := fun hmem hkr => (h3.span_subset hmem).1.trans hkr.1
    rw [spans, List.mem_cons] at hx hx'
    rcases hx with hx | hx
    · rcases hx' with hx' | hx'
      · rw [hx, hx']
      · exact absurd (hfirst hx hk) (not_lt.2 (hlater hx' hk'))
    · rcases hx' with hx' | hx'
      · exact absurd (hfirst hx' hk') (not_lt.2 (hlater hx hk))
      · exact ih h3 hx hx'

end SepsWithin

/-- The part between the separators of `A` and those of `B`, and what becomes of it
when a separator is put there. -/
theorem spans_at (lo hi : Key) (c : PageID) (A B : List (Key × PageID)) :
    ∃ X a b x Y, spans lo hi c (A ++ B) = X ++ (a, b, x) :: Y ∧
      (c :: (A ++ B).map Prod.snd)[A.length]? = some x ∧
      (a = lo ∧ A = [] ∨ ∃ A' r, A = A' ++ [r] ∧ r.1 = a) ∧
      (b = hi ∧ B = [] ∨ ∃ r B', B = r :: B' ∧ r.1 = b) ∧
      ∀ s new, spans lo hi c (A ++ (s, new) :: B) = X ++ (a, s, x) :: (s, b, new) :: Y := by
  induction A generalizing lo c with
  | nil =>
    cases B with
    | nil => exact ⟨[], lo, hi, c, [], rfl, rfl, .inl ⟨rfl, rfl⟩, .inl ⟨rfl, rfl⟩, fun s new => rfl⟩
    | cons r B =>
      exact ⟨[], lo, r.1, c, spans r.1 hi r.2 B, rfl, rfl, .inl ⟨rfl, rfl⟩,
        .inr ⟨r, B, rfl, rfl⟩, fun s new => rfl⟩
  | cons r A ih =>
    obtain ⟨X, a, b, x, Y, heq, hget, ha, hb, hins⟩ := ih r.1 r.2
    refine ⟨(lo, r.1, c) :: X, a, b, x, Y, by simp [spans, heq], by simpa using hget, .inr ?_, hb,
      fun s new => by simp [spans, hins s new]⟩
    rcases ha with ⟨rfl, rfl⟩ | ⟨A', r', rfl, rfl⟩
    · exact ⟨[], r, rfl, rfl⟩
    · exact ⟨r :: A', r', rfl, rfl⟩

/-- The part between separators not above `k` and separators above `k` holds `k`. -/
theorem inRange_of_spans_at {lo hi a b k : Key} {A B : List (Key × PageID)}
    (ha : a = lo ∧ A = [] ∨ ∃ A' r, A = A' ++ [r] ∧ r.1 = a)
    (hb : b = hi ∧ B = [] ∨ ∃ r B', B = r :: B' ∧ r.1 = b) (hle : ∀ r ∈ A, r.1 ≤ k)
    (hgt : ∀ r ∈ B, k < r.1) (hk : InRange lo hi k) : InRange a b k := by
  constructor
  · rcases ha with ⟨rfl, -⟩ | ⟨A', r, rfl, rfl⟩
    · exact hk.1
    · exact hle r (by simp)
  · rcases hb with ⟨rfl, -⟩ | ⟨r, B', rfl, rfl⟩
    · exact hk.2
    · exact .inr (hgt r (by simp))

namespace InnerNode

/-! ## Search -/

theorem keyCompare_eq (separator key : Key) : keyCompare separator key = lexCmp separator key := by
  have hthen := lexCmp_take_then keyLookAheadSize separator key _ (.inr rfl)
  unfold keyCompare
  by_cases hcmp : lexCmp (separator.take keyLookAheadSize) (key.take keyLookAheadSize) = .eq
  · simp only [hcmp, Ordering.then, true_and] at hthen ⊢
    split
    · exact hthen
    · next hshort =>
        -- neither key is longer than the look-ahead, so the rests are both empty
        rw [not_or, not_lt, not_not] at hshort
        rw [List.drop_eq_nil_of_le hshort.1, hshort.2, lexCmp_self] at hthen
        exact hthen
  · rw [if_neg (fun h => hcmp h.1)]
    cases hc : lexCmp (separator.take keyLookAheadSize) (key.take keyLookAheadSize) with
    | eq => exact absurd hc hcmp
    | lt => simpa only [hc, Ordering.then] using hthen
    | gt => simpa only [hc, Ordering.then] using hthen

theorem slotTest_eq {records : List (Key × PageID)} {key : Key} {i : Nat} (hi : i < records.length) :
    slotTest records key (i + 1) = lexCmp (records[i]).1 key := by
  rw [slotTest, Nat.add_sub_cancel, List.getElem?_eq_getElem hi]
  exact keyCompare_eq _ _

theorem strictTest_slotTest {records : List (Key × PageID)} (h : KeySorted Prod.fst records)
    (key : Key) : StrictTest (slotTest records key) 1 (records.length + 1) := by
  intro i j hi hij hj hng
  obtain ⟨i, rfl⟩ : ∃ i', i = i' + 1 := ⟨i - 1, by omega⟩
  obtain ⟨j, rfl⟩ : ∃ j', j = j' + 1 := ⟨j - 1, by omega⟩
  have hj' : j < records.length := by omega
  have hi' : i < records.length := by omega
  have hlt : (records[i]).1 < (records[j]).1 :=
    List.pairwise_iff_getElem.1 h i j hi' hj' (by omega)
  rw [slotTest_eq hj', ne_eq, lexCmp_eq_gt, not_lt] at hng
  rw [slotTest_eq hi', lexCmp_eq_lt]
  exact hlt.trans_le hng

/-- **Search.** The slot counts the separators that are not above the key. -/
theorem lowerBound_spec {n : InnerNode} (h : KeySorted Prod.fst n.records) (key : Key) :
    ∃ A B, n.records = A ++ B ∧ n.lowerBound key = A.length ∧ (∀ r ∈ A, r.1 ≤ key) ∧
      ∀ r ∈ B, key < r.1 := by
  have hspec := binarySearch_spec (Nat.le_add_left 1 n.records.length)
    (strictTest_slotTest h key)
  rw [Nat.add_sub_cancel] at hspec
  have hsplit : ∀ i, i ≤ n.records.length → (∀ j (hj : j < n.records.length), j < i →
      (n.records[j]).1 ≤ key) → (∀ j (hj : j < n.records.length), i ≤ j → key < (n.records[j]).1) →
      n.records = n.records.take i ++ n.records.drop i ∧ i = (n.records.take i).length ∧
        (∀ r ∈ n.records.take i, r.1 ≤ key) ∧ ∀ r ∈ n.records.drop i, key < r.1 := by
    intro i hi hleft hright
    refine ⟨(List.take_append_drop i _).symm, by rw [List.length_take, min_eq_left hi], ?_, ?_⟩
    · intro r hr
      obtain ⟨j, hj, rfl⟩ := List.mem_take_iff_getElem.1 hr
      exact hleft j (by omega) (by omega)
    · intro r hr
      obtain ⟨j, hj, rfl⟩ := List.mem_drop_iff_getElem.1 hr
      exact hright _ (by omega) (by omega)
  have hlt : ∀ {i j : Nat} (hi : i < n.records.length) (hj : j < n.records.length), i < j →
      (n.records[i]).1 < (n.records[j]).1 := fun hi hj hij =>
    List.pairwise_iff_getElem.1 h _ _ hi hj hij
  unfold lowerBound
  cases hr : binarySearch (slotTest n.records key) n.records.length 1 (n.records.length + 1) with
  | ok i =>
    obtain ⟨h1, h2, h3⟩ := hspec.ok i hr
    obtain ⟨i, rfl⟩ : ∃ i', i = i' + 1 := ⟨i - 1, by omega⟩
    have hi : i < n.records.length := by omega
    rw [slotTest_eq hi, lexCmp_eq_eq] at h3
    obtain ⟨hA, hlen, hle, hgt⟩ := hsplit (i + 1) (by omega) (by
        intro j hj hji
        rcases Nat.lt_succ_iff_lt_or_eq.1 hji with hji | rfl
        · exact h3 ▸ (hlt hj hi hji).le
        · exact h3.le) (fun j hj hij => h3 ▸ hlt hi hj (by omega))
    exact ⟨_, _, hA, hlen, hle, hgt⟩
  | error i =>
    obtain ⟨h1, h2, h3, h4⟩ := hspec.error i hr
    obtain ⟨i, rfl⟩ : ∃ i', i = i' + 1 := ⟨i - 1, by omega⟩
    obtain ⟨hA, hlen, hle, hgt⟩ := hsplit i (by omega) (by
        intro j hj hji
        have := h3 (j + 1) (by omega) (by omega)
        rw [slotTest_eq hj, lexCmp_eq_lt] at this
        exact this.le) (by
        intro j hj hij
        have := h4 (j + 1) (by omega) (by omega)
        rwa [slotTest_eq hj, lexCmp_eq_gt] at this)
    exact ⟨_, _, hA, hlen, hle, hgt⟩

theorem getValue_eq (n : InnerNode) (i : Nat) : n.getValue i = n.children[i]? := by
  cases i with
  | zero => rfl
  | succ i => simp [getValue, children]

/-- The child that the search picks for a key. -/
def route (n : InnerNode) (key : Key) : Option PageID := n.getValue (n.lowerBound key)

/-- The routed child is responsible for a part of the range that holds the key. -/
theorem route_spec {n : InnerNode} {lo hi : Key} (h : SepsWithin lo hi n.records) {k : Key}
    (hk : InRange lo hi k) :
    ∃ a b x, n.route k = some x ∧ (a, b, x) ∈ spans lo hi n.leftMost n.records ∧ InRange a b k ∧
      b = match n.records[n.lowerBound k]? with
        | some r => r.1
        | none => hi := by
  obtain ⟨A, B, heq, hlen, hle, hgt⟩ := lowerBound_spec h.sorted k
  obtain ⟨X, a, b, x, Y, hsp, hget, ha, hb, -⟩ := spans_at lo hi n.leftMost A B
  refine ⟨a, b, x, ?_, by rw [heq, hsp]; simp, inRange_of_spans_at ha hb hle hgt hk, ?_⟩
  · rw [route, getValue_eq, hlen, children, heq]
    exact hget
  · rw [hlen, heq, getElem?_length_append]
    rcases hb with ⟨rfl, rfl⟩ | ⟨r, B', rfl, rfl⟩ <;> rfl

/-! ## Insert -/

/-- With every separator up to the slot below `s`, an insert of `s` is not an
overwrite. -/
theorem not_equal_branch {n : InnerNode} {A B : List (Key × PageID)} {s : Key}
    (heq : n.records = A ++ B) (hlen : n.lowerBound s = A.length) (hlt : ∀ r ∈ A, r.1 < s) :
    ¬ (0 < n.lowerBound s ∧
      n.records[n.lowerBound s - 1]?.any fun r => keyCompare r.1 s = .eq) := by
  rintro ⟨hpos, hany⟩
  rw [hlen] at hpos hany
  rw [heq, List.getElem?_append_left (by omega)] at hany
  cases hget : A[A.length - 1]? with
  | none => simp [hget] at hany
  | some r =>
    simp only [hget, Option.any_some, keyCompare_eq, lexCmp_eq_eq, decide_eq_true_eq] at hany
    exact absurd hany (ne_of_lt (hlt r (List.mem_of_getElem? hget)))

/-- Inserting a separator that is strictly inside one part cuts that part; it never
meets an existing separator. -/
theorem insert_spec {n : InnerNode} {lo hi a b s : Key} {x y : PageID}
    (h : SepsWithin lo hi n.records) (hx : (a, b, x) ∈ spans lo hi n.leftMost n.records)
    (has : a < s) (hsb : b = [] ∨ s < b) (hspace : n.haveSpaceFor s = true) :
    ∃ A B X Y, n.records = A ++ B ∧
      n.insert s y = (true, { n with
        records := A ++ (s, y) :: B, remainingSize := n.remainingSize - recordSize s }) ∧
      SepsWithin lo hi (A ++ (s, y) :: B) ∧ (∀ r ∈ n.records, r.1 ≠ s) ∧
      spans lo hi n.leftMost n.records = X ++ (a, b, x) :: Y ∧
      spans lo hi n.leftMost (A ++ (s, y) :: B) = X ++ (a, s, x) :: (s, b, y) :: Y := by
  obtain ⟨A, B, heq, hlen, hle, hgt⟩ := lowerBound_spec h.sorted s
  obtain ⟨X, a', b', x', Y, hsp, -, ha, hb, hins⟩ := spans_at lo hi n.leftMost A B
  have hin : InRange lo hi s := h.span_mono hx ⟨has.le, hsb⟩
  -- the part found by the search is the given one
  have hsame : (a', b', x') = (a, b, x) :=
    h.span_unique (by rw [heq, hsp]; simp) hx (inRange_of_spans_at ha hb hle hgt hin) ⟨has.le, hsb⟩
  obtain ⟨rfl, rfl, rfl⟩ : a' = a ∧ b' = b ∧ x' = x := by simpa using hsame
  -- the last separator not above `s` is the low end of the part, which is below `s`
  have hlt : ∀ r ∈ A, r.1 < s := by
    rcases ha with ⟨-, rfl⟩ | ⟨A', r', rfl, rfl⟩
    · simp
    · intro r hr
      have hs := h.sorted
      rw [heq, List.append_assoc] at hs
      rcases List.mem_append.1 hr with hr | hr
      · exact ((keySorted_append.1 hs).2.2 r hr r' (by simp)).trans has
      · rw [List.mem_singleton.1 hr]
        exact has
  have hlos : lo < s := lt_of_le_of_lt (h.span_subset hx).1 has
  refine ⟨A, B, X, Y, heq, ?_, ?_, ?_, by rw [heq, hsp], hins s y⟩
  · have hroom : ¬ n.remainingSize < recordSize s := by
      simpa [haveSpaceFor] using hspace
    have hnoteq := not_equal_branch heq hlen hlt
    rw [insert, if_neg hroom]
    simp only []
    rw [if_neg hnoteq, hlen, heq, insertIdx_length_append]
  · rw [heq] at h
    exact h.insert hlt hgt hlos hin.2
  · intro r hr
    rw [heq] at hr
    rcases List.mem_append.1 hr with hr | hr
    · exact ne_of_lt (hlt r hr)
    · exact ne_of_gt (hgt r hr)

/-! ## Rewriting and splitting -/

/-- Free space, separators and the left-most child fill the node exactly. -/
def Sized (n : InnerNode) : Prop :=
  n.remainingSize + (n.records.map fun r => recordSize r.1).sum + (pageIdSize + innerKvMetaSize) =
    maxDataSize

/-- A separator above all others goes to the end. -/
theorem insert_last {n : InnerNode} {s : Key} {c : PageID}
    (h : KeySorted Prod.fst (n.records ++ [(s, c)])) (hspace : recordSize s ≤ n.remainingSize) :
    n.insert s c = (true, { n with
      records := n.records ++ [(s, c)], remainingSize := n.remainingSize - recordSize s }) := by
  obtain ⟨hs, -, hlt'⟩ := keySorted_append.1 h
  have hlt : ∀ r ∈ n.records, r.1 < s := fun r hr => hlt' r hr (s, c) (by simp)
  obtain ⟨A, B, heq, hlen, -, hgt⟩ := lowerBound_spec hs s
  have hB : B = [] := by
    cases B with
    | nil => rfl
    | cons r B => exact absurd (hgt r (by simp)) (lt_asymm (hlt r (by simp [heq])))
  subst hB
  rw [List.append_nil] at heq
  subst heq
  have hnoteq := not_equal_branch (List.append_nil _).symm hlen hlt
  rw [insert, if_neg (not_lt.2 hspace)]
  simp only []
  rw [if_neg hnoteq, hlen]
  congr 2
  simp

theorem insertPairs_spec (pairs : List (Key × PageID)) :
    ∀ {n : InnerNode}, KeySorted Prod.fst (n.records ++ pairs) →
      (pairs.map fun r => recordSize r.1).sum ≤ n.remainingSize →
      n.insertPairs pairs = { n with
        records := n.records ++ pairs
        remainingSize := n.remainingSize - (pairs.map fun r => recordSize r.1).sum } := by
  induction pairs with
  | nil => intro n _ _; simp [insertPairs]
  | cons r pairs ih =>
    intro n hs hsz
    rw [List.map_cons, List.sum_cons] at hsz
    have hone : n.insert r.1 r.2 = _ := insert_last (s := r.1) (c := r.2)
      (hs.sublist (by simp)) (by omega)
    have hrest := ih (n := { n with
      records := n.records ++ [r], remainingSize := n.remainingSize - recordSize r.1 })
      (by simpa using hs) (by simp only []; omega)
    rw [insertPairs, List.foldl_cons, hone]
    rw [insertPairs] at hrest
    rw [hrest]
    simp only [List.append_assoc, List.singleton_append, List.map_cons, List.sum_cons,
      InnerNode.mk.injEq, true_and, and_true]
    omega

theorem build_spec {leftMost : PageID} {isLeaf : Bool} {records : List (Key × PageID)} {ver : Nat}
    {n : InnerNode} (hs : KeySorted Prod.fst records)
    (hr : build leftMost isLeaf records ver = some n) :
    n.Sized ∧ n.records = records ∧ n.leftMost = leftMost ∧ n.childrenIsLeaf = isLeaf ∧
      n.isRoot = false ∧ n.snapshotVersion = ver ∧ n.splitFlag = false := by
  have hgen : ∀ (rs : List (Key × PageID)) (m : InnerNode), m.Sized →
      KeySorted Prod.fst (m.records ++ rs) →
      rs.foldlM (fun n r => if (n.insert r.1 r.2).1 then some (n.insert r.1 r.2).2 else none) m =
        some n →
      n.Sized ∧ n.records = m.records ++ rs ∧ n.leftMost = m.leftMost ∧
        n.childrenIsLeaf = m.childrenIsLeaf ∧ n.isRoot = m.isRoot ∧
        n.snapshotVersion = m.snapshotVersion ∧ n.splitFlag = m.splitFlag := by
    intro rs
    induction rs with
    | nil =>
      intro m hm _ hfold
      obtain rfl : m = n := by simpa using hfold
      simp [hm]
    | cons r rs ih =>
      intro m hm hms hfold
      rw [List.foldlM_cons] at hfold
      by_cases hsp : recordSize r.1 ≤ m.remainingSize
      · have hone : m.insert r.1 r.2 = _ := insert_last (s := r.1) (c := r.2)
          (hms.sublist (by simp)) hsp
        simp only [hone, if_true, Option.bind_eq_bind, Option.bind_some] at hfold
        have hsized : InnerNode.Sized { m with
            records := m.records ++ [r], remainingSize := m.remainingSize - recordSize r.1 } := by
          unfold Sized at hm ⊢
          simp only [List.map_append, List.sum_append, List.map_cons, List.map_nil, List.sum_cons,
            List.sum_nil]
          omega
        simpa using ih _ hsized (by simpa using hms) hfold
      · have hfull : m.insert r.1 r.2 = (false, m) := by
          rw [insert, if_pos (not_le.1 hsp)]
        simp [hfull] at hfold
  have h0 : ( reinitialize leftMost isLeaf false ver).Sized := by
    simp [Sized, reinitialize, maxDataSize, innerNodeSize, innerHeaderSize, pageIdSize,
      innerKvMetaSize]
  simpa [ reinitialize] using hgen records _ h0 (by simpa [ reinitialize] using hs) hr

/-- **Split.** The separators are cut at the split key, which moves up. -/
theorem split_spec {n left : InnerNode} {ver : Nat} {key : Key} {next : PageID}
    {rest : List (Key × PageID)} (hs : KeySorted Prod.fst n.records) (hz : n.Sized)
    (hr : n.split ver = some (key, left, next, rest)) :
    n.records = left.records ++ (key, next) :: rest ∧ left.Sized ∧ left.leftMost = n.leftMost ∧
      left.childrenIsLeaf = n.childrenIsLeaf ∧ left.isRoot = n.isRoot ∧
      left.snapshotVersion = ver ∧ left.splitFlag = false ∧ n.getSplitKey = some key := by
  simp only [split, Option.bind_eq_bind, Option.bind_eq_some_iff] at hr
  obtain ⟨⟨k, c⟩, hget, hres⟩ := hr
  have hres' := Option.some.inj hres
  rw [Prod.mk.injEq, Prod.mk.injEq, Prod.mk.injEq] at hres'
  obtain ⟨rfl, rfl, rfl, rfl⟩ := hres'
  obtain ⟨hlt, hval⟩ := List.getElem?_eq_some_iff.1 hget
  have hpos : 0 < n.splitPos := by unfold splitPos; omega
  have hsplit : n.records = n.records.take (n.splitPos - 1) ++ (k, c) :: n.records.drop n.splitPos := by
    conv_lhs => rw [← List.take_append_drop (n.splitPos - 1) n.records,
      List.drop_eq_getElem_cons hlt, hval, Nat.sub_add_cancel hpos]
  have hsum : (n.records.map fun r => recordSize r.1).sum =
      ((n.records.take (n.splitPos - 1)).map fun r => recordSize r.1).sum +
        ((((k, c) :: n.records.drop n.splitPos)).map fun r => recordSize r.1).sum := by
    conv_lhs => rw [hsplit, List.map_append, List.sum_append]
  have hcons := insertPairs_spec (n.records.take (n.splitPos - 1))
    (n := reinitialize n.leftMost n.childrenIsLeaf n.isRoot ver)
    (by simpa [ reinitialize] using hs.sublist (List.take_sublist _ _))
    (by
      unfold Sized at hz
      simp only [ reinitialize]
      omega)
  simp only [consolidate]
  rw [hcons]
  refine ⟨hsplit, ?_, rfl, rfl, rfl, rfl, rfl, by simp [getSplitKey, hget]⟩
  unfold Sized at hz ⊢
  simp only [ reinitialize, List.nil_append]
  omega

end InnerNode

end BfTree
