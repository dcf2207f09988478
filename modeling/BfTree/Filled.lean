import BfTree.RangeScan
import BfTree.LeafTxSpec

/-!
# Cached pages with records

An eviction finds the way to a cached page by a key of one of its records, so a cached
page without records cannot be evicted. Most operations on a leaf leave a record in
every page they cache: what they insert, or what they have just read. The exceptions
are the split of a cache-only root leaf, whose halves may consist of tombstones, and
the promotion of a leaf that was split while its mini page was merged.
-/

namespace BfTree

open Lib

namespace LeafNode

variable {p p' q : LeafNode} {key : Key} {value : Value} {op : OpType} {mf : Nat} {b : Bool}

/-- A move to the tail keeps the record. -/
def Hot (p : LeafNode) : Prop := ∃ m ∈ p.metas, m.opType.isCache = false ∨ m.referenced = true

theorem Hot.ne_nil (h : p.Hot) : p.metas ≠ [] := by
  obtain ⟨m, hm, -⟩ := h
  exact List.ne_nil_of_mem hm

theorem insertExisting_records {pos kvLen : Nat} {m : LeafKVMeta} (hm : p.metas[pos]? = some m)
    (h : p.insertExisting pos m kvLen value op = some (b, p')) :
    p'.isBasePage = p.isBasePage ∧ p.metas.length ≤ p'.metas.length ∧ (b = false → p' = p) ∧
      (b = true → ∃ m' ∈ p'.metas, m'.opType = op) := by
  have hpos := (List.getElem?_eq_some_iff.1 hm).1
  simp only [insertExisting] at h
  split at h
  · next hop =>
    cases h
    exact ⟨rfl, by simp [setMeta], by simp, fun _ => ⟨_, List.mem_set hpos _, hop.symm⟩⟩
  · split at h
    · cases h
      exact ⟨rfl, by simp [setMeta], by simp, fun _ => ⟨_, List.mem_set hpos _, rfl⟩⟩
    · split at h
      · cases h
        exact ⟨rfl, le_rfl, fun _ => rfl, by simp⟩
      · split at h
        · cases h
        · cases h
          exact ⟨rfl, by simp [setMeta], by simp, fun _ => ⟨_, List.mem_set hpos _, rfl⟩⟩

theorem insertNew_records {pos kvLen : Nat} (hpos : pos ≤ p.metas.length)
    (h : p.insertNew pos kvLen key value op mf = (b, p')) :
    p'.isBasePage = p.isBasePage ∧ p.metas.length ≤ p'.metas.length ∧ (b = false → p' = p) ∧
      (b = true → op = .delete ∧ p.isBasePage = true ∨ ∃ m' ∈ p'.metas, m'.opType = op) := by
  simp only [insertNew] at h
  split at h
  · next hop =>
    obtain ⟨rfl, rfl⟩ := Prod.mk.inj h
    exact ⟨rfl, le_rfl, by simp, fun _ => .inl hop⟩
  · split at h
    · obtain ⟨rfl, rfl⟩ := Prod.mk.inj h
      exact ⟨rfl, le_rfl, fun _ => rfl, by simp⟩
    · obtain ⟨rfl, rfl⟩ := Prod.mk.inj h
      refine ⟨rfl, ?_, by simp, fun _ => .inr ⟨_, (List.mem_insertIdx hpos).2 (.inl rfl), rfl⟩⟩
      simp [List.length_insertIdx_of_le_length hpos]

/-- No record goes away, and the new one is there; only a base page need not hold what
is deleted. -/
theorem insert_records (h : p.insert key value op mf = some (b, p')) :
    p'.isBasePage = p.isBasePage ∧ p.metas.length ≤ p'.metas.length ∧ (b = false → p' = p) ∧
      (b = true → op = .delete ∧ p.isBasePage = true ∨ ∃ m' ∈ p'.metas, m'.opType = op) := by
  simp only [LeafNode.insert, Option.bind_eq_bind, Option.bind_eq_some_iff] at h
  obtain ⟨pos, hpos, h⟩ := h
  split at h
  · next m hm =>
    split at h
    · obtain ⟨hbase, hlen, hsame, hmem⟩ := insertExisting_records hm h
      exact ⟨hbase, hlen, hsame, fun hb => .inr (hmem hb)⟩
    · exact insertNew_records (lowerBound_le hpos) (Option.some.inj h)
  · exact insertNew_records (lowerBound_le hpos) (Option.some.inj h)

theorem insert_ne_nil (h : p.insert key value op mf = some (b, p')) (hp : p.metas ≠ []) :
    p'.metas ≠ [] := by
  rw [← List.length_pos_iff] at hp ⊢
  exact hp.trans_le (insert_records h).2.1

theorem insertAll_records {pairs : List (Key × Value × OpType)} :
    ∀ {p q : LeafNode}, p.insertAll mf pairs = some q →
      q.isBasePage = p.isBasePage ∧ p.metas.length ≤ q.metas.length ∧
      ((∃ r ∈ pairs, r.2.2 ≠ .delete ∨ p.isBasePage = false) → q.metas ≠ []) := by
  induction pairs with
  | nil =>
    intro p q h
    cases h
    exact ⟨rfl, le_rfl, by simp⟩
  | cons r pairs ih =>
    obtain ⟨key, value, op⟩ := r
    intro p q h
    simp only [insertAll] at h
    split at h
    · next p' hins =>
      obtain ⟨hbase, hlen, -, hmem⟩ := insert_records hins
      obtain ⟨hbase', hlen', hmem'⟩ := ih h
      refine ⟨hbase'.trans hbase, hlen.trans hlen', ?_⟩
      rintro ⟨r, hr, hop⟩
      rcases List.mem_cons.1 hr with rfl | hr
      · obtain ⟨hd, hb⟩ | ⟨m, hm, -⟩ := hmem rfl
        · rcases hop with hop | hop
          · exact absurd hd hop
          · rw [hb] at hop
            cases hop
        · rw [← List.length_pos_iff]
          exact (List.length_pos_of_mem hm).trans_le hlen'
      · exact hmem' ⟨r, hr, by rw [hbase]; exact hop⟩
    · cases h

/-- A copy that leaves out cold records keeps a hot one. -/
theorem copyInitializeTo_ne_nil {size ver : Nat} (h : p.copyInitializeTo size true ver = some q)
    (hot : p.Hot) : q.metas ≠ [] := by
  obtain ⟨m, hm, hkeep⟩ := hot
  simp only [copyInitializeTo] at h
  split at h
  · cases h
  · next hbase =>
    refine (insertAll_records h).2.2 ⟨(p.getFullKey m, m.value, m.opType), ?_, .inr ?_⟩
    · refine List.mem_filterMap.2 ⟨m, hm, if_neg ?_⟩
      rcases hkeep with hk | hk <;> simp [hk]
    · rw [not_or, Bool.not_eq_true] at hbase
      simpa only [isBasePage, initializeNode_isCacheOnlyLeaf, initializeNode_nextLevel] using hbase.1

theorem copyInitializeTo_isBasePage {size ver : Nat} {discard : Bool}
    (h : p.copyInitializeTo size discard ver = some q) : q.isBasePage = false := by
  simp only [copyInitializeTo] at h
  split at h
  · cases h
  · next hbase =>
    rw [not_or, Bool.not_eq_true] at hbase
    rw [(insertAll_records h).1]
    simpa only [isBasePage, initializeNode_isCacheOnlyLeaf, initializeNode_nextLevel] using hbase.1

/-- What is read is marked. -/
theorem readByKeyInner_records {out out' : List UInt8} {r : LeafReadResult}
    (h : p.readByKeyInner key out b = some (r, out', p')) :
    p'.metas.length = p.metas.length ∧ p'.isBasePage = p.isBasePage ∧ (r ≠ .notFound → p'.Hot) ∧
      ((∃ n, r = .found n) → ∃ m ∈ p'.metas, m.opType ≠ .delete) := by
  simp only [readByKeyInner, Option.bind_eq_bind, Option.bind_eq_some_iff] at h
  obtain ⟨pos, -, h⟩ := h
  split at h
  · obtain ⟨rfl, -, rfl⟩ : .notFound = r ∧ out = out' ∧ p = p' := by simpa using h
    exact ⟨rfl, rfl, by simp, by simp⟩
  · next m hm =>
    have hmem : { m with referenced := true } ∈
        (p.setMeta pos { m with referenced := true }).metas :=
      List.mem_set (List.getElem?_eq_some_iff.1 hm).1 _
    have hlen : (p.setMeta pos { m with referenced := true }).metas.length = p.metas.length := by
      simp [setMeta]
    split at h
    · split at h
      · obtain ⟨rfl, -, rfl⟩ : .deleted = r ∧ out = out' ∧ _ = p' := by simpa using h
        exact ⟨hlen, rfl, fun _ => ⟨_, hmem, .inr rfl⟩, by simp⟩
      · next habs =>
        simp only [Option.bind_eq_some_iff, Option.some.injEq, Prod.mk.injEq] at h
        obtain ⟨_, -, rfl, -, rfl⟩ := h
        refine ⟨hlen, rfl, fun _ => ⟨_, hmem, .inr rfl⟩, fun _ => ⟨_, hmem, fun hop => habs ?_⟩⟩
        rw [show m.opType = .delete from hop]
        rfl
    · obtain ⟨rfl, -, rfl⟩ : .notFound = r ∧ out = out' ∧ _ = p' := by simpa using h
      exact ⟨hlen, rfl, by simp, by simp⟩

theorem ne_nil_of_entry {k : Key} (h : p.entry k ≠ none) : p.metas ≠ [] :=
  fun hnil => h (entry_of_metas_nil hnil k)

/-- Consolidation keeps what is not deleted. -/
theorem consolidateSingle_ne_nil {base base' : LeafNode}
    (h : LeafEntry.consolidateSingle base = some base')
    (hlive : ∃ m ∈ base.metas, m.opType ≠ .delete) : base'.metas ≠ [] := by
  obtain ⟨m, hm, hop⟩ := hlive
  simp only [LeafEntry.consolidateSingle] at h
  split at h
  · obtain ⟨b, hb, rfl⟩ := Option.map_eq_some_iff.1 h
    refine (insertAll_records hb).2.2 ⟨(base.getFullKey m, m.value, .insert), ?_, .inl (by simp)⟩
    exact List.mem_filterMap.2 ⟨m, hm, by simp [hop]⟩
  · cases h
    exact List.ne_nil_of_mem hm

theorem mergeMiniPage_ne_nil {base base' mini : LeafNode} {mf : Nat}
    (h : base.mergeMiniPage mini mf = some (b, base')) (hne : base.metas ≠ []) :
    base'.metas ≠ [] := by
  simp only [mergeMiniPage] at h
  split at h
  · cases h
    exact hne
  · simp only [Option.bind_eq_bind, Option.bind_eq_some_iff] at h
    obtain ⟨b', hb', heq⟩ := h
    cases heq
    rw [← List.length_pos_iff] at hne ⊢
    exact hne.trans_le (insertAll_records hb').2.1

theorem covertInsertRecordsToCache_ne_nil (h : p.covertInsertRecordsToCache = some q)
    (hne : p.metas ≠ []) : q.metas ≠ [] := by
  simp only [covertInsertRecordsToCache] at h
  split at h
  · cases h
  · cases h
    simpa using hne

end LeafNode

/-! ## Pages of cache-only leaves -/

section CachePage

variable {cfg : Config} {lo hi key : Key} {value : Value} {op : OpType} {p : LeafNode}

theorem CachePage.hot (h : CachePage cfg lo hi p) (hne : p.metas ≠ []) : p.Hot := by
  obtain ⟨m, hm⟩ := List.exists_mem_of_ne_nil _ hne
  have hd := h.dirty _ _ ((LeafNode.entry_eq_some h.wf).2 ⟨m, hm, rfl, rfl, rfl⟩)
  refine ⟨m, hm, .inl ?_⟩
  cases hop : m.opType <;> simp [hop, OpType.isDirty] at hd <;> rfl

/-- The record that is split for has a place in one half, and the split key leaves
another record for each half that does not get it. -/
theorem CachePage.halves_ne_nil {left sibling left' sibling' : LeafNode} {k₀ : Key} {size ver : Nat}
    (h : CachePage cfg lo hi p) (hop : ∀ k e, p.entry k = some e → e.1 = .insert)
    (hs : LeafNode.SplitResult p left sibling size k₀ true ver)
    (hkey : p.entry k₀ ≠ none ∨ k₀ = key) (hbelow : ∃ k, (p.entry k ≠ none ∨ k = key) ∧ k < k₀)
    (hins : k₀ ≤ key ∧ left' = left ∧ sibling.insert key value op 0 = some (true, sibling') ∨
      key < k₀ ∧ sibling' = sibling ∧ left.insert key value op 0 = some (true, left')) :
    left'.metas ≠ [] ∧ sibling'.metas ≠ [] := by
  obtain ⟨hcl, hcr, -, -⟩ := h.split hs
  have hclean : ∀ k, p.entry k ≠ none → LeafNode.cleaned (p.entry k) ≠ none := by
    intro k hk
    obtain ⟨⟨o, v⟩, he⟩ := Option.ne_none_iff_exists'.1 hk
    obtain rfl : o = .insert := hop k _ he
    rw [he]
    simp [LeafNode.cleaned]
  -- an old record stays in its half
  have hl : ∀ k, k < k₀ → p.entry k ≠ none → left.metas ≠ [] := fun k hlt hk =>
    LeafNode.ne_nil_of_entry (k := k) (by rw [hs.left_entry, if_pos hlt]; exact hclean k hk)
  have hr : p.entry k₀ ≠ none → sibling.metas ≠ [] := fun hk =>
    LeafNode.ne_nil_of_entry (k := k₀)
      (by rw [hs.sibling_entry, if_neg (lt_irrefl _)]; exact hclean k₀ hk)
  have hnew : ∀ {q q' : LeafNode}, q.isBasePage = false → q.insert key value op 0 = some (true, q') →
      q'.metas ≠ [] := by
    intro q q' hq hqi
    obtain ⟨-, hb⟩ | ⟨m, hm, -⟩ := (LeafNode.insert_records hqi).2.2.2 rfl
    · rw [hq] at hb; cases hb
    · exact List.ne_nil_of_mem hm
  obtain ⟨k, hk, hlt⟩ := hbelow
  obtain ⟨hge, rfl, hins⟩ | ⟨hlt', rfl, hins⟩ := hins
  · refine ⟨hl k hlt (hk.resolve_right fun he => ?_), hnew hcr.isBasePage hins⟩
    exact absurd hge (not_le.2 (he ▸ hlt))
  · exact ⟨hnew hcl.isBasePage hins, hr (hkey.resolve_right fun he => hlt'.ne he.symm)⟩

end CachePage

/-- A page that is cached has a record. -/
def PageLocation.Filled : PageLocation → Prop
  | .mini p | .full p => p.metas ≠ []
  | .base _ | .null => True

namespace LeafEntry

/-- All pages that a transaction caches have a record. -/
structure Filled (t : LeafEntry) : Prop where
  loc : t.loc.Filled
  sibling : ∀ l, t.sibling = some l → l.Filled

/-- The cached pages are left alone. -/
structure Still (t t' : LeafEntry) : Prop where
  loc : t'.loc = t.loc
  sibling : t'.sibling = t.sibling

theorem Filled.still {t t' : LeafEntry} (h : t.Filled) (hs : Still t t') : t'.Filled :=
  ⟨by rw [hs.loc]; exact h.loc, by rw [hs.sibling]; exact h.sibling⟩

theorem Filled.setLoc {t : LeafEntry} (h : t.Filled) {loc : PageLocation} (hl : loc.Filled) :
    Filled { t with loc := loc } :=
  ⟨hl, h.sibling⟩

section

variable {t : LeafEntry} {cfg : Config} {g : SnapshotGuard} {env : Env} {E : TreeError → LeafEntry → Prop}

theorem wp_loadBasePage {Q : LeafNode → LeafEntry → Prop} {offset : Nat}
    (h : ∀ b, (∀ b', t.tmpBuffer = some b' → b' = b) → Q b.page { t with tmpBuffer := some b }) :
    wp (loadBasePage offset) Q E t := by
  simp only [loadBasePage, wp_bind, wp_get]
  split
  · next b hb =>
    have hq := h b fun b' hb' => Option.some.inj (hb'.symm.trans hb)
    rw [← hb] at hq
    exact (wp_pure _).2 hq
  · next hb =>
    simp only [wp_bind, wp_unwrap, wp_setBuffer, wp_pure]
    exact fun p _ => h ⟨false, p⟩ fun b' hb' => by rw [hb] at hb'; cases hb'

theorem wp_loadBasePageMut {Q : LeafNode → LeafEntry → Prop}
    (h : ∀ p, (∀ b, t.tmpBuffer = some b → b.page = p) →
      Q p { t with tmpBuffer := some ⟨true, p⟩ }) : wp loadBasePageMut Q E t := by
  simp only [loadBasePageMut, wp_bind, wp_get]
  split
  · next b hb =>
    simp only [wp_bind, wp_setBuffer, wp_pure]
    exact h _ fun b' hb' => by rw [Option.some.inj (hb'.symm.trans hb)]
  · next hb =>
    simp only [wp_bind, wp_unwrap, wp_setBuffer, wp_pure]
    exact fun _ _ p _ => h p fun b' hb' => by rw [hb] at hb'; cases hb'

theorem versionRuleBase_still : Ensures (versionRuleBase g) (Still t) t := by
  simp only [Ensures, versionRuleBase]
  refine wp_ite (fun _ => ?_) (fun _ => (wp_pure ()).2 ⟨rfl, rfl⟩)
  rw [wp_bind]
  refine wp_loadBasePageMut fun p _ => ?_
  simp only [wp_bind, wp_get]
  refine wp_versionRule ⟨rfl, rfl⟩ ⟨rfl, rfl⟩ ?_ fun slot => ?_
  · rw [wp_writeBase]
    exact ⟨rfl, rfl⟩
  · simp only [wp_bind, wp_record, wp_writeBase]
    refine wp_ite (fun _ => wp_recordRoot ⟨rfl, rfl⟩) fun _ => ?_
    exact (wp_pure ()).2 ⟨rfl, rfl⟩

theorem versionRuleFull_filled {p : LeafNode} (h : t.Filled) (hl : t.loc = .full p) :
    wp (versionRuleFull g p)
      (fun q t' => t'.Filled ∧ q.metas ≠ []) (fun _ => Filled) t := by
  have hp : p.metas ≠ [] := by have := h.loc; rwa [hl] at this
  simp only [versionRuleFull, wp_bind, wp_get]
  refine wp_versionRule ⟨h, hp⟩ h ?_ fun slot => ?_
  · simp only [wp_bind, wp_setLoc, wp_pure]
    exact ⟨⟨hp, h.sibling⟩, hp⟩
  · simp only [wp_bind, wp_record, wp_setLoc, wp_pure]
    exact ⟨⟨hp, h.sibling⟩, hp⟩

theorem versionRuleMini_filled {p : LeafNode} (h : t.Filled) (hl : t.loc = .mini p) :
    wp (versionRuleMini cfg g p)
      (fun q t' => t'.Filled ∧ SameRecords p q ∧ t'.loc = .mini q ∧ t'.parent = t.parent)
      (fun _ => Filled) t := by
  have hp : p.metas ≠ [] := by have := h.loc; rwa [hl] at this
  have hlift : ∀ b cs, Filled { t with
      loc := .mini (p.setSnapshotVersion g.version (!cfg.cacheOnly)), tmpBuffer := b, captures := cs } :=
    fun b cs => ⟨hp, h.sibling⟩
  have hsame : SameRecords p (p.setSnapshotVersion g.version (!cfg.cacheOnly)) :=
    .setSnapshotVersion _ _ _
  simp only [versionRuleMini, wp_bind, wp_get]
  refine wp_versionRule ⟨h, .refl p, hl, rfl⟩ h ?_ fun slot => ?_
  · simp only [wp_bind, wp_setLoc, wp_pure]
    exact ⟨hlift _ _, hsame, trivial, trivial⟩
  · simp only [wp_bind, wp_record, wp_setLoc]
    refine wp_ite (fun _ => ?_) fun _ => ?_
    · simp only [wp_bind, wp_unwrap]
      intro o _
      refine wp_loadBasePage fun b _ => ?_
      simp only [wp_assert, wp_record]
      intro _
      refine wp_ite (fun _ => ?_) fun _ => (wp_pure _).2 ⟨hlift _ _, hsame, rfl, rfl⟩
      rw [wp_bind]
      exact wp_recordRoot ((wp_pure _).2 ⟨hlift _ _, hsame, rfl, rfl⟩)
    · refine wp_ite (fun _ => ?_) fun _ => (wp_pure _).2 ⟨hlift _ _, hsame, rfl, rfl⟩
      rw [wp_bind]
      exact wp_recordRoot ((wp_pure _).2 ⟨hlift _ _, hsame, rfl, rfl⟩)

theorem wp_changeToBaseLoc {Q : Unit → LeafEntry → Prop}
    (h : ∀ o, Q () { t with loc := .base o }) : wp changeToBaseLoc Q E t := by
  simp only [changeToBaseLoc, wp_bind, wp_get]
  split
  · simp only [wp_bind, wp_unwrap, wp_setLoc]
    exact fun o _ => h o
  · simp only [wp_bind, wp_unwrap, wp_setLoc]
    exact fun o _ => h o
  · exact wp_crash.2 trivial
  · exact wp_crash.2 trivial

theorem mergeFullPage_filled {p : LeafNode} (h : t.Filled) :
    Ensures (mergeFullPage cfg p) Filled t := by
  simp only [Ensures, mergeFullPage, wp_bind, wp_assert]
  intro _
  refine wp_ite (fun _ => wp_changeToBaseLoc fun o => ⟨trivial, h.sibling⟩) fun _ => ?_
  rw [wp_bind]
  refine wp_changeToBaseLoc fun o => ?_
  simp only [wp_bind, wp_get, wp_assert, wp_writeBase]
  exact fun _ => ⟨trivial, h.sibling⟩

theorem insertFull_filled {p : LeafNode} {key : Key} {value : Value} {op : OpType} (h : t.Filled)
    (hl : t.loc = .full p) :
    wp (insertFull cfg env g p key value op)
      (fun _ t' => t'.Filled ∧ ∀ q, t'.loc ≠ .mini q) (fun _ => Filled) t := by
  simp only [insertFull, wp_bind]
  refine wp_mono (versionRuleFull_filled h hl) ?_ fun _ _ hf => hf
  rintro q t₁ ⟨h₁, hq⟩
  simp only [wp_unwrap, wp_setLoc]
  rintro ⟨success, q'⟩ hins
  have h₂ : Filled { t₁ with loc := .full q' } := h₁.setLoc (LeafNode.insert_ne_nil hins hq)
  refine wp_ite (fun _ => (wp_pure ()).2 ⟨h₂, by simp⟩) fun _ => ?_
  simp only [wp_bind, mergeFullPageAndDealloc, wp_attempt]
  refine ⟨fun _ => ?_, fun _ _ => h₂⟩
  exact wp_mono (mergeFullPage_filled h₂) (fun _ _ hf => (wp_fail _).2 hf)
    fun _ _ hf => hf

/-! ## Merging a mini page -/

/-- While a mini page is merged it stays where it is, and a new leaf is not cached. -/
structure Merging (mini : LeafNode) (t t' : LeafEntry) : Prop where
  loc : ∃ q, t'.loc = .mini q ∧ q.metas = mini.metas
  sibling : t'.sibling = t.sibling ∨ ∃ o, t'.sibling = some (.base o)

theorem Merging.still {mini : LeafNode} {t₁ t₂ : LeafEntry} (h : Merging mini t t₁)
    (hs : Still t₁ t₂) : Merging mini t t₂ :=
  ⟨by rw [hs.loc]; exact h.loc, by rw [hs.sibling]; exact h.sibling⟩

theorem Merging.filled {mini : LeafNode} {t' : LeafEntry} (h : t.Filled) (hl : t.loc = .mini mini)
    (hm : Merging mini t t') : t'.Filled := by
  obtain ⟨q, hq, hmetas⟩ := hm.loc
  have hne : mini.metas ≠ [] := by have := h.loc; rwa [hl] at this
  refine ⟨?_, fun l hl' => ?_⟩
  · rw [hq]
    show q.metas ≠ []
    rwa [hmetas]
  obtain hs | ⟨o, hs⟩ := hm.sibling
  · exact h.sibling l (hs ▸ hl')
  · obtain rfl : .base o = l := Option.some.inj (hs.symm.trans hl')
    trivial

theorem liftParent_still {p : Parent} {save : Option Nat} :
    Ensures (liftParent g p save) (Still t) t := by
  simp only [Ensures, liftParent]
  refine wp_ite (fun _ => ?_) fun _ => (wp_pure _).2 ⟨rfl, rfl⟩
  cases save with
  | none =>
    simp only [wp_bind, wp_setParent, wp_pure]
    exact ⟨rfl, rfl⟩
  | some slot =>
    rw [wp_bind]
    refine wp_recordInner fun cs => ?_
    simp only [wp_bind, wp_setParent, wp_pure]
    exact ⟨rfl, rfl⟩

theorem liftMini_merging {mini base : LeafNode} {save : Option Nat} (hl : t.loc = .mini mini) :
    Ensures (liftMini g mini base save) (Merging mini t) t := by
  simp only [Ensures, liftMini, wp_bind, wp_get]
  refine wp_ite (fun _ => ?_) fun _ => (wp_pure _).2 ⟨⟨mini, hl, rfl⟩, .inl rfl⟩
  cases save with
  | none =>
    simp only [wp_bind, wp_setLoc, wp_pure]
    exact ⟨⟨_, rfl, rfl⟩, .inl rfl⟩
  | some slot =>
    simp only [wp_bind, wp_record, wp_setLoc, wp_writeBase, wp_pure]
    exact ⟨⟨_, rfl, rfl⟩, .inl rfl⟩

theorem versionRuleMerge_merging {p : Parent} {mini base : LeafNode} (hl : t.loc = .mini mini) :
    Ensures (versionRuleMerge g p mini base) (Merging mini t) t := by
  have hsame : Merging mini t t := ⟨⟨mini, hl, rfl⟩, .inl rfl⟩
  have hlift : ∀ save, Ensures (do
      let p ← liftParent g p save
      let pages ← liftMini g mini base save
      pure (p, pages) : M (Parent × LeafNode × LeafNode)) (Merging mini t) t := by
    intro save
    refine .bind (wp_mono liftParent_still (fun q u hu => ?_) fun _ u hu => hsame.still hu)
    refine .bind (wp_mono (liftMini_merging (hu.loc.trans hl)) (fun pages w hw => ?_)
      fun _ w hw => ?_)
    · refine (wp_pure _).2 ⟨hw.loc, ?_⟩
      rw [← hu.sibling]
      exact hw.sibling
    · exact ⟨hw.loc, by rw [← hu.sibling]; exact hw.sibling⟩
  unfold versionRuleMerge
  split
  · exact (wp_pure _).2 hsame
  · split
    · exact hlift none
    · exact wp_ite (fun _ => (wp_fail _).2 hsame) fun _ => (wp_pure _).2 hsame
    · exact hlift _
    · exact hlift _

theorem mergeAndSplit_merging {mini base : LeafNode} (hl : t.loc = .mini mini) :
    wp (mergeAndSplit cfg env mini base)
      (fun r t' => Merging mini t t' ∧ r = .mergeAndSplit ∧ t'.sibling ≠ none)
      (fun _ => Merging mini t) t := by
  have hsame : Merging mini t t := ⟨⟨mini, hl, rfl⟩, .inl rfl⟩
  unfold mergeAndSplit
  cases env.mergeGuard with
  | none =>
    rw [wp_bind, wp_fail]
    exact hsame
  | some g =>
    simp only [wp_bind, wp_pure, wp_attempt, wp_get, wp_unwrap, wp_writeBase]
    refine ⟨fun _ p _ => ?_, fun _ _ => hsame⟩
    rintro ⟨key, base₁⟩ -
    refine wp_mono (versionRuleMerge_merging (by exact hl)) ?_ fun _ _ h => ⟨h.loc, h.sibling⟩
    rintro ⟨q, mini₂, base₂⟩ t₂ h₂
    refine wp_ite (fun _ => ?_) fun _ => ?_
    · simp only [wp_bind, wp_unwrap, wp_insertParent, wp_writeBase, wp_modify,
        wp_pure]
      rintro - - ⟨left, sibling⟩ -
      exact ⟨⟨h₂.loc, .inr ⟨_, rfl⟩⟩, trivial, by simp⟩
    · simp only [wp_bind, wp_setParent, wp_fail]
      exact ⟨h₂.loc, h₂.sibling⟩

/-- The base page in the buffer has a record that is not deleted. -/
def LiveBuffer (t : LeafEntry) : Prop :=
  ∃ b, t.tmpBuffer = some b ∧ ∃ m ∈ b.page.metas, m.opType ≠ .delete

/-- A merge without a split keeps a live base page from becoming empty. -/
theorem tryMergeMiniPage_merging {mini : LeafNode} (hl : t.loc = .mini mini) :
    wp (tryMergeMiniPage cfg env mini)
      (fun _ t' => Merging mini t t' ∧ (t'.sibling ≠ none ∨ t'.sibling = t.sibling ∧
        (t.LiveBuffer → ∃ b, t'.tmpBuffer = some b ∧ b.page.metas ≠ [])))
      (fun _ => Merging mini t) t := by
  have hsame : Merging mini t t := ⟨⟨mini, hl, rfl⟩, .inl rfl⟩
  simp only [tryMergeMiniPage, wp_bind, wp_attempt]
  refine ⟨fun _ => wp_ite (fun _ => ?_) fun _ => ?_, fun _ _ => hsame⟩
  · refine (wp_pure _).2 ⟨hsame, .inr ⟨rfl, ?_⟩⟩
    rintro ⟨b, hb, m, hm, -⟩
    exact ⟨b, hb, List.ne_nil_of_mem hm⟩
  · rw [wp_bind]
    refine wp_loadBasePageMut fun p hp => ?_
    simp only [wp_bind, wp_unwrap, wp_writeBase]
    intro base hbase
    rintro ⟨merged, base'⟩ hmerge
    refine wp_ite (fun _ => (wp_pure _).2 ⟨⟨⟨mini, hl, rfl⟩, .inl rfl⟩, .inr ⟨rfl, ?_⟩⟩) fun _ => ?_
    · rintro ⟨b, hb, hlive⟩
      rw [hp b hb] at hlive
      exact ⟨_, rfl, LeafNode.mergeMiniPage_ne_nil hmerge
        (LeafNode.consolidateSingle_ne_nil hbase hlive)⟩
    · exact wp_mono (mergeAndSplit_merging hl) (fun _ _ hm => ⟨⟨hm.1.loc, hm.1.sibling⟩, .inl hm.2.2⟩)
        fun _ _ hm => ⟨hm.loc, hm.sibling⟩

theorem mergeMiniPageAndDealloc_filled {mini : LeafNode} (h : t.Filled) (hl : t.loc = .mini mini) :
    Ensures (mergeMiniPageAndDealloc cfg env mini) Filled t := by
  simp only [Ensures, mergeMiniPageAndDealloc, wp_bind, wp_attempt]
  refine ⟨fun _ => ?_, fun _ _ => h⟩
  refine wp_mono (tryMergeMiniPage_merging hl) (fun _ t₁ hm => ?_) fun _ _ hm => hm.filled h hl
  exact wp_changeToBaseLoc fun o => ⟨trivial, (hm.1.filled h hl).sibling⟩

theorem upgradeToFullPage_filled {base : LeafNode} {offset : Option Nat} :
    wp (upgradeToFullPage cfg env base offset)
      (fun loc t' => t' = t ∧ ∃ q, loc = .full q ∧ (base.metas ≠ [] → q.metas ≠ []))
      (fun _ t' => t' = t) t := by
  simp only [upgradeToFullPage, wp_bind, wp_attempt, wp_assert, wp_unwrap,
    wp_pure]
  refine ⟨fun _ _ q hq => ⟨trivial, _, rfl, fun hne => ?_⟩, fun _ _ => trivial⟩
  show q.metas ≠ []
  exact LeafNode.covertInsertRecordsToCache_ne_nil hq hne

theorem promoteMerged_filled {nextLevel : Option Nat} (h : t.Filled) :
    Ensures (promoteMerged cfg env nextLevel) Filled t := by
  simp only [Ensures, promoteMerged, wp_bind, wp_unwrap]
  intro o _
  refine wp_loadBasePage fun b _ => ?_
  refine wp_ite (fun hne => ?_) fun _ => (wp_pure ()).2 (h.still ⟨rfl, rfl⟩)
  rw [wp_bind]
  refine wp_mono upgradeToFullPage_filled ?_ ?_
  · rintro loc t₁ ⟨rfl, q, rfl, hq⟩
    exact (wp_setLoc _).2 ⟨hq hne, h.sibling⟩
  · rintro - t₁ rfl
    exact h.still ⟨rfl, rfl⟩

theorem mergeAndPromote_filled {mini : LeafNode} (h : t.Filled) (hl : t.loc = .mini mini) :
    wp (mergeAndPromote cfg env mini) (fun _ _ => False) (fun _ => Filled) t := by
  simp only [mergeAndPromote, wp_bind, wp_get, wp_assert]
  intro _
  refine wp_mono (mergeMiniPageAndDealloc_filled h hl) (fun _ t₁ h₁ => ?_) fun _ _ h₁ => h₁
  refine wp_ite (fun _ => ?_) fun _ => (wp_fail _).2 h₁
  rw [wp_bind]
  exact wp_mono (promoteMerged_filled h₁) (fun _ _ h₂ => (wp_fail _).2 h₂)
    fun _ _ h₂ => h₂

/-! ## Insert -/

/-- The leaf has its new record: a mini page is not lost when it is moved. -/
structure Warm (op : OpType) (t : LeafEntry) : Prop where
  filled : t.Filled
  hot : op.isCache = false → ∀ q, t.loc = .mini q → q.Hot

theorem warm_mini {p q : LeafNode} {key : Key} {value : Value} {op : OpType} (h : t.Filled)
    (hp : p.isBasePage = false) (hins : p.insert key value op 0 = some (true, q)) :
    Warm op { t with loc := .mini q } := by
  obtain ⟨-, hb⟩ | ⟨m, hm, hop⟩ := (LeafNode.insert_records hins).2.2.2 rfl
  · rw [hp] at hb; cases hb
  · refine ⟨⟨List.ne_nil_of_mem hm, h.sibling⟩, ?_⟩
    rintro hc q' ⟨⟩
    exact ⟨m, hm, .inl (hop ▸ hc)⟩

variable {key : Key} {value : Value} {op : OpType} {sizeClasses : List Nat}

theorem insertBase_filled {offset : Nat} (h : t.Filled) (hl : t.loc = .base offset) :
    wp (insertBase cfg sizeClasses env g offset key value op) (fun _ => Warm op)
      (fun _ => Filled) t := by
  simp only [insertBase, wp_bind]
  refine wp_mono versionRuleBase_still (fun _ t₁ h₁ => ?_) fun _ _ h₁ => h.still h₁
  have hf₁ : ∀ b, Filled { t₁ with tmpBuffer := b } := fun b => (h.still h₁).still ⟨rfl, rfl⟩
  rw [wp_get]
  refine wp_ite (fun _ => ?_) fun _ => ?_
  · rw [wp_bind]
    refine wp_loadBasePageMut fun p _ => ?_
    simp only [wp_bind, wp_unwrap]
    rintro ⟨success, p'⟩ -
    refine wp_ite (fun _ => (wp_writeBase _).2 ⟨hf₁ _, ?_⟩) fun _ => ?_
    · rintro - q hq
      rw [show t₁.loc = .base offset from h₁.loc.trans hl] at hq
      cases hq
    · simp only [wp_bind, wp_writeBase, wp_fail]
      exact hf₁ _
  · simp only [wp_bind, wp_unwrap, wp_attempt, wp_assert, wp_setLoc]
    refine fun size _ => ⟨fun _ => ?_, fun _ _ => hf₁ t₁.tmpBuffer⟩
    rintro ⟨success, mini⟩ hins hsuccess
    obtain rfl : success = true := hsuccess
    exact warm_mini (h.still h₁) (by simp [LeafNode.initializeMiniPage, LeafNode.isBasePage]) hins

theorem growMini_filled {p : LeafNode} {size : Nat} (h : t.Filled) :
    wp (growMini env g p size key value op) (fun _ => Warm op) (fun _ => Filled) t := by
  simp only [growMini, wp_bind, wp_attempt, wp_unwrap, wp_assert, wp_setLoc]
  refine ⟨fun _ => ⟨fun _ => ?_, fun _ _ => h⟩, fun _ _ => h⟩
  intro grown hgrown
  rintro ⟨success, grown'⟩ hins hsuccess
  obtain rfl : success = true := hsuccess
  refine warm_mini h ?_ hins
  have hbase := LeafNode.copyInitializeTo_isBasePage hgrown
  split
  · exact hbase
  · exact hbase

theorem splitMini_filled {p : LeafNode} {lo hi : Key} (h : t.Filled) (hcfg : cfg.Bounds)
    (hcache : cfg.cacheOnly = true) (hp : CachePage cfg lo hi p)
    (hs : Storable cfg lo hi key value op) :
    wp (splitMini cfg env g p key value op) (fun _ => Warm op) (fun _ => Filled) t := by
  simp only [splitMini, wp_bind, wp_assert, wp_unwrap, wp_setLoc]
  intro hsize p₁ hp₁
  rintro ⟨success, p₂⟩ hins
  have hp₁ : p.consolidateInner .insert none true true (some key) g.version = some p₁ := by
    rw [LeafNode.consolidateSkipKey, hp.isBasePage, hp.isCacheOnlyLeaf] at hp₁
    exact hp₁
  obtain ⟨h₁, -, -, hsum₁, hnew₁⟩ := hp.consolidateInner hp₁
  refine wp_ite (fun hok => ?_) fun hfull => ?_
  · obtain rfl : success = true := hok
    exact (wp_pure ()).2 (warm_mini h h₁.isBasePage hins)
  · obtain rfl : p₂ = p₁ := (LeafNode.insert_records hins).2.2.1 (by simpa using hfull)
    simp only [wp_bind, wp_assert, wp_unwrap, wp_get, wp_attempt]
    intro hne splitKey hkey q hq
    have hne : p₂.metas ≠ [] := of_decide_eq_true hne
    have hf₂ : Filled { t with loc := .mini p₂ } := ⟨hne, h.sibling⟩
    refine ⟨fun _ => ⟨fun _ => ?_, fun _ _ => hf₂⟩, fun _ _ => hf₂⟩
    have hq' : ({ t with loc := .mini p₂ } : LeafEntry).parent = some q := hq
    refine wp_mono (versionRuleParent_spec g hq') ?_ ?_
    · rintro q' t₁ ⟨-, hl₁, hk₁, -⟩
      have hf₁ : t₁.Filled := hf₂.still ⟨hl₁, hk₁.sibling⟩
      refine wp_ite (fun _ => ?_) fun _ => ?_
      · simp only [wp_bind, wp_attempt, wp_unwrap, wp_insertParent]
        refine ⟨fun _ => ?_, fun _ _ => hf₁⟩
        rintro ⟨left, sibling⟩ hsplit
        obtain ⟨-, hres⟩ := LeafNode.splitWithKey_spec h₁.wf hsplit
        have hn : u16 (key.length + value.length) ≤ cfg.cbMaxRecordSize :=
          (Nat.mod_le _ _).trans hs.small
        rw [of_decide_eq_true hsize] at hsum₁
        obtain ⟨hmem, hbelow⟩ := h₁.splitKey_mem hcfg hcache (hnew₁ key rfl) hne hsum₁ hn hkey
        have hpages : ∀ left' sibling',
            (splitKey ≤ key ∧ left' = left ∧
              sibling.insert key value op 0 = some (true, sibling') ∨
            key < splitKey ∧ sibling' = sibling ∧
              left.insert key value op 0 = some (true, left')) →
            left'.Hot ∧ sibling'.metas ≠ [] := by
          intro left' sibling' hcase
          obtain ⟨hcl, hcr, hel, her⟩ := h₁.split hres
          obtain ⟨hl', -, -, -⟩ := splitMini_halves hcl hcr hel her hs hcase
          obtain ⟨hne₁, hne₂⟩ := h₁.halves_ne_nil (hp.consolidateInner_op hp₁) hres hmem hbelow hcase
          exact ⟨hl'.hot hne₁, hne₂⟩
        have hwarm : ∀ left' sibling' pr ins, left'.Hot ∧ sibling'.metas ≠ [] → Warm op { t₁ with
            parent := pr, inserted := ins, loc := .mini left', sibling := some (.mini sibling') } := by
          rintro left' sibling' pr ins ⟨hhot, hne'⟩
          refine ⟨⟨hhot.ne_nil, ?_⟩, ?_⟩
          · rintro l ⟨⟩
            exact hne'
          · rintro - q ⟨⟩
            exact hhot
        refine wp_ite (fun hge => ?_) (fun hlt => ?_)
        · simp only [wp_bind, wp_unwrap, wp_assert, wp_modify]
          rintro ⟨success, sibling'⟩ hins' hsuccess
          obtain rfl : success = true := hsuccess
          exact hwarm _ _ _ _ (hpages left sibling' (.inl ⟨hge, rfl, hins'⟩))
        · simp only [wp_bind, wp_unwrap, wp_assert, wp_modify]
          rintro ⟨success, left'⟩ hins' hsuccess
          obtain rfl : success = true := hsuccess
          exact hwarm _ _ _ _ (hpages left' sibling (.inr ⟨not_le.1 hlt, rfl, hins'⟩))
      · simp only [wp_bind, wp_setParent, wp_fail]
        exact hf₁.still ⟨rfl, rfl⟩
    · rintro e t' rfl
      exact hf₂

/-- What a cache-only leaf below the root is known to be. -/
def CacheReady (cfg : Config) (key : Key) (value : Value) (op : OpType) (t : LeafEntry) : Prop :=
  cfg.cacheOnly = true → t.parent ≠ none ∧ ∀ p, t.loc = .mini p →
    ∃ lo hi, CachePage cfg lo hi p ∧ Storable cfg lo hi key value op

theorem insertIntoMini_filled {p : LeafNode} (h : t.Filled) (hl : t.loc = .mini p)
    (hbase : p.isBasePage = false) (hcfg : cfg.Bounds) (hc : CacheReady cfg key value op t) :
    wp (insertIntoMini cfg sizeClasses env g p key value op) (fun _ => Warm op)
      (fun _ => Filled) t := by
  simp only [insertIntoMini, wp_bind, wp_assert, wp_unwrap, wp_setLoc]
  rintro - ⟨success, p'⟩ hins
  refine wp_ite (fun hok => ?_) fun hfull => ?_
  · obtain rfl : success = true := hok
    exact (wp_pure ()).2 (warm_mini h hbase hins)
  · obtain rfl : p' = p := (LeafNode.insert_records hins).2.2.1 (by simpa using hfull)
    have ht : { t with loc := .mini p' } = t := by rw [← hl]
    simp only [ht, wp_bind, wp_unwrap]
    intro newSize _
    cases newSize with
    | some size => exact growMini_filled h
    | none =>
      refine wp_ite (fun hcache => ?_) fun _ => ?_
      · obtain ⟨lo, hi, hp, hs⟩ := (hc hcache).2 p' hl
        exact splitMini_filled h hcfg hcache hp hs
      · exact wp_mono (mergeAndPromote_filled h hl) (fun _ _ hf => hf.elim) fun _ _ hf => hf

theorem insertMini_filled {p : LeafNode} (h : t.Filled) (hl : t.loc = .mini p)
    (hbase : p.isBasePage = false) (hcfg : cfg.Bounds) (hc : CacheReady cfg key value op t) :
    wp (insertMini cfg sizeClasses env g p key value op) (fun _ => Warm op)
      (fun _ => Filled) t := by
  simp only [insertMini, wp_bind]
  refine wp_mono (versionRuleMini_filled h hl) ?_ fun _ _ hf => hf
  rintro q t₁ ⟨h₁, hs, hl₁, hp₁⟩
  have hc₁ : CacheReady cfg key value op t₁ := by
    intro hcache
    refine ⟨hp₁ ▸ (hc hcache).1, fun q' hq' => ?_⟩
    obtain rfl : q = q' := by rw [hl₁] at hq'; injection hq'
    obtain ⟨lo, hi, hp, hstore⟩ := (hc hcache).2 p hl
    exact ⟨lo, hi, hp.congr hs, hstore⟩
  rw [wp_get]
  refine wp_ite (fun hroot => ?_) fun _ => ?_
  · rw [Bool.and_eq_true, Option.isNone_iff_eq_none] at hroot
    exact absurd hroot.2 (hc₁ hroot.1).1
  · exact insertIntoMini_filled h₁ hl₁ (hs.isBasePage.trans hbase) hcfg hc₁

theorem insert_filled (h : t.Filled) (hbase : ∀ p, t.loc = .mini p → p.isBasePage = false)
    (hcfg : cfg.Bounds) (hc : CacheReady cfg key value op t) :
    wp (insert cfg sizeClasses env key value op) (fun _ => Warm op) (fun _ => Filled) t := by
  unfold insert
  cases env.snapshotGuard with
  | none => exact (wp_fail _).2 h
  | some g =>
    simp only [wp_bind, wp_get]
    split
    · next o hl =>
      exact wp_ite (fun _ => wp_crash.2 trivial) fun _ => insertBase_filled h hl
    · next p hl =>
      refine wp_ite (fun _ => wp_crash.2 trivial) fun _ => ?_
      exact wp_mono (insertFull_filled h hl)
        (fun _ _ hf => ⟨hf.1, fun _ q hq => absurd hq (hf.2 q)⟩) fun _ _ hf => hf
    · next p hl => exact insertMini_filled h hl (hbase p hl) hcfg hc
    · exact wp_crash.2 trivial

/-! ## Transactions -/

theorem moveCachePageToTail_filled (h : t.Filled) (hot : ∀ q, t.loc = .mini q → q.Hot) :
    Ensures (moveCachePageToTail cfg env) Filled t := by
  simp only [Ensures, moveCachePageToTail, wp_bind, wp_get]
  split
  · next p hl =>
    simp only [wp_bind, wp_attempt, wp_unwrap, wp_setLoc]
    refine ⟨fun _ => ⟨fun _ => ?_, fun _ _ => h⟩, fun _ _ => h⟩
    intro moved hmoved
    have hne := LeafNode.copyInitializeTo_ne_nil hmoved (hot p hl)
    refine ⟨?_, h.sibling⟩
    split
    · exact hne
    · exact hne
  · next p hl =>
    simp only [wp_bind, wp_assert, wp_attempt, wp_setLoc]
    refine fun _ => ⟨fun _ => ⟨fun _ => ⟨?_, h.sibling⟩, fun _ _ => h⟩, fun _ _ => h⟩
    exact hl ▸ h.loc
  · exact wp_crash.2 trivial
  · exact wp_crash.2 trivial

theorem refresh_filled {env : AttemptEnv} (h : t.Filled) (hot : ∀ q, t.loc = .mini q → q.Hot) :
    Ensures (refresh cfg env) Filled t := by
  have hmove : Ensures (if env.aboutToEvict then Prog.ignore (moveCachePageToTail cfg env.move)
      else pure () : M Unit) Filled t := by
    refine wp_ite (fun _ => ?_) fun _ => (wp_pure ()).2 h
    rw [wp_ignore]
    exact moveCachePageToTail_filled h hot
  simp only [Ensures, refresh, wp_bind, wp_get]
  split
  · exact hmove
  · exact hmove
  · exact (wp_pure ()).2 h
  · exact wp_crash.2 trivial

theorem writeNull_filled {env : AttemptEnv} (h : t.Filled) :
    Ensures (writeNull cfg sizeClasses env key value op) Filled t := by
  simp only [Ensures, writeNull]
  refine wp_ite (fun _ => wp_crash.2 trivial) fun _ => ?_
  refine wp_ite (fun _ => (wp_pure ()).2 h) fun _ => ?_
  simp only [wp_bind, wp_unwrap]
  intro size _
  refine wp_takeGuard h fun g => ?_
  simp only [wp_attempt, wp_assert, wp_setLoc, wp_unwrap, wp_bind]
  refine ⟨fun _ => ?_, fun _ _ => h⟩
  rintro ⟨success, mini⟩ hins hsuccess
  obtain rfl : success = true := hsuccess
  exact (warm_mini h (by simp [LeafNode.initializeMiniPage, LeafNode.isBasePage]) hins).filled

/-- A write caches pages with records only. -/
theorem write_filled {env : AttemptEnv} (h : t.Filled)
    (hbase : ∀ p, t.loc = .mini p → p.isBasePage = false) (hcfg : cfg.Bounds)
    (hc : CacheReady cfg key value op t) (hop : op.isCache = false) :
    Ensures (write cfg sizeClasses env key value op) Filled t := by
  have hins : Ensures (do
      insert cfg sizeClasses env.leaf key value op
      refresh cfg env : M Unit) Filled t :=
    .bind (wp_mono (insert_filled h hbase hcfg hc)
      (fun _ _ hw => refresh_filled hw.filled (hw.hot hop)) fun _ _ hf => hf)
  simp only [Ensures, write, wp_bind, wp_get]
  split
  · exact writeNull_filled h
  · exact hins

/-- The leaf was split while its mini page was merged, and is now cached whole. -/
structure CachedSplit (t t' : LeafEntry) : Prop where
  before : ∃ p, t.loc = .mini p
  after : ∃ q, t'.loc = .full q
  sibling : ∃ o, t'.sibling = some (.base o)

theorem upgradeLeaf_filled (h : t.Filled) (hs : t.sibling = none) (hlive : t.LiveBuffer) :
    Ensures (upgradeLeaf cfg env) (fun t' => t'.Filled ∨ CachedSplit t t') t := by
  simp only [Ensures, upgradeLeaf, wp_bind, wp_get]
  split
  · next p hl =>
    simp only [wp_bind, wp_attempt]
    refine ⟨fun _ => ?_, fun _ _ => .inl h⟩
    refine wp_mono (tryMergeMiniPage_merging hl) ?_ fun _ _ hm => .inl (hm.filled h hl)
    rintro - t₁ ⟨hm, hbuf⟩
    have hf₁ := (hm.filled h hl).sibling
    refine wp_changeToBaseLoc fun o => ?_
    simp only [loadBasePageFromBuffer, wp_bind, wp_get, wp_unwrap, wp_pure]
    intro b hb
    refine wp_mono upgradeToFullPage_filled ?_ ?_
    · rintro loc t₂ ⟨rfl, q, rfl, hq⟩
      rw [wp_setLoc]
      obtain hnone | ⟨hsame, hlive'⟩ := hbuf
      · right
        refine ⟨⟨p, hl⟩, ⟨q, rfl⟩, ?_⟩
        obtain hsame | ⟨o', ho'⟩ := hm.sibling
        · exact absurd (hsame.trans hs) hnone
        · exact ⟨o', ho'⟩
      · left
        obtain ⟨b', hb', hne⟩ := hlive' hlive
        obtain rfl : b' = b := Option.some.inj (hb'.symm.trans hb)
        exact ⟨hq hne, hf₁⟩
    · rintro - t₂ rfl
      exact .inl ⟨trivial, hf₁⟩
  · exact (wp_pure ()).2 (.inl h)
  · next o hl =>
    rw [wp_bind]
    refine wp_loadBasePage fun b hb => ?_
    rw [wp_bind]
    refine wp_mono upgradeToFullPage_filled ?_ ?_
    · rintro loc t₂ ⟨rfl, q, rfl, hq⟩
      rw [wp_setLoc]
      obtain ⟨b', hb', m, hm, -⟩ := hlive
      obtain rfl := hb b' hb'
      exact .inl ⟨hq (List.ne_nil_of_mem hm), h.sibling⟩
    · rintro - t₂ rfl
      exact .inl (h.still ⟨rfl, rfl⟩)
  · exact wp_crash.2 trivial

theorem promoteRead_filled {env : AttemptEnv} (h : t.Filled)
    (hbase : ∀ p, t.loc = .mini p → p.isBasePage = false) (hcfg : cfg.Bounds)
    (hdisk : cfg.cacheOnly = false) (hs : t.sibling = none) (hlive : t.LiveBuffer) :
    Ensures (promoteRead cfg sizeClasses env key value)
      (fun t' => t'.Filled ∨ cfg.readRecordCache = false ∧ CachedSplit t t') t := by
  have hpromote : Ensures (if cfg.readRecordCache then
      insert cfg sizeClasses env.leaf key value .cache else upgradeLeaf cfg env.leaf : M Unit)
      (fun t' => t'.Filled ∨ cfg.readRecordCache = false ∧ CachedSplit t t') t := by
    refine wp_ite (fun _ => ?_) fun hpage =>
      (upgradeLeaf_filled h hs hlive).mono fun _ => Or.imp_right fun hc => ⟨by simpa using hpage, hc⟩
    have hc : CacheReady cfg key value .cache t := fun hcache => by rw [hdisk] at hcache; cases hcache
    exact wp_mono (insert_filled h hbase hcfg hc) (fun _ _ hw => .inl hw.filled)
      fun _ _ hf => .inl hf
  simp only [Ensures, promoteRead, wp_handle]
  refine wp_mono hpromote (fun _ _ hf => hf) fun e _ hf => ?_
  exact wp_ite (fun _ => (wp_pure ()).2 hf) fun _ => (wp_fail _).2 hf

/-- What a read leaves behind. -/
structure Reads (r : ReadResult) (t t' : LeafEntry) : Prop where
  filled : t'.Filled
  sibling : t'.sibling = t.sibling
  mini : ∀ q, t'.loc = .mini q → ∃ p, t.loc = .mini p ∧ q.isBasePage = p.isBasePage
  hot : (∃ x, r = .mini x ∨ r = .full x) → ∀ q, t'.loc = .mini q → q.Hot
  live : ∀ n, r = .base (.found n) → t'.LiveBuffer

theorem readBase_still {offset : Nat} {out : List UInt8} :
    wp (readBase offset key out)
      (fun r t' => Still t t' ∧ (∃ x, r.1 = .base x) ∧
        ∀ n, r.1 = .base (.found n) → t'.LiveBuffer) (fun _ _ => False) t := by
  simp only [readBase, wp_bind]
  refine wp_loadBasePage fun b _ => ?_
  simp only [wp_unwrap, wp_modify, wp_pure]
  rintro ⟨r, out', p⟩ hread
  refine ⟨⟨rfl, rfl⟩, ⟨r, rfl⟩, ?_⟩
  rintro n ⟨⟩
  exact ⟨_, rfl, (LeafNode.readByKeyInner_records hread).2.2.2 ⟨n, rfl⟩⟩

theorem read_filled {out : List UInt8} (h : t.Filled) :
    wp (read cfg key out) (fun r => Reads r.1 t) (fun _ _ => False) t := by
  have hbase : ∀ {t₁ : LeafEntry} {offset : Nat} {out : List UInt8}, t₁.Filled →
      t₁.sibling = t.sibling →
      (∀ q, t₁.loc = .mini q → ∃ p, t.loc = .mini p ∧ q.isBasePage = p.isBasePage) →
      wp (readBase offset key out) (fun r => Reads r.1 t) (fun _ _ => False) t₁ := by
    intro t₁ offset out h₁ hs₁ hm₁
    refine wp_mono readBase_still ?_ fun _ _ hf => hf
    rintro ⟨r, out'⟩ t₂ ⟨hstill, ⟨x, rfl⟩, hlive⟩
    refine ⟨h₁.still hstill, hstill.sibling.trans hs₁, by rw [hstill.loc]; exact hm₁, ?_, hlive⟩
    rintro ⟨y, hy | hy⟩ <;> cases hy
  simp only [read, wp_bind, wp_get]
  split
  · next o hl => exact hbase h rfl fun q hq => ⟨q, hq, rfl⟩
  · next p hl =>
    simp only [wp_bind, wp_unwrap, wp_setLoc, wp_pure]
    rintro ⟨r, out', p'⟩ hread
    have hp : p.metas ≠ [] := by have := h.loc; rwa [hl] at this
    have hne : p'.metas ≠ [] := by
      rw [← List.length_pos_iff] at hp ⊢
      rwa [(LeafNode.readByKeyInner_records hread).1]
    exact ⟨⟨hne, h.sibling⟩, rfl, by rintro q ⟨⟩, by rintro - q ⟨⟩, by rintro n ⟨⟩⟩
  · next p hl =>
    simp only [wp_bind, wp_unwrap, wp_setLoc]
    rintro ⟨r, out', p'⟩ hread
    obtain ⟨hlen, hbasePage, hhot, -⟩ := LeafNode.readByKeyInner_records hread
    have hp : p.metas ≠ [] := by have := h.loc; rwa [hl] at this
    have hne : p'.metas ≠ [] := by
      rw [← List.length_pos_iff] at hp ⊢
      rwa [hlen]
    have hf₁ : Filled { t with loc := .mini p' } := ⟨hne, h.sibling⟩
    have hm₁ : ∀ q, ({ t with loc := .mini p' } : LeafEntry).loc = .mini q →
        ∃ p, t.loc = .mini p ∧ q.isBasePage = p.isBasePage := by
      rintro q ⟨⟩
      exact ⟨p, hl, hbasePage⟩
    have hhit : r ≠ .notFound → Reads (.mini r) t { t with loc := .mini p' } := by
      intro hr
      refine ⟨hf₁, rfl, hm₁, ?_, by rintro n ⟨⟩⟩
      rintro - q ⟨⟩
      exact hhot hr
    cases r with
    | found n => exact (wp_pure _).2 (hhit (by simp))
    | deleted => exact (wp_pure _).2 (hhit (by simp))
    | notFound =>
      refine wp_ite (fun _ => (wp_pure _).2 ⟨hf₁, rfl, hm₁, ?_, by rintro n ⟨⟩⟩) fun _ => ?_
      · rintro ⟨x, hx | hx⟩ <;> cases hx
      · simp only [wp_bind, wp_unwrap]
        exact fun o _ => hbase hf₁ rfl hm₁
  · next hl =>
    refine (wp_pure _).2 ⟨h, rfl, fun q hq => ⟨q, hq, rfl⟩, ?_, by rintro n ⟨⟩⟩
    rintro ⟨x, hx | hx⟩ <;> cases hx

/-- Where a read may cache a page without records. -/
structure SplitRead (cfg : Config) (t t' : LeafEntry) : Prop where
  disk : cfg.cacheOnly = false
  wholePages : cfg.readRecordCache = false
  split : CachedSplit t t'

/-- A read caches pages with records only, unless it splits the leaf. -/
theorem readRecord_filled {env : AttemptEnv} {out : List UInt8} (h : t.Filled)
    (hbase : ∀ p, t.loc = .mini p → p.isBasePage = false) (hcfg : cfg.Bounds)
    (hs : t.sibling = none) :
    Ensures (readRecord cfg sizeClasses env key out)
      (fun t' => t'.Filled ∨ SplitRead cfg t t') t := by
  refine .bind (wp_mono (read_filled h) ?_ fun _ _ hf => hf.elim)
  rintro ⟨r, out'⟩ t₁ h₁
  have hrefresh : ∀ x, (∃ x, r = .mini x ∨ r = .full x) → Ensures (do
      if env.leafUpgrade then refresh cfg env
      pure (x, out') : M (LeafNode.LeafReadResult × List UInt8))
      (fun t' => t'.Filled ∨ SplitRead cfg t t') t₁ := by
    intro x hr
    simp only [Ensures]
    refine wp_ite (fun _ => ?_) fun _ => (wp_pure _).2 (.inl h₁.filled)
    rw [wp_bind]
    exact wp_mono (refresh_filled h₁.filled (h₁.hot hr))
      (fun _ _ hf => (wp_pure _).2 (.inl hf)) fun _ _ hf => .inl hf
  cases r with
  | mini x => exact hrefresh x ⟨x, .inl rfl⟩
  | full x => exact hrefresh x ⟨x, .inr rfl⟩
  | none => exact (wp_pure _).2 (.inl h₁.filled)
  | base x =>
    refine wp_ite (fun _ => wp_crash.2 trivial) fun hdisk => ?_
    have hdisk : cfg.cacheOnly = false := by simpa using hdisk
    simp only [wp_bind, wp_get]
    cases x with
    | found n =>
      refine wp_ite (fun _ => ?_) fun _ => (wp_pure _).2 (.inl h₁.filled)
      have hbase₁ : ∀ q, t₁.loc = .mini q → q.isBasePage = false := by
        intro q hq
        obtain ⟨p, hp, heq⟩ := h₁.mini q hq
        exact heq.trans (hbase p hp)
      have hend : ∀ {t' : LeafEntry},
          t'.Filled ∨ cfg.readRecordCache = false ∧ CachedSplit t₁ t' →
          t'.Filled ∨ SplitRead cfg t t' := by
        rintro t' (hf | ⟨hpage, ⟨q, hq⟩, hfull, hsib⟩)
        · exact .inl hf
        · obtain ⟨p, hp, -⟩ := h₁.mini q hq
          exact .inr ⟨hdisk, hpage, ⟨p, hp⟩, hfull, hsib⟩
      rw [wp_bind]
      exact wp_mono (promoteRead_filled h₁.filled hbase₁ hcfg hdisk (h₁.sibling.trans hs)
        (h₁.live n rfl)) (fun _ _ hf => (wp_pure _).2 (hend hf)) fun _ _ hf => hend hf
    | deleted => exact (wp_pure _).2 (.inl h₁.filled)
    | notFound => exact (wp_pure _).2 (.inl h₁.filled)

theorem evict_filled (h : t.Filled) : Ensures (evict cfg env) Filled t := by
  simp only [Ensures, evict, wp_bind, wp_get]
  split
  · next p hl =>
    simp only [wp_bind, wp_assert, wp_attempt]
    refine fun _ => ⟨fun _ => ?_, fun _ _ => h⟩
    refine wp_ite (fun _ => (wp_setLoc _).2 ⟨trivial, h.sibling⟩) fun _ => ?_
    rw [wp_bind]
    refine wp_mono (tryMergeMiniPage_merging hl) (fun _ t₁ hm => ?_) fun _ _ hm => hm.filled h hl
    exact wp_changeToBaseLoc fun o => ⟨trivial, (hm.1.filled h hl).sibling⟩
  · exact mergeFullPage_filled h
  · exact (wp_fail _).2 h
  · exact (wp_fail _).2 h

theorem getSplitFlag_still : Ensures getSplitFlag (Still t) t := by
  simp only [Ensures, getSplitFlag, wp_bind, wp_get]
  split
  · rw [wp_bind]
    exact wp_loadBasePage fun b _ => (wp_pure _).2 ⟨rfl, rfl⟩
  · exact (wp_pure _).2 ⟨rfl, rfl⟩
  · exact (wp_pure _).2 ⟨rfl, rfl⟩
  · exact (wp_pure _).2 ⟨rfl, rfl⟩

/-- The halves of a disk-backed root leaf are not cached. -/
theorem splitRootLeaf_filled {env : AttemptEnv} (h : t.Filled) (hdisk : cfg.cacheOnly = false) :
    Ensures (splitRootLeaf cfg env g) Filled t := by
  simp only [Ensures, splitRootLeaf, wp_bind, wp_get, hdisk, Bool.false_eq_true,
    if_false]
  refine wp_mono versionRuleBase_still (fun _ t₁ h₁ => ?_) fun _ _ h₁ => h.still h₁
  refine wp_loadBasePageMut fun p _ => ?_
  simp only [wp_unwrap, wp_writeBase, wp_modify, wp_pure]
  rintro ⟨k, left, sibling⟩ -
  refine ⟨h₁.loc ▸ h.loc, ?_⟩
  rintro l ⟨⟩
  trivial

theorem getScanPosition_still : Ensures (getScanPosition cfg key) (Still t) t := by
  simp only [Ensures, getScanPosition, wp_bind, wp_get]
  split
  · rw [wp_bind]
    refine wp_loadBasePage fun b _ => ?_
    simp only [wp_bind, wp_unwrap, wp_pure]
    exact fun _ _ => ⟨rfl, rfl⟩
  · simp only [wp_bind, wp_unwrap, wp_pure]
    exact fun _ _ => ⟨rfl, rfl⟩
  · refine wp_ite (fun _ => ?_) fun _ => (wp_pure _).2 ⟨rfl, rfl⟩
    simp only [wp_bind, wp_unwrap, wp_pure]
    exact fun _ _ => ⟨rfl, rfl⟩
  · simp only [wp_bind, wp_assert, wp_pure]
    exact fun _ => ⟨rfl, rfl⟩

theorem prepareMerge_filled {env : AttemptEnv} (h : t.Filled) :
    Ensures (prepareMerge cfg env) Filled t := by
  simp only [Ensures, prepareMerge, wp_bind, wp_get]
  split
  · exact (wp_pure _).2 h
  · next p hl =>
    simp only [wp_bind, wp_attempt]
    refine ⟨fun _ => ?_, fun _ _ => h⟩
    refine wp_mono (tryMergeMiniPage_merging hl) (fun r t₁ hm => ?_) fun _ _ hm => hm.filled h hl
    refine wp_changeToBaseLoc fun o => ?_
    have hf : Filled { t₁ with loc := .base o } := ⟨trivial, (hm.1.filled h hl).sibling⟩
    cases r with
    | noSplit => exact (wp_pure _).2 hf
    | mergeAndSplit => exact (wp_fail _).2 hf
  · exact wp_crash.2 trivial
  · exact wp_crash.2 trivial

theorem prepareScan_filled {env : AttemptEnv} (h : t.Filled) :
    Ensures (prepareScan cfg env key) Filled t := by
  refine .bind (wp_mono getScanPosition_still (fun pos t₁ h₁ => ?_) fun _ _ h₁ => h.still h₁)
  have hf₁ := h.still h₁
  have hmerge : Ensures (upgradeAndMerge cfg env) Filled t₁ := by
    simp only [Ensures, upgradeAndMerge, wp_bind, wp_get]
    refine wp_ite (fun _ => ?_) fun _ => (wp_fail _).2 hf₁
    simp only [wp_bind, wp_assert]
    exact fun _ => prepareMerge_filled hf₁
  simp only [Ensures, wp_bind, wp_get]
  split
  · exact wp_ite (fun _ => (wp_pure _).2 hf₁) fun _ => hmerge
  · exact (wp_pure _).2 hf₁
  · exact hmerge

theorem finishScan_filled {env : AttemptEnv} (h : t.Filled) (plan : ScanPlan) :
    Ensures (finishScan cfg env key plan) Filled t := by
  cases plan with
  | ready pos => exact (wp_pure _).2 h
  | scanBase =>
    simp only [Ensures, finishScan, loadBasePageFromBuffer, wp_bind, wp_get,
      wp_unwrap, wp_pure]
    exact fun _ _ _ _ => h
  | promoteBase offset =>
    simp only [Ensures, finishScan, loadBasePageFromBuffer, wp_bind, wp_get,
      wp_unwrap, wp_pure]
    intro b _ pos _
    refine wp_ite (fun hne => ?_) fun _ => (wp_pure _).2 h
    rw [wp_bind]
    refine wp_mono upgradeToFullPage_filled ?_ ?_
    · rintro loc t₁ ⟨rfl, q, rfl, hq⟩
      simp only [wp_bind, wp_setLoc, wp_pure]
      exact ⟨hq hne, h.sibling⟩
    · rintro - t₁ rfl
      exact h

/-- A scan caches pages with records only. -/
theorem moveCursor_filled {env : AttemptEnv} (h : t.Filled) :
    Ensures (moveCursor cfg env key) Filled t := by
  refine .bind (wp_mono (prepareScan_filled h) (fun plan t₁ h₁ => ?_) fun _ _ h₁ => h₁)
  refine .bind (wp_mono (finishScan_filled h₁ plan) (fun pos t₂ h₂ => ?_) fun _ _ h₂ => h₂)
  simp only [Ensures, wp_bind, wp_get, wp_pure]
  exact h₂

end

end LeafEntry

end BfTree
