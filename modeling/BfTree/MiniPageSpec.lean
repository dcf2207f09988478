import BfTree.LeafInv
import BfTree.Lib.Total

/-!
# Operations on a locked leaf keep its records

What every operation of a disk-backed leaf does to the map that the leaf stores.
Internal moves between the layers keep the map, an insert that succeeds writes one
key, and a merge may hand the upper part of the key range to a new leaf.
-/

namespace BfTree

open Lib LeafNode

@[simp] theorem wp_attempt {σ : Type} {t : σ} {Q : Unit → σ → Prop} {E : TreeError → σ → Prop}
    {o : Option TreeError} :
    wp (attempt o) Q E t ↔ (o = none → Q () t) ∧ ∀ e, o = some e → E e t := by
  cases o with
  | none => simp [attempt]
  | some e => simp [attempt]

@[simp] theorem twp_attempt {σ : Type} {t : σ} {Q : Unit → σ → Prop} {E : TreeError → σ → Prop}
    {o : Option TreeError} :
    twp (attempt o) Q E t ↔ (o = none → Q () t) ∧ ∀ e, o = some e → E e t := by
  cases o with
  | none => simp [attempt]
  | some e => simp [attempt]

namespace LeafEntry

/-- The base page as the transaction sees it. -/
def basePage? (t : LeafEntry) (offset : Nat) : Option LeafNode :=
  match t.tmpBuffer with
  | some b => some b.page
  | none => t.vfs offset

theorem basePage?_of_some {t : LeafEntry} {b : TmpBuffer} (h : t.tmpBuffer = some b) (offset : Nat) :
    t.basePage? offset = some b.page := by rw [basePage?, h]

theorem basePage?_of_none {t : LeafEntry} (h : t.tmpBuffer = none) (offset : Nat) :
    t.basePage? offset = t.vfs offset := by rw [basePage?, h]

/-- A leaf with base page `base` during a transaction. A clean buffer shows the
records on disk. -/
structure Over (lo hi : Key) (offset : Nat) (base : LeafNode) (t : LeafEntry) : Prop where
  base_eq : t.basePage? offset = some base
  onDisk : ∀ p, t.tmpBuffer = some ⟨false, p⟩ →
    ∃ disk, t.vfs offset = some disk ∧ SameRecords disk p
  basePage : BasePage lo hi base
  caches : Caches lo hi offset base t.loc

/-- A leaf that stores the map `c`. -/
def Stores (lo hi : Key) (offset : Nat) (c : Key → Option Value) (t : LeafEntry) : Prop :=
  ∃ base, Over lo hi offset base t ∧ ∀ k, content base t.loc k = c k

/-- Up to its version and its split flag the parent is the same. -/
def SameParent : Option Parent → Option Parent → Prop
  | none, none => True
  | some p, some p' => p'.ptr = p.ptr ∧ p'.node =
      { p.node with splitFlag := p'.node.splitFlag, snapshotVersion := p'.node.snapshotVersion }
  | _, _ => False

theorem SameParent.refl (p : Option Parent) : SameParent p p := by
  cases p <;> simp [SameParent]

theorem SameParent.trans {p q r : Option Parent} (h : SameParent p q) (h' : SameParent q r) :
    SameParent p r := by
  cases p <;> cases q <;> cases r <;> simp only [SameParent] at h h' ⊢
  obtain ⟨h₁, h₂⟩ := h
  obtain ⟨h₁', h₂'⟩ := h'
  exact ⟨h₁'.trans h₁, by rw [h₂', h₂]⟩

/-- Nothing outside the leaf changes, apart from captures and the parent's flags. -/
structure Kept (t t' : LeafEntry) : Prop where
  pid : t'.pid = t.pid
  vfs : t'.vfs = t.vfs
  parent : SameParent t.parent t'.parent
  nextPid : t'.nextPid = t.nextPid
  nextOffset : t'.nextOffset = t.nextOffset
  sibling : t'.sibling = t.sibling
  inserted : t'.inserted = t.inserted

theorem Kept.refl (t : LeafEntry) : Kept t t :=
  ⟨rfl, rfl, .refl _, rfl, rfl, rfl, rfl⟩

theorem Kept.trans {t u w : LeafEntry} (h : Kept t u) (h' : Kept u w) : Kept t w :=
  ⟨h'.pid.trans h.pid, h'.vfs.trans h.vfs, h.parent.trans h'.parent, h'.nextPid.trans h.nextPid,
    h'.nextOffset.trans h.nextOffset, h'.sibling.trans h.sibling, h'.inserted.trans h.inserted⟩

/-- Changes of the leaf itself and of the captures. -/
theorem Kept.of_local (t : LeafEntry) (loc : PageLocation) (b : Option TmpBuffer)
    (cs : List (Nat × Capture)) :
    Kept t { t with loc := loc, tmpBuffer := b, captures := cs } :=
  ⟨rfl, rfl, .refl _, rfl, rfl, rfl, rfl⟩

/-! ## Rules for the primitive steps -/

section Rules

variable {α : Type} {E : TreeError → LeafEntry → Prop} {Q : Unit → LeafEntry → Prop} {t : LeafEntry}

@[simp] theorem wp_setLoc (loc : PageLocation) :
    wp (setLoc loc) Q E t ↔ Q () { t with loc := loc } :=
  wp_modify _

@[simp] theorem wp_setBuffer (b : TmpBuffer) :
    wp (setBuffer b) Q E t ↔ Q () { t with tmpBuffer := some b } :=
  wp_modify _

@[simp] theorem wp_writeBase (p : LeafNode) :
    wp (writeBase p) Q E t ↔ Q () { t with tmpBuffer := some ⟨true, p⟩ } :=
  wp_modify _

@[simp] theorem wp_setParent (p : Parent) :
    wp (setParent p) Q E t ↔ Q () { t with parent := some p } :=
  wp_modify _

@[simp] theorem wp_insertParent (p : Parent) (key : Key) (child : PageID) :
    wp (insertParent p key child) Q E t ↔ Q () { t with
      parent := some { p with node := (p.node.insert key child).2 }
      inserted := t.inserted ++ [(p.node, key)] } :=
  wp_modify _

@[simp] theorem wp_record (slot : Nat) (c : Capture) :
    wp (record slot c) Q E t ↔ Q () { t with captures := t.captures ++ [(slot, c)] } :=
  wp_modify _

theorem wp_recordRoot {slot : Nat} {pid : PageID}
    (h : Q () { t with captures := t.captures ++ [(slot, .rootPage pid)] }) :
    wp (recordRoot slot pid) Q E t := by
  simp only [recordRoot, wp_bind, wp_get, wp_assert, wp_record]
  exact fun _ => h

theorem wp_recordInner {slot : Nat} {p : Parent}
    (h : ∀ cs, Q () { t with captures := cs }) : wp (recordInner slot p) Q E t := by
  simp only [recordInner, wp_bind, wp_record]
  split
  · exact wp_recordRoot (h _)
  · exact (wp_pure ()).2 (h _)

theorem wp_versionRule {g : SnapshotGuard} {ver : Nat} {same : α} {lift : M α} {save : Nat → M α}
    {Q : α → LeafEntry → Prop} (hsame : Q same t) (hfail : E .needRestart t)
    (hlift : wp lift Q E t) (hsave : ∀ slot, wp (save slot) Q E t) :
    wp (versionRule g ver same lift save) Q E t := by
  unfold versionRule
  split
  · exact (wp_pure same).2 hsame
  · split <;> split <;> first
      | exact (wp_pure same).2 hsame
      | exact (wp_fail _).2 hfail
      | exact hlift
      | exact hsave _

/-- Nothing else than a newer page makes a version rule fail. -/
theorem wp_versionRule_refuses {g : SnapshotGuard} {ver : Nat} {same : α} {lift : M α}
    {save : Nat → M α} (hlift : wp lift (fun _ _ => True) (fun _ _ => False) t)
    (hsave : ∀ slot, wp (save slot) (fun _ _ => True) (fun _ _ => False) t) :
    wp (versionRule g ver same lift save) (fun _ _ => g.refuses ver = false)
      (fun _ _ => g.refuses ver = true) t := by
  unfold versionRule SnapshotGuard.refuses SnapshotGuard.isProtected
  cases g.slot with
  | none => exact (wp_pure same).2 rfl
  | some slot =>
    cases g.phase with
    | rest =>
      refine wp_ite (fun _ => ?_) (fun _ => (wp_pure same).2 rfl)
      exact wp_mono hlift (fun _ _ _ => rfl) (fun _ _ hf => hf.elim)
    | prepare =>
      refine wp_ite (fun hlt => (wp_fail _).2 ?_) (fun hge => (wp_pure same).2 ?_)
      · simpa using hlt
      · simpa using hge
    | inProgress | sweep =>
      refine wp_ite (fun _ => ?_) (fun _ => (wp_pure same).2 rfl)
      exact wp_mono (hsave slot) (fun _ _ _ => rfl) (fun _ _ hf => hf.elim)

end Rules

/-! ## The base page -/

section

variable {lo hi : Key} {offset : Nat} {base base' mini p : LeafNode} {t : LeafEntry}

theorem Over.offset_eq (h : Over lo hi offset base t) : t.offset = some offset :=
  h.caches.offset_eq

/-- Writing a base page through the buffer. -/
theorem Over.of_dirty (hb : BasePage lo hi base) (hc : Caches lo hi offset base t.loc)
    (hbuf : t.tmpBuffer = some ⟨true, base⟩) : Over lo hi offset base t where
  base_eq := basePage?_of_some hbuf offset
  onDisk p hp := by rw [hbuf] at hp; cases hp
  basePage := hb
  caches := hc

/-- Moving the leaf over the same base page. -/
theorem Over.setLoc (h : Over lo hi offset base t) {loc : PageLocation}
    (hc : Caches lo hi offset base loc) : Over lo hi offset base { t with loc := loc } :=
  { h with caches := hc }

theorem Over.setCaptures (h : Over lo hi offset base t) (cs : List (Nat × Capture)) :
    Over lo hi offset base { t with captures := cs } :=
  { h with }

theorem Over.setParent (h : Over lo hi offset base t) (p : Option Parent) :
    Over lo hi offset base { t with parent := p } :=
  { h with }

theorem loadBasePageMut_spec (h : Over lo hi offset base t) :
    wp loadBasePageMut
      (fun p t' => p = base ∧ t' = { t with tmpBuffer := some ⟨true, base⟩ } ∧
        Over lo hi offset base t')
      (fun _ _ => False) t := by
  have hover : Over lo hi offset base { t with tmpBuffer := some ⟨true, base⟩ } :=
    .of_dirty h.basePage h.caches rfl
  have hbase := h.base_eq
  simp only [loadBasePageMut, wp_bind, wp_get]
  cases hb : t.tmpBuffer with
  | some b =>
    rw [basePage?_of_some hb, Option.some.injEq] at hbase
    simp only [wp_bind, wp_setBuffer, wp_pure, hbase]
    exact ⟨trivial, trivial, hover⟩
  | none =>
    rw [basePage?_of_none hb] at hbase
    simp only [wp_bind, wp_unwrap, h.offset_eq]
    rintro o ⟨⟩ p hp
    rw [hbase] at hp
    cases hp
    simp only [wp_setBuffer, wp_pure]
    exact ⟨trivial, trivial, hover⟩

theorem loadBasePage_spec (h : Over lo hi offset base t) :
    wp (loadBasePage offset)
      (fun p t' => p = base ∧ Over lo hi offset base t' ∧ t'.tmpBuffer ≠ none ∧
        ∃ b, t' = { t with tmpBuffer := b })
      (fun _ _ => False) t := by
  have hbase := h.base_eq
  simp only [loadBasePage, wp_bind, wp_get]
  cases hb : t.tmpBuffer with
  | some b =>
    rw [basePage?_of_some hb, Option.some.injEq] at hbase
    simp only [wp_pure]
    exact ⟨hbase, h, by simp [hb], t.tmpBuffer, rfl⟩
  | none =>
    rw [basePage?_of_none hb] at hbase
    simp only [wp_bind, wp_unwrap]
    intro p hp
    rw [hbase] at hp
    cases hp
    simp only [wp_setBuffer, wp_pure]
    refine ⟨trivial, ⟨rfl, ?_, h.basePage, h.caches⟩, by simp, _, rfl⟩
    intro p hp
    cases hp
    exact ⟨base, hbase, .refl base⟩

theorem versionRuleBase_spec (h : Over lo hi offset base t) (g : SnapshotGuard) :
    Ensures (versionRuleBase g)
      (fun t' => ∃ base', SameRecords base base' ∧ Over lo hi offset base' t' ∧ t'.loc = t.loc ∧
        Kept t t') t := by
  have hlift : ∀ cs, Over lo hi offset (base.setSnapshotVersion g.version false)
      { t with tmpBuffer := some ⟨true, base.setSnapshotVersion g.version false⟩, captures := cs } :=
    fun cs => .of_dirty (h.basePage.congr (.setSnapshotVersion _ _ _))
      (h.caches.congr fun _ => rfl) rfl
  have hkept : ∀ cs b, Kept t { t with tmpBuffer := b, captures := cs } :=
    fun cs b => .of_local t t.loc b cs
  have hsame : SameRecords base (base.setSnapshotVersion g.version false) :=
    .setSnapshotVersion _ _ _
  simp only [Ensures, versionRuleBase]
  refine wp_ite (fun _ => ?_) (fun _ => (wp_pure ()).2 ⟨base, .refl _, h, rfl, .refl t⟩)
  rw [wp_bind]
  refine wp_mono (loadBasePageMut_spec h) ?_ (fun _ _ hf => hf.elim)
  rintro p t' ⟨rfl, rfl, h'⟩
  simp only [wp_bind, wp_get]
  refine wp_versionRule ⟨p, .refl _, h', rfl, hkept _ _⟩ ⟨p, .refl _, h', rfl, hkept _ _⟩ ?_ ?_
  · rw [wp_writeBase]
    exact ⟨_, hsame, hlift _, rfl, hkept _ _⟩
  · intro slot
    simp only [wp_bind, wp_record, wp_writeBase]
    refine wp_ite (fun _ => ?_) (fun _ => ?_)
    · exact wp_recordRoot ⟨_, hsame, hlift _, rfl, hkept _ _⟩
    · exact (wp_pure ()).2 ⟨_, hsame, hlift _, rfl, hkept _ _⟩

/-! ## Full pages -/

/-- The map is kept, and nothing outside changes. -/
structure Keeps (lo hi : Key) (offset : Nat) (c : Key → Option Value) (t t' : LeafEntry) : Prop where
  stores : Stores lo hi offset c t'
  kept : Kept t t'

theorem Keeps.of_loc (h : Over lo hi offset base t) {loc : PageLocation} {c : Key → Option Value}
    (hc : Caches lo hi offset base loc) (he : ∀ k, content base loc k = c k) :
    Keeps lo hi offset c t { t with loc := loc } :=
  ⟨⟨base, h.setLoc hc, he⟩, .of_local t loc t.tmpBuffer t.captures⟩

theorem Keeps.trans {c : Key → Option Value} {u w : LeafEntry} (h : Kept t u)
    (h' : Keeps lo hi offset c u w) : Keeps lo hi offset c t w :=
  ⟨h'.stores, h.trans h'.kept⟩

theorem Over.caches_full (h : Over lo hi offset base t) (hl : t.loc = .full p) :
    FullPage lo hi offset base p := by
  have hc := h.caches
  rwa [hl] at hc

theorem Over.caches_mini (h : Over lo hi offset base t) (hl : t.loc = .mini p) :
    MiniPage lo hi offset base p := by
  have hc := h.caches
  rwa [hl] at hc

theorem changeToBaseLoc_spec {Q : Unit → LeafEntry → Prop} {E : TreeError → LeafEntry → Prop}
    (hl : t.loc = .mini p ∨ t.loc = .full p) (hn : p.nextLevel = some offset)
    (hQ : Q () { t with loc := .base offset }) : wp changeToBaseLoc Q E t := by
  obtain hl | hl := hl <;>
  · simp only [changeToBaseLoc, wp_bind, wp_get, hl, wp_unwrap, hn]
    rintro o ⟨⟩
    exact (wp_setLoc _).2 hQ

theorem versionRuleFull_spec (h : Over lo hi offset base t) (hl : t.loc = .full p)
    (g : SnapshotGuard) :
    wp (versionRuleFull g p)
      (fun p' t' => SameRecords p p' ∧ t'.loc = .full p' ∧ Over lo hi offset base t' ∧ Kept t t')
      (fun _ t' => t' = t) t := by
  have hp := h.caches_full hl
  have hsame : SameRecords p (p.setSnapshotVersion g.version true) := .setSnapshotVersion _ _ _
  have hlift : Over lo hi offset base { t with loc := .full (p.setSnapshotVersion g.version true) } :=
    h.setLoc (hp.congr hsame)
  simp only [versionRuleFull, wp_bind, wp_get]
  refine wp_versionRule ⟨.refl p, hl, h, .refl t⟩ rfl ?_ ?_
  · simp only [wp_bind, wp_setLoc, wp_pure]
    exact ⟨hsame, trivial, hlift, .of_local _ _ _ _⟩
  · intro slot
    simp only [wp_bind, wp_record, wp_setLoc, wp_pure]
    exact ⟨hsame, trivial, hlift.setCaptures _, .of_local _ _ _ _⟩

theorem mergeFullPage_spec (h : Over lo hi offset base t) (hl : t.loc = .full p) (cfg : Config) :
    wp (mergeFullPage cfg p)
      (fun _ t' => Keeps lo hi offset (content base t.loc) t t' ∧ t'.loc = .base offset)
      (fun _ _ => False) t := by
  have hp := h.caches_full hl
  simp only [mergeFullPage, wp_bind, wp_assert]
  intro _
  refine wp_ite (fun hclean => ?_) (fun _ => ?_)
  · simp only [Bool.and_eq_true, Bool.not_eq_true'] at hclean
    refine changeToBaseLoc_spec (.inr hl) hp.nextLevel ⟨.of_loc h rfl fun k => ?_, rfl⟩
    rw [hl, hp.content_of_clean hclean.1, content_base]
  · rw [wp_bind]
    refine changeToBaseLoc_spec (.inr hl) hp.nextLevel ?_
    simp only [wp_bind, wp_get, wp_assert, wp_writeBase]
    intro _
    obtain ⟨hb, he⟩ := hp.flush
    refine ⟨⟨⟨_, .of_dirty hb rfl rfl, fun k => ?_⟩, .of_local _ _ _ _⟩, trivial⟩
    rw [hl]
    exact he k

theorem mergeFullPageAndDealloc_spec (h : Over lo hi offset base t) (hl : t.loc = .full p)
    (cfg : Config) (env : Env) :
    Ensures (mergeFullPageAndDealloc cfg env p) (Keeps lo hi offset (content base t.loc) t) t := by
  simp only [Ensures, mergeFullPageAndDealloc, wp_bind, wp_attempt]
  refine ⟨fun _ => wp_mono (mergeFullPage_spec h hl cfg) (fun _ _ hk => hk.1)
    (fun _ _ hf => hf.elim), fun _ _ => ⟨⟨base, h, fun _ => rfl⟩, .refl t⟩⟩

theorem upgradeToFullPage_spec (h : Over lo hi offset base t) (cfg : Config) (env : Env) :
    wp (upgradeToFullPage cfg env base (some offset))
      (fun loc t' => t' = t ∧ Caches lo hi offset base loc ∧
        ∀ k, content base loc k = live (base.entry k))
      (fun _ t' => t' = t) t := by
  simp only [upgradeToFullPage, wp_bind, wp_attempt, wp_assert, wp_unwrap,
    wp_pure]
  refine ⟨fun _ _ full hfull => ?_, fun _ _ => trivial⟩
  obtain ⟨hf, he⟩ := h.basePage.upgrade hfull
  exact ⟨trivial, hf, he⟩

theorem insertFull_spec (h : Over lo hi offset base t) (hl : t.loc = .full p) (cfg : Config)
    (env : Env) (g : SnapshotGuard) (key : Key) (value : Value) (op : OpType) :
    wp (insertFull cfg env g p key value op)
      (fun _ t' => InRange lo hi key → key ≠ [] → op.isDirty = true →
        Keeps lo hi offset (written (content base t.loc) key value op) t t')
      (fun _ => Keeps lo hi offset (content base t.loc) t) t := by
  simp only [insertFull, wp_bind]
  refine wp_mono (versionRuleFull_spec h hl g) ?_ ?_
  · rintro q t₁ ⟨hq, hl₁, h₁, hk₁⟩
    have hc₁ : content base t₁.loc = content base t.loc := by
      funext k
      rw [hl₁, hl, content_full, content_full, hq.entry]
    simp only [wp_unwrap]
    rintro ⟨success, q'⟩ hins
    simp only [wp_setLoc]
    cases success with
    | true =>
      rw [if_pos rfl, wp_pure]
      intro hr hne hop
      obtain ⟨hq', he⟩ := (h₁.caches_full hl₁).insert hr hne hop hins
      refine .trans hk₁ (.of_loc h₁ hq' fun k => ?_)
      rw [he k, ← hc₁, hl₁]
    | false =>
      obtain rfl := insert_refused hins
      have ht₁ : { t₁ with loc := .full q' } = t₁ := by rw [← hl₁]
      rw [ht₁, if_neg (by simp), wp_bind, ← hc₁]
      exact wp_mono (mergeFullPageAndDealloc_spec h₁ hl₁ cfg env)
        (fun _ _ hk => (wp_fail _).2 (.trans hk₁ hk)) (fun _ _ hk => .trans hk₁ hk)
  · rintro e t' rfl
    exact ⟨⟨base, h, fun _ => rfl⟩, .refl _⟩

/-! ## Merging a mini page -/

theorem liftParent_spec (h : Over lo hi offset base t) {p : Parent} (hp : t.parent = some p)
    (g : SnapshotGuard) (save : Option Nat) :
    wp (liftParent g p save)
      (fun p' t' => t'.parent = some p' ∧ t'.loc = t.loc ∧ Over lo hi offset base t' ∧ Kept t t')
      (fun _ _ => False) t := by
  have hlift : ∀ cs, wp (do
      setParent { p with node := { p.node with snapshotVersion := g.version } }
      pure { p with node := { p.node with snapshotVersion := g.version } })
      (fun p' t' => t'.parent = some p' ∧ t'.loc = t.loc ∧ Over lo hi offset base t' ∧ Kept t t')
      (fun _ _ => False) { t with captures := cs } := by
    intro cs
    simp only [wp_bind, wp_setParent, wp_pure]
    refine ⟨trivial, trivial, { h with }, rfl, rfl, ?_, rfl, rfl, rfl, rfl⟩
    rw [hp]
    exact ⟨rfl, rfl⟩
  refine wp_ite (fun _ => ?_) (fun _ => (wp_pure p).2 ⟨hp, rfl, h, .refl t⟩)
  cases save with
  | none => exact hlift t.captures
  | some slot =>
    rw [wp_bind]
    exact wp_recordInner hlift

/-- The two pages of a splitting merge after the version rules. -/
structure Lifted (lo hi : Key) (offset : Nat) (mini base : LeafNode) (t : LeafEntry)
    (r : LeafNode × LeafNode) (t' : LeafEntry) : Prop where
  mini : SameRecords mini r.1
  base : SameRecords base r.2
  loc : t'.loc = .mini r.1
  parent : t'.parent = t.parent
  leaf : Over lo hi offset r.2 t'
  kept : Kept t t'

theorem liftMini_spec (h : Over lo hi offset base t) (hl : t.loc = .mini mini) (g : SnapshotGuard)
    (save : Option Nat) :
    wp (liftMini g mini base save) (Lifted lo hi offset mini base t) (fun _ _ => False) t := by
  have hm := h.caches_mini hl
  have hsame : SameRecords mini (mini.setSnapshotVersion g.version true) := .setSnapshotVersion _ _ _
  have hbase : SameRecords base (base.setSnapshotVersion g.version false) :=
    .setSnapshotVersion _ _ _
  simp only [liftMini, wp_bind, wp_get]
  refine wp_ite (fun _ => ?_) (fun _ => ?_)
  · cases save with
    | none =>
      simp only [wp_bind, wp_setLoc, wp_pure]
      exact ⟨hsame, .refl base, rfl, rfl, h.setLoc (hm.congr hsame), .of_local _ _ _ _⟩
    | some slot =>
      simp only [wp_bind, wp_record, wp_setLoc, wp_writeBase, wp_pure]
      have hc : Caches lo hi offset base (.mini (mini.setSnapshotVersion g.version true)) :=
        hm.congr hsame
      exact ⟨hsame, hbase, rfl, rfl, .of_dirty (h.basePage.congr hbase) (hc.congr fun _ => rfl) rfl,
        .of_local _ _ _ _⟩
  · rw [wp_pure]
    exact ⟨.refl mini, .refl base, hl, rfl, h, .refl t⟩

theorem versionRuleMerge_spec (h : Over lo hi offset base t) (hl : t.loc = .mini mini)
    {p : Parent} (hp : t.parent = some p) (g : SnapshotGuard) :
    wp (versionRuleMerge g p mini base)
      (fun r t' => t'.parent = some r.1 ∧ ∃ u, Kept t u ∧ Lifted lo hi offset mini base u r.2 t')
      (fun _ t' => t' = t) t := by
  have hlift : ∀ save, wp (do
      let p ← liftParent g p save
      let pages ← liftMini g mini base save
      pure (p, pages))
      (fun r t' => t'.parent = some r.1 ∧ ∃ u, Kept t u ∧ Lifted lo hi offset mini base u r.2 t')
      (fun _ t' => t' = t) t := by
    intro save
    rw [wp_bind]
    refine wp_mono (liftParent_spec h hp g save) ?_ (fun _ _ hf => hf.elim)
    rintro p' u ⟨hp', hul, hu, hk⟩
    rw [wp_bind]
    refine wp_mono (liftMini_spec hu (hul.trans hl) g save) ?_ (fun _ _ hf => hf.elim)
    intro pages t' hpages
    rw [wp_pure]
    exact ⟨hpages.parent.trans hp', u, hk, hpages⟩
  have hsame : (t.parent = some p ∧ ∃ u, Kept t u ∧ Lifted lo hi offset mini base u (mini, base) t) :=
    ⟨hp, t, .refl t, .refl mini, .refl base, hl, rfl, h, .refl t⟩
  unfold versionRuleMerge
  split
  · exact (wp_pure _).2 hsame
  · split
    · exact hlift none
    · exact wp_ite (fun _ => (wp_fail _).2 rfl) (fun _ => (wp_pure _).2 hsame)
    · exact hlift _
    · exact hlift _

/-- The parent gets a separator and the new leaf. -/
def Gains (t t' : LeafEntry) (key : Key) : Prop :=
  ∃ q, SameParent t.parent (some q) ∧ q.node.haveSpaceFor key = true ∧
    t'.parent = some { q with node := (q.node.insert key (.id t.nextPid)).2 } ∧
    t'.inserted = t.inserted ++ [(q.node, key)]

/-- The upper part of the key range goes to a new leaf. -/
structure SplitOff (lo hi : Key) (offset : Nat) (c : Key → Option Value) (t t' : LeafEntry)
    (key : Key) (sibling : LeafNode) : Prop where
  lo_lt : lo < key
  lt_hi : hi = [] ∨ key < hi
  left : Stores lo key offset (fun k => if k < key then c k else none) t'
  right : BasePage key hi sibling
  right_live : ∀ k, live (sibling.entry k) = if k < key then none else c k
  vfs : t'.vfs = Function.update t.vfs t.nextOffset (some sibling)
  sibling_eq : t'.sibling = some (.base t.nextOffset)
  pid : t'.pid = t.pid

/-- What an operation may do to a leaf that stores `c`. -/
inductive Outcome (lo hi : Key) (offset : Nat) (c : Key → Option Value) (t t' : LeafEntry) : Prop
  | keeps (h : Keeps lo hi offset c t t')
  | splits (key : Key) (sibling : LeafNode) (h : SplitOff lo hi offset c t t' key sibling)
      (hp : Gains t t' key)

theorem Outcome.of_kept {c : Key → Option Value} {u t' : LeafEntry} (hk : Kept t u)
    (h : Outcome lo hi offset c u t') : Outcome lo hi offset c t t' := by
  cases h with
  | keeps h => exact .keeps (.trans hk h)
  | splits key sibling h hp =>
    obtain ⟨q, hq, hspace, hpar, hins⟩ := hp
    refine .splits key sibling ⟨h.lo_lt, h.lt_hi, h.left, h.right, h.right_live, ?_, ?_,
      h.pid.trans hk.pid⟩ ⟨q, hk.parent.trans hq, hspace, ?_, hins.trans (by rw [hk.inserted])⟩
    · rw [h.vfs, hk.vfs, hk.nextOffset]
    · rw [h.sibling_eq, hk.nextOffset]
    · rw [hpar, hk.nextPid]

/-- A merge is complete once the leaf is moved to its base page. -/
structure Merged (lo hi : Key) (offset : Nat) (c : Key → Option Value) (t : LeafEntry)
    (r : MergeResult) (t' : LeafEntry) : Prop where
  loc : ∃ p, t'.loc = .mini p ∧ p.nextLevel = some offset
  outcome : Outcome lo hi offset c t { t' with loc := .base offset }
  noSplit : r = .noSplit → Keeps lo hi offset c t { t' with loc := .base offset }

theorem mergeAndSplit_spec (h : Over lo hi offset base t) (hl : t.loc = .mini mini) (cfg : Config)
    (env : Env) :
    wp (mergeAndSplit cfg env mini base)
      (Merged lo hi offset (content base (.mini mini)) t)
      (fun _ => Keeps lo hi offset (content base (.mini mini)) t) t := by
  have hsame : Keeps lo hi offset (content base (.mini mini)) t t :=
    ⟨⟨base, h, fun _ => by rw [hl]⟩, .refl t⟩
  unfold mergeAndSplit
  cases env.mergeGuard with
  | none =>
    rw [wp_bind, wp_fail]
    exact hsame
  | some g =>
    simp only [wp_bind, wp_pure, wp_attempt, wp_get, wp_unwrap, wp_writeBase]
    refine ⟨fun _ p hp => ?_, fun _ _ => hsame⟩
    rintro ⟨key, base₁⟩ hkey
    have hm := h.caches_mini hl
    obtain ⟨hb₁, hm₁, hc₁, hlo, hhi⟩ := h.basePage.mergeSplit hm
      (getMergeSplitKey_spec h.basePage.wf hm.wf (hm.base_covers h.basePage) hkey)
    -- the buffer now holds the marked base page
    have h₁ : Over lo hi offset base₁ { t with tmpBuffer := some ⟨true, base₁⟩ } :=
      .of_dirty hb₁ (by rw [hl]; exact hm₁) rfl
    have hk₁ : Kept t { t with tmpBuffer := some ⟨true, base₁⟩ } := .of_local _ _ _ _
    have hs₁ : Keeps lo hi offset (content base (.mini mini)) t
        { t with tmpBuffer := some ⟨true, base₁⟩ } := by
      refine ⟨⟨base₁, h₁, fun k => ?_⟩, hk₁⟩
      rw [← hc₁ k, ← hl]
    refine wp_mono (versionRuleMerge_spec h₁ hl hp g) ?_ ?_
    · rintro ⟨q, mini₂, base₂⟩ t₂ ⟨hq, u, hu, h₂⟩
      have hk₂ : Kept t t₂ := (hk₁.trans hu).trans h₂.kept
      have hm₂ : MiniPage lo hi offset base₂ mini₂ := h₂.leaf.caches_mini h₂.loc
      have hc₂ : ∀ k, content base₂ (.mini mini₂) k = content base (.mini mini) k := by
        intro k
        rw [← hc₁ k, content_mini, content_mini, h₂.mini.entry, h₂.base.entry]
      refine wp_ite (fun hspace => ?_) (fun _ => ?_)
      · simp only [wp_bind, wp_unwrap, wp_insertParent, wp_writeBase, wp_modify,
          wp_pure]
        rintro ⟨left, sibling⟩ hsplit ⟨left', sibling'⟩ hdist
        obtain ⟨hbl, hbs, hll, hls⟩ := h₂.leaf.basePage.split hm₂ hsplit hdist
        refine ⟨⟨mini₂, h₂.loc, hm₂.nextLevel⟩, .splits key sibling' ⟨hlo, hhi, ?_, hbs, ?_, ?_, ?_,
          hk₂.pid⟩ ⟨q, ?_, hspace, ?_, ?_⟩, fun hr => by cases hr⟩
        · refine ⟨left', .of_dirty hbl rfl rfl, fun k => ?_⟩
          rw [content_base, hll k, hc₂ k]
        · intro k
          rw [hls k, hc₂ k]
        · rw [hk₂.vfs, hk₂.nextOffset]
        · rw [hk₂.nextOffset]
        · rw [← hq]
          exact hk₂.parent
        · rfl
        · rw [hk₂.inserted]
      · simp only [wp_bind, wp_setParent, wp_fail]
        refine ⟨⟨base₂, h₂.leaf.setParent _, fun k => ?_⟩, ?_⟩
        · rw [← hc₂ k, ← h₂.loc]
        · have hpar := hk₂.parent
          rw [hq] at hpar
          refine ⟨hk₂.pid, hk₂.vfs, hpar.trans ⟨rfl, rfl⟩, hk₂.nextPid, hk₂.nextOffset,
            hk₂.sibling, hk₂.inserted⟩
    · rintro e t' rfl
      exact hs₁

theorem tryMergeMiniPage_spec (h : Over lo hi offset base t) (hl : t.loc = .mini mini) (cfg : Config)
    (env : Env) :
    wp (tryMergeMiniPage cfg env mini)
      (Merged lo hi offset (content base (.mini mini)) t)
      (fun _ => Keeps lo hi offset (content base (.mini mini)) t) t := by
  have hm := h.caches_mini hl
  have hsame : Keeps lo hi offset (content base (.mini mini)) t t :=
    ⟨⟨base, h, fun _ => by rw [hl]⟩, .refl t⟩
  simp only [tryMergeMiniPage, wp_bind, wp_attempt]
  refine ⟨fun _ => wp_ite (fun hclean => ?_) (fun _ => ?_), fun _ _ => hsame⟩
  · simp only [Bool.and_eq_true, Bool.not_eq_true'] at hclean
    rw [wp_pure]
    have hkeeps : Keeps lo hi offset (content base (.mini mini)) t { t with loc := .base offset } :=
      .of_loc h rfl fun k => by rw [content_base, hm.content_of_clean hclean.1]
    exact ⟨⟨mini, hl, hm.nextLevel⟩, .keeps hkeeps, fun _ => hkeeps⟩
  · rw [wp_bind]
    refine wp_mono (loadBasePageMut_spec h) ?_ (fun _ _ hf => hf.elim)
    rintro p t₁ ⟨rfl, rfl, h₁⟩
    simp only [wp_bind, wp_unwrap, wp_writeBase]
    rintro base₂ hbase₂ ⟨merged, base₃⟩ hmerge
    obtain ⟨hb₂, he₂⟩ := h.basePage.consolidateSingle hbase₂
    have hc₂ : Caches lo hi offset base₂ t.loc := h.caches.congr he₂
    have hm₂ : MiniPage lo hi offset base₂ mini := by rwa [hl] at hc₂
    have hcontent : content base₂ (.mini mini) = content p (.mini mini) :=
      funext (content_congr (.mini mini) he₂)
    cases merged with
    | true =>
      rw [if_pos rfl, wp_pure]
      obtain ⟨hb₃, he₃⟩ := hb₂.mergeMiniPage hm₂ hmerge
      have hkeeps : Keeps lo hi offset (content p (.mini mini)) t
          { t with loc := .base offset, tmpBuffer := some ⟨true, base₃⟩ } :=
        ⟨⟨base₃, .of_dirty hb₃ rfl rfl, fun k => by rw [content_base, he₃ k, hcontent]⟩,
          .of_local _ _ _ _⟩
      exact ⟨⟨mini, hl, hm.nextLevel⟩, .keeps hkeeps, fun _ => hkeeps⟩
    | false =>
      obtain ⟨-, rfl⟩ | ⟨hf, -⟩ := mergeMiniPage_spec hm.wf hb₂.wf (hm₂.base_covers hb₂) hmerge
      · rw [if_neg (by simp), ← hcontent]
        have h₂ : Over lo hi offset base₃ { t with tmpBuffer := some ⟨true, base₃⟩ } :=
          .of_dirty hb₂ hc₂ rfl
        have hk : Kept t { t with tmpBuffer := some ⟨true, base₃⟩ } := .of_local _ _ _ _
        refine wp_mono (mergeAndSplit_spec h₂ hl cfg env) (fun _ t' hm' => ?_)
          (fun _ t' hk' => .trans hk hk')
        exact ⟨hm'.loc, hm'.outcome.of_kept hk, fun hr => .trans hk (hm'.noSplit hr)⟩
      · cases hf

theorem mergeMiniPageAndDealloc_spec (h : Over lo hi offset base t) (hl : t.loc = .mini mini)
    (cfg : Config) (env : Env) :
    wp (mergeMiniPageAndDealloc cfg env mini)
      (fun _ t' => Outcome lo hi offset (content base (.mini mini)) t t' ∧ t'.loc = .base offset)
      (fun _ => Keeps lo hi offset (content base (.mini mini)) t) t := by
  simp only [mergeMiniPageAndDealloc, wp_bind, wp_attempt]
  refine ⟨fun _ => ?_, fun _ _ => ⟨⟨base, h, fun _ => by rw [hl]⟩, .refl t⟩⟩
  refine wp_mono (tryMergeMiniPage_spec h hl cfg env) (fun _ t' hm => ?_) (fun _ _ hk => hk)
  obtain ⟨p, hp, hn⟩ := hm.loc
  exact changeToBaseLoc_spec (.inl hp) hn ⟨hm.outcome, rfl⟩

theorem promoteMerged_spec (h : Over lo hi offset base t) (hl : t.loc = .base offset) (cfg : Config)
    (env : Env) :
    Ensures (promoteMerged cfg env (some offset))
      (fun t' => Keeps lo hi offset (content base t.loc) t t' ∧ t'.parent = t.parent) t := by
  simp only [Ensures, promoteMerged, wp_bind, wp_unwrap]
  rintro o ⟨⟩
  refine wp_mono (loadBasePage_spec h) ?_ (fun _ _ hf => hf.elim)
  rintro p t₁ ⟨rfl, h₁, -, b, rfl⟩
  have hkept : Kept t { t with tmpBuffer := b } := .of_local _ _ _ _
  have hsame : Keeps lo hi offset (content p t.loc) t { t with tmpBuffer := b } :=
    ⟨⟨p, h₁, fun _ => rfl⟩, hkept⟩
  refine wp_ite (fun _ => ?_) (fun _ => (wp_pure ()).2 ⟨hsame, rfl⟩)
  rw [wp_bind]
  refine wp_mono (upgradeToFullPage_spec h₁ cfg env) ?_ ?_
  · rintro loc t₂ ⟨rfl, hc, he⟩
    rw [wp_setLoc]
    refine ⟨.trans hkept (.of_loc h₁ hc fun k => ?_), rfl⟩
    rw [he k, hl, content_base]
  · rintro e t₂ rfl
    exact ⟨hsame, rfl⟩

/-- After an outcome the leaf may be moved again. -/
theorem Outcome.andThen {α : Type} {c : Key → Option Value} {t₁ : LeafEntry}
    (h : Outcome lo hi offset c t t₁) {m : M α}
    (hm : ∀ hi' c', Stores lo hi' offset c' t₁ →
      Ensures m (fun t₂ => Keeps lo hi' offset c' t₁ t₂ ∧ t₂.parent = t₁.parent) t₁) :
    Ensures m (Outcome lo hi offset c t) t₁ := by
  cases h with
  | keeps h =>
    refine (hm _ _ h.stores).mono fun t₂ h₂ => ?_
    exact .keeps (.trans h.kept h₂.1)
  | splits key sibling h hp =>
    refine (hm _ _ h.left).mono fun t₂ h₂ => ?_
    obtain ⟨q, hq, hspace, hpar, hins⟩ := hp
    have hk := h₂.1.kept
    exact .splits key sibling ⟨h.lo_lt, h.lt_hi, h₂.1.stores, h.right, h.right_live,
      hk.vfs.trans h.vfs, hk.sibling.trans h.sibling_eq, hk.pid.trans h.pid⟩
      ⟨q, hq, hspace, h₂.2.trans hpar, hk.inserted.trans hins⟩

theorem mergeAndPromote_spec (h : Over lo hi offset base t) (hl : t.loc = .mini mini) (cfg : Config)
    (env : Env) :
    wp (mergeAndPromote cfg env mini) (fun _ _ => False)
      (fun _ => Outcome lo hi offset (content base (.mini mini)) t) t := by
  have hm := h.caches_mini hl
  simp only [mergeAndPromote, wp_bind, wp_get, wp_assert]
  intro _
  refine wp_mono (mergeMiniPageAndDealloc_spec h hl cfg env) ?_ (fun _ _ hk => .keeps hk)
  rintro - t₁ ⟨ho, hl₁⟩
  refine wp_ite (fun _ => ?_) (fun _ => ?_)
  · rw [wp_bind, hm.nextLevel]
    have hpromote := ho.andThen (m := promoteMerged cfg env (some offset)) fun hi' c' hs => by
      obtain ⟨base₁, h₁, hc₁⟩ := hs
      obtain rfl : content base₁ t₁.loc = c' := funext hc₁
      exact promoteMerged_spec h₁ hl₁ cfg env
    exact wp_mono hpromote (fun _ _ h' => (wp_fail _).2 h') (fun _ _ h' => h')
  · simp only [wp_fail]
    exact ho

/-! ## Insert -/

/-- What may be inserted: a new version, or a clean copy of the record in the base
page below the root. -/
def Insertable (base : LeafNode) (t : LeafEntry) (key : Key) (value : Value) (op : OpType) : Prop :=
  op.isDirty = true ∨
    op = .cache ∧ live (base.entry key) = some value ∧ t.parent ≠ none ∧ ∀ p, t.loc ≠ .full p

theorem Insertable.copy {key : Key} {value : Value} {op : OpType}
    (h : Insertable base t key value op) :
    op.isDirty = true ∨ op = .cache ∧ live (base.entry key) = some value :=
  h.imp id fun h => ⟨h.1, h.2.1⟩

section Insert

variable {key : Key} {value : Value} {op : OpType} (cfg : Config) (sizeClasses : List Nat) (env : Env)
  (g : SnapshotGuard)

theorem insertBase_spec (h : Over lo hi offset base t) (hl : t.loc = .base offset) :
    wp (insertBase cfg sizeClasses env g offset key value op)
      (fun _ t' => InRange lo hi key → key ≠ [] → Insertable base t key value op →
        Keeps lo hi offset (written (content base t.loc) key value op) t t')
      (fun _ => Keeps lo hi offset (content base t.loc) t) t := by
  simp only [insertBase, wp_bind]
  refine wp_mono (versionRuleBase_spec h g) ?_ ?_
  · rintro - t₁ ⟨base₁, hs₁, h₁, hl₁, hk₁⟩
    have hc₁ : ∀ k, live (base₁.entry k) = content base t.loc k := by
      intro k
      rw [hs₁.entry, hl, content_base]
    rw [wp_get]
    refine wp_ite (fun hroot => ?_) (fun hroot => ?_)
    · have hpar : t.parent = none := by
        have hpar := hk₁.parent
        rw [Option.isNone_iff_eq_none.1 hroot] at hpar
        cases hp : t.parent with
        | none => rfl
        | some p => rw [hp] at hpar; exact hpar.elim
      rw [wp_bind]
      refine wp_mono (loadBasePageMut_spec h₁) ?_ (fun _ _ hf => hf.elim)
      rintro p t₂ ⟨rfl, rfl, h₂⟩
      simp only [wp_bind, wp_unwrap]
      rintro ⟨success, p'⟩ hins
      cases success with
      | true =>
        rw [if_pos rfl, wp_writeBase]
        intro hr hne hop
        have hdirty := hop.resolve_right fun hc => hc.2.2.1 hpar
        obtain ⟨hb, he⟩ := h₂.basePage.insert hr hne hdirty hins
        refine ⟨⟨p', .of_dirty hb (by rw [hl₁, hl]; rfl) rfl, fun k => ?_⟩,
          hk₁.trans (.of_local _ _ _ _)⟩
        rw [hl₁, hl, content_base, he k, ← hl, ← funext hc₁]
      | false =>
        obtain rfl := insert_refused hins
        simp only [Bool.false_eq_true, if_false, wp_bind, wp_writeBase, wp_fail]
        refine ⟨⟨p'.setSplitFlag, .of_dirty (h₂.basePage.congr (.setSplitFlag _))
          (by rw [hl₁, hl]; rfl) rfl, fun k => ?_⟩, hk₁.trans (.of_local _ _ _ _)⟩
        rw [hl₁, hl, content_base, ← hl, ← hc₁ k]
        rfl
    · simp only [wp_bind, wp_unwrap, wp_attempt, wp_assert, wp_setLoc]
      refine fun size _ => ⟨fun _ => ?_, fun _ _ => ⟨⟨base₁, h₁, fun k => ?_⟩, hk₁⟩⟩
      · rintro ⟨success, mini⟩ hins hsuccess
        obtain rfl : success = true := hsuccess
        intro hr hne hop
        have hcopy : op.isDirty = true ∨ op = .cache ∧ live (base₁.entry key) = some value := by
          rw [hs₁.entry]
          exact hop.copy
        obtain ⟨hm, he⟩ := (MiniPage.empty lo hi offset base₁ size g.version).insert hr hne
          hcopy hins
        refine .trans hk₁ (.of_loc h₁ hm fun k => ?_)
        rw [he k]
        congr 1
        funext k
        rw [← hc₁ k, content_mini]
        simp [initializeMiniPage]
      · rw [hl₁, hl, content_base, ← hl, hc₁ k]
  · rintro - t₁ ⟨base₁, hs₁, h₁, hl₁, hk₁⟩
    refine ⟨⟨base₁, h₁, fun k => ?_⟩, hk₁⟩
    rw [hl₁]
    exact content_congr t.loc (fun k => by rw [hs₁.entry]) k

theorem growMini_spec (h : Over lo hi offset base t) (hl : t.loc = .mini mini) (size : Nat) :
    wp (growMini env g mini size key value op)
      (fun _ t' => InRange lo hi key → key ≠ [] → Insertable base t key value op →
        Keeps lo hi offset (written (content base t.loc) key value op) t t')
      (fun _ => Keeps lo hi offset (content base t.loc) t) t := by
  have hsame : Keeps lo hi offset (content base t.loc) t t := ⟨⟨base, h, fun _ => rfl⟩, .refl t⟩
  have hm := h.caches_mini hl
  simp only [growMini, wp_bind, wp_attempt, wp_unwrap, wp_assert, wp_setLoc]
  refine ⟨fun _ => ⟨fun _ => ?_, fun _ _ => hsame⟩, fun _ _ => hsame⟩
  intro grown hgrown
  rintro ⟨success, grown'⟩ hins hsuccess
  obtain rfl : success = true := hsuccess
  intro hr hne hop
  obtain ⟨hg, he⟩ := hm.copy hgrown
  have hflag : SameRecords grown
      (if mini.versionChanged then { grown with versionChanged := true } else grown) := by
    split
    · exact .setSnapshotVersion grown grown.snapshotVersion true
    · exact .refl grown
  obtain ⟨hg', he'⟩ := (hg.congr hflag).insert hr hne hop.copy hins
  refine .of_loc h hg' fun k => ?_
  rw [he' k]
  congr 1
  funext k
  rw [hl, ← he k, content_mini, content_mini, hflag.entry]

theorem insertIntoMini_spec (h : Over lo hi offset base t) (hl : t.loc = .mini mini)
    (hdisk : cfg.cacheOnly = false) :
    wp (insertIntoMini cfg sizeClasses env g mini key value op)
      (fun _ t' => InRange lo hi key → key ≠ [] → Insertable base t key value op →
        Keeps lo hi offset (written (content base t.loc) key value op) t t')
      (fun _ => Outcome lo hi offset (content base t.loc) t) t := by
  have hm := h.caches_mini hl
  simp only [insertIntoMini, wp_bind, wp_assert, wp_unwrap, wp_setLoc]
  rintro - ⟨success, mini'⟩ hins
  cases success with
  | true =>
    rw [if_pos rfl, wp_pure]
    intro hr hne hop
    obtain ⟨hm', he⟩ := hm.insert hr hne hop.copy hins
    refine .of_loc h hm' fun k => ?_
    rw [he k, hl]
  | false =>
    obtain rfl := insert_refused hins
    have ht : { t with loc := .mini mini' } = t := by rw [← hl]
    rw [ht]
    simp only [Bool.false_eq_true, if_false, wp_bind, wp_unwrap, hdisk]
    intro newSize _
    cases newSize with
    | some size =>
      exact wp_mono (growMini_spec env g h hl size) (fun _ _ hk => hk)
        (fun _ _ hk => .keeps hk)
    | none =>
      rw [hl]
      exact wp_mono (mergeAndPromote_spec h hl cfg env) (fun _ _ hf => hf.elim)
        (fun _ _ ho => ho)

theorem versionRuleMini_spec (h : Over lo hi offset base t) (hl : t.loc = .mini mini)
    (hdisk : cfg.cacheOnly = false) :
    wp (versionRuleMini cfg g mini)
      (fun p t' => SameRecords mini p ∧ t'.loc = .mini p ∧ Over lo hi offset base t' ∧ Kept t t' ∧
        t'.parent = t.parent)
      (fun _ t' => t' = t) t := by
  have hm := h.caches_mini hl
  have hsame : SameRecords mini (mini.setSnapshotVersion g.version true) := .setSnapshotVersion _ _ _
  have hlift : Over lo hi offset base { t with loc := .mini (mini.setSnapshotVersion g.version true) } :=
    h.setLoc (hm.congr hsame)
  simp only [versionRuleMini, wp_bind, wp_get, hdisk, Bool.not_false]
  refine wp_versionRule ⟨.refl mini, hl, h, .refl t, rfl⟩ rfl ?_ ?_
  · simp only [wp_bind, wp_setLoc, wp_pure]
    exact ⟨hsame, trivial, hlift, .of_local _ _ _ _, trivial⟩
  · intro slot
    simp only [wp_bind, wp_record, wp_setLoc, if_true, wp_unwrap, hm.nextLevel]
    rintro o ⟨⟩
    refine wp_mono (loadBasePage_spec (hlift.setCaptures _)) ?_ (fun _ _ hf => hf.elim)
    rintro p t₁ ⟨rfl, h₁, -, b, rfl⟩
    simp only [wp_assert, Bool.false_and, Bool.false_eq_true, if_false, wp_pure]
    exact fun _ => ⟨hsame, trivial, h₁.setCaptures _, .of_local _ _ _ _, trivial⟩

theorem insertMini_spec (h : Over lo hi offset base t) (hl : t.loc = .mini mini)
    (hdisk : cfg.cacheOnly = false) :
    wp (insertMini cfg sizeClasses env g mini key value op)
      (fun _ t' => InRange lo hi key → key ≠ [] → Insertable base t key value op →
        Keeps lo hi offset (written (content base t.loc) key value op) t t')
      (fun _ => Outcome lo hi offset (content base t.loc) t) t := by
  simp only [insertMini, wp_bind]
  refine wp_mono (versionRuleMini_spec cfg g h hl hdisk) ?_ ?_
  · rintro p t₁ ⟨hs, hl₁, h₁, hk₁, hp₁⟩
    have hop₁ (hop : Insertable base t key value op) : Insertable base t₁ key value op :=
      hop.imp id fun hc => ⟨hc.1, hc.2.1, by rw [hp₁]; exact hc.2.2.1, by simp [hl₁]⟩
    have hc₁ : content base t₁.loc = content base t.loc := by
      funext k
      rw [hl₁, hl, content_mini, content_mini, hs.entry]
    simp only [wp_get, hdisk, Bool.false_and, Bool.false_eq_true, if_false]
    rw [← hc₁]
    exact wp_mono (insertIntoMini_spec cfg sizeClasses env g h₁ hl₁ hdisk)
      (fun _ _ hk hr hne hop => .trans hk₁ (hk hr hne (hop₁ hop))) (fun _ _ ho => ho.of_kept hk₁)
  · rintro e t' rfl
    exact .keeps ⟨⟨base, h, fun _ => rfl⟩, .refl _⟩

/-- An insert writes the key, if it may be inserted there, or fails and keeps the map. -/
theorem insert_total (h : Over lo hi offset base t) (hdisk : cfg.cacheOnly = false) :
    wp (insert cfg sizeClasses env key value op)
      (fun _ t' => InRange lo hi key → key ≠ [] → Insertable base t key value op →
        Keeps lo hi offset (written (content base t.loc) key value op) t t')
      (fun _ => Outcome lo hi offset (content base t.loc) t) t := by
  unfold insert
  cases env.snapshotGuard with
  | none =>
    rw [wp_fail]
    exact .keeps ⟨⟨base, h, fun _ => rfl⟩, .refl t⟩
  | some g =>
    simp only [wp_bind, wp_get, hdisk, Bool.false_eq_true, if_false]
    have hc := h.caches
    split
    · rename_i o hl
      rw [hl] at hc
      obtain rfl : o = offset := hc
      exact wp_mono (insertBase_spec cfg sizeClasses env g h hl)
        (fun _ _ hk => hk) (fun _ _ hk => .keeps hk)
    · rename_i p hl
      exact wp_mono (insertFull_spec h hl cfg env g key value op)
        (fun _ _ hk hr hne hop => hk hr hne (hop.resolve_right fun hc => hc.2.2.2 p hl))
        (fun _ _ hk => .keeps hk)
    · rename_i p hl
      exact insertMini_spec cfg sizeClasses env g h hl hdisk
    · rename_i hl
      rw [hl] at hc
      exact hc.elim

theorem insert_spec (h : Over lo hi offset base t) (hr : InRange lo hi key) (hne : key ≠ [])
    (hop : Insertable base t key value op) (hdisk : cfg.cacheOnly = false) :
    wp (insert cfg sizeClasses env key value op)
      (fun _ => Keeps lo hi offset (written (content base t.loc) key value op) t)
      (fun _ => Outcome lo hi offset (content base t.loc) t) t :=
  wp_mono (insert_total cfg sizeClasses env h hdisk) (fun _ _ hk => hk hr hne hop)
    (fun _ _ ho => ho)

end Insert

/-! ## Read -/

/-- A clean or dirty buffer may get reference marks. -/
theorem Over.setPage (h : Over lo hi offset base t) (hs : SameRecords base base')
    (hbuf : t.tmpBuffer ≠ none) :
    Over lo hi offset base'
      { t with tmpBuffer := t.tmpBuffer.map fun b => { b with page := base' } } := by
  obtain ⟨b, hb⟩ := Option.ne_none_iff_exists'.1 hbuf
  have hbase := h.base_eq
  rw [basePage?_of_some hb, Option.some.injEq] at hbase
  refine ⟨by simp [basePage?, hb], ?_, h.basePage.congr hs, h.caches.congr fun k => by rw [hs.entry]⟩
  intro p hp
  simp only [hb, Option.map_some, Option.some.injEq, TmpBuffer.mk.injEq] at hp
  obtain ⟨hclean, rfl⟩ := hp
  obtain ⟨disk, hdisk, hsame⟩ := h.onDisk b.page (by rw [hb, ← hclean])
  exact ⟨disk, hdisk, (hbase ▸ hsame).trans hs⟩

/-- What a read says about the map `c`. -/
def ReadsAs (c : Key → Option Value) (key : Key) : LeafReadResult → List UInt8 → Prop
  | .found n, out => c key = some (out.take n)
  | .deleted, _ | .notFound, _ => c key = none

theorem readBase_spec (h : Over lo hi offset base t) {key : Key} (hr : InRange lo hi key)
    (out : List UInt8) :
    wp (readBase offset key out)
      (fun r t' => ∃ res base', r.1 = .base res ∧
        ReadsAs (fun k => live (base.entry k)) key res r.2 ∧ SameRecords base base' ∧
        Over lo hi offset base' t' ∧ t'.loc = t.loc ∧ Kept t t' ∧ t'.parent = t.parent)
      (fun _ _ => False) t := by
  simp only [readBase, wp_bind]
  refine wp_mono (loadBasePage_spec h) ?_ (fun _ _ hf => hf.elim)
  rintro p t₁ ⟨rfl, h₁, hbuf, b, rfl⟩
  simp only [wp_unwrap, wp_modify, wp_pure]
  rintro ⟨r, out', p'⟩ hread
  obtain ⟨hw, hh, he, hres⟩ := readByKeyInner_spec h.basePage.wf (h.basePage.covers hr) hread
  have hs : SameRecords p p' := .of_sameHeader h.basePage.wf hw hh he
  refine ⟨r, p', rfl, ?_, hs, h₁.setPage hs hbuf, trivial, .of_local _ _ _ _, trivial⟩
  cases r with
  | found n => exact hres
  | deleted => exact hres.1
  | notFound => exact (congrArg live hres).trans rfl

/-- What a read of a disk-backed leaf returns. After a read from the base page a clean
copy of the record may be inserted. -/
def ReadOk (lo hi : Key) (offset : Nat) (c : Key → Option Value) (key : Key)
    (r : ReadResult × List UInt8) (t' : LeafEntry) : Prop :=
  match r.1 with
  | .mini res | .full res => ReadsAs c key res r.2
  | .base res => ReadsAs c key res r.2 ∧ (∀ p, t'.loc ≠ .full p) ∧
      ∃ base, Over lo hi offset base t' ∧ (∀ k, content base t'.loc k = c k) ∧
        live (base.entry key) = c key
  | .none => False

theorem read_spec (h : Over lo hi offset base t) {key : Key} (hr : InRange lo hi key)
    (out : List UInt8) (cfg : Config) (hdisk : cfg.cacheOnly = false) :
    wp (read cfg key out)
      (fun r t' => ReadOk lo hi offset (content base t.loc) key r t' ∧
        Keeps lo hi offset (content base t.loc) t t' ∧ t'.parent = t.parent)
      (fun _ _ => False) t := by
  simp only [read, wp_bind, wp_get]
  have hc := h.caches
  split
  · rename_i o hl
    rw [hl] at hc
    obtain rfl : o = offset := hc
    refine wp_mono (readBase_spec h hr out) ?_ (fun _ _ hf => hf.elim)
    rintro ⟨r, out'⟩ t' ⟨res, base', rfl, hres, hs, h', hl', hk, hp⟩
    have hcont : ∀ k, content base' t'.loc k = content base t.loc k := by
      intro k
      rw [hl']
      exact content_congr t.loc (fun k => by rw [hs.entry]) k
    refine ⟨⟨?_, by simp [hl', hl], base', h', hcont, ?_⟩, ⟨⟨base', h', hcont⟩, hk⟩, hp⟩
    · rw [hl]; exact hres
    · rw [hs.entry, hl, content_base]
  · rename_i p hl
    have hp := h.caches_full hl
    simp only [wp_bind, wp_unwrap, wp_setLoc, wp_pure]
    rintro ⟨r, out', p'⟩ hread
    obtain ⟨hw, hh, he, hres⟩ := readByKeyInner_spec hp.wf (hp.covers hr) hread
    have hs : SameRecords p p' := .of_sameHeader hp.wf hw hh he
    refine ⟨?_, .of_loc h (hp.congr hs) fun k => ?_, trivial⟩
    · rw [hl]
      cases r with
      | found n => exact hres
      | deleted => exact hres.1
      | notFound => exact (congrArg live hres).trans rfl
    · rw [hl, content_full, content_full, he]
  · rename_i p hl
    have hm := h.caches_mini hl
    simp only [wp_bind, wp_unwrap, wp_setLoc]
    rintro ⟨r, out', p'⟩ hread
    obtain ⟨hw, hh, he, hres⟩ := readByKeyInner_spec hm.wf (hm.covers key) hread
    have hs : SameRecords p p' := .of_sameHeader hm.wf hw hh he
    have hm' : MiniPage lo hi offset base p' := hm.congr hs
    have hcont : ∀ k, content base (.mini p') k = content base t.loc k := by
      intro k
      rw [hl, content_mini, content_mini, he]
    cases r with
    | found n =>
      rw [wp_pure]
      refine ⟨?_, .of_loc h hm' hcont, rfl⟩
      obtain ⟨e, he'⟩ : ∃ e, p.entry key = some e := by
        cases hk : p.entry key with
        | none => rw [hk] at hres; cases hres
        | some e => exact ⟨e, rfl⟩
      show content base t.loc key = _
      rw [hl, content_mini, he', overlay_some, ← he', hres]
    | deleted =>
      rw [wp_pure]
      refine ⟨?_, .of_loc h hm' hcont, rfl⟩
      obtain ⟨e, he'⟩ := Option.ne_none_iff_exists'.1 hres.2
      show content base t.loc key = none
      rw [hl, content_mini, he', overlay_some, ← he', hres.1]
    | notFound =>
      simp only [hdisk, Bool.false_eq_true, if_false, wp_bind, wp_unwrap, hm'.nextLevel]
      rintro o ⟨⟩
      have h₁ : Over lo hi offset base { t with loc := .mini p' } := h.setLoc hm'
      have hnone : p.entry key = none := hres
      refine wp_mono (readBase_spec h₁ hr out') ?_ (fun _ _ hf => hf.elim)
      rintro ⟨r, out''⟩ t' ⟨res, base', rfl, hres', hs', h', hl', hk, hp⟩
      have hcont' : ∀ k, content base' t'.loc k = content base t.loc k := by
        intro k
        rw [hl', ← hcont k]
        exact content_congr (.mini p') (fun k => by rw [hs'.entry]) k
      have hlive : live (base.entry key) = content base t.loc key := by
        rw [hl, content_mini, hnone, overlay_none]
      refine ⟨⟨?_, by simp [hl'], base', h', hcont', ?_⟩,
        ⟨⟨base', h', hcont'⟩, Kept.trans (.of_local _ _ _ _) hk⟩, hp⟩
      · cases res with
        | found n => exact hlive.symm.trans hres'
        | deleted => exact hlive.symm.trans hres'
        | notFound => exact hlive.symm.trans hres'
      · rw [hs'.entry, hlive]
  · rename_i hl
    rw [hl] at hc
    exact hc.elim

theorem moveCachePageToTail_spec (h : Over lo hi offset base t) (cfg : Config) (env : Env) :
    Ensures (moveCachePageToTail cfg env)
      (fun t' => Keeps lo hi offset (content base t.loc) t t' ∧ t'.parent = t.parent) t := by
  have hsame : Keeps lo hi offset (content base t.loc) t t := ⟨⟨base, h, fun _ => rfl⟩, .refl t⟩
  simp only [Ensures, moveCachePageToTail, wp_bind, wp_get]
  split
  · rename_i p hl
    simp only [wp_bind, wp_attempt, wp_unwrap, wp_setLoc]
    refine ⟨fun _ => ⟨fun _ => ?_, fun _ _ => ⟨hsame, trivial⟩⟩, fun _ _ => ⟨hsame, trivial⟩⟩
    intro moved hmoved
    obtain ⟨hm, he⟩ := (h.caches_mini hl).copy hmoved
    have hflag : SameRecords moved (if p.versionChanged then
        { moved.setSnapshotVersion p.snapshotVersion false with versionChanged := true }
        else moved.setSnapshotVersion p.snapshotVersion false) := by
      split
      · exact .setSnapshotVersion moved p.snapshotVersion true
      · exact .setSnapshotVersion moved p.snapshotVersion false
    refine ⟨.of_loc h (hm.congr hflag) fun k => ?_, trivial⟩
    rw [hl, ← he k, content_mini, content_mini, hflag.entry]
  · rename_i p hl
    simp only [wp_bind, wp_assert, wp_attempt, wp_setLoc]
    refine fun _ => ⟨fun _ => ⟨fun _ => ?_, fun _ _ => ⟨hsame, trivial⟩⟩, fun _ _ => ⟨hsame, trivial⟩⟩
    refine ⟨.of_loc h (h.caches_full hl) fun k => ?_, trivial⟩
    rw [hl]
  · exact wp_crash.2 trivial
  · exact wp_crash.2 trivial

/-! ## Dropping the entry -/

/-- A leaf between two transactions. -/
def Leaf (lo hi : Key) (offset : Nat) (c : Key → Option Value) (loc : PageLocation)
    (vfs : Nat → Option LeafNode) : Prop :=
  ∃ base, vfs offset = some base ∧ BasePage lo hi base ∧ Caches lo hi offset base loc ∧
    ∀ k, content base loc k = c k

/-- Nothing to write when the lock is released. -/
theorem flush_of_none (h : t.tmpBuffer = none) : t.flush = some t := by
  rw [flush, h]

theorem flush_spec {c : Key → Option Value} (h : Stores lo hi offset c t) :
    ∃ t', t.flush = some t' ∧ Leaf lo hi offset c t'.loc t'.vfs ∧
      (∀ o, o ≠ offset → t'.vfs o = t.vfs o) ∧ t' = { t with vfs := t'.vfs } := by
  obtain ⟨base, h, hc⟩ := h
  have hbase := h.base_eq
  unfold flush
  split
  · rename_i page hb
    rw [basePage?_of_some hb, Option.some.injEq] at hbase
    rw [h.offset_eq]
    refine ⟨_, rfl, ⟨base, ?_, h.basePage, h.caches, hc⟩, ?_, rfl⟩
    · rw [← hbase]
      exact Function.update_self _ _ _
    · intro o ho
      exact Function.update_of_ne ho _ _
  · rename_i hb
    refine ⟨t, rfl, ?_, fun _ _ => rfl, rfl⟩
    cases hbuf : t.tmpBuffer with
    | none =>
      rw [basePage?_of_none hbuf] at hbase
      exact ⟨base, hbase, h.basePage, h.caches, hc⟩
    | some b =>
      obtain ⟨dirty, page⟩ := b
      cases dirty with
      | true => exact (hb page hbuf).elim
      | false =>
        obtain ⟨disk, hdisk, hs⟩ := h.onDisk page hbuf
        rw [basePage?_of_some hbuf, Option.some.injEq] at hbase
        obtain rfl : page = base := hbase
        have he : ∀ k, live (disk.entry k) = live (page.entry k) := fun k => by rw [hs.entry]
        exact ⟨disk, hdisk, h.basePage.congr hs.symm, h.caches.congr he,
          fun k => (content_congr t.loc he k).trans (hc k)⟩

end

end LeafEntry

end BfTree
