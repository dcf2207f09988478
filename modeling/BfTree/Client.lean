import BfTree.Lookup
import BfTree.ScanIterSpec

/-!
# What a client sees

A client makes one call after the other; the cache may evict pages in between. The
replies are those of a map that holds the last accepted write to each key. In cache-only
mode a record may be gone, but a record that is found is the last one written.
-/

namespace BfTree

open Lib LeafNode

namespace Tree

/-- One call of `ScanIter::next`. -/
structure NextCall where
  fuel : Nat
  moves : List (List AttemptEnv)
  outBuffer : List UInt8

/-- What ends a scan: `scan_with_count` or `scan_with_end_key`. -/
inductive ScanLimit where
  | count (cnt : Fin (2 ^ 64))
  | endKey (key : Key)

/-- `ScanIter::new_with_scan_count` or `new_with_end_key` -/
def openIter (rounds : List Round) (startKey : Key) (limit : ScanLimit) (field : ScanReturnField) :
    M ScanIter :=
  match limit with
  | .count cnt => newWithScanCount rounds startKey cnt field
  | .endKey endKey => newWithEndKey rounds startKey endKey field

def openScan (rounds : List Round) (startKey : Key) (limit : ScanLimit) (field : ScanReturnField) :
    M (Except ScanIterError ScanIter) :=
  match limit with
  | .count cnt => scanWithCount rounds startKey cnt field
  | .endKey endKey => scanWithEndKey rounds startKey endKey field

/-- Calls of `next` on one iterator: their results, and the iterator after them. -/
def nexts : List NextCall → ScanIter → M (List (Option (Nat × Nat) × List UInt8) × ScanIter)
  | [], it => pure ([], it)
  | c :: cs, it => do
      let (r, out, it) ← next c.fuel c.moves it c.outBuffer
      let (rs, it) ← nexts cs it
      pure ((r, out) :: rs, it)

inductive Call where
  | insert (rounds : List Round) (key : Key) (value : Value)
  | delete (rounds : List Round) (key : Key)
  | read (rounds : List Round) (key : Key) (outBuffer : List UInt8)
  | scan (rounds : List Round) (startKey : Key) (limit : ScanLimit) (field : ScanReturnField)
      (nextCalls : List NextCall)
  | evict (evictions : List Eviction)

inductive Reply where
  | insert (r : LeafInsertResult)
  | delete
  | read (r : TreeReadResult) (outBuffer : List UInt8)
  | scan (r : Except ScanIterError (List (Option (Nat × Nat) × List UInt8)))
  | evict
deriving DecidableEq

def call : Call → M Reply
  | .insert rounds key value => do
    let r ← insert rounds key value
    pure (.insert r)
  | .delete rounds key => do
    delete rounds key
    pure .delete
  | .read rounds key outBuffer => do
    let (r, outBuffer) ← read rounds key outBuffer
    pure (.read r outBuffer)
  | .scan rounds startKey limit field nextCalls => do
    let it ← openScan rounds startKey limit field
    match it with
    | .error e => pure (.scan (.error e))
    | .ok it => do
      let (rs, _) ← nexts nextCalls it
      pure (.scan (.ok rs))
  | .evict evictions => do
    Prog.ignore (evictFromCircularBuffer evictions)
    pure .evict

def run : List Call → M (List Reply)
  | [] => pure []
  | c :: cs => do
      let r ← call c
      let rs ← run cs
      pure (r :: rs)

/-- The replies to a client that makes a tree and works on it. -/
def session (config : Config) (version : Nat) (calls : List Call) : Option (List Reply) := do
  let r ← withConfig config version
  let t ← r.toOption
  let (rs, _) ← run calls t
  rs.toOption

/-! ## The map of the accepted writes -/

/-- The value that a call leaves at a key, if it is an accepted write to it. -/
def Call.writes (cfg : Config) (key : Key) : Call → Option (Option Value)
  | .insert _ k v => if k = key ∧ validRecord cfg k v then some (some v) else none
  | .delete _ k => if k = key ∧ validKey cfg k then some none else none
  | _ => none

/-- The value of the last accepted write to a key. -/
def lastWrite (cfg : Config) (calls : List Call) (key : Key) : Option Value :=
  (calls.reverse.findSome? (Call.writes cfg key)).join

/-- The map after one more call. -/
def Call.apply (cfg : Config) (c : Call) (S : Key → Option Value) (key : Key) : Option Value :=
  (c.writes cfg key).getD (S key)

theorem lastWrite_append (cfg : Config) (calls : List Call) (c : Call) (key : Key) :
    lastWrite cfg (calls ++ [c]) key = c.apply cfg (lastWrite cfg calls) key := by
  rw [lastWrite, List.reverse_append, List.reverse_singleton, List.singleton_append,
    List.findSome?_cons, Call.apply]
  cases c.writes cfg key <;> rfl

/-- The tree stores the map `S`, up to the records that a cache-only tree has lost. -/
def Keeps (cfg : Config) (S : Key → Option Value) (t : Tree) : Prop :=
  ∃ C, t.Inv cfg C ∧ if cfg.cacheOnly then ∀ k v, C k = some v → S k = some v else C = S

/-- The answer of a read to a client that expects the map `S`. -/
def ReadOk (cfg : Config) (S : Key → Option Value) (key : Key) (r : TreeReadResult)
    (out : List UInt8) : Prop :=
  match r with
  | .leaf (.found n) => validKey cfg key = true ∧ S key = some (out.take n)
  | .leaf .deleted | .leaf .notFound =>
    validKey cfg key = true ∧ (cfg.cacheOnly = true ∨ S key = none)
  | .invalidKey => validKey cfg key = false

def ReplyOk (cfg : Config) (S : Key → Option Value) : Call → Reply → Prop
  | .insert _ key value, .insert r => r = .invalidKV ↔ validRecord cfg key value = false
  | .delete _ _, .delete => True
  | .read _ key _, .read r out => ReadOk cfg S key r out
  | .scan .., .scan _ => True
  | .evict _, .evict => True
  | _, _ => False

/-! ## New trees -/

variable {cfg : Config} {S C : Key → Option Value} {t : Tree}

theorem stored_single {loc : PageLocation} {vfs : Nat → Option LeafNode} {next : Nat}
    (h : LeafOk cfg [] [] C loc vfs) (ho : ∀ o, loc.offset = some o → o < next) :
    Stored cfg [loc] vfs next (fun pid => Shape.single.range (.id pid)) C := by
  have hget : ∀ (pid : Nat) (l : PageLocation), [loc][pid]? = some l → pid = 0 ∧ loc = l := by
    intro pid l hl
    cases pid with
    | zero => exact ⟨rfl, Option.some.inj hl⟩
    | succ pid => cases hl
  refine ⟨fun pid l hl => ?_, fun pid l o hl hlo => ?_, fun pid pid' l l' o hl hl' _ _ => ?_⟩
  · obtain ⟨-, rfl⟩ := hget pid l hl
    exact ⟨C, h, fun _ _ => rfl⟩
  · obtain ⟨-, rfl⟩ := hget pid l hl
    exact ho o hlo
  · rw [(hget pid l hl).1, (hget pid' l' hl').1]

theorem makeBasePage_basePage (size ver : Nat) : BasePage [] [] (makeBasePage size ver) := by
  refine ⟨wf_initializeNode .., ?_, ?_, ?_, ?_, fun k e he => ?_, ?_⟩
  · simp [makeBasePage]
  · simp [makeBasePage, LeafNode.isBasePage]
  · simp [makeBasePage]
  · simp [makeBasePage]
  · simp [makeBasePage] at he
  · simp [makeBasePage]

theorem withConfig_inv {ver : Nat} (h : withConfig cfg ver = some (.ok t)) :
    t.Inv cfg (fun _ => none) := by
  simp only [withConfig, Option.bind_eq_bind, Option.bind_eq_some_iff] at h
  obtain ⟨r, hvalid, h⟩ := h
  cases r with
  | error e => cases h
  | ok u =>
    obtain ⟨sizeClasses, -, h⟩ := Option.bind_eq_some_iff.1 h
    obtain rfl : _ = t := Except.ok.inj (Option.some.inj h)
    have hbounds := Config.validate_ok hvalid
    refine ⟨Shape.single, rfl, hbounds, shaped_single, stored_single ?_ ?_, fun hdisk pid hpid => ?_,
      by simp⟩
    · cases hc : cfg.cacheOnly with
      | true =>
        rw [leafOk_cacheOnly hc]
        exact ⟨.empty cfg [] [] cfg.leafPageSize ver, fun k => by simp [initializeMiniPage, live]⟩
      | false =>
        rw [leafOk_disk hc]
        exact ⟨0, makeBasePage cfg.leafPageSize ver, by simp, makeBasePage_basePage _ ver, rfl,
          fun k => by simp [makeBasePage, live]⟩
    · intro o ho
      cases hc : cfg.cacheOnly with
      | true =>
        rw [hc] at ho
        simp [PageLocation.offset, initializeMiniPage] at ho
      | false =>
        rw [hc] at ho
        obtain rfl : 0 = o := Option.some.inj ho
        exact hbounds.leaf_pos
    · obtain rfl : 0 = pid := PageID.id.inj hpid
      exact ⟨0, by simp [hdisk]⟩

theorem withConfig_keeps {ver : Nat} (h : withConfig cfg ver = some (.ok t)) :
    t.Keeps cfg (fun _ => none) := by
  refine ⟨_, withConfig_inv h, ?_⟩
  split
  · exact fun _ _ hv => hv
  · rfl

/-! ## Calls -/

theorem Keeps.config (h : t.Keeps cfg S) : t.config = cfg := by
  obtain ⟨C, ⟨s, h⟩, -⟩ := h
  exact h.config

theorem Keeps.bounds (h : t.Keeps cfg S) : cfg.Bounds := by
  obtain ⟨C, ⟨s, h⟩, -⟩ := h
  exact h.bounds

/-- Records may be lost, except that of the key that is being written. -/
theorem Keeps.write (h : if cfg.cacheOnly then ∀ k v, C k = some v → S k = some v else C = S)
    {C' : Key → Option Value} {key : Key} {value : Value} {op : OpType}
    (hl : Loses cfg (some key) C C') (h' : t.Inv cfg (written C' key value op)) :
    t.Keeps cfg (written S key value op) := by
  refine ⟨_, h', ?_⟩
  cases hc : cfg.cacheOnly with
  | true =>
    rw [hc, if_pos rfl] at h
    rw [loses_cacheOnly hc] at hl
    rw [if_pos rfl]
    intro k v hv
    unfold written at hv ⊢
    split at hv
    · next heq => rw [if_pos heq]; exact hv
    · next hne =>
      rw [if_neg hne]
      rcases hl k (by simpa using hne) with heq | hnone
      · exact h k v (heq ▸ hv)
      · rw [hnone] at hv; cases hv
  | false =>
    rw [hc] at h
    rw [loses_disk hc] at hl
    rw [hl, if_neg (by decide), show C = S from h]

theorem Keeps.lose (h : if cfg.cacheOnly then ∀ k v, C k = some v → S k = some v else C = S)
    {C' : Key → Option Value} (hl : Loses cfg none C C') (h' : t.Inv cfg C') : t.Keeps cfg S := by
  refine ⟨_, h', ?_⟩
  cases hc : cfg.cacheOnly with
  | true =>
    rw [hc, if_pos rfl] at h
    rw [loses_cacheOnly hc] at hl
    rw [if_pos rfl]
    intro k v hv
    rcases hl k (by simp) with heq | hnone
    · exact h k v (heq ▸ hv)
    · rw [hnone] at hv; cases hv
  | false =>
    rw [hc] at h
    rw [loses_disk hc] at hl
    rw [hl]
    exact h

theorem insert_spec (h : t.Keeps cfg S) (rounds : List Round) (key : Key) (value : Value) :
    wp (insert rounds key value)
      (fun r t' => (r = .invalidKV ↔ validRecord cfg key value = false) ∧
        t'.Keeps cfg (Call.apply cfg (.insert rounds key value) S)) (fun _ _ => False) t := by
  simp only [insert, wp_bind, wp_get, h.config]
  have hcfg := h.bounds
  refine wp_ite (fun hvalid => ?_) (fun hvalid => ?_)
  · obtain ⟨C, hinv, hS⟩ := h
    simp only [wp_bind, wp_pure]
    refine wp_mono (retry_spec (Q := fun C _ => Inv cfg (written C key value .insert))
      (fun env aggressive h => writeInner_spec h env (writable_insert hvalid) aggressive)
      rounds hinv) ?_ (fun _ _ hf => hf)
    rintro - t' ⟨C', hl, h'⟩
    have happly : Call.apply cfg (.insert rounds key value) S = written S key value .insert := by
      funext k
      simp only [Call.apply, Call.writes, written, hvalid, and_true, OpType.isAbsent]
      by_cases hk : k = key
      · simp [hk]
      · simp [hk, Ne.symm hk]
    rw [happly]
    exact ⟨by simp [hvalid], .write hS hl h'⟩
  · have happly : Call.apply cfg (.insert rounds key value) S = S := by
      funext k
      simp [Call.apply, Call.writes, hvalid]
    rw [happly]
    exact (wp_pure _).2 ⟨by simpa using hvalid, h⟩

theorem delete_spec (h : t.Keeps cfg S) (rounds : List Round) (key : Key) :
    wp (delete rounds key)
      (fun _ t' => t'.Keeps cfg (Call.apply cfg (.delete rounds key) S)) (fun _ _ => False) t := by
  simp only [delete, wp_bind, wp_get, h.config]
  have hcfg := h.bounds
  refine wp_ite (fun hvalid => ?_) (fun hvalid => ?_)
  · obtain ⟨C, hinv, hS⟩ := h
    refine wp_mono (retry_spec (Q := fun C _ => Inv cfg (written C key [] .delete))
      (fun env aggressive h => writeInner_spec h env (writable_delete hcfg hvalid) aggressive)
      rounds hinv) ?_ (fun _ _ hf => hf)
    rintro - t' ⟨C', hl, h'⟩
    have happly : Call.apply cfg (.delete rounds key) S = written S key [] .delete := by
      funext k
      simp only [Call.apply, Call.writes, written, hvalid, and_true, OpType.isAbsent]
      by_cases hk : k = key
      · simp [hk]
      · simp [hk, Ne.symm hk]
    rw [happly]
    exact .write hS hl h'
  · have happly : Call.apply cfg (.delete rounds key) S = S := by
      funext k
      simp [Call.apply, Call.writes, hvalid]
    rw [happly]
    exact (wp_pure _).2 h

theorem read_spec (h : t.Keeps cfg S) (rounds : List Round) (key : Key) (out : List UInt8) :
    wp (read rounds key out)
      (fun r t' => ReadOk cfg S key r.1 r.2 ∧ t'.Keeps cfg S) (fun _ _ => False) t := by
  simp only [read, wp_bind, wp_get, h.config]
  refine wp_ite (fun hvalid => ?_) (fun hvalid => ?_)
  · obtain ⟨C, hinv, hS⟩ := h
    simp only [wp_bind, wp_pure]
    have hround : ∀ {C : Key → Option Value} {t : Tree} (env : AttemptEnv) (aggressive : Bool),
        t.Inv cfg C → wp (readInner env key out aggressive)
          (fun r t' => LeafEntry.ReadsAs C key r.1 r.2 ∧ t'.Inv cfg C)
          (fun _ t' => ∃ C', Loses cfg none C C' ∧ t'.Inv cfg C') t := fun {C t} env aggressive h =>
      wp_mono (readInner_spec h env (validKey_iff.1 hvalid).2.2 out aggressive)
        (fun _ _ h => h) fun _ _ h => ⟨C, .refl _ _ _, h⟩
    refine wp_mono (retry_spec
      (Q := fun C r t' => LeafEntry.ReadsAs C key r.1 r.2 ∧ t'.Inv cfg C) hround rounds hinv) ?_
      (fun _ _ hf => hf)
    rintro ⟨r, out'⟩ t' ⟨C', hl, hread, h'⟩
    have hkeeps : t'.Keeps cfg S := .lose hS hl h'
    refine ⟨?_, hkeeps⟩
    -- the map read is below the one expected
    have hbelow : (∀ v, C' key = some v → S key = some v) ∧
        (C' key = none → cfg.cacheOnly = true ∨ S key = none) := by
      cases hc : cfg.cacheOnly with
      | true =>
        rw [hc, if_pos rfl] at hS
        rw [loses_cacheOnly hc] at hl
        refine ⟨fun v hv => ?_, fun _ => .inl rfl⟩
        rcases hl key (by simp) with heq | hnone
        · exact hS key v (heq ▸ hv)
        · rw [hnone] at hv; cases hv
      | false =>
        rw [hc] at hS
        rw [loses_disk hc] at hl
        obtain rfl : C = S := hS
        subst hl
        exact ⟨fun v hv => hv, .inr⟩
    cases r with
    | found n => exact ⟨hvalid, hbelow.1 _ hread⟩
    | deleted => exact ⟨hvalid, hbelow.2 hread⟩
    | notFound => exact ⟨hvalid, hbelow.2 hread⟩
  · exact (wp_pure _).2 ⟨by simpa [ReadOk] using hvalid, h⟩

/-- A scan that has been opened stands where its start key is. -/
theorem newWithScanCount_spec (h : t.Inv cfg C) (rounds : List Round) (key : Key) (cnt : Nat)
    (field : ScanReturnField) :
    wp (newWithScanCount rounds key cnt field)
      (fun it t' => t'.Inv cfg C ∧ ∃ hi, it.Stands cfg C hi ∧
        (∀ k v, C k = some v → (it.Ahead hi k ↔ key ≤ k)) ∧ it.scanCnt = cnt ∧ it.endKey = none ∧
        it.returnField = field) (fun _ _ => False) t := by
  simp only [newWithScanCount, wp_bind, wp_pure]
  refine wp_mono (retry_keeps (Q := Placed cfg C key)
    (fun env aggressive h => moveCursorToLeaf_spec h env key aggressive) rounds h) ?_
    (fun _ _ hf => hf)
  rintro ⟨pos, page, nextKey⟩ t₁ ⟨h₁, lo, hi, hr, rfl, hcur⟩
  obtain ⟨hs, ha⟩ := @ScanIter.placed _ _ _ _ _ ⟨cnt, pos, page, field, none, nextKey⟩ hcur hr rfl
  exact ⟨h₁, _, hs, ha, trivial, trivial, trivial⟩

/-- The results are the records in their order, then none for ever. -/
def Yields (field : ScanReturnField) :
    List (Key × Value) → List (Option (Nat × Nat) × List UInt8) → Prop
  | _, [] => True
  | [], r :: rs => r.1 = none ∧ Yields field [] rs
  | x :: xs, r :: rs => (∃ lens, r.1 = some lens ∧ Returned field x lens r.2) ∧ Yields field xs rs

/-- The records that calls of `next` return, out of those that are left. -/
def expected (it : ScanIter) (R : List (Key × Value)) : List (Key × Value) :=
  if it.endKey = none then R.take it.scanCnt else R

/-- The number of records returned. -/
def found (rs : List (Option (Nat × Nat) × List UInt8)) : Nat :=
  (rs.filter fun r => r.1.isSome).length

theorem nexts_spec (cs : List NextCall) : ∀ {t : Tree} {it : ScanIter} {hi : Key}
    {R : List (Key × Value)}, t.Inv cfg C → it.Stands cfg C hi → it.Left C hi R →
    it.scanCnt < 2 ^ 64 → wp (nexts cs it)
      (fun r t' => t'.Inv cfg C ∧ Yields it.returnField (expected it R) r.1 ∧
        r.1.length = cs.length ∧
        (it.endKey = none ∨ R.length ≤ it.scanCnt → r.2.scanCnt + found r.1 ≤ it.scanCnt))
      (fun _ _ => False) t := by
  induction cs with
  | nil =>
    intro t it hi R h _ _ _
    exact (wp_pure _).2 ⟨h, by cases expected it R <;> trivial, rfl, fun _ => le_refl _⟩
  | cons c cs ih =>
    intro t it hi R h hs hl hcnt
    simp only [nexts, wp_bind, wp_pure]
    refine wp_mono (next_spec c.fuel c.moves c.outBuffer h hs hl) ?_ (fun _ _ hf => hf)
    rintro ⟨r, out, it'⟩ t₁ ⟨h₁, ⟨hi', R', hs', hl', hres⟩, hend, hfield⟩
    cases r with
    | none =>
      obtain ⟨hzero, rfl, hdone⟩ := hres
      have hexp : expected it R' = [] ∧ expected it' R' = [] := by
        rw [expected, expected, hend, hzero]
        rcases hdone with ⟨h0, hnone⟩ | rfl
        · simp [h0, hnone]
        · simp
      refine wp_mono (ih h₁ hs' hl' (by rw [hzero]; decide)) ?_ (fun _ _ hf => hf)
      rintro ⟨rs, it''⟩ t₂ ⟨h₂, hy, hlen, hsum⟩
      rw [hexp.2, hfield] at hy
      refine ⟨h₂, by rw [hexp.1]; exact ⟨rfl, hy⟩, by simpa using hlen, fun hle => ?_⟩
      have hsum' := hsum (by
        rcases hdone with ⟨-, hnone⟩ | rfl
        · exact .inl (hend.trans hnone)
        · exact .inr (Nat.zero_le _))
      rw [hzero] at hsum'
      simp only [found, List.filter_cons, Option.isSome_none, Bool.false_eq_true, if_false]
      exact hsum'.trans (Nat.zero_le _)
    | some lens =>
      obtain ⟨hgo, ⟨x, rfl, hret⟩, hdec⟩ := hres
      have hlt : it'.scanCnt < 2 ^ 64 := by rw [hdec]; exact Nat.mod_lt _ (by decide)
      -- the counter only wraps around if it does not limit the scan
      have hpred : 0 < it.scanCnt → it'.scanCnt = it.scanCnt - 1 := by
        intro hpos
        rw [hdec]
        omega
      have hexp : expected it (x :: R') = x :: expected it' R' := by
        rw [expected, expected, hend]
        by_cases hnone : it.endKey = none
        · have hpos : 0 < it.scanCnt := Nat.pos_of_ne_zero fun h0 => hgo ⟨h0, hnone⟩
          obtain ⟨n, hn⟩ : ∃ n, it.scanCnt = n + 1 := ⟨it.scanCnt - 1, by omega⟩
          rw [if_pos hnone, if_pos hnone, hpred hpos, hn]
          rfl
        · rw [if_neg hnone, if_neg hnone]
      refine wp_mono (ih h₁ hs' hl' hlt) ?_ (fun _ _ hf => hf)
      rintro ⟨rs, it''⟩ t₂ ⟨h₂, hy, hlen, hsum⟩
      rw [hfield] at hy
      refine ⟨h₂, by rw [hexp]; exact ⟨⟨lens, rfl, hret⟩, hy⟩, by simpa using hlen, fun hle => ?_⟩
      have hpos : 0 < it.scanCnt := by
        rcases hle with hnone | hle
        · exact Nat.pos_of_ne_zero fun h0 => hgo ⟨h0, hnone⟩
        · exact lt_of_lt_of_le (Nat.succ_pos _) hle
      have hsum' := hsum (by
        rcases hle with hnone | hle
        · exact .inl (hend.trans hnone)
        · refine .inr ?_
          rw [hpred hpos]
          rw [List.length_cons] at hle
          omega)
      rw [hpred hpos] at hsum'
      simp only [found, List.filter_cons, Option.isSome_some, if_true, List.length_cons]
      simp only [found] at hsum'
      omega

/-- The keys that a scan from `startKey` covers. -/
def ScanLimit.Covers (limit : ScanLimit) (startKey k : Key) : Prop :=
  match limit with
  | .count _ => startKey ≤ k
  | .endKey e => startKey ≤ k ∧ k ≤ e

/-- The value that `scan_cnt` starts with. -/
def ScanLimit.start : ScanLimit → Nat
  | .count cnt => cnt
  | .endKey _ => 2 ^ 64 - 1

theorem ScanLimit.start_lt (limit : ScanLimit) : limit.start < 2 ^ 64 := by
  cases limit with
  | count cnt => exact cnt.isLt
  | endKey e => exact (by decide : 2 ^ 64 - 1 < 2 ^ 64)

theorem openIter_spec (h : t.Inv cfg C) (rounds : List Round) (startKey : Key) (limit : ScanLimit)
    (field : ScanReturnField) :
    wp (openIter rounds startKey limit field)
      (fun it t' => t'.Inv cfg C ∧ ∃ hi, it.Stands cfg C hi ∧
        (∀ R, Enumerates (limit.Covers startKey) C R → it.Left C hi R) ∧
        it.scanCnt = limit.start ∧ it.returnField = field ∧
        (it.endKey = none ↔ ∃ cnt, limit = .count cnt)) (fun _ _ => False) t := by
  cases limit with
  | count cnt =>
    refine wp_mono (newWithScanCount_spec h rounds startKey cnt field) ?_ (fun _ _ hf => hf)
    rintro it t₁ ⟨h₁, hi, hs, ha, hcnt, hend, hfield⟩
    refine ⟨h₁, hi, hs, fun R hR => hR.congr fun k v hv => ?_, hcnt, hfield, by simp [hend]⟩
    have hbound : WithinBound none k := fun e he => by cases he
    rw [ha k v hv, ScanLimit.Covers, hend]
    exact and_iff_left hbound
  | endKey endKey =>
    simp only [openIter, newWithEndKey, wp_bind, wp_pure]
    refine wp_mono (newWithScanCount_spec h rounds startKey _ field) ?_ (fun _ _ hf => hf)
    rintro it t₁ ⟨h₁, hi, hs, ha, hcnt, hend, hfield⟩
    refine ⟨h₁, hi, ⟨hs.sibling, hs.page⟩, fun R hR => hR.congr fun k v hv => ?_, hcnt, hfield,
      by simp⟩
    have hbound : WithinBound (some endKey) k ↔ k ≤ endKey :=
      ⟨fun hb => hb endKey rfl, fun hle e he => by cases he; exact hle⟩
    rw [hbound, ScanLimit.Covers]
    exact and_congr_left fun _ => ha k v hv

theorem openScan_spec (h : t.Inv cfg C) (rounds : List Round) (startKey : Key) (limit : ScanLimit)
    (field : ScanReturnField) :
    wp (openScan rounds startKey limit field)
      (fun r t' => t'.Inv cfg C ∧ ∀ it, r = .ok it → ∃ hi, it.Stands cfg C hi ∧
        (∀ R, Enumerates (limit.Covers startKey) C R → it.Left C hi R) ∧
        it.scanCnt = limit.start) (fun _ _ => False) t := by
  have herr : ∀ e : ScanIterError, wp (pure (.error e) : M (Except ScanIterError ScanIter))
      (fun r t' => t'.Inv cfg C ∧ ∀ it, r = .ok it → ∃ hi, it.Stands cfg C hi ∧
        (∀ R, Enumerates (limit.Covers startKey) C R → it.Left C hi R) ∧
        it.scanCnt = limit.start) (fun _ _ => False) t :=
    fun e => (wp_pure _).2 ⟨h, fun it hit => by cases hit⟩
  have hopen : wp (openIter rounds startKey limit field)
      (fun a => wp (pure (.ok a) : M (Except ScanIterError ScanIter))
        (fun r t' => t'.Inv cfg C ∧ ∀ it, r = .ok it → ∃ hi, it.Stands cfg C hi ∧
          (∀ R, Enumerates (limit.Covers startKey) C R → it.Left C hi R) ∧
          it.scanCnt = limit.start) (fun _ _ => False)) (fun _ _ => False) t := by
    refine wp_mono (openIter_spec h rounds startKey limit field) ?_ (fun _ _ hf => hf)
    rintro it t₁ ⟨h₁, hi, hs, hleft, hcnt, -⟩
    exact (wp_pure _).2 ⟨h₁, fun it' hit => by cases hit; exact ⟨hi, hs, hleft, hcnt⟩⟩
  cases limit with
  | count cnt =>
    simp only [openScan, scanWithCount, wp_bind, wp_get]
    exact wp_ite (fun _ => herr _) fun _ => wp_ite (fun _ => herr _) fun _ =>
      (wp_bind _ _).2 hopen
  | endKey endKey =>
    simp only [openScan, scanWithEndKey, wp_bind, wp_get]
    exact wp_ite (fun _ => herr _) fun _ => wp_ite (fun _ => herr _) fun _ =>
      wp_ite (fun _ => herr _) fun _ => (wp_bind _ _).2 hopen

theorem call_spec (h : t.Keeps cfg S) (c : Call) :
    wp (call c) (fun r t' => ReplyOk cfg S c r ∧ t'.Keeps cfg (c.apply cfg S))
      (fun _ _ => False) t := by
  cases c with
  | insert rounds key value =>
    simp only [call, wp_bind, wp_pure]
    exact insert_spec h rounds key value
  | delete rounds key =>
    simp only [call, wp_bind, wp_pure]
    exact wp_mono (delete_spec h rounds key) (fun _ _ h' => ⟨trivial, h'⟩) fun _ _ hf => hf
  | read rounds key out =>
    simp only [call, wp_bind, wp_pure]
    exact read_spec h rounds key out
  | scan rounds startKey limit field nextCalls =>
    obtain ⟨C, hinv, hS⟩ := h
    simp only [call, wp_bind]
    refine wp_mono (openScan_spec hinv rounds startKey limit field) ?_ (fun _ _ hf => hf)
    rintro r t₁ ⟨h₁, hopen⟩
    cases r with
    | error e => exact (wp_pure _).2 ⟨trivial, C, h₁, hS⟩
    | ok it =>
      obtain ⟨hi, hs, hleft, hcnt⟩ := hopen it rfl
      obtain ⟨R, hR, -⟩ := Enumerates.exists_of_keys (fun k hk => hinv.mem_keys hk)
        (limit.Covers startKey)
      simp only [wp_bind, wp_pure]
      refine wp_mono (nexts_spec nextCalls h₁ hs (hleft R hR) (hcnt ▸ limit.start_lt)) ?_
        (fun _ _ hf => hf)
      rintro rs t₂ ⟨h₂, -⟩
      exact ⟨trivial, C, h₂, hS⟩
  | evict evictions =>
    obtain ⟨C, hinv, hS⟩ := h
    simp only [call, wp_bind, wp_pure, wp_ignore]
    refine (evictFromCircularBuffer_spec evictions hinv).mono ?_
    rintro t' ⟨C', hl, h'⟩
    exact ⟨trivial, .lose hS hl h'⟩

/-- The replies of a run, each with the map of the calls before it. -/
theorem run_spec (calls : List Call) : ∀ {S : Key → Option Value} {t : Tree}, t.Keeps cfg S →
    wp (run calls)
      (fun replies t' => t'.Keeps cfg (calls.foldl (fun S c => c.apply cfg S) S) ∧
        ∀ (i : Nat) (c : Call), calls[i]? = some c → ∃ r, replies[i]? = some r ∧
          ReplyOk cfg ((calls.take i).foldl (fun S c => c.apply cfg S) S) c r)
      (fun _ _ => False) t := by
  induction calls with
  | nil => intro S t h; exact (wp_pure _).2 ⟨h, by simp⟩
  | cons c calls ih =>
    intro S t h
    simp only [run, wp_bind, wp_pure]
    refine wp_mono (call_spec h c) ?_ (fun _ _ hf => hf)
    rintro r t₁ ⟨hr, h₁⟩
    refine wp_mono (ih h₁) ?_ (fun _ _ hf => hf)
    rintro rs t₂ ⟨h₂, hrs⟩
    refine ⟨h₂, fun i c' hi => ?_⟩
    cases i with
    | zero =>
      obtain rfl : c = c' := Option.some.inj hi
      exact ⟨r, rfl, hr⟩
    | succ i => exact hrs i c' hi

theorem foldl_apply (cfg : Config) (calls : List Call) :
    calls.foldl (fun S c => c.apply cfg S) (fun _ => none) = lastWrite cfg calls := by
  induction calls using List.reverseRecOn with
  | nil => rfl
  | append_singleton calls c ih =>
    funext key
    rw [List.foldl_append, List.foldl_cons, List.foldl_nil, ih, lastWrite_append]

/-- The reply to the `i`-th call, with the map of the calls before it. -/
theorem session_reply {ver : Nat} {calls : List Call} {replies : List Reply}
    (h : session cfg ver calls = some replies) {i : Nat} {c : Call} (hcall : calls[i]? = some c) :
    ∃ r, replies[i]? = some r ∧ ReplyOk cfg (lastWrite cfg (calls.take i)) c r := by
  simp only [session, Option.bind_eq_bind, Option.bind_eq_some_iff] at h
  obtain ⟨new, hnew, t₀, ht₀, ⟨rs, t⟩, hrun, hrs⟩ := h
  cases new with
  | error e => cases ht₀
  | ok t₁ =>
    obtain rfl : t₁ = t₀ := Option.some.inj ht₀
    cases rs with
    | error e => cases hrs
    | ok rs =>
      obtain rfl : rs = replies := Option.some.inj hrs
      have := ((run_spec calls (withConfig_keeps hnew)).1 rs t hrun).2 i c hcall
      rwa [foldl_apply] at this

/-- A disk-backed tree is a map: a read returns the value of the last accepted write. -/
theorem disk_read_returns_last_write {cfg : Config} {ver : Nat} {calls : List Call}
    {replies : List Reply} (h : session cfg ver calls = some replies)
    (hdisk : cfg.cacheOnly = false) {i : Nat} {rounds : List Round} {key : Key} {out : List UInt8}
    (hcall : calls[i]? = some (.read rounds key out)) :
    ∃ r out', replies[i]? = some (.read r out') ∧
      if validKey cfg key then
        (∀ v, (∃ n, r = .leaf (.found n) ∧ out'.take n = v) ↔
          lastWrite cfg (calls.take i) key = some v) ∧
        (r = .leaf .deleted ∨ r = .leaf .notFound ↔ lastWrite cfg (calls.take i) key = none)
      else r = .invalidKey := by
  obtain ⟨reply, hreply, hok⟩ := session_reply h hcall
  cases reply with
  | read r out' =>
    refine ⟨r, out', hreply, ?_⟩
    simp only [ReplyOk, ReadOk, hdisk, Bool.false_eq_true, false_or] at hok
    split at hok
    · next n => simp [hok.1, hok.2]
    · simp [hok.1, hok.2]
    · simp [hok.1, hok.2]
    · simp [hok]
  | insert r => exact hok.elim
  | delete => exact hok.elim
  | scan r => exact hok.elim
  | evict => exact hok.elim

/-- An attempt in which nothing fails, and nothing is promoted. -/
def calm : AttemptEnv where
  descent := true
  splitGuard := some .unprotected
  splitCurUpgrade := true
  splitParentUpgrade := true
  splitAlloc := true
  leaf := ⟨some .unprotected, some .unprotected, none, none, none, none⟩
  aboutToEvict := false
  move := ⟨some .unprotected, some .unprotected, none, none, none, none⟩
  leafUpgrade := true
  promote := false

/-- Two inserts, a read, a delete and a read of the same key. -/
def sampleCalls : List Call :=
  let rounds : List Round := [⟨calm, []⟩]
  [.insert rounds [1, 2] [3, 4], .insert rounds [1, 2] [5, 6], .read rounds [1, 2] [0, 0, 0],
    .delete rounds [1, 2], .read rounds [1, 2] [0, 0, 0]]

/-- What they are answered. -/
def sampleReplies : List Reply :=
  [.insert .success, .insert .success, .read (.leaf (.found 2)) [5, 6, 0], .delete,
    .read (.leaf .deleted) [0, 0, 0]]

theorem disk_read_returns_last_write_sample :
    session Config.default 0 sampleCalls = some sampleReplies ∧
      ∃ r out', sampleReplies[2]? = some (.read r out') ∧
        ∃ n, r = .leaf (.found n) ∧ out'.take n = [5, 6] := by
  have h : session Config.default 0 sampleCalls = some sampleReplies := by decide +kernel
  obtain ⟨r, out', hr, hread⟩ := disk_read_returns_last_write h rfl
    (rfl : sampleCalls[2]? = some (.read [⟨calm, []⟩] [1, 2] [0, 0, 0]))
  rw [if_pos (by decide)] at hread
  exact ⟨h, r, out', hr, (hread.1 [5, 6]).2 (by decide)⟩

/-- A value that is found is the last one written, in cache-only mode too. -/
theorem read_never_stale {cfg : Config} {ver : Nat} {calls : List Call} {replies : List Reply}
    (h : session cfg ver calls = some replies) {i : Nat} {rounds : List Round} {key : Key}
    {out : List UInt8} (hcall : calls[i]? = some (.read rounds key out)) {n : Nat}
    {out' : List UInt8} (hfound : replies[i]? = some (.read (.leaf (.found n)) out')) :
    lastWrite cfg (calls.take i) key = some (out'.take n) := by
  obtain ⟨reply, hreply, hok⟩ := session_reply h hcall
  obtain rfl : _ = reply := Option.some.inj (hfound.symm.trans hreply)
  exact hok.2

theorem read_never_stale_sample :
    session { Config.default with cacheOnly := true } 0 sampleCalls = some sampleReplies ∧
      lastWrite { Config.default with cacheOnly := true } (sampleCalls.take 2) [1, 2] = some [5, 6] := by
  have h : session { Config.default with cacheOnly := true } 0 sampleCalls = some sampleReplies := by
    decide +kernel
  exact ⟨h, read_never_stale h
    (rfl : sampleCalls[2]? = some (.read [⟨calm, []⟩] [1, 2] [0, 0, 0]))
    (rfl : sampleReplies[2]? = some (.read (.leaf (.found 2)) [5, 6, 0]))⟩

end Tree

end BfTree
