import BfTree.Utils.RwLockSpec

/-!
# BfTree.Utils.RwLockSafety — mutual exclusion and no lost wake-up

Along every interleaving a write guard is alone, and a read guard that is upgraded becomes the
write guard at once. No wake-up is lost as long as the wake counter, a `u32`, does not go all
the way round between a writer's load of it and its wait. If it does, the writer takes the old
count for the newest one and sleeps beside a free lock.
-/

namespace BfTree

open Lib

namespace RwLockSys

variable {T : Type} {s s' : RwLockSys T}

theorem role_eq_reading {pc : RwPc} : pc.role = .reading ↔ pc = .reading := by
  cases pc <;> simp [RwPc.role]

theorem role_eq_writing {pc : RwPc} : pc.role = .writing ↔ pc = .writing := by
  cases pc <;> simp [RwPc.role]

theorem role_eq_waiting {pc : RwPc} {w : Nat} : pc.role = .waiting w ↔ pc = .writeWait w := by
  cases pc <;> simp [RwPc.role]

theorem noWrap_view (h : s.NoWrap) : s.view.NoWrap :=
  fun i w hi => h i w (role_eq_waiting.1 hi)

/-! ## All reachable states -/

theorem alive_new : (new T).view.Alive where
  marked h := by simp [view, new] at h
  readAsleep := by simp [view, new, RwPc.role]
  loaded := by simp [view, new, RwPc.role]
  waiting := by simp [view, new, RwPc.role]
  writeAsleep := by simp [view, new, RwPc.role]

variable [Fintype T]

theorem readers_view (s : RwLockSys T) : s.view.readers = s.readers :=
  countOf_congr fun _ => role_eq_reading

theorem readers_le_card (s : RwLockSys T) : s.readers ≤ Fintype.card T :=
  Finset.card_le_univ _

theorem guarded_new : (new T).view.Guarded := by
  have hr : (new T).view.readers = 0 := by
    simp [RwView.readers, countOf, view, new, RwPc.role]
  have hw : (new T).view.writers = 0 := by
    simp [RwView.writers, countOf, view, new, RwPc.role]
  rw [RwView.Guarded, hr, hw]
  exact .inr ⟨rfl, .inl rfl⟩

variable [DecidableEq T] {P : RwLockSys T → Prop}

theorem Reach.guarded (h : Reach P s) (hreaders : ∀ s, P s → s.readers < 2 ^ 30) :
    s.view.Guarded ∧ s.view.readers < 2 ^ 30 := by
  induction h with
  | new hP => exact ⟨guarded_new, by rw [readers_view]; exact hreaders _ hP⟩
  | step h hstep hP ih =>
    have hlt := hreaders _ hP
    rw [← readers_view] at hlt
    exact ⟨ih.1.step hstep.view hlt, hlt⟩

omit [Fintype T] in
theorem Reach.property (h : Reach P s) : P s := by
  cases h with
  | new hP => exact hP
  | step _ _ hP => exact hP

theorem Reach.alive (h : Reach P s) (hreaders : ∀ s, P s → s.readers < 2 ^ 30)
    (hwrap : ∀ s, P s → s.NoWrap) : s.view.Alive := by
  induction h with
  | new => exact alive_new
  | step h hstep _ ih =>
    obtain ⟨hg, hlt⟩ := h.guarded hreaders
    exact ih.step hg hlt (noWrap_view (hwrap _ h.property)) hstep.view

omit [DecidableEq T] in
/-- A write guard is alone. -/
theorem not_holds_of_writing (h : s.view.Guarded) {i j : T} (hij : i ≠ j)
    (hi : s.pcs i = .writing) : ¬ (s.pcs j).holds := by
  have hwriters : 0 < s.view.writers := countOf_pos.2 ⟨i, role_eq_writing.2 hi⟩
  rw [RwView.Guarded, GuardedBy] at h
  rintro (hj | hj)
  · have hreaders : 0 < s.view.readers := countOf_pos.2 ⟨j, role_eq_reading.2 hj⟩
    omega
  · have hone : s.view.writers ≤ 1 := by omega
    exact hij (eq_of_countOf_le_one hone (role_eq_writing.2 hi) (role_eq_writing.2 hj))

omit [DecidableEq T] in
/-- With the word at 2 there is one read guard and no other. -/
theorem not_holds_of_word_eq_two (h : s.view.Guarded) (hword : s.word = 2) {i j : T} (hij : i ≠ j)
    (hi : s.pcs i = .reading) : ¬ (s.pcs j).holds := by
  have hview : s.view.word = 2 := hword
  rw [RwView.Guarded, GuardedBy, hview, writeLocked] at h
  rintro (hj | hj)
  · have hone : s.view.readers ≤ 1 := by omega
    exact hij (eq_of_countOf_le_one hone (role_eq_reading.2 hi) (role_eq_reading.2 hj))
  · have hwriters : 0 < s.view.writers := countOf_pos.2 ⟨j, role_eq_writing.2 hj⟩
    omega

theorem afterWakeOne_ne_writing {pc pc' : RwPc} (h : pc.afterWakeOne = some pc') : pc' ≠ .writing := by
  cases pc <;> cases h <;> nofun

omit [Fintype T] in
/-- Only its own compare-exchange turns a read guard into a write guard. -/
theorem Step.upgrade (h : Step s s') {i : T} (hi : s.pcs i = .reading) (hi' : s'.pcs i = .writing) :
    s.word = 2 ∧ ∀ j, j ≠ i → s'.pcs j = s.pcs j := by
  cases h with
  | run k h =>
    have hki : k = i := by
      by_contra hne
      simp [Function.update_of_ne (Ne.symm hne), hi] at hi'
    subst hki
    simp only [Function.update_self] at hi'
    subst hi'
    have hrole := RwPc.localStep_role h
    rw [hi] at hrole
    cases hrole with
    | upgrade hword => exact ⟨hword, fun j hj => Function.update_of_ne hj _ _⟩
  -- waking others gives nobody a guard
  | wakeOne k j h hj =>
    simp only [Function.update_apply, hi] at hi'
    split at hi'
    · exact absurd hi' (afterWakeOne_ne_writing h)
    · split at hi' <;> cases hi'
  | wakeNone k h hnone =>
    simp only [Function.update_apply, hi] at hi'
    split at hi'
    · exact absurd hi' (afterWakeOne_ne_writing h)
    · cases hi'
  | wakeAll k h =>
    simp only [Function.update_apply, hi] at hi'
    split at hi' <;> cases hi'

omit [Fintype T] [DecidableEq T] in
/-- In a lost state nobody has a role but those of the sleepers. -/
theorem Lost.role (h : s.Lost) (i : T) : (s.pcs i).role = .away ∨
    (s.pcs i).role = .readAsleep ∨ (s.pcs i).role = .writeAsleep := by
  rcases h.1 i with hi | hi | hi <;> simp [hi, RwPc.role]

omit [DecidableEq T] in
theorem Lost.guards (h : s.Lost) : s.view.readers = 0 ∧ s.view.writers = 0 := by
  constructor
  all_goals
    by_contra hne
    obtain ⟨i, hi⟩ := countOf_pos.1 (Nat.pos_of_ne_zero hne)
    have hrole := h.role i
    simp_all [view]

omit [DecidableEq T] in
/-- **No wake-up is lost.** -/
theorem not_lost (hg : s.view.Guarded) (halive : s.view.Alive) : ¬ s.Lost := by
  intro h
  obtain ⟨hreaders, hwriters⟩ := h.guards
  rw [RwView.Guarded, GuardedBy, hreaders, hwriters] at hg
  have hbusy : ¬ Busy s.view.word := by
    rw [Busy]
    omega
  have hwriter : ∀ i, s.pcs i ≠ .writeAsleep := by
    intro i hi
    rcases halive.writeAsleep ⟨i, role_eq_writeAsleep.2 hi⟩ with hb | ⟨j, hj⟩
    · exact hbusy hb
    · rcases h.role j with hr | hr | hr <;> simp [view, hr, RwRole.stirs] at hj
  obtain ⟨i, hi | hi⟩ := h.2
  · rcases halive.readAsleep ⟨i, by simp [view, hi, RwPc.role]⟩ with hodd | ⟨j, hj⟩
    · -- the word is 1: whoever marked it is still inside `write`, and asleep
      obtain ⟨j, hj⟩ := halive.marked hodd (by rw [writeLocked]; omega)
      rcases h.1 j with hidle | hsleep | hsleep
      · simp [view, hidle, RwPc.role, RwRole.inWrite] at hj
      · simp [view, hsleep, RwPc.role, RwRole.inWrite] at hj
      · exact hwriter j hsleep
    · rcases h.role j with hr | hr | hr <;> simp [view, hr, RwRole.owesReaders] at hj
  · exact hwriter i hi

/-! ## Two threads -/

/-- Two threads, by what each of them does next. -/
def duo (a b : RwPc) : Bool → RwPc := fun i => if i then b else a

theorem update_duo_false (a b a' : RwPc) : Function.update (duo a b) false a' = duo a' b := by
  funext i
  cases i <;> simp [duo]

theorem update_duo_true (a b b' : RwPc) : Function.update (duo a b) true b' = duo a b' := by
  funext i
  cases i <;> simp [duo]

section Duo

variable {P : RwLockSys Bool → Prop} {a b a' b' : RwPc} {word adds word' adds' : Nat}

theorem Reach.left (h : Reach P ⟨word, adds, duo a b⟩) (call : RwCall)
    (hstep : a.localStep call false false word adds = some (a', word', adds'))
    (hP : P ⟨word', adds', duo a' b⟩) : Reach P ⟨word', adds', duo a' b⟩ := by
  have hrun := Step.run (s := ⟨word, adds, duo a b⟩) false hstep
  rw [update_duo_false] at hrun
  exact .step h hrun hP

theorem Reach.right (h : Reach P ⟨word, adds, duo a b⟩) (call : RwCall)
    (hstep : b.localStep call false false word adds = some (b', word', adds'))
    (hP : P ⟨word', adds', duo a b'⟩) : Reach P ⟨word', adds', duo a b'⟩ := by
  have hrun := Step.run (s := ⟨word, adds, duo a b⟩) true hstep
  rw [update_duo_true] at hrun
  exact .step h hrun hP

/-- The wake-up of one writer finds the other thread awake. -/
theorem Reach.leftWakeNone (h : Reach P ⟨word, adds, duo a b⟩) (hstep : a.afterWakeOne = some a')
    (hb : b ≠ .writeAsleep) (hP : P ⟨word, adds, duo a' b⟩) : Reach P ⟨word, adds, duo a' b⟩ := by
  have hnone : ∀ j, duo a b j ≠ .writeAsleep := by
    intro j hj
    cases j
    · rw [show a = .writeAsleep from hj] at hstep
      cases hstep
    · exact hb hj
  have hwake := Step.wakeNone (s := ⟨word, adds, duo a b⟩) false hstep hnone
  rw [update_duo_false] at hwake
  exact .step h hwake hP

/-- Beside the read guard of the one, the other is about to wait for a write guard. -/
theorem Reach.waitingBesideReader (hP : ∀ s, s.adds = 0 → P s) :
    Reach P ⟨3, 0, duo .reading (.writeWait 0)⟩ := by
  have hnew : Reach P ⟨0, 0, duo .idle .idle⟩ := by
    have hduo : duo .idle .idle = fun _ => .idle := by
      funext i
      cases i <;> rfl
    rw [hduo]
    exact .new (hP _ rfl)
  have hread := ((hnew.left .tryRead rfl (hP _ rfl)).left .tryRead rfl (hP _ rfl)).left .tryRead rfl
    (hP _ rfl)
  exact ((((hread.right .write rfl (hP _ rfl)).right .write rfl (hP _ rfl)).right .write rfl
    (hP _ rfl)).right .write rfl (hP _ rfl)).right .write rfl (hP _ rfl)

/-- The lock is free and the counter has the value `adds`, while a writer is about to wait for
the counter to leave the value 0. -/
theorem Reach.waitingBesideFree (hP : ∀ s, P s) : ∀ adds, 0 < adds →
    ∃ word ≤ 1, Reach P ⟨word, adds, duo .idle (.writeWait 0)⟩
  | 0, h => absurd h (Nat.lt_irrefl 0)
  | 1, _ =>
    -- the reader drops its guard
    have hdrop := ((Reach.waitingBesideReader fun s _ => hP s).left .read rfl (hP _)).left .read rfl
      (hP _)
    ⟨1, le_rfl, hdrop.leftWakeNone rfl (by simp) (hP _)⟩
  | adds + 2, _ => by
    -- and takes and drops write guards
    obtain ⟨word, hle, h⟩ := waitingBesideFree hP (adds + 1) (Nat.succ_pos adds)
    have hload := h.left .tryWrite rfl (hP _)
    have hcas : Reach P ⟨word, adds + 1, duo (.tryWriteCas ⟨word, hle⟩) (.writeWait 0)⟩ :=
      hload.left .tryWrite (by simp [RwPc.enter, RwPc.localStep, hle]) (hP _)
    have htake : Reach P ⟨writeLocked, adds + 1, duo .writing (.writeWait 0)⟩ :=
      hcas.left .tryWrite (by simp [RwPc.localStep]) (hP _)
    have hadd := (htake.left .tryWrite rfl (hP _)).left .tryWrite rfl (hP _)
    have hwake := hadd.leftWakeNone rfl (by simp) (hP _)
    have hall := Step.wakeAll (s := ⟨0, adds + 2, duo .dropWriteWakeAll (.writeWait 0)⟩) false rfl
    have hduo : Function.update (fun j => (duo .dropWriteWakeAll (.writeWait 0) j).wokenByWord) false
        .idle = duo .idle (.writeWait 0) := by
      funext i
      cases i <;> simp [duo, RwPc.wokenByWord]
    rw [hduo] at hall
    exact ⟨0, Nat.zero_le 1, .step hwake hall (hP _)⟩

end Duo

/-! ## Every interleaving -/

/-- **The lock excludes, upgrades in place and wakes.** Of fewer than 2³⁰ readers and any number
of writers, in every state of every interleaving: a write guard is the only guard; beside a read
guard there is no write guard, and when it is upgraded no other guard is there before or after;
and if no writer that is about to wait has seen the wake counter go all the way round, it is not
the case that all threads are idle or asleep and some are asleep. -/
theorem Reach.lock_safe (h : Reach P s) (hreaders : ∀ s, P s → s.readers < 2 ^ 30) :
    (∀ i j, i ≠ j → s.pcs i = .writing → ¬ (s.pcs j).holds) ∧
    (∀ i, s.pcs i = .reading → (∀ j, s.pcs j ≠ .writing) ∧
      ∀ s', Step s s' → s'.pcs i = .writing →
        ∀ j, j ≠ i → ¬ (s.pcs j).holds ∧ ¬ (s'.pcs j).holds) ∧
    ((∀ s, P s → s.NoWrap) → ¬ s.Lost) := by
  have hg := (h.guarded hreaders).1
  refine ⟨fun i j => not_holds_of_writing hg, fun i hi => ⟨fun j hj => ?_, ?_⟩, fun hwrap => ?_⟩
  · have hji : j ≠ i := by
      rintro rfl
      simp [hi] at hj
    exact not_holds_of_writing hg hji hj (.inl hi)
  · intro s' hstep hi' j hji
    obtain ⟨hword, hsame⟩ := hstep.upgrade hi hi'
    rw [hsame j hji]
    have halone := not_holds_of_word_eq_two hg hword hji.symm hi
    exact ⟨halone, halone⟩
  · exact not_lost hg (h.alive hreaders hwrap)


/-- A writer sleeps beside the only read guard. -/
theorem Reach.lock_safe_sleeping_writer :
    (∀ i j, i ≠ j → duo .reading .writeAsleep i = .writing → ¬ (duo .reading .writeAsleep j).holds) ∧
      ¬ Lost ⟨3, 0, duo .reading .writeAsleep⟩ := by
  let P : RwLockSys Bool → Prop := fun s => s.readers < 2 ^ 30 ∧ s.NoWrap
  have hP : ∀ s, s.adds = 0 → P s := by
    intro s hs
    have hle := s.readers_le_card
    rw [Fintype.card_bool] at hle
    refine ⟨by omega, fun i w _ => ?_⟩
    omega
  have hreach : Reach P ⟨3, 0, duo .reading .writeAsleep⟩ :=
    (Reach.waitingBesideReader hP).right .write rfl (hP _ rfl)
  obtain ⟨hexclusive, _, hlost⟩ := Reach.lock_safe hreach fun s hs => hs.1
  exact ⟨hexclusive, hlost fun s hs => hs.2⟩

/-- After 2³² increments the counter has its old value, and the writer that had loaded it goes to
sleep while nobody holds the lock and nobody is left to wake it. -/
theorem writer_sleeps_beside_free_lock :
    ∃ s : RwLockSys Bool, Reach (fun s => s.readers < 2 ^ 30) s ∧ s.Lost := by
  have hP : ∀ s : RwLockSys Bool, s.readers < 2 ^ 30 := by
    intro s
    have hle := s.readers_le_card
    rw [Fintype.card_bool] at hle
    omega
  obtain ⟨word, -, h⟩ := Reach.waitingBesideFree hP (2 ^ 32) (by decide)
  have hsleep : Reach _ ⟨word, 2 ^ 32, duo .idle .writeAsleep⟩ :=
    h.right .write (by simp [RwPc.localStep]) (hP _)
  refine ⟨_, hsleep, ?_, true, .inr rfl⟩
  intro i
  cases i
  · exact .inl rfl
  · exact .inr (.inr rfl)

end RwLockSys

end BfTree
