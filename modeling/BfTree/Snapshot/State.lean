import Mathlib

/-!
# Snapshot states

A snapshot runs through the phases rest, prepare, in-progress and sweep. The
global state and every thread-local state are one `u64`: the phase id in the top
three bits, the version in the other 61.
-/

namespace BfTree

inductive PhaseId where
  | rest
  | prepare
  | inProgress
  | sweep
deriving DecidableEq, Repr

namespace PhaseId

/-- `from_raw`; `none` is its panic on an invalid id. -/
def fromRaw : Nat → Option PhaseId
  | 0 => some rest
  | 1 => some prepare
  | 2 => some inProgress
  | 3 => some sweep
  | _ => none

def asRaw : PhaseId → Nat
  | rest => 0
  | prepare => 1
  | inProgress => 2
  | sweep => 3

@[simp] theorem fromRaw_asRaw (p : PhaseId) : fromRaw p.asRaw = some p := by
  cases p <;> rfl

theorem asRaw_lt (p : PhaseId) : p.asRaw < 4 := by
  cases p <;> decide

end PhaseId

def invalidSnapshotState : Nat := 2 ^ 64 - 1
def snapshotStatePhaseIdShift : Nat := 61
def snapshotStatePhaseNum : Nat := 4
def snapshotStatePhaseIdMask : Nat := 7 <<< snapshotStatePhaseIdShift
def snapshotStateVersionMask : Nat := 2 ^ snapshotStatePhaseIdShift - 1

/-- `new_snapshot_state`; `none` is one of its two assertions failing. -/
def newSnapshotState (phaseId version : Nat) : Option Nat :=
  if phaseId < snapshotStatePhaseNum ∧ version < 2 ^ snapshotStatePhaseIdShift then
    some (phaseId <<< snapshotStatePhaseIdShift ||| version)
  else none

/-- The version part of a state word. -/
def wordVersion (word : Nat) : Nat :=
  word &&& snapshotStateVersionMask

/-- The phase part of a state word. -/
def wordPhaseId (word : Nat) : Option PhaseId :=
  PhaseId.fromRaw ((word &&& snapshotStatePhaseIdMask) >>> snapshotStatePhaseIdShift)

/-- A phase and a version, as one state word stores them. -/
@[ext] structure SnapshotState where
  phase : PhaseId
  version : Nat
deriving DecidableEq, Repr

namespace SnapshotState

/-- The state `advance_global_state` moves to. -/
def next (s : SnapshotState) : SnapshotState :=
  match s.phase with
  | .rest => ⟨.prepare, s.version⟩
  | .prepare => ⟨.inProgress, s.version + 1⟩
  | .inProgress => ⟨.sweep, s.version⟩
  | .sweep => ⟨.rest, s.version⟩

def encode (s : SnapshotState) : Option Nat :=
  newSnapshotState s.phase.asRaw s.version

def decode (word : Nat) : Option SnapshotState := do
  let phase ← wordPhaseId word
  return ⟨phase, wordVersion word⟩

theorem newSnapshotState_eq_some {phaseId version word : Nat} :
    newSnapshotState phaseId version = some word ↔
      phaseId < 4 ∧ version < 2 ^ 61 ∧ word = phaseId * 2 ^ 61 + version := by
  have hor (hv : version < 2 ^ 61) : phaseId <<< 61 ||| version = phaseId * 2 ^ 61 + version := by
    rw [← Nat.shiftLeft_add_eq_or_of_lt hv, Nat.shiftLeft_eq]
  rw [newSnapshotState, Option.ite_none_right_eq_some, and_assoc, Option.some.injEq]
  refine and_congr_right fun _ => and_congr_right fun hv => ?_
  exact (eq_comm.trans (by rw [snapshotStatePhaseIdShift, hor hv]))

theorem encode_eq_some {s : SnapshotState} {word : Nat} :
    s.encode = some word ↔
      s.version < 2 ^ 61 ∧ word = s.phase.asRaw * 2 ^ 61 + s.version := by
  simp only [encode, newSnapshotState_eq_some, s.phase.asRaw_lt, true_and]

theorem wordVersion_eq (word : Nat) : wordVersion word = word % 2 ^ 61 :=
  Nat.and_two_pow_sub_one_eq_mod word 61

theorem wordPhaseId_eq (word : Nat) :
    wordPhaseId word = PhaseId.fromRaw (word / 2 ^ 61 % 8) := by
  have hmask : snapshotStatePhaseIdMask >>> snapshotStatePhaseIdShift = 2 ^ 3 - 1 := by decide
  rw [wordPhaseId, Nat.shiftRight_and_distrib, hmask, Nat.and_two_pow_sub_one_eq_mod,
    snapshotStatePhaseIdShift, Nat.shiftRight_eq_div_pow]

/-- A state word reads back as the state it was made of. -/
theorem decode_encode {s : SnapshotState} {word : Nat} (h : s.encode = some word) :
    decode word = some s := by
  obtain ⟨hv, rfl⟩ := encode_eq_some.mp h
  have hphase := s.phase.asRaw_lt
  have hdiv : (s.phase.asRaw * 2 ^ 61 + s.version) / 2 ^ 61 % 8 = s.phase.asRaw := by omega
  have hmod : (s.phase.asRaw * 2 ^ 61 + s.version) % 2 ^ 61 = s.version := by omega
  rw [decode, wordPhaseId_eq, wordVersion_eq, hdiv, hmod, PhaseId.fromRaw_asRaw]
  rfl

theorem encode_ne_invalid {s : SnapshotState} {word : Nat} (h : s.encode = some word) :
    word ≠ invalidSnapshotState := by
  obtain ⟨hv, rfl⟩ := encode_eq_some.mp h
  have hphase := s.phase.asRaw_lt
  rw [invalidSnapshotState]
  omega

/-- One state is the successor of another in the cycle of phases. -/
def Next (s t : SnapshotState) : Prop := t = s.next

/-- `s` comes before `t`: one or more advances lead from `s` to `t`. -/
def Precedes : SnapshotState → SnapshotState → Prop :=
  Relation.TransGen Next

/-- The same state or two neighbours in the cycle of phases. -/
def SameOrAdjacent (s t : SnapshotState) : Prop :=
  s = t ∨ Next s t ∨ Next t s

/-- The position of a state in the infinite sequence of states. -/
def rank (s : SnapshotState) : Int :=
  match s.phase with
  | .rest => 4 * s.version
  | .prepare => 4 * s.version + 1
  | .inProgress => 4 * s.version - 2
  | .sweep => 4 * s.version - 1

@[simp] theorem rank_next (s : SnapshotState) : s.next.rank = s.rank + 1 := by
  obtain ⟨phase, version⟩ := s
  cases phase <;> simp [next, rank] <;> omega

/-- The residue of the rank names the phase, so no two states share one. -/
theorem rank_injective : Function.Injective rank := by
  rintro ⟨p, v⟩ ⟨q, w⟩ h
  cases p <;> cases q <;> simp only [rank] at h <;> simp <;> omega

/-- A later state has no smaller version. -/
theorem version_le_of_rank_le {s t : SnapshotState} (h : s.rank ≤ t.rank) :
    s.version ≤ t.version := by
  obtain ⟨p, v⟩ := s
  obtain ⟨q, w⟩ := t
  cases p <;> cases q <;> simp only [rank] at h ⊢ <;> omega

theorem Precedes.rank_lt {s t : SnapshotState} (h : Precedes s t) : s.rank < t.rank := by
  induction h with
  | single h => rw [h, rank_next]; omega
  | tail _ h ih => rw [h, rank_next]; omega

theorem sameOrAdjacent_of_rank {s t g : SnapshotState}
    (hs : g.rank - 1 ≤ s.rank ∧ s.rank ≤ g.rank) (ht : g.rank - 1 ≤ t.rank ∧ t.rank ≤ g.rank) :
    SameOrAdjacent s t := by
  obtain h | h | h : s.rank = t.rank ∨ t.rank = s.rank + 1 ∨ s.rank = t.rank + 1 := by omega
  · exact .inl (rank_injective h)
  · exact .inr (.inl (rank_injective (by rw [h, rank_next])))
  · exact .inr (.inr (rank_injective (by rw [h, rank_next])))

end SnapshotState

end BfTree
