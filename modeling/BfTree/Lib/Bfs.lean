import Mathlib

/-!
# Breadth-first visits of a tree

A queue of nodes; the children of a visited node go to its end. Where every node has one
parent, each node is visited once, and all below the first one are.
-/

namespace BfTree.Lib

variable {α : Type}

/-- The nodes in the order of their visits. -/
def bfs (next : α → List α) : (fuel : Nat) → (queue : List α) → List α
  | 0, _ => []
  | _ + 1, [] => []
  | fuel + 1, x :: queue => x :: bfs next fuel (queue ++ next x)

/-- The queue is visited first. -/
theorem exists_bfs_append (next : α → List α) {fuel : Nat} {queue : List α} (h : queue.length ≤ fuel)
    (more : List α) : ∃ rest, bfs next fuel (queue ++ more) = queue ++ rest := by
  induction queue generalizing fuel more with
  | nil => exact ⟨_, rfl⟩
  | cons x queue ih =>
    cases fuel with
    | zero => cases h
    | succ fuel =>
      obtain ⟨rest, hrest⟩ := ih (Nat.le_of_succ_le_succ h) (more ++ next x)
      exact ⟨rest, by simp [bfs, ← hrest]⟩

/-- No node has two parents, and the root has none. -/
structure Rooted (next : α → List α) (root : α) : Prop where
  root : ∀ x, root ∉ next x
  nodup : ∀ x, (next x).Nodup
  parent : ∀ x y z, z ∈ next x → z ∈ next y → x = y

/-- The visited nodes and the queue on the way. -/
structure Frontier (next : α → List α) (root : α) (seen queue : List α) : Prop where
  nodup : (seen ++ queue).Nodup
  mem_root : root ∈ seen ++ queue
  closed : ∀ x ∈ seen, ∀ y ∈ next x, y ∈ seen ++ queue
  source : ∀ y ∈ seen ++ queue, y = root ∨ ∃ x ∈ seen, y ∈ next x

namespace Frontier

variable {next : α → List α} {root x : α} {seen queue : List α}

theorem start (next : α → List α) (root : α) : Frontier next root [] [root] :=
  ⟨by simp, by simp, by simp, by simp⟩

theorem step (hr : Rooted next root) (h : Frontier next root seen (x :: queue)) :
    Frontier next root (seen ++ [x]) (queue ++ next x) := by
  have hsplit : seen ++ [x] ++ (queue ++ next x) = (seen ++ x :: queue) ++ next x := by simp
  have hx : x ∉ seen := by
    intro hmem
    exact List.disjoint_of_nodup_append h.nodup hmem (by simp)
  refine ⟨?_, ?_, fun y hy z hz => ?_, fun y hy => ?_⟩
  · rw [hsplit]
    refine List.Nodup.append h.nodup (hr.nodup x) fun y hy hyx => ?_
    -- a second parent of `y` would have been visited already
    rcases h.source y hy with rfl | ⟨z, hz, hyz⟩
    · exact hr.root x hyx
    · exact hx (hr.parent _ _ _ hyx hyz ▸ hz)
  · rw [hsplit]
    exact List.mem_append_left _ h.mem_root
  · rw [hsplit]
    rcases List.mem_append.1 hy with hy | hy
    · exact List.mem_append_left _ (h.closed y hy z hz)
    · rw [List.mem_singleton.1 hy] at hz
      exact List.mem_append_right _ hz
  · rw [hsplit] at hy
    rcases List.mem_append.1 hy with hy | hy
    · exact (h.source y hy).imp_right fun ⟨z, hz, hyz⟩ => ⟨z, List.mem_append_left _ hz, hyz⟩
    · exact .inr ⟨x, by simp, hy⟩

/-- With a visit for each node there could be, the queue runs empty. -/
theorem run (hr : Rooted next root) {bound fuel : Nat}
    (hbound : ∀ {seen queue}, Frontier next root seen queue → (seen ++ queue).length ≤ bound)
    (hfuel : bound ≤ seen.length + fuel) (h : Frontier next root seen queue) :
    Frontier next root (seen ++ bfs next fuel queue) [] := by
  induction fuel generalizing seen queue with
  | zero =>
    have hlen := hbound h
    obtain rfl : queue = [] := List.eq_nil_of_length_eq_zero (by rw [List.length_append] at hlen; omega)
    simpa [bfs] using h
  | succ fuel ih =>
    cases queue with
    | nil => simpa [bfs] using h
    | cons x queue =>
      have := ih (by rw [List.length_append, List.length_singleton]; omega) (h.step hr)
      simpa [bfs] using this

end Frontier

end BfTree.Lib
