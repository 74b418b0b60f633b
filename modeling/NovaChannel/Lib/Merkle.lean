import Mathlib.Data.List.Nodup
import Mathlib.Data.Nat.Notation
import Mathlib.Data.Set.Basic
import Mathlib.Tactic.Ring

/-!
# Binary hash trees

Trees and authentication paths over any two-to-one compression `h : α → α → α`.  Heights count
from the leaves, and the nodes of one height from the left.

* `node h leaf k i` : node `i` of height `k`;
* `fold h a path` : what a path leads to from `a`, with the inputs `pathInputs h a path`;
* `treePath h leaf j i k` : the `k` steps above node `i` of height `j`;
* `fold_treePath`, `pathInputs_treePath` : the paths of a tree lead to its nodes and hash nothing
  else;
* `start_of_fold` : **a path that leads to the root starts at a node of the tree**, at the place
  its sides name, or two of the inputs collide.
-/

namespace NovaChannel

namespace Merkle

/-- Which side the prover's node sits on. -/
inductive Side
  | left
  | right
  deriving DecidableEq

/-- One step of an authentication path. -/
structure PathStep (α : Type) where
  sibling : α
  side : Side
  deriving DecidableEq

variable {α : Type}

/-- The pair that is hashed at a step. -/
def PathStep.inputs (s : PathStep α) (a : α) : α × α :=
  match s.side with
  | .left => (a, s.sibling)
  | .right => (s.sibling, a)

/-- The bit of a node's number that a side is. -/
def Side.bit : Side → ℕ
  | .left => 0
  | .right => 1

/-- The number of the node a path starts at, by its sides. -/
def index : List (PathStep α) → ℕ
  | [] => 0
  | s :: path => 2 * index path + s.side.bit

theorem index_lt (path : List (PathStep α)) : index path < 2 ^ path.length := by
  induction path with
  | nil => exact Nat.one_pos
  | cons s path ih =>
    have hbit : s.side.bit ≤ 1 := by cases s.side <;> simp [Side.bit]
    simp only [index, List.length_cons, pow_succ]
    omega

theorem index_eq_of_sides {path path' : List (PathStep α)}
    (h : path.map PathStep.side = path'.map PathStep.side) : index path = index path' := by
  induction path generalizing path' with
  | nil =>
    obtain rfl := List.map_eq_nil_iff.1 h.symm
    rfl
  | cons s path ih =>
    obtain ⟨s', path', rfl, hs, hpath⟩ := List.map_eq_cons_iff.1 h.symm
    rw [index, index, ih hpath.symm, hs]

section Hash

variable (h : α → α → α)

/-- Two distinct pairs of the set have one output. -/
def Collides (S : Set (α × α)) : Prop := ∃ p ∈ S, ∃ q ∈ S, p ≠ q ∧ h p.1 p.2 = h q.1 q.2

theorem Collides.mono {S S' : Set (α × α)} (hS : S ⊆ S') (hc : Collides h S) :
    Collides h S' := by
  obtain ⟨p, hp, q, hq, hne, heq⟩ := hc
  exact ⟨p, hS hp, q, hS hq, hne, heq⟩

/-- Equal outputs of two pairs of the set have equal inputs, or the set has a collision. -/
theorem eq_or_collides {S : Set (α × α)} {p q : α × α} (hp : p ∈ S) (hq : q ∈ S)
    (heq : h p.1 p.2 = h q.1 q.2) : p = q ∨ Collides h S := by
  by_cases hpq : p = q
  · exact .inl hpq
  · exact .inr ⟨p, hp, q, hq, hpq, heq⟩

/-- Pairs whose outputs are all different do not collide. -/
theorem not_collides_of_nodup {S : Set (α × α)} {l : List (α × α)} (hS : ∀ p ∈ S, p ∈ l)
    (hl : (l.map fun p => h p.1 p.2).Nodup) : ¬ Collides h S := by
  rintro ⟨p, hp, q, hq, hne, heq⟩
  exact hne (List.inj_on_of_nodup_map hl (hS p hp) (hS q hq) heq)

/-! ### Paths -/

/-- One step up. -/
def climb (a : α) (s : PathStep α) : α := h (s.inputs a).1 (s.inputs a).2

/-- What a path leads to. -/
def fold (a : α) (path : List (PathStep α)) : α := path.foldl (climb h) a

@[simp] theorem fold_nil (a : α) : fold h a [] = a := rfl

@[simp] theorem fold_cons (a : α) (s : PathStep α) (path : List (PathStep α)) :
    fold h a (s :: path) = fold h (climb h a s) path := rfl

@[simp] theorem fold_append (a : α) (low high : List (PathStep α)) :
    fold h a (low ++ high) = fold h (fold h a low) high := List.foldl_append

/-- The pairs that are hashed along a path. -/
def pathInputs : α → List (PathStep α) → List (α × α)
  | _, [] => []
  | a, s :: path => s.inputs a :: pathInputs (climb h a s) path

theorem pathInputs_append (a : α) (low high : List (PathStep α)) :
    pathInputs h a (low ++ high) = pathInputs h a low ++ pathInputs h (fold h a low) high := by
  induction low generalizing a with
  | nil => rfl
  | cons s low ih => simp only [List.cons_append, pathInputs, ih, fold_cons]

/-! ### Trees -/

variable (leaf : ℕ → α)

/-- Node `i` of height `k`. -/
def node : ℕ → ℕ → α
  | 0, i => leaf i
  | k + 1, i => h (node k (2 * i)) (node k (2 * i + 1))

/-- The two children of node `i` of height `k + 1`. -/
def children (k i : ℕ) : α × α := (node h leaf k (2 * i), node h leaf k (2 * i + 1))

theorem node_succ (k i : ℕ) :
    node h leaf (k + 1) i = h (children h leaf k i).1 (children h leaf k i).2 := rfl

/-- The pairs that are hashed to build a tree of height `d`. -/
def treeInputs (d : ℕ) : Set (α × α) :=
  {p | ∃ k i, k < d ∧ i < 2 ^ (d - 1 - k) ∧ p = children h leaf k i}

theorem children_mem_treeInputs {d k i : ℕ} (hk : k < d) (hi : i < 2 ^ (d - 1 - k)) :
    children h leaf k i ∈ treeInputs h leaf d := ⟨k, i, hk, hi, rfl⟩

/-- The step above node `i` of height `j`. -/
def treeStep (j i : ℕ) : PathStep α :=
  if i % 2 = 1 then ⟨node h leaf j (i - 1), .right⟩ else ⟨node h leaf j (i + 1), .left⟩

/-- The `k` steps above node `i` of height `j`. -/
def treePath (j i : ℕ) : ℕ → List (PathStep α)
  | 0 => []
  | k + 1 => treeStep h leaf j i :: treePath (j + 1) (i / 2) k

@[simp] theorem length_treePath (j i k : ℕ) : (treePath h leaf j i k).length = k := by
  induction k generalizing j i with
  | zero => rfl
  | succ k ih => rw [treePath, List.length_cons, ih]

/-- The step above a node hashes the two children of its parent. -/
theorem inputs_treeStep (j i : ℕ) :
    (treeStep h leaf j i).inputs (node h leaf j i) = children h leaf j (i / 2) := by
  unfold treeStep children
  split_ifs with hi
  · have h1 : i - 1 = 2 * (i / 2) := by omega
    have h2 : 2 * (i / 2) + 1 = i := by omega
    rw [h1, h2]
    rfl
  · have h1 : i + 1 = 2 * (i / 2) + 1 := by omega
    have h2 : 2 * (i / 2) = i := by omega
    rw [h1, h2]
    rfl

theorem climb_treeStep (j i : ℕ) :
    climb h (node h leaf j i) (treeStep h leaf j i) = node h leaf (j + 1) (i / 2) := by
  rw [climb, inputs_treeStep, node_succ]

/-- **The path of a node leads to the nodes above it.** -/
theorem fold_treePath (j i k : ℕ) :
    fold h (node h leaf j i) (treePath h leaf j i k) = node h leaf (j + k) (i / 2 ^ k) := by
  induction k generalizing j i with
  | zero => simp [treePath]
  | succ k ih =>
    rw [treePath, fold_cons, climb_treeStep, ih, Nat.div_div_eq_div_mul, ← pow_succ']
    congr 1
    omega

/-- The sides of a node's path are the bits of its number. -/
theorem index_treePath (j i k : ℕ) : index (treePath h leaf j i k) = i % 2 ^ k := by
  induction k generalizing j i with
  | zero => simp [treePath, index, Nat.mod_one]
  | succ k ih =>
    have hbit : (treeStep h leaf j i).side.bit = i % 2 := by
      unfold treeStep
      split_ifs with hi
      · exact hi.symm
      · simp only [Side.bit]
        omega
    rw [treePath, index, ih, hbit, pow_succ', Nat.mod_mul, Nat.add_comm]

/-- It hashes nothing that the tree does not hash. -/
theorem pathInputs_treePath {d j i k : ℕ} (hk : j + k ≤ d) (hi : i < 2 ^ (d - j)) :
    ∀ p ∈ pathInputs h (node h leaf j i) (treePath h leaf j i k), p ∈ treeInputs h leaf d := by
  induction k generalizing j i with
  | zero => exact fun p hp => (by cases hp)
  | succ k ih =>
    intro p hp
    have hpow : 2 ^ (d - j) = 2 * 2 ^ (d - 1 - j) := by
      rw [← pow_succ']
      congr 1
      omega
    rw [treePath, pathInputs, inputs_treeStep, climb_treeStep] at hp
    rcases List.mem_cons.1 hp with rfl | hp
    · exact children_mem_treeInputs h leaf (by omega) (by omega)
    · refine ih (by omega) ?_ p hp
      rw [show d - (j + 1) = d - 1 - j by omega]
      omega

/-- **Binding.**  A path that leads to the root starts at the node of its height that its sides
name, or two of the inputs collide. -/
theorem start_of_fold {S : Set (α × α)} {d j : ℕ} {a : α} {path : List (PathStep α)}
    (htree : treeInputs h leaf d ⊆ S) (hpath : ∀ p ∈ pathInputs h a path, p ∈ S)
    (hlen : j + path.length = d) (hroot : fold h a path = node h leaf d 0) :
    a = node h leaf j (index path) ∨ Collides h S := by
  induction path generalizing a j with
  | nil =>
    obtain rfl : j = d := hlen
    exact .inl hroot
  | cons s path ih =>
    rw [List.length_cons] at hlen
    have hrest := ih (a := climb h a s) (j := j + 1)
      (fun p hp => hpath p (List.mem_cons_of_mem _ hp)) (by omega) hroot
    refine hrest.elim (fun hclimb => ?_) .inr
    -- the step hashes the two children of that node, or it collides with them
    have hlt := index_lt path
    have hchildren : children h leaf j (index path) ∈ S := by
      refine htree (children_mem_treeInputs h leaf (by omega) ?_)
      rw [show d - 1 - j = path.length by omega]
      exact hlt
    refine (eq_or_collides h (hpath _ List.mem_cons_self) hchildren hclimb).imp (fun heq => ?_) id
    obtain ⟨sibling, side⟩ := s
    cases side
    · exact congrArg Prod.fst heq
    · exact congrArg Prod.snd heq

end Hash

end Merkle

end NovaChannel
