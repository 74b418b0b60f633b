import Mathlib
import NovaChannel.Lib.Merkle
import NovaChannel.Rln.Permutation

/-!
# The membership tree

The public tree over the members' commitments, stored level by level.

* `MerkleTree.isLevel_levels` : the stored levels are the nodes of the hash tree over the leaves;
* `MerkleTree.path_eq` : `MerkleTree.path` answers with the authentication path of the leaf.
-/

namespace NovaChannel

namespace Rln

open Merkle

/-- The two-to-one hash of the tree, with the crate's parameters. -/
abbrev compress : BaseElement → BaseElement → BaseElement := compress2 .new

/-- `Identity::commitment`. -/
def commitment (sk : BaseElement) : BaseElement := compress sk 0

/-- The next level of a tree: its `chunks(2)`, compressed. -/
def nextLevel (params : Params) : List BaseElement → List BaseElement
  | left :: right :: rest => compress2 params left right :: nextLevel params rest
  | _ => []

theorem length_nextLevel (params : Params) (level : List BaseElement) :
    (nextLevel params level).length = level.length / 2 := by
  induction level using nextLevel.induct with
  | case1 left right rest ih =>
    simp only [nextLevel, List.length_cons, ih]
    omega
  | case2 level hne =>
    match level, hne with
    | [], _ => rfl
    | [_], _ => simp [nextLevel]
    | left :: right :: rest, hne => exact absurd rfl (hne left right rest)

theorem getElem?_nextLevel {params : Params} {level : List BaseElement} {i : ℕ}
    {left right : BaseElement} (hleft : level[2 * i]? = some left)
    (hright : level[2 * i + 1]? = some right) :
    (nextLevel params level)[i]? = some (compress2 params left right) := by
  induction level using nextLevel.induct generalizing i with
  | case1 a b rest ih =>
    cases i with
    | zero =>
      simp only [Nat.mul_zero, Nat.zero_add, List.getElem?_cons_zero, List.getElem?_cons_succ,
        Option.some.injEq] at hleft hright
      simp [nextLevel, hleft, hright]
    | succ i =>
      rw [nextLevel, List.getElem?_cons_succ]
      exact ih hleft hright
  | case2 level hne =>
    match level, hne with
    | [], _ => simp at hleft
    | [a], _ => simp at hright
    | a :: b :: rest, hne => exact absurd rfl (hne a b rest)

/-- A level and the levels above it. -/
def levelsFrom (params : Params) (level : List BaseElement) : ℕ → List (List BaseElement)
  | 0 => [level]
  | k + 1 => level :: levelsFrom params (nextLevel params level) k

/-- A list holds the nodes of height `j` of a tree of height `d`. -/
def IsLevel (params : Params) (leaf : ℕ → BaseElement) (d j : ℕ) (level : List BaseElement) : Prop :=
  level.length = 2 ^ (d - j) ∧
    ∀ i, i < 2 ^ (d - j) → level[i]? = some (node (compress2 params) leaf j i)

theorem IsLevel.next {params : Params} {leaf : ℕ → BaseElement} {d j : ℕ}
    {level : List BaseElement} (h : IsLevel params leaf d j level) (hj : j < d) :
    IsLevel params leaf d (j + 1) (nextLevel params level) := by
  have hpow : 2 ^ (d - j) = 2 * 2 ^ (d - (j + 1)) := by
    rw [← pow_succ']
    congr 1
    omega
  constructor
  · rw [length_nextLevel, h.1, hpow, Nat.mul_div_cancel_left _ Nat.two_pos]
  · intro i hi
    exact getElem?_nextLevel (h.2 _ (by omega)) (h.2 _ (by omega))

theorem isLevel_levelsFrom {params : Params} {leaf : ℕ → BaseElement} {d j n k : ℕ}
    {level : List BaseElement} (h : IsLevel params leaf d j level) (hn : j + n = d) (hk : k ≤ n) :
    ∃ level', (levelsFrom params level n)[k]? = some level' ∧
      IsLevel params leaf d (j + k) level' := by
  induction k generalizing j n level with
  | zero => cases n <;> exact ⟨level, rfl, h⟩
  | succ k ih =>
    obtain ⟨n, rfl⟩ : ∃ n', n = n' + 1 := ⟨n - 1, by omega⟩
    obtain ⟨level', hget, hlevel⟩ := ih (h.next (by omega)) (by omega) (Nat.le_of_succ_le_succ hk)
    refine ⟨level', hget, ?_⟩
    rwa [show j + 1 + k = j + (k + 1) by omega] at hlevel

/-! ### The tree -/

/-- `MerkleTree`: `levels[0]` are the leaves, `levels[depth]` is the root alone. -/
structure MerkleTree where
  depth : ℕ
  levels : List (List BaseElement)
  params : Params
  /-- The leaves fill the tree, and every other level is the one below it, compressed. -/
  wf : ∃ level, level.length = 2 ^ depth ∧ levels = levelsFrom params level depth

namespace MerkleTree

/-- `MerkleTree::new`: unused slots hold the zero leaf. -/
def new (depth : ℕ) (leaves : List BaseElement) : Except String MerkleTree :=
  let capacity := 2 ^ depth
  if h : leaves.length ≤ capacity then
    let level := leaves ++ List.replicate (capacity - leaves.length) 0
    .ok
      { depth := depth
        levels := levelsFrom .new level depth
        params := .new
        wf := ⟨level, by simp only [level, List.length_append, List.length_replicate]; omega, rfl⟩ }
  else .error "too many leaves for this depth"

/-- The leaves of a tree. -/
def leaves (tree : MerkleTree) : List BaseElement := tree.levels.headD []

/-- Leaf `i`, zero past the last. -/
def leaf (tree : MerkleTree) (i : ℕ) : BaseElement := tree.leaves.getD i 0

/-- Node `i` of height `k`. -/
abbrev nodeAt (tree : MerkleTree) : ℕ → ℕ → BaseElement := node (compress2 tree.params) tree.leaf

/-- The steps above node `idx` of a level. -/
def pathFrom (tree : MerkleTree) (level idx : ℕ) : ℕ → Option (List (PathStep BaseElement))
  | 0 => some []
  | k + 1 => do
    let isRight := idx % 2 = 1
    let siblingIdx := if isRight then idx - 1 else idx + 1
    let sibling ← (← tree.levels[level]?)[siblingIdx]?
    let rest ← tree.pathFrom (level + 1) (idx / 2) k
    some (⟨sibling, if isRight then .right else .left⟩ :: rest)

/-- `MerkleTree::path`. -/
def path (tree : MerkleTree) (index : ℕ) : Option (List (PathStep BaseElement)) :=
  if index < tree.leaves.length then tree.pathFrom 0 index tree.depth else none

/-- `MerkleTree::root`. -/
def root (tree : MerkleTree) : Option BaseElement := do (← tree.levels[tree.depth]?)[0]?

/-- `MerkleTree::verify_path`. -/
def verifyPath (params : Params) (leaf : BaseElement) (path : List (PathStep BaseElement))
    (root : BaseElement) : Bool :=
  decide (path.foldl (fun cur step => match step.side with
    | .left => compress2 params cur step.sibling
    | .right => compress2 params step.sibling cur) leaf = root)

/-! ### What a tree holds -/

theorem params_of_new {depth : ℕ} {leaves : List BaseElement} {tree : MerkleTree}
    (h : new depth leaves = .ok tree) : tree.params = .new ∧ tree.depth = depth := by
  simp only [new] at h
  split at h
  · cases h
    exact ⟨rfl, rfl⟩
  · cases h

theorem exists_new {depth : ℕ} {leaves : List BaseElement} (h : leaves.length ≤ 2 ^ depth) :
    ∃ tree, new depth leaves = .ok tree ∧
      tree.leaves = leaves ++ List.replicate (2 ^ depth - leaves.length) 0 := by
  refine ⟨_, dif_pos h, ?_⟩
  rw [MerkleTree.leaves]
  cases depth <;> rfl

variable (tree : MerkleTree)

theorem length_leaves : tree.leaves.length = 2 ^ tree.depth := by
  obtain ⟨level, hlen, hlevels⟩ := tree.wf
  have hhead : tree.leaves = level := by
    rw [leaves, hlevels]
    cases tree.depth <;> rfl
  rw [hhead, hlen]

/-- **The stored levels are the nodes of the hash tree over the leaves.** -/
theorem isLevel_levels {k : ℕ} (hk : k ≤ tree.depth) :
    ∃ level, tree.levels[k]? = some level ∧
      IsLevel tree.params tree.leaf tree.depth k level := by
  obtain ⟨level, hlen, hlevels⟩ := tree.wf
  have hhead : tree.leaves = level := by
    rw [leaves, hlevels]
    cases tree.depth <;> rfl
  have hbase : IsLevel tree.params tree.leaf tree.depth 0 level := by
    refine ⟨hlen, fun i hi => ?_⟩
    have hlt : i < level.length := by rwa [hlen]
    rw [node, leaf, hhead, List.getD_eq_getElem?_getD, List.getElem?_eq_getElem hlt,
      Option.getD_some]
  obtain ⟨level', hget, hlevel⟩ := isLevel_levelsFrom hbase (Nat.zero_add _) hk
  rw [← hlevels] at hget
  rw [Nat.zero_add] at hlevel
  exact ⟨level', hget, hlevel⟩

theorem root_eq : tree.root = some (tree.nodeAt tree.depth 0) := by
  obtain ⟨level, hget, -, hlevel⟩ := tree.isLevel_levels (Nat.le_refl _)
  simp only [root, hget, Option.bind_eq_bind, Option.bind_some]
  exact hlevel 0 (Nat.two_pow_pos _)

theorem pathFrom_eq {j i k : ℕ} (hk : j + k = tree.depth) (hi : i < 2 ^ k) :
    tree.pathFrom j i k = some (treePath (compress2 tree.params) tree.leaf j i k) := by
  induction k generalizing j i with
  | zero => rfl
  | succ k ih =>
    obtain ⟨level, hget, -, hlevel⟩ := tree.isLevel_levels (k := j) (by omega)
    rw [show tree.depth - j = k + 1 by omega] at hlevel
    have hrest := ih (j := j + 1) (i := i / 2) (by omega) (by omega)
    by_cases hright : i % 2 = 1
    · have hsibling := hlevel (i - 1) (by omega)
      simp [pathFrom, treePath, treeStep, hget, hright, hsibling, hrest]
    · have hsibling := hlevel (i + 1) (by omega)
      simp [pathFrom, treePath, treeStep, hget, hright, hsibling, hrest]

/-- **The path of a leaf is its authentication path.** -/
theorem path_eq {index : ℕ} (hindex : index < 2 ^ tree.depth) :
    tree.path index = some (treePath (compress2 tree.params) tree.leaf 0 index tree.depth) := by
  rw [path, if_pos (by rwa [length_leaves]), tree.pathFrom_eq (Nat.zero_add _) hindex]

/-- **It leads to the root.** -/
theorem fold_path {index : ℕ} (hindex : index < 2 ^ tree.depth) :
    fold (compress2 tree.params) (tree.leaf index)
      (treePath (compress2 tree.params) tree.leaf 0 index tree.depth) =
        tree.nodeAt tree.depth 0 := by
  have hfold := fold_treePath (compress2 tree.params) tree.leaf 0 index tree.depth
  rwa [Nat.zero_add, Nat.div_eq_of_lt hindex] at hfold

theorem verifyPath_iff (params : Params) (leaf : BaseElement) (path : List (PathStep BaseElement))
    (root : BaseElement) :
    verifyPath params leaf path root = true ↔ fold (compress2 params) leaf path = root := by
  have hstep : (fun cur (step : PathStep BaseElement) => match step.side with
      | .left => compress2 params cur step.sibling
      | .right => compress2 params step.sibling cur) = climb (compress2 params) := by
    funext cur step
    obtain ⟨sibling, side⟩ := step
    cases side <;> rfl
  rw [verifyPath, decide_eq_true_eq, hstep, fold]

/-- **Paths are complete and binding**: the path of every index leads from its leaf to the root, and
a value that leads there by a path with the same sides is that leaf, or two distinct inputs among
those of the check and of the tree have one output. -/
theorem verifyPath_spec {depth : ℕ} {leaves : List BaseElement} (h : leaves.length ≤ 2 ^ depth) :
    ∃ tree root, new depth leaves = .ok tree ∧ tree.root = some root ∧
      ∀ index < 2 ^ depth, ∃ path, tree.path index = some path ∧
        verifyPath .new (leaves.getD index 0) path root = true ∧
        ∀ (v : BaseElement) (path' : List (PathStep BaseElement)),
          path'.map PathStep.side = path.map PathStep.side →
          verifyPath .new v path' root = true →
          v = leaves.getD index 0 ∨
            Collides compress (treeInputs compress (fun i => leaves.getD i 0) depth ∪
              {p | p ∈ pathInputs compress v path'}) := by
  obtain ⟨tree, hnew, hleaves⟩ := exists_new h
  obtain ⟨hparams, hdepth⟩ := params_of_new hnew
  have hleaf : tree.leaf = fun i => leaves.getD i 0 := by
    funext i
    rw [leaf, hleaves]
    by_cases hi : i < leaves.length
    · simp [List.getD_eq_getElem?_getD, List.getElem?_append_left hi]
    · rw [List.getD_eq_default leaves 0 (Nat.le_of_not_lt hi), List.getD_eq_getElem?_getD,
        List.getElem?_append_right (Nat.le_of_not_lt hi), List.getElem?_replicate]
      split_ifs <;> rfl
  refine ⟨tree, _, hnew, tree.root_eq, fun index hindex => ?_⟩
  rw [← hdepth] at hindex
  refine ⟨_, tree.path_eq hindex, ?_, fun v path' hsides hcheck => ?_⟩
  · have hfold := tree.fold_path hindex
    rw [verifyPath_iff]
    rwa [hparams, hleaf] at hfold ⊢
  · rw [verifyPath_iff] at hcheck
    simp only [nodeAt, hparams, hleaf] at hcheck hsides
    have hlen : path'.length = tree.depth := by
      have := congrArg List.length hsides
      simpa using this
    have hplace : Merkle.index path' = index := by
      rw [index_eq_of_sides hsides, index_treePath, Nat.mod_eq_of_lt hindex]
    have hstart := start_of_fold compress (fun i => leaves.getD i 0) (j := 0)
      Set.subset_union_left (fun p hp => Set.mem_union_right _ hp) (by omega) hcheck
    rwa [hplace, hdepth] at hstart

theorem verifyPath_spec_two : ∃ tree root, new 1 [5, 7] = .ok tree ∧ tree.root = some root ∧
    ∃ path, tree.path 1 = some path ∧ verifyPath .new 7 path root = true := by
  obtain ⟨tree, root, hnew, hroot, hpaths⟩ :=
    verifyPath_spec (show ([5, 7] : List BaseElement).length ≤ 2 ^ 1 by decide)
  obtain ⟨path, hpath, hcheck, -⟩ := hpaths 1 (by decide)
  exact ⟨tree, root, hnew, hroot, path, hpath, hcheck⟩

end MerkleTree

end Rln

end NovaChannel
