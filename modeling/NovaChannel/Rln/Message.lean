import NovaChannel.Rln.Trace

/-!
# Messages and their proofs

Proving and verifying with an ideal proof system: a proof is the trace it was made from, and a
verifier accepts a declared trace shape when a trace of that shape meets the constraints.

* `Accepts` : what `verify_message` accepts;
* `proveMessage_complete` : **the trace that is proved for a member's message is the one
  `build_trace` lays out for its key and its path, and it meets every constraint**, and the root in
  it is the root of the tree.
-/

namespace NovaChannel

namespace Rln

open Merkle RlnAir

/-! ### Proving -/

/-- `RlnAir::new`.  None is a panic. -/
def RlnAir.new (traceInfo : TraceInfo) (pubInputs : PublicInputs) : Option RlnAir :=
  let blocks := traceInfo.length / blockLen
  let depth := blocks - 3
  if traceWidth = traceInfo.width ∧ traceInfo.length % blockLen = 0 ∧ 2 < blocks ∧
      isValidDepth depth then
    some ⟨pubInputs, .new, depth⟩
  else none

/-- `prove`: the trace that is proved, and the public inputs it is proved for. -/
def prove (witness : Witness) (epoch x y nullifier : BaseElement) :
    Except String (TraceTable × PublicInputs) := do
  let trace ← buildTrace .new witness epoch x
  let root := trace (rootRow witness.path.length) colState0
  .ok (trace, { root := root, epoch := epoch, x := x, y := y, nullifier := nullifier })

/-- `prove_message`. -/
def proveMessage (tree : MerkleTree) (leafIndex : ℕ) (sk epoch messageX : BaseElement) :
    Except String (TraceTable × PublicInputs) :=
  match tree.path leafIndex with
  | none => .error "assertion failed: index < self.levels[0].len()"
  | some path =>
    let a1 := compress2 tree.params sk epoch
    let y := sk + a1 * messageX
    prove { sk := sk, path := path } epoch messageX y a1

/-! ### Verifying -/

/-- `Message`: the trace shape its proof declares, and its public inputs. -/
structure Message where
  traceInfo : TraceInfo
  publicInputs : PublicInputs

/-- `share::Share`. -/
structure Share where
  nullifier : BaseElement
  x : BaseElement
  y : BaseElement
  deriving DecidableEq

/-- `verify`: the shape is one the verifier admits, and some trace of it meets the constraints. -/
def Verifies (traceInfo : TraceInfo) (pubInputs : PublicInputs) : Prop :=
  validateTraceInfo traceInfo = .ok () ∧
    ∃ air, RlnAir.new traceInfo pubInputs = some air ∧ ∃ trace, air.Satisfies trace

/-- `verify_message` returns a share. -/
def Accepts (root : BaseElement) (msg : Message) (share : Share) : Prop :=
  msg.publicInputs.root = root ∧ Verifies msg.traceInfo msg.publicInputs ∧
    share = ⟨msg.publicInputs.nullifier, msg.publicInputs.x, msg.publicInputs.y⟩

/-- The shape of a trace of a valid depth. -/
theorem new_traceLength {depth : ℕ} (hdepth : isValidDepth depth) (pub : PublicInputs) :
    RlnAir.new ⟨traceWidth, traceLength depth⟩ pub = some ⟨pub, .new, depth⟩ := by
  have hblocks : traceLength depth / blockLen = depth + 3 :=
    Nat.mul_div_cancel _ blockLen_pos
  have hmod : traceLength depth % blockLen = 0 := Nat.mul_mod_left _ _
  have hlt : 2 < depth + 3 := by omega
  simp [RlnAir.new, hblocks, hmod, hdepth, hlt]

theorem validateTraceInfo_traceLength {depth : ℕ} (hdepth : isValidDepth depth) :
    validateTraceInfo ⟨traceWidth, traceLength depth⟩ = .ok () := by
  have hblocks : traceLength depth / blockLen = depth + 3 :=
    Nat.mul_div_cancel _ blockLen_pos
  have hmod : traceLength depth % blockLen = 0 := Nat.mul_mod_left _ _
  have hlt : ¬ depth + 3 ≤ 2 := by omega
  simp only [validateTraceInfo, hblocks, hmod, Nat.add_sub_cancel, hdepth, hlt]
  rfl

/-- **Completeness.**  For every tree, every member of it, every epoch and every message, the trace
that is proved is that of the member's key and its path in the tree; it meets every constraint of
the verifier's constraint system for the public inputs it is sent with; these are the root of the
tree, the epoch, the message, and the nullifier and the share of the key; and the root in the trace
is the root of the tree. -/
theorem proveMessage_complete {depth : ℕ} {leaves : List BaseElement} {tree : MerkleTree}
    (htree : MerkleTree.new depth leaves = .ok tree) (hdepth : isValidDepth depth) {index : ℕ}
    (hindex : index < 2 ^ depth) {sk : BaseElement} (hleaf : tree.leaf index = commitment sk)
    (epoch x : BaseElement) :
    ∃ path trace pub air, tree.path index = some path ∧
      buildTrace .new ⟨sk, path⟩ epoch x = .ok trace ∧
      proveMessage tree index sk epoch x = .ok (trace, pub) ∧
      (tree.root = some pub.root ∧ pub.epoch = epoch ∧ pub.x = x ∧
        pub.nullifier = compress2 .new sk epoch ∧ pub.y = sk + pub.nullifier * x) ∧
      RlnAir.new ⟨traceWidth, traceLength depth⟩ pub = some air ∧ air.Satisfies trace ∧
      tree.root = some (trace (rootRow depth) colState0) := by
  obtain ⟨hparams, rfl⟩ := MerkleTree.params_of_new htree
  have hpath := tree.path_eq hindex
  have hfold := tree.fold_path hindex
  rw [hparams] at hpath hfold
  have hlen := length_treePath (compress2 .new) tree.leaf 0 index tree.depth
  generalize treePath (compress2 .new) tree.leaf 0 index tree.depth = path at hpath hfold hlen
  have hroot := rows_root .new ⟨sk, path⟩ epoch x
  have hsat := rows_satisfies .new ⟨sk, path⟩ epoch x
  rw [hleaf] at hfold
  have hbuild : buildTrace .new ⟨sk, path⟩ epoch x = .ok (rows .new ⟨sk, path⟩ epoch x) := by
    simp only [buildTrace, hlen, hdepth, if_true]
  have htop : tree.root = some (publicInputs .new ⟨sk, path⟩ epoch x).root := by
    rw [tree.root_eq, publicInputs, ← hparams, ← hfold, commitment, hparams]
  refine ⟨path, rows .new ⟨sk, path⟩ epoch x, publicInputs .new ⟨sk, path⟩ epoch x, _, hpath,
    hbuild, ?_, ⟨htop, rfl, rfl, rfl, rfl⟩, new_traceLength hdepth _, ?_, ?_⟩
  · rw [proveMessage, hpath, hparams]
    simp only [prove, hbuild, bind, Except.bind, hroot]
    rfl
  · simp only [airOf, hlen] at hsat
    exact hsat
  · simp only [hlen] at hroot
    rw [htop, hroot]
    rfl

/-- A member alone in a tree of depth 1. -/
theorem proveMessage_complete_single :
    ∃ tree, MerkleTree.new 1 [commitment 1] = .ok tree ∧
      ∃ path trace pub air, tree.path 0 = some path ∧
        buildTrace .new ⟨1, path⟩ 2 3 = .ok trace ∧
        proveMessage tree 0 1 2 3 = .ok (trace, pub) ∧
        (tree.root = some pub.root ∧ pub.epoch = 2 ∧ pub.x = 3 ∧
          pub.nullifier = compress2 .new 1 2 ∧ pub.y = 1 + pub.nullifier * 3) ∧
        RlnAir.new ⟨traceWidth, traceLength 1⟩ pub = some air ∧ air.Satisfies trace ∧
        tree.root = some (trace (rootRow 1) colState0) := by
  obtain ⟨tree, htree, hleaves⟩ :=
    MerkleTree.exists_new (by decide : [commitment 1].length ≤ 2 ^ 1)
  have hleaf : tree.leaf 0 = commitment 1 := by
    rw [MerkleTree.leaf, hleaves]
    rfl
  exact ⟨tree, htree, proveMessage_complete htree (by decide) (by decide) hleaf 2 3⟩

end Rln

end NovaChannel
