import NovaChannel.Rln.Message

/-!
# What a membership proof binds

A verifier fixes the root and takes the depth from the proof, and leaves and inner nodes are hashed
alike.  Whether an accepted message comes from a member therefore depends on the depth it declares.

* `AcceptedProof` : an accepted message and a trace behind it;
* `exists_acceptedProof_iff` : these are the messages that `verify_message` accepts;
* `Limited` : every message comes from a leaf, and the leaves limit the nullifiers;
* `Binds` : the condition on a tree and a declared depth;
* `limited_iff` : **messages are limited by the leaves exactly at the depths that bind.**
-/

namespace NovaChannel

namespace Rln

open Merkle RlnAir TraceTable

/-! ### Accepted messages -/

/-- A message that `verify_message` accepts for the root of a tree, with a trace that proves it. -/
structure AcceptedProof (tree : MerkleTree) where
  message : Message
  root_eq : tree.root = some message.publicInputs.root
  valid : validateTraceInfo message.traceInfo = .ok ()
  air : RlnAir
  air_eq : RlnAir.new message.traceInfo message.publicInputs = some air
  trace : TraceTable
  satisfies : air.Satisfies trace

/-- The inputs that are hashed for a tree, a key, an epoch and a path. -/
def inputsOf (tree : MerkleTree) (sk epoch : BaseElement) (path : List (PathStep BaseElement)) :
    Set (BaseElement × BaseElement) :=
  treeInputs compress tree.leaf tree.depth ∪ {(sk, 0), (sk, epoch)} ∪
    {p | p ∈ pathInputs compress (commitment sk) path}

namespace AcceptedProof

variable {tree : MerkleTree} (p : AcceptedProof tree)

/-- The depth the message declares. -/
def depth : ℕ := p.air.depth

/-- The key behind the message. -/
def sk : BaseElement := p.trace.sk

/-- The path behind the message. -/
def path : List (PathStep BaseElement) := p.trace.path p.depth

/-- Its epoch. -/
def epoch : BaseElement := p.message.publicInputs.epoch

/-- Its nullifier. -/
def nullifier : BaseElement := p.message.publicInputs.nullifier

/-- Everything that is hashed for it. -/
def evaluated : Set (BaseElement × BaseElement) := inputsOf tree p.sk p.epoch p.path

theorem air_spec : p.air = ⟨p.message.publicInputs, .new, p.depth⟩ ∧ isValidDepth p.depth := by
  have hair := p.air_eq
  simp only [RlnAir.new] at hair
  split at hair
  · rename_i hcond
    rw [Option.some.injEq] at hair
    have hdepth : p.depth = p.message.traceInfo.length / blockLen - 3 := by
      rw [depth, ← hair]
    rw [hdepth]
    exact ⟨hair.symm, hcond.2.2.2⟩
  · cases hair

/-- A path of the declared length leads from the key's commitment to the root. -/
theorem fold_path (hparams : tree.params = .new) :
    fold compress (commitment p.sk) p.path = node compress tree.leaf tree.depth 0 := by
  have hmerkle := blockOutput_merkle p.satisfies (Nat.le_refl _)
  rw [p.satisfies.asserted.2.1, p.air_spec.1] at hmerkle
  have hroot := p.root_eq
  rw [tree.root_eq, Option.some.injEq, MerkleTree.nodeAt, hparams, hmerkle] at hroot
  exact hroot.symm

theorem nullifier_eq : p.nullifier = compress p.sk p.epoch := by
  have ha1 := blockOutput_a1 p.satisfies
  rw [p.satisfies.asserted.2.2.1, p.air_spec.1] at ha1
  exact ha1

end AcceptedProof

/-- The accepted messages of a tree are those for which `verify_message` returns a share. -/
theorem exists_acceptedProof_iff {tree : MerkleTree} {root : BaseElement} {message : Message}
    (hroot : tree.root = some root) :
    (∃ p : AcceptedProof tree, p.message = message) ↔ ∃ share, Accepts root message share := by
  constructor
  · rintro ⟨p, rfl⟩
    have hpublic : p.message.publicInputs.root = root := Option.some.inj (p.root_eq ▸ hroot)
    exact ⟨_, hpublic, ⟨p.valid, p.air, p.air_eq, p.trace, p.satisfies⟩, rfl⟩
  · rintro ⟨share, hpublic, ⟨hvalid, air, hair, trace, hsat⟩, -⟩
    exact ⟨⟨message, hpublic ▸ hroot, hvalid, air, hair, trace, hsat⟩, rfl⟩

/-- A valid depth, a key and a path to the root make an accepted message. -/
theorem exists_acceptedProof {tree : MerkleTree} (hparams : tree.params = .new)
    {sk : BaseElement} (epoch : BaseElement) {path : List (PathStep BaseElement)}
    (hvalid : isValidDepth path.length)
    (hroot : fold compress (commitment sk) path = node compress tree.leaf tree.depth 0) :
    ∃ p : AcceptedProof tree, p.depth = path.length ∧ p.sk = sk ∧ p.epoch = epoch ∧
      p.path = path := by
  refine ⟨⟨⟨⟨traceWidth, traceLength path.length⟩, publicInputs .new ⟨sk, path⟩ epoch 0⟩, ?_,
    validateTraceInfo_traceLength hvalid, _, new_traceLength hvalid _, rows .new ⟨sk, path⟩ epoch 0,
    rows_satisfies .new ⟨sk, path⟩ epoch 0⟩, rfl, sk_rows _ _ _ _, rfl, path_rows _ _ _ _⟩
  rw [tree.root_eq, MerkleTree.nodeAt, hparams]
  exact congrArg some hroot.symm

/-! ### What is promised, and when it holds -/

/-- Every message comes from a leaf, the messages of one leaf in one epoch share one nullifier, and
an epoch has at most as many nullifiers as the tree has leaves; or two of the inputs that were
hashed collide. -/
def Limited (tree : MerkleTree) (ps : List (AcceptedProof tree)) : Prop :=
  Collides compress {q | ∃ p ∈ ps, q ∈ p.evaluated} ∨
    (∀ p ∈ ps, commitment p.sk ∈ tree.leaves) ∧
    (∀ p ∈ ps, ∀ q ∈ ps, commitment p.sk = commitment q.sk → p.epoch = q.epoch →
      p.nullifier = q.nullifier) ∧
    ∀ epoch, ((ps.filter fun p => p.epoch = epoch).map (·.nullifier)).toFinset.card ≤
      tree.leaves.toFinset.card

/-- A declared depth binds messages to the leaves of a tree: it is the depth of the tree; or it is
larger, and no chain of the extra steps leads from another commitment to a leaf; or it is smaller,
and every node it can start at is a leaf's value or has a right child other than zero. -/
def Binds (tree : MerkleTree) (declared : ℕ) : Prop :=
  declared = tree.depth ∨
  (tree.depth < declared ∧ ∀ sk epoch low, low.length = declared - tree.depth →
    fold compress (commitment sk) low ∈ tree.leaves →
      commitment sk ∈ tree.leaves ∨ Collides compress (inputsOf tree sk epoch low)) ∨
  (declared < tree.depth ∧ ∀ epoch i, i < 2 ^ declared →
    node compress tree.leaf (tree.depth - declared - 1) (2 * i + 1) = 0 →
      node compress tree.leaf (tree.depth - declared) i ∈ tree.leaves ∨
        Collides compress (inputsOf tree
          (node compress tree.leaf (tree.depth - declared - 1) (2 * i)) epoch []))

section Bound

variable {tree : MerkleTree}

theorem MerkleTree.leaf_mem {i : ℕ} (hi : i < 2 ^ tree.depth) : tree.leaf i ∈ tree.leaves := by
  have hlt : i < tree.leaves.length := by rwa [tree.length_leaves]
  rw [leaf, List.getD_eq_getElem?_getD, List.getElem?_eq_getElem hlt, Option.getD_some]
  exact List.getElem_mem _

theorem MerkleTree.exists_of_mem_leaves {a : BaseElement} (ha : a ∈ tree.leaves) :
    ∃ i, i < 2 ^ tree.depth ∧ tree.leaf i = a := by
  obtain ⟨i, hi, rfl⟩ := List.mem_iff_getElem.1 ha
  rw [tree.length_leaves] at hi
  refine ⟨i, hi, ?_⟩
  rw [leaf, List.getD_eq_getElem?_getD, List.getElem?_eq_getElem, Option.getD_some]

theorem treeInputs_subset (sk epoch : BaseElement) (path : List (PathStep BaseElement)) :
    treeInputs compress tree.leaf tree.depth ⊆ inputsOf tree sk epoch path :=
  fun _ hq => .inl (.inl hq)

theorem pathInputs_subset (sk epoch : BaseElement) (path : List (PathStep BaseElement)) :
    ∀ q ∈ pathInputs compress (commitment sk) path, q ∈ inputsOf tree sk epoch path :=
  fun _ hq => .inr hq

/-- A longer path hashes what its beginning does. -/
theorem inputsOf_append (sk epoch : BaseElement) (low high : List (PathStep BaseElement)) :
    inputsOf tree sk epoch low ⊆ inputsOf tree sk epoch (low ++ high) := by
  intro q hq
  refine hq.imp id fun hlow => ?_
  rw [Set.mem_ofPred_eq, pathInputs_append]
  exact List.mem_append_left _ hlow

/-- The steps of the tree above a path hash nothing new. -/
theorem inputsOf_append_treePath (sk epoch : BaseElement) (low : List (PathStep BaseElement))
    {j i k : ℕ} (hk : j + k = tree.depth) (hi : i < 2 ^ k)
    (hlow : fold compress (commitment sk) low = node compress tree.leaf j i) :
    inputsOf tree sk epoch (low ++ treePath compress tree.leaf j i k) ⊆
      inputsOf tree sk epoch low := by
  rintro q (hq | hq)
  · exact .inl hq
  · rw [Set.mem_ofPred_eq, pathInputs_append, List.mem_append, hlow] at hq
    refine hq.elim .inr fun htree => .inl (.inl ?_)
    exact pathInputs_treePath compress tree.leaf hk.le (by rwa [← hk, Nat.add_sub_cancel_left]) q
      htree

/-- **A depth that binds leads to a leaf.** -/
theorem commitment_mem (hparams : tree.params = .new) (p : AcceptedProof tree)
    (hbinds : Binds tree p.depth) :
    commitment p.sk ∈ tree.leaves ∨ Collides compress p.evaluated := by
  have hfold := p.fold_path hparams
  have hlen : p.path.length = p.depth := length_path _ _
  have htree : treeInputs compress tree.leaf tree.depth ⊆ p.evaluated := treeInputs_subset _ _ _
  rcases hbinds with hd | ⟨hlt, hbinds⟩ | ⟨hlt, hbinds⟩
  · -- the path starts at a leaf
    refine (start_of_fold compress tree.leaf htree (pathInputs_subset _ _ _) (j := 0) (by omega)
      hfold).imp_left fun hstart => ?_
    have hindex := index_lt p.path
    rw [hlen, hd] at hindex
    rw [hstart]
    exact MerkleTree.leaf_mem hindex
  · -- its last steps start at a leaf
    obtain ⟨low, high, hpath, hlow⟩ : ∃ low high, p.path = low ++ high ∧
        low.length = p.depth - tree.depth :=
      ⟨p.path.take (p.depth - tree.depth), p.path.drop (p.depth - tree.depth),
        (List.take_append_drop _ _).symm, by rw [List.length_take, hlen]; omega⟩
    have hhigh : high.length = tree.depth := by
      have hsum := congrArg List.length hpath
      rw [List.length_append, hlen] at hsum
      omega
    rw [hpath, fold_append] at hfold
    have hinputs : ∀ q ∈ pathInputs compress (fold compress (commitment p.sk) low) high,
        q ∈ p.evaluated := by
      intro q hq
      refine pathInputs_subset _ _ _ q ?_
      rw [hpath, pathInputs_append]
      exact List.mem_append_right _ hq
    rcases start_of_fold compress tree.leaf htree hinputs (j := 0) (by omega) hfold with
      hstart | hcollides
    · have hindex := index_lt high
      rw [hhigh] at hindex
      have hmem : fold compress (commitment p.sk) low ∈ tree.leaves := by
        rw [hstart]
        exact MerkleTree.leaf_mem hindex
      refine (hbinds p.sk p.epoch low hlow hmem).imp_right fun hc => ?_
      refine hc.mono _ ?_
      rw [AcceptedProof.evaluated, hpath]
      exact inputsOf_append _ _ _ _
    · exact .inr hcollides
  · -- it starts at an inner node, whose children are the key and zero
    rcases start_of_fold compress tree.leaf htree (pathInputs_subset _ _ _)
      (j := tree.depth - p.depth) (by omega) hfold with hstart | hcollides
    · have hindex := index_lt p.path
      rw [hlen] at hindex
      have hj : tree.depth - p.depth = tree.depth - p.depth - 1 + 1 := by omega
      have hchildren : children compress tree.leaf (tree.depth - p.depth - 1) (index p.path) ∈
          p.evaluated := by
        refine htree (children_mem_treeInputs compress tree.leaf (by omega) ?_)
        rwa [show tree.depth - 1 - (tree.depth - p.depth - 1) = p.depth by omega]
      have hkey : ((p.sk, 0) : BaseElement × BaseElement) ∈ p.evaluated := .inl (.inr (.inl rfl))
      have hnode := hstart
      rw [hj, node_succ] at hnode
      rcases eq_or_collides compress hkey hchildren hnode with heq | hcollides
      · obtain ⟨hleft, hright⟩ := Prod.mk.inj heq
        refine (hbinds p.epoch (index p.path) hindex hright.symm).imp (fun hmem => ?_) fun hc => ?_
        · rwa [hstart]
        · rw [← hleft] at hc
          exact hc.mono _ (inputsOf_append p.sk p.epoch [] p.path)
      · exact .inr hcollides
    · exact .inr hcollides

/-- Every message from a leaf: the leaves limit the nullifiers. -/
theorem limited_of_mem {ps : List (AcceptedProof tree)}
    (hmem : ∀ p ∈ ps, commitment p.sk ∈ tree.leaves) : Limited tree ps := by
  by_cases hc : Collides compress {q | ∃ p ∈ ps, q ∈ p.evaluated}
  · exact .inl hc
  -- without a collision a commitment has one key
  have hnullifier : ∀ p ∈ ps, ∀ q ∈ ps, commitment p.sk = commitment q.sk → p.epoch = q.epoch →
      p.nullifier = q.nullifier := by
    intro p hp q hq hcommitment hepoch
    have hkeys := (eq_or_collides compress (S := {q | ∃ p ∈ ps, q ∈ p.evaluated})
      (p := (p.sk, 0)) (q := (q.sk, 0)) ⟨p, hp, .inl (.inr (.inl rfl))⟩
      ⟨q, hq, .inl (.inr (.inl rfl))⟩ hcommitment).resolve_right hc
    rw [p.nullifier_eq, q.nullifier_eq, hepoch, (Prod.mk.inj hkeys).1]
  refine .inr ⟨hmem, hnullifier, fun epoch => ?_⟩
  -- a nullifier of the epoch comes from a leaf, and a leaf gives one nullifier
  refine Finset.card_le_card_of_forall_subsingleton
    (fun n a => ∃ p ∈ ps, p.epoch = epoch ∧ p.nullifier = n ∧ commitment p.sk = a)
    (fun n hn => ?_) (fun a _ => ?_)
  · simp only [List.mem_toFinset, List.mem_map, List.mem_filter, decide_eq_true_eq] at hn ⊢
    obtain ⟨p, ⟨hp, hepoch⟩, hn⟩ := hn
    exact ⟨_, hmem p hp, p, hp, hepoch, hn, rfl⟩
  · rintro n ⟨-, p, hp, hpepoch, rfl, hpa⟩ m ⟨-, q, hq, hqepoch, rfl, hqa⟩
    exact hnullifier p hp q hq (hpa.trans hqa.symm) (hpepoch.trans hqepoch.symm)

/-- Messages at depths that bind are limited. -/
theorem limited_of_binds (hparams : tree.params = .new) {ps : List (AcceptedProof tree)}
    (hbinds : ∀ p ∈ ps, Binds tree p.depth) : Limited tree ps := by
  by_cases hc : Collides compress {q | ∃ p ∈ ps, q ∈ p.evaluated}
  · exact .inl hc
  · refine limited_of_mem fun p hp => (commitment_mem hparams p (hbinds p hp)).resolve_right ?_
    exact fun hcp => hc (hcp.mono _ fun q hq => ⟨p, hp, hq⟩)

/-- One message that is limited comes from a leaf. -/
theorem Limited.mem {p : AcceptedProof tree} (h : Limited tree [p]) :
    commitment p.sk ∈ tree.leaves ∨ Collides compress p.evaluated := by
  rcases h with hc | ⟨hmem, -, -⟩
  · refine .inr (hc.mono _ ?_)
    rintro q ⟨p', hp', hq⟩
    rwa [List.mem_singleton.1 hp'] at hq
  · exact .inl (hmem p (List.mem_singleton_self p))

/-- A valid depth whose messages are limited binds. -/
theorem binds_of_limited (hparams : tree.params = .new) {declared : ℕ}
    (hvalid : isValidDepth declared)
    (h : ∀ p : AcceptedProof tree, p.depth = declared → Limited tree [p]) :
    Binds tree declared := by
  rcases Nat.lt_trichotomy tree.depth declared with hlt | heq | hlt
  · -- continue the chain with the path of the leaf it ends in
    refine .inr (.inl ⟨hlt, fun sk epoch low hlow hmem => ?_⟩)
    obtain ⟨i, hi, hleaf⟩ := MerkleTree.exists_of_mem_leaves hmem
    have hroot := tree.fold_path hi
    rw [hparams, hleaf, ← fold_append, MerkleTree.nodeAt, hparams] at hroot
    have hlen : (low ++ treePath compress tree.leaf 0 i tree.depth).length = declared := by
      rw [List.length_append, length_treePath, hlow]
      omega
    obtain ⟨p, hdepth, hsk, hepoch, hpath⟩ :=
      exists_acceptedProof hparams epoch (hlen.symm ▸ hvalid) hroot
    have hlimited := (h p (hdepth.trans hlen)).mem
    rw [AcceptedProof.evaluated, hsk, hepoch, hpath] at hlimited
    refine hlimited.imp_right fun hc => hc.mono _ ?_
    exact inputsOf_append_treePath sk epoch low (Nat.zero_add _) hi hleaf.symm
  · exact .inl heq.symm
  · -- start at the inner node
    refine .inr (.inr ⟨hlt, fun epoch i hi hright => ?_⟩)
    have hj : tree.depth - declared = tree.depth - declared - 1 + 1 := by omega
    have hcommitment : commitment (node compress tree.leaf (tree.depth - declared - 1) (2 * i)) =
        node compress tree.leaf (tree.depth - declared) i := by
      rw [hj, node_succ, children, hright]
      rfl
    have hroot := fold_treePath compress tree.leaf (tree.depth - declared) i declared
    rw [← hcommitment, Nat.sub_add_cancel hlt.le, Nat.div_eq_of_lt hi] at hroot
    have hlen := length_treePath compress tree.leaf (tree.depth - declared) i declared
    obtain ⟨p, hdepth, hsk, hepoch, hpath⟩ :=
      exists_acceptedProof hparams epoch (hlen.symm ▸ hvalid) hroot
    have hlimited := (h p (hdepth.trans hlen)).mem
    rw [AcceptedProof.evaluated, hsk, hepoch, hpath, hcommitment] at hlimited
    have hnil := hcommitment
    rw [← fold_nil compress (commitment _)] at hnil
    have hsubset := inputsOf_append_treePath _ epoch [] (Nat.sub_add_cancel hlt.le) hi hnil
    rw [List.nil_append] at hsubset
    exact hlimited.imp_right fun hc => hc.mono _ hsubset

end Bound

/-- **The leaves limit the messages of a tree exactly at the declared depths that bind.** -/
theorem limited_iff {depth : ℕ} {leaves : List BaseElement} {tree : MerkleTree}
    (htree : MerkleTree.new depth leaves = .ok tree) {D : Set ℕ}
    (hD : ∀ d ∈ D, isValidDepth d) :
    (∀ ps : List (AcceptedProof tree), (∀ p ∈ ps, p.depth ∈ D) → Limited tree ps) ↔
      ∀ d ∈ D, Binds tree d := by
  obtain ⟨hparams, -⟩ := MerkleTree.params_of_new htree
  constructor
  · intro h d hd
    refine binds_of_limited hparams (hD d hd) fun p hp => h [p] fun q hq => ?_
    rwa [List.mem_singleton.1 hq, hp]
  · exact fun h ps hps => limited_of_binds hparams fun p hp => h _ (hps p hp)

/-- A tree of depth 1, and messages that declare its own depth or a larger one. -/
theorem limited_iff_single :
    ∃ tree, MerkleTree.new 1 [commitment 1] = .ok tree ∧
      ((∀ ps : List (AcceptedProof tree), (∀ p ∈ ps, p.depth ∈ ({1, 5} : Set ℕ)) →
        Limited tree ps) ↔ ∀ d ∈ ({1, 5} : Set ℕ), Binds tree d) := by
  obtain ⟨tree, htree, -⟩ :=
    MerkleTree.exists_new (by decide : [commitment 1].length ≤ 2 ^ 1)
  refine ⟨tree, htree, limited_iff htree fun d hd => ?_⟩
  rcases hd with rfl | rfl <;> decide

/-! ### A leaf with sixteen keys below it -/

/-- Compressions with a zero on the right, from the key 1 on. -/
theorem compress_chain :
    commitment 1 = 0xe141b0b609b5b8c1 ∧
      compress 0xe141b0b609b5b8c1 0 = 0x643ad342e01d90c0 ∧
      compress 0x643ad342e01d90c0 0 = 0x4caf1d65d0ab9294 ∧
      compress 0x4caf1d65d0ab9294 0 = 0x1e2d6951f6e6e36f ∧
      compress 0x1e2d6951f6e6e36f 0 = 0xb2a8c1aed83e454c ∧
      compress 0xb2a8c1aed83e454c 0 = 0xa8a2a324ee0633b2 ∧
      compress 1 2 = 0xedfb93cb065f50e4 := by
  decide +kernel

/-- A member registers, in place of a commitment, the root of a tree of depth 4 over its own
commitments, and declares depth 5. -/
theorem not_limited_chain :
    ¬ ∀ (depth : ℕ) (leaves : List BaseElement) (tree : MerkleTree),
      MerkleTree.new depth leaves = .ok tree → isValidDepth depth →
        ∀ ps : List (AcceptedProof tree), Limited tree ps := by
  intro h
  obtain ⟨hc1, hc2, hc3, hc4, hc5, hc6, hc7⟩ := compress_chain
  obtain ⟨tree, htree, hleaves⟩ :=
    MerkleTree.exists_new (by decide : [(0xb2a8c1aed83e454c : BaseElement)].length ≤ 2 ^ 1)
  obtain ⟨hparams, hdepth⟩ := MerkleTree.params_of_new htree
  have hleaf0 : tree.leaf 0 = 0xb2a8c1aed83e454c := by
    rw [MerkleTree.leaf, hleaves]
    rfl
  have hleaf1 : tree.leaf 1 = 0 := by
    rw [MerkleTree.leaf, hleaves]
    rfl
  -- four steps with a zero on the right lead from the commitment to the leaf
  have hlow : fold compress (commitment 1) (List.replicate 4 ⟨0, .left⟩) = tree.leaf 0 := by
    simp only [List.replicate, fold_cons, fold_nil, climb, PathStep.inputs, hc1, hc2, hc3, hc4, hc5,
      hleaf0]
  have hinputs : pathInputs compress (commitment 1) (List.replicate 4 ⟨0, .left⟩) =
      [(0xe141b0b609b5b8c1, 0), (0x643ad342e01d90c0, 0), (0x4caf1d65d0ab9294, 0),
        (0x1e2d6951f6e6e36f, 0)] := by
    simp only [List.replicate, pathInputs, climb, PathStep.inputs, hc1, hc2, hc3, hc4]
  have hroot := tree.fold_path (Nat.two_pow_pos tree.depth)
  rw [hparams, ← hlow, ← fold_append, MerkleTree.nodeAt, hparams, hdepth] at hroot
  generalize hlowEq : List.replicate 4 (⟨0, .left⟩ : PathStep BaseElement) = low at *
  have hvalid : isValidDepth (low ++ treePath compress tree.leaf 0 0 1).length := by
    rw [List.length_append, length_treePath, ← hlowEq, List.length_replicate]
    decide
  rw [← hdepth] at hroot hvalid
  obtain ⟨p, -, hsk, hepoch, hpath⟩ := exists_acceptedProof hparams 2 hvalid hroot
  have hlimited := (h 1 _ tree htree (by decide) [p]).mem
  rw [AcceptedProof.evaluated, hsk, hepoch, hpath] at hlimited
  rcases hlimited with hmem | hcollides
  · rw [hleaves, hc1] at hmem
    revert hmem
    decide +kernel
  · have hcollides' := hcollides.mono _ (inputsOf_append_treePath 1 2 _ (Nat.zero_add _)
      (Nat.two_pow_pos _) hlow)
    refine not_collides_of_nodup compress (l := [(0xb2a8c1aed83e454c, 0), (1, 0), (1, 2),
      (0xe141b0b609b5b8c1, 0), (0x643ad342e01d90c0, 0), (0x4caf1d65d0ab9294, 0),
      (0x1e2d6951f6e6e36f, 0)]) (fun q hq => ?_) ?_ hcollides'
    · rcases hq with (⟨k, i, hk, hi, rfl⟩ | hq) | hq
      · obtain rfl : k = 0 := by omega
        obtain rfl : i = 0 := by
          rw [hdepth] at hi
          omega
        rw [children, node, node, hleaf0, hleaf1]
        exact List.mem_cons_self
      · rcases hq with rfl | rfl <;> simp
      · rw [Set.mem_ofPred_eq, hinputs] at hq
        exact List.mem_cons_of_mem _ (List.mem_cons_of_mem _ (List.mem_cons_of_mem _ hq))
    · rw [commitment] at hc1
      simp only [List.map_cons, List.map_nil, hc1, hc2, hc3, hc4, hc5, hc6, hc7]
      decide +kernel

end Rln

end NovaChannel
