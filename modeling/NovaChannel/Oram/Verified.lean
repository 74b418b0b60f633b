import NovaChannel.Oram.Integrity

/-!
# The verified client over an honest server

Over a server that keeps buckets and hashes as it is told, `verified_access` does what `access`
does, and the hashes stay those of the buckets.

* `verifiedAccessAt_eq`, `updateAndEvict_eq` : a verified access over any server, with the
  recomputed hashes in closed form;
* `Verified` : the root and every stored hash are those of the buckets;
* `verifiedRun_agrees` : whole runs.
-/

namespace NovaChannel

namespace Oram

/-! ### Over any server -/

section AnyServer

variable {σ V : Type} (S : VerifiableServerStorage σ V) (H : Hashing V)

/-- The blocks of a node among the buckets of a path. -/
def blocksAt (contents : List (ℕ × List (Block V))) (node : ℕ) : List (Block V) :=
  (contents.lookup node).getD []

/-- The root that the buckets of a path and the siblings' hashes lead to. -/
def pathRoot (bucketHash : ℕ → Digest) (depth leaf : ℕ) (answers : List Digest) : Digest :=
  chainRoot H bucketHash (leafNode depth leaf) (leafHash H bucketHash (leafNode depth leaf))
    (upperPath depth leaf) answers

/-- The hashes of all nodes of a path. -/
def pathHashes (bucketHash : ℕ → Digest) (depth leaf : ℕ) (answers : List Digest) :
    List (ℕ × Digest) :=
  (leafNode depth leaf, leafHash H bucketHash (leafNode depth leaf)) ::
    chainHashes H bucketHash (leafNode depth leaf) (leafHash H bucketHash (leafNode depth leaf))
      (upperPath depth leaf) answers

/-- What the server answers for the siblings of the path of a leaf. -/
def pathAnswers (depth leaf : ℕ) (server : σ) : List Digest × σ :=
  siblingAnswers S (leafNode depth leaf) (upperPath depth leaf) server

theorem exists_getLast?_pathHashes (bucketHash : ℕ → Digest) (depth leaf : ℕ)
    (answers : List Digest) : ∃ node, (pathHashes H bucketHash depth leaf answers).getLast? =
      some (node, pathRoot H bucketHash depth leaf answers) := by
  have h := getLast?_chainHashes H bucketHash (leafNode depth leaf)
    (leafHash H bucketHash (leafNode depth leaf)) (upperPath depth leaf) answers
  obtain ⟨last, hlast, hroot⟩ := Option.map_eq_some_iff.1 h
  exact ⟨last.1, hlast.trans (congrArg some (Prod.ext rfl hroot))⟩

theorem keys_chainHashes (bucketHash : ℕ → Digest) (prev : ℕ) (cur : Digest) {path : List ℕ}
    {answers : List Digest} (hlen : answers.length = path.length) :
    (chainHashes H bucketHash prev cur path answers).map Prod.fst = path := by
  induction path generalizing prev cur answers with
  | nil => simp [chainHashes]
  | cons node path ih =>
    obtain ⟨a, answers, rfl⟩ := List.exists_cons_of_length_eq_add_one hlen
    rw [chainHashes, List.map_cons, ih node _ (by simpa using hlen)]

/-- The hashes are those of the nodes of the path. -/
theorem keys_pathHashes (bucketHash : ℕ → Digest) {depth leaf : ℕ} {answers : List Digest}
    (hlen : answers.length = (upperPath depth leaf).length) :
    (pathHashes H bucketHash depth leaf answers).map Prod.fst = pathNodes depth leaf := by
  rw [pathHashes, List.map_cons, keys_chainHashes H bucketHash _ _ hlen, pathNodes_eq]

theorem keys_readContents (path : List ℕ) (server : σ) :
    (readContents S path server).1.map Prod.fst = path := by
  induction path generalizing server with
  | nil => rfl
  | cons node path ih => simp [readContents, ih]

theorem bucketHashes_eq {contents : List (ℕ × List (Block V))} {node : ℕ}
    (h : node ∈ contents.map Prod.fst) :
    bucketHashes H contents node = some (hashBucket H (blocksAt contents node)) := by
  have hsome : (contents.lookup node).isSome = true := by
    rw [List.lookup_isSome_iff]
    obtain ⟨p, hp, rfl⟩ := List.mem_map.1 h
    exact ⟨p, hp, by simp⟩
  obtain ⟨blocks, hblocks⟩ := Option.isSome_iff_exists.1 hsome
  rw [bucketHashes, blocksAt, hblocks]
  rfl

/-- The hashing of one path, over buckets at hand. -/
theorem recompute_contents {depth leaf : ℕ} (hleaf : leaf < numLeaves depth)
    {contents : List (ℕ × List (Block V))}
    (hkeys : contents.map Prod.fst = pathNodes depth leaf) (server : σ) :
    recomputePathHashes S H depth (bucketHashes H contents) none (pathNodes depth leaf) server =
      some (pathHashes H (fun node => hashBucket H (blocksAt contents node)) depth leaf
        (pathAnswers S depth leaf server).1, (pathAnswers S depth leaf server).2) :=
  recomputePathHashes_eq S H hleaf
    (fun node hnode => bucketHashes_eq H (hkeys ▸ hnode)) server

/-- **The second half of a verified access.** -/
theorem updateAndEvict_eq (c : Client σ V) (id : BlockId) (newValue : Option V) {leaf : ℕ}
    (hleaf : leaf < numLeaves c.depth) (contents : List (ℕ × List (Block V))) :
    updateAndEvict S H c id newValue (pathNodes c.depth leaf) contents = (do
      let (chosenPerNode, stash) ← evictChoose c.depth c.positionMap S.bucketCapacity
        (pathNodes c.depth leaf) (update id newValue (c.stash ++ contents.flatMap Prod.snd))
      let answers := pathAnswers S c.depth leaf c.server
      let bucketHash := fun node => hashBucket H (blocksAt chosenPerNode node)
      let server ← writeBack S (pathHashes H bucketHash c.depth leaf answers.1) chosenPerNode
        answers.2
      some ({ c with
          stash := stash, root := pathRoot H bucketHash c.depth leaf answers.1, server := server },
        .ok (lookup id (c.stash ++ contents.flatMap Prod.snd)))) := by
  simp only [updateAndEvict, Option.bind_eq_bind]
  cases hev : evictChoose c.depth c.positionMap S.bucketCapacity (pathNodes c.depth leaf)
      (update id newValue (c.stash ++ contents.flatMap Prod.snd)) with
  | none => rfl
  | some p =>
    obtain ⟨chosenPerNode, stash⟩ := p
    obtain ⟨_, hlast⟩ := exists_getLast?_pathHashes H
      (fun node => hashBucket H (blocksAt chosenPerNode node)) c.depth leaf
      (pathAnswers S c.depth leaf c.server).1
    simp only [Option.bind_some, recompute_contents S H hleaf (evictChoose_eq_some hev).1, hlast]

/-- **A verified access**: the check, and what follows. -/
theorem verifiedAccessAt_eq (c : Client σ V) (id : BlockId) (newValue : Option V)
    {oldLeaf : ℕ} (newLeaf : ℕ) (hlt : oldLeaf < numLeaves c.depth) :
    verifiedAccessAt S H c id newValue oldLeaf newLeaf =
      let contents := readContents S (pathNodes c.depth oldLeaf) c.server
      let answers := pathAnswers S c.depth oldLeaf contents.2
      if pathRoot H (fun node => hashBucket H (blocksAt contents.1 node)) c.depth oldLeaf
          answers.1 ≠ c.root then
        (putBack S contents.1 answers.2).map fun server =>
          ({ c with
              positionMap := Function.update c.positionMap id (some newLeaf), server := server },
            .error .integrityError)
      else
        updateAndEvict S H { c with
            positionMap := Function.update c.positionMap id (some newLeaf), server := answers.2 }
          id newValue (pathNodes c.depth oldLeaf) contents.1 := by
  have hkeys := keys_readContents S (pathNodes c.depth oldLeaf) c.server
  obtain ⟨_, hlast⟩ := exists_getLast?_pathHashes H (fun node => hashBucket H
    (blocksAt (readContents S (pathNodes c.depth oldLeaf) c.server).1 node)) c.depth oldLeaf
    (pathAnswers S c.depth oldLeaf (readContents S (pathNodes c.depth oldLeaf) c.server).2).1
  simp only [verifiedAccessAt, recompute_contents S H hlt hkeys, Option.bind_eq_bind,
    Option.bind_some, hlast]
  split_ifs
  · cases putBack S (readContents S (pathNodes c.depth oldLeaf) c.server).1
      (pathAnswers S c.depth oldLeaf (readContents S (pathNodes c.depth oldLeaf) c.server).2).2 <;>
    rfl
  · rfl

end AnyServer

/-! ### Over the honest server -/

section Honest

variable {V : Type} (H : Hashing V) (capacity : ℕ)

/-- Every stored hash is the hash of its subtree. -/
def Stored (depth : ℕ) (buckets : Buckets V) (hashes : ℕ → Digest) : Prop :=
  ∀ k height node, k + height = depth → 2 ^ k ≤ node → node < 2 ^ (k + 1) →
    hashes node = subtreeHash H buckets height node

theorem readContents_honest {path : List ℕ} (hnd : path.Nodup)
    (server : Buckets V × (ℕ → Digest)) :
    readContents (integrityCheckedServer V capacity) path server =
      (path.map fun node => (node, server.1 node),
        (fun node => if node ∈ path then [] else server.1 node, server.2)) := by
  induction path generalizing server with
  | nil => simp [readContents]
  | cons node path ih =>
    obtain ⟨hnode, hnd⟩ := List.nodup_cons.1 hnd
    have hsame : path.map (fun n => (n, Function.update server.1 node [] n)) =
        path.map fun n => (n, server.1 n) :=
      List.map_congr_left fun n hn => by
        rw [Function.update_of_ne fun he : n = node => hnode (he ▸ hn)]
    simp only [readContents, integrityCheckedServer] at ih ⊢
    rw [ih hnd]
    simp only [hsame, List.map_cons, Prod.mk.injEq, true_and, and_true]
    funext n
    by_cases hn : n = node
    · subst hn
      simp
    · simp [hn]

/-- The stored hashes are the true siblings. -/
theorem siblingAnswers_honest {depth : ℕ} {buckets : Buckets V} {hashes : ℕ → Digest}
    (hstored : Stored H depth buckets hashes) (kept : Buckets V) {prev : ℕ} {path : List ℕ}
    (h : Ascent prev path) {height : ℕ} (hheight : height + path.length = depth) :
    siblingAnswers (integrityCheckedServer V capacity) prev path (kept, hashes) =
      (trueSiblings H buckets height prev path, (kept, hashes)) := by
  induction h generalizing height with
  | root => rfl
  | @step n ps hn htail ih =>
    rw [List.length_cons] at hheight
    have hsibling : hashes (n ^^^ 1) = subtreeHash H buckets height (n ^^^ 1) := by
      obtain ⟨h1, h2⟩ := htail.level
      have hlevel := pow_succ 2 ps.length
      have hlevel' := pow_succ 2 (ps.length + 1)
      refine hstored (ps.length + 1) height _ (by omega) ?_ ?_
      · rcases sibling_cases hn with ⟨-, -, h⟩ | ⟨-, -, h⟩ <;> omega
      · rcases sibling_cases hn with ⟨-, -, h⟩ | ⟨-, -, h⟩ <;> omega
    have hrest := ih (show height + 1 + ps.length = depth by omega)
    simp only [siblingAnswers, trueSiblings, integrityCheckedServer] at hrest ⊢
    rw [hrest, hsibling]

/-- The written-back buckets and hashes. -/
theorem writeBack_honest {newCombinedHashes : List (ℕ × Digest)}
    {chosenPerNode : List (ℕ × List (Block V))} (hnd : (chosenPerNode.map Prod.fst).Nodup)
    (hsome : ∀ node ∈ chosenPerNode.map Prod.fst, (newCombinedHashes.lookup node).isSome = true)
    (server : Buckets V × (ℕ → Digest)) :
    writeBack (integrityCheckedServer V capacity) newCombinedHashes chosenPerNode server =
      some (place chosenPerNode server.1, fun node =>
        if node ∈ chosenPerNode.map Prod.fst then
          (newCombinedHashes.lookup node).getD emptyChild
        else server.2 node) := by
  induction chosenPerNode generalizing server with
  | nil => rfl
  | cons p chosenPerNode ih =>
    obtain ⟨node, chosen⟩ := p
    obtain ⟨hnode, hnd⟩ := List.nodup_cons.1 hnd
    obtain ⟨hash, hhash⟩ := Option.isSome_iff_exists.1 (hsome node List.mem_cons_self)
    have hrest := ih hnd (fun n hn => hsome n (List.mem_cons_of_mem _ hn))
    simp only [writeBack, hhash, integrityCheckedServer, Option.bind_eq_bind,
      Option.bind_some] at hrest ⊢
    rw [hrest]
    simp only [Option.some.injEq, Prod.mk.injEq]
    constructor
    · funext n
      by_cases hn : n = node
      · subst hn
        rw [place_of_notMem hnode]
        simp [place]
      · simp only [place, List.lookup_cons, beq_false_of_ne hn, Function.update_of_ne hn]
    · funext n
      by_cases hn : n = node
      · subst hn
        simp [hnode, hhash]
      · have hiff : n ∈ ((node, chosen) :: chosenPerNode).map Prod.fst ↔
            n ∈ chosenPerNode.map Prod.fst := by simp [hn]
        simp only [hiff, Function.update_of_ne hn]

/-- The client's state as the plain client has it. -/
def Client.forget (c : Client (Buckets V × (ℕ → Digest)) V) : Client (Buckets V) V :=
  { depth := c.depth, server := c.server.1, positionMap := c.positionMap, stash := c.stash
    root := zeroDigest }

/-- The root and every stored hash are those of the buckets. -/
structure Verified (c : Client (Buckets V × (ℕ → Digest)) V) : Prop where
  root : c.root = subtreeHash H c.server.1 c.depth 1
  stored : Stored H c.depth c.server.1 c.server.2

theorem length_trueSiblings (buckets : Buckets V) (height prev : ℕ) (path : List ℕ) :
    (trueSiblings H buckets height prev path).length = path.length := by
  induction path generalizing height prev with
  | nil => rfl
  | cons node path ih => rw [trueSiblings, List.length_cons, List.length_cons, ih]

theorem lookup_of_mem {l : List (ℕ × Digest)} (hnd : (l.map Prod.fst).Nodup) {node : ℕ}
    {hash : Digest} (h : (node, hash) ∈ l) : l.lookup node = some hash := by
  induction l with
  | nil => cases h
  | cons p l ih =>
    obtain ⟨hp, hnd⟩ := List.nodup_cons.1 hnd
    rcases List.mem_cons.1 h with rfl | h
    · exact List.lookup_cons_self
    · have hne : node ≠ p.1 := fun he => hp (he ▸ List.mem_map_of_mem h)
      rw [List.lookup_cons, beq_false_of_ne hne]
      exact ih hnd h

/-- The node `i` steps above a leaf is on level `depth - 1 - i`. -/
theorem Ascent.getElem?_level {n : ℕ} {ps : List ℕ} (h : Ascent n ps) {i a : ℕ}
    (hi : ps[i]? = some a) : 2 ^ (ps.length - 1 - i) ≤ a ∧ a < 2 ^ (ps.length - 1 - i + 1) := by
  induction h generalizing i with
  | root => simp at hi
  | @step n ps hn htail ih =>
    cases i with
    | zero =>
      obtain rfl := Option.some.inj hi
      simpa using htail.level
    | succ i =>
      have hlevel := ih (show ps[i]? = some a from hi)
      have hlen : (n / 2 :: ps).length - 1 - (i + 1) = ps.length - 1 - i := by
        rw [List.length_cons]
        omega
      rwa [hlen]

/-- The height of a node of a path is the number of steps to it. -/
theorem height_of_mem_pathNodes {depth leaf node k height : ℕ} (hleaf : leaf < numLeaves depth)
    (hnode : node ∈ pathNodes depth leaf) (hk : k + height = depth) (h1 : 2 ^ k ≤ node)
    (h2 : node < 2 ^ (k + 1)) :
    (node = leafNode depth leaf ∧ height = 0) ∨
      ∃ i, (upperPath depth leaf)[i]? = some node ∧ height = 0 + 1 + i := by
  have hascent := ascent_upperPath depth leaf
  have hlen := length_upperPath hleaf
  -- a node is on one level only
  have hlevel : ∀ j, 2 ^ j ≤ node → node < 2 ^ (j + 1) → k = j := by
    intro j hj1 hj2
    have ha := (Nat.pow_lt_pow_iff_right Nat.one_lt_two).1 (h1.trans_lt hj2)
    have hb := (Nat.pow_lt_pow_iff_right Nat.one_lt_two).1 (hj1.trans_lt h2)
    omega
  rcases List.mem_cons.1 (pathNodes_eq depth leaf ▸ hnode) with rfl | hnode
  · obtain ⟨hl1, hl2⟩ := hascent.level
    have hk' := hlevel _ hl1 hl2
    exact .inl ⟨rfl, by omega⟩
  · obtain ⟨i, hi⟩ := List.mem_iff_getElem?.1 hnode
    obtain ⟨hl1, hl2⟩ := hascent.getElem?_level hi
    have hilt := (List.getElem?_eq_some_iff.1 hi).1
    have hk' := hlevel _ hl1 hl2
    exact .inr ⟨i, hi, by omega⟩

/-- The hashes of a path over its true siblings are the hashes of its subtrees. -/
theorem pathHashes_true {depth leaf : ℕ} (hleaf : leaf < numLeaves depth) (buckets : Buckets V)
    (bucketHash : ℕ → Digest)
    (hbuckets : ∀ node ∈ pathNodes depth leaf, bucketHash node = hashBucket H (buckets node)) :
    pathRoot H bucketHash depth leaf
        (trueSiblings H buckets 0 (leafNode depth leaf) (upperPath depth leaf)) =
      subtreeHash H buckets depth 1 ∧
    ∀ k height node, node ∈ pathNodes depth leaf → k + height = depth → 2 ^ k ≤ node →
      node < 2 ^ (k + 1) →
      (pathHashes H bucketHash depth leaf
        (trueSiblings H buckets 0 (leafNode depth leaf) (upperPath depth leaf))).lookup node =
        some (subtreeHash H buckets height node) := by
  have hascent := ascent_upperPath depth leaf
  have hlen := length_upperPath hleaf
  rw [pathNodes_eq] at hbuckets
  have hleafHash : leafHash H bucketHash (leafNode depth leaf) =
      subtreeHash H buckets 0 (leafNode depth leaf) := by
    rw [leafHash, hbuckets _ List.mem_cons_self]
    rfl
  obtain ⟨hroot, hmem⟩ := chainHashes_eq H hascent
    (fun node hnode => hbuckets node (List.mem_cons_of_mem _ hnode)) 0
  rw [pathRoot, pathHashes, hleafHash, hroot, hlen, Nat.zero_add]
  refine ⟨rfl, fun k height node hnode hk h1 h2 => ?_⟩
  have hkeys := keys_chainHashes H bucketHash (leafNode depth leaf)
    (subtreeHash H buckets 0 (leafNode depth leaf))
    (length_trueSiblings H buckets 0 (leafNode depth leaf) (upperPath depth leaf))
  refine lookup_of_mem ?_ ?_
  · rw [List.map_cons, hkeys, ← pathNodes_eq]
    exact nodup_pathNodes _ _
  rcases height_of_mem_pathNodes hleaf hnode hk h1 h2 with ⟨rfl, rfl⟩ | ⟨i, hi, rfl⟩
  · exact List.mem_cons_self
  · exact List.mem_cons_of_mem _ (hmem i node hi)

theorem blocksAt_map (buckets : Buckets V) {path : List ℕ} {node : ℕ} (h : node ∈ path) :
    blocksAt (path.map fun n => (n, buckets n)) node = buckets node := by
  induction path with
  | nil => cases h
  | cons n path ih =>
    by_cases hn : node = n
    · subst hn
      simp [blocksAt]
    · have := ih ((List.mem_cons.1 h).resolve_left hn)
      rw [blocksAt] at this ⊢
      rwa [List.map_cons, List.lookup_cons, beq_false_of_ne hn]

/-- Among the replaced buckets are those that were chosen. -/
theorem blocksAt_eq_place {chosenPerNode : List (ℕ × List (Block V))} (buckets : Buckets V)
    {node : ℕ} (h : node ∈ chosenPerNode.map Prod.fst) :
    blocksAt chosenPerNode node = place chosenPerNode buckets node := by
  have hsome : (chosenPerNode.lookup node).isSome = true := by
    rw [List.lookup_isSome_iff]
    obtain ⟨p, hp, rfl⟩ := List.mem_map.1 h
    exact ⟨p, hp, by simp⟩
  obtain ⟨blocks, hblocks⟩ := Option.isSome_iff_exists.1 hsome
  rw [blocksAt, place, hblocks]
  rfl

/-- What was on the path is replaced, cleared or not. -/
theorem place_cleared {chosenPerNode : List (ℕ × List (Block V))} (buckets : Buckets V) :
    place chosenPerNode (fun node =>
      if node ∈ chosenPerNode.map Prod.fst then [] else buckets node) =
      place chosenPerNode buckets := by
  funext node
  by_cases hn : node ∈ chosenPerNode.map Prod.fst
  · rw [← blocksAt_eq_place _ hn, ← blocksAt_eq_place _ hn]
  · rw [place_of_notMem hn, place_of_notMem hn, if_neg hn]

/-- A node of the tree off the path has nothing of the path below it. -/
theorem notMem_of_under {depth leaf node n : ℕ} (hpos : 0 < node)
    (hnode : node ∉ pathNodes depth leaf) (hn : HeapTree.Under node n) :
    n ∉ pathNodes depth leaf := fun hmem =>
  hnode (mem_pathNodes_iff_under.2 ⟨hpos, hn.trans (mem_pathNodes_iff_under.1 hmem).2⟩)

/-- Replacing the buckets of a path leaves the siblings' hashes as they are. -/
theorem trueSiblings_place {depth leaf : ℕ} {chosenPerNode : List (ℕ × List (Block V))}
    (hkeys : chosenPerNode.map Prod.fst = pathNodes depth leaf) (buckets : Buckets V) :
    trueSiblings H buckets 0 (leafNode depth leaf) (upperPath depth leaf) =
      trueSiblings H (place chosenPerNode buckets) 0 (leafNode depth leaf)
        (upperPath depth leaf) := by
  refine trueSiblings_congr H (ascent_upperPath depth leaf) (.refl _) (fun n hn => ?_) 0
  rw [place_of_notMem]
  rw [hkeys, mem_pathNodes_iff_under]
  exact fun h => hn h.2

/-- The hashes after a path was written back are those of the new buckets. -/
theorem Stored.writeBack {depth leaf : ℕ} (hleaf : leaf < numLeaves depth) {buckets : Buckets V}
    {hashes : ℕ → Digest} (h : Stored H depth buckets hashes)
    {chosenPerNode : List (ℕ × List (Block V))}
    (hkeys : chosenPerNode.map Prod.fst = pathNodes depth leaf) :
    Stored H depth (place chosenPerNode buckets) fun node =>
      if node ∈ chosenPerNode.map Prod.fst then
        ((pathHashes H (fun node => hashBucket H (blocksAt chosenPerNode node)) depth leaf
          (trueSiblings H buckets 0 (leafNode depth leaf) (upperPath depth leaf))).lookup
            node).getD emptyChild
      else hashes node := by
  intro k height node hk h1 h2
  have hnew := (pathHashes_true H hleaf _ (fun node => hashBucket H (blocksAt chosenPerNode node))
    (fun n hn => by rw [blocksAt_eq_place buckets (hkeys ▸ hn)])).2 k height node
  rw [trueSiblings_place H hkeys buckets]
  beta_reduce
  by_cases hn : node ∈ chosenPerNode.map Prod.fst
  · rw [if_pos hn, hnew (hkeys ▸ hn) hk h1 h2, Option.getD_some]
  · rw [if_neg hn, h k height node hk h1 h2]
    refine subtreeHash_congr H height fun n hunder => (place_of_notMem ?_).symm
    rw [hkeys] at hn ⊢
    exact notMem_of_under (lt_of_lt_of_le (Nat.two_pow_pos k) h1) hn hunder

/-- Every node of a path is on a level of the tree. -/
theorem exists_level {depth leaf node : ℕ} (hleaf : leaf < numLeaves depth)
    (h : node ∈ pathNodes depth leaf) :
    ∃ k height, k + height = depth ∧ 2 ^ k ≤ node ∧ node < 2 ^ (k + 1) := by
  obtain ⟨hpos, hlt⟩ := range_of_mem_pathNodes hleaf h
  have hlow := Nat.pow_log_le_self 2 (Nat.pos_iff_ne_zero.1 hpos)
  have hhigh := Nat.lt_pow_succ_log_self Nat.one_lt_two node
  have hdepth : 2 ^ Nat.log 2 node < 2 ^ (depth + 1) := by
    rw [pow_succ, Nat.mul_comm]
    exact hlow.trans_lt hlt
  have := (Nat.pow_lt_pow_iff_right Nat.one_lt_two).1 hdepth
  exact ⟨Nat.log 2 node, depth - Nat.log 2 node, by omega, hlow, hhigh⟩

/-- **A verified access over an honest server** does what the plain one does, and the hashes stay
those of the buckets. -/
theorem Verified.accessAt {c : Client (Buckets V × (ℕ → Digest)) V} (hv : Verified H c)
    {id : BlockId} {newValue answer : Option V} {oldLeaf newLeaf : ℕ}
    (hlt : oldLeaf < numLeaves c.depth) {c₁ : Client (Buckets V) V}
    (h : Oram.accessAt (inMemoryServer V capacity) c.forget id newValue oldLeaf newLeaf =
      some (c₁, answer)) :
    ∃ c', verifiedAccessAt (integrityCheckedServer V capacity) H c id newValue oldLeaf newLeaf =
      some (c', .ok answer) ∧ c'.forget = c₁ ∧ c'.depth = c.depth ∧ Verified H c' := by
  rw [accessAt_inMemory] at h
  obtain ⟨⟨chosenPerNode, rest⟩, hev, h⟩ := Option.map_eq_some_iff.1 h
  obtain ⟨rfl, rfl⟩ := Prod.mk.inj h
  clear h
  replace hev : evictChoose c.depth (Function.update c.positionMap id (some newLeaf)) capacity
      (pathNodes c.depth oldLeaf)
      (update id newValue (c.stash ++ (pathNodes c.depth oldLeaf).flatMap c.server.1)) =
      some (chosenPerNode, rest) := hev
  have hkeys := (evictChoose_eq_some hev).1
  have hnd := nodup_pathNodes c.depth oldLeaf
  -- what the server answers
  have hread := readContents_honest capacity hnd c.server
  have hanswers : pathAnswers (integrityCheckedServer V capacity) c.depth oldLeaf
      (fun node => if node ∈ pathNodes c.depth oldLeaf then [] else c.server.1 node, c.server.2) =
      (trueSiblings H c.server.1 0 (leafNode c.depth oldLeaf) (upperPath c.depth oldLeaf),
        (fun node => if node ∈ pathNodes c.depth oldLeaf then [] else c.server.1 node,
          c.server.2)) :=
    siblingAnswers_honest H capacity hv.stored _ (ascent_upperPath c.depth oldLeaf)
      (by rw [length_upperPath hlt, Nat.zero_add])
  have hroot := (pathHashes_true H hlt c.server.1
    (fun node => hashBucket H
      (blocksAt ((pathNodes c.depth oldLeaf).map fun n => (n, c.server.1 n)) node))
    (fun n hn => by rw [blocksAt_map c.server.1 hn])).1
  -- the hashes of the new buckets
  have hpath := pathHashes_true H hlt (place chosenPerNode c.server.1)
    (fun node => hashBucket H (blocksAt chosenPerNode node))
    (fun n hn => by rw [blocksAt_eq_place c.server.1 (hkeys ▸ hn)])
  rw [← trueSiblings_place H hkeys c.server.1] at hpath
  have hsome : ∀ node ∈ chosenPerNode.map Prod.fst,
      ((pathHashes H (fun node => hashBucket H (blocksAt chosenPerNode node)) c.depth oldLeaf
        (trueSiblings H c.server.1 0 (leafNode c.depth oldLeaf)
          (upperPath c.depth oldLeaf))).lookup node).isSome = true := by
    intro node hnode
    rw [hkeys] at hnode
    obtain ⟨k, height, hk, h1, h2⟩ := exists_level hlt hnode
    rw [hpath.2 k height node hnode hk h1 h2]
    rfl
  have hwrite := writeBack_honest capacity (by rw [hkeys]; exact hnd) hsome
    (fun node => if node ∈ chosenPerNode.map Prod.fst then [] else c.server.1 node, c.server.2)
  rw [place_cleared] at hwrite
  have hflat : ((pathNodes c.depth oldLeaf).map fun n => (n, c.server.1 n)).flatMap Prod.snd =
      (pathNodes c.depth oldLeaf).flatMap c.server.1 := by
    rw [List.flatMap_map]
  have hcleared : (fun node => if node ∈ pathNodes c.depth oldLeaf then [] else c.server.1 node) =
      fun node => if node ∈ chosenPerNode.map Prod.fst then [] else c.server.1 node := by
    rw [hkeys]
  have hcapacity : (integrityCheckedServer V capacity).bucketCapacity = capacity := rfl
  rw [verifiedAccessAt_eq _ H c id newValue newLeaf hlt]
  simp only [hread, hanswers]
  rw [if_neg (not_not.2 (hroot.trans hv.root.symm))]
  have hupdate := updateAndEvict_eq (integrityCheckedServer V capacity) H
    { c with
      positionMap := Function.update c.positionMap id (some newLeaf)
      server := (fun node => if node ∈ pathNodes c.depth oldLeaf then [] else c.server.1 node,
        c.server.2) } id newValue hlt ((pathNodes c.depth oldLeaf).map fun n => (n, c.server.1 n))
  rw [hupdate]
  simp only [hcapacity, hflat, hev, hanswers, Option.bind_eq_bind, Option.bind_some]
  rw [hcleared, hwrite]
  exact ⟨_, rfl, rfl, rfl, hpath.1, hv.stored.writeBack H hlt hkeys⟩

/-! ### The empty tree -/

/-- The hashes from a node on are those of an empty tree. -/
def EmptyFrom (depth first : ℕ) (hashes : ℕ → Digest) : Prop :=
  ∀ k height node, k + height = depth → 2 ^ k ≤ node → node < 2 ^ (k + 1) → first ≤ node →
    hashes node = subtreeHash H (fun _ => ([] : List (Block V))) height node

/-- The first loop of `init_empty_root`: the leaves. -/
theorem emptyFrom_leaves (server : Buckets V × (ℕ → Digest)) (l : List ℕ) :
    l.foldl (fun server node => (integrityCheckedServer V capacity).setNodeHash server node
        (hashNode H (hashBucket H ([] : List (Block V))) emptyChild emptyChild)) server =
      (server.1, fun node => if node ∈ l then
        hashNode H (hashBucket H ([] : List (Block V))) emptyChild emptyChild
        else server.2 node) := by
  induction l generalizing server with
  | nil => simp
  | cons node l ih =>
    rw [List.foldl_cons, ih]
    refine Prod.ext rfl ?_
    funext n
    by_cases hn : n = node
    · subst hn
      simp [integrityCheckedServer]
    · simp [integrityCheckedServer, hn]

/-- The second loop: the inner nodes, children first. -/
theorem emptyFrom_inner {depth m : ℕ} (hm : m < numLeaves depth) (buckets : Buckets V)
    {hashes : ℕ → Digest} (h : EmptyFrom H depth (m + 1) hashes) :
    ∃ hashes', (List.range' 1 m).reverse.foldl (fun server node =>
        let (left, server) := (integrityCheckedServer V capacity).nodeHash server (2 * node)
        let (right, server) := (integrityCheckedServer V capacity).nodeHash server (2 * node + 1)
        (integrityCheckedServer V capacity).setNodeHash server node
          (hashNode H (hashBucket H ([] : List (Block V))) left right)) (buckets, hashes) =
        (buckets, hashes') ∧ EmptyFrom H depth 1 hashes' := by
  induction m generalizing hashes with
  | zero => exact ⟨hashes, rfl, h⟩
  | succ m ih =>
    rw [List.range'_1_concat, List.reverse_append, List.reverse_singleton, List.singleton_append,
      List.foldl_cons]
    refine ih (by omega) fun k height node hk h1 h2 hfirst => ?_
    by_cases hnode : node = 1 + m
    · subst hnode
      obtain ⟨height, rfl⟩ : ∃ h, height = h + 1 := by
        -- a node of the last level is a leaf
        refine Nat.exists_eq_succ_of_ne_zero fun h0 => ?_
        obtain rfl : k = depth := by omega
        unfold numLeaves at hm
        omega
      have hlevel := pow_succ 2 k
      have hlevel' := pow_succ 2 (k + 1)
      have hl := h (k + 1) height (2 * (1 + m)) (by omega) (by omega) (by omega) (by omega)
      have hr := h (k + 1) height (2 * (1 + m) + 1) (by omega) (by omega) (by omega) (by omega)
      simp [integrityCheckedServer, subtreeHash, hl, hr]
    · have := h k height node hk h1 h2 (by omega)
      simpa [integrityCheckedServer, hnode] using this

/-- A client over a fresh server, once its root was computed. -/
def freshVerified (depth capacity : ℕ) : Client (Buckets V × (ℕ → Digest)) V :=
  initEmptyRoot (integrityCheckedServer V capacity) H
    (Client.withServer depth ((fun _ => []), fun _ => emptyChild))

theorem freshVerified_eq (depth capacity : ℕ) :
    (freshVerified H depth capacity).forget = Client.withServer depth (fun _ => []) ∧
      (freshVerified H depth capacity).depth = depth ∧
      Verified H (freshVerified H depth capacity) := by
  have hpos := numLeaves_pos depth
  have hleaves : EmptyFrom H (V := V) depth (numLeaves depth - 1 + 1) fun node =>
      if node ∈ List.range' (numLeaves depth) (numLeaves depth) then
        hashNode H (hashBucket H ([] : List (Block V))) emptyChild emptyChild
      else emptyChild := by
    intro k height node hk h1 h2 hfirst
    have hkd : k + 1 ≤ depth + 1 := by omega
    have hlt := h2.trans_le (Nat.pow_le_pow_right Nat.two_pos hkd)
    have hlevel := pow_succ 2 depth
    have hmem : node ∈ List.range' (numLeaves depth) (numLeaves depth) := by
      rw [List.mem_range'_1]
      unfold numLeaves at *
      omega
    have hdepth : 2 ^ depth < 2 ^ (k + 1) := by
      unfold numLeaves at *
      omega
    have := (Nat.pow_lt_pow_iff_right Nat.one_lt_two).1 hdepth
    obtain rfl : height = 0 := by omega
    exact if_pos hmem
  obtain ⟨hashes, hinner, hempty⟩ := emptyFrom_inner H capacity
    (show numLeaves depth - 1 < numLeaves depth by omega) (fun _ => []) hleaves
  have hloops := emptyFrom_leaves H capacity
    ((fun _ => ([] : List (Block V))), fun _ => emptyChild)
    (List.range' (numLeaves depth) (numLeaves depth))
  rw [← hloops] at hinner
  have hfresh : freshVerified H depth capacity =
      { (Client.withServer depth ((fun _ => ([] : List (Block V))), hashes)) with
        root := hashes 1 } :=
    congrArg (fun server => { (Client.withServer depth server : Client _ V) with
      root := server.2 1 }) hinner
  rw [hfresh]
  exact ⟨rfl, rfl, hempty 0 depth 1 (Nat.zero_add _) (by simp) (by simp) (Nat.le_refl _),
    fun k height node hk h1 h2 => hempty k height node hk h1 h2
      (lt_of_lt_of_le (Nat.two_pow_pos k) h1)⟩

/-! ### Runs -/

/-- A run of verified reads and writes: the client and the answers. -/
def verifiedRun {σ : Type} (S : VerifiableServerStorage σ V) :
    Client σ V → List (Operation V) → List ℕ →
      Option (Client σ V × List (Except IntegrityError (Option V)))
  | c, [], _ => some (c, [])
  | c, (id, newValue) :: ops, tape => do
    let (c, answer, tape) ← verifiedAccess S H c id newValue tape
    let (c, answers) ← verifiedRun S c ops tape
    some (c, answer :: answers)

/-- One verified access with the leaves the tape gives. -/
theorem Verified.access {c : Client (Buckets V × (ℕ → Digest)) V} (hv : Verified H c)
    {m : BlockId → Option V} (hinv : Inv capacity m c.forget) (id : BlockId)
    (newValue : Option V) {tape : List ℕ} (htape : ∀ leaf ∈ tape, leaf < numLeaves c.depth) :
    ∃ c' tape', verifiedAccess (integrityCheckedServer V capacity) H c id newValue tape =
        some (c', .ok (m id), tape') ∧
      Oram.access (inMemoryServer V capacity) c.forget id newValue tape =
        some (c'.forget, m id, tape') ∧
      Inv capacity (writeMap m id newValue) c'.forget ∧ Verified H c' ∧ c'.depth = c.depth ∧
      ∀ leaf ∈ tape', leaf < numLeaves c'.depth := by
  obtain ⟨c₁, tape', hplain, hinv', hdepth, htape'⟩ := hinv.access id newValue htape
  have hplain' := hplain
  obtain ⟨oldLeaf, newLeaf, rest, hdrawn, hlt⟩ : ∃ oldLeaf newLeaf rest,
      drawLeaves c id tape = (oldLeaf, newLeaf, rest) ∧ oldLeaf < numLeaves c.depth := by
    cases hpos : c.positionMap id with
    | some leaf => exact ⟨_, _, _, by rw [drawLeaves, hpos], hinv.leaf_lt id leaf hpos⟩
    | none =>
      refine ⟨_, _, _, by rw [drawLeaves, hpos], ?_⟩
      cases tape with
      | nil => exact numLeaves_pos _
      | cons x tape => exact htape x List.mem_cons_self
  have hforget : drawLeaves c.forget id tape = (oldLeaf, newLeaf, rest) := hdrawn
  simp only [Oram.access, hforget, Option.bind_eq_bind, Option.bind_eq_some_iff] at hplain'
  obtain ⟨⟨c₂, answer⟩, haccess, hanswer⟩ := hplain'
  obtain ⟨rfl, rfl, rfl⟩ : c₂ = c₁ ∧ answer = m id ∧ rest = tape' := by
    simpa only [Option.some.injEq, Prod.mk.injEq] using hanswer
  obtain ⟨c', hverified, rfl, hdepth', hv'⟩ := hv.accessAt H capacity hlt haccess
  refine ⟨c', rest, ?_, hplain, hinv', hv', hdepth', htape'⟩
  simp only [verifiedAccess, hdrawn, hverified, Option.bind_eq_bind, Option.bind_some]

theorem verifiedRun_of_inv {c : Client (Buckets V × (ℕ → Digest)) V} (hv : Verified H c)
    {m : BlockId → Option V} (hinv : Inv capacity m c.forget) (ops : List (Operation V))
    {tape : List ℕ} (htape : ∀ leaf ∈ tape, leaf < numLeaves c.depth) :
    ∃ c', verifiedRun H (integrityCheckedServer V capacity) c ops tape =
        some (c', (mapAnswers m ops).map .ok) ∧
      run (inMemoryServer V capacity) c.forget ops tape = some (c'.forget, mapAnswers m ops) ∧
      Inv capacity (finalMap m ops) c'.forget ∧ Verified H c' ∧ c'.depth = c.depth := by
  induction ops generalizing c m tape with
  | nil => exact ⟨c, rfl, rfl, hinv, hv, rfl⟩
  | cons op ops ih =>
    obtain ⟨id, newValue⟩ := op
    obtain ⟨c₁, tape₁, hok, hplain, hinv₁, hv₁, hdepth, htape₁⟩ := hv.access H capacity hinv id newValue htape
    obtain ⟨c', hrun, hplain', hinv', hv', hdepth'⟩ := ih hv₁ hinv₁ htape₁
    refine ⟨c', ?_, ?_, hinv', hv', hdepth'.trans hdepth⟩
    · simp only [verifiedRun, hok, hrun, mapAnswers, Option.bind_eq_bind, Option.bind_some,
        List.map_cons]
    · simp only [run, hplain, hplain', mapAnswers, Option.bind_eq_bind, Option.bind_some]

/-- **The verified client agrees with the plain one**: for every tree and bucket size, every list
of operations and every tape, after `init_empty_root` no verified access over an honest server
fails, the answers, positions, stash and buckets are those of the plain client on the same tape,
the root is the hash of the buckets, and every stored hash that of its subtree. -/
theorem verifiedRun_agrees (depth capacity : ℕ) (ops : List (Operation V)) {tape : List ℕ}
    (htape : ∀ leaf ∈ tape, leaf < numLeaves depth) :
    ∃ c answers, verifiedRun H (integrityCheckedServer V capacity) (freshVerified H depth capacity)
        ops tape = some (c, answers.map .ok) ∧
      run (inMemoryServer V capacity) (Client.withServer depth fun _ => []) ops tape =
        some (c.forget, answers) ∧
      c.root = subtreeHash H c.server.1 depth 1 ∧ Stored H depth c.server.1 c.server.2 := by
  obtain ⟨hforget, hdepth, hv⟩ := freshVerified_eq H depth capacity
  have hinv := Inv.withServer (V := V) depth capacity
  rw [← hforget] at hinv ⊢
  rw [← hdepth] at htape
  obtain ⟨c, hrun, hplain, -, hv', hdepth'⟩ := verifiedRun_of_inv H capacity hv hinv ops htape
  rw [hdepth] at hdepth'
  have hroot := hv'.root
  have hstored := hv'.stored
  rw [hdepth'] at hroot hstored
  exact ⟨c, _, hrun, hplain, hroot, hstored⟩

end Honest

/-- A digest that adds up bytes. -/
def sumDigest (bytes : Bytes) : Digest :=
  ⟨UInt8.ofNat (bytes.foldl (fun n b => n + b.toNat) 0) :: List.replicate 31 0, rfl⟩

/-- A hashing for small runs. -/
def sumHashing : Hashing ℕ where
  sha256 := sumDigest
  asRef n := [n.toUInt8]

/-- Two writes and two reads of one block in a tree of two leaves. -/
theorem verifiedRun_agrees_two : ∃ c answers,
    verifiedRun sumHashing (integrityCheckedServer ℕ 1) (freshVerified sumHashing 1 1)
        [(7, some 10), (7, none), (7, some 11), (7, none)] [1, 0, 1, 1, 0] =
        some (c, answers.map .ok) ∧
      run (inMemoryServer ℕ 1) (Client.withServer 1 fun _ => [])
        [(7, some 10), (7, none), (7, some 11), (7, none)] [1, 0, 1, 1, 0] =
        some (c.forget, answers) := by
  obtain ⟨c, answers, hverified, hplain, -⟩ := verifiedRun_agrees sumHashing 1 1
    [(7, some 10), (7, none), (7, some 11), (7, none)]
    (show ∀ leaf ∈ [1, 0, 1, 1, 0], leaf < numLeaves 1 by decide)
  exact ⟨c, answers, hverified, hplain⟩


end Oram

end NovaChannel
