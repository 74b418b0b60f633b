import NovaChannel.Oram.Refinement
import NovaChannel.Formats
import Mathlib.Data.Nat.Bitwise

/-!
# The integrity layer

A Merkle tree over the buckets: a node hashes to its bucket and its two children.  The client
keeps the root and recomputes one path of hashes per access, with the hashes of the siblings from
the server: once to check what it read, once over what it writes back.

* `verifiedAccessAt` : `verified_access` over any server;
* `subtreeHash` : the hash of a subtree;
* `chainHashes` : the hashes along a path, from bucket hashes and sibling hashes
  (`recomputePathHashes_eq`);
* `chainHashes_eq` : from the true siblings it reaches the true root.
-/

namespace NovaChannel

namespace Oram

open Wire (ascii beBytes putU64 putVar)

/-! ### Hashing -/

/-- SHA-256, and the bytes of a value. -/
structure Hashing (V : Type) where
  sha256 : Bytes → Digest
  asRef : V → Bytes

section Hashes

variable {V : Type} (H : Hashing V)

/-- What `hash_bucket` feeds the hasher. -/
def bucketInput (blocks : List (Block V)) : Bytes :=
  ascii "novachannel-oram bucket v1" ++ beBytes 8 blocks.length ++
    blocks.flatMap fun b => putU64 b.id ++ putVar (H.asRef b.value)

/-- `hash_bucket`. -/
def hashBucket (blocks : List (Block V)) : Digest := H.sha256 (bucketInput H blocks)

/-- What `hash_node` feeds the hasher. -/
def nodeInput (bucketHash left right : Digest) : Bytes :=
  ascii "novachannel-oram node v1" ++ bucketHash.1 ++ left.1 ++ right.1

/-- `hash_node`. -/
def hashNode (bucketHash left right : Digest) : Digest :=
  H.sha256 (nodeInput bucketHash left right)

/-- `EMPTY_CHILD`. -/
def emptyChild : Digest := zeroDigest

/-- The hash of the subtree of a node at a height. -/
def subtreeHash (buckets : Buckets V) : ℕ → ℕ → Digest
  | 0, node => hashNode H (hashBucket H (buckets node)) emptyChild emptyChild
  | height + 1, node => hashNode H (hashBucket H (buckets node))
      (subtreeHash buckets height (2 * node)) (subtreeHash buckets height (2 * node + 1))

end Hashes

/-! ### The verified client -/

/-- `VerifiableServerStorage`. -/
structure VerifiableServerStorage (σ V : Type) extends ServerStorage σ V where
  /-- The stored hash of a node; a server may take note of the question. -/
  nodeHash : σ → ℕ → Digest × σ
  setNodeHash : σ → ℕ → Digest → σ

/-- `IntegrityCheckedServer`: the buckets and the node hashes. -/
def integrityCheckedServer (V : Type) (bucketCapacity : ℕ) :
    VerifiableServerStorage (Buckets V × (ℕ → Digest)) V where
  readAndClear s node := (s.1 node, (Function.update s.1 node [], s.2))
  write s node blocks := some (Function.update s.1 node blocks, s.2)
  bucketCapacity := bucketCapacity
  nodeHash s node := (s.2 node, s)
  setNodeHash s node hash := (s.1, Function.update s.2 node hash)

/-- `IntegrityError`. -/
inductive IntegrityError
  | integrityError
  deriving DecidableEq

section Definitions

variable {σ V : Type} (S : VerifiableServerStorage σ V) (H : Hashing V)

/-- `init_empty_root`. -/
def initEmptyRoot (c : Client σ V) : Client σ V :=
  let emptyBucketHash := hashBucket H ([] : List (Block V))
  let server := (List.range' (numLeaves c.depth) (numLeaves c.depth)).foldl (fun server node =>
    S.setNodeHash server node (hashNode H emptyBucketHash emptyChild emptyChild)) c.server
  let server := (List.range' 1 (numLeaves c.depth - 1)).reverse.foldl (fun server node =>
    let (left, server) := S.nodeHash server (2 * node)
    let (right, server) := S.nodeHash server (2 * node + 1)
    S.setNodeHash server node (hashNode H emptyBucketHash left right)) server
  let (root, server) := S.nodeHash server 1
  { c with server := server, root := root }

/-- The children's hashes in their order: the path came from `prev`, whose hash is `cur`. -/
def inOrder (prev : ℕ) (cur siblingHash : Digest) : Digest × Digest :=
  if prev % 2 = 0 then (cur, siblingHash) else (siblingHash, cur)

/-- The loop of `recompute_path_hashes`, with the node before and its hash. -/
def recomputePathHashes (depth : ℕ) (contentsAt : ℕ → Option Digest) :
    Option (ℕ × Digest) → List ℕ → σ → Option (List (ℕ × Digest) × σ)
  | _, [], server => some ([], server)
  | prev, node :: path, server => do
    let bucketHash ← contentsAt node
    if node ≥ numLeaves depth then
      let newHash := hashNode H bucketHash emptyChild emptyChild
      let (result, server) ← recomputePathHashes depth contentsAt (some (node, newHash)) path server
      some ((node, newHash) :: result, server)
    else
      let (prevNode, cur) ← prev
      let (siblingHash, server) := S.nodeHash server (prevNode ^^^ 1)
      let (left, right) := inOrder prevNode cur siblingHash
      let newHash := hashNode H bucketHash left right
      let (result, server) ← recomputePathHashes depth contentsAt (some (node, newHash)) path server
      some ((node, newHash) :: result, server)

/-- The buckets of a path, read one after the other. -/
def readContents : List ℕ → σ → List (ℕ × List (Block V)) × σ
  | [], server => ([], server)
  | node :: path, server =>
    let (blocks, server) := S.readAndClear server node
    let (contents, server) := readContents path server
    ((node, blocks) :: contents, server)

/-- The buckets of a path, put back. -/
def putBack : List (ℕ × List (Block V)) → σ → Option σ
  | [], server => some server
  | (node, blocks) :: contents, server => do
    let server ← S.write server node blocks
    putBack contents server

/-- The buckets of a path with their new hashes. -/
def writeBack (newCombinedHashes : List (ℕ × Digest)) :
    List (ℕ × List (Block V)) → σ → Option σ
  | [], server => some server
  | (node, chosen) :: chosenPerNode, server => do
    let hash ← newCombinedHashes.lookup node
    let server ← S.write server node chosen
    writeBack newCombinedHashes chosenPerNode (S.setNodeHash server node hash)

/-- The bucket hashes of a path, as `recompute_path_hashes` looks them up. -/
def bucketHashes (contents : List (ℕ × List (Block V))) (node : ℕ) : Option Digest :=
  (contents.lookup node).map (hashBucket H)

/-- The end of `verified_access`, once the check has passed: update, evict, hash and write back. -/
def updateAndEvict (c : Client σ V) (id : BlockId) (newValue : Option V) (path : List ℕ)
    (contents : List (ℕ × List (Block V))) :
    Option (Client σ V × Except IntegrityError (Option V)) := do
  let stash := c.stash ++ contents.flatMap Prod.snd
  let oldValue := lookup id stash
  let (chosenPerNode, stash) ← evictChoose c.depth c.positionMap S.bucketCapacity path
    (update id newValue stash)
  let (newPathHashes, server) ← recomputePathHashes S H c.depth (bucketHashes H chosenPerNode)
    none path c.server
  let (_, root) ← newPathHashes.getLast?
  let server ← writeBack S newPathHashes chosenPerNode server
  some ({ c with stash := stash, root := root, server := server }, .ok oldValue)

/-- `verified_access` once its leaves are drawn. -/
def verifiedAccessAt (c : Client σ V) (id : BlockId) (newValue : Option V)
    (oldLeaf newLeaf : ℕ) : Option (Client σ V × Except IntegrityError (Option V)) := do
  let c := { c with positionMap := Function.update c.positionMap id (some newLeaf) }
  let path := pathNodes c.depth oldLeaf
  let (contents, server) := readContents S path c.server
  let (pathHashes, server) ← recomputePathHashes S H c.depth (bucketHashes H contents) none path
    server
  let (_, observedRoot) ← pathHashes.getLast?
  if observedRoot ≠ c.root then
    let server ← putBack S contents server
    some ({ c with server := server }, .error .integrityError)
  else updateAndEvict S H { c with server := server } id newValue path contents

/-- `verified_access`: a verified read, or a verified write of a new value. -/
def verifiedAccess (c : Client σ V) (id : BlockId) (newValue : Option V) (tape : List ℕ) :
    Option (Client σ V × Except IntegrityError (Option V) × List ℕ) := do
  let (oldLeaf, newLeaf, tape) := drawLeaves c id tape
  let (c, answer) ← verifiedAccessAt S H c id newValue oldLeaf newLeaf
  some (c, answer, tape)

end Definitions

/-! ### The way up -/

/-- `ps` lists the strict ancestors of `n`, nearest first. -/
inductive Ascent : ℕ → List ℕ → Prop
  | root : Ascent 1 []
  | step {n : ℕ} {ps : List ℕ} (hn : 1 < n) (h : Ascent (n / 2) ps) : Ascent n (n / 2 :: ps)

theorem ascent_climb : ∀ {fuel n : ℕ}, 0 < n → n ≤ fuel → Ascent n (climb fuel n) := by
  intro fuel
  induction fuel with
  | zero => intro n hn hf; omega
  | succ fuel ih =>
    intro n hn hf
    rw [climb]
    by_cases h1 : n > 1
    · rw [if_pos h1]
      exact .step h1 (ih (by omega) (by omega))
    · obtain rfl : n = 1 := by omega
      exact .root

/-- The node of a leaf and the nodes above it. -/
def leafNode (depth leaf : ℕ) : ℕ := numLeaves depth + leaf

/-- The path without its leaf. -/
def upperPath (depth leaf : ℕ) : List ℕ := climb (leafNode depth leaf) (leafNode depth leaf)

theorem pathNodes_eq (depth leaf : ℕ) :
    pathNodes depth leaf = leafNode depth leaf :: upperPath depth leaf := rfl

theorem ascent_upperPath (depth leaf : ℕ) :
    Ascent (leafNode depth leaf) (upperPath depth leaf) := by
  have := numLeaves_pos depth
  exact ascent_climb (by unfold leafNode; omega) (Nat.le_refl _)

namespace Ascent

variable {n : ℕ} {ps : List ℕ}

/-- The number of steps to the root is the level. -/
theorem level (h : Ascent n ps) : 2 ^ ps.length ≤ n ∧ n < 2 ^ (ps.length + 1) := by
  induction h with
  | root => simp
  | @step n ps hn _ ih =>
    rw [List.length_cons, pow_succ 2 (ps.length + 1), pow_succ]
    rw [pow_succ] at ih
    omega

theorem lt (h : Ascent n ps) {a : ℕ} (ha : a ∈ ps) : a < n := by
  induction h with
  | root => cases ha
  | @step n ps hn _ ih =>
    rcases List.mem_cons.1 ha with rfl | ha
    · omega
    · have := ih ha
      omega

theorem under (h : Ascent n ps) {a : ℕ} (ha : a ∈ ps) : HeapTree.Under a n := by
  induction h with
  | root => cases ha
  | @step n ps hn _ ih =>
    rcases List.mem_cons.1 ha with rfl | ha
    · exact HeapTree.under_half n
    · exact (ih ha).trans (HeapTree.under_half n)

theorem le_half (h : Ascent n ps) {a : ℕ} (ha : a ∈ ps) : a ≤ n / 2 := by
  rcases HeapTree.under_iff_half.1 (h.under ha) with he | hu
  · exact absurd (h.lt ha) (he ▸ Nat.lt_irrefl _)
  · exact hu.le

end Ascent

/-- The leaf of a path is the only node of it on the last level. -/
theorem length_upperPath {depth leaf : ℕ} (hleaf : leaf < numLeaves depth) :
    (upperPath depth leaf).length = depth := by
  obtain ⟨h1, h2⟩ := (ascent_upperPath depth leaf).level
  have hlow : 2 ^ depth ≤ leafNode depth leaf := Nat.le_add_right _ _
  have hhigh : leafNode depth leaf < 2 ^ (depth + 1) := by
    unfold leafNode numLeaves at *
    rw [pow_succ]
    omega
  have hle := (Nat.pow_lt_pow_iff_right Nat.one_lt_two).1 (h1.trans_lt hhigh)
  have hge := (Nat.pow_lt_pow_iff_right Nat.one_lt_two).1 (hlow.trans_lt h2)
  omega

theorem lt_of_mem_upperPath {depth leaf node : ℕ} (hleaf : leaf < numLeaves depth)
    (h : node ∈ upperPath depth leaf) : node < numLeaves depth := by
  have hle := (ascent_upperPath depth leaf).le_half h
  unfold leafNode at hle
  omega

/-- A node and its sibling are the children of their parent. -/
theorem sibling_cases {n : ℕ} (hn : 1 < n) :
    (n % 2 = 0 ∧ n = 2 * (n / 2) ∧ n ^^^ 1 = 2 * (n / 2) + 1) ∨
      (n % 2 ≠ 0 ∧ n = 2 * (n / 2) + 1 ∧ n ^^^ 1 = 2 * (n / 2)) := by
  rcases Nat.even_or_odd n with he | ho
  · refine .inl ⟨Nat.even_iff.1 he, ?_, ?_⟩
    · have := Nat.even_iff.1 he
      omega
    · rw [Nat.xor_one_of_even he]
      have := Nat.even_iff.1 he
      omega
  · have hodd := Nat.odd_iff.1 ho
    refine .inr ⟨by omega, by omega, ?_⟩
    rw [Nat.xor_one_of_odd ho]
    omega

/-- No node of a path is below the sibling of another one. -/
theorem not_under_sibling {n x m : ℕ} (hn : 1 < n) (hnm : HeapTree.Under n m)
    (hxm : HeapTree.Under x m) : ¬ HeapTree.Under (n ^^^ 1) x := by
  intro h
  have hm := h.trans hxm
  rcases sibling_cases hn with ⟨-, h1, h2⟩ | ⟨-, h1, h2⟩
  · rw [h2] at hm
    rw [h1] at hnm
    exact HeapTree.not_under_sibling (by omega) hnm hm
  · rw [h2] at hm
    rw [h1] at hnm
    exact HeapTree.not_under_sibling (by omega) hm hnm

/-! ### The hashes along a path -/

section Chain

variable {σ V : Type} (S : VerifiableServerStorage σ V) (H : Hashing V)

/-- What the server answers for the siblings along a path. -/
def siblingAnswers : ℕ → List ℕ → σ → List Digest × σ
  | _, [], server => ([], server)
  | prev, node :: path, server =>
    let (siblingHash, server) := S.nodeHash server (prev ^^^ 1)
    let (answers, server) := siblingAnswers node path server
    (siblingHash :: answers, server)

/-- The hashes of the nodes above `prev`, from the bucket hashes and the siblings' hashes. -/
def chainHashes (bucketHash : ℕ → Digest) :
    ℕ → Digest → List ℕ → List Digest → List (ℕ × Digest)
  | prev, cur, node :: path, siblingHash :: answers =>
    let newHash := hashNode H (bucketHash node) (inOrder prev cur siblingHash).1
      (inOrder prev cur siblingHash).2
    (node, newHash) :: chainHashes bucketHash node newHash path answers
  | _, _, _, _ => []

/-- The last of them. -/
def chainRoot (bucketHash : ℕ → Digest) : ℕ → Digest → List ℕ → List Digest → Digest
  | prev, cur, node :: path, siblingHash :: answers =>
    chainRoot bucketHash node (hashNode H (bucketHash node) (inOrder prev cur siblingHash).1
      (inOrder prev cur siblingHash).2) path answers
  | _, cur, _, _ => cur

/-- The hash of a leaf from its bucket hash. -/
def leafHash (bucketHash : ℕ → Digest) (leaf : ℕ) : Digest :=
  hashNode H (bucketHash leaf) emptyChild emptyChild

theorem getLast?_chainHashes (bucketHash : ℕ → Digest) (prev : ℕ) (cur : Digest)
    (path : List ℕ) (answers : List Digest) :
    (((prev, cur) :: chainHashes H bucketHash prev cur path answers).getLast?).map Prod.snd =
      some (chainRoot H bucketHash prev cur path answers) := by
  induction path generalizing prev cur answers with
  | nil => rfl
  | cons node path ih =>
    cases answers with
    | nil => rfl
    | cons a answers =>
      rw [chainHashes, chainRoot, List.getLast?_cons_cons]
      exact ih node _ answers

theorem length_siblingAnswers (prev : ℕ) (path : List ℕ) (server : σ) :
    (siblingAnswers S prev path server).1.length = path.length := by
  induction path generalizing prev server with
  | nil => rfl
  | cons node path ih => simp [siblingAnswers, ih]

theorem recompute_above {depth : ℕ} {contentsAt : ℕ → Option Digest} {bucketHash : ℕ → Digest}
    {path : List ℕ} (hpath : ∀ node ∈ path, node < numLeaves depth ∧
      contentsAt node = some (bucketHash node)) (prev : ℕ) (cur : Digest) (server : σ) :
    recomputePathHashes S H depth contentsAt (some (prev, cur)) path server =
      some (chainHashes H bucketHash prev cur path (siblingAnswers S prev path server).1,
        (siblingAnswers S prev path server).2) := by
  induction path generalizing prev cur server with
  | nil => rfl
  | cons node path ih =>
    obtain ⟨hlt, hnode⟩ := hpath node List.mem_cons_self
    have hrest := ih fun n hn => hpath n (List.mem_cons_of_mem _ hn)
    simp only [recomputePathHashes, hnode, Option.bind_eq_bind, Option.bind_some,
      if_neg (Nat.not_le.2 hlt), hrest, siblingAnswers, chainHashes]

/-- **One pass over a path** asks for the siblings and computes the chain of hashes. -/
theorem recomputePathHashes_eq {depth leaf : ℕ} (hleaf : leaf < numLeaves depth)
    {contentsAt : ℕ → Option Digest} {bucketHash : ℕ → Digest}
    (hcontents : ∀ node ∈ pathNodes depth leaf, contentsAt node = some (bucketHash node))
    (server : σ) :
    recomputePathHashes S H depth contentsAt none (pathNodes depth leaf) server =
      some ((leafNode depth leaf, leafHash H bucketHash (leafNode depth leaf)) ::
        chainHashes H bucketHash (leafNode depth leaf)
          (leafHash H bucketHash (leafNode depth leaf)) (upperPath depth leaf)
          (siblingAnswers S (leafNode depth leaf) (upperPath depth leaf) server).1,
        (siblingAnswers S (leafNode depth leaf) (upperPath depth leaf) server).2) := by
  have hge : leafNode depth leaf ≥ numLeaves depth := Nat.le_add_right _ _
  rw [pathNodes_eq] at hcontents ⊢
  have habove := recompute_above S H (fun node hnode => ⟨lt_of_mem_upperPath hleaf hnode,
    hcontents node (List.mem_cons_of_mem _ hnode)⟩) (leafNode depth leaf)
    (leafHash H bucketHash (leafNode depth leaf)) server
  simp only [recomputePathHashes, hcontents _ List.mem_cons_self, Option.bind_eq_bind,
    Option.bind_some, if_pos hge]
  rw [leafHash] at habove
  rw [habove]
  rfl

/-- The hashes of the siblings along a path, in a tree of buckets. -/
def trueSiblings (buckets : Buckets V) : ℕ → ℕ → List ℕ → List Digest
  | _, _, [] => []
  | height, prev, node :: path =>
    subtreeHash H buckets height (prev ^^^ 1) :: trueSiblings buckets (height + 1) node path

theorem inOrder_subtreeHash (buckets : Buckets V) (height : ℕ) {prev : ℕ} (hprev : 1 < prev) :
    inOrder prev (subtreeHash H buckets height prev) (subtreeHash H buckets height (prev ^^^ 1)) =
      (subtreeHash H buckets height (2 * (prev / 2)),
        subtreeHash H buckets height (2 * (prev / 2) + 1)) := by
  rcases sibling_cases hprev with ⟨h, h1, h2⟩ | ⟨h, h1, h2⟩
  · rw [inOrder, if_pos h, h2, ← h1]
  · rw [inOrder, if_neg h, h2, ← h1]

/-- **From the true siblings a path reaches the true root**, with the hash of every node on the
way. -/
theorem chainHashes_eq {buckets : Buckets V} {bucketHash : ℕ → Digest} {prev : ℕ}
    {path : List ℕ} (h : Ascent prev path)
    (hpath : ∀ node ∈ path, bucketHash node = hashBucket H (buckets node)) (height : ℕ) :
    chainRoot H bucketHash prev (subtreeHash H buckets height prev) path
        (trueSiblings H buckets height prev path) =
      subtreeHash H buckets (height + path.length) 1 ∧
    ∀ i node, path[i]? = some node →
      (node, subtreeHash H buckets (height + 1 + i) node) ∈
        chainHashes H bucketHash prev (subtreeHash H buckets height prev) path
          (trueSiblings H buckets height prev path) := by
  induction h generalizing height with
  | root => exact ⟨rfl, fun i node hi => by simp at hi⟩
  | @step n ps hn _ ih =>
    have hnew : hashNode H (bucketHash (n / 2))
        (inOrder n (subtreeHash H buckets height n) (subtreeHash H buckets height (n ^^^ 1))).1
        (inOrder n (subtreeHash H buckets height n) (subtreeHash H buckets height (n ^^^ 1))).2 =
        subtreeHash H buckets (height + 1) (n / 2) := by
      rw [inOrder_subtreeHash H buckets height hn, hpath _ List.mem_cons_self]
      rfl
    obtain ⟨h1, h2⟩ := ih (fun node hnode => hpath node (List.mem_cons_of_mem _ hnode))
      (height + 1)
    rw [trueSiblings, chainRoot, chainHashes, hnew]
    have hlen : height + (n / 2 :: ps).length = height + 1 + ps.length := by
      rw [List.length_cons]
      omega
    refine ⟨hlen ▸ h1, fun i node hi => ?_⟩
    cases i with
    | zero =>
      obtain rfl := Option.some.inj hi
      exact List.mem_cons_self
    | succ i =>
      have hheight : height + 1 + (i + 1) = height + 1 + 1 + i := by omega
      rw [hheight]
      exact List.mem_cons_of_mem _ (h2 i node hi)

theorem subtreeHash_congr {buckets buckets' : Buckets V} (height : ℕ) {node : ℕ}
    (h : ∀ n, HeapTree.Under node n → buckets n = buckets' n) :
    subtreeHash H buckets height node = subtreeHash H buckets' height node := by
  induction height generalizing node with
  | zero => rw [subtreeHash, subtreeHash, h node (.refl _)]
  | succ height ih =>
    have hl : HeapTree.Under node (2 * node) := HeapTree.under_iff_children.2 (.inr (.inl (.refl _)))
    have hr : HeapTree.Under node (2 * node + 1) :=
      HeapTree.under_iff_children.2 (.inr (.inr (.refl _)))
    rw [subtreeHash, subtreeHash, h node (.refl _), ih fun n hn => h n (hl.trans hn),
      ih fun n hn => h n (hr.trans hn)]

/-- Changes on the path of a leaf do not reach the siblings. -/
theorem trueSiblings_congr {buckets buckets' : Buckets V} {leaf prev : ℕ} {path : List ℕ}
    (h : Ascent prev path) (hprev : HeapTree.Under prev leaf)
    (hoff : ∀ n, ¬ HeapTree.Under n leaf → buckets n = buckets' n) (height : ℕ) :
    trueSiblings H buckets height prev path = trueSiblings H buckets' height prev path := by
  induction h generalizing height with
  | root => rfl
  | @step n ps hn _ ih =>
    have hhalf : HeapTree.Under (n / 2) leaf := (HeapTree.under_half n).trans hprev
    rw [trueSiblings, trueSiblings, ih hhalf (height + 1)]
    congr 1
    exact subtreeHash_congr H height fun m hm => hoff m fun hmleaf =>
      not_under_sibling hn hprev hmleaf hm

end Chain

end Oram

end NovaChannel
