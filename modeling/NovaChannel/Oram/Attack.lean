import NovaChannel.Lib.Machine
import NovaChannel.Oram.Retry

/-!
# The verified client over any server

The server answers every question as it likes, also twice the same question differently.  What the
client read has been hashed up to its root, so it is what the client wrote.  The root after an
access is computed from the siblings' hashes once more, and these answers are not checked again.

* `pass_binding` : **a pass over a path that leads to the root saw the tree**, or two inputs that
  were hashed collide;
* `attackMachine` : runs over any server, with what was hashed and what was written last;
* `answer_of_careful` : **answers are those of a map**, as long as no second pass is answered
  otherwise than the first, and no failed access moves its id off the path of its block;
* `exists_poisoned` : a server that waits for the second pass.
-/

namespace NovaChannel

namespace Oram

open Wire (ascii beBytes putU64 putVar)

/-! ### What is hashed -/

section Inputs

variable {V : Type} (H : Hashing V)

/-- What is hashed for the nodes above `prev`. -/
def chainInputs (bucketHash : ℕ → Digest) : ℕ → Digest → List ℕ → List Digest → List Bytes
  | prev, cur, node :: path, siblingHash :: answers =>
    let children := inOrder prev cur siblingHash
    nodeInput (bucketHash node) children.1 children.2 ::
      chainInputs bucketHash node (hashNode H (bucketHash node) children.1 children.2) path answers
  | _, _, _, _ => []

/-- What one pass over a path hashes. -/
def passInputs (depth leaf : ℕ) (contents : List (ℕ × List (Block V))) (answers : List Digest) :
    List Bytes :=
  let bucketHash := fun node => hashBucket H (blocksAt contents node)
  contents.map (fun e => bucketInput H e.2) ++
    nodeInput (bucketHash (leafNode depth leaf)) emptyChild emptyChild ::
      chainInputs H bucketHash (leafNode depth leaf) (leafHash H bucketHash (leafNode depth leaf))
        (upperPath depth leaf) answers

/-- What the subtree of a node is the hash of. -/
def subtreeInput (buckets : Buckets V) : ℕ → ℕ → Bytes
  | 0, node => nodeInput (hashBucket H (buckets node)) emptyChild emptyChild
  | height + 1, node => nodeInput (hashBucket H (buckets node))
      (subtreeHash H buckets height (2 * node)) (subtreeHash H buckets height (2 * node + 1))

theorem sha256_subtreeInput (buckets : Buckets V) (height node : ℕ) :
    H.sha256 (subtreeInput H buckets height node) = subtreeHash H buckets height node := by
  cases height <;> rfl

/-- No two different inputs have one digest. -/
def NoCollision (inputs : List Bytes) : Prop :=
  ∀ x ∈ inputs, ∀ y ∈ inputs, H.sha256 x = H.sha256 y → x = y

theorem NoCollision.mono {inputs inputs' : List Bytes} (h : NoCollision H inputs')
    (hsub : inputs ⊆ inputs') : NoCollision H inputs :=
  fun x hx y hy => h x (hsub hx) y (hsub hy)

instance (inputs : List Bytes) : Decidable (NoCollision H inputs) :=
  inferInstanceAs (Decidable (∀ x ∈ inputs, ∀ y ∈ inputs, H.sha256 x = H.sha256 y → x = y))

/-- Everything in a tree has been hashed. -/
def Logged (inputs : List Bytes) (depth : ℕ) (buckets : Buckets V) : Prop :=
  ∀ k height node, k + height = depth → 2 ^ k ≤ node → node < 2 ^ (k + 1) →
    bucketInput H (buckets node) ∈ inputs ∧ subtreeInput H buckets height node ∈ inputs

/-- A value is its bytes, and an address space holds them. -/
structure Hashing.Faithful : Prop where
  injective : Function.Injective H.asRef
  fits : ∀ v, (H.asRef v).length < 2 ^ 64

/-! ### Inputs determine what is hashed -/

theorem nodeInput_inj {bucketHash left right bucketHash' left' right' : Digest}
    (h : nodeInput bucketHash left right = nodeInput bucketHash' left' right') :
    bucketHash = bucketHash' ∧ left = left' ∧ right = right' := by
  rw [nodeInput, nodeInput] at h
  obtain ⟨h, hright⟩ := List.append_inj' h (right.2.trans right'.2.symm)
  obtain ⟨h, hleft⟩ := List.append_inj' h (left.2.trans left'.2.symm)
  exact ⟨Subtype.ext (List.append_cancel_left h), Subtype.ext hleft, Subtype.ext hright⟩

variable {H} in
/-- **A bucket is determined by its input.** -/
theorem bucketInput_inj (hH : H.Faithful) {blocks blocks' : List (Block V)}
    (h : bucketInput H blocks = bucketInput H blocks') : blocks = blocks' := by
  rw [bucketInput, bucketInput] at h
  have hlen : (ascii "novachannel-oram bucket v1" ++ beBytes 8 blocks.length).length =
      (ascii "novachannel-oram bucket v1" ++ beBytes 8 blocks'.length).length := by simp
  replace h := (List.append_inj h hlen).2
  clear hlen
  have hnonempty : ∀ (b : Block V) (rest : Bytes),
      putU64 b.id ++ putVar (H.asRef b.value) ++ rest ≠ [] := by
    intro b rest hnil
    have := congrArg List.length hnil
    simp at this
  induction blocks generalizing blocks' with
  | nil =>
    cases blocks' with
    | nil => rfl
    | cons b' blocks' =>
      rw [List.flatMap_cons] at h
      exact absurd h.symm (hnonempty b' _)
  | cons b blocks ih =>
    cases blocks' with
    | nil =>
      rw [List.flatMap_cons] at h
      exact absurd h (hnonempty b _)
    | cons b' blocks' =>
      rw [List.flatMap_cons, List.flatMap_cons, List.append_assoc, List.append_assoc] at h
      -- an id, a length and so many bytes are read off both
      have hid := (Wire.codec_getU64.back b.id _ trivial).symm.trans
        ((congrArg Wire.getU64 h).trans (Wire.codec_getU64.back b'.id _ trivial))
      obtain ⟨hid, h⟩ := Prod.mk.inj (Except.ok.inj hid)
      have hvalue := (Wire.codec_getVar.back (H.asRef b.value) _ (hH.fits _)).symm.trans
        ((congrArg Wire.getVar h).trans (Wire.codec_getVar.back (H.asRef b'.value) _ (hH.fits _)))
      obtain ⟨hvalue, hrest⟩ := Prod.mk.inj (Except.ok.inj hvalue)
      obtain ⟨i, v⟩ := b
      obtain ⟨i', v'⟩ := b'
      obtain rfl : i = i' := hid
      obtain rfl : v = v' := hH.injective hvalue
      rw [ih hrest]

end Inputs

/-! ### Passes over a path -/

section Binding

variable {V : Type} {H : Hashing V} {inputs : List Bytes} {depth : ℕ} {buckets : Buckets V}

/-- **A chain of hashes that leads to the root of a tree is the tree's**, with the siblings'. -/
theorem chain_binding (hno : NoCollision H inputs) (hlog : Logged H inputs depth buckets)
    {bucketHash : ℕ → Digest} {n : ℕ} {ps : List ℕ} (h : Ascent n ps) {height : ℕ} {cur : Digest}
    {answers : List Digest} (hheight : height + ps.length = depth)
    (hlen : answers.length = ps.length)
    (hinputs : chainInputs H bucketHash n cur ps answers ⊆ inputs)
    (hroot : chainRoot H bucketHash n cur ps answers = subtreeHash H buckets depth 1) :
    cur = subtreeHash H buckets height n ∧ answers = trueSiblings H buckets height n ps ∧
      ∀ node ∈ ps, bucketHash node = hashBucket H (buckets node) := by
  induction h generalizing height cur answers with
  | root =>
    obtain rfl := List.length_eq_zero_iff.1 hlen
    obtain rfl : height = depth := hheight
    exact ⟨hroot, rfl, fun node hnode => (by cases hnode)⟩
  | @step n ps hn htail ih =>
    obtain ⟨a, answers, rfl⟩ := List.exists_cons_of_length_eq_add_one hlen
    rw [chainRoot] at hroot
    rw [chainInputs] at hinputs
    obtain ⟨hhead, hrest⟩ := List.cons_subset.1 hinputs
    rw [List.length_cons] at hheight
    have htall : height + 1 + ps.length = depth := by omega
    obtain ⟨hnew, hanswers, hbuckets⟩ := ih htall (by simpa using hlen) hrest hroot
    -- both are digests of inputs that were hashed
    obtain ⟨hl1, hl2⟩ := htail.level
    have hinput := (hlog ps.length (height + 1) (n / 2) (by omega) hl1 hl2).2
    rw [hashNode, ← sha256_subtreeInput] at hnew
    obtain ⟨hbucket, hleft, hright⟩ := nodeInput_inj (hno _ hhead _ hinput hnew)
    have hpair : inOrder n cur a =
        inOrder n (subtreeHash H buckets height n) (subtreeHash H buckets height (n ^^^ 1)) := by
      rw [inOrder_subtreeHash H buckets height hn]
      exact Prod.ext hleft hright
    have hboth : cur = subtreeHash H buckets height n ∧
        a = subtreeHash H buckets height (n ^^^ 1) := by
      rw [inOrder, inOrder] at hpair
      split_ifs at hpair
      · exact Prod.mk.inj hpair
      · exact (Prod.mk.inj hpair).symm
    refine ⟨hboth.1, by rw [trueSiblings, ← hboth.2, hanswers], fun node hnode => ?_⟩
    rcases List.mem_cons.1 hnode with rfl | hnode
    · exact hbucket
    · exact hbuckets node hnode

theorem mk_blocksAt_mem {contents : List (ℕ × List (Block V))} {node : ℕ}
    (h : node ∈ contents.map Prod.fst) : (node, blocksAt contents node) ∈ contents := by
  induction contents with
  | nil => cases h
  | cons e contents ih =>
    by_cases hn : node = e.1
    · have hself : blocksAt (e :: contents) node = e.2 := by
        rw [blocksAt, hn, List.lookup_cons_self]
        rfl
      rw [hself, hn]
      exact List.mem_cons_self
    · have hother : blocksAt (e :: contents) node = blocksAt contents node := by
        rw [blocksAt, List.lookup_cons, beq_false_of_ne hn, blocksAt]
      rw [hother]
      exact List.mem_cons_of_mem _ (ih ((List.mem_cons.1 h).resolve_left hn))

/-- **A pass that leads to the root of a tree saw its buckets and its siblings.** -/
theorem pass_binding (hH : H.Faithful) (hno : NoCollision H inputs)
    (hlog : Logged H inputs depth buckets) {leaf : ℕ} (hleaf : leaf < numLeaves depth)
    {contents : List (ℕ × List (Block V))} (hkeys : contents.map Prod.fst = pathNodes depth leaf)
    {answers : List Digest} (hlen : answers.length = (upperPath depth leaf).length)
    (hinputs : passInputs H depth leaf contents answers ⊆ inputs)
    (hroot : pathRoot H (fun node => hashBucket H (blocksAt contents node)) depth leaf answers =
      subtreeHash H buckets depth 1) :
    (∀ node ∈ pathNodes depth leaf, blocksAt contents node = buckets node) ∧
      answers = trueSiblings H buckets 0 (leafNode depth leaf) (upperPath depth leaf) := by
  have hascent := ascent_upperPath depth leaf
  have hlevels := length_upperPath hleaf
  obtain ⟨hbuckets, htail⟩ := List.append_subset.1 hinputs
  obtain ⟨hhead, hchain⟩ := List.cons_subset.1 htail
  obtain ⟨hcur, hanswers, habove⟩ := chain_binding hno hlog hascent
    (by rw [hlevels, Nat.zero_add]) hlen hchain hroot
  obtain ⟨hl1, hl2⟩ := hascent.level
  have hleafInput := (hlog _ 0 (leafNode depth leaf) (by rw [hlevels, Nat.add_zero]) hl1 hl2).2
  have hbottom := (nodeInput_inj (hno _ hhead _ hleafInput hcur)).1
  refine ⟨fun node hnode => ?_, hanswers⟩
  have hhash : hashBucket H (blocksAt contents node) = hashBucket H (buckets node) := by
    rcases List.mem_cons.1 (pathNodes_eq depth leaf ▸ hnode) with rfl | hmem
    · exact hbottom
    · exact habove node hmem
  obtain ⟨k, height, hk, h1, h2⟩ := exists_level hleaf hnode
  refine bucketInput_inj hH (hno _ (hbuckets ?_) _ (hlog k height node hk h1 h2).1 hhash)
  exact List.mem_map.2 ⟨_, mk_blocksAt_mem (hkeys ▸ hnode), rfl⟩

/-- A pass over the true siblings hashes what the tree consists of. -/
theorem chainInputs_eq {bucketHash : ℕ → Digest} {prev : ℕ} {path : List ℕ}
    (h : Ascent prev path) (hpath : ∀ node ∈ path, bucketHash node = hashBucket H (buckets node))
    (height : ℕ) : ∀ i node, path[i]? = some node →
      subtreeInput H buckets (height + 1 + i) node ∈
        chainInputs H bucketHash prev (subtreeHash H buckets height prev) path
          (trueSiblings H buckets height prev path) := by
  induction h generalizing height with
  | root =>
    intro i node hi
    simp at hi
  | @step n ps hn _ ih =>
    have hinput : nodeInput (bucketHash (n / 2))
        (inOrder n (subtreeHash H buckets height n) (subtreeHash H buckets height (n ^^^ 1))).1
        (inOrder n (subtreeHash H buckets height n) (subtreeHash H buckets height (n ^^^ 1))).2 =
        subtreeInput H buckets (height + 1) (n / 2) := by
      rw [inOrder_subtreeHash H buckets height hn, hpath _ List.mem_cons_self]
      rfl
    have hrest := ih (fun node hnode => hpath node (List.mem_cons_of_mem _ hnode)) (height + 1)
    intro i node hi
    rw [trueSiblings, chainInputs, hashNode, hinput, sha256_subtreeInput]
    cases i with
    | zero =>
      obtain rfl := Option.some.inj hi
      exact List.mem_cons_self
    | succ i =>
      have hheight : height + 1 + (i + 1) = height + 1 + 1 + i := by omega
      rw [hheight]
      exact List.mem_cons_of_mem _ (hrest i node hi)

/-- **After a path was replaced** and hashed over its true siblings, everything in the tree has been
hashed again. -/
theorem Logged.place (hlog : Logged H inputs depth buckets) {leaf : ℕ}
    (hleaf : leaf < numLeaves depth) {chosenPerNode : List (ℕ × List (Block V))}
    (hkeys : chosenPerNode.map Prod.fst = pathNodes depth leaf) {inputs' : List Bytes}
    (hsub : inputs ⊆ inputs')
    (hpass : passInputs H depth leaf chosenPerNode
      (trueSiblings H buckets 0 (leafNode depth leaf) (upperPath depth leaf)) ⊆ inputs') :
    Logged H inputs' depth (place chosenPerNode buckets) := by
  intro k height node hk h1 h2
  obtain ⟨hbuckets, htail⟩ := List.append_subset.1 hpass
  obtain ⟨hhead, hchain⟩ := List.cons_subset.1 htail
  have hat : ∀ n ∈ pathNodes depth leaf,
      hashBucket H (blocksAt chosenPerNode n) = hashBucket H (Oram.place chosenPerNode buckets n) :=
    fun n hn => by rw [blocksAt_eq_place buckets (hkeys ▸ hn)]
  by_cases hnode : node ∈ pathNodes depth leaf
  · refine ⟨hbuckets (List.mem_map.2 ⟨_, mk_blocksAt_mem (hkeys ▸ hnode), ?_⟩), ?_⟩
    · rw [blocksAt_eq_place buckets (hkeys ▸ hnode)]
    have hleafHash : leafHash H (fun n => hashBucket H (blocksAt chosenPerNode n))
        (leafNode depth leaf) =
        subtreeHash H (Oram.place chosenPerNode buckets) 0 (leafNode depth leaf) := by
      rw [leafHash, hat _ (pathNodes_eq depth leaf ▸ List.mem_cons_self)]
      rfl
    rw [trueSiblings_place H hkeys, hleafHash] at hchain
    rcases height_of_mem_pathNodes hleaf hnode hk h1 h2 with ⟨rfl, rfl⟩ | ⟨i, hi, rfl⟩
    · have hleafInput := hat _ hnode
      beta_reduce at hhead
      rwa [hleafInput] at hhead
    · exact hchain (chainInputs_eq (ascent_upperPath depth leaf) (fun n hn => hat n
        (pathNodes_eq depth leaf ▸ List.mem_cons_of_mem _ hn)) 0 i node hi)
  · -- nothing of the path is below
    have hpos : 0 < node := lt_of_lt_of_le (Nat.two_pow_pos k) h1
    have hsame : ∀ n, HeapTree.Under node n → Oram.place chosenPerNode buckets n = buckets n :=
      fun n hn => place_of_notMem (hkeys ▸ notMem_of_under hpos hnode hn)
    obtain ⟨hbucket, hinput⟩ := hlog k height node hk h1 h2
    rw [hsame node (.refl _)]
    refine ⟨hsub hbucket, ?_⟩
    have hsubtree : subtreeInput H (Oram.place chosenPerNode buckets) height node =
        subtreeInput H buckets height node := by
      cases height with
      | zero => rw [subtreeInput, subtreeInput, hsame node (.refl _)]
      | succ height =>
        have hl : HeapTree.Under node (2 * node) :=
          HeapTree.under_iff_children.2 (.inr (.inl (.refl _)))
        have hr : HeapTree.Under node (2 * node + 1) :=
          HeapTree.under_iff_children.2 (.inr (.inr (.refl _)))
        rw [subtreeInput, subtreeInput, hsame node (.refl _),
          subtreeHash_congr H height fun n hn => hsame n (hl.trans hn),
          subtreeHash_congr H height fun n hn => hsame n (hr.trans hn)]
    rw [hsubtree]
    exact hsub hinput

end Binding

/-! ### The root of the empty tree -/

section Empty

variable {σ V : Type} (S : VerifiableServerStorage σ V) (H : Hashing V)

/-- The second loop of `init_empty_root`, and what it hashes. -/
def innerInputs : List ℕ → σ → List Bytes
  | [], _ => []
  | node :: rest, server =>
    let (left, server) := S.nodeHash server (2 * node)
    let (right, server) := S.nodeHash server (2 * node + 1)
    let emptyBucketHash := hashBucket H ([] : List (Block V))
    nodeInput emptyBucketHash left right ::
      innerInputs rest (S.setNodeHash server node (hashNode H emptyBucketHash left right))

/-- The server once the leaves of an empty tree are set. -/
def setLeaves (depth : ℕ) (server : σ) : σ :=
  (List.range' (numLeaves depth) (numLeaves depth)).foldl (fun server node =>
    S.setNodeHash server node
      (hashNode H (hashBucket H ([] : List (Block V))) emptyChild emptyChild)) server

/-- What `init_empty_root` hashes. -/
def initInputs (depth : ℕ) (server : σ) : List Bytes :=
  bucketInput H ([] : List (Block V)) ::
    nodeInput (hashBucket H ([] : List (Block V))) emptyChild emptyChild ::
      innerInputs S H (List.range' 1 (numLeaves depth - 1)).reverse (setLeaves S H depth server)

/-- The server answers the questions of the second loop of `init_empty_root`, and the one for the
root, with what was set: `stored`. -/
def HonestInner : List ℕ → σ → (ℕ → Digest) → Prop
  | [], server, stored => (S.nodeHash server 1).1 = stored 1
  | node :: rest, server, stored =>
    let left := S.nodeHash server (2 * node)
    let right := S.nodeHash left.2 (2 * node + 1)
    let hash := hashNode H (hashBucket H ([] : List (Block V))) left.1 right.1
    left.1 = stored (2 * node) ∧ right.1 = stored (2 * node + 1) ∧
      HonestInner rest (S.setNodeHash right.2 node hash) (Function.update stored node hash)

instance decidableHonestInner : ∀ (nodes : List ℕ) (server : σ) (stored : ℕ → Digest),
    Decidable (HonestInner S H nodes server stored)
  | [], _, _ => inferInstanceAs (Decidable (_ = _))
  | node :: rest, server, stored =>
    have := decidableHonestInner rest
    inferInstanceAs (Decidable (_ ∧ _ ∧ HonestInner S H rest _ _))

/-- The server is honest during `init_empty_root`: the leaves are set to one hash, and an inner node
is set before it is asked for. -/
def HonestInit (depth : ℕ) (server : σ) : Prop :=
  HonestInner S H (List.range' 1 (numLeaves depth - 1)).reverse (setLeaves S H depth server)
    fun _ => hashNode H (hashBucket H ([] : List (Block V))) emptyChild emptyChild

variable {S H}

/-- The inner nodes are set, children first, and hashed on the way. -/
theorem HonestInner.root {depth m : ℕ} (hm : m < numLeaves depth) {server : σ}
    {stored : ℕ → Digest} (h : HonestInner S H (List.range' 1 m).reverse server stored)
    (hempty : EmptyFrom H (V := V) depth (m + 1) stored) :
    (S.nodeHash ((List.range' 1 m).reverse.foldl (fun server node =>
        let (left, server) := S.nodeHash server (2 * node)
        let (right, server) := S.nodeHash server (2 * node + 1)
        S.setNodeHash server node
          (hashNode H (hashBucket H ([] : List (Block V))) left right)) server) 1).1 =
      subtreeHash H (fun _ => ([] : List (Block V))) depth 1 ∧
    ∀ k height node, k + height = depth → 2 ^ k ≤ node → node < 2 ^ (k + 1) → node ≤ m →
      subtreeInput H (fun _ => []) height node ∈
        innerInputs S H (List.range' 1 m).reverse server := by
  induction m generalizing server stored with
  | zero =>
    refine ⟨h.trans (hempty 0 depth 1 (Nat.zero_add _) (by simp) (by simp) (Nat.le_refl _)),
      fun k height node hk h1 h2 hle => ?_⟩
    have := Nat.two_pow_pos k
    omega
  | succ m ih =>
    have hsplit : (List.range' 1 (m + 1)).reverse = (1 + m) :: (List.range' 1 m).reverse := by
      rw [List.range'_1_concat, List.reverse_append, List.reverse_singleton, List.singleton_append]
    rw [hsplit] at h ⊢
    obtain ⟨hleft, hright, h⟩ := h
    -- what the node is hashed from
    have hnode : ∀ k height, k + height = depth → 2 ^ k ≤ 1 + m → 1 + m < 2 ^ (k + 1) →
        nodeInput (hashBucket H ([] : List (Block V))) (stored (2 * (1 + m)))
          (stored (2 * (1 + m) + 1)) = subtreeInput H (fun _ => []) height (1 + m) := by
      intro k height hk h1 h2
      obtain ⟨height, rfl⟩ : ∃ h, height = h + 1 := by
        refine Nat.exists_eq_succ_of_ne_zero fun h0 => ?_
        obtain rfl : k = depth := by omega
        unfold numLeaves at hm
        omega
      have hlevel := pow_succ 2 k
      have hlevel' := pow_succ 2 (k + 1)
      rw [hempty (k + 1) height (2 * (1 + m)) (by omega) (by omega) (by omega) (by omega),
        hempty (k + 1) height (2 * (1 + m) + 1) (by omega) (by omega) (by omega) (by omega)]
      rfl
    rw [hleft, hright] at h
    have hnext : EmptyFrom H (V := V) depth (m + 1) (Function.update stored (1 + m)
        (hashNode H (hashBucket H ([] : List (Block V))) (stored (2 * (1 + m)))
          (stored (2 * (1 + m) + 1)))) := by
      intro k height node hk h1 h2 hfirst
      by_cases hn : node = 1 + m
      · subst hn
        rw [Function.update_self, hashNode, hnode k height hk h1 h2, sha256_subtreeInput]
      · rw [Function.update_of_ne hn]
        exact hempty k height node hk h1 h2 (by omega)
    obtain ⟨hroot, hlogged⟩ := ih (by omega) h hnext
    rw [List.foldl_cons, innerInputs]
    simp only [hleft, hright]
    refine ⟨hroot, fun k height node hk h1 h2 hle => ?_⟩
    by_cases hn : node = 1 + m
    · subst hn
      rw [hnode k height hk h1 h2]
      exact List.mem_cons_self
    · exact List.mem_cons_of_mem _ (hlogged k height node hk h1 h2 (by omega))

/-- **`init_empty_root` over a server that is honest meanwhile** leaves the root of the empty tree,
and has hashed all of it. -/
theorem HonestInit.root {depth : ℕ} {server : σ} (h : HonestInit S H depth server) :
    (initEmptyRoot S H (Client.withServer depth server)).root =
        subtreeHash H (fun _ => ([] : List (Block V))) depth 1 ∧
      Logged H (initInputs S H depth server) depth (fun _ => ([] : List (Block V))) := by
  have hpos := numLeaves_pos depth
  -- a node from the first leaf on is on the last level
  have hlast : ∀ k height node, k + height = depth → node < 2 ^ (k + 1) → numLeaves depth ≤ node →
      height = 0 := by
    intro k height node hk h2 hle
    have hdepth : 2 ^ depth < 2 ^ (k + 1) := hle.trans_lt h2
    have := (Nat.pow_lt_pow_iff_right Nat.one_lt_two).1 hdepth
    omega
  have hleaves : EmptyFrom H (V := V) depth (numLeaves depth - 1 + 1) fun _ =>
      hashNode H (hashBucket H ([] : List (Block V))) emptyChild emptyChild := by
    intro k height node hk h1 h2 hfirst
    obtain rfl := hlast k height node hk h2 (by omega)
    rfl
  obtain ⟨hroot, hlogged⟩ := HonestInner.root (by omega) h hleaves
  refine ⟨hroot, fun k height node hk h1 h2 => ⟨List.mem_cons_self, List.mem_cons_of_mem _ ?_⟩⟩
  by_cases hle : node ≤ numLeaves depth - 1
  · exact List.mem_cons_of_mem _ (hlogged k height node hk h1 h2 hle)
  · obtain rfl := hlast k height node hk h2 (by omega)
    exact List.mem_cons_self

end Empty

/-! ### Runs -/

section Runs

variable {σ V : Type} (S : VerifiableServerStorage σ V) (H : Hashing V)

/-- What an access reads. -/
def readAt (c : Client σ V) (oldLeaf : ℕ) : List (ℕ × List (Block V)) × σ :=
  readContents S (pathNodes c.depth oldLeaf) c.server

/-- What the server answers in the first pass of an access. -/
def firstAnswers (c : Client σ V) (oldLeaf : ℕ) : List Digest × σ :=
  pathAnswers S c.depth oldLeaf (readAt S c oldLeaf).2

/-- What the server answers in the second pass. -/
def secondAnswers (c : Client σ V) (oldLeaf : ℕ) : List Digest × σ :=
  pathAnswers S c.depth oldLeaf (firstAnswers S c oldLeaf).2

/-- The check of an access passes. -/
def Passes (c : Client σ V) (oldLeaf : ℕ) : Prop :=
  pathRoot H (fun node => hashBucket H (blocksAt (readAt S c oldLeaf).1 node)) c.depth oldLeaf
    (firstAnswers S c oldLeaf).1 = c.root

instance (c : Client σ V) (oldLeaf : ℕ) : Decidable (Passes S H c oldLeaf) :=
  inferInstanceAs (Decidable (_ = _))

/-- The buckets that an access writes. -/
def chosenAt (c : Client σ V) (id : BlockId) (newValue : Option V) (oldLeaf newLeaf : ℕ) :
    List (ℕ × List (Block V)) :=
  ((evictChoose c.depth (Function.update c.positionMap id (some newLeaf)) S.bucketCapacity
    (pathNodes c.depth oldLeaf) (update id newValue
      (c.stash ++ (readAt S c oldLeaf).1.flatMap Prod.snd))).map Prod.fst).getD []

/-- What an access hashes. -/
def accessInputs (c : Client σ V) (id : BlockId) (newValue : Option V) (oldLeaf newLeaf : ℕ) :
    List Bytes :=
  passInputs H c.depth oldLeaf (readAt S c oldLeaf).1 (firstAnswers S c oldLeaf).1 ++
    if Passes S H c oldLeaf then
      passInputs H c.depth oldLeaf (chosenAt S c id newValue oldLeaf newLeaf)
        (secondAnswers S c oldLeaf).1
    else []

/-- A call of the verified client, with the leaves its generator returns. -/
structure Call (V : Type) where
  id : BlockId
  newValue : Option V
  tape : List ℕ

/-- A run so far. -/
structure World (σ V : Type) where
  client : Client σ V
  /-- What the client wrote to every bucket last. -/
  written : Buckets V
  /-- All inputs of the hash. -/
  hashed : List Bytes
  /-- The reference map of the successful writes. -/
  contents : BlockId → Option V

/-- The leaf that a call reads from. -/
def World.oldLeaf (w : World σ V) (call : Call V) : ℕ :=
  (drawLeaves w.client call.id call.tape).1

/-- The leaf that a call gives its id. -/
def World.newLeaf (w : World σ V) (call : Call V) : ℕ :=
  (drawLeaves w.client call.id call.tape).2.1

/-- What has been hashed once the call is done. -/
def World.hashedAfter (w : World σ V) (call : Call V) : List Bytes :=
  w.hashed ++
    accessInputs S H w.client call.id call.newValue (w.oldLeaf call) (w.newLeaf call)

/-- One call; `none` is a panic. -/
def World.step (w : World σ V) (call : Call V) : Option (World σ V) :=
  (verifiedAccess S H w.client call.id call.newValue call.tape).map fun (c, answer, _) =>
    match answer with
    | .error _ => { w with client := c, hashed := w.hashedAfter S H call }
    | .ok _ => {
        client := c
        written := place (chosenAt S w.client call.id call.newValue (w.oldLeaf call)
          (w.newLeaf call)) w.written
        hashed := w.hashedAfter S H call
        contents := writeMap w.contents call.id call.newValue }

/-- Runs after an `init_empty_root` during which the server was honest. -/
def attackMachine (depth : ℕ) : Machine (World σ V) (Call V) where
  init w := ∃ server, HonestInit S H depth server ∧ w = {
    client := initEmptyRoot S H (Client.withServer depth server)
    written := fun _ => []
    hashed := initInputs S H depth server
    contents := fun _ => none }
  step := World.step S H

theorem attackMachine_step {depth : ℕ} (w : World σ V) (call : Call V) :
    (attackMachine S H depth).step w call = w.step S H call := rfl

/-- The leaves drawn are leaves of the tree. -/
def InRange (w : World σ V) (call : Call V) : Prop :=
  ∀ leaf ∈ call.tape, leaf < numLeaves w.client.depth

/-- The second pass is answered as the first one was, and a call that fails does not move its id
off the path of its block. -/
def Careful (w : World σ V) (call : Call V) : Prop :=
  (Passes S H w.client (w.oldLeaf call) →
    (secondAnswers S w.client (w.oldLeaf call)).1 = (firstAnswers S w.client (w.oldLeaf call)).1) ∧
  (¬ Passes S H w.client (w.oldLeaf call) → ∀ node ∈ nodes w.client.depth,
    ∀ b ∈ w.written node, b.id = call.id → node ∈ pathNodes w.client.depth (w.newLeaf call))

/-- The client's root is that of what it wrote, all of which was hashed, and what it wrote is what
the reference map says. -/
structure Anchored (w : World σ V) : Prop where
  root : w.client.root = subtreeHash H w.written w.client.depth 1
  logged : Logged H w.hashed w.client.depth w.written
  inv : Inv S.bucketCapacity w.contents (w.client.on w.written)

variable {S H}

/-! ### One call -/

/-- What a call that succeeds does. -/
theorem verifiedAccessAt_eq_ok {c c' : Client σ V} {id : BlockId} {newValue value : Option V}
    {oldLeaf newLeaf : ℕ} (hlt : oldLeaf < numLeaves c.depth)
    (h : verifiedAccessAt S H c id newValue oldLeaf newLeaf = some (c', .ok value)) :
    Passes S H c oldLeaf ∧
    value = lookup id (c.stash ++ (readAt S c oldLeaf).1.flatMap Prod.snd) ∧
    ∃ stash, evictChoose c.depth (Function.update c.positionMap id (some newLeaf))
        S.bucketCapacity (pathNodes c.depth oldLeaf) (update id newValue
          (c.stash ++ (readAt S c oldLeaf).1.flatMap Prod.snd)) =
        some (chosenAt S c id newValue oldLeaf newLeaf, stash) ∧
      c'.depth = c.depth ∧ c'.stash = stash ∧
      c'.positionMap = Function.update c.positionMap id (some newLeaf) ∧
      c'.root = pathRoot H (fun node =>
        hashBucket H (blocksAt (chosenAt S c id newValue oldLeaf newLeaf) node)) c.depth oldLeaf
          (secondAnswers S c oldLeaf).1 := by
  rw [verifiedAccessAt_eq S H c id newValue newLeaf hlt] at h
  simp only at h
  split_ifs at h with hroot
  · obtain ⟨server, -, h⟩ := Option.map_eq_some_iff.1 h
    cases (Prod.mk.inj h).2
  · have hupdate := updateAndEvict_eq S H { c with
        positionMap := Function.update c.positionMap id (some newLeaf)
        server := (firstAnswers S c oldLeaf).2 } id newValue hlt (readAt S c oldLeaf).1
    replace h := hupdate.symm.trans h
    simp only [Option.bind_eq_bind, Option.bind_eq_some_iff] at h
    obtain ⟨⟨chosenPerNode, stash⟩, hev, server, -, h⟩ := h
    obtain ⟨rfl, hvalue⟩ := Prod.mk.inj (Option.some.inj h)
    have hchosen : chosenAt S c id newValue oldLeaf newLeaf = chosenPerNode := by
      rw [chosenAt, hev]
      rfl
    rw [hchosen]
    exact ⟨not_not.1 hroot, (Except.ok.inj hvalue).symm, stash, hev, rfl, rfl, rfl, rfl⟩

/-- A call that fails did not pass. -/
theorem not_passes_of_error {c c' : Client σ V} {id : BlockId} {newValue : Option V}
    {oldLeaf newLeaf : ℕ} (hlt : oldLeaf < numLeaves c.depth) {e : IntegrityError}
    (h : verifiedAccessAt S H c id newValue oldLeaf newLeaf = some (c', .error e)) :
    ¬ Passes S H c oldLeaf := by
  intro hpasses
  rw [verifiedAccessAt_eq S H c id newValue newLeaf hlt] at h
  simp only at h
  split_ifs at h with hroot
  · exact hroot hpasses
  · exact absurd h (updateAndEvict_ne_error H)

theorem verifiedAccess_eq_some {c c' : Client σ V} {id : BlockId} {newValue : Option V}
    {tape rest : List ℕ} {answer : Except IntegrityError (Option V)}
    (h : verifiedAccess S H c id newValue tape = some (c', answer, rest)) :
    verifiedAccessAt S H c id newValue (drawLeaves c id tape).1 (drawLeaves c id tape).2.1 =
      some (c', answer) := by
  simp only [verifiedAccess, Option.bind_eq_bind, Option.bind_eq_some_iff] at h
  obtain ⟨⟨c₁, answer₁⟩, haccess, h⟩ := h
  obtain ⟨rfl, hrest⟩ := Prod.mk.inj (Option.some.inj h)
  obtain ⟨rfl, -⟩ := Prod.mk.inj hrest
  exact haccess

variable {w : World σ V} {call : Call V}

/-- The leaves of a call are leaves of the tree. -/
theorem Anchored.leaves_lt (h : Anchored S H w) (hrange : InRange w call) :
    w.oldLeaf call < numLeaves w.client.depth ∧ w.newLeaf call < numLeaves w.client.depth :=
  drawLeaves_lt (h.inv.leaf_lt call.id) hrange

/-- The position of an id is where its call reads. -/
theorem World.eq_oldLeaf {leaf : ℕ} (h : w.client.positionMap call.id = some leaf) :
    leaf = w.oldLeaf call := by
  rw [World.oldLeaf, drawLeaves, h]

/-- **A call whose check passes saw what the client wrote.** -/
theorem Anchored.read (h : Anchored S H w) (hH : H.Faithful) (hrange : InRange w call)
    (hno : NoCollision H (w.hashedAfter S H call)) (hpasses : Passes S H w.client (w.oldLeaf call)) :
    w.client.stash ++ (readAt S w.client (w.oldLeaf call)).1.flatMap Prod.snd =
      collected (w.client.on w.written) (w.oldLeaf call) ∧
    (firstAnswers S w.client (w.oldLeaf call)).1 = trueSiblings H w.written 0
      (leafNode w.client.depth (w.oldLeaf call)) (upperPath w.client.depth (w.oldLeaf call)) := by
  obtain ⟨hlt, -⟩ := h.leaves_lt hrange
  have hkeys := keys_readContents S (pathNodes w.client.depth (w.oldLeaf call)) w.client.server
  have hlogged : Logged H (w.hashedAfter S H call) w.client.depth w.written := by
    intro k height node hk h1 h2
    obtain ⟨hb, hs⟩ := h.logged k height node hk h1 h2
    exact ⟨List.mem_append_left _ hb, List.mem_append_left _ hs⟩
  obtain ⟨hbuckets, hanswers⟩ := pass_binding hH hno hlogged hlt hkeys
    (length_siblingAnswers S _ _ _) (fun x hx =>
      List.mem_append_right _ (List.mem_append_left _ hx)) (hpasses.trans h.root)
  refine ⟨congrArg (w.client.stash ++ ·) ?_, hanswers⟩
  have hnd := nodup_pathNodes w.client.depth (w.oldLeaf call)
  have hcontents : ∀ e ∈ (readAt S w.client (w.oldLeaf call)).1, e.2 = w.written e.1 := by
    intro e he
    have hmem : e.1 ∈ pathNodes w.client.depth (w.oldLeaf call) := hkeys ▸ List.mem_map_of_mem he
    have hat := mk_blocksAt_mem (hkeys.symm ▸ hmem)
    have hnodup : ((readAt S w.client (w.oldLeaf call)).1.map Prod.fst).Nodup := hkeys ▸ hnd
    have hsame := List.inj_on_of_nodup_map hnodup he hat rfl
    rw [← hbuckets e.1 hmem]
    exact congrArg Prod.snd hsame
  calc (readAt S w.client (w.oldLeaf call)).1.flatMap Prod.snd
      = (readAt S w.client (w.oldLeaf call)).1.flatMap fun e => w.written e.1 :=
        List.flatMap_congr hcontents
    _ = ((readAt S w.client (w.oldLeaf call)).1.map Prod.fst).flatMap w.written := by
        rw [List.flatMap_map]
    _ = (pathNodes w.client.depth (w.oldLeaf call)).flatMap w.written := by
        rw [readAt, hkeys]

/-- **The answer of a call that succeeds is that of the reference map.** -/
theorem Anchored.answer (h : Anchored S H w) (hH : H.Faithful) (hrange : InRange w call)
    (hno : NoCollision H (w.hashedAfter S H call)) {c' : Client σ V} {value : Option V}
    {rest : List ℕ} (hok : verifiedAccess S H w.client call.id call.newValue call.tape =
      some (c', .ok value, rest)) : value = w.contents call.id := by
  obtain ⟨hlt, -⟩ := h.leaves_lt hrange
  obtain ⟨hpasses, rfl, -⟩ := verifiedAccessAt_eq_ok hlt (verifiedAccess_eq_some hok)
  obtain ⟨hread, -⟩ := h.read hH hrange hno hpasses
  rw [hread]
  exact h.inv.lookup_collected hlt fun leaf hleaf => World.eq_oldLeaf hleaf

/-- **A careful call keeps the world anchored.** -/
theorem Anchored.step (h : Anchored S H w) (hH : H.Faithful) (hrange : InRange w call)
    (hcareful : Careful S H w call) {w' : World σ V} (hno : NoCollision H w'.hashed)
    (hstep : w.step S H call = some w') :
    Anchored S H w' ∧ w'.client.depth = w.client.depth ∧ w.hashed ⊆ w'.hashed := by
  obtain ⟨⟨c', answer, rest⟩, haccess, rfl⟩ := Option.map_eq_some_iff.1 hstep
  obtain ⟨hlt, hnew⟩ := h.leaves_lt hrange
  have haccessAt : verifiedAccessAt S H w.client call.id call.newValue (w.oldLeaf call)
      (w.newLeaf call) = some (c', answer) := verifiedAccess_eq_some haccess
  cases answer with
  | error e =>
    have hfailed := not_passes_of_error hlt haccessAt
    have hc' := eq_of_verifiedAccessAt_error H hlt haccessAt
    have hsub : w.hashed ⊆ w.hashedAfter S H call := List.subset_append_left _ _
    refine ⟨⟨?_, ?_, ?_⟩, by rw [hc'], hsub⟩
    · rw [hc']
      exact h.root
    · intro k height node hk h1 h2
      rw [hc'] at hk
      obtain ⟨hb, hs⟩ := h.logged k height node hk h1 h2
      exact ⟨hsub hb, hsub hs⟩
    · have hmoved := h.inv.remap hnew (hcareful.2 hfailed)
      rw [hc']
      exact hmoved
  | ok value =>
    obtain ⟨hpasses, -, stash, hev, hdepth, hstash, hmap, hroot⟩ :=
      verifiedAccessAt_eq_ok hlt haccessAt
    obtain ⟨hread, hanswers⟩ := h.read hH hrange hno hpasses
    have hsecond := (hcareful.1 hpasses).trans hanswers
    have hkeys := (evictChoose_eq_some hev).1
    -- the plain client over what was written does the same
    obtain ⟨c₁, hplain, hinv, -, -⟩ := h.inv.accessAt call.id call.newValue
      (fun leaf hleaf => World.eq_oldLeaf hleaf) hlt hnew
    rw [hread] at hev
    have hev' : evictChoose (w.client.on w.written).depth
        (Function.update (w.client.on w.written).positionMap call.id (some (w.newLeaf call)))
        S.bucketCapacity (pathNodes (w.client.on w.written).depth (w.oldLeaf call))
        (update call.id call.newValue (collected (w.client.on w.written) (w.oldLeaf call))) =
        some (_, stash) := hev
    rw [accessAt_inMemory, hev', Option.map_some] at hplain
    obtain ⟨rfl, -⟩ := Prod.mk.inj (Option.some.inj hplain)
    have hpassed : w.hashedAfter S H call = w.hashed ++ (passInputs H w.client.depth
        (w.oldLeaf call) (readAt S w.client (w.oldLeaf call)).1
        (firstAnswers S w.client (w.oldLeaf call)).1 ++
        passInputs H w.client.depth (w.oldLeaf call) (chosenAt S w.client call.id call.newValue
          (w.oldLeaf call) (w.newLeaf call)) (secondAnswers S w.client (w.oldLeaf call)).1) := by
      rw [World.hashedAfter, accessInputs, if_pos hpasses]
    have hsub : w.hashed ⊆ w.hashedAfter S H call := List.subset_append_left _ _
    refine ⟨⟨?_, ?_, ?_⟩, hdepth, hsub⟩
    · have htrue := (pathHashes_true H hlt (place (chosenAt S w.client call.id call.newValue
        (w.oldLeaf call) (w.newLeaf call)) w.written) (fun node => hashBucket H (blocksAt
          (chosenAt S w.client call.id call.newValue (w.oldLeaf call) (w.newLeaf call)) node))
        (fun n hn => by rw [blocksAt_eq_place w.written (hkeys.symm ▸ hn)])).1
      rw [← trueSiblings_place H hkeys, ← hsecond] at htrue
      rw [hroot, hdepth]
      exact htrue
    · rw [hdepth]
      refine h.logged.place hlt hkeys hsub fun x hx => ?_
      rw [← hsecond] at hx
      rw [hpassed]
      exact List.mem_append_right _ (List.mem_append_right _ hx)
    · have hclient : c'.on (place (chosenAt S w.client call.id call.newValue (w.oldLeaf call)
          (w.newLeaf call)) w.written) = { (w.client.on w.written) with
            positionMap := Function.update w.client.positionMap call.id (some (w.newLeaf call))
            stash := stash
            server := place (chosenAt S w.client call.id call.newValue (w.oldLeaf call)
              (w.newLeaf call)) w.written
            root := c'.root } := by
        rw [Client.on, hdepth, hstash, hmap]
        rfl
      rw [hclient]
      exact ⟨hinv.nodup, hinv.mem_iff, hinv.placed, hinv.stashed, hinv.leaf_lt, hinv.room⟩

/-! ### Whole runs -/

/-- A world at the beginning is anchored. -/
theorem anchored_init {depth : ℕ} (h : (attackMachine S H depth).init w) :
    Anchored S H w ∧ w.client.depth = depth := by
  obtain ⟨server, hhonest, rfl⟩ := h
  obtain ⟨hroot, hlogged⟩ := hhonest.root
  refine ⟨⟨hroot, hlogged, ?_⟩, rfl⟩
  have hinv := Inv.withServer (V := V) depth S.bucketCapacity
  exact ⟨hinv.nodup, hinv.mem_iff, hinv.placed, hinv.stashed, hinv.leaf_lt, hinv.room⟩

/-- **Worlds that careful calls reach are anchored**, or two inputs hashed so far collide. -/
theorem anchored_of_reachable (hH : H.Faithful) {depth : ℕ}
    (h : (attackMachine S H depth).Reachable (fun w call => InRange w call ∧ Careful S H w call) w)
    (hno : NoCollision H w.hashed) : Anchored S H w ∧ w.client.depth = depth := by
  induction h with
  | init h => exact anchored_init h
  | @step w w' call _ hok hstep ih =>
    have hsub : w.hashed ⊆ w'.hashed := by
      obtain ⟨⟨c', answer, rest⟩, -, rfl⟩ := Option.map_eq_some_iff.1 hstep
      cases answer <;> exact List.subset_append_left _ _
    obtain ⟨hanchored, hdepth⟩ := ih (hno.mono H hsub)
    obtain ⟨hanchored', hdepth', -⟩ := hanchored.step hH hok.1 hok.2 hno hstep
    exact ⟨hanchored', hdepth'.trans hdepth⟩

/-- **Over any server, answers are those of a map.**  After an `init_empty_root` during which the
server was honest, in every run in which no second pass is answered otherwise than the first and no
failed call moves its id off the path of its block, a call that succeeds answers what the reference
map of all successful writes holds, unless two different inputs hashed so far have one digest. -/
theorem answer_of_careful {σ V : Type} {S : VerifiableServerStorage σ V} {H : Hashing V}
    (hH : H.Faithful) {depth : ℕ} {w : World σ V}
    (h : (attackMachine S H depth).Reachable (fun w call => InRange w call ∧ Careful S H w call) w)
    {call : Call V} (hrange : InRange w call) (hno : NoCollision H (w.hashedAfter S H call))
    {c' : Client σ V} {value : Option V} {rest : List ℕ}
    (hok : verifiedAccess S H w.client call.id call.newValue call.tape =
      some (c', .ok value, rest)) : value = w.contents call.id := by
  have hsub : w.hashed ⊆ w.hashedAfter S H call := List.subset_append_left _ _
  exact (anchored_of_reachable hH h (hno.mono H hsub)).1.answer hH hrange hno hok

end Runs

/-! ### A server that waits -/

/-- A digest for small runs. -/
def foldDigest (bytes : Bytes) : Digest :=
  ⟨beBytes 32 (bytes.foldl (fun n b => (n * 257 + b.toNat + 1) % (2 ^ 255 - 19)) 0),
    Wire.length_beBytes 32 _⟩

/-- Values of one byte. -/
def byteHashing : Hashing UInt8 where
  sha256 := foldDigest
  asRef v := [v]

theorem faithful_byteHashing : byteHashing.Faithful where
  injective _ _ h := (List.cons.inj h).1
  fits _ := by
    rw [byteHashing, List.length_singleton]
    decide

/-- A world in which the client has its root and nothing was called yet. -/
def startWorld {σ : Type} (S : VerifiableServerStorage σ UInt8) (server : σ) : World σ UInt8 where
  client := initEmptyRoot S byteHashing (Client.withServer 1 server)
  written := fun _ => []
  hashed := initInputs S byteHashing 1 server
  contents := fun _ => none

theorem reachable_startWorld {σ : Type} {S : VerifiableServerStorage σ UInt8} {server : σ}
    {ok : World σ UInt8 → Call UInt8 → Prop} (h : HonestInner S byteHashing [1]
      (setLeaves S byteHashing 1 server) fun _ =>
        hashNode byteHashing (hashBucket byteHashing ([] : List (Block UInt8))) emptyChild
          emptyChild) :
    (attackMachine S byteHashing 1).Reachable ok (startWorld S server) :=
  .init ⟨server, h, rfl⟩

/-- A write and a read of block 7 over the honest server. -/
theorem answer_of_careful_two : ∃ w c' value rest,
    World.step (integrityCheckedServer UInt8 1) byteHashing
      (startWorld (integrityCheckedServer UInt8 1) (fun _ => [], fun _ => emptyChild))
      ⟨7, some 10, [0, 1]⟩ = some w ∧
    verifiedAccess (integrityCheckedServer UInt8 1) byteHashing w.client 7 none [0] =
      some (c', .ok value, rest) ∧ value = w.contents 7 := by
  have hrun : ((World.step (integrityCheckedServer UInt8 1) byteHashing
      (startWorld (integrityCheckedServer UInt8 1) (fun _ => [], fun _ => emptyChild))
      ⟨7, some 10, [0, 1]⟩).map fun w => (w.client.depth, decide (NoCollision byteHashing
        (w.hashedAfter (integrityCheckedServer UInt8 1) byteHashing ⟨7, none, [0]⟩)),
        (verifiedAccess (integrityCheckedServer UInt8 1) byteHashing w.client 7 none [0]).map
          fun r => r.2.1.toBool)) = some (1, true, some true) := by
    decide +kernel
  obtain ⟨w, hstep, hstate⟩ := Option.map_eq_some_iff.1 hrun
  simp only [Prod.mk.injEq] at hstate
  obtain ⟨hdepth, hno, hok⟩ := hstate
  obtain ⟨⟨c', answer, rest⟩, haccess, hanswer⟩ := Option.map_eq_some_iff.1 hok
  cases answer with
  | error e => cases hanswer
  | ok value =>
    have hpasses : Passes (integrityCheckedServer UInt8 1) byteHashing
        (startWorld (integrityCheckedServer UInt8 1) (fun _ => [], fun _ => emptyChild)).client
        0 := by
      decide +kernel
    have hsame : (secondAnswers (integrityCheckedServer UInt8 1)
        (startWorld (integrityCheckedServer UInt8 1) (fun _ => [], fun _ => emptyChild)).client
        0).1 = (firstAnswers (integrityCheckedServer UInt8 1)
        (startWorld (integrityCheckedServer UInt8 1) (fun _ => [], fun _ => emptyChild)).client
        0).1 := by
      decide +kernel
    have hcareful : Careful (integrityCheckedServer UInt8 1) byteHashing
        (startWorld (integrityCheckedServer UInt8 1) (fun _ => [], fun _ => emptyChild))
        ⟨7, some 10, [0, 1]⟩ := ⟨fun _ => hsame, fun hfails => absurd hpasses hfails⟩
    refine ⟨w, c', value, rest, hstep, haccess, ?_⟩
    have hrange : InRange (startWorld (integrityCheckedServer UInt8 1)
        (fun _ => [], fun _ => emptyChild)) ⟨7, some 10, [0, 1]⟩ :=
      show ∀ leaf ∈ [0, 1], leaf < numLeaves 1 by decide
    have hrange' : InRange w (Call.mk 7 none [0]) := by
      rw [InRange, hdepth]
      decide
    exact answer_of_careful faithful_byteHashing
      ((reachable_startWorld (by decide +kernel)).step ⟨hrange, hcareful⟩
        ((attackMachine_step _ _ _ _).trans hstep)) hrange' (of_decide_eq_true hno) haccess

/-- A server that answers honestly up to the second pass of the first access, then with the hash of
a bucket of its own, and from then on shows that bucket. -/
def poisoner : VerifiableServerStorage ((Buckets UInt8 × (ℕ → Digest)) × ℕ) UInt8 where
  readAndClear s node :=
    if node = 3 then ([⟨9, 66⟩], s)
    else (s.1.1 node, ((Function.update s.1.1 node [], s.1.2), s.2))
  write s node blocks := some ((Function.update s.1.1 node blocks, s.1.2), s.2)
  bucketCapacity := 1
  nodeHash s node :=
    (if s.2 = 4 then hashNode byteHashing (hashBucket byteHashing [⟨9, 66⟩]) emptyChild emptyChild
      else s.1.2 node, (s.1, s.2 + 1))
  setNodeHash s node hash := ((s.1.1, Function.update s.1.2 node hash), s.2)

/-- **The client answers with a block that nobody wrote**: block 7 is written, and a read of block 9
returns what the server put there, though no two inputs collide. -/
theorem exists_poisoned : ¬ ∀ (w : World _ UInt8) (call : Call UInt8) c' value rest,
    (attackMachine poisoner byteHashing 1).Reachable InRange w → InRange w call →
    NoCollision byteHashing (w.hashedAfter poisoner byteHashing call) →
    verifiedAccess poisoner byteHashing w.client call.id call.newValue call.tape =
      some (c', .ok value, rest) → value = w.contents call.id := by
  intro h
  have hrun : ((World.step poisoner byteHashing
      (startWorld poisoner ((fun _ => [], fun _ => emptyChild), 0)) ⟨7, some 10, [0, 0]⟩).map
      fun w => (w.client.depth, w.contents 9, decide (NoCollision byteHashing
        (w.hashedAfter poisoner byteHashing ⟨9, none, [1, 0]⟩)),
        (verifiedAccess poisoner byteHashing w.client 9 none [1, 0]).map
          fun r => r.2.1.toOption.join)) = some (1, none, true, some (some 66)) := by
    decide +kernel
  obtain ⟨w, hstep, hstate⟩ := Option.map_eq_some_iff.1 hrun
  simp only [Prod.mk.injEq] at hstate
  obtain ⟨hdepth, hcontents, hno, hok⟩ := hstate
  obtain ⟨⟨c', answer, rest⟩, haccess, hanswer⟩ := Option.map_eq_some_iff.1 hok
  have hrange : InRange (startWorld poisoner ((fun _ => [], fun _ => emptyChild), 0))
      ⟨7, some 10, [0, 0]⟩ := show ∀ leaf ∈ [0, 0], leaf < numLeaves 1 by decide
  have hrange' : InRange w (Call.mk 9 none [1, 0]) := by
    rw [InRange, hdepth]
    decide
  have hreached : (attackMachine poisoner byteHashing 1).Reachable InRange w :=
    (reachable_startWorld (by decide +kernel)).step hrange
      ((attackMachine_step _ _ _ _).trans hstep)
  cases answer with
  | error e => cases hanswer
  | ok value =>
    have hvalue : value = none :=
      (h w ⟨9, none, [1, 0]⟩ c' value rest hreached hrange' (of_decide_eq_true hno) haccess).trans
        hcontents
    rw [hvalue] at hanswer
    cases hanswer

end Oram

end NovaChannel
