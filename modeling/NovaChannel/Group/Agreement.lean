import NovaChannel.Group.Shape

/-!
# What members of one epoch share

`View β` is the part of a group's state that every member of an epoch has in common.

* `Holds v g` : `g` is a current member's state in the epoch `v`: it shares `v`, and it holds
  the secret keys of its leaf and of every populated node above it;
* `Committed v coins c pre v'` : the commit `c` was made by a member of the epoch `v` and leads
  to the epoch `v'`, through the spliced tree `pre`;
* `commit_spec`, `applyCommit_spec`, `join_spec` : **the committer, every receiver and the new
  member reach `v'`**, the last one when the tree lets it.
-/

namespace NovaChannel

namespace Group

open Crypto

/-- The shared state of an epoch. -/
structure View (β : Type) where
  groupId : β
  capacity : ℕ
  nodes : List (TreeNode β)
  epoch : ℕ
  epochSecret : β
  transcriptHash : β

/-- The shared part of a member's state. -/
def view {β : Type} (g : Group β) : View β :=
  ⟨g.groupId, g.capacity, g.nodes, g.epoch, g.epochSecret, g.transcriptHash⟩

/-- What the signature of a commit covers. -/
def Commit.signedBytes {β : Type} [Crypto β] (c : Commit β) : β :=
  commitSignedBytes c.groupId c.fromEpoch c.senderLeaf c.op c.path

section Definitions

variable {β : Type} [Crypto β]

/-- A view every operation can rely on. -/
structure View.WellFormed (v : View β) : Prop where
  capacity : capacityValid v.capacity = true
  max : v.capacity ≤ maxCapacity
  shape : Shape v.capacity v.nodes
  epoch : v.epoch < 2 ^ 64

/-- The node of a leaf, in the view's tree. -/
abbrev View.node (v : View β) (leaf : ℕ) : ℕ := leafToNode v.capacity leaf

/-- The secret at the root of a commit's path. -/
def commitSecret (path : List ℕ) (pathSecret : β) : β := pathStep^[path.length - 1] pathSecret

/-- The epoch a commit leads to, through the spliced tree `pre`. -/
def View.next (v : View β) (coins : CommitCoins β) (c : Commit β)
    (pre : List (TreeNode β)) : View β :=
  let path := directPath v.capacity c.senderLeaf
  let transcriptHash := nextTranscriptHash v.transcriptHash c.signedBytes
  { groupId := v.groupId
    capacity := v.capacity
    nodes := setPath pre path c.path
    epoch := v.epoch + 1
    epochSecret := nextEpochSecret v.epochSecret (commitSecret path coins.pathSecret)
      transcriptHash
    transcriptHash := transcriptHash }

/-- The commit was made by a member of the epoch `v`. -/
structure Committed (v : View β) (coins : CommitCoins β) (c : Commit β)
    (pre : List (TreeNode β)) : Prop where
  groupId : c.groupId = v.groupId
  fromEpoch : c.fromEpoch = v.epoch
  epoch : v.epoch + 1 < 2 ^ 64
  sender : c.senderLeaf < v.capacity
  signed : ∃ lp, v.nodes[v.node c.senderLeaf]? = some (.leaf lp) ∧
    verify lp.identity c.signedBytes c.signature = true
  spliced : splice v.nodes v.capacity c.op = .ok pre
  path : commitPath coins.sealCoins pre v.capacity (v.node c.senderLeaf) coins.pathSecret
    (directPath v.capacity c.senderLeaf) =
      .ok (c.path, pathSecrets (directPath v.capacity c.senderLeaf) coins.pathSecret)

/-- A current member's state in the epoch `v`. -/
structure Holds (v : View β) (g : Group β) : Prop where
  view : g.view = v
  app : g.applicationSecret = deriveApplicationSecret v.epochSecret
  lt : g.myLeaf < v.capacity
  leaf : ∃ lp dh kem, v.nodes[g.leafNode]? = some (.leaf lp) ∧ g.myLeafKeys = some (dh, kem) ∧
    lp.publicKey = ⟨x25519Public dh, mlKemPublic kem⟩
  known : ∀ n pk, Below n g.leafNode → v.nodes[n]? = some (.parent pk) →
    ∃ s, g.knownSecrets n = some s ∧ (deriveNodeKeypair s).public = pk
  dom : ∀ n s, g.knownSecrets n = some s → Below n g.leafNode ∧ n ≠ g.leafNode

/-- The chains of an epoch, before the first record. -/
structure FreshChains (g : Group β) : Prop where
  sendSeq : g.sendSeq = 0
  sendChain : g.sendChain = deriveSenderChain g.applicationSecret g.myLeaf
  recvChains : ∀ leaf, g.recvChains leaf = none

end Definitions

/-! ### Direct paths of a well-formed view -/

section Paths

variable {β : Type} [Crypto β] {v : View β}

theorem View.WellFormed.two_le (h : v.WellFormed) : 2 ≤ v.capacity := by
  have := h.capacity
  simp only [capacityValid, Bool.and_eq_true, decide_eq_true_eq] at this
  exact this.1

theorem View.WellFormed.node_lt (_ : v.WellFormed) {leaf : ℕ} (hl : leaf < v.capacity) :
    v.node leaf < 2 * v.capacity - 1 := by
  simp only [View.node, leafToNode]
  omega

theorem View.WellFormed.node_pos (h : v.WellFormed) (leaf : ℕ) : 0 < v.node leaf := by
  have := h.two_le
  simp only [View.node, leafToNode]
  omega

/-- The nodes of a direct path are internal. -/
theorem lt_of_mem_directPath {capacity leaf d : ℕ} (hl : leaf < capacity)
    (hd : d ∈ directPath capacity leaf) : d < capacity - 1 := by
  obtain ⟨hb, hne⟩ := mem_directPath.1 hd
  have hle := hb.le
  by_contra h
  exact hne (eq_of_below_leaf (Nat.not_lt.1 h) (by unfold leafToNode; omega) hb).symm

theorem getLast?_directPath {capacity : ℕ} (h : 2 ≤ capacity) (leaf : ℕ) :
    (directPath capacity leaf).getLast? = some 0 := by
  refine (isPath_directPath _ _).getLast_eq ?_
  unfold leafToNode
  omega

theorem View.WellFormed.getLast? (h : v.WellFormed) (leaf : ℕ) :
    (directPath v.capacity leaf).getLast? = some 0 := getLast?_directPath h.two_le leaf

theorem nodup_directPath (capacity leaf : ℕ) : (directPath capacity leaf).Nodup :=
  (isPath_directPath capacity leaf).nodup

/-- The secret of the root, among the secrets of a path. -/
theorem lookup_commitSecret {capacity : ℕ} (h : 2 ≤ capacity) (leaf : ℕ) (secret : β) :
    (pathSecrets (directPath capacity leaf) secret).lookup 0 =
      some (commitSecret (directPath capacity leaf) secret) := by
  have hlast := getLast?_directPath h leaf
  rw [List.getLast?_eq_getElem?] at hlast
  exact lookup_pathSecrets (nodup_directPath _ _) hlast secret

theorem View.WellFormed.lookup_commitSecret (h : v.WellFormed) (leaf : ℕ) (secret : β) :
    (pathSecrets (directPath v.capacity leaf) secret).lookup 0 =
      some (commitSecret (directPath v.capacity leaf) secret) :=
  Group.lookup_commitSecret h.two_le leaf secret

/-- The tree after a commit is well formed again. -/
theorem Committed.next_wellFormed {coins : CommitCoins β} {c : Commit β}
    {pre : List (TreeNode β)} (hc : Committed v coins c pre) (h : v.WellFormed)
    (hop : ∀ leaf lp, c.op = .add leaf lp → lp.popValid = true) :
    (v.next coins c pre).WellFormed :=
  ⟨h.capacity, h.max, (h.shape.splice hop hc.spliced).setPath
    (fun _ hd => lt_of_mem_directPath hc.sender hd) _, hc.epoch⟩

/-- After a commit every node above the committer's leaf carries the public key of its path
secret. -/
theorem Committed.getElem?_next {coins : CommitCoins β} {c : Commit β} {pre : List (TreeNode β)}
    (hc : Committed v coins c pre) (hpre : Shape v.capacity pre) {d : ℕ}
    (hd : d ∈ directPath v.capacity c.senderLeaf) :
    ∃ s, (pathSecrets (directPath v.capacity c.senderLeaf) coins.pathSecret).lookup d = some s ∧
      (v.next coins c pre).nodes[d]? = some (.parent (deriveNodeKeypair s).public) := by
  refine setPath_of_mem hc.path (nodup_directPath _ _) hd ?_
  have := lt_of_mem_directPath hc.sender hd
  rw [hpre.length]
  omega

/-- A commit leaves the nodes outside its direct path as the operation left them. -/
theorem getElem?_next_of_notMem {coins : CommitCoins β} {c : Commit β} {pre : List (TreeNode β)}
    {d : ℕ} (hd : d ∉ directPath v.capacity c.senderLeaf) :
    (v.next coins c pre).nodes[d]? = pre[d]? := setPath_of_notMem hd

end Paths

/-! ### The committer -/

section Committer

variable {β : Type} [Crypto β]

/-- Installing a commit keeps everything but the shared state and the chains. -/
theorem apply_eq_ok {g g' : Group β} {pre : List (TreeNode β)} {path : List ℕ}
    {pathNodes : List (UpdatePathNode β)} {secret signed : β}
    (h : g.apply pre path pathNodes secret signed = .ok g') :
    g.epoch + 1 < 2 ^ 64 ∧
    g'.view = ⟨g.groupId, g.capacity, setPath pre path pathNodes, g.epoch + 1,
      nextEpochSecret g.epochSecret secret (nextTranscriptHash g.transcriptHash signed),
      nextTranscriptHash g.transcriptHash signed⟩ ∧
    g'.applicationSecret = deriveApplicationSecret g'.epochSecret ∧ g'.myLeaf = g.myLeaf ∧
    g'.myLeafKeys = g.myLeafKeys ∧ g'.knownSecrets = g.knownSecrets ∧ FreshChains g' := by
  obtain ⟨epoch, he, h⟩ := Result.bind_eq_ok.1 h
  obtain ⟨hlt, rfl⟩ := checkedAdd64_eq_some.1 (Result.expect_eq_ok.1 he)
  obtain rfl := Except.ok.inj h
  exact ⟨hlt, rfl, rfl, rfl, rfl, rfl, rfl, rfl, fun _ => rfl⟩

theorem apply_isOk {g : Group β} (h : g.epoch + 1 < 2 ^ 64) (pre : List (TreeNode β))
    (path : List ℕ) (pathNodes : List (UpdatePathNode β)) (secret signed : β) :
    ∃ g', g.apply pre path pathNodes secret signed = .ok g' := by
  have he : checkedAdd64 g.epoch 1 = some (g.epoch + 1) := by
    simp only [checkedAdd64, h, ↓reduceIte]
  exact ⟨_, by simp only [Group.apply, he, Result.expect_some, Result.ok_bind]; rfl⟩

/-- What a member's state looks like after a commit, whoever made it. -/
structure Advanced (v' : View β) (newKnown : List (ℕ × β)) (g g' : Group β) : Prop where
  view : g'.view = v'
  app : g'.applicationSecret = deriveApplicationSecret v'.epochSecret
  myLeaf : g'.myLeaf = g.myLeaf
  myLeafKeys : g'.myLeafKeys = g.myLeafKeys
  known : g'.knownSecrets = insertKnown g.knownSecrets newKnown
  fresh : FreshChains g'

/-- What a successful commit did. -/
theorem commit_eq_ok {g g' : Group β} {signer : β} {coins : CommitCoins β} {op : GroupOp β}
    {c : Commit β} (hcap : 2 ≤ g.capacity) (h : g.commit signer coins op = .ok (g', c)) :
    c = ⟨g.groupId, g.epoch, g.myLeaf, op, c.path, sign signer c.signedBytes⟩ ∧
      g.epoch + 1 < 2 ^ 64 ∧
      ∃ pre, splice g.nodes g.capacity op = .ok pre ∧
        commitPath coins.sealCoins pre g.capacity g.leafNode coins.pathSecret
          (directPath g.capacity g.myLeaf) =
            .ok (c.path, pathSecrets (directPath g.capacity g.myLeaf) coins.pathSecret) ∧
        Advanced (g.view.next coins c pre)
          (pathSecrets (directPath g.capacity g.myLeaf) coins.pathSecret) g g' := by
  obtain ⟨pre, hpre, h⟩ := Result.bind_eq_ok.1 h
  obtain ⟨⟨pathNodes, newKnown⟩, hpath, h⟩ := Result.bind_eq_ok.1 h
  obtain ⟨last, hlast, h⟩ := Result.bind_eq_ok.1 h
  obtain ⟨secret, hsecret, h⟩ := Result.bind_eq_ok.1 h
  obtain ⟨g₁, hg₁, h⟩ := Result.bind_eq_ok.1 h
  obtain ⟨rfl, hcommit⟩ := Prod.mk.inj (Except.ok.inj h)
  obtain ⟨hepoch, hview, happ, hmy, hkeys, hknown, hfresh⟩ := apply_eq_ok hg₁
  obtain rfl := commitPath_newKnown hpath
  obtain rfl : last = 0 :=
    (Option.some.inj ((getLast?_directPath hcap g.myLeaf).symm.trans
      (Result.expect_eq_ok.1 hlast))).symm
  obtain rfl : commitSecret (directPath g.capacity g.myLeaf) coins.pathSecret = secret :=
    Option.some.inj ((lookup_commitSecret hcap g.myLeaf coins.pathSecret).symm.trans
      (Result.expect_eq_ok.1 hsecret))
  obtain ⟨hgid, hcapacity, hnodes, hep, hes, hth⟩ := View.mk.inj hview
  have hfrom : g₁.epoch - 1 = g.epoch := by omega
  rw [hgid, hfrom, hmy] at hcommit
  subst hcommit
  exact ⟨rfl, hepoch, pre, hpre, hpath, hview, happ.trans (congrArg _ hes), hmy, hkeys,
    congrArg (insertKnown · _) hknown, ⟨hfresh.sendSeq, hfresh.sendChain, hfresh.recvChains⟩⟩

variable [LawfulCrypto β]

/-- **A commit, seen from the committer**: it is a commit of the committer's epoch, and the
committer is in the next one, with the secrets of its whole direct path. -/
theorem commit_spec {v : View β} {g g' : Group β} {signer : β} {coins : CommitCoins β}
    {op : GroupOp β} {c : Commit β} {lp : LeafKeyPackage β} (hv : v.WellFormed)
    (hview : g.view = v) (hlt : g.myLeaf < v.capacity)
    (hleaf : v.nodes[g.leafNode]? = some (.leaf lp)) (hid : lp.identity = publicIdentity signer)
    (h : g.commit signer coins op = .ok (g', c)) :
    c.op = op ∧ c.senderLeaf = g.myLeaf ∧ c.signature = sign signer c.signedBytes ∧
      ∃ pre, Committed v coins c pre ∧
      Advanced (v.next coins c pre)
        (pathSecrets (directPath v.capacity c.senderLeaf) coins.pathSecret) g g' := by
  subst hview
  obtain ⟨hc, hepoch, pre, hpre, hpath, hadv⟩ := commit_eq_ok hv.two_le h
  have hop : c.op = op := congrArg Commit.op hc
  have hsender : c.senderLeaf = g.myLeaf := congrArg Commit.senderLeaf hc
  have hsign : c.signature = sign signer c.signedBytes := congrArg Commit.signature hc
  refine ⟨hop, hsender, hsign, pre, ⟨congrArg Commit.groupId hc, congrArg Commit.fromEpoch hc,
    hepoch, hsender ▸ hlt,
    ⟨lp, hsender ▸ hleaf, ?_⟩, hop ▸ hpre, hsender ▸ hpath⟩, hsender ▸ hadv⟩
  rw [hid, hsign]
  exact LawfulCrypto.verify_sign _ _

end Committer

/-! ### The next epoch's members -/

section Members

variable {β : Type} [Crypto β] {v : View β} {coins : CommitCoins β} {c : Commit β}
  {pre : List (TreeNode β)} {g g' : Group β} {newKnown : List (ℕ × β)}

theorem lookup_pathSecrets_isSome {path : List ℕ} {secret s : β} {d : ℕ}
    (h : (pathSecrets path secret).lookup d = some s) : d ∈ path := by
  by_contra hd
  rw [lookup_pathSecrets_of_notMem hd] at h
  cases h

/-- A member that learnt the path secrets above its leaf is a member of the next epoch. -/
theorem Advanced.holds (h : Advanced (v.next coins c pre) newKnown g g')
    (hc : Committed v coins c pre) (hpre : Shape v.capacity pre) (hcap : g.capacity = v.capacity)
    (hlt : g.myLeaf < v.capacity)
    (hleaf : ∃ lp dh kem, pre[g.leafNode]? = some (.leaf lp) ∧ g.myLeafKeys = some (dh, kem) ∧
      lp.publicKey = ⟨x25519Public dh, mlKemPublic kem⟩)
    (hknown : ∀ n pk, Below n g.leafNode → n ∉ directPath v.capacity c.senderLeaf →
      pre[n]? = some (.parent pk) →
        ∃ s, g.knownSecrets n = some s ∧ (deriveNodeKeypair s).public = pk)
    (hdom : ∀ n s, g.knownSecrets n = some s → Below n g.leafNode ∧ n ≠ g.leafNode)
    (hsame : ∀ d ∈ directPath v.capacity c.senderLeaf, Below d g.leafNode →
      newKnown.lookup d =
        (pathSecrets (directPath v.capacity c.senderLeaf) coins.pathSecret).lookup d)
    (hnew : ∀ d s, newKnown.lookup d = some s →
      d ∈ directPath v.capacity c.senderLeaf ∧ Below d g.leafNode) :
    Holds (v.next coins c pre) g' := by
  have hcap' : g'.capacity = v.capacity := congrArg View.capacity h.view
  have hnode : g'.leafNode = g.leafNode := by rw [leafNode, leafNode, h.myLeaf, hcap, hcap']
  have hnodeLe : v.capacity - 1 ≤ g.leafNode := by
    rw [leafNode, leafToNode, hcap]; exact Nat.le_add_right _ _
  have hleafPath : g.leafNode ∉ directPath v.capacity c.senderLeaf := fun hd =>
    absurd (lt_of_mem_directPath hc.sender hd) (by omega)
  refine ⟨h.view, h.app, by rw [h.myLeaf]; exact hlt, ?_, fun n pk hn hpk => ?_, fun n s hs => ?_⟩
  · obtain ⟨lp, dh, kem, hlp, hkeys, hpk⟩ := hleaf
    refine ⟨lp, dh, kem, ?_, by rw [h.myLeafKeys, hkeys], hpk⟩
    rw [hnode, getElem?_next_of_notMem hleafPath, hlp]
  · rw [hnode] at hn
    rw [h.known]
    by_cases hd : n ∈ directPath v.capacity c.senderLeaf
    · obtain ⟨s, hs, hset⟩ := hc.getElem?_next hpre hd
      obtain rfl : (deriveNodeKeypair s).public = pk := by
        rw [hset] at hpk; simpa using hpk
      exact ⟨s, by rw [insertKnown, hsame n hd hn, hs]; rfl, rfl⟩
    · rw [getElem?_next_of_notMem hd] at hpk
      obtain ⟨s, hs, hpub⟩ := hknown n pk hn hd hpk
      have hnone : newKnown.lookup n = none :=
        Option.eq_none_iff_forall_ne_some.2 fun s' hs' => hd (hnew n s' hs').1
      exact ⟨s, by rw [insertKnown, hnone, hs]; rfl, hpub⟩
  · rw [hnode]
    rw [h.known, insertKnown] at hs
    cases hl : newKnown.lookup n with
    | none =>
      rw [hl] at hs
      exact hdom n s hs
    | some s' =>
      obtain ⟨hd, hb⟩ := hnew n s' hl
      exact ⟨hb, fun he => hleafPath (he ▸ hd)⟩

/-- The committer is a member of the next epoch unless it removed itself. -/
theorem Holds.next_committer (hg : Holds v g) (hc : Committed v coins c pre)
    (hpre : Shape v.capacity pre) (hsender : c.senderLeaf = g.myLeaf)
    (hrem : c.op ≠ .remove g.myLeaf)
    (h : Advanced (v.next coins c pre)
      (pathSecrets (directPath v.capacity c.senderLeaf) coins.pathSecret) g g') :
    Holds (v.next coins c pre) g' := by
  have hcap : g.capacity = v.capacity := congrArg View.capacity hg.view
  obtain ⟨lp, dh, kem, hlp, hkeys, hpk⟩ := hg.leaf
  have hnode : g.leafNode = leafToNode v.capacity c.senderLeaf := by rw [leafNode, hcap, hsender]
  refine h.holds hc hpre hcap hg.lt ⟨lp, dh, kem, ?_, hkeys, hpk⟩ (fun n pk hn hd hpk => ?_)
    hg.dom (fun _ _ _ => rfl) (fun d s hs => ?_)
  · refine getElem?_splice hc.spliced (hnode ▸ Nat.le_add_right _ _) hlp fun leaf he hn => hrem ?_
    rw [he]
    congr 1
    rw [hnode, hsender] at hn
    unfold leafToNode at hn
    omega
  · refine absurd (mem_directPath.2 ⟨hnode ▸ hn, fun he => ?_⟩) hd
    have h1 := hpre.parent n pk hpk
    rw [he] at h1
    exact absurd h1 (Nat.not_lt.2 (Nat.le_add_right _ _))
  · have hd := lookup_pathSecrets_isSome hs
    exact ⟨hd, hnode ▸ (mem_directPath.1 hd).1⟩

/-- A current member whose leaf an operation does not remove holds what it needs of the spliced
tree. -/
theorem Holds.ready (hg : Holds v g) (hsp : splice v.nodes v.capacity c.op = .ok pre)
    (hrem : c.op ≠ .remove g.myLeaf) (node : ℕ) : Ready g pre node := by
  have hcap : g.capacity = v.capacity := congrArg View.capacity hg.view
  obtain ⟨lp, dh, kem, hlp, hkeys, hpk⟩ := hg.leaf
  refine ⟨⟨lp, dh, kem, ?_, hkeys, hpk⟩,
    fun n pk hn _ hpk => hg.known n pk hn (parent_of_splice hsp hpk), hg.dom⟩
  refine getElem?_splice hsp ?_ hlp fun leaf he hn => hrem ?_
  · rw [leafNode, leafToNode, hcap]; exact Nat.le_add_right _ _
  · rw [he]
    congr 1
    rw [leafNode, hcap] at hn
    unfold leafToNode at hn
    omega

end Members

/-! ### The receivers -/

section Receivers

variable {β : Type} [Crypto β] [LawfulCrypto β] [DecidableEq β] {v : View β}
  {coins : CommitCoins β} {c : Commit β} {pre : List (TreeNode β)} {g : Group β}

omit [LawfulCrypto β] in
/-- The checks `apply_commit` makes before it looks for a ciphertext pass. -/
theorem applyCommit_eq (hv : v.WellFormed) (hview : g.view = v) (hc : Committed v coins c pre) :
    g.applyCommit c = (do
      let path := directPath v.capacity c.senderLeaf
      let (foundLevel, secret) ← g.findAndDecrypt pre 0 (v.node c.senderLeaf) path c.path
      let newKnown ← verifyPath (path.drop foundLevel) (c.path.drop foundLevel) secret
      let commitSecret ← Result.expect (newKnown.lookup 0)
      let g' ← g.apply pre path c.path commitSecret c.signedBytes
      pure { g' with knownSecrets := insertKnown g'.knownSecrets newKnown }) := by
  subst hview
  obtain ⟨lp, hlp, hverify⟩ := hc.signed
  have hgid : c.groupId = g.groupId := hc.groupId
  have hfrom : c.fromEpoch = g.epoch := hc.fromEpoch
  have hlt : c.senderLeaf < g.capacity := hc.sender
  have hid : g.memberIdentity c.senderLeaf = some lp.identity := by
    have hlp' : g.nodes[leafToNode g.capacity c.senderLeaf]? = some (.leaf lp) := hlp
    simp only [memberIdentity, ge_iff_le, Nat.not_le.2 hlt, ↓reduceIte, hlp']
  have hsp : g.spliced c.op = .ok pre := hc.spliced
  have hlen : (directPath g.capacity c.senderLeaf).length = c.path.length :=
    (commitPath_length hc.path).symm
  have hlast : (directPath g.capacity c.senderLeaf).getLast? = some 0 := hv.getLast? c.senderLeaf
  have hverify' : verify lp.identity (commitSignedBytes c.groupId c.fromEpoch c.senderLeaf c.op
      c.path) c.signature = true := hverify
  unfold applyCommit
  simp only [ne_eq, hgid, not_true_eq_false, hfrom, ↓reduceIte, hid]
  rw [← hgid, ← hfrom, hverify', hsp]
  simp only [Bool.not_true, Bool.false_eq_true, ↓reduceIte, Result.ok_bind, hlen,
    not_true_eq_false, hlast, Result.expect_some]
  rfl

/-- **A commit, seen from a receiver**: a member that holds what it needs of the spliced tree
accepts it, and is in the next epoch with the path secrets above its leaf. -/
theorem applyCommit_spec (hv : v.WellFormed) (hview : g.view = v) (hc : Committed v coins c pre)
    (hpre : Shape v.capacity pre) (hlt : g.myLeaf < v.capacity) (hne : c.senderLeaf ≠ g.myLeaf)
    (hr : Ready g pre (v.node c.senderLeaf)) :
    ∃ g' low high, g.applyCommit c = .ok g' ∧
      directPath v.capacity c.senderLeaf = low ++ high ∧ (∀ d ∈ low, ¬ Below d g.leafNode) ∧
      (∀ d ∈ high, Below d g.leafNode) ∧
      Advanced (v.next coins c pre) (pathSecrets high (pathStep^[low.length] coins.pathSecret))
        g g' := by
  subst hview
  have hnot : ¬ Below (leafToNode g.capacity c.senderLeaf) g.leafNode := fun hb => by
    have hlt' : g.leafNode < 2 * g.capacity - 1 := hv.node_lt hlt
    have := eq_of_below_leaf (Nat.le_add_right _ _) hlt' hb
    simp only [leafNode, leafToNode] at this
    omega
  obtain ⟨low, high, hsplit, hlow, hhigh, hfind⟩ :=
    findAndDecrypt_of_ready (i := 0) hr hpre.length (fun n lp hn => (hpre.leaf n lp hn).1)
      (isPath_directPath _ _) hc.path coins.pathSecret_len (hv.node_lt hc.sender) (Below.refl _)
      hnot
  have hnd : (low ++ high).Nodup := hsplit ▸ nodup_directPath _ _
  have hver : verifyPath high (c.path.drop low.length) (pathStep^[low.length] coins.pathSecret) =
      .ok (pathSecrets high (pathStep^[low.length] coins.pathSecret)) := by
    have hp := hc.path
    rw [hsplit] at hp
    obtain ⟨prev', newKnown', hp⟩ := commitPath_append hp
    exact verifyPath_commitPath hp
  have hzero : 0 ∈ high := by
    have hmem := List.mem_of_getLast? (hv.getLast? c.senderLeaf)
    rw [hsplit] at hmem
    exact (List.mem_append.1 hmem).resolve_left fun h => hlow 0 h (below_zero _)
  have hlook : (pathSecrets high (pathStep^[low.length] coins.pathSecret)).lookup 0 =
      some (commitSecret (directPath g.view.capacity c.senderLeaf) coins.pathSecret) := by
    rw [lookup_drop_pathSecrets hnd hzero, ← hsplit, hv.lookup_commitSecret]
  obtain ⟨g₁, hg₁⟩ := apply_isOk (g := g) hc.epoch pre (directPath g.view.capacity c.senderLeaf)
    c.path (commitSecret (directPath g.view.capacity c.senderLeaf) coins.pathSecret) c.signedBytes
  obtain ⟨-, hview₁, happ, hmy, hkeys, hknown, hfresh⟩ := apply_eq_ok hg₁
  refine ⟨{ g₁ with
      knownSecrets := insertKnown g₁.knownSecrets
        (pathSecrets high (pathStep^[low.length] coins.pathSecret)) },
    low, high, ?_, hsplit, hlow, hhigh, hview₁, ?_, hmy, hkeys,
    congrArg (insertKnown · _) hknown, ⟨hfresh.sendSeq, hfresh.sendChain, hfresh.recvChains⟩⟩
  · rw [applyCommit_eq hv rfl hc]
    have hdrop : (low ++ high).drop low.length = high := List.drop_left
    simp only [hfind, Result.ok_bind, Nat.zero_add]
    rw [hsplit, hdrop, hver]
    simp only [Result.ok_bind, hlook, Result.expect_some]
    rw [← hsplit, hg₁]
    rfl
  · exact happ.trans (congrArg _ (View.mk.inj hview₁).2.2.2.2.1)

omit [LawfulCrypto β] [DecidableEq β] in
/-- A receiver that learnt the path secrets above its leaf is a member of the next epoch. -/
theorem Advanced.holds_of_ready {g' : Group β} {low high : List ℕ} (hview : g.view = v)
    (hlt : g.myLeaf < v.capacity) (hc : Committed v coins c pre) (hpre : Shape v.capacity pre)
    (hr : Ready g pre (v.node c.senderLeaf))
    (hsplit : directPath v.capacity c.senderLeaf = low ++ high)
    (hlow : ∀ d ∈ low, ¬ Below d g.leafNode) (hhigh : ∀ d ∈ high, Below d g.leafNode)
    (h : Advanced (v.next coins c pre)
      (pathSecrets high (pathStep^[low.length] coins.pathSecret)) g g') :
    Holds (v.next coins c pre) g' := by
  have hnd : (low ++ high).Nodup := hsplit ▸ nodup_directPath _ _
  refine h.holds hc hpre (congrArg View.capacity hview) hlt hr.leaf (fun n pk hn hd hpk => ?_)
    hr.dom (fun d hd hb => ?_) (fun d s hs => ?_)
  · refine hr.known n pk hn (fun hb => hd (mem_directPath.2 ⟨hb, fun he => ?_⟩)) hpk
    have h1 := hpre.parent n pk hpk
    rw [he] at h1
    exact absurd h1 (Nat.not_lt.2 (Nat.le_add_right _ _))
  · rw [hsplit] at hd ⊢
    refine lookup_drop_pathSecrets hnd ((List.mem_append.1 hd).resolve_left fun hl => ?_) _
    exact hlow d hl hb
  · have hd := lookup_pathSecrets_isSome hs
    exact ⟨hsplit ▸ List.mem_append_right _ hd, hhigh d hd⟩

/-- **A current member accepts every commit that does not remove it**, and is a member of the
next epoch. -/
theorem Holds.applyCommit (hg : Holds v g) (hv : v.WellFormed) (hc : Committed v coins c pre)
    (hpre : Shape v.capacity pre) (hne : c.senderLeaf ≠ g.myLeaf)
    (hrem : c.op ≠ .remove g.myLeaf) :
    ∃ g' low high, g.applyCommit c = .ok g' ∧
      directPath v.capacity c.senderLeaf = low ++ high ∧ (∀ d ∈ high, Below d g.leafNode) ∧
      Advanced (v.next coins c pre) (pathSecrets high (pathStep^[low.length] coins.pathSecret))
        g g' ∧
      Holds (v.next coins c pre) g' := by
  have hr := hg.ready hc.spliced hrem (v.node c.senderLeaf)
  obtain ⟨g', low, high, hg', hsplit, hlow, hhigh, hadv⟩ :=
    applyCommit_spec hv hg.view hc hpre hg.lt hne hr
  exact ⟨g', low, high, hg', hsplit, hhigh, hadv,
    hadv.holds_of_ready hg.view hg.lt hc hpre hr hsplit hlow hhigh⟩

end Receivers

/-! ### The new member -/

section Joiner

variable {β : Type} [Crypto β] {v : View β} {g g' : Group β} {signer : β} {coins : CommitCoins β}
  {pkg : LeafKeyPackage β} {target : ℕ} {c : Commit β} {w : Welcome β}
  {pre : List (TreeNode β)} {kp : MyLeafKeyPackage β}

/-- A private key package holds the secret halves of its public keys. -/
def MyLeafKeyPackage.Paired (kp : MyLeafKeyPackage β) : Prop :=
  kp.publicKey = ⟨x25519Public kp.dhSecret, mlKemPublic kp.kemSecret⟩

theorem MyLeafKeyPackage.generate_paired (signer dhSecret kemSecret : β) :
    (MyLeafKeyPackage.generate signer dhSecret kemSecret).Paired := rfl

/-- Between the new leaf and the committer's direct path the tree is blank. -/
def View.Joinable (v : View β) (committer target : ℕ) : Prop :=
  ∀ d ∈ directPath v.capacity target, d ∉ directPath v.capacity committer →
    v.nodes[d]? = some .blank

omit [Crypto β] in
/-- The snapshot of an epoch's shared state. -/
def View.snapshot (v : View β) (targetLeaf : ℕ) : WelcomeSnapshot β :=
  ⟨v.groupId, v.capacity, v.epoch, v.epochSecret, v.transcriptHash, v.nodes, targetLeaf⟩

/-- The welcome was sent beside the commit that adds `pkg` at the leaf `target`. -/
structure Welcomed (v : View β) (coins : CommitCoins β) (c : Commit β) (pkg : LeafKeyPackage β)
    (target : ℕ) (w : Welcome β) : Prop where
  op : c.op = .add target pkg
  lt : target < v.capacity
  blank : v.nodes[v.node target]? = some .blank
  sealedBy : ∃ signer lp, v.nodes[v.node c.senderLeaf]? = some (.leaf lp) ∧
    lp.identity = publicIdentity signer ∧
    sealToNode coins.welcome pkg.publicKey welcomeAadContext
      (frame [(v.snapshot target).write,
        sign signer (welcomeSignedBytes (v.snapshot target).write)]) = .ok w.sealedSnapshot

/-- A leaf slot that is no member's is blank. -/
theorem firstBlankLeaf_spec (hv : g.view.WellFormed) (h : g.firstBlankLeaf = some target) :
    target < g.capacity ∧ g.nodes[leafToNode g.capacity target]? = some .blank := by
  have hlt : target < g.capacity := List.mem_range.1 (List.mem_of_find?_eq_some h)
  have hnot : g.isMember target = false := by simpa using List.find?_some h
  have hlen : leafToNode g.capacity target < g.nodes.length := by
    rw [show g.nodes.length = 2 * g.capacity - 1 from hv.shape.length]
    exact hv.node_lt hlt
  refine ⟨hlt, ?_⟩
  cases hn : g.nodes[leafToNode g.capacity target]? with
  | none => rw [List.getElem?_eq_getElem hlen] at hn; cases hn
  | some x =>
    cases x with
    | blank => rfl
    | leaf lp => simp [isMember, hlt, hn] at hnot
    | parent pk =>
      exact absurd (hv.shape.parent _ _ hn) (Nat.not_lt.2 (Nat.le_add_right _ _))

/-- What `propose_add` did when it succeeded. -/
theorem proposeAdd_eq_ok (h : g.proposeAdd signer coins pkg = .ok (g', c, w)) :
    ∃ target, g.firstBlankLeaf = some target ∧
      g.commit signer coins (.add target pkg) = .ok (g', c) ∧
      sealToNode coins.welcome pkg.publicKey welcomeAadContext
        (frame [(g.snapshot target).write,
          sign signer (welcomeSignedBytes (g.snapshot target).write)]) = .ok w.sealedSnapshot := by
  unfold proposeAdd at h
  split at h
  · cases h
  · rename_i target ht
    obtain ⟨s, hs, h⟩ := Result.bind_eq_ok.1 h
    obtain ⟨⟨g₁, c₁⟩, hc, h⟩ := Result.bind_eq_ok.1 h
    simp only [Result.pure_eq_ok, Except.ok.injEq, Prod.mk.injEq] at h
    obtain ⟨rfl, rfl, rfl⟩ := h
    exact ⟨target, ht, hc, hs⟩

/-- A new member is ready for the commit that adds it when nothing populated shadows its leaf. -/
theorem ready_ofSnapshot (hw : Welcomed v coins c pkg target w) (hpre : Shape v.capacity pre)
    (hkp : kp.Paired) (hkey : pkg.publicKey = kp.publicKey)
    (hsp : splice v.nodes v.capacity c.op = .ok pre) {committer : ℕ}
    (hj : v.Joinable committer target) :
    Ready (ofSnapshot kp (v.snapshot target)) pre (v.node committer) := by
  rw [hw.op] at hsp
  obtain ⟨htlt, -, rfl⟩ := splice_add hsp
  have hnode : leafToNode v.capacity target < v.nodes.length := by
    have := hpre.length
    rw [List.length_set] at this
    rw [this, leafToNode]
    omega
  refine ⟨⟨pkg, kp.dhSecret, kp.kemSecret, List.getElem?_set_self hnode, rfl, hkey.trans hkp⟩,
    fun n pk hn hnot hpk => ?_, fun n s hs => by cases hs⟩
  by_cases he : n = leafToNode v.capacity target
  · rw [he, List.getElem?_set_self hnode] at hpk
    cases hpk
  · have hd : n ∈ directPath v.capacity target := mem_directPath.2 ⟨hn, he⟩
    have hb := hj n hd fun h => hnot (mem_directPath.1 h).1
    rw [List.getElem?_set_ne (Ne.symm he)] at hpk
    cases hb.symm.trans hpk

/-- The welcome's target is not the committer's leaf. -/
theorem Welcomed.ne (hw : Welcomed v coins c pkg target w) : c.senderLeaf ≠ target := by
  obtain ⟨signer, lp, hlp, -, -⟩ := hw.sealedBy
  rintro rfl
  cases hw.blank.symm.trans hlp

variable [LawfulCrypto β]

/-- **An add, seen from the committer.** -/
theorem proposeAdd_spec {lp : LeafKeyPackage β} (hv : v.WellFormed) (hview : g.view = v)
    (hlt : g.myLeaf < v.capacity) (hleaf : v.nodes[g.leafNode]? = some (.leaf lp))
    (hid : lp.identity = publicIdentity signer)
    (h : g.proposeAdd signer coins pkg = .ok (g', c, w)) :
    ∃ target, g.firstBlankLeaf = some target ∧
      g.commit signer coins (.add target pkg) = .ok (g', c) ∧
      Welcomed v coins c pkg target w := by
  subst hview
  obtain ⟨target, ht, hc, hs⟩ := proposeAdd_eq_ok h
  obtain ⟨hop, hsender, -, -⟩ := commit_spec hv rfl hlt hleaf hid hc
  obtain ⟨htlt, htb⟩ := firstBlankLeaf_spec hv ht
  exact ⟨target, ht, hc, hop, htlt, htb, signer, lp, by rw [hsender]; exact hleaf, hid, hs⟩

variable [DecidableEq β]

/-- With the welcome opened and its checks passed, joining is applying the commit to the
snapshot. -/
theorem join_eq (hv : v.WellFormed) (hc : Committed v coins c pre)
    (hw : Welcomed v coins c pkg target w) (hkp : kp.Paired)
    (hkey : pkg.publicKey = kp.publicKey) (hkid : pkg.identity = kp.identity) :
    join kp w c = (ofSnapshot kp (v.snapshot target)).applyCommit c := by
  obtain ⟨signer, lp, hlp, hid, hs⟩ := hw.sealedBy
  rw [hkey, hkp] at hs
  have hopen := openFromNode_sealToNode hs
  have hpop : ∀ n ∈ (v.snapshot target).nodes, n.PopValid := by
    intro n hn
    obtain ⟨i, hi⟩ := List.mem_iff_getElem?.1 hn
    cases n with
    | leaf lp => exact (hv.shape.leaf i lp hi).2
    | blank => trivial
    | parent pk => trivial
  have hread : WelcomeSnapshot.read (v.snapshot target).write = .ok (v.snapshot target) :=
    WelcomeSnapshot.read_write hv.capacity hv.max hv.shape.length hv.epoch hw.lt hpop
  have hmember : (ofSnapshot kp (v.snapshot target)).memberIdentity c.senderLeaf =
      some (publicIdentity signer) := by
    have hlp' : (ofSnapshot kp (v.snapshot target)).nodes[leafToNode
        (ofSnapshot kp (v.snapshot target)).capacity c.senderLeaf]? = some (.leaf lp) := hlp
    have hlt' : ¬ c.senderLeaf ≥ (ofSnapshot kp (v.snapshot target)).capacity :=
      Nat.not_le.2 hc.sender
    simp only [memberIdentity, hlp', hlt', ↓reduceIte, hid]
  have hgid : c.groupId = (v.snapshot target).groupId := hc.groupId
  have hfrom : c.fromEpoch = (v.snapshot target).epoch := hc.fromEpoch
  have hadds : addsMember kp (v.snapshot target).targetLeaf c.op = true := by
    rw [hw.op]
    simp [addsMember, View.snapshot, hkey, hkid]
  simp only [join, hopen, Result.ok_bind, LawfulCrypto.unframe_frame, hread, ne_eq, hgid,
    not_true_eq_false, ↓reduceIte, hfrom, hadds, Bool.not_true, Bool.false_eq_true, hmember,
    LawfulCrypto.verify_sign]

omit [LawfulCrypto β] in
/-- Only the holder of the added key package joins. -/
theorem key_of_join {j : Group β} (hw : Welcomed v coins c pkg target w)
    (h : join kp w c = .ok j) : pkg.publicKey = kp.publicKey ∧ pkg.identity = kp.identity := by
  obtain ⟨plaintext, -, h⟩ := Result.bind_eq_ok.1 h
  split at h
  · obtain ⟨s, -, h⟩ := Result.bind_eq_ok.1 h
    split_ifs at h with h1 h2 h3
    rw [hw.op] at h3
    simp only [addsMember, Bool.not_eq_true', Bool.not_eq_false, Bool.and_eq_true,
      decide_eq_true_eq] at h3
    exact ⟨h3.1.2, h3.2⟩
  · cases h

/-- **The new member reaches the committer's epoch** when nothing populated shadows its leaf. -/
theorem join_spec (hv : v.WellFormed) (hc : Committed v coins c pre) (hpre : Shape v.capacity pre)
    (hw : Welcomed v coins c pkg target w) (hkp : kp.Paired)
    (hkey : pkg.publicKey = kp.publicKey) (hkid : pkg.identity = kp.identity)
    (hj : v.Joinable c.senderLeaf target) :
    ∃ j low high, join kp w c = .ok j ∧
      directPath v.capacity c.senderLeaf = low ++ high ∧
      (∀ d ∈ high, Below d (v.node target)) ∧
      Advanced (v.next coins c pre) (pathSecrets high (pathStep^[low.length] coins.pathSecret))
        (ofSnapshot kp (v.snapshot target)) j ∧
      Holds (v.next coins c pre) j := by
  have hr := ready_ofSnapshot hw hpre hkp hkey hc.spliced hj
  obtain ⟨j, low, high, hjoin, hsplit, hlow, hhigh, hadv⟩ :=
    applyCommit_spec (g := ofSnapshot kp (v.snapshot target)) hv rfl hc hpre hw.lt hw.ne hr
  exact ⟨j, low, high, (join_eq hv hc hw hkp hkey hkid).trans hjoin, hsplit, hhigh, hadv,
    hadv.holds_of_ready (g := ofSnapshot kp (v.snapshot target)) rfl hw.lt hc hpre hr hsplit hlow
      hhigh⟩

/-- **A shadowed new leaf cannot be reached**: no ciphertext of the commit is sealed to a key the
new member holds. -/
theorem join_fails (hv : v.WellFormed) (hc : Committed v coins c pre)
    (hw : Welcomed v coins c pkg target w) (hkp : kp.Paired)
    (hkey : pkg.publicKey = kp.publicKey) (hkid : pkg.identity = kp.identity)
    (hj : ¬ v.Joinable c.senderLeaf target) :
    join kp w c = .err .commitNotDecryptable := by
  have hsp := hc.spliced
  rw [hw.op] at hsp
  obtain ⟨-, -, rfl⟩ := splice_add hsp
  simp only [View.Joinable, not_forall] at hj
  obtain ⟨a, ha, hac, hab⟩ := hj
  have hanode := mem_directPath.1 ha
  have hacap := lt_of_mem_directPath hw.lt ha
  have halt : a < v.nodes.length := by
    rw [hv.shape.length]
    omega
  have hfind : (ofSnapshot kp (v.snapshot target)).findAndDecrypt
      (v.nodes.set (leafToNode v.capacity target) (.leaf pkg)) 0
      (v.node c.senderLeaf) (directPath v.capacity c.senderLeaf) c.path =
        .err .commitNotDecryptable := by
    refine findAndDecrypt_of_unreachable (c := v.node c.senderLeaf)
      (fun t keys x hk _ _ => ?_) (isPath_directPath _ _) hc.path (.refl _)
    -- the only key held is the leaf's, and `a` stands above it
    have htn : t = leafToNode v.capacity target := by
      unfold keysFor at hk
      split_ifs at hk with h
      · exact h
      · cases hk
    refine ⟨a, v.nodes[a], htn ▸ hanode.1, htn ▸ hanode.2, fun hb => ?_, ?_, fun he => hab ?_⟩
    · refine hac (mem_directPath.2 ⟨hb, fun he => ?_⟩)
      rw [he] at hacap
      exact absurd hacap (Nat.not_lt.2 (Nat.le_add_right _ _))
    · rw [List.getElem?_set_ne (Ne.symm hanode.2), List.getElem?_eq_getElem halt]
    · exact (List.getElem?_eq_getElem halt).trans (congrArg some he)
  rw [join_eq hv hc hw hkp hkey hkid,
    applyCommit_eq (g := ofSnapshot kp (v.snapshot target)) hv rfl hc]
  exact congrArg (· >>= _) hfind

end Joiner

end Group

end NovaChannel
