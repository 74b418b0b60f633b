import NovaChannel.Group.Commit

/-!
# The group state machine

One member's view of a group and the operations on it: `create`, `proposeAdd`,
`proposeRemove`, `proposeUpdate`, `applyCommit`, `join`, `sealRecord` and `openRecord`.  Every
operation takes the randomness it draws as an argument and returns the new state.

The lemmas at the end say once what each operation did when it succeeded; nothing later
unfolds them again.
-/

namespace NovaChannel

open Crypto

/-- A group's current state, as seen by one member. -/
structure Group (β : Type) where
  groupId : β
  capacity : ℕ
  nodes : List (Group.TreeNode β)
  epoch : ℕ
  epochSecret : β
  applicationSecret : β
  transcriptHash : β
  myLeaf : ℕ
  myLeafKeys : Option (β × β)
  /-- Secrets of internal nodes: only ancestors of `myLeaf`. -/
  knownSecrets : ℕ → Option β
  sendSeq : ℕ
  sendChain : β
  /-- Per sender leaf, the chain key and the next expected sequence number. -/
  recvChains : ℕ → Option (β × ℕ)

namespace Group

/-- The randomness one commit draws. -/
structure CommitCoins (β : Type) [Crypto β] where
  /-- The first path secret. -/
  pathSecret : β
  pathSecret_len : len32 pathSecret = true
  /-- For the envelope sent at a path node to a target node. -/
  sealCoins : ℕ → ℕ → SealCoins β
  /-- For the welcome's envelope. -/
  welcome : SealCoins β

section Definitions

variable {β : Type}

/-- `is_member`. -/
def isMember (g : Group β) (leaf : ℕ) : Bool :=
  decide (leaf < g.capacity) &&
    match g.nodes[leafToNode g.capacity leaf]? with
    | some (.leaf _) => true
    | _ => false

/-- `member_identity`. -/
def memberIdentity (g : Group β) (leaf : ℕ) : Option β :=
  if leaf ≥ g.capacity then none
  else match g.nodes[leafToNode g.capacity leaf]? with
    | some (.leaf lp) => some lp.identity
    | _ => none

/-- `first_blank_leaf`. -/
def firstBlankLeaf (g : Group β) : Option ℕ :=
  (List.range g.capacity).find? fun leaf => !g.isMember leaf

/-- The change an operation makes to a tree, before any path update. -/
def splice (nodes : List (TreeNode β)) (capacity : ℕ) : GroupOp β → Result (List (TreeNode β))
  | .add leafIndex keyPackage =>
    if leafIndex ≥ capacity then .err (.malformed "add targets a non-blank or out-of-range leaf")
    else match nodes[leafToNode capacity leafIndex]? with
      | some .blank => .ok (nodes.set (leafToNode capacity leafIndex) (.leaf keyPackage))
      | some _ => .err (.malformed "add targets a non-blank or out-of-range leaf")
      | none => .error .panic
  | .remove leaf =>
    if leaf ≥ capacity then .err (.malformed "remove targets an out-of-range leaf")
    else match nodes[leafToNode capacity leaf]? with
      | some .blank => .err .notAGroupMember
      | some _ => .ok ((directPath capacity leaf).foldl (fun nodes ancestor =>
          nodes.set ancestor .blank) (nodes.set (leafToNode capacity leaf) .blank))
      | none => .error .panic
  | .update => .ok nodes

/-- `spliced`. -/
def spliced (g : Group β) (op : GroupOp β) : Result (List (TreeNode β)) :=
  splice g.nodes g.capacity op

/-- The post-commit tree: the path update over the spliced one. -/
def setPath (nodes : List (TreeNode β)) (path : List ℕ) (pathNodes : List (UpdatePathNode β)) :
    List (TreeNode β) :=
  (path.zip pathNodes).foldl (fun nodes dn => nodes.set dn.1 (.parent dn.2.publicKey)) nodes

/-- `known_secrets` after the new entries are inserted. -/
def insertKnown (known : ℕ → Option β) (new : List (ℕ × β)) (n : ℕ) : Option β :=
  (new.lookup n).or (known n)

variable [Crypto β]

/-- The snapshot `propose_add` takes. -/
def snapshot (g : Group β) (targetLeaf : ℕ) : WelcomeSnapshot β :=
  ⟨g.groupId, g.capacity, g.epoch, g.epochSecret, g.transcriptHash, g.nodes, targetLeaf⟩

/-- `create`, with the two leaf secrets, the group id and the initial secret it draws. -/
def create (myIdentity : β) (capacity : ℕ) (dhSecret kemSecret groupId init : β) :
    Result (Group β) :=
  if !capacityValid capacity then
    .err (.malformed "group capacity must be a power of two of at least 2")
  else if capacity > maxCapacity then
    .err (.malformed "group capacity exceeds this implementation's sanity bound")
  else
    let kp := MyLeafKeyPackage.generate myIdentity dhSecret kemSecret
    let epochSecret := initialEpochSecret init groupId
    let applicationSecret := deriveApplicationSecret epochSecret
    .ok {
      groupId := groupId
      capacity := capacity
      nodes := (List.replicate (2 * capacity - 1) .blank).set (leafToNode capacity 0)
        (.leaf kp.public)
      epoch := 0
      epochSecret := epochSecret
      applicationSecret := applicationSecret
      transcriptHash := genesisTranscriptHash groupId
      myLeaf := 0
      myLeafKeys := some (kp.dhSecret, kp.kemSecret)
      knownSecrets := fun _ => none
      sendSeq := 0
      sendChain := deriveSenderChain applicationSecret 0
      recvChains := fun _ => none }

/-- `apply`: install the post-commit tree, mix the commit secret into a fresh epoch, reset the
sender chains. -/
def apply (g : Group β) (preCommitNodes : List (TreeNode β)) (path : List ℕ)
    (pathNodes : List (UpdatePathNode β)) (commitSecret signedCommitBytes : β) :
    Result (Group β) := do
  let transcriptHash := nextTranscriptHash g.transcriptHash signedCommitBytes
  let epochSecret := nextEpochSecret g.epochSecret commitSecret transcriptHash
  let applicationSecret := deriveApplicationSecret epochSecret
  let epoch ← Result.expect (checkedAdd64 g.epoch 1)
  pure { g with
    nodes := setPath preCommitNodes path pathNodes
    transcriptHash := transcriptHash
    epochSecret := epochSecret
    applicationSecret := applicationSecret
    epoch := epoch
    sendChain := deriveSenderChain applicationSecret g.myLeaf
    sendSeq := 0
    recvChains := fun _ => none }

/-- The ciphertexts of one path node, one for each node of the sibling's resolution. -/
def sealTargets (coins : ℕ → SealCoins β) (nodes : List (TreeNode β)) (secret : β)
    (targets : List ℕ) : Result (List (SealedToNode β)) :=
  targets.mapM fun t => do
    let pk ← Result.expect (nodePublicKey nodes t)
    sealToNode (coins t) pk pathSecretAadContext secret

/-- The loop of `commit` over the direct path: the path update and the secrets behind it. -/
def commitPath (coins : ℕ → ℕ → SealCoins β) (nodes : List (TreeNode β)) (capacity : ℕ) :
    ℕ → β → List ℕ → Result (List (UpdatePathNode β) × List (ℕ × β))
  | _, _, [] => .ok ([], [])
  | prev, secret, d :: path => do
    let target ← Result.expect (sibling prev)
    let targets ← Result.expect (resolution nodes capacity target)
    let ciphertexts ← sealTargets (coins d) nodes secret targets
    let (pathNodes, newKnown) ← commitPath coins nodes capacity d (pathStep secret) path
    pure (⟨(deriveNodeKeypair secret).public, ciphertexts⟩ :: pathNodes, (d, secret) :: newKnown)

/-- `commit`. -/
def commit (g : Group β) (signer : β) (coins : CommitCoins β) (op : GroupOp β) :
    Result (Group β × Commit β) := do
  let preCommitNodes ← g.spliced op
  let path := directPath g.capacity g.myLeaf
  let (pathNodes, newKnown) ← commitPath coins.sealCoins preCommitNodes g.capacity
    (leafToNode g.capacity g.myLeaf) coins.pathSecret path
  let last ← Result.expect path.getLast?
  let commitSecret ← Result.expect (newKnown.lookup last)
  let signed := commitSignedBytes g.groupId g.epoch g.myLeaf op pathNodes
  let g' ← g.apply preCommitNodes path pathNodes commitSecret signed
  pure ({ g' with knownSecrets := insertKnown g'.knownSecrets newKnown },
    { groupId := g'.groupId, fromEpoch := g'.epoch - 1, senderLeaf := g'.myLeaf, op := op,
      path := pathNodes, signature := sign signer signed })

/-- `propose_add`. -/
def proposeAdd (g : Group β) (signer : β) (coins : CommitCoins β)
    (newMember : LeafKeyPackage β) : Result (Group β × Commit β × Welcome β) :=
  match g.firstBlankLeaf with
  | none => .err .groupFull
  | some targetLeaf => do
    let snapshotBytes := (g.snapshot targetLeaf).write
    let signature := sign signer (welcomeSignedBytes snapshotBytes)
    let sealedSnapshot ← sealToNode coins.welcome newMember.publicKey welcomeAadContext
      (frame [snapshotBytes, signature])
    let (g', c) ← g.commit signer coins (.add targetLeaf newMember)
    pure (g', c, ⟨sealedSnapshot⟩)

/-- `propose_remove`. -/
def proposeRemove (g : Group β) (signer : β) (coins : CommitCoins β) (leafIndex : ℕ) :
    Result (Group β × Commit β) :=
  if !g.isMember leafIndex then .err .notAGroupMember
  else g.commit signer coins (.remove leafIndex)

/-- `propose_update`. -/
def proposeUpdate (g : Group β) (signer : β) (coins : CommitCoins β) :
    Result (Group β × Commit β) := g.commit signer coins .update

/-- The secret keys `find_and_decrypt` tries at a target: the leaf keys at the own leaf, the key
pair of a known secret elsewhere. -/
def keysFor (g : Group β) (t : ℕ) : Option (β × β) :=
  if t = leafToNode g.capacity g.myLeaf then g.myLeafKeys
  else (g.knownSecrets t).map fun known =>
    ((deriveNodeKeypair known).dhSecret, (deriveNodeKeypair known).kemSecret)

/-- The first ciphertext of one level that one of the keys held at a target opens. -/
def openAny (g : Group β) (targets : List ℕ) (ciphertexts : List (SealedToNode β)) : Option β :=
  targets.findSome? fun t =>
    (g.keysFor t).bind fun keys =>
      ciphertexts.findSome? fun ct =>
        (openFromNode keys.1 keys.2 pathSecretAadContext ct).toOption

/-- `find_and_decrypt`, from level `i` on: the level and the path secret decrypted there. -/
def findAndDecrypt (g : Group β) (preCommitNodes : List (TreeNode β)) :
    ℕ → ℕ → List ℕ → List (UpdatePathNode β) → Result (ℕ × β)
  | i, prev, d :: path, node :: commitPath => do
    let target ← Result.expect (sibling prev)
    let targets ← Result.expect (resolution preCommitNodes g.capacity target)
    match g.openAny targets node.ciphertexts with
    | some secret =>
      if len32 secret then pure (i, secret)
      else .err (.malformed "decrypted path secret has the wrong length")
    | none => findAndDecrypt g preCommitNodes (i + 1) d path commitPath
  | _, _, _, _ => .err .commitNotDecryptable

variable [DecidableEq β]

/-- The loop of `apply_commit` that re-derives every key pair from the decrypted level up. -/
def verifyPath : List ℕ → List (UpdatePathNode β) → β → Result (List (ℕ × β))
  | [], _, _ => .ok []
  | _ :: _, [], _ => .error .panic
  | d :: path, node :: commitPath, secret =>
    if (deriveNodeKeypair secret).public ≠ node.publicKey then .err .pathKeyMismatch
    else do
      let newKnown ← verifyPath path commitPath (pathStep secret)
      pure ((d, secret) :: newKnown)

/-- `apply_commit`. -/
def applyCommit (g : Group β) (c : Commit β) : Result (Group β) :=
  if c.groupId ≠ g.groupId then .err (.malformed "commit is for a different group")
  else if c.fromEpoch ≠ g.epoch then .err .wrongState
  else match g.memberIdentity c.senderLeaf with
    | none => .err .notAGroupMember
    | some senderIdentity =>
      let signed := commitSignedBytes c.groupId c.fromEpoch c.senderLeaf c.op c.path
      if !verify senderIdentity signed c.signature then .err .badSignature
      else do
        let preCommitNodes ← g.spliced c.op
        let path := directPath g.capacity c.senderLeaf
        if path.length ≠ c.path.length then
          .err (.malformed "commit path length does not match tree depth")
        else do
          let (foundLevel, secret) ← g.findAndDecrypt preCommitNodes 0
            (leafToNode g.capacity c.senderLeaf) path c.path
          let newKnown ← verifyPath (path.drop foundLevel) (c.path.drop foundLevel) secret
          let last ← Result.expect path.getLast?
          let commitSecret ← Result.expect (newKnown.lookup last)
          let g' ← g.apply preCommitNodes path c.path commitSecret signed
          pure { g' with knownSecrets := insertKnown g'.knownSecrets newKnown }

/-- `join`'s match on the commit's operation. -/
def addsMember (kp : MyLeafKeyPackage β) (targetLeaf : ℕ) : GroupOp β → Bool
  | .add leafIndex keyPackage =>
    decide (leafIndex = targetLeaf) && decide (keyPackage.publicKey = kp.publicKey) &&
      decide (keyPackage.identity = kp.identity)
  | _ => false

omit [DecidableEq β] in
/-- The group `join` builds from a snapshot, before it applies the commit. -/
def ofSnapshot (kp : MyLeafKeyPackage β) (s : WelcomeSnapshot β) : Group β where
  groupId := s.groupId
  capacity := s.capacity
  nodes := s.nodes
  epoch := s.epoch
  epochSecret := s.epochSecret
  applicationSecret := deriveApplicationSecret s.epochSecret
  transcriptHash := s.transcriptHash
  myLeaf := s.targetLeaf
  myLeafKeys := some (kp.dhSecret, kp.kemSecret)
  knownSecrets := fun _ => none
  sendSeq := 0
  sendChain := num 0
  recvChains := fun _ => none

/-- `join`. -/
def join (kp : MyLeafKeyPackage β) (welcome : Welcome β) (c : Commit β) : Result (Group β) := do
  let plaintext ← openFromNode kp.dhSecret kp.kemSecret welcomeAadContext welcome.sealedSnapshot
  match unframe plaintext with
  | some [snapshotBytes, snapshotSignature] => do
    let s ← WelcomeSnapshot.read snapshotBytes
    if c.groupId ≠ s.groupId then
      .err (.malformed "welcome and its commit are for different groups")
    else if c.fromEpoch ≠ s.epoch then .err .wrongState
    else if !addsMember kp s.targetLeaf c.op then
      .err (.malformed "commit does not add this member at the welcome's target leaf")
    else match (ofSnapshot kp s).memberIdentity c.senderLeaf with
      | none => .err .notAGroupMember
      | some committerIdentity =>
        if !verify committerIdentity (welcomeSignedBytes snapshotBytes) snapshotSignature then
          .err .badSignature
        else (ofSnapshot kp s).applyCommit c
  | _ => .err (.malformed "trailing bytes in welcome")

omit [DecidableEq β]

/-- `app_header`. -/
def appHeader (epoch senderLeaf seq : ℕ) : β := frame [num epoch, num senderLeaf, num seq]

/-- `seal`. -/
def sealRecord (g : Group β) (plaintext : β) : Result (Group β × β) :=
  let header := appHeader g.epoch g.myLeaf g.sendSeq
  match checkedAdd64 g.sendSeq 1 with
  | none => .err .sequenceExhausted
  | some sendSeq =>
    .ok ({ g with sendSeq := sendSeq, sendChain := (advance g.sendChain).1 },
      frame [header, aeadSeal (advance g.sendChain).2 header plaintext])

/-- The header and ciphertext of a record, with the header's three numbers. -/
def readRecord (record : β) : Option (ℕ × ℕ × ℕ × β × β) :=
  match unframe record with
  | some [header, ciphertext] =>
    match unframe header with
    | some [epoch, senderLeaf, seq] => do
      some (← unnum epoch, ← unnum senderLeaf, ← unnum seq, header, ciphertext)
    | _ => none
  | _ => none

/-- The rest of `open`, with the sender's receive chain `entry` in place. -/
def openNext (g : Group β) (entry : β × ℕ) (senderLeaf seq : ℕ) (header ciphertext : β) :
    Group β × Result (ℕ × β) :=
  if seq ≠ entry.2 then (g, .err .replay)
  else match aeadSealOpen (advance entry.1).2 header ciphertext with
    | .error e => (g, .error e)
    | .ok plaintext =>
      match checkedAdd64 entry.2 1 with
      | none => (g, .error .panic)
      | some next =>
        ({ g with recvChains :=
            Function.update g.recvChains senderLeaf (some ((advance entry.1).1, next)) },
          .ok (senderLeaf, plaintext))

/-- The receive chain of a sender, derived on first use. -/
def recvChain (g : Group β) (senderLeaf : ℕ) : β × ℕ :=
  (g.recvChains senderLeaf).getD (deriveSenderChain g.applicationSecret senderLeaf, 0)

/-- `open`: the receive chain of the sender is set up on first use, also when the record turns
out bad. -/
def openRecord (g : Group β) (record : β) : Group β × Result (ℕ × β) :=
  match readRecord record with
  | none => (g, .err (.malformed "group record shorter than its header"))
  | some (epoch, senderLeaf, seq, header, ciphertext) =>
    if epoch ≠ g.epoch then (g, .err .unknownEpoch)
    else if senderLeaf = g.myLeaf then
      (g, .err (.malformed "received a record from our own sender leaf"))
    else if !g.isMember senderLeaf then (g, .err .notAGroupMember)
    else
      { g with recvChains :=
          Function.update g.recvChains senderLeaf (some (g.recvChain senderLeaf)) }.openNext
        (g.recvChain senderLeaf) senderLeaf seq header ciphertext

end Definitions

end Group

end NovaChannel
