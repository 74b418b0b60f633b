import NovaChannel.Group.Tree

/-!
# Commits and welcomes

The messages of a group: a `Commit` is one structural change with the committer's fresh
path, signed; a `Welcome` carries the signed `WelcomeSnapshot` of the group before that
commit, sealed to the new member.

* `WelcomeSnapshot.read` checks what the source checks before the snapshot drives a
  subtraction or an allocation;
* `WelcomeSnapshot.read_write`: a snapshot of a well-formed tree survives its encoding.
-/

namespace NovaChannel

namespace Group

open Crypto

/-- `MAX_CAPACITY`. -/
def maxCapacity : ℕ := 2 ^ 20

/-- A structural change of the group. -/
inductive GroupOp (β : Type)
  | add (leafIndex : ℕ) (keyPackage : LeafKeyPackage β)
  | remove (leafIndex : ℕ)
  | update
  deriving DecidableEq

/-- One level of a path update. -/
structure UpdatePathNode (β : Type) where
  publicKey : NodePublicKey β
  ciphertexts : List (SealedToNode β)
  deriving DecidableEq

/-- One committed group change. -/
structure Commit (β : Type) where
  groupId : β
  fromEpoch : ℕ
  senderLeaf : ℕ
  op : GroupOp β
  path : List (UpdatePathNode β)
  signature : β
  deriving DecidableEq

/-- What a new member is sent beside the commit that adds it. -/
structure Welcome (β : Type) where
  sealedSnapshot : SealedToNode β
  deriving DecidableEq

/-- The group as it stood before the commit that adds `targetLeaf`. -/
structure WelcomeSnapshot (β : Type) where
  groupId : β
  capacity : ℕ
  epoch : ℕ
  epochSecret : β
  transcriptHash : β
  nodes : List (TreeNode β)
  targetLeaf : ℕ

section Definitions

variable {β : Type} [Crypto β]

/-- `GroupOp::write`. -/
def GroupOp.write : GroupOp β → β
  | .add leafIndex keyPackage => frame [num 0, num leafIndex, keyPackage.write]
  | .remove leafIndex => frame [num 1, num leafIndex]
  | .update => frame [num 2]

/-- `UpdatePathNode::write`. -/
def UpdatePathNode.write (n : UpdatePathNode β) : β :=
  frame (n.publicKey.write :: num n.ciphertexts.length :: n.ciphertexts.map SealedToNode.write)

/-- `commit_signed_bytes`. -/
def commitSignedBytes (groupId : β) (fromEpoch senderLeaf : ℕ) (op : GroupOp β)
    (path : List (UpdatePathNode β)) : β :=
  frame (commitSignatureContext :: groupId :: num fromEpoch :: num senderLeaf :: op.write ::
    num path.length :: path.map UpdatePathNode.write)

/-- `welcome_signed_bytes`. -/
def welcomeSignedBytes (snapshotBytes : β) : β := frame [welcomeSignatureContext, snapshotBytes]

/-- `Commit::write`. -/
def Commit.write (c : Commit β) : β :=
  frame [commitSignedBytes c.groupId c.fromEpoch c.senderLeaf c.op c.path, c.signature]

/-- `Welcome::to_bytes`. -/
def Welcome.write (w : Welcome β) : β := w.sealedSnapshot.write

/-- One slot of a snapshot. -/
def TreeNode.write : TreeNode β → β
  | .blank => frame [num 0]
  | .leaf lp => frame [num 1, lp.write]
  | .parent pk => frame [num 2, pk.write]

/-- One slot of a snapshot, read back. -/
def TreeNode.read (bytes : β) : Result (TreeNode β) :=
  match unframe bytes with
  | some (tag :: rest) =>
    match unnum tag, rest with
    | some 0, [] => .ok .blank
    | some 1, [lp] => do return .leaf (← LeafKeyPackage.read lp)
    | some 2, [pk] => do return .parent (← NodePublicKey.read pk)
    | _, _ => .err (.malformed "unknown tree node tag in welcome snapshot")
  | _ => .err (.malformed "unexpected end of message")

/-- The loop over `node_count` slots; it returns what is left to read. -/
def readNodes : ℕ → List β → Result (List (TreeNode β) × List β)
  | 0, rest => .ok ([], rest)
  | _ + 1, [] => .err (.malformed "unexpected end of message")
  | count + 1, bytes :: rest => do
    let node ← TreeNode.read bytes
    let (nodes, rest) ← readNodes count rest
    pure (node :: nodes, rest)

/-- `WelcomeSnapshot::write`. -/
def WelcomeSnapshot.write (s : WelcomeSnapshot β) : β :=
  frame (s.groupId :: num s.capacity :: num s.epoch :: s.epochSecret :: s.transcriptHash ::
    num s.targetLeaf :: s.nodes.map TreeNode.write)

/-- `capacity >= 2 && capacity.is_power_of_two()`. -/
def capacityValid (capacity : ℕ) : Bool :=
  decide (2 ≤ capacity) && decide (2 ^ Nat.log2 capacity = capacity)

/-- `WelcomeSnapshot::read`, with the reader's check that nothing trails. -/
def WelcomeSnapshot.read (bytes : β) : Result (WelcomeSnapshot β) :=
  match unframe bytes with
  | some (groupId :: capacity :: epoch :: epochSecret :: transcriptHash :: targetLeaf :: rest) =>
    match unnum capacity, unnum epoch, unnum targetLeaf with
    | some capacity, some epoch, some targetLeaf =>
      if !capacityValid capacity then
        .err (.malformed "welcome snapshot capacity must be a power of two of at least 2")
      else if capacity > maxCapacity then
        .err (.malformed "welcome snapshot capacity exceeds this implementation's sanity bound")
      else if targetLeaf ≥ capacity then
        .err (.malformed "welcome snapshot target leaf is not within its own capacity")
      else do
        let (nodes, rest) ← readNodes (2 * capacity - 1) rest
        if rest.isEmpty then
          pure ⟨groupId, capacity, epoch, epochSecret, transcriptHash, nodes, targetLeaf⟩
        else .err (.malformed "trailing bytes in welcome snapshot")
    | _, _, _ => .err (.malformed "unexpected end of message")
  | _ => .err (.malformed "unexpected end of message")

end Definitions

/-! ### Round trips -/

section Lemmas

variable {β : Type} [Crypto β]

/-- Every key package in the slot has a valid proof of possession. -/
def TreeNode.PopValid : TreeNode β → Prop
  | .leaf lp => lp.popValid = true
  | _ => True

variable [LawfulCrypto β]

theorem TreeNode.read_write {n : TreeNode β} (h : n.PopValid) : TreeNode.read n.write = .ok n := by
  cases n with
  | blank =>
    simp only [TreeNode.read, TreeNode.write, LawfulCrypto.unframe_frame,
      LawfulCrypto.unnum_num (β := β) (n := 0) (by omega)]
  | leaf lp =>
    simp only [TreeNode.read, TreeNode.write, LawfulCrypto.unframe_frame,
      LawfulCrypto.unnum_num (β := β) (n := 1) (by omega), LeafKeyPackage.read_write h,
      Result.ok_bind, Result.pure_eq_ok]
  | parent pk =>
    simp only [TreeNode.read, TreeNode.write, LawfulCrypto.unframe_frame,
      LawfulCrypto.unnum_num (β := β) (n := 2) (by omega), NodePublicKey.read_write,
      Result.ok_bind, Result.pure_eq_ok]

theorem readNodes_write {nodes : List (TreeNode β)} (h : ∀ n ∈ nodes, n.PopValid) :
    readNodes nodes.length (nodes.map TreeNode.write) = .ok (nodes, []) := by
  induction nodes with
  | nil => rfl
  | cons n nodes ih =>
    simp only [List.length_cons, List.map_cons, readNodes,
      TreeNode.read_write (h n List.mem_cons_self),
      ih fun m hm => h m (List.mem_cons_of_mem _ hm), Result.ok_bind, Result.pure_eq_ok]

/-- A snapshot of a well-formed tree is read back as it was written. -/
theorem WelcomeSnapshot.read_write {s : WelcomeSnapshot β} (hcap : capacityValid s.capacity = true)
    (hmax : s.capacity ≤ maxCapacity) (hlen : s.nodes.length = 2 * s.capacity - 1)
    (hepoch : s.epoch < 2 ^ 64) (htarget : s.targetLeaf < s.capacity)
    (hpop : ∀ n ∈ s.nodes, n.PopValid) : WelcomeSnapshot.read s.write = .ok s := by
  have hcap64 : s.capacity < 2 ^ 64 := by unfold maxCapacity at hmax; omega
  have hnodes := readNodes_write hpop
  rw [hlen] at hnodes
  simp only [WelcomeSnapshot.read, WelcomeSnapshot.write, LawfulCrypto.unframe_frame,
    LawfulCrypto.unnum_num hcap64, LawfulCrypto.unnum_num hepoch,
    LawfulCrypto.unnum_num (lt_trans htarget hcap64), hcap, Bool.not_true, Bool.false_eq_true,
    ↓reduceIte, Nat.not_lt.2 hmax, Nat.not_le.2 htarget, hnodes,
    Result.ok_bind, List.isEmpty_nil, Result.pure_eq_ok]

end Lemmas

end Group

end NovaChannel
