import NovaChannel.Group.Process

/-!
# Panics in `join` and `apply_commit`

Both calls are handed attacker-made input: a welcome and a commit whose tree, leaf indices,
epochs, paths and ciphertexts are chosen by whoever sent them.

* `applyCommit_eq_panic_iff` : every index and every `expect` of `apply_commit` is covered by a
  check; only the addition at its end is not, and it overflows for a commit that passes all
  checks in the last epoch;
* `join_eq_panic_iff` : a welcome can name that epoch itself.
-/

namespace NovaChannel

namespace Group

open Crypto

/-! ### Computations that do not panic -/

/-- The computation returns `Ok` or `Err`. -/
def NoPanic {α : Type} (x : Result α) : Prop := x ≠ .error .panic

namespace NoPanic

variable {α γ : Type}

theorem ok (a : α) : NoPanic (.ok a : Result α) := fun h => by cases h

theorem err (e : Error) : NoPanic (.err e : Result α) := fun h => by cases h

theorem bind {x : Result α} {f : α → Result γ} (hx : NoPanic x)
    (hf : ∀ a, x = .ok a → NoPanic (f a)) : NoPanic (x >>= f) := by
  cases x with
  | error e => exact fun h => hx (by rw [Except.error.inj h])
  | ok a => exact hf a rfl

theorem expect {o : Option α} (h : o.isSome = true) : NoPanic (Result.expect o) := by
  obtain ⟨a, rfl⟩ := Option.isSome_iff_exists.1 h
  exact ok a

end NoPanic

/-- A sequence panics exactly where its first part does, or its second. -/
theorem bind_eq_panic_iff {α γ : Type} {x : Result α} {f : α → Result γ} (hx : NoPanic x) :
    (x >>= f) = .error .panic ↔ ∃ a, x = .ok a ∧ f a = .error .panic := by
  cases x with
  | error e =>
    refine ⟨fun h => absurd (Except.error.inj h) fun he => hx (he ▸ rfl), ?_⟩
    rintro ⟨a, ha, -⟩
    cases ha
  | ok a => simp

/-! ### `apply_commit` -/

section ApplyCommit

variable {β : Type} [Crypto β] {g : Group β} {pre : List (TreeNode β)}

omit [Crypto β] in
/-- A spliced leaf is in range once the checks have passed. -/
theorem noPanic_splice {nodes : List (TreeNode β)} {capacity : ℕ}
    (hlen : nodes.length = 2 * capacity - 1) (op : GroupOp β) :
    NoPanic (splice nodes capacity op) := by
  have hsome : ∀ leaf, leaf < capacity → nodes[leafToNode capacity leaf]? ≠ none := by
    intro leaf hleaf hnone
    rw [List.getElem?_eq_none_iff, leafToNode] at hnone
    omega
  cases op with
  | add leaf lp =>
    simp only [splice]
    split_ifs with hl
    · exact .err _
    split
    · exact .ok _
    · exact .err _
    · rename_i hnone
      exact absurd hnone (hsome leaf (Nat.not_le.1 hl))
  | remove leaf =>
    simp only [splice]
    split_ifs with hl
    · exact .err _
    split
    · exact .err _
    · exact .ok _
    · rename_i hnone
      exact absurd hnone (hsome leaf (Nat.not_le.1 hl))
  | update => exact .ok _

/-- The siblings along a path and their resolutions are nodes of the tree. -/
theorem noPanic_findAndDecrypt (hlen : pre.length = 2 * g.capacity - 1) {prev : ℕ}
    {path : List ℕ} (hp : IsPath prev path) (hprev : prev < 2 * g.capacity - 1) (i : ℕ)
    (pathNodes : List (UpdatePathNode β)) :
    NoPanic (g.findAndDecrypt pre i prev path pathNodes) := by
  induction hp generalizing i pathNodes with
  | root => simp [findAndDecrypt, NoPanic]
  | @step prev path hn hp ih =>
    cases pathNodes with
    | nil => simp [findAndDecrypt, NoPanic]
    | cons node pathNodes =>
      obtain ⟨s, hs, -, hparent, hle, -, -⟩ := sibling_spec hn
      have hs' : s < pre.length := by
        rw [hlen]
        omega
      obtain ⟨targets, ht⟩ := resolution_isSome hlen hs'
      simp only [findAndDecrypt, hs, ht, Result.expect_some, Result.ok_bind]
      split
      · split_ifs
        · exact .ok _
        · exact .err _
      · exact ih (by omega) (i + 1) pathNodes

/-- The level found is a level of the path. -/
theorem lt_of_findAndDecrypt {path : List ℕ} {i prev level : ℕ}
    {pathNodes : List (UpdatePathNode β)} {secret : β}
    (h : g.findAndDecrypt pre i prev path pathNodes = .ok (level, secret)) :
    level < i + path.length := by
  induction path generalizing i prev pathNodes with
  | nil => simp [findAndDecrypt] at h
  | cons d path ih =>
    cases pathNodes with
    | nil => simp [findAndDecrypt] at h
    | cons node pathNodes =>
      simp only [findAndDecrypt] at h
      obtain ⟨s, -, h⟩ := Result.bind_eq_ok.1 h
      obtain ⟨targets, -, h⟩ := Result.bind_eq_ok.1 h
      split at h
      · split_ifs at h
        obtain rfl := (Prod.mk.inj (Except.ok.inj h)).1
        simp
      · have := ih h
        rw [List.length_cons]
        omega

variable [DecidableEq β]

theorem noPanic_verifyPath {path : List ℕ} {pathNodes : List (UpdatePathNode β)}
    (hlen : path.length ≤ pathNodes.length) (secret : β) :
    NoPanic (verifyPath path pathNodes secret) := by
  induction path generalizing pathNodes secret with
  | nil => exact .ok _
  | cons d path ih =>
    cases pathNodes with
    | nil => simp at hlen
    | cons node pathNodes =>
      unfold verifyPath
      split_ifs
      · exact .err _
      · exact (ih (by simpa using hlen) _).bind fun _ _ => .ok _

/-- The commit passes every check of `apply_commit`. -/
def Passes (g : Group β) (c : Commit β) : Prop :=
  c.groupId = g.groupId ∧ c.fromEpoch = g.epoch ∧
    ∃ identity pre level secret known, g.memberIdentity c.senderLeaf = some identity ∧
      verify identity c.signedBytes c.signature = true ∧ g.spliced c.op = .ok pre ∧
      (directPath g.capacity c.senderLeaf).length = c.path.length ∧
      g.findAndDecrypt pre 0 (leafToNode g.capacity c.senderLeaf)
        (directPath g.capacity c.senderLeaf) c.path = .ok (level, secret) ∧
      verifyPath ((directPath g.capacity c.senderLeaf).drop level) (c.path.drop level) secret =
        .ok known

omit [DecidableEq β] in
theorem apply_eq_panic_iff {path : List ℕ} {pathNodes : List (UpdatePathNode β)}
    {secret signed : β} :
    g.apply pre path pathNodes secret signed = .error .panic ↔ 2 ^ 64 ≤ g.epoch + 1 := by
  rw [Group.apply, checkedAdd64]
  split_ifs with h
  · exact ⟨fun he => (by cases he), fun hle => absurd h (Nat.not_lt.2 hle)⟩
  · exact ⟨fun _ => Nat.not_lt.1 h, fun _ => rfl⟩

omit [Crypto β] [DecidableEq β] in
theorem lt_of_memberIdentity {leaf : ℕ} {identity : β}
    (h : g.memberIdentity leaf = some identity) : leaf < g.capacity := by
  unfold memberIdentity at h
  split_ifs at h with hl
  exact Nat.not_le.1 hl

/-- The path secrets re-derived from a level of the path reach the root. -/
theorem exists_rootSecret (hcap : 2 ≤ g.capacity) {c : Commit β} {level : ℕ} {secret : β}
    {known : List (ℕ × β)}
    (hfind : g.findAndDecrypt pre 0 (leafToNode g.capacity c.senderLeaf)
      (directPath g.capacity c.senderLeaf) c.path = .ok (level, secret))
    (hknown : verifyPath ((directPath g.capacity c.senderLeaf).drop level) (c.path.drop level)
      secret = .ok known) : (known.lookup 0).isSome = true := by
  have hlevel := lt_of_findAndDecrypt hfind
  obtain ⟨rfl, -⟩ := verifyPath_eq_ok hknown
  have hlast := getLast?_directPath hcap c.senderLeaf
  rw [List.getLast?_eq_getElem?] at hlast
  have hroot : ((directPath g.capacity c.senderLeaf).drop level)[
      (directPath g.capacity c.senderLeaf).length - 1 - level]? = some 0 := by
    rw [List.getElem?_drop, ← hlast]
    congr 1
    omega
  rw [lookup_pathSecrets ((nodup_directPath _ _).sublist (List.drop_sublist _ _)) hroot]
  rfl

/-- A commit that passes all checks reaches the addition. -/
theorem Passes.applyCommit {c : Commit β} (h : g.Passes c) (hcap : 2 ≤ g.capacity) :
    ∃ pre secret known, g.applyCommit c =
      g.apply pre (directPath g.capacity c.senderLeaf) c.path secret c.signedBytes >>= fun g' =>
        pure { g' with knownSecrets := insertKnown g'.knownSecrets known } := by
  obtain ⟨hgid, hfrom, identity, pre, level, secret, known, hid, hverify, hpre, hlen, hfind,
    hknown⟩ := h
  obtain ⟨rootSecret, hroot⟩ := Option.isSome_iff_exists.1 (exists_rootSecret hcap hfind hknown)
  refine ⟨pre, rootSecret, known, ?_⟩
  rw [Commit.signedBytes] at hverify ⊢
  rw [Group.applyCommit, if_neg (not_not.2 hgid), if_neg (not_not.2 hfrom), hid]
  simp only [hverify, Bool.not_true, Bool.false_eq_true, ↓reduceIte, hpre, Result.ok_bind, hlen,
    ne_eq, not_true_eq_false, hfind, hknown, getLast?_directPath hcap, Result.expect_some, hroot]

/-- **Where `apply_commit` panics**: a commit that passes all its checks, in the last epoch. -/
theorem applyCommit_eq_panic_iff (hcap : 2 ≤ g.capacity)
    (hlen : g.nodes.length = 2 * g.capacity - 1) (c : Commit β) :
    g.applyCommit c = .error .panic ↔ g.Passes c ∧ 2 ^ 64 ≤ g.epoch + 1 := by
  constructor
  · intro h
    unfold Group.applyCommit at h
    split_ifs at h with hgid hfrom
    · exact absurd h (NoPanic.err _)
    · exact absurd h (NoPanic.err _)
    split at h
    · exact absurd h (NoPanic.err _)
    rename_i identity hid
    simp only at h
    split_ifs at h with hverify hpath
    · exact absurd h (NoPanic.err _)
    · exact absurd h ((noPanic_splice hlen c.op).bind fun _ _ => .err _)
    obtain ⟨pre, hpre, h⟩ := (bind_eq_panic_iff (noPanic_splice hlen c.op)).1 h
    have hprelen : pre.length = 2 * g.capacity - 1 := (length_splice hpre).trans hlen
    have hsender := lt_of_memberIdentity hid
    obtain ⟨⟨level, secret⟩, hfind, h⟩ := (bind_eq_panic_iff (noPanic_findAndDecrypt hprelen
      (isPath_directPath _ _) (by rw [leafToNode]; omega) 0 c.path)).1 h
    obtain ⟨known, hknown, h⟩ := (bind_eq_panic_iff (noPanic_verifyPath
      (by rw [List.length_drop, List.length_drop, not_not.1 hpath]) secret)).1 h
    have hpasses : g.Passes c := ⟨not_not.1 hgid, not_not.1 hfrom, identity, pre, level, secret,
      known, hid, by simpa [Commit.signedBytes] using hverify, hpre, not_not.1 hpath, hfind,
      hknown⟩
    obtain ⟨rootSecret, hroot⟩ := Option.isSome_iff_exists.1 (exists_rootSecret hcap hfind hknown)
    rw [getLast?_directPath hcap] at h
    simp only [Result.expect_some, Result.ok_bind, hroot] at h
    refine ⟨hpasses, ?_⟩
    by_contra hlt
    obtain ⟨g', hg'⟩ := apply_isOk (g := g) (Nat.not_le.1 hlt) pre
      (directPath g.capacity c.senderLeaf) c.path rootSecret
      (commitSignedBytes c.groupId c.fromEpoch c.senderLeaf c.op c.path)
    rw [hg'] at h
    cases h
  · rintro ⟨hpasses, hepoch⟩
    obtain ⟨pre, secret, known, heq⟩ := hpasses.applyCommit hcap
    rw [heq, apply_eq_panic_iff.2 hepoch]
    rfl

end ApplyCommit

/-! ### `join` -/

section Join

variable {β : Type} [Crypto β]

theorem noPanic_checkedDh (shared : β) : NoPanic (checkedDh shared) := by
  unfold checkedDh
  split_ifs
  · exact .ok _
  · exact .err _

theorem noPanic_openFromNode (dhSecret kemSecret aad : β) (sealed : SealedToNode β) :
    NoPanic (openFromNode dhSecret kemSecret aad sealed) := by
  refine (noPanic_checkedDh _).bind fun dh _ => ?_
  simp only [aeadSealOpen]
  split
  · exact .ok _
  · exact .err _

theorem noPanic_readNodePublicKey (bytes : β) : NoPanic (NodePublicKey.read bytes) := by
  unfold NodePublicKey.read
  split
  · exact .ok _
  · exact .err _

theorem noPanic_readLeafKeyPackage (bytes : β) : NoPanic (LeafKeyPackage.read bytes) := by
  unfold LeafKeyPackage.read
  split
  · refine (noPanic_readNodePublicKey _).bind fun publicKey _ => ?_
    simp only
    split_ifs
    · exact .ok _
    · exact .err _
  · exact .err _

theorem noPanic_readTreeNode (bytes : β) : NoPanic (TreeNode.read bytes) := by
  unfold TreeNode.read
  split
  · split
    · exact .ok _
    · exact (noPanic_readLeafKeyPackage _).bind fun _ _ => .ok _
    · exact (noPanic_readNodePublicKey _).bind fun _ _ => .ok _
    · exact .err _
  · exact .err _

theorem noPanic_readNodes (count : ℕ) (fields : List β) : NoPanic (readNodes count fields) := by
  induction count generalizing fields with
  | zero => exact .ok _
  | succ count ih =>
    cases fields with
    | nil => exact .err _
    | cons bytes fields =>
      exact (noPanic_readTreeNode bytes).bind fun _ _ => (ih fields).bind fun _ _ => .ok _

/-- The reader of a snapshot checks the capacity before it subtracts from it. -/
theorem noPanic_readSnapshot (bytes : β) : NoPanic (WelcomeSnapshot.read bytes) := by
  unfold WelcomeSnapshot.read
  split
  · split
    · split_ifs
      · exact .err _
      · exact .err _
      · exact .err _
      · refine (noPanic_readNodes _ _).bind fun p _ => ?_
        simp only
        split_ifs
        · exact .ok _
        · exact .err _
    · exact .err _
  · exact .err _

variable [DecidableEq β]

/-- The welcome opens to the snapshot `s`, and the checks of `join` on it pass. -/
def JoinsAt (kp : MyLeafKeyPackage β) (welcome : Welcome β) (c : Commit β)
    (s : WelcomeSnapshot β) : Prop :=
  ∃ plaintext snapshotBytes snapshotSignature identity,
    openFromNode kp.dhSecret kp.kemSecret welcomeAadContext welcome.sealedSnapshot =
      .ok plaintext ∧
    unframe plaintext = some [snapshotBytes, snapshotSignature] ∧
    WelcomeSnapshot.read snapshotBytes = .ok s ∧ c.groupId = s.groupId ∧
    c.fromEpoch = s.epoch ∧ addsMember kp s.targetLeaf c.op = true ∧
    (ofSnapshot kp s).memberIdentity c.senderLeaf = some identity ∧
    verify identity (welcomeSignedBytes snapshotBytes) snapshotSignature = true

/-- **Where `join` panics**: in `apply_commit`, for a snapshot of the last epoch. -/
theorem join_eq_panic_iff (kp : MyLeafKeyPackage β) (welcome : Welcome β) (c : Commit β) :
    Group.join kp welcome c = .error .panic ↔
      ∃ s, JoinsAt kp welcome c s ∧ (ofSnapshot kp s).Passes c ∧ 2 ^ 64 ≤ s.epoch + 1 := by
  constructor
  · intro h
    obtain ⟨plaintext, hopen, h⟩ := (bind_eq_panic_iff (noPanic_openFromNode _ _ _ _)).1 h
    split at h
    swap
    · exact absurd h (NoPanic.err _)
    rename_i snapshotBytes snapshotSignature hframe
    obtain ⟨s, hread, h⟩ := (bind_eq_panic_iff (noPanic_readSnapshot _)).1 h
    split_ifs at h with hgid hfrom hadds
    · exact absurd h (NoPanic.err _)
    · exact absurd h (NoPanic.err _)
    · exact absurd h (NoPanic.err _)
    split at h
    · exact absurd h (NoPanic.err _)
    rename_i identity hid
    split_ifs at h with hverify
    · exact absurd h (NoPanic.err _)
    obtain ⟨hcap, -, hlen, -, -⟩ := read_eq_ok hread
    obtain ⟨hpasses, hepoch⟩ := (applyCommit_eq_panic_iff (g := ofSnapshot kp s)
      (two_le_of_capacityValid hcap) hlen c).1 h
    exact ⟨s, ⟨plaintext, snapshotBytes, snapshotSignature, identity, hopen, hframe, hread,
      not_not.1 hgid, not_not.1 hfrom, by simpa using hadds, hid, by simpa using hverify⟩,
      hpasses, hepoch⟩
  · rintro ⟨s, ⟨plaintext, snapshotBytes, snapshotSignature, identity, hopen, hframe, hread, hgid,
      hfrom, hadds, hid, hverify⟩, hpasses, hepoch⟩
    obtain ⟨hcap, -, hlen, -, -⟩ := read_eq_ok hread
    have happly := (applyCommit_eq_panic_iff (g := ofSnapshot kp s)
      (two_le_of_capacityValid hcap) hlen c).2 ⟨hpasses, hepoch⟩
    simp only [Group.join, hopen, Result.ok_bind, hframe, hread, hgid, ne_eq, not_true_eq_false,
      ↓reduceIte, hfrom, hadds, Bool.not_true, Bool.false_eq_true, hid, hverify, happly]

/-- **Panic freedom but for the epoch counter**: whatever a process was handed, `apply_commit` on
one of its groups and `join` with any key package return `Ok` or `Err`, unless a commit passes all
their checks in the last epoch. -/
theorem panicFree_iff {ok : Process β → Call β → Prop} {w : Process β}
    (hw : (processMachine β).Reachable ok w) :
    (∀ i g, w.groups i = some g → ∀ c,
      g.applyCommit c ≠ .error .panic ↔ ¬ (g.Passes c ∧ g.epoch + 1 = 2 ^ 64)) ∧
    ∀ (kp : MyLeafKeyPackage β) welcome c, Group.join kp welcome c ≠ .error .panic ↔
      ¬ ∃ s, JoinsAt kp welcome c s ∧ (ofSnapshot kp s).Passes c ∧ 2 ^ 64 ≤ s.epoch + 1 := by
  refine ⟨fun i g hg c => ?_, fun kp welcome c => (join_eq_panic_iff kp welcome c).not⟩
  have hs := sound_of_reachable hw hg
  have hepoch : 2 ^ 64 ≤ g.epoch + 1 ↔ g.epoch + 1 = 2 ^ 64 := by
    have := hs.epoch
    omega
  rw [← hepoch]
  exact (applyCommit_eq_panic_iff hs.two_le hs.length c).not

end Join

/-! ### A forged welcome -/

/-- The last epoch. -/
def lastEpoch : ℕ := 2 ^ 64 - 1

/-- A tree of two leaves with a stranger at leaf 0, in the last epoch. -/
def forgedSnapshot : WelcomeSnapshot Bytes where
  groupId := .name .groupId
  capacity := 2
  epoch := lastEpoch
  epochSecret := .name .init
  transcriptHash := .name .init
  nodes := [.blank, .leaf (package 9 9).public, .blank]
  targetLeaf := 1

/-- The stranger adds key package 1 to it. -/
def forgedOp : GroupOp Bytes := .add 1 (package 1 1).public

/-- The welcome and the commit a stranger makes for key package 1. -/
def forged : Result (Welcome Bytes × Commit Bytes) := do
  let bytes := forgedSnapshot.write
  let sealedSnapshot ← sealToNode (coinsOf 0).welcome (package 1 1).publicKey welcomeAadContext
    (frame [bytes, sign (.name (.identity 9)) (welcomeSignedBytes bytes)])
  let nodes ← splice forgedSnapshot.nodes 2 forgedOp
  let (path, _) ← commitPath (coinsOf 0).sealCoins nodes 2 (leafToNode 2 0) (coinsOf 0).pathSecret
    (directPath 2 0)
  let signed := commitSignedBytes forgedSnapshot.groupId lastEpoch 0 forgedOp path
  pure (⟨sealedSnapshot⟩, { groupId := forgedSnapshot.groupId, fromEpoch := lastEpoch,
                            senderLeaf := 0, op := forgedOp, path := path,
                            signature := sign (.name (.identity 9)) signed })

/-- `join` panics on the stranger's messages. -/
def forgedPanics : Bool :=
  match forged with
  | .ok (welcome, c) =>
    match Group.join (package 1 1) welcome c with
    | .error .panic => true
    | _ => false
  | .error _ => false

theorem exists_forged : ∃ welcome c, forged = .ok (welcome, c) ∧
    Group.join (package 1 1) welcome c = .error .panic := by
  have h : forgedPanics = true := by decide +kernel
  unfold forgedPanics at h
  split at h
  · rename_i welcome c hforged
    split at h
    · rename_i hjoin
      exact ⟨welcome, c, hforged, hjoin⟩
    · cases h
  · cases h

/-- The messages a stranger makes put `join` into the panicking case. -/
theorem panicFree_iff_forged : ∃ welcome c, forged = .ok (welcome, c) ∧
    ∃ s, JoinsAt (package 1 1) welcome c s ∧ (ofSnapshot (package 1 1) s).Passes c ∧
      2 ^ 64 ≤ s.epoch + 1 := by
  obtain ⟨welcome, c, hforged, hjoin⟩ := exists_forged
  have hw : (processMachine Bytes).Reachable Anything .empty := .init rfl
  have hiff := (panicFree_iff hw).2 (package 1 1) welcome c
  refine ⟨welcome, c, hforged, ?_⟩
  by_contra hnone
  exact hiff.2 hnone hjoin

/-- `join` and `apply_commit` are not panic-free. -/
theorem not_panicFree_forged : ¬ ((∀ w, (processMachine Bytes).Reachable Anything w → ∀ i g,
    w.groups i = some g → ∀ c, g.applyCommit c ≠ .error .panic) ∧
      ∀ (kp : MyLeafKeyPackage Bytes) welcome c, Group.join kp welcome c ≠ .error .panic) := by
  rintro ⟨-, hall⟩
  obtain ⟨welcome, c, -, hjoin⟩ := exists_forged
  exact hall _ welcome c hjoin

end Group

end NovaChannel
