import NovaChannel.Group.Process

/-!
# What an accepted invitation proves

A welcome reaches a new member without a sender, next to a commit that anyone may have put there.
`join` accepts the pair only under two signatures of one member of the snapshot's tree.

* `eq_of_signedBytes` : a signature on a commit pins down everything in it;
* `Process.Unforgeable` : the signatures the new member was shown under one identity are ones
  the owner of that identity made;
* `findAndDecrypt_commitPath` : whoever decrypts an honest path finds the secret sealed there;
* `join_authentic` : **who joins has been added by the committer**, and shares its epoch.
-/

namespace NovaChannel

namespace Group

open Crypto Term

/-! ### What a signature pins down -/

section Encodings

variable {β : Type} [Crypto β] [LawfulCrypto β]

theorem NodePublicKey.write_injective {pk pk' : NodePublicKey β} (h : pk.write = pk'.write) :
    pk = pk' := by
  have hread := NodePublicKey.read_write pk
  rw [h, NodePublicKey.read_write] at hread
  exact (Except.ok.inj hread).symm

theorem LeafKeyPackage.write_injective {lp lp' : LeafKeyPackage β} (h : lp.write = lp'.write) :
    lp = lp' := by
  obtain ⟨identity, publicKey, pop⟩ := lp
  obtain ⟨identity', publicKey', pop'⟩ := lp'
  simp only [LeafKeyPackage.write, frame_inj, List.cons.injEq, and_true] at h
  obtain ⟨rfl, hpk, rfl⟩ := h
  rw [NodePublicKey.write_injective hpk]

theorem SealedToNode.write_injective (s s' : SealedToNode β) (h : s.write = s'.write) :
    s = s' := by
  obtain ⟨eph, kemCt, ct⟩ := s
  obtain ⟨eph', kemCt', ct'⟩ := s'
  simpa [SealedToNode.write] using h

theorem UpdatePathNode.write_injective (n n' : UpdatePathNode β) (h : n.write = n'.write) :
    n = n' := by
  obtain ⟨pk, cts⟩ := n
  obtain ⟨pk', cts'⟩ := n'
  simp only [UpdatePathNode.write, frame_inj, List.cons.injEq] at h
  obtain ⟨hpk, -, hcts⟩ := h
  rw [NodePublicKey.write_injective hpk, (List.map_inj_right SealedToNode.write_injective).1 hcts]

/-- The encoding of an operation tells an addition apart. -/
theorem eq_add_of_write {leaf : ℕ} {lp : LeafKeyPackage β} {op : GroupOp β} (hleaf : leaf < 2 ^ 64)
    (hop : ∀ leaf' lp', op = .add leaf' lp' → leaf' < 2 ^ 64)
    (h : (GroupOp.add leaf lp).write = op.write) : op = .add leaf lp := by
  cases op with
  | add leaf' lp' =>
    simp only [GroupOp.write, frame_inj, List.cons.injEq, and_true, true_and] at h
    rw [num_inj hleaf (hop _ _ rfl) h.1, LeafKeyPackage.write_injective h.2]
  | remove leaf' =>
    simp [GroupOp.write] at h
  | update =>
    simp [GroupOp.write] at h

/-- **A signed commit that adds a member is the commit its bytes were taken from**, but for the
signature. -/
theorem eq_of_signedBytes {c c' : Commit β} {leaf : ℕ} {lp : LeafKeyPackage β}
    (hop : c.op = .add leaf lp) (hleaf : leaf < 2 ^ 64)
    (hop' : ∀ leaf' lp', c'.op = .add leaf' lp' → leaf' < 2 ^ 64)
    (hepoch : c.fromEpoch < 2 ^ 64) (hepoch' : c'.fromEpoch < 2 ^ 64)
    (hsender : c.senderLeaf < 2 ^ 64) (hsender' : c'.senderLeaf < 2 ^ 64)
    (h : c.signedBytes = c'.signedBytes) : c' = { c with signature := c'.signature } := by
  obtain ⟨groupId, fromEpoch, senderLeaf, op, path, signature⟩ := c
  obtain ⟨groupId', fromEpoch', senderLeaf', op', path', signature'⟩ := c'
  obtain rfl : op = .add leaf lp := hop
  simp only [Commit.signedBytes, commitSignedBytes, frame_inj, List.cons.injEq, true_and] at h
  obtain ⟨rfl, hnumEpoch, hnumSender, hwrite, -, hpath⟩ := h
  obtain rfl := num_inj hepoch hepoch' hnumEpoch
  obtain rfl := num_inj hsender hsender' hnumSender
  obtain rfl := eq_add_of_write hleaf hop' hwrite
  obtain rfl := (List.map_inj_right UpdatePathNode.write_injective).1 hpath
  rfl

/-- Commits and snapshots are not signed under one context. -/
theorem commitSignedBytes_ne (hctx : (commitSignatureContext : β) ≠ welcomeSignatureContext)
    (c : Commit β) (bytes : β) : c.signedBytes ≠ welcomeSignedBytes bytes := by
  intro h
  simp only [Commit.signedBytes, commitSignedBytes, welcomeSignedBytes, frame_inj,
    List.cons.injEq] at h
  exact hctx h.1

end Encodings

/-! ### Signatures in circulation -/

section Signatures

variable {β : Type} [Crypto β]

/-- A message of another protocol: no signature context of the group code stands before it. -/
def Foreign (m : β) : Prop :=
  ∀ rest : List β, m ≠ frame (commitSignatureContext :: rest) ∧
    m ≠ frame (welcomeSignatureContext :: rest)

/-- The key packages handed over have a valid proof of possession, which is checked when they are
read, and other protocols sign messages of their own. -/
def WellTyped (_ : Process β) : Call β → Prop
  | .join _ _ _ _ _ c => ∀ leaf lp, c.op = .add leaf lp → lp.popValid = true
  | .propose _ _ _ p => p.popValid = true
  | .applyCommit _ c => ∀ leaf lp, c.op = .add leaf lp → lp.popValid = true
  | .sign _ message => Foreign message
  | _ => True

/-- The messages one propose call signed, with their signatures: the commit, and the snapshot of
a welcome. -/
def Made.signatures (e : Made β) : List (β × β) :=
  (e.commit.signedBytes, e.commit.signature) ::
    match e.proposal, e.before.firstBlankLeaf with
    | .add _, some target =>
      let bytes := welcomeSignedBytes (e.before.snapshot target).write
      [(bytes, sign e.signer bytes)]
    | _, _ => []

/-- The process made this signature, under the signing identity `signer`. -/
def Process.Signed (w : Process β) (signer m signature : β) : Prop :=
  (∃ e ∈ w.made, e.signer = signer ∧ (m, signature) ∈ e.signatures) ∨
    ((signer, m) ∈ w.others ∧ signature = sign signer m)

/-- The owner of the signing identity makes at most one commit for each epoch of a group. -/
def Process.OneCommitPerEpoch (w : Process β) (signer : β) : Prop :=
  ∀ e ∈ w.made, ∀ e' ∈ w.made, e.signer = signer → e'.signer = signer →
    e.before.groupId = e'.before.groupId → e.before.epoch = e'.before.epoch → e = e'

/-- The signed messages a new member is shown: the commit, and the snapshot in the welcome. -/
def Shown (kp : MyLeafKeyPackage β) (welcome : Welcome β) (c : Commit β) (m signature : β) :
    Prop :=
  (m = c.signedBytes ∧ signature = c.signature) ∨
    ∃ plaintext snapshotBytes,
      openFromNode kp.dhSecret kp.kemSecret welcomeAadContext welcome.sealedSnapshot =
        .ok plaintext ∧
      unframe plaintext = some [snapshotBytes, signature] ∧ m = welcomeSignedBytes snapshotBytes

/-- Nobody forged what a new member is shown: signatures that verify under the identity of
`signer` were made by the process, and the proof of possession in the commit's copy of the new
member's key package is the new member's own. -/
structure Process.Unforgeable (w : Process β) (signer : β) (kp : MyLeafKeyPackage β)
    (welcome : Welcome β) (c : Commit β) : Prop where
  signed : ∀ m signature, Shown kp welcome c m signature →
    verify (publicIdentity signer) m signature = true → w.Signed signer m signature
  pop : ∀ leaf lp, c.op = .add leaf lp → lp.popValid = true → lp.identity = kp.identity →
    lp.publicKey = kp.publicKey → lp.pop = kp.pop

/-- What holds of every commit a process made. -/
structure Made.Ok (e : Made β) : Prop where
  sound : e.before.Sound
  pop : ∀ n ∈ e.before.nodes, n.PopValid
  proposed : e.before.propose e.signer e.coins e.proposal = .ok (e.after, e.commit, e.welcome)
  proposal : e.proposal.popValid = true

end Signatures

/-! ### Runs of a process -/

section Runs

variable {β : Type} [Crypto β]

/-- Splicing brings in the proof of possession of the key package it adds. -/
theorem popValid_of_splice {nodes pre : List (TreeNode β)} {capacity : ℕ} {op : GroupOp β}
    (hnodes : ∀ n ∈ nodes, n.PopValid) (hop : ∀ leaf lp, op = .add leaf lp → lp.popValid = true)
    (h : splice nodes capacity op = .ok pre) : ∀ n ∈ pre, n.PopValid := by
  intro n hn
  cases op with
  | add leaf lp =>
    obtain ⟨-, -, rfl⟩ := splice_add h
    rcases List.mem_or_eq_of_mem_set hn with hn | rfl
    · exact hnodes n hn
    · exact hop leaf lp rfl
  | remove leaf =>
    obtain ⟨-, hlen, hblank, hsame⟩ := splice_remove h
    obtain ⟨i, hi⟩ := List.mem_iff_getElem?.1 hn
    by_cases hb : Below i (leafToNode capacity leaf)
    · rw [hblank i hb (hlen ▸ (List.getElem?_eq_some_iff.1 hi).1)] at hi
      rw [← Option.some.inj hi]
      trivial
    · exact hnodes n (List.mem_of_getElem? (hsame i hb ▸ hi))
  | update =>
    obtain rfl := Except.ok.inj h
    exact hnodes n hn

theorem popValid_of_setPath {nodes : List (TreeNode β)} {path : List ℕ}
    {pathNodes : List (UpdatePathNode β)} (hnodes : ∀ n ∈ nodes, n.PopValid) :
    ∀ n ∈ setPath nodes path pathNodes, n.PopValid := by
  unfold setPath
  generalize path.zip pathNodes = l
  induction l generalizing nodes with
  | nil => exact hnodes
  | cons dn l ih =>
    refine ih fun n hn => ?_
    rcases List.mem_or_eq_of_mem_set hn with hn | rfl
    · exact hnodes n hn
    · trivial

variable [DecidableEq β]

/-- The tree after an accepted commit. -/
theorem popValid_of_applyCommit {g g' : Group β} {c : Commit β} (hcap : 2 ≤ g.capacity)
    (hnodes : ∀ n ∈ g.nodes, n.PopValid)
    (hop : ∀ leaf lp, c.op = .add leaf lp → lp.popValid = true)
    (h : g.applyCommit c = .ok g') : ∀ n ∈ g'.nodes, n.PopValid := by
  obtain ⟨pre, level, secret, rootSecret, known, ha⟩ := applyCommit_eq_ok hcap h
  have hview : g'.nodes = setPath pre (directPath g.capacity c.senderLeaf) c.path :=
    congrArg View.nodes ha.view
  rw [hview]
  exact popValid_of_setPath (popValid_of_splice hnodes hop ha.spliced)

/-- What holds of a process whose calls are well typed. -/
structure Process.Inv (w : Process β) : Prop where
  pop : ∀ i g, w.groups i = some g → ∀ n ∈ g.nodes, n.PopValid
  made : ∀ e ∈ w.made, e.Ok
  others : ∀ p ∈ w.others, Foreign p.2

omit [DecidableEq β] in
/-- One slot is given a new group. -/
theorem Process.Inv.setGroup {w : Process β} (h : w.Inv) (i : ℕ) {g : Group β}
    (hg : ∀ n ∈ g.nodes, n.PopValid) : (w.setGroup i g).Inv := by
  refine ⟨fun j g' hg' => ?_, h.made, h.others⟩
  rcases Process.groups_setGroup_eq_some.1 hg' with ⟨-, rfl⟩ | ⟨-, hg'⟩
  · exact hg
  · exact h.pop j g' hg'

variable [LawfulCrypto β]

/-- **The invariant is kept by every well typed call.** -/
theorem Process.Inv.step {w w' : Process β} {a : Call β} (h : w.Inv)
    (hsound : ∀ i g, w.groups i = some g → g.Sound) (ha : WellTyped w a)
    (hs : w.step a = some w') : w'.Inv := by
  cases Process.step_cases hs with
  | @create i capacity signer dh kem gid init g hg =>
    refine h.setGroup i fun n hn => ?_
    unfold Group.create at hg
    split_ifs at hg
    obtain rfl := Except.ok.inj hg
    -- every slot but the founder's is blank
    rcases List.mem_or_eq_of_mem_set hn with hn | rfl
    · rw [List.eq_of_mem_replicate hn]
      trivial
    · exact MyLeafKeyPackage.generate_popValid _ _ _
  | @join i signer dh kem welcome c g hg =>
    obtain ⟨_, _, _, s, _, -, -, hread, -, -, -, -, -, happly⟩ := join_eq_ok hg
    obtain ⟨hcap, -, -, -, hpop⟩ := read_eq_ok hread
    exact h.setGroup i (popValid_of_applyCommit (g := ofSnapshot _ s)
      (two_le_of_capacityValid hcap) hpop ha happly)
  | @propose i signer coins p g g' c welcome hg hp =>
    have hpop : p.popValid = true := ha
    obtain ⟨op, hc, hadd⟩ := commit_of_propose hp
    obtain ⟨-, -, pre, hpre, -, hadv⟩ := commit_eq_ok (hsound i g hg).two_le hc
    have hop : ∀ leaf lp, op = .add leaf lp → lp.popValid = true := by
      intro leaf lp he
      rw [(hadd leaf lp he).1] at hpop
      exact hpop
    have hnodes : g'.nodes = setPath pre (directPath g.capacity c.senderLeaf) c.path :=
      congrArg View.nodes hadv.view
    have hset := h.setGroup i (g := g') (hnodes ▸ popValid_of_setPath
      (popValid_of_splice (h.pop i g hg) hop hpre))
    refine ⟨hset.pop, fun e he => ?_, h.others⟩
    rcases List.mem_cons.1 he with rfl | he
    · exact ⟨hsound i g hg, h.pop i g hg, hp, hpop⟩
    · exact h.made e he
  | @applyCommit i c g g' hg hc =>
    exact h.setGroup i (popValid_of_applyCommit (hsound i g hg).two_le (h.pop i g hg) ha hc)
  | @sealRecord i plaintext record g g' hg hr =>
    have hnodes : g'.nodes = g.nodes := congrArg View.nodes (sameCore_sealRecord hr).view
    exact h.setGroup i (hnodes ▸ h.pop i g hg)
  | @openRecord i record g hg =>
    have hnodes : (g.openRecord record).1.nodes = g.nodes :=
      congrArg View.nodes (sameCore_openRecord g record).view
    exact h.setGroup i (hnodes ▸ h.pop i g hg)
  | @sign signer message =>
    refine ⟨h.pop, h.made, fun p hp => ?_⟩
    rcases List.mem_cons.1 hp with rfl | hp
    · exact ha
    · exact h.others p hp

theorem Process.inv_of_reachable {w : Process β} (h : (processMachine β).Reachable WellTyped w) :
    w.Inv := by
  refine Machine.Reachable.invariant (I := Process.Inv) ?_ ?_ h
  · rintro w rfl
    exact ⟨fun _ _ h => (by cases h), fun _ h => (by cases h), fun _ h => (by cases h)⟩
  · intro w w' a hw ih ha hs
    exact ih.step (fun i g hg => sound_of_reachable hw hg) ha hs

end Runs

/-! ### Joining -/

section Joining

variable {β : Type} [Crypto β] [LawfulCrypto β] {g g' : Group β} {c : Commit β}
  {pre : List (TreeNode β)}

/-- **Whoever decrypts an honest path finds the secret sealed at the level it decrypted.** -/
theorem findAndDecrypt_commitPath {coins : ℕ → ℕ → SealCoins β} {nodes : List (TreeNode β)}
    {capacity i prev prev' level : ℕ} {secret m : β} {path : List ℕ}
    {pathNodes : List (UpdatePathNode β)} {newKnown : List (ℕ × β)}
    (hcp : commitPath coins nodes capacity prev' secret path = .ok (pathNodes, newKnown))
    (h : g.findAndDecrypt pre i prev path pathNodes = .ok (level, m)) :
    ∃ low high, path = low ++ high ∧ level = i + low.length ∧
      m = pathStep^[low.length] secret := by
  induction path generalizing i prev prev' secret pathNodes newKnown with
  | nil => simp [findAndDecrypt] at h
  | cons d path ih =>
    obtain ⟨s, targets, cts, pathNodes', newKnown', -, -, hcts, hrest, rfl, -⟩ :=
      commitPath_cons hcp
    simp only [findAndDecrypt] at h
    obtain ⟨s', -, h⟩ := Result.bind_eq_ok.1 h
    obtain ⟨targets', -, h⟩ := Result.bind_eq_ok.1 h
    split at h
    · -- a ciphertext of this level opened
      rename_i m' hm'
      split_ifs at h
      simp only [Result.pure_eq_ok, Except.ok.injEq, Prod.mk.injEq] at h
      obtain ⟨rfl, rfl⟩ := h
      exact ⟨[], d :: path, rfl, rfl, eq_of_openAny hcts hm'⟩
    · obtain ⟨low, high, rfl, rfl, rfl⟩ := ih hrest h
      refine ⟨d :: low, high, rfl, ?_, by rw [List.length_cons, Function.iterate_succ_apply]⟩
      rw [List.length_cons]
      omega

variable [DecidableEq β]

/-- Whoever accepts an honest path mixes in the committer's secret. -/
theorem Accepted.root_eq {level : ℕ} {secret rootSecret pathSecret : β} {known : List (ℕ × β)}
    {coins : ℕ → ℕ → SealCoins β} {nodes : List (TreeNode β)} {prev : ℕ}
    {newKnown : List (ℕ × β)} (h : Accepted g c pre level secret rootSecret known g')
    (hcap : 2 ≤ g.capacity)
    (hcp : commitPath coins nodes g.capacity prev pathSecret (directPath g.capacity c.senderLeaf) =
      .ok (c.path, newKnown)) :
    rootSecret = commitSecret (directPath g.capacity c.senderLeaf) pathSecret := by
  obtain ⟨low, high, hsplit, rfl, rfl⟩ := findAndDecrypt_commitPath hcp h.decrypted
  obtain ⟨rfl, -⟩ := verifyPath_eq_ok h.verified
  have hnd := nodup_directPath g.capacity c.senderLeaf
  have hroot := h.root
  rw [Nat.zero_add, hsplit, List.drop_left] at hroot
  have hlook := lookup_drop_pathSecrets (hsplit ▸ hnd) (lookup_pathSecrets_isSome hroot) pathSecret
  rw [hroot, ← hsplit, lookup_commitSecret hcap] at hlook
  exact Option.some.inj hlook

omit [Crypto β] [LawfulCrypto β] [DecidableEq β] in
theorem memberIdentity_eq_some {leaf : ℕ} {identity : β} :
    g.memberIdentity leaf = some identity ↔ leaf < g.capacity ∧
      ∃ lp, g.nodes[leafToNode g.capacity leaf]? = some (.leaf lp) ∧ lp.identity = identity := by
  unfold memberIdentity
  split_ifs with hlt
  · exact ⟨fun h => (by cases h), fun h => absurd h.1 (by omega)⟩
  · rw [and_iff_right (Nat.not_le.1 hlt)]
    split
    · rename_i lp hlp
      simp [hlp]
    · rename_i hno
      refine ⟨fun h => (by cases h), fun ⟨lp, hlp, _⟩ => absurd hlp (hno lp)⟩

omit [LawfulCrypto β] in
/-- The committer of an addition keeps its leaf. -/
theorem Accepted.memberIdentity {level : ℕ} {secret rootSecret : β} {known : List (ℕ × β)}
    (h : Accepted g c pre level secret rootSecret known g') {leaf : ℕ} {lp : LeafKeyPackage β}
    (hop : c.op = .add leaf lp) {identity : β}
    (hid : g.memberIdentity c.senderLeaf = some identity) :
    g'.memberIdentity c.senderLeaf = some identity := by
  obtain ⟨hlt, lp', hlp', rfl⟩ := memberIdentity_eq_some.1 hid
  have hcap : g'.capacity = g.capacity := congrArg View.capacity h.view
  have hnodes : g'.nodes = setPath pre (directPath g.capacity c.senderLeaf) c.path :=
    congrArg View.nodes h.view
  have hpath : leafToNode g.capacity c.senderLeaf ∉ directPath g.capacity c.senderLeaf :=
    fun hmem => (mem_directPath.1 hmem).2 rfl
  refine memberIdentity_eq_some.2 ⟨hcap ▸ hlt, lp', ?_, rfl⟩
  rw [hnodes, hcap, setPath_of_notMem hpath]
  refine getElem?_splice h.spliced (Nat.le_add_right _ _) hlp' fun leaf' he => ?_
  rw [hop] at he
  cases he

omit [LawfulCrypto β] [DecidableEq β] in
theorem mem_signatures {e : Made β} {m signature : β} (h : (m, signature) ∈ e.signatures) :
    (m = e.commit.signedBytes ∧ signature = e.commit.signature) ∨
      ∃ target, e.before.firstBlankLeaf = some target ∧
        m = welcomeSignedBytes (e.before.snapshot target).write := by
  unfold Made.signatures at h
  rcases List.mem_cons.1 h with h | h
  · exact .inl (Prod.mk.inj h)
  · split at h
    · rename_i target _ ht
      obtain ⟨hm, -⟩ := Prod.mk.inj (List.mem_singleton.1 h)
      exact .inr ⟨target, ht, hm⟩
    · cases h

omit [DecidableEq β] in
/-- A signed snapshot is one that an add took. -/
theorem Process.Inv.snapshot_of_signed {w : Process β} (hw : w.Inv)
    (hctx : (commitSignatureContext : β) ≠ welcomeSignatureContext) {signer bytes signature : β}
    (h : w.Signed signer (welcomeSignedBytes bytes) signature) :
    ∃ e ∈ w.made, e.signer = signer ∧ ∃ target, e.before.firstBlankLeaf = some target ∧
      bytes = (e.before.snapshot target).write := by
  rcases h with ⟨e, he, hsigner, hmem⟩ | ⟨hmem, -⟩
  · rcases mem_signatures hmem with ⟨hm, -⟩ | ⟨target, ht, hm⟩
    · exact absurd hm.symm (commitSignedBytes_ne hctx _ _)
    · simp only [welcomeSignedBytes, frame_inj, List.cons.injEq, and_true, true_and] at hm
      exact ⟨e, he, hsigner, target, ht, hm⟩
  · exact absurd rfl (hw.others _ hmem [bytes]).2

omit [DecidableEq β] in
/-- A signed commit is one that was made. -/
theorem Process.Inv.commit_of_signed {w : Process β} (hw : w.Inv)
    (hctx : (commitSignatureContext : β) ≠ welcomeSignatureContext) {signer signature : β}
    (h : w.Signed signer c.signedBytes signature) :
    ∃ e ∈ w.made, e.signer = signer ∧ c.signedBytes = e.commit.signedBytes ∧
      signature = e.commit.signature := by
  rcases h with ⟨e, he, hsigner, hmem⟩ | ⟨hmem, -⟩
  · rcases mem_signatures hmem with ⟨hm, hs⟩ | ⟨target, -, hm⟩
    · exact ⟨e, he, hsigner, hm, hs⟩
    · exact absurd hm (commitSignedBytes_ne hctx _ _)
  · exact absurd rfl (hw.others _ hmem _).1

omit [LawfulCrypto β] [DecidableEq β] in
/-- The new member's copy of its own key package is the one it generated. -/
theorem Process.Unforgeable.eq_public {w : Process β} {signer : β} {kp : MyLeafKeyPackage β}
    {welcome : Welcome β} (h : w.Unforgeable signer kp welcome c) {leaf : ℕ}
    {lp : LeafKeyPackage β} (hop : c.op = .add leaf lp) (hpop : lp.popValid = true)
    (hid : lp.identity = kp.identity) (hkey : lp.publicKey = kp.publicKey) : lp = kp.public := by
  have hp := h.pop leaf lp hop hpop hid hkey
  obtain ⟨identity, publicKey, pop⟩ := lp
  obtain rfl : identity = kp.identity := hid
  obtain rfl : publicKey = kp.publicKey := hkey
  obtain rfl : pop = kp.pop := hp
  rfl

omit [Crypto β] [LawfulCrypto β] [DecidableEq β] in
theorem lt_of_firstBlankLeaf {target : ℕ} (h : g.firstBlankLeaf = some target) :
    target < g.capacity := List.mem_range.1 (List.mem_of_find?_eq_some h)

omit [Crypto β] [LawfulCrypto β] [DecidableEq β] in
theorem Sound.capacity_lt (h : g.Sound) : g.capacity < 2 ^ 64 := by
  have := h.max
  unfold maxCapacity at this
  omega

omit [LawfulCrypto β] [DecidableEq β] in
/-- The commit of a propose call, seen from the committer. -/
theorem Made.Ok.commit {e : Made β} (h : e.Ok) :
    e.commit.groupId = e.before.groupId ∧ e.commit.fromEpoch = e.before.epoch ∧
      e.commit.senderLeaf = e.before.myLeaf ∧
      (∀ leaf lp, e.commit.op = .add leaf lp →
        e.proposal = .add lp ∧ e.before.firstBlankLeaf = some leaf) ∧
      ∃ pre, splice e.before.nodes e.before.capacity e.commit.op = .ok pre ∧
        commitPath e.coins.sealCoins pre e.before.capacity e.before.leafNode e.coins.pathSecret
          (directPath e.before.capacity e.commit.senderLeaf) = .ok (e.commit.path,
            pathSecrets (directPath e.before.capacity e.commit.senderLeaf) e.coins.pathSecret) ∧
        e.after.view = e.before.view.next e.coins e.commit pre := by
  obtain ⟨op, hc, hadd⟩ := commit_of_propose h.proposed
  obtain ⟨heq, -, pre, hpre, hpath, hadv⟩ := commit_eq_ok h.sound.two_le hc
  have hsender : e.commit.senderLeaf = e.before.myLeaf := congrArg Commit.senderLeaf heq
  have hop : e.commit.op = op := congrArg Commit.op heq
  exact ⟨congrArg Commit.groupId heq, congrArg Commit.fromEpoch heq, hsender,
    fun leaf lp he => hadd leaf lp (hop ▸ he), pre, hop ▸ hpre, hsender ▸ hpath, hadv.view⟩

omit [DecidableEq β] in
/-- The snapshot of a propose call is read as it was written. -/
theorem Made.Ok.read_snapshot {e : Made β} (h : e.Ok) {target : ℕ}
    (ht : e.before.firstBlankLeaf = some target) :
    WelcomeSnapshot.read (e.before.snapshot target).write = .ok (e.before.snapshot target) :=
  WelcomeSnapshot.read_write h.sound.capacity h.sound.max h.sound.length h.sound.epoch
    (lt_of_firstBlankLeaf ht) h.pop

/-- **A join is authentic.**  A new member joins with any welcome and any commit, and the member
at the committer's leaf of the tree it ends up with has the identity of `signer`, who makes at
most one commit for each epoch.  Then `signer` added exactly this new member: it made this commit
and took the snapshot in the welcome of its own group, and the new member's group id, tree, epoch,
epoch secret and transcript hash are those of its group right after. -/
theorem join_authentic (hctx : (commitSignatureContext : β) ≠ welcomeSignatureContext)
    {w : Process β} (hw : (processMachine β).Reachable WellTyped w) {signer : β}
    (hone : w.OneCommitPerEpoch signer) {joiner dhSecret kemSecret : β} {welcome : Welcome β}
    {c : Commit β} {j : Group β}
    (hunf : w.Unforgeable signer (.generate joiner dhSecret kemSecret) welcome c)
    (hjoin : Group.join (.generate joiner dhSecret kemSecret) welcome c = .ok j)
    (hsender : j.memberIdentity c.senderLeaf = some (publicIdentity signer)) :
    ∃ e ∈ w.made, e.signer = signer ∧
      (∃ sent, e.before.proposeAdd signer e.coins
        (MyLeafKeyPackage.generate joiner dhSecret kemSecret).public = .ok (e.after, c, sent)) ∧
      (∃ target plaintext signature, e.before.firstBlankLeaf = some target ∧
        openFromNode dhSecret kemSecret welcomeAadContext welcome.sealedSnapshot = .ok plaintext ∧
        unframe plaintext = some [(e.before.snapshot target).write, signature]) ∧
      j.view = e.after.view := by
  have hinv := Process.inv_of_reachable hw
  obtain ⟨plaintext, bytes, signature, s, identity, hopen, hframe, hread, hgid, hfrom, hadds, hid,
    hverify, happly⟩ := join_eq_ok hjoin
  obtain ⟨hvalid, hmax, -, htarget, -⟩ := read_eq_ok hread
  obtain ⟨pre, level, secret, rootSecret, known, ha⟩ :=
    applyCommit_eq_ok (g := ofSnapshot _ s) (two_le_of_capacityValid hvalid) happly
  -- the commit adds the new member at the snapshot's target leaf
  obtain ⟨lp, hop, hkey, hkid⟩ : ∃ lp, c.op = .add s.targetLeaf lp ∧
      lp.publicKey = (MyLeafKeyPackage.generate joiner dhSecret kemSecret).publicKey ∧
      lp.identity = (MyLeafKeyPackage.generate joiner dhSecret kemSecret).identity := by
    cases hc : c.op with
    | add leaf lp =>
      rw [hc] at hadds
      simp only [addsMember, Bool.and_eq_true, decide_eq_true_eq] at hadds
      exact ⟨lp, by rw [hadds.1.1], hadds.1.2, hadds.2⟩
    | remove leaf =>
      rw [hc] at hadds
      cases hadds
    | update =>
      rw [hc] at hadds
      cases hadds
  -- the committer's identity is the signer's, before the commit as after it
  obtain rfl : identity = publicIdentity signer :=
    Option.some.inj ((ha.memberIdentity hop hid).symm.trans hsender)
  obtain ⟨e, he, hesigner, target, ht, rfl⟩ := hinv.snapshot_of_signed hctx
    (hunf.signed _ _ (.inr ⟨plaintext, bytes, hopen, hframe, rfl⟩) hverify)
  obtain ⟨e', he', hesigner', hbytes, hsignature⟩ : ∃ e ∈ w.made, e.signer = signer ∧
      c.signedBytes = e.commit.signedBytes ∧ c.signature = e.commit.signature := by
    obtain ⟨identity', hid', hverify'⟩ := ha.signed
    obtain rfl : publicIdentity signer = identity' := Option.some.inj (hid.symm.trans hid')
    exact hinv.commit_of_signed hctx (hunf.signed _ _ (.inl ⟨rfl, rfl⟩) hverify')
  have hok := hinv.made e he
  have hok' := hinv.made e' he'
  obtain rfl : e.before.snapshot target = s :=
    Except.ok.inj ((hok.read_snapshot ht).symm.trans hread)
  -- the signed commit is the one `e'` made
  obtain ⟨hgid', hfrom', hsender', hadd', -⟩ := hok'.commit
  have hcommit : e'.commit = c := by
    have heq := eq_of_signedBytes hop (htarget.trans hok.sound.capacity_lt)
      (fun leaf' lp' h' => (lt_of_firstBlankLeaf (hadd' leaf' lp' h').2).trans
        hok'.sound.capacity_lt)
      (by rw [hfrom]; exact hok.sound.epoch) (by rw [hfrom']; exact hok'.sound.epoch)
      ((memberIdentity_eq_some.1 hid).1.trans hok.sound.capacity_lt)
      (by rw [hsender']; exact hok'.sound.myLeaf.trans hok'.sound.capacity_lt) hbytes
    rw [heq, ← hsignature]
  -- one epoch, one commit: the snapshot was taken by the same call
  obtain rfl : e = e' := by
    refine hone e he e' he' hesigner hesigner' ?_ ?_
    · rw [← hgid', hcommit, hgid]
      rfl
    · rw [← hfrom', hcommit, hfrom]
      rfl
  obtain ⟨-, -, -, hadd, pre', hpre', hpath, hafter⟩ := hok.commit
  rw [hcommit] at hadd hpre' hpath hafter
  obtain ⟨hproposal, -⟩ := hadd _ _ hop
  have hpop : lp.popValid = true := by
    have := hok.proposal
    rw [hproposal] at this
    exact this
  obtain rfl := hunf.eq_public hop hpop hkid hkey
  refine ⟨e, he, hesigner, ?_, ⟨target, plaintext, signature, ht, hopen, hframe⟩, ?_⟩
  · rcases propose_eq_ok hok.proposed with ⟨lp, sent, hp, -, hadd⟩ | ⟨_, hp, -⟩ | ⟨hp, -⟩
    · rw [hproposal] at hp
      obtain rfl := Proposal.add.inj hp
      rw [← hcommit, ← hesigner]
      exact ⟨sent, hadd⟩
    · cases hproposal.symm.trans hp
    · cases hproposal.symm.trans hp
  · -- the same tree, and the same secret at its root
    obtain rfl : pre' = pre := Except.ok.inj (hpre'.symm.trans ha.spliced)
    rw [ha.view, hafter, ha.root_eq (two_le_of_capacityValid hvalid) hpath]
    rfl

end Joining

/-! ### One invitation -/

/-- A symbolic proof of possession is the only one for its key package. -/
theorem pop_eq_of_popValid {lp : LeafKeyPackage Bytes} {owner k : ℕ} (hpop : lp.popValid = true)
    (hid : lp.identity = (package owner k).identity)
    (hkey : lp.publicKey = (package owner k).publicKey) : lp.pop = (package owner k).pop := by
  have hverify : Term.verify lp.identity (leafKeyPackagePopMessage lp.identity lp.publicKey)
      lp.pop = true := hpop
  rw [hid, hkey] at hverify
  exact of_decide_eq_true hverify

/-- The founder adds one member. -/
def inviteCalls : List SymCall := [.create 0 0 0 4, .propose 0 0 (.add 1 1)]

/-- One commit was made, and its welcome lets package 1 join; both signatures are the founder's. -/
def invited (w : Process Bytes) : Bool :=
  match w.made with
  | [e] =>
    match e.welcome with
    | some welcome =>
      match Group.join (package 1 1) welcome e.commit,
        openFromNode (package 1 1).dhSecret (package 1 1).kemSecret welcomeAadContext
          welcome.sealedSnapshot with
      | .ok j, .ok plaintext =>
        match unframe plaintext with
        | some [bytes, signature] =>
          decide (e.signer = .name (.identity 0) ∧
            j.memberIdentity e.commit.senderLeaf = some (publicIdentity (.name (.identity 0))) ∧
            (welcomeSignedBytes bytes, signature) ∈ e.signatures)
        | _ => false
      | _, _ => false
    | none => false
  | _ => false

/-- The new member joins at the founder's side. -/
theorem join_authentic_inviteCalls : ∃ w e welcome j, runCalls .empty inviteCalls = some w ∧
    w.made = [e] ∧ e.welcome = some welcome ∧
    Group.join (package 1 1) welcome e.commit = .ok j ∧ j.view = e.after.view := by
  have hrun : (runCalls .empty inviteCalls).map invited = some true := by decide +kernel
  obtain ⟨w, hw, hp⟩ := Option.map_eq_some_iff.1 hrun
  have hr : (processMachine Bytes).Reachable WellTyped w := by
    refine reachable_of_runCalls (.init rfl) (fun w a ha call hcall => ?_) hw
    simp only [inviteCalls, List.mem_cons, List.not_mem_nil, or_false] at ha
    rcases ha with rfl | rfl
    · cases hcall
      trivial
    · cases hcall
      exact MyLeafKeyPackage.generate_popValid _ _ _
  unfold invited at hp
  split at hp
  · rename_i e hmade
    split at hp
    · rename_i welcome hwelcome
      split at hp
      · rename_i j plaintext hjoin hopen
        split at hp
        · rename_i bytes signature hframe
          obtain ⟨hsigner, hsender, hmem⟩ := of_decide_eq_true hp
          have he : e ∈ w.made := by simp [hmade]
          have hunf : w.Unforgeable (.name (.identity 0)) (package 1 1) welcome e.commit := by
            refine ⟨fun m sig hshown _ => .inl ⟨e, he, hsigner, ?_⟩,
              fun leaf lp _ hpop hid hkey => pop_eq_of_popValid hpop hid hkey⟩
            rcases hshown with ⟨rfl, rfl⟩ | ⟨plaintext', bytes', hopen', hframe', rfl⟩
            · exact List.mem_cons_self
            · obtain rfl := Except.ok.inj (hopen.symm.trans hopen')
              rw [hframe] at hframe'
              simp only [Option.some.injEq, List.cons.injEq, and_true] at hframe'
              rw [← hframe'.1, ← hframe'.2]
              exact hmem
          have hone : w.OneCommitPerEpoch (.name (.identity 0)) := by
            intro e₁ h₁ e₂ h₂ _ _ _ _
            rw [hmade, List.mem_singleton] at h₁ h₂
            rw [h₁, h₂]
          have hctx : (commitSignatureContext : Bytes) ≠ welcomeSignatureContext :=
            fun h => absurd (Term.lit.inj h) (by decide)
          obtain ⟨e', he', -, -, -, hview⟩ := join_authentic hctx hr hone hunf hjoin hsender
          rw [hmade, List.mem_singleton] at he'
          exact ⟨w, e, welcome, j, hw, hmade, hwelcome, hjoin, he' ▸ hview⟩
        · cases hp
      · cases hp
    · cases hp
  · cases hp

end Group

end NovaChannel
