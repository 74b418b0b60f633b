import NovaChannel.Group.Runs
import NovaChannel.Group.Symbolic

/-!
# Groups in any hands

`machine` runs one group of honest members.  A `Process` owns any number of groups, under any
identities, and drives each of them by the calls of the interface; the commits, welcomes and
records it hands them may come from anyone.

* `commit_eq_ok`, `applyCommit_eq_ok` : what the two ways into a new epoch did;
* `Sound` : what holds of every group a process owns, whatever it was handed
  (`sound_of_reachable`);
* `Made` : a commit of a process, recorded with the group before and after it;
* `Process.Signed` : the messages a process signed.
-/

namespace NovaChannel

namespace Group

open Crypto

/-! ### The calls -/

/-- A commit that was made: by whom, of which group, and what the call returned. -/
structure Made (β : Type) [Crypto β] where
  signer : β
  proposal : Proposal β
  coins : CommitCoins β
  before : Group β
  after : Group β
  commit : Commit β
  welcome : Option (Welcome β)

/-- The groups a process owns, the commits it made, and the messages of other protocols it
signed. -/
structure Process (β : Type) [Crypto β] where
  groups : ℕ → Option (Group β)
  made : List (Made β)
  others : List (β × β)

/-- One call of the interface, on the group in slot `i`. -/
inductive Call (β : Type) [Crypto β]
  | create (i : ℕ) (signer : β) (capacity : ℕ) (dhSecret kemSecret groupId init : β)
  | join (i : ℕ) (signer dhSecret kemSecret : β) (welcome : Welcome β) (c : Commit β)
  | propose (i : ℕ) (signer : β) (coins : CommitCoins β) (p : Proposal β)
  | applyCommit (i : ℕ) (c : Commit β)
  | sealRecord (i : ℕ) (plaintext : β)
  | openRecord (i : ℕ) (record : β)
  /-- Another protocol signs a message. -/
  | sign (signer message : β)

section Definitions

variable {β : Type} [Crypto β]

/-- A propose call on a group, by the holder of the signing identity `signer`. -/
def propose (g : Group β) (signer : β) (coins : CommitCoins β) (p : Proposal β) :
    Result (Group β × Commit β × Option (Welcome β)) :=
  (Member.mk signer g fun _ => 0).propose coins p

namespace Process

/-- A process that has done nothing yet. -/
def empty : Process β := ⟨fun _ => none, [], []⟩

/-- Slot `i` holds `g` now. -/
def setGroup (w : Process β) (i : ℕ) (g : Group β) : Process β :=
  { w with groups := Function.update w.groups i (some g) }

variable [DecidableEq β]

/-- One successful call.  A call that fails leaves everything as it was, but for `open`, which
may set up a receive chain. -/
def step (w : Process β) : Call β → Option (Process β)
  | .create i signer capacity dhSecret kemSecret groupId init =>
    match Group.create signer capacity dhSecret kemSecret groupId init with
    | .ok g => some (w.setGroup i g)
    | .error _ => none
  | .join i signer dhSecret kemSecret welcome c =>
    match Group.join (MyLeafKeyPackage.generate signer dhSecret kemSecret) welcome c with
    | .ok g => some (w.setGroup i g)
    | .error _ => none
  | .propose i signer coins p =>
    match w.groups i with
    | none => none
    | some g =>
      match g.propose signer coins p with
      | .ok (g', c, welcome) =>
        some { w.setGroup i g' with made := ⟨signer, p, coins, g, g', c, welcome⟩ :: w.made }
      | .error _ => none
  | .applyCommit i c =>
    match w.groups i with
    | none => none
    | some g =>
      match g.applyCommit c with
      | .ok g' => some (w.setGroup i g')
      | .error _ => none
  | .sealRecord i plaintext =>
    match w.groups i with
    | none => none
    | some g =>
      match g.sealRecord plaintext with
      | .ok (g', _) => some (w.setGroup i g')
      | .error _ => none
  | .openRecord i record =>
    match w.groups i with
    | none => none
    | some g => some (w.setGroup i (g.openRecord record).1)
  | .sign signer message => some { w with others := (signer, message) :: w.others }

end Process

/-- A process as a machine. -/
def processMachine (β : Type) [Crypto β] [DecidableEq β] : Machine (Process β) (Call β) where
  init w := w = Process.empty
  step := Process.step

/-- What a call did, one case for each kind of call. -/
inductive Process.Step [DecidableEq β] (w : Process β) : Call β → Process β → Prop
  | create {i capacity : ℕ} {signer dhSecret kemSecret groupId init : β} {g : Group β}
      (h : Group.create signer capacity dhSecret kemSecret groupId init = .ok g) :
      Step w (.create i signer capacity dhSecret kemSecret groupId init) (w.setGroup i g)
  | join {i : ℕ} {signer dhSecret kemSecret : β} {welcome : Welcome β} {c : Commit β}
      {g : Group β}
      (h : Group.join (MyLeafKeyPackage.generate signer dhSecret kemSecret) welcome c = .ok g) :
      Step w (.join i signer dhSecret kemSecret welcome c) (w.setGroup i g)
  | propose {i : ℕ} {signer : β} {coins : CommitCoins β} {p : Proposal β} {g g' : Group β}
      {c : Commit β} {welcome : Option (Welcome β)} (hg : w.groups i = some g)
      (h : g.propose signer coins p = .ok (g', c, welcome)) :
      Step w (.propose i signer coins p)
        { w.setGroup i g' with made := ⟨signer, p, coins, g, g', c, welcome⟩ :: w.made }
  | applyCommit {i : ℕ} {c : Commit β} {g g' : Group β} (hg : w.groups i = some g)
      (h : g.applyCommit c = .ok g') : Step w (.applyCommit i c) (w.setGroup i g')
  | sealRecord {i : ℕ} {plaintext record : β} {g g' : Group β} (hg : w.groups i = some g)
      (h : g.sealRecord plaintext = .ok (g', record)) :
      Step w (.sealRecord i plaintext) (w.setGroup i g')
  | openRecord {i : ℕ} {record : β} {g : Group β} (hg : w.groups i = some g) :
      Step w (.openRecord i record) (w.setGroup i (g.openRecord record).1)
  | sign {signer message : β} :
      Step w (.sign signer message) { w with others := (signer, message) :: w.others }

/-- **Inversion of a call.** -/
theorem Process.step_cases [DecidableEq β] {w w' : Process β} {a : Call β}
    (h : w.step a = some w') : Process.Step w a w' := by
  cases a with
  | create i signer capacity dh kem gid init =>
    simp only [Process.step] at h
    split at h
    · rename_i g hg
      cases h
      exact .create hg
    · cases h
  | join i signer dh kem welcome c =>
    simp only [Process.step] at h
    split at h
    · rename_i g hg
      cases h
      exact .join hg
    · cases h
  | propose i signer coins p =>
    simp only [Process.step] at h
    split at h
    · cases h
    · rename_i g hg
      split at h
      · rename_i g' c welcome hp
        cases h
        exact .propose hg hp
      · cases h
  | applyCommit i c =>
    simp only [Process.step] at h
    split at h
    · cases h
    · rename_i g hg
      split at h
      · rename_i g' ha
        cases h
        exact .applyCommit hg ha
      · cases h
  | sealRecord i plaintext =>
    simp only [Process.step] at h
    split at h
    · cases h
    · rename_i g hg
      split at h
      · rename_i g' record hs
        cases h
        exact .sealRecord hg hs
      · cases h
  | openRecord i record =>
    simp only [Process.step] at h
    split at h
    · cases h
    · rename_i g hg
      cases h
      exact .openRecord hg
  | sign signer message =>
    cases h
    exact .sign

@[simp] theorem Process.made_setGroup (w : Process β) (i : ℕ) (g : Group β) :
    (w.setGroup i g).made = w.made := rfl

theorem Process.groups_setGroup_eq_some {w : Process β} {i j : ℕ} {g g' : Group β} :
    (w.setGroup i g).groups j = some g' ↔
      (j = i ∧ g' = g) ∨ (j ≠ i ∧ w.groups j = some g') := by
  by_cases h : j = i
  · subst h
    simp [Process.setGroup, eq_comm]
  · simp [Process.setGroup, h]

end Definitions

/-! ### A commit from anyone -/

section Accepting

variable {β : Type} [Crypto β] [DecidableEq β] {g g' : Group β} {c : Commit β}

omit [DecidableEq β] in
/-- A decrypted path secret is 32 bytes long. -/
theorem len32_of_findAndDecrypt {pre : List (TreeNode β)} {i prev level : ℕ} {path : List ℕ}
    {pathNodes : List (UpdatePathNode β)} {secret : β}
    (h : g.findAndDecrypt pre i prev path pathNodes = .ok (level, secret)) :
    len32 secret = true := by
  induction path generalizing i prev pathNodes with
  | nil => simp [findAndDecrypt] at h
  | cons d path ih =>
    cases pathNodes with
    | nil => simp [findAndDecrypt] at h
    | cons node pathNodes =>
      simp only [findAndDecrypt] at h
      obtain ⟨s, -, h⟩ := Result.bind_eq_ok.1 h
      obtain ⟨targets, -, h⟩ := Result.bind_eq_ok.1 h
      split at h
      · rename_i m hm
        split_ifs at h with hlen
        simp only [Result.pure_eq_ok, Except.ok.injEq, Prod.mk.injEq] at h
        exact h.2 ▸ hlen
      · exact ih h

/-- A path whose keys were re-derived carries the public keys of its secrets. -/
theorem verifyPath_eq_ok {path : List ℕ} {pathNodes : List (UpdatePathNode β)} {secret : β}
    {known : List (ℕ × β)} (h : verifyPath path pathNodes secret = .ok known) :
    known = pathSecrets path secret ∧
      ∀ i d, path[i]? = some d → ∃ node, pathNodes[i]? = some node ∧
        (deriveNodeKeypair (pathStep^[i] secret)).public = node.publicKey := by
  induction path generalizing pathNodes secret known with
  | nil =>
    cases h
    exact ⟨rfl, fun i d hd => by simp at hd⟩
  | cons e path ih =>
    cases pathNodes with
    | nil => cases h
    | cons node pathNodes =>
      simp only [verifyPath] at h
      split_ifs at h with hpub
      obtain ⟨known', hrest, h⟩ := Result.bind_eq_ok.1 h
      obtain ⟨rfl, hkeys⟩ := ih hrest
      refine ⟨(Except.ok.inj h).symm, fun i d hd => ?_⟩
      cases i with
      | zero => exact ⟨node, rfl, not_not.1 hpub⟩
      | succ i =>
        obtain ⟨node', hnode, hkey⟩ := hkeys i d (by simpa using hd)
        exact ⟨node', by simpa using hnode, by rw [Function.iterate_succ_apply, hkey]⟩

/-- What a member that accepted a commit found and did. -/
structure Accepted (g : Group β) (c : Commit β) (pre : List (TreeNode β)) (level : ℕ)
    (secret rootSecret : β) (known : List (ℕ × β)) (g' : Group β) : Prop where
  groupId : c.groupId = g.groupId
  fromEpoch : c.fromEpoch = g.epoch
  signed : ∃ identity, g.memberIdentity c.senderLeaf = some identity ∧
    verify identity c.signedBytes c.signature = true
  spliced : splice g.nodes g.capacity c.op = .ok pre
  length : (directPath g.capacity c.senderLeaf).length = c.path.length
  decrypted : g.findAndDecrypt pre 0 (leafToNode g.capacity c.senderLeaf)
    (directPath g.capacity c.senderLeaf) c.path = .ok (level, secret)
  verified : verifyPath ((directPath g.capacity c.senderLeaf).drop level) (c.path.drop level)
    secret = .ok known
  root : known.lookup 0 = some rootSecret
  epoch : g.epoch + 1 < 2 ^ 64
  view : g'.view = ⟨g.groupId, g.capacity, setPath pre (directPath g.capacity c.senderLeaf) c.path,
    g.epoch + 1, nextEpochSecret g.epochSecret rootSecret
      (nextTranscriptHash g.transcriptHash c.signedBytes),
    nextTranscriptHash g.transcriptHash c.signedBytes⟩
  app : g'.applicationSecret = deriveApplicationSecret g'.epochSecret
  myLeaf : g'.myLeaf = g.myLeaf

/-- **Inversion of `apply_commit`.** -/
theorem applyCommit_eq_ok (hcap : 2 ≤ g.capacity) (h : g.applyCommit c = .ok g') :
    ∃ pre level secret rootSecret known, Accepted g c pre level secret rootSecret known g' := by
  unfold applyCommit at h
  split_ifs at h with hgid hfrom
  split at h
  · cases h
  rename_i identity hid
  simp only at h
  split_ifs at h with hverify hlen
  · obtain ⟨pre, -, h⟩ := Result.bind_eq_ok.1 h
    cases h
  obtain ⟨pre, hpre, h⟩ := Result.bind_eq_ok.1 h
  obtain ⟨⟨level, secret⟩, hfind, h⟩ := Result.bind_eq_ok.1 h
  obtain ⟨known, hknown, h⟩ := Result.bind_eq_ok.1 h
  obtain ⟨last, hlast, h⟩ := Result.bind_eq_ok.1 h
  obtain ⟨rootSecret, hroot, h⟩ := Result.bind_eq_ok.1 h
  obtain ⟨g₁, hg₁, h⟩ := Result.bind_eq_ok.1 h
  obtain rfl := Except.ok.inj h
  obtain ⟨hepoch, hview, happ, hmy, -, -, -⟩ := apply_eq_ok hg₁
  obtain rfl : last = 0 := (Option.some.inj ((getLast?_directPath hcap c.senderLeaf).symm.trans
    (Result.expect_eq_ok.1 hlast))).symm
  exact ⟨pre, level, secret, rootSecret, known, not_not.1 hgid, not_not.1 hfrom,
    ⟨identity, hid, by simpa [Commit.signedBytes] using hverify⟩, hpre, not_not.1 hlen, hfind, hknown,
    Result.expect_eq_ok.1 hroot, hepoch, hview, happ, hmy⟩

/-- **The root key binds the commit secret**: whoever accepts a commit mixes in a secret of 32
bytes whose public key the commit publishes for the root. -/
theorem Accepted.rootKey {pre : List (TreeNode β)} {level : ℕ} {secret rootSecret : β}
    {known : List (ℕ × β)} (h : Accepted g c pre level secret rootSecret known g')
    (hcap : 2 ≤ g.capacity) (hlen : ∀ prk info : β, len32 (hkdfExpand 32 prk info) = true) :
    len32 rootSecret = true ∧ ∃ node, c.path.getLast? = some node ∧
      (deriveNodeKeypair rootSecret).public = node.publicKey := by
  obtain ⟨hknown, hkeys⟩ := verifyPath_eq_ok h.verified
  have hroot : (pathSecrets ((directPath g.capacity c.senderLeaf).drop level) secret).lookup 0 =
      some rootSecret := hknown ▸ h.root
  have hnd := nodup_directPath g.capacity c.senderLeaf
  -- the root stands at some place `i` from the decrypted level on
  obtain ⟨i, hi⟩ := List.mem_iff_getElem?.1 (lookup_pathSecrets_isSome hroot)
  obtain rfl : pathStep^[i] secret = rootSecret := Option.some.inj
    ((lookup_pathSecrets (hnd.sublist (List.drop_sublist _ _)) hi secret).symm.trans hroot)
  refine ⟨?_, ?_⟩
  · have hsecret := len32_of_findAndDecrypt h.decrypted
    cases i with
    | zero => exact hsecret
    | succ i =>
      rw [Function.iterate_succ_apply']
      exact hlen _ _
  · obtain ⟨node, hnode, hkey⟩ := hkeys i 0 hi
    refine ⟨node, ?_, hkey⟩
    -- it is the last node of the path, so its key is the last one of the commit
    have hlast := getLast?_directPath hcap c.senderLeaf
    rw [List.getLast?_eq_getElem?] at hlast
    rw [List.getElem?_drop] at hi hnode
    have hlt := (List.getElem?_eq_some_iff.1 hi).1
    have hplace : level + i = (directPath g.capacity c.senderLeaf).length - 1 :=
      (List.getElem?_inj hlt hnd).1 (hi.trans hlast.symm)
    rw [List.getLast?_eq_getElem?, ← h.length, ← hplace]
    exact hnode

end Accepting

/-! ### What holds of every group -/

section Soundness

variable {β : Type} [Crypto β]

/-- The ranges every group stays in, whoever made the commits and welcomes it was given. -/
structure Sound (g : Group β) : Prop where
  capacity : capacityValid g.capacity = true
  max : g.capacity ≤ maxCapacity
  length : g.nodes.length = 2 * g.capacity - 1
  epoch : g.epoch < 2 ^ 64
  myLeaf : g.myLeaf < g.capacity

theorem two_le_of_capacityValid {capacity : ℕ} (h : capacityValid capacity = true) :
    2 ≤ capacity := by
  simp only [capacityValid, Bool.and_eq_true, decide_eq_true_eq] at h
  exact h.1

omit [Crypto β] in
theorem Sound.two_le {g : Group β} (h : g.Sound) : 2 ≤ g.capacity :=
  two_le_of_capacityValid h.capacity

omit [Crypto β] in
/-- Records move no group out of its ranges. -/
theorem Sound.congr {g g' : Group β} (h : g.Sound) (hs : SameCore g g') : g'.Sound := by
  obtain ⟨-, hcap, hnodes, hepoch, -, -⟩ := View.mk.inj hs.view
  exact ⟨hcap ▸ h.capacity, hcap ▸ h.max, by rw [hnodes, hcap]; exact h.length,
    hepoch ▸ h.epoch, by rw [hs.myLeaf, hcap]; exact h.myLeaf⟩

omit [Crypto β] in
/-- Neither does a commit, one's own or accepted. -/
theorem Sound.next {g g' : Group β} (h : g.Sound) {op : GroupOp β} {pre : List (TreeNode β)}
    {path : List ℕ} {pathNodes : List (UpdatePathNode β)} {epochSecret transcriptHash : β}
    (hpre : splice g.nodes g.capacity op = .ok pre) (hepoch : g.epoch + 1 < 2 ^ 64)
    (hview : g'.view = ⟨g.groupId, g.capacity, setPath pre path pathNodes, g.epoch + 1,
      epochSecret, transcriptHash⟩) (hleaf : g'.myLeaf = g.myLeaf) : g'.Sound := by
  obtain ⟨-, hcap, hnodes, hep, -, -⟩ := View.mk.inj hview
  refine ⟨hcap ▸ h.capacity, hcap ▸ h.max, ?_, by rw [hep]; exact hepoch,
    by rw [hleaf, hcap]; exact h.myLeaf⟩
  rw [hnodes, hcap, length_setPath, length_splice hpre]
  exact h.length

theorem sound_of_create {signer dhSecret kemSecret groupId init : β} {capacity : ℕ}
    {g : Group β} (h : Group.create signer capacity dhSecret kemSecret groupId init = .ok g) :
    g.Sound := by
  unfold Group.create at h
  split_ifs at h with hcap hmax
  obtain rfl := Except.ok.inj h
  have hvalid : capacityValid capacity = true := by simpa using hcap
  have hle := two_le_of_capacityValid hvalid
  exact ⟨hvalid, Nat.not_lt.1 hmax, by simp, Nat.two_pow_pos 64,
    show 0 < capacity by omega⟩

/-- A slot that was read holds a key package whose proof of possession verified, if any. -/
theorem popValid_of_read {bytes : β} {n : TreeNode β} (h : TreeNode.read bytes = .ok n) :
    n.PopValid := by
  unfold TreeNode.read at h
  split at h
  · split at h
    · obtain rfl := Except.ok.inj h
      trivial
    · obtain ⟨lp, hlp, h⟩ := Result.bind_eq_ok.1 h
      obtain rfl := Except.ok.inj h
      unfold LeafKeyPackage.read at hlp
      split at hlp
      · obtain ⟨pk, -, hlp⟩ := Result.bind_eq_ok.1 hlp
        simp only at hlp
        split_ifs at hlp with hpop
        obtain rfl := Except.ok.inj hlp
        exact hpop
      · cases hlp
    · obtain ⟨pk, -, h⟩ := Result.bind_eq_ok.1 h
      obtain rfl := Except.ok.inj h
      trivial
    · cases h
  · cases h

theorem readNodes_eq_ok {count : ℕ} {fields rest : List β} {nodes : List (TreeNode β)}
    (h : readNodes count fields = .ok (nodes, rest)) :
    nodes.length = count ∧ ∀ n ∈ nodes, n.PopValid := by
  induction count generalizing fields rest nodes with
  | zero =>
    simp only [readNodes, Except.ok.injEq, Prod.mk.injEq] at h
    simp [← h.1]
  | succ count ih =>
    cases fields with
    | nil => cases h
    | cons bytes fields =>
      simp only [readNodes] at h
      obtain ⟨node, hnode, h⟩ := Result.bind_eq_ok.1 h
      obtain ⟨⟨nodes', rest'⟩, hrest, h⟩ := Result.bind_eq_ok.1 h
      simp only [Result.pure_eq_ok, Except.ok.injEq, Prod.mk.injEq] at h
      obtain ⟨rfl, -⟩ := h
      obtain ⟨hlen, hpop⟩ := ih hrest
      refine ⟨by rw [List.length_cons, hlen], fun n hn => ?_⟩
      rcases List.mem_cons.1 hn with rfl | hn
      · exact popValid_of_read hnode
      · exact hpop n hn

/-- What the reader of a snapshot checked. -/
theorem read_eq_ok {bytes : β} {s : WelcomeSnapshot β} (h : WelcomeSnapshot.read bytes = .ok s) :
    capacityValid s.capacity = true ∧ s.capacity ≤ maxCapacity ∧
      s.nodes.length = 2 * s.capacity - 1 ∧ s.targetLeaf < s.capacity ∧
      ∀ n ∈ s.nodes, n.PopValid := by
  unfold WelcomeSnapshot.read at h
  split at h
  · split at h
    · split_ifs at h with hcap hmax htarget
      obtain ⟨⟨nodes, rest⟩, hnodes, h⟩ := Result.bind_eq_ok.1 h
      obtain ⟨hlen, hpop⟩ := readNodes_eq_ok hnodes
      simp only at h
      split_ifs at h
      obtain rfl := Except.ok.inj h
      exact ⟨by simpa using hcap, Nat.not_lt.1 hmax, hlen, Nat.not_le.1 htarget, hpop⟩
    · cases h
  · cases h

variable [DecidableEq β]

/-- What a successful join did: it opened the welcome, checked its snapshot against the commit,
and applied the commit to it. -/
theorem join_eq_ok {kp : MyLeafKeyPackage β} {welcome : Welcome β} {c : Commit β} {j : Group β}
    (h : Group.join kp welcome c = .ok j) :
    ∃ plaintext snapshotBytes snapshotSignature s identity,
      openFromNode kp.dhSecret kp.kemSecret welcomeAadContext welcome.sealedSnapshot =
        .ok plaintext ∧
      unframe plaintext = some [snapshotBytes, snapshotSignature] ∧
      WelcomeSnapshot.read snapshotBytes = .ok s ∧ c.groupId = s.groupId ∧
      c.fromEpoch = s.epoch ∧ addsMember kp s.targetLeaf c.op = true ∧
      (ofSnapshot kp s).memberIdentity c.senderLeaf = some identity ∧
      verify identity (welcomeSignedBytes snapshotBytes) snapshotSignature = true ∧
      (ofSnapshot kp s).applyCommit c = .ok j := by
  obtain ⟨plaintext, hopen, h⟩ := Result.bind_eq_ok.1 h
  split at h
  · rename_i snapshotBytes snapshotSignature hframe
    obtain ⟨s, hread, h⟩ := Result.bind_eq_ok.1 h
    split_ifs at h with hgid hfrom hadds
    split at h
    · cases h
    · rename_i identity hid
      split_ifs at h with hverify
      exact ⟨plaintext, snapshotBytes, snapshotSignature, s, identity, hopen, hframe, hread,
        not_not.1 hgid, not_not.1 hfrom, by simpa using hadds, hid, by simpa using hverify, h⟩
  · cases h

/-- A commit that was accepted leads to a sound group, from ranges that say nothing about the
epoch. -/
theorem sound_of_applyCommit {g g' : Group β} {c : Commit β}
    (hcap : capacityValid g.capacity = true) (hmax : g.capacity ≤ maxCapacity)
    (hlen : g.nodes.length = 2 * g.capacity - 1) (hleaf : g.myLeaf < g.capacity)
    (h : g.applyCommit c = .ok g') : g'.Sound := by
  obtain ⟨pre, level, secret, rootSecret, known, ha⟩ :=
    applyCommit_eq_ok (two_le_of_capacityValid hcap) h
  have hep := ha.epoch
  exact Sound.next ⟨hcap, hmax, hlen, by omega, hleaf⟩ ha.spliced ha.epoch ha.view ha.myLeaf

theorem sound_of_join {kp : MyLeafKeyPackage β} {welcome : Welcome β} {c : Commit β}
    {j : Group β} (h : Group.join kp welcome c = .ok j) : j.Sound := by
  obtain ⟨_, _, _, s, _, -, -, hread, -, -, -, -, -, happly⟩ := join_eq_ok h
  obtain ⟨hcap, hmax, hlen, htarget, -⟩ := read_eq_ok hread
  exact sound_of_applyCommit (g := ofSnapshot kp s) hcap hmax hlen htarget happly

omit [DecidableEq β] in
/-- Whatever was proposed, one commit was made. -/
theorem commit_of_propose {g g' : Group β} {signer : β} {coins : CommitCoins β} {p : Proposal β}
    {c : Commit β} {welcome : Option (Welcome β)}
    (h : g.propose signer coins p = .ok (g', c, welcome)) :
    ∃ op, g.commit signer coins op = .ok (g', c) ∧
      ∀ leaf lp, op = .add leaf lp → p = .add lp ∧ g.firstBlankLeaf = some leaf := by
  rcases propose_eq_ok h with ⟨pkg, w, rfl, -, hadd⟩ | ⟨leaf, -, -, hc⟩ | ⟨-, -, hc⟩
  · obtain ⟨target, ht, hc, -⟩ := proposeAdd_eq_ok hadd
    refine ⟨_, hc, fun leaf lp he => ?_⟩
    obtain ⟨rfl, rfl⟩ := GroupOp.add.inj he
    exact ⟨rfl, ht⟩
  · exact ⟨_, hc, fun _ _ he => by cases he⟩
  · exact ⟨_, hc, fun _ _ he => by cases he⟩

/-- **Every group of a process is sound**, whatever it was handed. -/
theorem sound_of_reachable {ok : Process β → Call β → Prop} {w : Process β}
    (h : (processMachine β).Reachable ok w) {i : ℕ} {g : Group β} (hg : w.groups i = some g) :
    g.Sound := by
  refine Machine.Reachable.invariant (I := fun w => ∀ i g, w.groups i = some g → g.Sound)
    ?_ ?_ h i g hg
  · rintro w rfl i g hg
    cases hg
  · intro w w' a _ ih _ hs j g hg
    cases Process.step_cases hs with
    | create h =>
      rcases Process.groups_setGroup_eq_some.1 hg with ⟨-, rfl⟩ | ⟨-, hg⟩
      · exact sound_of_create h
      · exact ih j g hg
    | join h =>
      rcases Process.groups_setGroup_eq_some.1 hg with ⟨-, rfl⟩ | ⟨-, hg⟩
      · exact sound_of_join h
      · exact ih j g hg
    | @propose i signer coins p g₀ g₁ c welcome hg₀ h =>
      rcases Process.groups_setGroup_eq_some.1 hg with ⟨-, rfl⟩ | ⟨-, hg⟩
      · obtain ⟨op, hc, -⟩ := commit_of_propose h
        have hsound := ih i g₀ hg₀
        obtain ⟨-, hepoch, pre, hpre, -, hadv⟩ := commit_eq_ok hsound.two_le hc
        exact hsound.next hpre hepoch hadv.view hadv.myLeaf
      · exact ih j g hg
    | @applyCommit i c g₀ g₁ hg₀ h =>
      rcases Process.groups_setGroup_eq_some.1 hg with ⟨-, rfl⟩ | ⟨-, hg⟩
      · have hsound := ih i g₀ hg₀
        exact sound_of_applyCommit hsound.capacity hsound.max hsound.length hsound.myLeaf h
      · exact ih j g hg
    | @sealRecord i plaintext record g₀ g₁ hg₀ h =>
      rcases Process.groups_setGroup_eq_some.1 hg with ⟨-, rfl⟩ | ⟨-, hg⟩
      · exact (ih i g₀ hg₀).congr (sameCore_sealRecord h)
      · exact ih j g hg
    | @openRecord i record g₀ hg₀ =>
      rcases Process.groups_setGroup_eq_some.1 hg with ⟨-, rfl⟩ | ⟨-, hg⟩
      · exact (ih i g₀ hg₀).congr (sameCore_openRecord g₀ record)
      · exact ih j g hg
    | sign => exact ih j g hg

end Soundness

/-! ### Symbolic calls -/

/-- A call that draws names, or hands over what an earlier commit call returned; `e` counts the
commits made since. -/
inductive SymCall
  | create (i owner k capacity : ℕ)
  | join (i owner k e : ℕ)
  | propose (i owner : ℕ) (p : SymProposal)
  | applyCommit (i e : ℕ)
  deriving DecidableEq

/-- The call, with its names and messages. -/
def SymCall.toCall (w : Process Bytes) : SymCall → Option (Call Bytes)
  | .create i owner k capacity =>
    some (.create i (.name (.identity owner)) capacity (.name (.leafDh k)) (.name (.leafKem k))
      (.name .groupId) (.name .init))
  | .join i owner k e => do
    let m ← w.made[e]?
    let welcome ← m.welcome
    some (.join i (.name (.identity owner)) (.name (.leafDh k)) (.name (.leafKem k)) welcome
      m.commit)
  | .propose i owner p =>
    some (.propose i (.name (.identity owner)) (coinsOf w.made.length) p.toProposal)
  | .applyCommit i e => do
    let m ← w.made[e]?
    some (.applyCommit i m.commit)

/-- The process a list of calls leads to. -/
def runCalls : Process Bytes → List SymCall → Option (Process Bytes)
  | w, [] => some w
  | w, a :: as => do
    let call ← a.toCall w
    let w' ← w.step call
    runCalls w' as

theorem reachable_of_runCalls {ok : Process Bytes → Call Bytes → Prop} {w w' : Process Bytes}
    {as : List SymCall} (hw : (processMachine Bytes).Reachable ok w)
    (hok : ∀ w, ∀ a ∈ as, ∀ call, a.toCall w = some call → ok w call)
    (h : runCalls w as = some w') : (processMachine Bytes).Reachable ok w' := by
  induction as generalizing w with
  | nil =>
    cases h
    exact hw
  | cons a as ih =>
    simp only [runCalls, Option.bind_eq_bind, Option.bind_eq_some_iff] at h
    obtain ⟨call, hcall, w₁, hstep, h⟩ := h
    exact ih (hw.step (hok w a List.mem_cons_self call hcall) hstep)
      (fun u b hb => hok u b (List.mem_cons_of_mem _ hb)) h

end Group

end NovaChannel
