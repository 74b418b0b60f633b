import NovaChannel.Group.Process

/-!
# A committer cannot split the group

Two members of one epoch are handed the same commit.  They open its path at different levels, with
different keys, and the committer chose the ciphertexts.

* `KeysBindSecrets` : the public key derived from a path secret determines the secret;
* `rootSecret_eq` : two members that accept one commit mix in the same secret;
* `applyCommit_agree` : **whoever accepts the commit reaches the same epoch**.
-/

namespace NovaChannel

namespace Group

open Crypto Term

section Definitions

variable (β : Type) [Crypto β]

/-- `derive_node_keypair` gives different path secrets different public keys. -/
structure KeysBindSecrets : Prop where
  /-- HKDF returns as many bytes as it is asked for. -/
  len32 (prk info : β) : len32 (hkdfExpand 32 prk info) = true
  injective (s s' : β) (hs : Crypto.len32 s = true) (hs' : Crypto.len32 s' = true)
    (h : (deriveNodeKeypair s).public = (deriveNodeKeypair s').public) : s = s'

end Definitions

section Agreement

variable {β : Type} [Crypto β] [DecidableEq β] {c : Commit β}

/-- Two members of trees of one size that accept one commit mix in the same secret, wherever
each of them decrypted. -/
theorem rootSecret_eq {g₁ g₂ g₁' g₂' : Group β} {pre₁ pre₂ : List (TreeNode β)}
    {level₁ level₂ : ℕ} {secret₁ secret₂ root₁ root₂ : β} {known₁ known₂ : List (ℕ × β)}
    (hkeys : KeysBindSecrets β) (hcap₁ : 2 ≤ g₁.capacity) (hcap₂ : 2 ≤ g₂.capacity)
    (h₁ : Accepted g₁ c pre₁ level₁ secret₁ root₁ known₁ g₁')
    (h₂ : Accepted g₂ c pre₂ level₂ secret₂ root₂ known₂ g₂') : root₁ = root₂ := by
  obtain ⟨hlen₁, node₁, hnode₁, hkey₁⟩ := h₁.rootKey hcap₁ hkeys.len32
  obtain ⟨hlen₂, node₂, hnode₂, hkey₂⟩ := h₂.rootKey hcap₂ hkeys.len32
  -- both keys are the one the commit publishes for the root
  obtain rfl : node₁ = node₂ := Option.some.inj (hnode₁.symm.trans hnode₂)
  exact hkeys.injective _ _ hlen₁ hlen₂ (hkey₁.trans hkey₂.symm)

/-- **Agreement under a malicious committer.**  Two groups, in whatever hands, that share the
group id, the epoch, the epoch secret, the transcript hash and the tree are handed the same
commit; if both accept it, they share the new epoch. -/
theorem applyCommit_agree (hkeys : KeysBindSecrets β)
    {ok₁ ok₂ : Process β → Call β → Prop} {w₁ w₂ : Process β} {i₁ i₂ : ℕ}
    {g₁ g₂ g₁' g₂' : Group β} (hw₁ : (processMachine β).Reachable ok₁ w₁)
    (hw₂ : (processMachine β).Reachable ok₂ w₂) (hg₁ : w₁.groups i₁ = some g₁)
    (hg₂ : w₂.groups i₂ = some g₂) (hid : g₁.groupId = g₂.groupId) (hepoch : g₁.epoch = g₂.epoch)
    (hsecret : g₁.epochSecret = g₂.epochSecret)
    (hhash : g₁.transcriptHash = g₂.transcriptHash) (hnodes : g₁.nodes = g₂.nodes)
    (h₁ : g₁.applyCommit c = .ok g₁') (h₂ : g₂.applyCommit c = .ok g₂') :
    g₁'.groupId = g₂'.groupId ∧ g₁'.epoch = g₂'.epoch ∧ g₁'.epochSecret = g₂'.epochSecret ∧
      g₁'.applicationSecret = g₂'.applicationSecret ∧
      g₁'.transcriptHash = g₂'.transcriptHash ∧ g₁'.nodes = g₂'.nodes := by
  have hs₁ := sound_of_reachable hw₁ hg₁
  have hs₂ := sound_of_reachable hw₂ hg₂
  -- trees of one length have one capacity
  have hcap : g₁.capacity = g₂.capacity := by
    have hlen : 2 * g₁.capacity - 1 = 2 * g₂.capacity - 1 := by
      rw [← hs₁.length, ← hs₂.length, hnodes]
    have := hs₁.two_le
    have := hs₂.two_le
    omega
  obtain ⟨pre₁, level₁, secret₁, root₁, known₁, ha₁⟩ := applyCommit_eq_ok hs₁.two_le h₁
  obtain ⟨pre₂, level₂, secret₂, root₂, known₂, ha₂⟩ := applyCommit_eq_ok hs₂.two_le h₂
  have hpre : pre₁ = pre₂ := by
    have hsp := ha₁.spliced
    rw [hnodes, hcap, ha₂.spliced] at hsp
    exact (Except.ok.inj hsp).symm
  have hview : g₁'.view = g₂'.view := by
    rw [ha₁.view, ha₂.view, rootSecret_eq hkeys hs₁.two_le hs₂.two_le ha₁ ha₂, hid, hcap, hpre,
      hepoch, hsecret, hhash]
  obtain ⟨hid', -, hnodes', hepoch', hsecret', hhash'⟩ := View.mk.inj hview
  exact ⟨hid', hepoch', hsecret', by rw [ha₁.app, ha₂.app, hsecret'], hhash', hnodes'⟩

end Agreement

/-! ### Three members -/

/-- Symbolic public keys determine the path secret. -/
theorem keysBindSecrets_bytes : KeysBindSecrets Bytes where
  len32 _ _ := rfl
  injective s s' _ _ h := by
    have hdh : dhPublic (.fn (.slice 0 32) (.fn (.expand 96) (.fn .extract .nil s)
        labelNodeKeygen) .nil) =
      dhPublic (.fn (.slice 0 32) (.fn (.expand 96) (.fn .extract .nil s')
        labelNodeKeygen) .nil) := congrArg NodePublicKey.dhPublic h
    simpa [dhPublic] using hdh

/-- The founder adds two members; the second one updates its path. -/
def threeCalls : List SymCall :=
  [.create 0 0 0 4, .propose 0 0 (.add 1 1), .join 1 1 1 0, .propose 0 0 (.add 2 2),
    .applyCommit 1 0, .join 2 2 2 0, .propose 2 2 .update]

/-- The other two are at different leaves of the same epoch and accept the update. -/
def bothAccept (w : Process Bytes) : Bool :=
  match w.groups 0, w.groups 1, w.made.head? with
  | some g₀, some g₁, some e =>
    decide (g₀.myLeaf ≠ g₁.myLeaf ∧ g₀.groupId = g₁.groupId ∧ g₀.epoch = g₁.epoch ∧
      g₀.epochSecret = g₁.epochSecret ∧ g₀.transcriptHash = g₁.transcriptHash ∧
      g₀.nodes = g₁.nodes) &&
    (g₀.applyCommit e.commit).isOk && (g₁.applyCommit e.commit).isOk
  | _, _, _ => false

/-- The founder and the first member, at leaves 0 and 1, accept the update of the member at
leaf 2 and agree. -/
theorem applyCommit_agree_threeCalls : ∃ w g₀ g₁ g₀' g₁' c,
    runCalls .empty threeCalls = some w ∧ w.groups 0 = some g₀ ∧ w.groups 1 = some g₁ ∧
    g₀.myLeaf ≠ g₁.myLeaf ∧ g₀.applyCommit c = .ok g₀' ∧ g₁.applyCommit c = .ok g₁' ∧
    g₀'.epochSecret = g₁'.epochSecret ∧ g₀'.nodes = g₁'.nodes := by
  have hrun : (runCalls .empty threeCalls).map bothAccept = some true := by decide +kernel
  obtain ⟨w, hw, hp⟩ := Option.map_eq_some_iff.1 hrun
  have hr : (processMachine Bytes).Reachable Anything w :=
    reachable_of_runCalls (.init rfl) (fun _ _ _ _ _ => trivial) hw
  unfold bothAccept at hp
  split at hp
  · rename_i g₀ g₁ e hg₀ hg₁ he
    simp only [Bool.and_eq_true, decide_eq_true_eq] at hp
    obtain ⟨⟨⟨hleaf, hid, hepoch, hsecret, hhash, hnodes⟩, h₀⟩, h₁⟩ := hp
    obtain ⟨g₀', h₀⟩ := Result.exists_of_isOk h₀
    obtain ⟨g₁', h₁⟩ := Result.exists_of_isOk h₁
    obtain ⟨-, -, hsecret', -, -, hnodes'⟩ := applyCommit_agree keysBindSecrets_bytes hr hr
      hg₀ hg₁ hid hepoch hsecret hhash hnodes h₀ h₁
    exact ⟨w, g₀, g₁, g₀', g₁', e.commit, hw, hg₀, hg₁, hleaf, h₀, h₁, hsecret', hnodes'⟩
  · cases hp

end Group

end NovaChannel
