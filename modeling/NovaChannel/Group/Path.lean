import NovaChannel.Group.State

/-!
# Path updates

What the committer's loop over its direct path produces, and what a receiver makes of it.

* `pathSecrets` lists the secrets a seed gives the nodes of a path;
* `commitPath_cons` is one round of the committer's loop;
* `Ready g pre c` : the member `g` holds the key of every populated node above its leaf that
  is not above `c` in the tree `pre`;
* `findAndDecrypt_of_ready` : **a ready member decrypts at the first node above both leaves**,
  and finds the committer's path secret of that node;
* `findAndDecrypt_of_unreachable` : a member none of whose keys is a target decrypts nothing.
-/

namespace NovaChannel

namespace Group

open Crypto

section PathSecrets

variable {β : Type} [Crypto β]

/-- The secrets of the nodes of a path, from the secret of its first node. -/
def pathSecrets : List ℕ → β → List (ℕ × β)
  | [], _ => []
  | d :: path, secret => (d, secret) :: pathSecrets path (pathStep secret)

@[simp] theorem length_pathSecrets (path : List ℕ) (secret : β) :
    (pathSecrets path secret).length = path.length := by
  induction path generalizing secret with
  | nil => rfl
  | cons d path ih => simp [pathSecrets, ih]

theorem drop_pathSecrets (low high : List ℕ) (secret : β) :
    (pathSecrets (low ++ high) secret).drop low.length =
      pathSecrets high (pathStep^[low.length] secret) := by
  induction low generalizing secret with
  | nil => rfl
  | cons d low ih =>
    simp only [List.cons_append, pathSecrets, List.length_cons, List.drop_succ_cons, ih,
      Function.iterate_succ_apply]

theorem lookup_pathSecrets_of_notMem {path : List ℕ} {d : ℕ} (h : d ∉ path) (secret : β) :
    (pathSecrets path secret).lookup d = none := by
  induction path generalizing secret with
  | nil => rfl
  | cons e path ih =>
    have hne : (d == e) = false := by
      simpa using fun he : d = e => h (he ▸ List.mem_cons_self)
    simp only [pathSecrets, List.lookup_cons, hne, ih fun hd => h (List.mem_cons_of_mem _ hd)]

theorem lookup_pathSecrets {path : List ℕ} (hnd : path.Nodup) {i d : ℕ}
    (hi : path[i]? = some d) (secret : β) :
    (pathSecrets path secret).lookup d = some (pathStep^[i] secret) := by
  induction path generalizing i secret with
  | nil => simp at hi
  | cons e path ih =>
    obtain ⟨he, hnd⟩ := List.nodup_cons.1 hnd
    cases i with
    | zero =>
      obtain rfl : e = d := by simpa using hi
      simp [pathSecrets]
    | succ i =>
      have hi' : path[i]? = some d := by simpa using hi
      have hne : (d == e) = false := by
        simpa using fun hd : d = e => he (hd ▸ List.mem_of_getElem? hi')
      simp only [pathSecrets, List.lookup_cons, hne, ih hnd hi', Function.iterate_succ_apply]

/-- The secret of the last node of a path does not depend on where one starts to count. -/
theorem lookup_drop_pathSecrets {low high : List ℕ} (hnd : (low ++ high).Nodup) {d : ℕ}
    (hd : d ∈ high) (secret : β) :
    (pathSecrets high (pathStep^[low.length] secret)).lookup d =
      (pathSecrets (low ++ high) secret).lookup d := by
  obtain ⟨i, hi⟩ := List.mem_iff_getElem?.1 hd
  have hi' : (low ++ high)[low.length + i]? = some d := by
    rw [List.getElem?_append_right (by omega), Nat.add_sub_cancel_left]; exact hi
  rw [lookup_pathSecrets (List.nodup_append.1 hnd).2.1 hi, lookup_pathSecrets hnd hi',
    Nat.add_comm, Function.iterate_add_apply]

end PathSecrets

/-! ### The committer's loop -/

section Committer

variable {β : Type} [Crypto β] {coins : ℕ → ℕ → SealCoins β} {nodes : List (TreeNode β)}
  {capacity : ℕ}

/-- Each target of a level is sent one ciphertext of the level's secret, and nothing else is
sent. -/
theorem sealTargets_eq_ok {coins : ℕ → SealCoins β} {secret : β} {targets : List ℕ}
    {cts : List (SealedToNode β)} (h : sealTargets coins nodes secret targets = .ok cts) :
    (∀ t ∈ targets, ∃ ct ∈ cts, ∃ pk, nodePublicKey nodes t = some pk ∧
      sealToNode (coins t) pk pathSecretAadContext secret = .ok ct) ∧
    (∀ ct ∈ cts, ∃ t ∈ targets, ∃ pk, nodePublicKey nodes t = some pk ∧
      sealToNode (coins t) pk pathSecretAadContext secret = .ok ct) := by
  obtain ⟨h1, h2⟩ := Result.mapM_eq_ok h
  constructor
  · intro t ht
    obtain ⟨ct, hct, h⟩ := h1 t ht
    obtain ⟨pk, hpk, h⟩ := Result.bind_eq_ok.1 h
    exact ⟨ct, hct, pk, Result.expect_eq_ok.1 hpk, h⟩
  · intro ct hct
    obtain ⟨t, ht, h⟩ := h2 ct hct
    obtain ⟨pk, hpk, h⟩ := Result.bind_eq_ok.1 h
    exact ⟨t, ht, pk, Result.expect_eq_ok.1 hpk, h⟩

/-- One round of the committer's loop. -/
theorem commitPath_cons {prev d : ℕ} {secret : β} {path : List ℕ}
    {pathNodes : List (UpdatePathNode β)} {newKnown : List (ℕ × β)}
    (h : commitPath coins nodes capacity prev secret (d :: path) = .ok (pathNodes, newKnown)) :
    ∃ s targets cts pathNodes' newKnown',
      sibling prev = some s ∧ resolution nodes capacity s = some targets ∧
      sealTargets (coins d) nodes secret targets = .ok cts ∧
      commitPath coins nodes capacity d (pathStep secret) path = .ok (pathNodes', newKnown') ∧
      pathNodes = ⟨(deriveNodeKeypair secret).public, cts⟩ :: pathNodes' ∧
      newKnown = (d, secret) :: newKnown' := by
  simp only [commitPath] at h
  obtain ⟨s, hs, h⟩ := Result.bind_eq_ok.1 h
  obtain ⟨targets, ht, h⟩ := Result.bind_eq_ok.1 h
  obtain ⟨cts, hc, h⟩ := Result.bind_eq_ok.1 h
  obtain ⟨⟨pathNodes', newKnown'⟩, hr, h⟩ := Result.bind_eq_ok.1 h
  simp only [Result.pure_eq_ok, Except.ok.injEq, Prod.mk.injEq] at h
  exact ⟨s, targets, cts, pathNodes', newKnown', Result.expect_eq_ok.1 hs,
    Result.expect_eq_ok.1 ht, hc, hr, h.1.symm, h.2.symm⟩

theorem commitPath_length {prev : ℕ} {secret : β} {path : List ℕ}
    {pathNodes : List (UpdatePathNode β)} {newKnown : List (ℕ × β)}
    (h : commitPath coins nodes capacity prev secret path = .ok (pathNodes, newKnown)) :
    pathNodes.length = path.length := by
  induction path generalizing prev secret pathNodes newKnown with
  | nil =>
    simp only [commitPath, Except.ok.injEq, Prod.mk.injEq] at h
    simp [← h.1]
  | cons d path ih =>
    obtain ⟨s, targets, cts, pathNodes', newKnown', -, -, -, hr, rfl, -⟩ := commitPath_cons h
    simp [ih hr]

/-- The committer keeps the path's secrets. -/
theorem commitPath_newKnown {prev : ℕ} {secret : β} {path : List ℕ}
    {pathNodes : List (UpdatePathNode β)} {newKnown : List (ℕ × β)}
    (h : commitPath coins nodes capacity prev secret path = .ok (pathNodes, newKnown)) :
    newKnown = pathSecrets path secret := by
  induction path generalizing prev secret pathNodes newKnown with
  | nil =>
    simp only [commitPath, Except.ok.injEq, Prod.mk.injEq] at h
    exact h.2.symm
  | cons d path ih =>
    obtain ⟨s, targets, cts, pathNodes', newKnown', -, -, -, hr, -, rfl⟩ := commitPath_cons h
    rw [ih hr, pathSecrets]

/-- The public keys of the path update are those of the path's secrets. -/
theorem commitPath_publicKey {prev : ℕ} {secret : β} {path : List ℕ}
    {pathNodes : List (UpdatePathNode β)} {newKnown : List (ℕ × β)}
    (h : commitPath coins nodes capacity prev secret path = .ok (pathNodes, newKnown)) :
    pathNodes.map (·.publicKey) =
      (pathSecrets path secret).map fun ds => (deriveNodeKeypair ds.2).public := by
  induction path generalizing prev secret pathNodes newKnown with
  | nil =>
    simp only [commitPath, Except.ok.injEq, Prod.mk.injEq] at h
    simp [← h.1, pathSecrets]
  | cons d path ih =>
    obtain ⟨s, targets, cts, pathNodes', newKnown', -, -, -, hr, rfl, -⟩ := commitPath_cons h
    simp [pathSecrets, ih hr]

/-- The upper part of a path update is a path update of the upper part. -/
theorem commitPath_append {prev : ℕ} {secret : β} {low high : List ℕ}
    {pathNodes : List (UpdatePathNode β)} {newKnown : List (ℕ × β)}
    (h : commitPath coins nodes capacity prev secret (low ++ high) = .ok (pathNodes, newKnown)) :
    ∃ prev' newKnown', commitPath coins nodes capacity prev'
      (pathStep^[low.length] secret) high = .ok (pathNodes.drop low.length, newKnown') := by
  induction low generalizing prev secret pathNodes newKnown with
  | nil => exact ⟨prev, newKnown, h⟩
  | cons d low ih =>
    obtain ⟨s, targets, cts, pathNodes', newKnown', -, -, -, hr, rfl, -⟩ := commitPath_cons h
    exact ih hr

variable [DecidableEq β]

/-- A receiver that starts from the right secret re-derives the published keys. -/
theorem verifyPath_commitPath {prev : ℕ} {secret : β} {path : List ℕ}
    {pathNodes : List (UpdatePathNode β)} {newKnown : List (ℕ × β)}
    (h : commitPath coins nodes capacity prev secret path = .ok (pathNodes, newKnown)) :
    verifyPath path pathNodes secret = .ok (pathSecrets path secret) := by
  induction path generalizing prev secret pathNodes newKnown with
  | nil => rfl
  | cons d path ih =>
    obtain ⟨s, targets, cts, pathNodes', newKnown', -, -, -, hr, rfl, -⟩ := commitPath_cons h
    simp only [verifyPath, ne_eq, not_true_eq_false, ↓reduceIte, ih hr, Result.ok_bind,
      Result.pure_eq_ok, pathSecrets]

end Committer

/-! ### The receiver's search -/

section Receiver

variable {β : Type} [Crypto β]

/-- The member's leaf, as a node. -/
def leafNode (g : Group β) : ℕ := leafToNode g.capacity g.myLeaf

/-- The member holds the key of its leaf in the tree `pre`, and of every populated node above
it that is not above the node `c`. -/
structure Ready (g : Group β) (pre : List (TreeNode β)) (c : ℕ) : Prop where
  leaf : ∃ lp dh kem, pre[g.leafNode]? = some (.leaf lp) ∧ g.myLeafKeys = some (dh, kem) ∧
    lp.publicKey = ⟨x25519Public dh, mlKemPublic kem⟩
  known : ∀ n pk, Below n g.leafNode → ¬ Below n c → pre[n]? = some (.parent pk) →
    ∃ s, g.knownSecrets n = some s ∧ (deriveNodeKeypair s).public = pk
  dom : ∀ n s, g.knownSecrets n = some s → Below n g.leafNode ∧ n ≠ g.leafNode

/-- Keys are held at nodes above the own leaf only. -/
theorem below_of_keysFor {g : Group β} (hdom : ∀ n s, g.knownSecrets n = some s →
    Below n g.leafNode ∧ n ≠ g.leafNode) {t : ℕ} {keys : β × β} (h : g.keysFor t = some keys) :
    Below t g.leafNode := by
  unfold keysFor at h
  split_ifs at h with ht
  · rw [ht]; exact .refl _
  · obtain ⟨s, hs, -⟩ := Option.map_eq_some_iff.1 h
    exact (hdom t s hs).1

/-- At a populated node above its leaf and not above `c`, a ready member holds the key pair of
the published key. -/
theorem Ready.keysFor {g : Group β} {pre : List (TreeNode β)} {c : ℕ} (hr : Ready g pre c)
    (hleaves : ∀ n lp, pre[n]? = some (.leaf lp) → Below n g.leafNode → n = g.leafNode)
    {t : ℕ} {v : TreeNode β} (hv : pre[t]? = some v) (hne : v ≠ .blank)
    (ht : Below t g.leafNode) (hc : ¬ Below t c) :
    ∃ keys, g.keysFor t = some keys ∧
      nodePublicKey pre t = some ⟨x25519Public keys.1, mlKemPublic keys.2⟩ := by
  obtain ⟨lp, dh, kem, hlp, hkeys, hpk⟩ := hr.leaf
  by_cases he : t = g.leafNode
  · refine ⟨(dh, kem), ?_, ?_⟩
    · have he' : t = leafToNode g.capacity g.myLeaf := he
      rw [Group.keysFor, if_pos he', hkeys]
    · simp only [nodePublicKey, he, hlp, hpk]
  · cases v with
    | blank => exact absurd rfl hne
    | leaf lp' => exact absurd (hleaves t lp' hv ht) he
    | parent pk =>
      obtain ⟨s, hs, rfl⟩ := hr.known t pk ht hc hv
      refine ⟨((deriveNodeKeypair s).dhSecret, (deriveNodeKeypair s).kemSecret), ?_, ?_⟩
      · have he' : ¬ t = leafToNode g.capacity g.myLeaf := he
        rw [Group.keysFor, if_neg he', hs]
        rfl
      · rw [nodePublicKey, hv]
        rfl

variable [LawfulCrypto β] {nodes : List (TreeNode β)} {secret : β}

/-- Whatever opens at a level is the secret sealed at that level. -/
theorem eq_of_openAny {coins : ℕ → SealCoins β} {g : Group β} {targets targets' : List ℕ}
    {cts : List (SealedToNode β)} {m : β} (hc : sealTargets coins nodes secret targets = .ok cts)
    (h : g.openAny targets' cts = some m) : m = secret := by
  obtain ⟨t, -, h⟩ := List.exists_of_findSome?_eq_some h
  obtain ⟨keys, -, h⟩ := Option.bind_eq_some_iff.1 h
  obtain ⟨ct, hct, h⟩ := List.exists_of_findSome?_eq_some h
  obtain ⟨t', -, pk, -, hs⟩ := (sealTargets_eq_ok hc).2 ct hct
  cases ho : openFromNode keys.1 keys.2 pathSecretAadContext ct with
  | error e => rw [ho] at h; cases h
  | ok m' =>
    rw [ho] at h
    obtain rfl : m' = m := Option.some.inj h
    exact eq_of_openFromNode hs ho

/-- A key pair whose public half is a target opens the level. -/
theorem openAny_isSome {coins : ℕ → SealCoins β} {g : Group β} {targets : List ℕ}
    {cts : List (SealedToNode β)} (hc : sealTargets coins nodes secret targets = .ok cts)
    {t : ℕ} (ht : t ∈ targets) {keys : β × β} (hkeys : g.keysFor t = some keys)
    (hpk : nodePublicKey nodes t = some ⟨x25519Public keys.1, mlKemPublic keys.2⟩) :
    (g.openAny targets cts).isSome = true := by
  obtain ⟨ct, hct, pk, hpk', hs⟩ := (sealTargets_eq_ok hc).1 t ht
  obtain rfl := Option.some.inj (hpk.symm.trans hpk')
  simp only [openAny, List.findSome?_isSome_iff]
  refine ⟨t, ht, ?_⟩
  rw [hkeys, Option.bind_some, List.findSome?_isSome_iff]
  exact ⟨ct, hct, by rw [openFromNode_sealToNode hs]; rfl⟩

variable {coins : ℕ → ℕ → SealCoins β} {g : Group β} {pre : List (TreeNode β)} {c : ℕ}

/-- **A ready member decrypts at the first node above both leaves**, and finds the committer's
path secret of that node. -/
theorem findAndDecrypt_of_ready (hr : Ready g pre c) (hlen : pre.length = 2 * g.capacity - 1)
    (hleaves : ∀ n lp, pre[n]? = some (.leaf lp) → g.capacity - 1 ≤ n)
    {prev : ℕ} {path : List ℕ} (hp : IsPath prev path) :
    ∀ {i : ℕ} {secret : β} {pathNodes : List (UpdatePathNode β)} {newKnown : List (ℕ × β)},
      commitPath coins pre g.capacity prev secret path = .ok (pathNodes, newKnown) →
      len32 secret = true → prev < 2 * g.capacity - 1 → Below prev c → ¬ Below prev g.leafNode →
      ∃ low high, path = low ++ high ∧ (∀ d ∈ low, ¬ Below d g.leafNode) ∧
        (∀ d ∈ high, Below d g.leafNode) ∧
        g.findAndDecrypt pre i prev path pathNodes =
          .ok (i + low.length, pathStep^[low.length] secret) := by
  have hleaf : g.capacity - 1 ≤ g.leafNode := Nat.le_add_right _ _
  obtain ⟨lp, -, -, hlp, -, -⟩ := hr.leaf
  have hleafLt : g.leafNode < pre.length := (List.getElem?_eq_some_iff.1 hlp).1
  induction hp with
  | root => intro _ _ _ _ _ _ _ _ h; exact absurd (below_zero _) h
  | @step prev path hn hp ih =>
    intro i secret pathNodes newKnown hcp h32 hlt hprev hnot
    obtain ⟨s, targets, cts, pathNodes', newKnown', hs, ht, hcts, hrest, rfl, rfl⟩ :=
      commitPath_cons hcp
    obtain ⟨s', hs', -, -, -, hsplit, hdisj⟩ := sibling_spec hn
    obtain rfl : s' = s := Option.some.inj (hs'.symm.trans hs)
    simp only [findAndDecrypt, hs, ht, Result.expect_some, Result.ok_bind]
    by_cases hbelow : Below s' g.leafNode
    · -- the sibling subtree holds the own leaf: its resolution has a node above it
      obtain ⟨t, htm, htl⟩ := resolution_covers (by rw [hlen]) ht hbelow hlp (by simp)
      obtain ⟨hst, ⟨v, hv, hvne⟩, -⟩ := mem_resolution ht htm
      obtain ⟨keys, hkeys, hpk⟩ := hr.keysFor (fun n lp' hn' hb =>
        (eq_of_below_leaf (hleaves n lp' hn') (by omega) hb).symm) hv hvne htl
        (fun h => hdisj c hprev (hst.trans h))
      obtain ⟨m, hm⟩ := Option.isSome_iff_exists.1 (openAny_isSome hcts htm hkeys hpk)
      obtain rfl := eq_of_openAny hcts hm
      refine ⟨[], (prev - 1) / 2 :: path, rfl, by simp, fun d hd => ?_, ?_⟩
      · have hpl : Below ((prev - 1) / 2) g.leafNode := (hsplit _).2 (.inr (.inr hbelow))
        rcases List.mem_cons.1 hd with rfl | hd
        · exact hpl
        · exact (hp.mem_iff.1 hd).1.trans hpl
      · simp [hm, h32]
    · -- no key held is below the sibling: go one level up
      have hnone : g.openAny targets cts = none := by
        refine List.findSome?_eq_none_iff.2 fun t htm => ?_
        have hk : g.keysFor t = none := by
          refine Option.eq_none_iff_forall_ne_some.2 fun keys hk => hbelow ?_
          exact (mem_resolution ht htm).1.trans (below_of_keysFor hr.dom hk)
        rw [hk, Option.bind_none]
      have hnp : ¬ Below ((prev - 1) / 2) g.leafNode := by
        rw [hsplit]
        rintro (h | h | h)
        · omega
        · exact hnot h
        · exact hbelow h
      obtain ⟨low, high, hpath, hlow, hhigh, hf⟩ := ih (i := i + 1) hrest
        (LawfulCrypto.len32_hkdfExpand _ _) (by omega) ((below_parent hn).trans hprev) hnp
      refine ⟨(prev - 1) / 2 :: low, high, by rw [hpath]; rfl, ?_, hhigh, ?_⟩
      · rintro d (_ | ⟨_, hd⟩)
        · exact hnp
        · exact hlow d hd
      · rw [hnone]
        simp only [hf, List.length_cons, Function.iterate_succ_apply]
        congr 2
        omega

omit [LawfulCrypto β] in
/-- **A member whose every key is blank or shadowed in the tree decrypts nothing.** -/
theorem findAndDecrypt_of_unreachable
    (hkeys : ∀ t keys v, g.keysFor t = some keys → pre[t]? = some v → v ≠ .blank →
      ∃ a w, Below a t ∧ a ≠ t ∧ ¬ Below a c ∧ pre[a]? = some w ∧ w ≠ .blank)
    {prev : ℕ} {path : List ℕ} (hp : IsPath prev path) :
    ∀ {i : ℕ} {secret : β} {pathNodes : List (UpdatePathNode β)} {newKnown : List (ℕ × β)},
      commitPath coins pre g.capacity prev secret path = .ok (pathNodes, newKnown) →
      Below prev c →
      g.findAndDecrypt pre i prev path pathNodes = .err .commitNotDecryptable := by
  induction hp with
  | root => intro _ _ _ _ _ _; simp [findAndDecrypt]
  | @step prev path hn hp ih =>
    intro i secret pathNodes newKnown hcp hprev
    obtain ⟨s, targets, cts, pathNodes', newKnown', hs, ht, hcts, hrest, rfl, rfl⟩ :=
      commitPath_cons hcp
    obtain ⟨s', hs', hs0, hsp, -, -, -⟩ := sibling_spec hn
    obtain rfl : s' = s := Option.some.inj (hs'.symm.trans hs)
    simp only [findAndDecrypt, hs, ht, Result.expect_some, Result.ok_bind]
    have hnone : g.openAny targets cts = none := by
      refine List.findSome?_eq_none_iff.2 fun t htm => ?_
      have hk : g.keysFor t = none := by
        refine Option.eq_none_iff_forall_ne_some.2 fun keys hk => ?_
        obtain ⟨hst, ⟨v, hv, hvne⟩, hblank⟩ := mem_resolution ht htm
        obtain ⟨a, w, hat, hane, hac, haw, hwne⟩ := hkeys t keys v hk hv hvne
        have hsa : Below s' a := by
          rcases hst.total hat with h | h
          · exact h
          · -- `a` is above the sibling: it is the sibling or above the committer
            rcases (below_iff_parent hs0).1 h with h' | h'
            · exact h' ▸ .refl _
            · rw [hsp] at h'
              exact absurd ((h'.trans (below_parent hn)).trans hprev) hac
        rw [hblank a hsa hat hane] at haw
        exact hwne (Option.some.inj haw).symm
      rw [hk, Option.bind_none]
    rw [hnone]
    exact ih hrest ((below_parent hn).trans hprev)

end Receiver

end Group

end NovaChannel
