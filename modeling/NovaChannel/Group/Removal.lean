import NovaChannel.Group.Secrecy

/-!
# Removed members

What a removed member keeps, in every symbolic run.

* `World.Tainted` : the path secrets of the levels above a leaf with a given key;
* `removalPolicy` : the policy under which these and the epoch secrets up to the removal are all a
  removed member ever gets;
* `removed_excluded` : **a member removed by another one derives no later epoch and accepts no
  later commit**;
* `leaver_not_excluded` : **a member that removed itself always has the secrets of the next
  epoch**.
-/

namespace NovaChannel

namespace Group

open Crypto Term

/-! ### Tainted path secrets -/

section Tainted

variable {w : World Bytes}

/-- The keys of the key package `k`. -/
def packageSecrets (k : ℕ) : Bytes × Bytes := (.name (.leafDh k), .name (.leafKem k))

/-- After the commit of epoch `q`, a leaf with the public key of package `k` stands below the
`i`-th node of the commit's path. -/
def World.Tainted (w : World Bytes) (k q i : ℕ) : Prop :=
  ∃ e u n leaf, w.log[q]? = some e ∧ w.views[q + 1]? = some u ∧
    (directPath u.capacity e.commit.senderLeaf)[i]? = some n ∧ Below n (u.node leaf) ∧
    u.HasKey leaf (packageSecrets k)

/-- Further along a path means further up the tree. -/
theorem IsPath.below_next {n : ℕ} {path : List ℕ} (h : IsPath n path) {i a b : ℕ}
    (ha : path[i]? = some a) (hb : path[i + 1]? = some b) : Below b a := by
  induction h generalizing i with
  | root => simp at ha
  | @step n path hn hp ih =>
    cases i with
    | zero =>
      obtain rfl : (n - 1) / 2 = a := by simpa using ha
      have hmem : b ∈ path := List.mem_of_getElem? (i := 0) (by simpa using hb)
      exact (hp.mem_iff.1 hmem).1
    | succ i => exact ih (by simpa using ha) (by simpa using hb)

theorem World.Tainted.succ {k q i : ℕ} (h : w.Tainted k q i) {e : Entry Bytes} {u : View Bytes}
    {n : ℕ} (he : w.log[q]? = some e) (hu : w.views[q + 1]? = some u)
    (hn : (directPath u.capacity e.commit.senderLeaf)[i + 1]? = some n) :
    w.Tainted k q (i + 1) := by
  obtain ⟨e', u', n', leaf, he', hu', hn', hb, hkey⟩ := h
  obtain rfl := Option.some.inj (he.symm.trans he')
  obtain rfl := Option.some.inj (hu.symm.trans hu')
  exact ⟨e, u, n, leaf, he, hu, hn, ((isPath_directPath _ _).below_next hn' hn).trans hb, hkey⟩

theorem secretAt_succ (q i : ℕ) : secretAt q (i + 1) = pathStep (secretAt q i) :=
  Function.iterate_succ_apply' ..

theorem pathStep_injective {s t : Bytes} (h : pathStep s = pathStep t) : s = t := by
  injection h with _ h _
  injection h with _ _ h

theorem secretAt_inj {q i q' i' : ℕ} (h : secretAt q i = secretAt q' i') : q = q' ∧ i = i' := by
  induction i generalizing i' with
  | zero =>
    cases i' with
    | zero =>
      injection h with h
      exact ⟨Name.pathSecret.inj h, rfl⟩
    | succ i' => rw [secretAt_succ] at h; cases h
  | succ i ih =>
    cases i' with
    | zero => rw [secretAt_succ] at h; cases h
    | succ i' =>
      rw [secretAt_succ, secretAt_succ] at h
      obtain ⟨rfl, rfl⟩ := ih (pathStep_injective h)
      exact ⟨rfl, rfl⟩

/-- An epoch secret is not a path secret. -/
theorem epochSecret_ne_pathStep (h : w.Sym) (hl : w.Linked) {p : ℕ} {v : View Bytes} {s : Bytes}
    (hv : w.views[p]? = some v) : v.epochSecret ≠ pathStep s := by
  obtain ⟨prk, info, hes, hinfo⟩ := epochSecret_label h hl hv
  intro he
  rw [hes] at he
  injection he with _ _ he
  subst he
  rcases hinfo with hinfo | ⟨th, hinfo⟩
  · exact absurd hinfo (by decide)
  · cases hinfo

/-! ### The policy of a removal -/

/-- Hidden: the path secrets that are not tainted, every KEM key but that of package `k`, and all
randomness.  Handed out: the tainted path secrets and the epoch secrets up to `last`. -/
def World.removalPolicy (w : World Bytes) (last k : ℕ) : Policy Name where
  secret
    | .leafKem k' => k' ≠ k
    | .kemRandom .. => True
    | .welcomeKem _ => True
    | .pathSecret q => ¬ w.Tainted k q 0
    | _ => False
  exposed t := (∃ (j : ℕ) (v : View Bytes), j ≤ last ∧ w.views[j]? = some v ∧
      t = v.epochSecret) ∨
    ∃ q i, w.Tainted k q (i + 1) ∧ t = secretAt q (i + 1)

theorem plain_removalPolicy (h : w.Sym) (hl : w.Linked) (last k : ℕ) :
    PlainPolicy (w.removalPolicy last k) := by
  refine ⟨?_, fun hs => hs⟩
  rintro _ (⟨j, v, -, hv, rfl⟩ | ⟨q, i, -, rfl⟩)
  · exact exposable_epochSecret h hl hv
  · rw [secretAt_succ]
    exact ⟨_, _, rfl, .inl rfl⟩

theorem safe_of_tainted (h : w.Sym) (hl : w.Linked) {last k q i : ℕ} (ht : w.Tainted k q i) :
    (w.removalPolicy last k).Safe (secretAt q i) := by
  cases i with
  | zero => exact fun hs => hs ht
  | succ i => exact (plain_removalPolicy h hl last k).safe_of_exposed (.inr ⟨q, i, ht, rfl⟩)

/-- **A path secret is safe only when it is tainted.** -/
theorem tainted_of_safe (h : w.Sym) (hl : w.Linked) {last k q i n : ℕ} {e : Entry Bytes}
    {u : View Bytes} (he : w.log[q]? = some e) (hu : w.views[q + 1]? = some u)
    (hn : (directPath u.capacity e.commit.senderLeaf)[i]? = some n)
    (hs : (w.removalPolicy last k).Safe (secretAt q i)) : w.Tainted k q i := by
  induction i generalizing n with
  | zero => exact not_not.1 hs
  | succ i ih =>
    rw [secretAt_succ, (plain_removalPolicy h hl last k).safe_pathStep] at hs
    rcases hs with (⟨j, v, -, hv, heq⟩ | ⟨q', i', ht, heq⟩) | hs
    · exact absurd heq.symm (epochSecret_ne_pathStep h hl hv)
    · rw [← secretAt_succ] at heq
      obtain ⟨rfl, hi⟩ := secretAt_inj heq
      rwa [hi]
    · have hlt := (List.getElem?_eq_some_iff.1 hn).1
      exact (ih (List.getElem?_eq_getElem (by omega)) hs).succ he hu hn

/-- No leaf of a later epoch than `last` has the key of package `k`. -/
def World.GoneAfter (w : World Bytes) (last k : ℕ) : Prop :=
  ∀ (q : ℕ) u leaf, last < q → w.views[q]? = some u → ¬ u.HasKey leaf (packageSecrets k)

/-- **No epoch secret after `last` is safe** once the key is gone from the tree. -/
theorem not_safe_of_gone (h : w.Sym) (hl : w.Linked) {last k j : ℕ} {v : View Bytes}
    (hgone : w.GoneAfter last k) (hj : last < j) (hv : w.views[j]? = some v) :
    ¬ (w.removalPolicy last k).Safe v.epochSecret := by
  obtain ⟨p, rfl⟩ : ∃ p, j = p + 1 := ⟨j - 1, by omega⟩
  have hlt := (List.getElem?_eq_some_iff.1 hv).1
  have hlen := hl.length
  obtain ⟨u, hu⟩ := hl.getElem?_views (p := p) (by omega)
  obtain ⟨e, he, hes⟩ := hl.epochSecret_succ hu hv
  have hcap : v.capacity = u.capacity := hl.capacity_eq hv hu
  intro hs
  rw [hes, (plain_removalPolicy h hl last k).safe_nextEpochSecret, ← hes] at hs
  rcases hs with (⟨i, u', hi, hu', heq⟩ | ⟨q, i, -, heq⟩) | ⟨⟨-, hs⟩, -⟩
  · have := epochSecret_inj h hl hv hu' heq
    omega
  · rw [secretAt_succ] at heq
    exact epochSecret_ne_pathStep h hl hv heq
  · -- the commit secret is the secret of the root, and no leaf with the key is left below it
    rw [(h.entry p e he).1] at hs
    have hlast := (hl.wf p u hu).1.getLast? e.commit.senderLeaf
    rw [List.getLast?_eq_getElem?, ← hcap] at hlast
    rw [← hcap] at hs
    obtain ⟨-, u', -, leaf, -, hu', -, -, hkey⟩ := tainted_of_safe h hl he hv hlast hs
    exact hgone (p + 1) u' leaf hj hu' hkey

/-! ### What is broadcast -/

/-- **A path ciphertext that opens with the key of package `k` carries a tainted secret.** -/
theorem safe_commits_of_removal (h : w.Sym) (hl : w.Linked) (last k : ℕ) :
    ∀ t ∈ w.commits, (w.removalPolicy last k).Safe t := by
  have hP := plain_removalPolicy h hl last k
  rintro _ ⟨e, he, rfl⟩
  obtain ⟨p, he⟩ := List.mem_iff_getElem?.1 he
  obtain ⟨v, pre, hv, hc, hpre, hnext, -⟩ := hl.entry p e he
  refine safe_commit hP h hl hv he hc fun i d t a b hi hdt hpk hor => ?_
  have hb : (w.removalPolicy last k).Safe b := hor.resolve_right fun hr => hr trivial
  refine safe_of_tainted h hl ?_
  rcases h.target hl hv he hc hpk with ⟨owner, k', hleaf, hkey⟩ | ⟨hpar, q, e', j, u, hq, he', hu,
    hj, hkey, hkeep⟩
  · -- sealed to a leaf: it is one with the key
    obtain rfl : b = .name (.leafKem k') := by
      have := (NodePublicKey.mk.inj hkey).2
      injection this
    obtain rfl : k' = k := not_not.1 hb
    obtain ⟨hle, -⟩ := hpre.leaf t _ hleaf
    obtain ⟨leaf, rfl⟩ : ∃ leaf, t = v.node leaf := ⟨t - (v.capacity - 1), by
      simp only [View.node, leafToNode]
      omega⟩
    have hnot : v.node leaf ∉ directPath v.capacity e.commit.senderLeaf := fun hd =>
      absurd (lt_of_mem_directPath hc.sender hd) (Nat.not_lt.2 (Nat.le_add_right _ _))
    exact ⟨e, _, d, leaf, he, hnext, hi, hdt, _, (getElem?_next_of_notMem hnot).trans hleaf, rfl⟩
  · -- sealed to an internal node: its own secret is tainted, by a leaf that still stands below
    have hbs : b = (deriveNodeKeypair (secretAt q j)).kemSecret := by
      have := (NodePublicKey.mk.inj hkey).2
      injection this
    rw [hbs, hP.safe_nodeKem] at hb
    obtain ⟨e'', u', n, leaf, he'', hu', hn, hbelow, lp, hlp, hlpk⟩ :=
      tainted_of_safe h hl he' hu hj hb
    obtain rfl := Option.some.inj (he'.symm.trans he'')
    obtain rfl := Option.some.inj (hu.symm.trans hu')
    obtain rfl := Option.some.inj (hj.symm.trans hn)
    have hcap : u.capacity = v.capacity := hl.capacity_eq hu hv
    have hbelow' : Below t (v.node leaf) := by rwa [View.node, hcap] at hbelow
    have hstay := hc.leaf_next (hkeep leaf lp hbelow hlp) fun hrem => ?_
    · exact ⟨e, _, d, leaf, he, hnext, hi, hdt.trans hbelow', lp, hstay, hlpk⟩
    · have hsp := hc.spliced
      rw [hrem] at hsp
      obtain ⟨-, hlen, hblank, -⟩ := splice_remove hsp
      have hlt : t < v.nodes.length := hlen ▸ (List.getElem?_eq_some_iff.1 hpar).1
      rw [hblank t hbelow' hlt] at hpar
      cases hpar

/-- A welcome for another key package says nothing, one for package `k` is from before `last`. -/
theorem safe_welcomes_of_removal (h : w.Sym) (hl : w.Linked) {last k : ℕ}
    (hgone : w.GoneAfter last k) : ∀ t ∈ w.welcomes, (w.removalPolicy last k).Safe t := by
  have hP := plain_removalPolicy h hl last k
  rintro _ ⟨e, he, wel, hwel, rfl⟩
  obtain ⟨p, he⟩ := List.mem_iff_getElem?.1 he
  refine safe_welcome hP h hl (safe_commits_of_removal h hl last k) he hwel
    fun u target owner k' hu hop hor => ?_
  obtain rfl : k' = k := not_not.1 (hor.resolve_right fun hr => hr trivial)
  obtain ⟨v, pre, hv, hc, hpre, hnext, -⟩ := hl.entry p e he
  obtain rfl := Option.some.inj (hv.symm.trans hu)
  have hsp := hc.spliced
  rw [hop] at hsp
  obtain ⟨htlt, -, rfl⟩ := splice_add hsp
  have hnode : v.node target < v.nodes.length := by
    have := hpre.length
    rw [List.length_set] at this
    rw [this, View.node, leafToNode]
    omega
  have hnot : v.node target ∉ directPath v.capacity e.commit.senderLeaf := fun hd =>
    absurd (lt_of_mem_directPath hc.sender hd) (Nat.not_lt.2 (Nat.le_add_right _ _))
  have hkey : (v.next e.coins e.commit _).HasKey target (packageSecrets k') :=
    ⟨(package owner k').public, (getElem?_next_of_notMem hnot).trans
      (List.getElem?_set_self hnode), rfl⟩
  refine hP.safe_of_exposed (.inl ⟨p, v, ?_, hv, rfl⟩)
  by_contra hlt
  exact hgone (p + 1) _ target (by omega) hnext hkey

end Tainted

/-! ### Removal by another member -/

section Removed

variable {w : World Bytes}

/-- The commit of epoch `e` removes the leaf of the member in state `g`, after which no leaf of
the tree has its key, and its key is not added again. -/
structure World.Removed (w : World Bytes) (g : Group Bytes) (e : ℕ) : Prop where
  present : g.isMember g.myLeaf = true
  le : g.epoch ≤ e
  entry : ∃ entry, w.log[e]? = some entry ∧ entry.commit.op = .remove g.myLeaf ∧
    entry.commit.senderLeaf ≠ g.myLeaf
  left : ∀ v leaf keys, w.views[e + 1]? = some v → g.myLeafKeys = some keys → ¬ v.HasKey leaf keys
  again : ∀ q entry leaf lp keys, e < q → w.log[q]? = some entry →
    entry.commit.op = .add leaf lp → g.myLeafKeys = some keys →
    lp.publicKey ≠ ⟨dhPublic keys.1, kemPublic keys.2⟩

/-- The key of a removed member is gone for good. -/
theorem World.Removed.gone (hl : w.Linked) {g : Group Bytes} {e k : ℕ} (hr : w.Removed g e)
    (hkeys : g.myLeafKeys = some (packageSecrets k)) : w.GoneAfter e k := by
  intro q
  induction q with
  | zero => exact fun u leaf hlt => absurd hlt (Nat.not_lt_zero _)
  | succ q ih =>
    intro u leaf hlt hu
    by_cases hq : q = e
    · subst hq
      exact hr.left u leaf _ hu hkeys
    · have hlen := hl.length
      have hlog : q < w.log.length := by
        have := (List.getElem?_eq_some_iff.1 hu).1
        omega
      obtain ⟨v, pre, hv, hc, hpre, hnext, -⟩ := hl.entry q _ (List.getElem?_eq_getElem hlog)
      obtain rfl := Option.some.inj (hnext.symm.trans hu)
      rintro ⟨lp, hlp, hpk⟩
      rcases leaf_of_splice hc.spliced (leaf_of_next hc hpre hlp) with hlp' | ⟨leaf', hop, -⟩
      · exact ih v leaf (by omega) hv ⟨lp, hlp', hpk⟩
      · exact hr.again q _ leaf' lp _ (by omega) (List.getElem?_eq_getElem hlog) hop hkeys hpk

/-- What a removed member knows is safe. -/
theorem safe_of_removed (h : w.Sym) (hl : w.Linked) {id e k : ℕ} {m : Member Bytes}
    (hok : w.MemberOk id m) (hm : w.MemberSym m) (hr : w.Removed m.group e)
    (hkeys : m.group.myLeafKeys = some (packageSecrets k)) :
    ∀ t ∈ w.holderKnows m.group, (w.removalPolicy e k).Safe t := by
  have hP := plain_removalPolicy h hl e k
  have hcommits := safe_commits_of_removal h hl e k
  have hstores := safe_stores hP h hl hcommits hok hm
    (hP.safe_of_exposed (.inl ⟨m.group.epoch, m.group.view, hr.le, hok.view, rfl⟩))
    (fun keys hk => by
      obtain rfl := Option.some.inj (hkeys.symm.trans hk)
      exact ⟨fun hs => hs, fun hs => hs rfl⟩)
    (fun n s hs => by
      -- a path secret of a node above the own leaf, which was in the tree when it was made
      obtain ⟨q, entry, i, v, he, hv, -, hi, rfl, hkey⟩ := hm.known n s hs
      have hcap : v.capacity = m.group.capacity := hl.capacity_eq hv hok.view
      obtain ⟨hb, -⟩ := (hok.holds hr.present).dom n _ hs
      refine safe_of_tainted h hl ⟨entry, v, n, m.group.myLeaf, he, hv, hi, ?_,
        hkey hr.present _ hkeys⟩
      rwa [View.node, hcap])
  rintro t ((ht | ht) | ht)
  · exact hstores t ht
  · exact hcommits t ht
  · exact safe_welcomes_of_removal h hl (hr.gone hl hkeys) t ht

/-- A commit of another epoch is refused. -/
theorem applyCommit_of_fromEpoch_ne {g : Group Bytes} {c : Commit Bytes}
    (h : c.fromEpoch ≠ g.epoch) : ∃ err, g.applyCommit c = .err err := by
  unfold applyCommit
  by_cases hg : c.groupId ≠ g.groupId
  · exact ⟨_, if_pos hg⟩
  · exact ⟨_, (if_neg hg).trans (if_pos h)⟩

/-- **The removed member finds no ciphertext for it in the commit that removes it.** -/
theorem applyCommit_of_removed {v : View Bytes} {g : Group Bytes} {coins : CommitCoins Bytes}
    {c : Commit Bytes} {pre : List (TreeNode Bytes)} (hg : Holds v g) (hv : v.WellFormed)
    (hc : Committed v coins c pre) (hop : c.op = .remove g.myLeaf) :
    g.applyCommit c = .err .commitNotDecryptable := by
  obtain rfl := hg.view
  have hsp := hc.spliced
  rw [hop] at hsp
  obtain ⟨-, hlen, hblank, -⟩ := splice_remove hsp
  have hfind : g.findAndDecrypt pre 0 (g.view.node c.senderLeaf)
      (directPath g.view.capacity c.senderLeaf) c.path = .err .commitNotDecryptable := by
    refine findAndDecrypt_of_unreachable (c := g.view.node c.senderLeaf)
      (fun t keys x hk hx hne => ?_) (isPath_directPath _ _) hc.path (.refl _)
    -- every key held belongs to a node above the own leaf, and all of these are blank
    have hb := below_of_keysFor hg.dom hk
    have hlt : t < g.view.nodes.length := hlen ▸ (List.getElem?_eq_some_iff.1 hx).1
    rw [hblank t hb hlt] at hx
    exact absurd (Option.some.inj hx).symm hne
  rw [applyCommit_eq hv rfl hc]
  exact congrArg (· >>= _) hfind

/-- **A member removed by another one is out**: from its state and everything broadcast, no
secret of a later epoch is derivable, and it accepts neither the commit that removes it nor any
later one. -/
theorem removed_excluded {ok : World Bytes → SymAction → Prop}
    (h : symbolicMachine.Reachable ok w) {id e : ℕ} {g : Group Bytes} (hg : (id, g) ∈ w.past)
    (hr : w.Removed g e) :
    (∀ (j : ℕ) v, e < j → w.views[j]? = some v → ¬ Derives (w.holderKnows g) v.epochSecret ∧
      ¬ Derives (w.holderKnows g) (deriveApplicationSecret v.epochSecret)) ∧
    ∀ (q : ℕ) entry, e ≤ q → w.log[q]? = some entry →
      ∃ err, g.applyCommit entry.commit = .err err := by
  have hsym := sym_of_reachable h
  have hinv := inv_of_symbolic h
  have hl := hinv.linked
  obtain ⟨m, rfl, hok, hm⟩ := ok_of_past h hg
  obtain ⟨-, k, -, hkeys⟩ := hm.names
  refine ⟨fun j v hj hv => ?_, fun q entry hq he => ?_⟩
  · have hsafe := safe_of_removed hsym hl hok hm hr hkeys
    have hnot := not_safe_of_gone hsym hl (hr.gone hl hkeys) hj hv
    exact ⟨Policy.not_derives hsafe hnot, Policy.not_derives hsafe fun hs =>
      hnot ((plain_removalPolicy hsym hl e k).safe_applicationSecret.1 hs)⟩
  · obtain ⟨v, pre, hv, hc, -⟩ := hl.entry q entry he
    obtain ⟨hwf, hep⟩ := hl.wf q v hv
    by_cases heq : m.group.epoch = q
    · -- the member is at the removal
      subst heq
      obtain rfl : e = m.group.epoch := Nat.le_antisymm hq hr.le
      obtain ⟨entry', he', hop, -⟩ := hr.entry
      obtain rfl := Option.some.inj (he.symm.trans he')
      obtain rfl := Option.some.inj (hok.view.symm.trans hv)
      exact ⟨_, applyCommit_of_removed (hok.holds hr.present) hwf hc hop⟩
    · refine applyCommit_of_fromEpoch_ne ?_
      rw [hc.fromEpoch, hep]
      exact Ne.symm heq

end Removed

/-- The founder adds two members and removes the first one; then it refreshes its path. -/
def removeRun : List SymAction :=
  [.commit 0 (.add 1 1), .join 0 1 1, .commit 0 (.add 2 2), .apply 1, .join 1 2 2,
    .commit 0 (.remove 1), .apply 2, .commit 0 .update]

/-- No leaf of the shared state carries the key of member `1`'s package. -/
def View.withoutMember (v : View Bytes) : Bool :=
  v.nodes.all fun n => match n with
    | .leaf lp => decide (lp.publicKey ≠ packageKey 1)
    | _ => true

/-- What the world after that run holds: member `1`'s last state, the removal and the update. -/
def afterRemoval (w : World Bytes) : Bool :=
  match w.past.find? (fun p => decide (p.1 = 1)), w.log, w.views[3]? with
  | some (i, g), [_, _, e₂, e₃], some v =>
    decide (i = 1 ∧ g.isMember g.myLeaf = true ∧ g.epoch = 2 ∧
      e₂.commit.op = .remove g.myLeaf ∧ e₂.commit.senderLeaf ≠ g.myLeaf ∧
      g.myLeafKeys = some (packageSecrets 1) ∧ e₃.commit.op = .update) && v.withoutMember
  | _, _, _ => false

/-- In that run the removed member derives nothing of the epochs `3` and `4`, and refuses both
commits. -/
theorem removed_excluded_removeRun : ∃ w g v e₂ e₃, runFrom 4 removeRun = some w ∧
    (1, g) ∈ w.past ∧ w.log[2]? = some e₂ ∧ w.log[3]? = some e₃ ∧ w.views[3]? = some v ∧
    ¬ Derives (w.holderKnows g) v.epochSecret ∧
    ¬ Derives (w.holderKnows g) (deriveApplicationSecret v.epochSecret) ∧
    (∃ err, g.applyCommit e₂.commit = .err err) ∧ ∃ err, g.applyCommit e₃.commit = .err err := by
  have hrun : (runFrom 4 removeRun).map afterRemoval = some true := by decide +kernel
  obtain ⟨w, hw, hp⟩ := Option.map_eq_some_iff.1 hrun
  unfold afterRemoval at hp
  split at hp
  · rename_i i g e₀ e₁ e₂ e₃ v hpast hlog hv
    obtain ⟨hstate, hleft⟩ := Bool.and_eq_true_iff.1 hp
    obtain ⟨rfl, hpres, hep, hop, hsender, hkeys, hop₃⟩ := of_decide_eq_true hstate
    have hr : w.Removed g 2 := by
      refine ⟨hpres, hep.le, ⟨e₂, by simp [hlog], hop, hsender⟩, fun u leaf keys hu hk => ?_,
        fun q e leaf lp keys hq he hadd hk => ?_⟩
      · obtain rfl := Option.some.inj (hv.symm.trans hu)
        obtain rfl := Option.some.inj (hkeys.symm.trans hk)
        rintro ⟨lp, hlp, hpk⟩
        exact of_decide_eq_true (List.all_eq_true.1 hleft _ (List.mem_of_getElem? hlp)) hpk
      · rw [hlog] at he
        obtain rfl : q = 3 := by
          have hlt := (List.getElem?_eq_some_iff.1 he).choose
          simp only [List.length_cons, List.length_nil] at hlt
          omega
        obtain rfl := Option.some.inj he
        cases hop₃.symm.trans hadd
    have hreach : symbolicMachine.Reachable Anything w :=
      reachable_of_runFrom (fun _ _ _ => trivial) hw
    obtain ⟨hsecret, hrefuse⟩ := removed_excluded hreach (List.mem_of_find?_eq_some hpast) hr
    obtain ⟨hes, happ⟩ := hsecret 3 v (by omega) hv
    exact ⟨w, g, v, e₂, e₃, hw, List.mem_of_find?_eq_some hpast, by simp [hlog], by simp [hlog],
      hv, hes, happ, hrefuse 2 e₂ (by omega) (by simp [hlog]),
      hrefuse 3 e₃ (by omega) (by simp [hlog])⟩
  · cases hp

/-! ### Removing oneself -/

section Leaver

variable {w : World Bytes}

/-- `g` is the state of a member right after the commit of epoch `q`, in which it removed its own
leaf. -/
structure World.SelfRemoved (w : World Bytes) (g : Group Bytes) (q : ℕ) : Prop where
  epoch : g.epoch = q + 1
  entry : ∃ entry, w.log[q]? = some entry ∧ entry.commit.op = .remove g.myLeaf ∧
    entry.commit.senderLeaf = g.myLeaf

/-- The state accepts no commit after that of epoch `q`, and with the commits it gives away no
application secret of a later epoch. -/
def World.LeaverExcluded (w : World Bytes) (g : Group Bytes) (q : ℕ) : Prop :=
  (∀ (p : ℕ) entry, q < p → w.log[p]? = some entry →
    ∃ err, g.applyCommit entry.commit = .err err) ∧
  ∀ (j : ℕ) v, q < j → w.views[j]? = some v →
    ¬ Derives ({t | Stores g t} ∪ w.commits) (deriveApplicationSecret v.epochSecret)

/-- **Whoever removes itself keeps the application secret of the epoch it made**, in every
run. -/
theorem leaver_not_excluded {ok : World Bytes → SymAction → Prop}
    (h : symbolicMachine.Reachable ok w) {id q : ℕ} {g : Group Bytes} (hg : (id, g) ∈ w.past)
    (hs : w.SelfRemoved g q) : ¬ w.LeaverExcluded g q := by
  obtain ⟨m, rfl, hok, -⟩ := ok_of_past h hg
  rintro ⟨-, hsecret⟩
  refine hsecret (q + 1) m.group.view (by omega) (hs.epoch ▸ hok.view) (.known (.inl ?_))
  rw [show m.group.view.epochSecret = m.group.epochSecret from rfl, ← hok.app]
  exact .applicationSecret

end Leaver

/-- The founder adds two members and removes itself; then the second member refreshes its path. -/
def leaveRun : List SymAction :=
  [.commit 0 (.add 1 1), .join 0 1 1, .commit 0 (.add 2 2), .apply 1, .join 1 2 2,
    .commit 0 (.remove 0), .apply 1, .apply 2, .commit 2 .update, .apply 1]

/-- What the world after that run holds: the founder's last state, which applies the later commit
and ends in the first member's state. -/
def afterLeaving (w : World Bytes) : Bool :=
  match w.past.find? (fun p => decide (p.1 = 0)), w.log, w.members 1 with
  | some (i, g), [_, _, e₂, e₃], some m =>
    decide (i = 0 ∧ g.epoch = 3 ∧ e₂.commit.op = .remove g.myLeaf ∧
      e₂.commit.senderLeaf = g.myLeaf) &&
    (match g.applyCommit e₃.commit with
      | .ok g' => decide (g'.epoch = m.group.epoch ∧ g'.epochSecret = m.group.epochSecret ∧
          g'.applicationSecret = m.group.applicationSecret ∧
          g'.transcriptHash = m.group.transcriptHash ∧ g'.nodes = m.group.nodes)
      | .error _ => false)
  | _, _, _ => false

/-- The founder's state after leaving, a commit made afterwards, and what the founder and the
first member make of it. -/
theorem leaveRun_spec : ∃ w g g' e m, runFrom 4 leaveRun = some w ∧
    symbolicMachine.Reachable Anything w ∧ (0, g) ∈ w.past ∧ w.SelfRemoved g 2 ∧
    w.log[3]? = some e ∧ g.applyCommit e.commit = .ok g' ∧ w.members 1 = some m ∧
    Agree m.group g' := by
  have hrun : (runFrom 4 leaveRun).map afterLeaving = some true := by decide +kernel
  obtain ⟨w, hw, hp⟩ := Option.map_eq_some_iff.1 hrun
  unfold afterLeaving at hp
  split at hp
  · rename_i i g e₀ e₁ e₂ e₃ m hpast hlog hm
    obtain ⟨hstate, happly⟩ := Bool.and_eq_true_iff.1 hp
    obtain ⟨rfl, hep, hop, hsender⟩ := of_decide_eq_true hstate
    split at happly
    · rename_i g' hg'
      obtain ⟨h1, h2, h3, h4, h5⟩ := of_decide_eq_true happly
      exact ⟨w, g, g', e₃, m, hw, reachable_of_runFrom (fun _ _ _ => trivial) hw,
        List.mem_of_find?_eq_some hpast, ⟨hep, e₂, by simp [hlog], hop, hsender⟩, by simp [hlog],
        hg', hm, ⟨h1, h2, h3, h4, h5⟩⟩
    · cases happly
  · cases hp

/-- In that run the founder is not excluded. -/
theorem leaver_not_excluded_leaveRun : ∃ w g, runFrom 4 leaveRun = some w ∧ (0, g) ∈ w.past ∧
    w.SelfRemoved g 2 ∧ ¬ w.LeaverExcluded g 2 := by
  obtain ⟨w, g, g', e, m, hw, hr, hg, hs, -⟩ := leaveRun_spec
  exact ⟨w, g, hw, hg, hs, leaver_not_excluded hr hg hs⟩

/-- **A member that left and still follows the group**: its retained state accepts the next commit
of the remaining members and agrees with them afterwards. -/
theorem leaver_follows_leaveRun : ∃ w g g' e m, symbolicMachine.Reachable Anything w ∧
    (0, g) ∈ w.past ∧ w.SelfRemoved g 2 ∧ w.log[3]? = some e ∧ g.applyCommit e.commit = .ok g' ∧
    w.members 1 = some m ∧ Agree m.group g' ∧ ¬ w.LeaverExcluded g 2 := by
  obtain ⟨w, g, g', e, m, hw, hr, hg, hs, he, hg', hm, hagree⟩ := leaveRun_spec
  refine ⟨w, g, g', e, m, hr, hg, hs, he, hg', hm, hagree, fun hx => ?_⟩
  obtain ⟨err, herr⟩ := hx.1 3 e (by omega) he
  cases hg'.symm.trans herr

end Group

end NovaChannel
