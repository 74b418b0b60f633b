import NovaChannel.Group.Removal

/-!
# Healing

What a member whose state was copied gets back by refreshing its own path, in every symbolic run.
Its leaf key stays as it is, so later path secrets may be sealed to the copied key.

* `healingPolicy` : the policy under which the path secrets of the refreshing commit are hidden,
  and all others below which the copied key stands are not;
* `below_of_safe` : whoever opens a path ciphertext has a leaf below its target;
* `healed` : **no secret of a later epoch is derivable** from the copied state and everything
  broadcast.
-/

namespace NovaChannel

namespace Group

open Crypto Term

section Healing

variable {w : World Bytes}

/-! ### The policy of a refreshed path -/

/-- Hidden: the path secrets of epoch `last`, those that are not tainted, every KEM key but that of
package `k`, and all randomness.  Handed out: the other tainted path secrets and the epoch secrets
up to `last`. -/
def World.healingPolicy (w : World Bytes) (last k : ℕ) : Policy Name where
  secret
    | .leafKem k' => k' ≠ k
    | .kemRandom .. => True
    | .welcomeKem _ => True
    | .pathSecret q => q = last ∨ ¬ w.Tainted k q 0
    | _ => False
  exposed t := (∃ (j : ℕ) (v : View Bytes), j ≤ last ∧ w.views[j]? = some v ∧
      t = v.epochSecret) ∨
    ∃ q i, q ≠ last ∧ w.Tainted k q (i + 1) ∧ t = secretAt q (i + 1)

theorem plain_healingPolicy (h : w.Sym) (hl : w.Linked) (last k : ℕ) :
    PlainPolicy (w.healingPolicy last k) := by
  refine ⟨?_, fun hs => hs⟩
  rintro _ (⟨j, v, -, hv, rfl⟩ | ⟨q, i, -, -, rfl⟩)
  · exact exposable_epochSecret h hl hv
  · rw [secretAt_succ]
    exact ⟨_, _, rfl, .inl rfl⟩

theorem safe_of_tainted_ne (h : w.Sym) (hl : w.Linked) {last k q i : ℕ} (hq : q ≠ last)
    (ht : w.Tainted k q i) : (w.healingPolicy last k).Safe (secretAt q i) := by
  cases i with
  | zero => exact fun hs => hs.elim hq fun hnot => hnot ht
  | succ i => exact (plain_healingPolicy h hl last k).safe_of_exposed (.inr ⟨q, i, hq, ht, rfl⟩)

/-- **A path secret is safe only when it is tainted, and not of the refreshing commit.** -/
theorem tainted_ne_of_safe (h : w.Sym) (hl : w.Linked) {last k q i n : ℕ} {e : Entry Bytes}
    {u : View Bytes} (he : w.log[q]? = some e) (hu : w.views[q + 1]? = some u)
    (hn : (directPath u.capacity e.commit.senderLeaf)[i]? = some n)
    (hs : (w.healingPolicy last k).Safe (secretAt q i)) : q ≠ last ∧ w.Tainted k q i := by
  induction i generalizing n with
  | zero => exact ⟨fun hq => hs (.inl hq), not_not.1 fun hnot => hs (.inr hnot)⟩
  | succ i ih =>
    rw [secretAt_succ, (plain_healingPolicy h hl last k).safe_pathStep] at hs
    rcases hs with (⟨j, v, -, hv, heq⟩ | ⟨q', i', hq', ht, heq⟩) | hs
    · exact absurd heq.symm (epochSecret_ne_pathStep h hl hv)
    · rw [← secretAt_succ] at heq
      obtain ⟨rfl, hi⟩ := secretAt_inj heq
      exact ⟨hq', by rwa [hi]⟩
    · have hlt := (List.getElem?_eq_some_iff.1 hn).1
      obtain ⟨hq, ht⟩ := ih (List.getElem?_eq_getElem (by omega)) hs
      exact ⟨hq, ht.succ he hu hn⟩

/-- **Whoever opens a path ciphertext with the key of package `k` has a leaf below its target**,
before and after the commit. -/
theorem below_of_safe (h : w.Sym) (hl : w.Linked) {last k p t : ℕ} {v : View Bytes}
    {e : Entry Bytes} {pre : List (TreeNode Bytes)} {a b : Bytes} (hv : w.views[p]? = some v)
    (he : w.log[p]? = some e) (hc : Committed v e.coins e.commit pre)
    (hpre : Shape v.capacity pre) (hpk : nodePublicKey pre t = some ⟨dhPublic a, kemPublic b⟩)
    (hb : (w.healingPolicy last k).Safe b) :
    ∃ leaf, Below t (v.node leaf) ∧
      (v.next e.coins e.commit pre).HasKey leaf (packageSecrets k) := by
  rcases h.target hl hv he hc hpk with ⟨owner, k', hleaf, hkey⟩ | ⟨hpar, q, e', j, u, hq, he', hu,
    hj, hkey, hkeep⟩
  · -- the target is a leaf itself
    obtain rfl : b = .name (.leafKem k') := by
      have := (NodePublicKey.mk.inj hkey).2
      injection this
    obtain rfl : k' = k := not_not.1 hb
    obtain ⟨hle, -⟩ := hpre.leaf t _ hleaf
    obtain ⟨leaf, rfl⟩ : ∃ leaf, t = v.node leaf := ⟨t - (v.capacity - 1), by
      simp only [View.node, leafToNode]
      omega⟩
    have hnot : v.node leaf ∉ directPath v.capacity e.commit.senderLeaf := fun hd =>
      absurd (lt_of_mem_directPath hc.sender hd) (Nat.not_lt.2 (Nat.le_add_right _ _))
    exact ⟨leaf, .refl _, _, (getElem?_next_of_notMem hnot).trans hleaf, rfl⟩
  · -- the secret of the target is tainted, by a leaf that still stands below it
    have hbs : b = (deriveNodeKeypair (secretAt q j)).kemSecret := by
      have := (NodePublicKey.mk.inj hkey).2
      injection this
    rw [hbs, (plain_healingPolicy h hl last k).safe_nodeKem] at hb
    obtain ⟨-, e'', u', n, leaf, he'', hu', hn, hbelow, lp, hlp, hlpk⟩ :=
      tainted_ne_of_safe h hl he' hu hj hb
    obtain rfl := Option.some.inj (he'.symm.trans he'')
    obtain rfl := Option.some.inj (hu.symm.trans hu')
    obtain rfl := Option.some.inj (hj.symm.trans hn)
    have hcap : u.capacity = v.capacity := hl.capacity_eq hu hv
    have hbelow' : Below t (v.node leaf) := by rwa [View.node, hcap] at hbelow
    have hstay := hc.leaf_next (hkeep leaf lp hbelow hlp) fun hrem => ?_
    · exact ⟨leaf, hbelow', lp, hstay, hlpk⟩
    · have hsp := hc.spliced
      rw [hrem] at hsp
      obtain ⟨-, hlen, hblank, -⟩ := splice_remove hsp
      have hlt : t < v.nodes.length := hlen ▸ (List.getElem?_eq_some_iff.1 hpar).1
      rw [hblank t hbelow' hlt] at hpar
      cases hpar

/-! ### A refreshed path -/

/-- The commit of the state's epoch refreshes the path of the state's own leaf, and no other leaf
carries its key. -/
structure World.Refreshed (w : World Bytes) (g : Group Bytes) : Prop where
  entry : ∃ entry, w.log[g.epoch]? = some entry ∧ entry.commit.op = .update ∧
    entry.commit.senderLeaf = g.myLeaf
  alone : ∀ leaf keys, g.myLeafKeys = some keys → g.view.HasKey leaf keys → leaf = g.myLeaf

/-- Every welcome that was not sealed to the key of the state's own leaf. -/
def World.othersWelcomes (w : World Bytes) (g : Group Bytes) : Set Bytes :=
  {t | ∃ e ∈ w.log, ∃ wel, e.welcome = some wel ∧ t = wel.write ∧
    ∀ leaf lp keys, e.commit.op = .add leaf lp → g.myLeafKeys = some keys →
      lp.publicKey ≠ ⟨dhPublic keys.1, kemPublic keys.2⟩}

/-- What an adversary has of a member: a copy of its state, and everything broadcast to others. -/
def World.copied (w : World Bytes) (g : Group Bytes) : Set Bytes :=
  {t | Stores g t} ∪ w.commits ∪ w.othersWelcomes g

/-- Whoever made the commit of its epoch is a member. -/
theorem present_of_committed (hl : w.Linked) {id : ℕ} {m : Member Bytes} (hok : w.MemberOk id m)
    {entry : Entry Bytes} (he : w.log[m.group.epoch]? = some entry)
    (hsender : entry.commit.senderLeaf = m.group.myLeaf) : m.present = true := by
  obtain ⟨v, pre, hv, hc, -⟩ := hl.entry _ _ he
  obtain rfl := Option.some.inj (hok.view.symm.trans hv)
  obtain ⟨lp, hlp, -⟩ := hc.signed
  have hlt : m.group.myLeaf < m.group.capacity := hsender ▸ hc.sender
  have hlp' : m.group.nodes[leafToNode m.group.capacity m.group.myLeaf]? = some (.leaf lp) := by
    rw [hsender] at hlp
    exact hlp
  simp [Member.present, isMember, hlt, hlp']

theorem World.Refreshed.present (hl : w.Linked) {id : ℕ} {m : Member Bytes}
    (hok : w.MemberOk id m) (hr : w.Refreshed m.group) : m.present = true := by
  obtain ⟨entry, he, -, hsender⟩ := hr.entry
  exact present_of_committed hl hok he hsender

/-- **No commit gives away a path secret of the refreshing one.** -/
theorem safe_commits_of_refreshed (h : w.Sym) (hl : w.Linked) {id k : ℕ} {m : Member Bytes}
    (hok : w.MemberOk id m) (hr : w.Refreshed m.group)
    (hkeys : m.group.myLeafKeys = some (packageSecrets k)) :
    ∀ t ∈ w.commits, (w.healingPolicy m.group.epoch k).Safe t := by
  have hP := plain_healingPolicy h hl m.group.epoch k
  rintro _ ⟨e, he, rfl⟩
  obtain ⟨p, he⟩ := List.mem_iff_getElem?.1 he
  obtain ⟨v, pre, hv, hc, hpre, hnext, -⟩ := hl.entry p e he
  refine hP.ofPublic.commit_of_targets h hl hv he hc fun i d t a b _ hi hdt hnot hpk hkey => ?_
  have hb : (w.healingPolicy m.group.epoch k).Safe b :=
    (hP.safe_sealKey hkey).resolve_right fun hrandom => hrandom trivial
  obtain ⟨leaf, hbelow, hleaf⟩ := below_of_safe h hl hv he hc hpre hpk hb
  refine safe_of_tainted_ne h hl ?_ ⟨e, _, d, leaf, he, hnext, hi, hdt.trans hbelow, hleaf⟩
  -- the refreshing commit seals to no node above the only leaf with the key
  rintro rfl
  obtain ⟨entry, he', hop, hsender⟩ := hr.entry
  obtain rfl := Option.some.inj (he.symm.trans he')
  obtain rfl := Option.some.inj (hok.view.symm.trans hv)
  obtain ⟨lp, hlp, hlpk⟩ := hleaf
  obtain rfl : m.group.view.nodes = pre := by
    have hsp := hc.spliced
    rw [hop] at hsp
    exact Except.ok.inj hsp
  obtain rfl := hr.alone leaf _ hkeys ⟨lp, leaf_of_next hc hpre hlp, hlpk⟩
  rw [hsender] at hnot
  exact hnot hbelow

/-- What the adversary has is safe. -/
theorem safe_of_copied (h : w.Sym) (hl : w.Linked) {id k : ℕ} {m : Member Bytes}
    (hok : w.MemberOk id m) (hm : w.MemberSym m) (hr : w.Refreshed m.group)
    (hkeys : m.group.myLeafKeys = some (packageSecrets k)) :
    ∀ t ∈ w.copied m.group, (w.healingPolicy m.group.epoch k).Safe t := by
  have hP := plain_healingPolicy h hl m.group.epoch k
  have hcommits := safe_commits_of_refreshed h hl hok hr hkeys
  have hpresent := hr.present hl hok
  have hstores := safe_stores hP h hl hcommits hok hm
    (hP.safe_of_exposed (.inl ⟨m.group.epoch, m.group.view, Nat.le_refl _, hok.view, rfl⟩))
    (fun keys hk => by
      obtain rfl := Option.some.inj (hkeys.symm.trans hk)
      exact ⟨fun hs => hs, fun hs => hs rfl⟩)
    (fun n s hs => by
      -- the secrets held are of earlier commits
      obtain ⟨q, entry, i, v, he, hv, hq, hi, rfl, hkey⟩ := hm.known n s hs
      have hcap : v.capacity = m.group.capacity := hl.capacity_eq hv hok.view
      obtain ⟨hb, -⟩ := (hok.holds hpresent).dom n _ hs
      refine safe_of_tainted_ne h hl hq.ne ⟨entry, v, n, m.group.myLeaf, he, hv, hi, ?_,
        hkey hpresent _ hkeys⟩
      rwa [View.node, hcap])
  rintro t ((ht | ht) | ⟨e, he, wel, hwel, rfl, hothers⟩)
  · exact hstores t ht
  · exact hcommits t ht
  · obtain ⟨p, he⟩ := List.mem_iff_getElem?.1 he
    refine safe_welcome hP h hl hcommits he hwel fun u target owner k' hu hop hor => ?_
    obtain rfl : k' = k := not_not.1 (hor.resolve_right fun hrandom => hrandom trivial)
    exact absurd rfl (hothers _ _ _ hop hkeys)

/-- **No epoch secret after a refreshed path is safe**: each one is mixed from the one before. -/
theorem not_safe_of_refreshed (h : w.Sym) (hl : w.Linked) {last k j : ℕ} {v : View Bytes}
    (hj : last < j) (hv : w.views[j]? = some v) :
    ¬ (w.healingPolicy last k).Safe v.epochSecret := by
  have hP := plain_healingPolicy h hl last k
  induction j, hj using Nat.le_induction generalizing v with
  | base =>
    obtain ⟨u, hu⟩ := hl.getElem?_views (p := last) (by
      have := (List.getElem?_eq_some_iff.1 hv).1
      have := hl.length
      omega)
    obtain ⟨e, he, hes⟩ := hl.epochSecret_succ hu hv
    have hcap : v.capacity = u.capacity := hl.capacity_eq hv hu
    intro hs
    rw [hes, hP.safe_nextEpochSecret, ← hes] at hs
    rcases hs with (⟨i, u', hi, hu', heq⟩ | ⟨q, i, -, -, heq⟩) | ⟨⟨-, hs⟩, -⟩
    · have := epochSecret_inj h hl hv hu' heq
      omega
    · rw [secretAt_succ] at heq
      exact epochSecret_ne_pathStep h hl hv heq
    · -- the commit secret is the last path secret of the refreshing commit
      rw [(h.entry last e he).1] at hs
      have hlast := (hl.wf last u hu).1.getLast? e.commit.senderLeaf
      rw [List.getLast?_eq_getElem?, ← hcap] at hlast
      rw [← hcap] at hs
      exact (tainted_ne_of_safe h hl he hv hlast hs).1 rfl
  | succ j hj ih =>
    obtain ⟨u, hu⟩ := hl.getElem?_views (p := j) (by
      have := (List.getElem?_eq_some_iff.1 hv).1
      have := hl.length
      omega)
    obtain ⟨e, -, hes⟩ := hl.epochSecret_succ hu hv
    intro hs
    rw [hes, hP.safe_nextEpochSecret, ← hes] at hs
    rcases hs with (⟨i, u', hi, hu', heq⟩ | ⟨q, i, -, -, heq⟩) | ⟨⟨hs, -⟩, -⟩
    · have := epochSecret_inj h hl hv hu' heq
      omega
    · rw [secretAt_succ] at heq
      exact epochSecret_ne_pathStep h hl hv heq
    · exact ih hu hs

/-- A plain policy under which a copy of a member's state before its refresh is safe, and the secret
of no later epoch. -/
theorem exists_policy_of_refreshed {ok : World Bytes → SymAction → Prop}
    (h : symbolicMachine.Reachable ok w) {id : ℕ} {g : Group Bytes} (hg : (id, g) ∈ w.past)
    (hr : w.Refreshed g) : ∃ P : Policy Name, PlainPolicy P ∧ (∀ t ∈ w.copied g, P.Safe t) ∧
      ∀ (j : ℕ) v, g.epoch < j → w.views[j]? = some v → ¬ P.Safe v.epochSecret := by
  have hsym := sym_of_reachable h
  have hl := (inv_of_symbolic h).linked
  obtain ⟨m, rfl, hok, hm⟩ := ok_of_past h hg
  obtain ⟨-, k, -, hkeys⟩ := hm.names
  exact ⟨w.healingPolicy m.group.epoch k, plain_healingPolicy hsym hl _ k,
    safe_of_copied hsym hl hok hm hr hkeys, fun _ _ hj hv => not_safe_of_refreshed hsym hl hj hv⟩

/-- **A member that refreshes its own path heals**: from a copy of its state before, every commit
and every welcome to others, neither the epoch secret nor the application secret of any later epoch
is derivable, whatever is committed afterwards. -/
theorem healed {ok : World Bytes → SymAction → Prop} (h : symbolicMachine.Reachable ok w) {id : ℕ}
    {g : Group Bytes} (hg : (id, g) ∈ w.past) (hr : w.Refreshed g) {j : ℕ} {v : View Bytes}
    (hj : g.epoch < j) (hv : w.views[j]? = some v) :
    ¬ Derives (w.copied g) v.epochSecret ∧
      ¬ Derives (w.copied g) (deriveApplicationSecret v.epochSecret) := by
  obtain ⟨P, hP, hsafe, hnot⟩ := exists_policy_of_refreshed h hg hr
  exact ⟨Policy.not_derives hsafe (hnot j v hj hv), Policy.not_derives hsafe fun hs =>
    hnot j v hj hv (hP.safe_applicationSecret.1 hs)⟩

end Healing

/-- The founder adds a member, which joins and refreshes its path; then the founder refreshes its
own. -/
def healRun : List SymAction :=
  [.commit 0 (.add 1 1), .join 0 1 1, .commit 1 .update, .apply 0, .commit 0 .update]

/-- Only the state's own leaf carries the key of package `1`. -/
def aloneWithKey (g : Group Bytes) : Bool :=
  (List.range g.nodes.length).all fun n => match g.nodes[n]? with
    | some (.leaf lp) => decide (lp.publicKey = packageKey 1 → n = g.leafNode)
    | _ => true

theorem eq_of_aloneWithKey {g : Group Bytes} (h : aloneWithKey g = true) {leaf : ℕ}
    (hkey : g.view.HasKey leaf (packageSecrets 1)) : leaf = g.myLeaf := by
  obtain ⟨lp, hlp, hpk⟩ := hkey
  have hlp' : g.nodes[g.view.node leaf]? = some (.leaf lp) := hlp
  have hall := List.all_eq_true.1 h _ (List.mem_range.2 (List.getElem?_eq_some_iff.1 hlp').1)
  rw [hlp'] at hall
  have heq : leafToNode g.capacity leaf = leafToNode g.capacity g.myLeaf :=
    of_decide_eq_true hall hpk
  simp only [leafToNode] at heq
  omega

/-- What the world after that run holds: the member's state as it joined, and its update. -/
def afterHealing (w : World Bytes) : Bool :=
  match w.past.find? (fun p => decide (p.1 = 1 ∧ p.2.epoch = 1)), w.log with
  | some (i, g), [_, e₁, _] =>
    decide (i = 1 ∧ g.epoch = 1 ∧ e₁.commit.op = .update ∧ e₁.commit.senderLeaf = g.myLeaf ∧
      g.myLeafKeys = some (packageSecrets 1)) && aloneWithKey g
  | _, _ => false

/-- In that run a copy of the member's first state gives away neither the epoch of its own update
nor the next one, whose path secrets are sealed to the copied leaf key. -/
theorem healed_healRun : ∃ w g v₂ v₃, runFrom 4 healRun = some w ∧ (1, g) ∈ w.past ∧ g.epoch = 1 ∧
    w.views[2]? = some v₂ ∧ w.views[3]? = some v₃ ∧
    ¬ Derives (w.copied g) (deriveApplicationSecret v₂.epochSecret) ∧
    ¬ Derives (w.copied g) (deriveApplicationSecret v₃.epochSecret) := by
  have hrun : (runFrom 4 healRun).map afterHealing = some true := by decide +kernel
  obtain ⟨w, hw, hp⟩ := Option.map_eq_some_iff.1 hrun
  unfold afterHealing at hp
  split at hp
  · rename_i i g e₀ e₁ e₂ hpast hlog
    obtain ⟨hstate, halone⟩ := Bool.and_eq_true_iff.1 hp
    obtain ⟨rfl, hep, hop, hsender, hkeys⟩ := of_decide_eq_true hstate
    have hg := List.mem_of_find?_eq_some hpast
    have hr : w.Refreshed g := by
      refine ⟨⟨e₁, by simp [hlog, hep], hop, hsender⟩, fun leaf keys hk hkey => ?_⟩
      obtain rfl := Option.some.inj (hkeys.symm.trans hk)
      exact eq_of_aloneWithKey halone hkey
    have hreach : symbolicMachine.Reachable Anything w :=
      reachable_of_runFrom (fun _ _ _ => trivial) hw
    have hl := (inv_of_symbolic hreach).linked
    obtain ⟨v₂, hv₂⟩ := hl.getElem?_views (p := 2) (by simp [hlog])
    obtain ⟨v₃, hv₃⟩ := hl.getElem?_views (p := 3) (by simp [hlog])
    exact ⟨w, g, v₂, v₃, hw, hg, hep, hv₂, hv₃, (healed hreach hg hr (by omega) hv₂).2,
      (healed hreach hg hr (by omega) hv₃).2⟩
  · cases hp

/-! ### A key package that was added twice -/

/-- The founder adds one key package twice, and the member that joined with it refreshes its
path. -/
def twiceRun : List SymAction :=
  [.commit 0 (.add 1 1), .join 0 1 1, .commit 0 (.add 1 1), .apply 1, .commit 1 .update]

/-- What the world after that run holds: the member's state before its update, and the path secret
of the root sealed to the member's own key. -/
def afterTwice (w : World Bytes) : Bool :=
  match w.past.find? (fun p => decide (p.1 = 1 ∧ p.2.epoch = 2)), w.log, w.views with
  | some (i, g), [_, _, e₂], [_, _, _, v₃] =>
    decide (i = 1 ∧ g.epoch = 2 ∧ e₂.commit.op = .update ∧ e₂.commit.senderLeaf = g.myLeaf ∧
      g.myLeafKeys = some (packageSecrets 1) ∧
      v₃.epochSecret = nextEpochSecret g.epochSecret (secretAt 2 1) v₃.transcriptHash ∧
      v₃.transcriptHash = nextTranscriptHash g.transcriptHash e₂.commit.signedBytes) &&
    e₂.commit.path.any fun node => node.ciphertexts.any fun ct =>
      match sealToNode ((coinsOf 2).sealCoins 0 5) (packageKey 1) pathSecretAadContext
        (secretAt 2 1) with
      | .ok ct' => decide (ct = ct')
      | .error _ => false
  | _, _, _ => false

/-- **A member whose key package was added twice does not heal**: its update is sealed to the other
leaf with its key. -/
theorem not_healed_twiceRun : ∃ w g v, symbolicMachine.Reachable Anything w ∧ (1, g) ∈ w.past ∧
    (∃ e, w.log[g.epoch]? = some e ∧ e.commit.op = .update ∧ e.commit.senderLeaf = g.myLeaf) ∧
    w.views[g.epoch + 1]? = some v ∧ Derives (w.copied g) v.epochSecret := by
  have hrun : (runFrom 4 twiceRun).map afterTwice = some true := by decide +kernel
  obtain ⟨w, hw, hp⟩ := Option.map_eq_some_iff.1 hrun
  unfold afterTwice at hp
  split at hp
  · rename_i i g e₀ e₁ e₂ v₀ v₁ v₂ v₃ hpast hlog hviews
    obtain ⟨hstate, hct⟩ := Bool.and_eq_true_iff.1 hp
    obtain ⟨rfl, hep, hop, hsender, hkeys, hes, hth⟩ := of_decide_eq_true hstate
    obtain ⟨node, hnode, hct⟩ := List.any_eq_true.1 hct
    obtain ⟨ct, hmem, hct⟩ := List.any_eq_true.1 hct
    split at hct
    · rename_i ct' hseal
      obtain rfl := of_decide_eq_true hct
      have hcommit : Derives (w.copied g) e₂.commit.write :=
        .known (.inl (.inr ⟨e₂, by simp [hlog], rfl⟩))
      have hsigned : Derives (w.copied g) e₂.commit.signedBytes := .head hcommit
      have hpath : Derives (w.copied g) (list (e₂.commit.path.map UpdatePathNode.write)) :=
        .tail (.tail (.tail (.tail (.tail (.tail hsigned)))))
      have hnode' : Derives (w.copied g) node.write :=
        hpath.of_list (List.mem_map_of_mem hnode)
      have hcts : Derives (w.copied g) (list (node.ciphertexts.map SealedToNode.write)) :=
        .tail (.tail hnode')
      have hct' : Derives (w.copied g) ct.write := hcts.of_list (List.mem_map_of_mem hmem)
      have hsecret : Derives (w.copied g) (secretAt 2 1) :=
        derives_of_sealed hseal (.known (.inl (.inl (.dhSecret hkeys))))
          (.known (.inl (.inl (.kemSecret hkeys)))) hct'
      have hhash : Derives (w.copied g) v₃.transcriptHash := by
        rw [hth]
        exact .fn rfl (.list (by
          simpa using ⟨.known (.inl (.inl .transcriptHash)), hsigned⟩)) .nil
      refine ⟨w, g, v₃, reachable_of_runFrom (fun _ _ _ => trivial) hw,
        List.mem_of_find?_eq_some hpast, ⟨e₂, by simp [hlog, hep], hop, hsender⟩,
        by simp [hviews, hep], ?_⟩
      rw [hes]
      exact .fn rfl (.fn rfl (.known (.inl (.inl .epochSecret))) hsecret)
        (.list (by simpa using ⟨.lit _, hhash⟩))
    · cases hct
  · cases hp

end Group

end NovaChannel
