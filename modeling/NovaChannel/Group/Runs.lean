import NovaChannel.Group.System

/-!
# Runs of a group

The invariant of the system, `World.Inv`, in three parts:

* `Linked` : every entry of the log is a commit of the epoch before it and leads to the one
  after it;
* `MemberOk` : every member shares the view of its epoch and, while it is in the tree, holds
  the keys of that epoch;
* the committer of every entry is a member that has moved on.

`inv_of_reachable` : **every reachable world satisfies the invariant**, whatever the members seal
and whatever records they are handed.
-/

namespace NovaChannel

namespace Group

open Crypto

section Definitions

variable {β : Type} [Crypto β]

/-- The log and the views fit together. -/
structure World.Linked (w : World β) : Prop where
  length : w.views.length = w.log.length + 1
  wf : ∀ p (v : View β), w.views[p]? = some v → v.WellFormed ∧ v.epoch = p
  entry : ∀ p (e : Entry β), w.log[p]? = some e → ∃ v pre, w.views[p]? = some v ∧
    Committed v e.coins e.commit pre ∧ Shape v.capacity pre ∧
    w.views[p + 1]? = some (v.next e.coins e.commit pre) ∧
    ∀ wel, e.welcome = some wel → ∃ pkg target,
      Welcomed v e.coins e.commit pkg target wel ∧ pkg.popValid = true

/-- A member's state fits the views. -/
structure World.MemberOk (w : World β) (id : ℕ) (m : Member β) : Prop where
  entered : id ≤ m.group.epoch
  view : w.views[m.group.epoch]? = some m.group.view
  app : m.group.applicationSecret = deriveApplicationSecret m.group.epochSecret
  holds : m.present = true → Holds m.group.view m.group
  signs : m.present = true → ∃ lp, m.group.nodes[m.group.leafNode]? = some (.leaf lp) ∧
    lp.identity = publicIdentity m.signer
  /-- Its leaf is populated ever since it entered. -/
  occupied : ∀ q (v : View β), id ≤ q → q < m.group.epoch → w.views[q]? = some v →
    v.nodes[v.node m.group.myLeaf]? ≠ some .blank
  /-- And it was blank before. -/
  born : ∀ q (v : View β), id = q + 1 → w.views[q]? = some v →
    v.nodes[v.node m.group.myLeaf]? = some .blank

/-- The invariant of the system. -/
structure World.Inv (w : World β) : Prop where
  linked : w.Linked
  member : ∀ id m, w.members id = some m → w.MemberOk id m
  committer : ∀ p (e : Entry β), w.log[p]? = some e → ∃ id m, w.members id = some m ∧
    m.group.myLeaf = e.commit.senderLeaf ∧ id ≤ p ∧ p < m.group.epoch

/-- The fields of a state that records do not touch. -/
structure SameCore (g g' : Group β) : Prop where
  view : g'.view = g.view
  app : g'.applicationSecret = g.applicationSecret
  myLeaf : g'.myLeaf = g.myLeaf
  myLeafKeys : g'.myLeafKeys = g.myLeafKeys
  known : g'.knownSecrets = g.knownSecrets

end Definitions

/-! ### Operations of one member -/

section Operations

variable {β : Type} [Crypto β]

/-- What a member that proposed did. -/
theorem propose_eq_ok {m : Member β} {coins : CommitCoins β} {p : Proposal β} {g : Group β}
    {c : Commit β} {welcome : Option (Welcome β)}
    (h : m.propose coins p = .ok (g, c, welcome)) :
    (∃ pkg w, p = .add pkg ∧ welcome = some w ∧
      m.group.proposeAdd m.signer coins pkg = .ok (g, c, w)) ∨
    (∃ leaf, p = .remove leaf ∧ welcome = none ∧
      m.group.commit m.signer coins (.remove leaf) = .ok (g, c)) ∨
    (p = .update ∧ welcome = none ∧ m.group.commit m.signer coins .update = .ok (g, c)) := by
  cases p with
  | add pkg =>
    obtain ⟨⟨g', c', w⟩, hr, h⟩ := Result.bind_eq_ok.1 h
    simp only [Result.pure_eq_ok, Except.ok.injEq, Prod.mk.injEq] at h
    obtain ⟨rfl, rfl, rfl⟩ := h
    exact .inl ⟨pkg, w, rfl, rfl, hr⟩
  | remove leaf =>
    obtain ⟨⟨g', c'⟩, hr, h⟩ := Result.bind_eq_ok.1 h
    simp only [Result.pure_eq_ok, Except.ok.injEq, Prod.mk.injEq] at h
    obtain ⟨rfl, rfl, rfl⟩ := h
    unfold proposeRemove at hr
    split_ifs at hr
    exact .inr (.inl ⟨leaf, rfl, rfl, hr⟩)
  | update =>
    obtain ⟨⟨g', c'⟩, hr, h⟩ := Result.bind_eq_ok.1 h
    simp only [Result.pure_eq_ok, Except.ok.injEq, Prod.mk.injEq] at h
    obtain ⟨rfl, rfl, rfl⟩ := h
    exact .inr (.inr ⟨rfl, rfl, hr⟩)

/-- **A proposal, seen from the committer**: it leads to the next epoch, and a welcome comes with
it exactly as an add needs it. -/
theorem propose_spec [LawfulCrypto β] {m : Member β} {coins : CommitCoins β} {p : Proposal β}
    {g : Group β} {c : Commit β} {welcome : Option (Welcome β)} (hv : m.group.view.WellFormed)
    (hm : Holds m.group.view m.group) (hs : ∃ lp, m.group.nodes[m.group.leafNode]? =
      some (.leaf lp) ∧ lp.identity = publicIdentity m.signer) (hpop : p.popValid = true)
    (h : m.propose coins p = .ok (g, c, welcome)) :
    c.senderLeaf = m.group.myLeaf ∧
      (∀ leaf lp, c.op = .add leaf lp → p = .add lp ∧ lp.popValid = true) ∧
      (∃ pre, Committed m.group.view coins c pre ∧ Advanced (m.group.view.next coins c pre)
        (pathSecrets (directPath m.group.capacity c.senderLeaf) coins.pathSecret) m.group g) ∧
      ∀ wel, welcome = some wel → ∃ pkg target,
        Welcomed m.group.view coins c pkg target wel ∧ pkg.popValid = true := by
  obtain ⟨lp, hlp, hid⟩ := hs
  rcases propose_eq_ok h with ⟨pkg, w, rfl, rfl, hadd⟩ | ⟨leaf, rfl, rfl, hc⟩ | ⟨rfl, rfl, hc⟩
  · obtain ⟨target, -, hc, hw⟩ := proposeAdd_spec hv rfl hm.lt hlp hid hadd
    obtain ⟨hop, hsender, -, pre, hcm, hadv⟩ := commit_spec hv rfl hm.lt hlp hid hc
    refine ⟨hsender, fun leaf lp' he => ?_, ⟨pre, hcm, hadv⟩, fun wel he => ?_⟩
    · rw [hop] at he
      cases he
      exact ⟨rfl, hpop⟩
    · cases he
      exact ⟨pkg, target, hw, hpop⟩
  · obtain ⟨hop, hsender, -, pre, hcm, hadv⟩ := commit_spec hv rfl hm.lt hlp hid hc
    exact ⟨hsender, fun leaf lp' he => by simp [hop] at he, ⟨pre, hcm, hadv⟩,
      fun wel he => by simp at he⟩
  · obtain ⟨hop, hsender, -, pre, hcm, hadv⟩ := commit_spec hv rfl hm.lt hlp hid hc
    exact ⟨hsender, fun leaf lp' he => by simp [hop] at he, ⟨pre, hcm, hadv⟩,
      fun wel he => by simp at he⟩

/-- Sealing moves the send chain only. -/
theorem sealRecord_eq_ok {g g' : Group β} {plaintext record : β}
    (h : g.sealRecord plaintext = .ok (g', record)) :
    g.sendSeq + 1 < 2 ^ 64 ∧
    g' = { g with sendSeq := g.sendSeq + 1, sendChain := (advance g.sendChain).1 } ∧
    record = frame [appHeader g.epoch g.myLeaf g.sendSeq,
      aeadSeal (advance g.sendChain).2 (appHeader g.epoch g.myLeaf g.sendSeq) plaintext] := by
  simp only [sealRecord] at h
  split at h
  · cases h
  · rename_i seq hseq
    obtain ⟨hlt, rfl⟩ := checkedAdd64_eq_some.1 hseq
    simp only [Except.ok.injEq, Prod.mk.injEq] at h
    exact ⟨hlt, h.1.symm, h.2.symm⟩

theorem openNext_frame (g : Group β) (entry : β × ℕ) (senderLeaf seq : ℕ) (header ct : β) :
    ∃ recvChains, (g.openNext entry senderLeaf seq header ct).1 =
      { g with recvChains := recvChains } := by
  unfold openNext
  split_ifs
  · exact ⟨g.recvChains, rfl⟩
  · split
    · exact ⟨g.recvChains, rfl⟩
    · split
      · exact ⟨g.recvChains, rfl⟩
      · exact ⟨_, rfl⟩

/-- Opening, successful or not, moves the receive chains only. -/
theorem openRecord_frame (g : Group β) (record : β) :
    ∃ recvChains, (g.openRecord record).1 = { g with recvChains := recvChains } := by
  unfold openRecord
  split
  · exact ⟨g.recvChains, rfl⟩
  · split_ifs
    · exact ⟨g.recvChains, rfl⟩
    · exact ⟨g.recvChains, rfl⟩
    · exact ⟨g.recvChains, rfl⟩
    · exact openNext_frame { g with recvChains := _ } _ _ _ _ _

theorem sameCore_openRecord (g : Group β) (record : β) : SameCore g (g.openRecord record).1 := by
  obtain ⟨recvChains, h⟩ := openRecord_frame g record
  rw [h]
  exact ⟨rfl, rfl, rfl, rfl, rfl⟩

theorem sameCore_sealRecord {g g' : Group β} {plaintext record : β}
    (h : g.sealRecord plaintext = .ok (g', record)) : SameCore g g' := by
  obtain ⟨-, rfl, -⟩ := sealRecord_eq_ok h
  exact ⟨rfl, rfl, rfl, rfl, rfl⟩

omit [Crypto β] in
/-- Whether a leaf is populated depends on the shared state only. -/
theorem isMember_eq_of_view {g g' : Group β} (h : g'.view = g.view) (leaf : ℕ) :
    g'.isMember leaf = g.isMember leaf := by
  have hcap : g'.capacity = g.capacity := congrArg View.capacity h
  have hnodes : g'.nodes = g.nodes := congrArg View.nodes h
  rw [isMember, isMember, hcap, hnodes]

/-- Holding an epoch's keys does not depend on the chains. -/
theorem Holds.congr {v : View β} {g g' : Group β} (h : Holds v g) (hs : SameCore g g') :
    Holds v g' := by
  have hnode : g'.leafNode = g.leafNode := by
    rw [leafNode, leafNode, hs.myLeaf, show g'.capacity = g.capacity from
      congrArg View.capacity hs.view]
  refine ⟨hs.view.trans h.view, hs.app.trans h.app, hs.myLeaf ▸ h.lt, ?_, ?_, ?_⟩
  · rw [hnode, hs.myLeafKeys]; exact h.leaf
  · rw [hnode, hs.known]; exact h.known
  · rw [hnode, hs.known]; exact h.dom

omit [Crypto β] in
theorem isMember_iff {g : Group β} (hlen : g.nodes.length = 2 * g.capacity - 1) {leaf : ℕ} :
    g.isMember leaf = true ↔
      leaf < g.capacity ∧ ∃ lp, g.nodes[leafToNode g.capacity leaf]? = some (.leaf lp) := by
  unfold isMember
  by_cases hlt : leaf < g.capacity
  · have hnode : leafToNode g.capacity leaf < g.nodes.length := by
      rw [hlen]; unfold leafToNode; omega
    rw [List.getElem?_eq_getElem hnode]
    cases g.nodes[leafToNode g.capacity leaf] <;> simp [hlt]
  · simp [hlt]

end Operations

/-! ### The invariant is inductive -/

section Invariant

variable {β : Type} [Crypto β] {w w' : World β}

/-- The shared state of an epoch in range. -/
theorem World.MemberOk.getElem?_views {id : ℕ} {m : Member β} (h : w.MemberOk id m) {q : ℕ}
    (hq : q ≤ m.group.epoch) : ∃ v, w.views[q]? = some v := by
  have hlt : m.group.epoch < w.views.length := (List.getElem?_eq_some_iff.1 h.view).1
  exact ⟨w.views[q], List.getElem?_eq_getElem (by omega)⟩

/-- A member's state still fits when later epochs are added. -/
theorem World.MemberOk.mono {id : ℕ} {m : Member β} (h : w.MemberOk id m)
    (hext : ∀ (q : ℕ) (v : View β), w.views[q]? = some v → w'.views[q]? = some v) :
    w'.MemberOk id m := by
  have hback : ∀ (q : ℕ) (v : View β), q ≤ m.group.epoch → w'.views[q]? = some v →
      w.views[q]? = some v := by
    intro q v hq hv
    obtain ⟨v', hv'⟩ := h.getElem?_views hq
    rw [hv', Option.some.inj ((hext q v' hv').symm.trans hv)]
  refine ⟨h.entered, hext _ _ h.view, h.app, h.holds, h.signs,
    fun q v hid hq hv => h.occupied q v hid hq (hback q v hq.le hv),
    fun q v hid hv => h.born q v hid (hback q v ?_ hv)⟩
  have := h.entered
  omega

/-- Records leave a member's part of the invariant alone. -/
theorem World.MemberOk.congr {id : ℕ} {m m' : Member β} (h : w.MemberOk id m)
    (hs : SameCore m.group m'.group) (hsigner : m'.signer = m.signer) : w.MemberOk id m' := by
  have hepoch : m'.group.epoch = m.group.epoch := congrArg View.epoch hs.view
  have hsecret : m'.group.epochSecret = m.group.epochSecret := congrArg View.epochSecret hs.view
  have hnodes : m'.group.nodes = m.group.nodes := congrArg View.nodes hs.view
  have hcap : m'.group.capacity = m.group.capacity := congrArg View.capacity hs.view
  have hnode : m'.group.leafNode = m.group.leafNode := by rw [leafNode, leafNode, hs.myLeaf, hcap]
  have hpres : m'.present = m.present := by
    rw [Member.present, Member.present, hs.myLeaf, isMember_eq_of_view hs.view]
  constructor
  · rw [hepoch]; exact h.entered
  · rw [hepoch, hs.view]; exact h.view
  · rw [hs.app, hsecret]; exact h.app
  · rw [hpres, hs.view]; exact fun hp => (h.holds hp).congr hs
  · rw [hpres, hnodes, hnode, hsigner]; exact h.signs
  · rw [hepoch, hs.myLeaf]; exact h.occupied
  · rw [hs.myLeaf]; exact h.born

/-- A world that differs in one member and in bookkeeping only. -/
theorem World.Inv.setMember (h : w.Inv) {id : ℕ} {m : Member β}
    (hlog : w'.log = w.log) (hviews : w'.views = w.views)
    (hmem : w'.members = Function.update w.members id (some m)) (hm : w.MemberOk id m)
    (hold : ∀ m₀, w.members id = some m₀ → m.group.myLeaf = m₀.group.myLeaf ∧
      m₀.group.epoch ≤ m.group.epoch) : w'.Inv := by
  have hext : ∀ (q : ℕ) (v : View β), w.views[q]? = some v → w'.views[q]? = some v := by
    intro q v hv; rw [hviews]; exact hv
  refine ⟨⟨?_, ?_, ?_⟩, fun id' m' hm' => ?_, fun p e he => ?_⟩
  · rw [hlog, hviews]; exact h.linked.length
  · rw [hviews]; exact h.linked.wf
  · rw [hlog, hviews]; exact h.linked.entry
  · rw [hmem] at hm'
    by_cases he : id' = id
    · subst he
      rw [Function.update_self] at hm'
      exact Option.some.inj hm' ▸ hm.mono hext
    · rw [Function.update_of_ne he] at hm'
      exact (h.member id' m' hm').mono hext
  · rw [hlog] at he
    obtain ⟨id', m', hm', hleaf, hid, hp⟩ := h.committer p e he
    by_cases hi : id' = id
    · subst hi
      obtain ⟨hl, he'⟩ := hold m' hm'
      exact ⟨id', m, by rw [hmem, Function.update_self], hl.trans hleaf, hid, by omega⟩
    · exact ⟨id', m', by rw [hmem, Function.update_of_ne hi]; exact hm', hleaf, hid, hp⟩

/-- **Two members never share a leaf in one epoch**: the later one entered at a blank leaf, and
the earlier one's has been populated ever since it entered. -/
theorem World.Inv.epoch_lt_of_myLeaf_eq (h : w.Inv) {id id' : ℕ} {m m' : Member β}
    (hm : w.members id = some m) (hm' : w.members id' = some m') (hlt : id < id')
    (hleaf : m.group.myLeaf = m'.group.myLeaf) : m.group.epoch < id' := by
  by_contra hle
  obtain ⟨q, rfl⟩ : ∃ q, id' = q + 1 := ⟨id' - 1, by omega⟩
  obtain ⟨v, hv⟩ := (h.member id m hm).getElem?_views (q := q) (by omega)
  refine (h.member id m hm).occupied q v (by omega) (by omega) hv ?_
  rw [hleaf]
  exact (h.member _ m' hm').born q v rfl hv

/-- A member that has not applied an entry is not its committer. -/
theorem World.Inv.ne_committer (h : w.Inv) {id : ℕ} {m : Member β} {e : Entry β}
    (hm : w.members id = some m) (he : w.log[m.group.epoch]? = some e) :
    e.commit.senderLeaf ≠ m.group.myLeaf := by
  intro heq
  obtain ⟨id', m', hm', hleaf, hid, hep⟩ := h.committer _ e he
  have hent := (h.member id m hm).entered
  rcases Nat.lt_trichotomy id id' with hlt | rfl | hlt
  · have := h.epoch_lt_of_myLeaf_eq hm hm' hlt (heq.symm.trans hleaf.symm)
    omega
  · rw [hm] at hm'
    cases hm'
    omega
  · have := h.epoch_lt_of_myLeaf_eq hm' hm hlt (hleaf.trans heq)
    omega

/-! ### Every step keeps the invariant -/

/-- A member's leaf stays as it is unless the commit removes it. -/
theorem Committed.leaf_next {v : View β} {coins : CommitCoins β} {c : Commit β}
    {pre : List (TreeNode β)} (hc : Committed v coins c pre) {leaf : ℕ} {lp : LeafKeyPackage β}
    (hlp : v.nodes[v.node leaf]? = some (.leaf lp)) (hrem : c.op ≠ .remove leaf) :
    (v.next coins c pre).nodes[v.node leaf]? = some (.leaf lp) := by
  have hle : v.capacity - 1 ≤ v.node leaf := Nat.le_add_right _ _
  rw [getElem?_next_of_notMem fun hd => absurd (lt_of_mem_directPath hc.sender hd) (by omega)]
  refine getElem?_splice hc.spliced hle hlp fun leaf' he hn => hrem ?_
  rw [he]
  congr 1
  simp only [View.node, leafToNode] at hn
  omega

/-- A removed leaf is blank afterwards. -/
theorem Committed.blank_next {v : View β} {coins : CommitCoins β} {c : Commit β}
    {pre : List (TreeNode β)} (hc : Committed v coins c pre)
    (hlen : v.nodes.length = 2 * v.capacity - 1) {leaf : ℕ} (hrem : c.op = .remove leaf) :
    (v.next coins c pre).nodes[v.node leaf]? = some .blank := by
  have hle : v.capacity - 1 ≤ v.node leaf := Nat.le_add_right _ _
  have hsp := hc.spliced
  rw [hrem] at hsp
  obtain ⟨hlt, -, hb, -⟩ := splice_remove hsp
  rw [getElem?_next_of_notMem fun hd => absurd (lt_of_mem_directPath hc.sender hd) (by omega)]
  refine hb _ (.refl _) ?_
  rw [hlen, View.node, leafToNode]
  omega

/-- A member that is in the next epoch, with the keys of that epoch. -/
theorem World.MemberOk.next {id : ℕ} {m : Member β} {g : Group β} {e : Entry β} {v : View β}
    {pre : List (TreeNode β)} (h : w.MemberOk id m) (hpres : m.present = true)
    (hext : ∀ (q : ℕ) (v : View β), w.views[q]? = some v → w'.views[q]? = some v)
    (hview : m.group.view = v) (hlen : v.nodes.length = 2 * v.capacity - 1)
    (hc : Committed v e.coins e.commit pre)
    (hnext : w'.views[m.group.epoch + 1]? = some (v.next e.coins e.commit pre))
    (hg : g.view = v.next e.coins e.commit pre) (hmy : g.myLeaf = m.group.myLeaf)
    (happ : g.applicationSecret = deriveApplicationSecret (v.next e.coins e.commit pre).epochSecret)
    (hholds : e.commit.op ≠ .remove m.group.myLeaf → Holds (v.next e.coins e.commit pre) g)
    {delivered : ℕ → ℕ} : w'.MemberOk id ⟨m.signer, g, delivered⟩ := by
  obtain ⟨lp, hlp, hid⟩ := h.signs hpres
  subst hview
  have hepoch : g.epoch = m.group.epoch + 1 := congrArg View.epoch hg
  have hsecret : g.epochSecret = (m.group.view.next e.coins e.commit pre).epochSecret :=
    congrArg View.epochSecret hg
  have hcap : g.capacity = m.group.capacity := congrArg View.capacity hg
  have hnodes : g.nodes = (m.group.view.next e.coins e.commit pre).nodes :=
    congrArg View.nodes hg
  have hnode : g.leafNode = m.group.leafNode := by rw [leafNode, leafNode, hmy, hcap]
  have hrem : (⟨m.signer, g, delivered⟩ : Member β).present = true →
      e.commit.op ≠ .remove m.group.myLeaf := by
    intro hp hrem
    have hb := hc.blank_next hlen hrem
    have hb' : g.nodes[leafToNode g.capacity m.group.myLeaf]? = some .blank := by
      rw [hnodes, hcap]; exact hb
    simp [Member.present, isMember, hmy, hb'] at hp
  have hback : ∀ (q : ℕ) (v : View β), q ≤ m.group.epoch → w'.views[q]? = some v →
      w.views[q]? = some v := by
    intro q v hq hv
    obtain ⟨v', hv'⟩ := h.getElem?_views hq
    rw [hv', Option.some.inj ((hext q v' hv').symm.trans hv)]
  constructor
  · exact hepoch ▸ Nat.le_succ_of_le h.entered
  · exact hepoch ▸ hnext.trans (congrArg some hg.symm)
  · exact happ.trans (congrArg _ hsecret.symm)
  · exact fun hp => hg ▸ hholds (hrem hp)
  · intro hp
    refine ⟨lp, ?_, hid⟩
    show g.nodes[g.leafNode]? = _
    rw [hnode, hnodes]
    exact hc.leaf_next hlp (hrem hp)
  · intro q v' hq hlt hv'
    have hq' : q ≤ m.group.epoch := by
      have : q < m.group.epoch + 1 := hepoch ▸ hlt
      omega
    have hv := hback q v' hq' hv'
    show v'.nodes[v'.node g.myLeaf]? ≠ _
    rw [hmy]
    rcases Nat.lt_or_ge q m.group.epoch with hlt' | hge
    · exact h.occupied q v' hq hlt' hv
    · obtain rfl : q = m.group.epoch := by omega
      obtain rfl : m.group.view = v' := Option.some.inj (h.view.symm.trans hv)
      have hlp' : m.group.view.nodes[m.group.view.node m.group.myLeaf]? = some (.leaf lp) := hlp
      rw [hlp']
      simp
  · intro q v' hq hv'
    have hent := h.entered
    show v'.nodes[v'.node g.myLeaf]? = _
    rw [hmy]
    exact h.born q v' hq (hback q v' (by omega) hv')

variable [LawfulCrypto β]

/-- The founder's state. -/
theorem create_spec {signer dhSecret kemSecret groupId init : β} {capacity : ℕ} {g : Group β}
    (h : Group.create signer capacity dhSecret kemSecret groupId init = .ok g) :
    g.view.WellFormed ∧ g.epoch = 0 ∧ g.myLeaf = 0 ∧ g.capacity = capacity ∧
      g.applicationSecret = deriveApplicationSecret g.epochSecret ∧
      g.myLeafKeys = some (dhSecret, kemSecret) ∧ (∀ n, g.knownSecrets n = none) ∧
      (∀ n, g.nodes[n]? = if n < 2 * capacity - 1 then
        some (if n = leafToNode capacity 0 then
          .leaf (MyLeafKeyPackage.generate signer dhSecret kemSecret).public else .blank)
        else none) ∧ FreshChains g := by
  unfold Group.create at h
  split_ifs at h with hcap hmax
  have hnodes : ∀ n, ((List.replicate (2 * capacity - 1) (TreeNode.blank (β := β))).set
      (leafToNode capacity 0) (.leaf (MyLeafKeyPackage.generate signer dhSecret
        kemSecret).public))[n]? = if n < 2 * capacity - 1 then
        some (if n = leafToNode capacity 0 then
          .leaf (MyLeafKeyPackage.generate signer dhSecret kemSecret).public else .blank)
        else none := by
    intro n
    rw [List.getElem?_set, List.getElem?_replicate, List.length_replicate]
    by_cases hn : leafToNode capacity 0 = n
    · subst hn; simp
    · simp [hn, Ne.symm hn]
  have hcap' : capacityValid capacity = true := by simpa using hcap
  obtain rfl := Except.ok.inj h
  refine ⟨⟨hcap', Nat.not_lt.1 hmax, ⟨by simp [view], ?_, ?_⟩, by simp [view]⟩, rfl,
    rfl, rfl, rfl, rfl, fun _ => rfl, hnodes, rfl, rfl, fun _ => rfl⟩
  · intro n lp hn
    have hn' := (hnodes n).symm.trans hn
    split_ifs at hn' with h1 h2
    · obtain rfl := TreeNode.leaf.inj (Option.some.inj hn')
      have hle : capacity - 1 ≤ n := h2 ▸ Nat.le_add_right _ _
      exact ⟨hle, MyLeafKeyPackage.generate_popValid _ _ _⟩
    · cases hn'
  · intro n pk hn
    have hn' := (hnodes n).symm.trans hn
    split_ifs at hn' with h1 h2
    · cases hn'
    · cases hn'

theorem holds_of_create {signer dhSecret kemSecret groupId init : β} {capacity : ℕ} {g : Group β}
    (h : Group.create signer capacity dhSecret kemSecret groupId init = .ok g) :
    Holds g.view g ∧ ∃ lp, g.nodes[g.leafNode]? = some (.leaf lp) ∧
      lp.identity = publicIdentity signer := by
  obtain ⟨hv, -, hmy, hcap, happ, hkeys, hknown, hnodes, -⟩ := create_spec h
  have hlt : g.myLeaf < g.view.capacity := by
    have := hv.two_le
    omega
  have hnode : g.leafNode = leafToNode capacity 0 := by rw [leafNode, hmy, hcap]
  have hleaf : g.nodes[g.leafNode]? = some (.leaf
      (MyLeafKeyPackage.generate signer dhSecret kemSecret).public) := by
    have h2 : 2 ≤ capacity := hcap ▸ hv.two_le
    rw [hnodes, hnode, if_pos (by unfold leafToNode; omega), if_pos rfl]
  refine ⟨⟨rfl, happ, hlt, ⟨_, dhSecret, kemSecret, hleaf, hkeys, rfl⟩, fun n pk _ hpk => ?_,
    fun n s hs => ?_⟩, _, hleaf, rfl⟩
  · have hn := (hnodes n).symm.trans hpk
    split_ifs at hn
    · cases hn
    · cases hn
  · rw [hknown] at hs
    cases hs

theorem World.IsStart.inv (h : w.IsStart) : w.Inv := by
  obtain ⟨signer, capacity, dh, kem, gid, init, g, hg, rfl⟩ := h
  obtain ⟨hv, hepoch, -, -, happ, -⟩ := create_spec hg
  obtain ⟨hholds, hsigns⟩ := holds_of_create hg
  refine ⟨⟨rfl, fun p v hp => ?_, fun p e he => ?_⟩, fun id m hm => ?_, fun p e he => ?_⟩
  · cases p with
    | zero =>
      obtain rfl : g.view = v := by simpa [World.start] using hp
      exact ⟨hv, hepoch⟩
    | succ p => simp [World.start] at hp
  · simp [World.start] at he
  · by_cases hid : id = 0
    · subst hid
      obtain rfl : (⟨signer, g, fun _ => 0⟩ : Member β) = m := by simpa [World.start] using hm
      refine ⟨Nat.zero_le _, ?_, happ, fun _ => hholds, fun _ => hsigns, fun q v _ hq => ?_,
        fun q v hq => by omega⟩
      · show [g.view][g.epoch]? = _
        rw [hepoch]
        rfl
      · have hq' : q < g.epoch := hq
        omega
    · simp [World.start, Function.update_of_ne hid] at hm
  · simp [World.start] at he

theorem getElem?_append_some {α : Type} {l : List α} {a b : α} {i : ℕ} :
    (l ++ [a])[i]? = some b ↔ l[i]? = some b ∨ (i = l.length ∧ b = a) := by
  rcases Nat.lt_trichotomy i l.length with hlt | rfl | hlt
  · rw [List.getElem?_append_left hlt]
    have hne : i ≠ l.length := by omega
    simp [hne]
  · simp [eq_comm]
  · rw [List.getElem?_append_right (by omega), List.getElem?_eq_none (l := l) (by omega)]
    have h1 : i - l.length ≠ 0 := by omega
    have h2 : i ≠ l.length := by omega
    simp [h1, h2]

omit [LawfulCrypto β] in
/-- The log and the views still fit after a commit. -/
theorem World.Linked.append (h : w.Linked) {v : View β} {e : Entry β} {pre : List (TreeNode β)}
    (hv : w.views[w.log.length]? = some v) (hc : Committed v e.coins e.commit pre)
    (hop : ∀ leaf lp, e.commit.op = .add leaf lp → lp.popValid = true)
    (hwel : ∀ wel, e.welcome = some wel → ∃ pkg target,
      Welcomed v e.coins e.commit pkg target wel ∧ pkg.popValid = true) :
    (w.append e (v.next e.coins e.commit pre)).Linked := by
  obtain ⟨hwf, hep⟩ := h.wf _ _ hv
  have hlen := h.length
  refine ⟨by simp [World.append, hlen], fun p v' hp => ?_, fun p e' he => ?_⟩
  · rcases getElem?_append_some.1 hp with hp | ⟨rfl, rfl⟩
    · exact h.wf p v' hp
    · refine ⟨hc.next_wellFormed hwf hop, ?_⟩
      show v.epoch + 1 = _
      omega
  · rcases getElem?_append_some.1 he with he | ⟨rfl, rfl⟩
    · obtain ⟨v', pre', hv', hc', hpre, hnext, hw⟩ := h.entry p e' he
      exact ⟨v', pre', getElem?_append_some.2 (.inl hv'), hc', hpre,
        getElem?_append_some.2 (.inl hnext), hw⟩
    · exact ⟨v, pre, getElem?_append_some.2 (.inl hv), hc, hwf.shape.splice hop hc.spliced,
        getElem?_append_some.2 (.inr ⟨by omega, rfl⟩), hwel⟩

/-- **What the next commit of the log does to a member that has not applied it**: unless it
removes the member, the member accepts it and is in the next epoch. -/
theorem World.Inv.applyCommit [DecidableEq β] (h : w.Inv) {id : ℕ} {m : Member β} {e : Entry β}
    (hm : w.members id = some m) (hpres : m.present = true)
    (he : w.log[m.group.epoch]? = some e) (hrem : e.commit.op ≠ .remove m.group.myLeaf) :
    ∃ g pre low high, m.group.applyCommit e.commit = .ok g ∧
      Committed m.group.view e.coins e.commit pre ∧
      w.views[m.group.epoch + 1]? = some (m.group.view.next e.coins e.commit pre) ∧
      directPath m.group.capacity e.commit.senderLeaf = low ++ high ∧
      (∀ d ∈ high, Below d m.group.leafNode) ∧
      Advanced (m.group.view.next e.coins e.commit pre)
        (pathSecrets high (pathStep^[low.length] e.coins.pathSecret)) m.group g ∧
      Holds (m.group.view.next e.coins e.commit pre) g := by
  have hok := h.member id m hm
  obtain ⟨v, pre, hv, hc, hpre, hnext, -⟩ := h.linked.entry _ e he
  obtain rfl : m.group.view = v := Option.some.inj (hok.view.symm.trans hv)
  obtain ⟨g, low, high, hg, hsplit, hhigh, hadv, hholds⟩ :=
    (hok.holds hpres).applyCommit (h.linked.wf _ _ hv).1 hc hpre (h.ne_committer hm he) hrem
  exact ⟨g, pre, low, high, hg, hc, hnext, hsplit, hhigh, hadv, hholds⟩

omit [LawfulCrypto β] in
/-- Two members of one epoch stand at different leaves. -/
theorem World.Inv.myLeaf_ne (h : w.Inv) {id id' : ℕ} {m m' : Member β}
    (hm : w.members id = some m) (hm' : w.members id' = some m') (hne : id ≠ id')
    (he : m'.group.epoch = m.group.epoch) : m.group.myLeaf ≠ m'.group.myLeaf := by
  intro hl
  have hent := (h.member id m hm).entered
  have hent' := (h.member id' m' hm').entered
  rcases Nat.lt_or_gt_of_ne hne with hlt | hlt
  · have := h.epoch_lt_of_myLeaf_eq hm hm' hlt hl
    omega
  · have := h.epoch_lt_of_myLeaf_eq hm' hm hlt hl.symm
    omega

omit [Crypto β] [LawfulCrypto β] in
theorem GroupOp.ne_remove_of_removes {op : GroupOp β} {leaf : ℕ} (h : op.removes leaf = false) :
    op ≠ .remove leaf := by
  rintro rfl
  simp [GroupOp.removes] at h

/-- A commit keeps the invariant. -/
theorem World.Inv.commit (h : w.Inv) {id : ℕ} {coins : CommitCoins β} {p : Proposal β}
    {m : Member β} {g : Group β} {c : Commit β} {welcome : Option (Welcome β)}
    (hm : w.members id = some m) (hpres : m.present = true) (hhead : m.group.epoch = w.log.length)
    (hpop : p.popValid = true) (hp : m.propose coins p = .ok (g, c, welcome)) :
    ((w.append ⟨coins, c, welcome⟩ g.view).setMember id ⟨m.signer, g, fun _ => 0⟩).Inv := by
  have hok := h.member id m hm
  have hwf := (h.linked.wf _ _ hok.view).1
  have hholds := hok.holds hpres
  obtain ⟨hsender, hop, ⟨pre, hc, hadv⟩, hwel⟩ :=
    propose_spec hwf hholds (hok.signs hpres) hpop hp
  replace hop := fun leaf lp he => (hop leaf lp he).2
  have hpre := hwf.shape.splice hop hc.spliced
  have hlinked := h.linked.append (e := ⟨coins, c, welcome⟩) (hhead ▸ hok.view) hc hop hwel
  rw [← hadv.view] at hlinked
  have hext : ∀ (q : ℕ) (v : View β), w.views[q]? = some v →
      (w.append ⟨coins, c, welcome⟩ g.view).views[q]? = some v :=
    fun q v hv => getElem?_append_some.2 (.inl hv)
  have hlen := h.linked.length
  have hnew : ∀ delivered, (w.append ⟨coins, c, welcome⟩ g.view).MemberOk id
      ⟨m.signer, g, delivered⟩ := fun _ =>
    hok.next (e := ⟨coins, c, welcome⟩) hpres hext rfl hwf.shape.length hc
      (getElem?_append_some.2 (.inr ⟨by omega, hadv.view.symm⟩)) hadv.view hadv.myLeaf hadv.app
      (fun hrem => hholds.next_committer hc hpre hsender hrem hadv)
  have hepoch : g.epoch = m.group.epoch + 1 := congrArg View.epoch hadv.view
  refine ⟨⟨hlinked.length, hlinked.wf, hlinked.entry⟩, fun id' m' hm' => ?_, fun q e he => ?_⟩
  · rcases World.members_setMember_eq_some.1 hm' with ⟨rfl, rfl⟩ | ⟨-, hm'⟩
    · exact (hnew _).mono fun _ _ hv => hv
    · exact (h.member id' m' hm').mono hext
  · rcases getElem?_append_some.1 he with he | ⟨rfl, rfl⟩
    · obtain ⟨id', m', hm', hleaf, hid, hq⟩ := h.committer q e he
      by_cases hi : id' = id
      · subst hi
        obtain rfl := Option.some.inj (hm.symm.trans hm')
        refine ⟨id', _, World.members_setMember_self, hadv.myLeaf.trans hleaf, hid, ?_⟩
        show q < g.epoch
        omega
      · exact ⟨id', m', (World.members_setMember_of_ne hi).trans hm', hleaf, hid, hq⟩
    · refine ⟨id, _, World.members_setMember_self, hadv.myLeaf.trans hsender.symm, ?_, ?_⟩
      · exact hhead ▸ hok.entered
      · show w.log.length < g.epoch
        omega

/-- **What joining with an entry of the log does**: whoever succeeds holds the added key package
and is in the epoch the entry leads to. -/
theorem World.Inv.join [DecidableEq β] (h : w.Inv) {entry : ℕ} {signer dhSecret kemSecret : β}
    {coins : CommitCoins β} {c : Commit β} {wel : Welcome β} {g : Group β}
    (he : w.log[entry]? = some ⟨coins, c, some wel⟩)
    (hg : Group.join (MyLeafKeyPackage.generate signer dhSecret kemSecret) wel c = .ok g) :
    ∃ v pre pkg target low high,
      Advanced (v.next coins c pre) (pathSecrets high (pathStep^[low.length] coins.pathSecret))
        (ofSnapshot (MyLeafKeyPackage.generate signer dhSecret kemSecret) (v.snapshot target)) g ∧
      Holds (v.next coins c pre) g ∧ w.views[entry]? = some v ∧ v.WellFormed ∧ v.epoch = entry ∧
      Committed v coins c pre ∧ w.views[entry + 1]? = some (v.next coins c pre) ∧
      Welcomed v coins c pkg target wel ∧ pkg.identity = publicIdentity signer ∧
      pkg.publicKey = ⟨x25519Public dhSecret, mlKemPublic kemSecret⟩ ∧
      directPath v.capacity c.senderLeaf = low ++ high ∧
      (∀ d ∈ high, Below d (v.node target)) := by
  obtain ⟨v, pre, hv, hc, hpre, hnext, hwel⟩ := h.linked.entry _ _ he
  obtain ⟨pkg, target, hw, -⟩ := hwel wel rfl
  obtain ⟨hwf, hep⟩ := h.linked.wf _ _ hv
  obtain ⟨hkey, hkid⟩ := key_of_join hw hg
  have hkp := MyLeafKeyPackage.generate_paired signer dhSecret kemSecret
  have hj : v.Joinable c.senderLeaf target := by
    by_contra hj
    rw [join_fails hwf hc hw hkp hkey hkid hj] at hg
    cases hg
  obtain ⟨j, low, high, hjoin, hsplit, hhigh, hadv, hholds⟩ :=
    join_spec hwf hc hpre hw hkp hkey hkid hj
  obtain rfl : j = g := Except.ok.inj (hjoin.symm.trans hg)
  exact ⟨v, pre, pkg, target, low, high, hadv, hholds, hv, hwf, hep, hc, hnext, hw, hkid,
    hkey.trans hkp, hsplit, hhigh⟩

omit [LawfulCrypto β] in
/-- Being handed a record keeps the invariant. -/
theorem World.Inv.handed (h : w.Inv) {id : ℕ} {m : Member β} (hm : w.members id = some m)
    (m' : Member β) (hs : SameCore m.group m'.group) (hsigner : m'.signer = m.signer) {record : β}
    {result : Result (ℕ × β)} : (w.handed id m' record result).Inv := by
  obtain ⟨opened, he⟩ := w.handed_eq id m' record result
  rw [he]
  refine h.setMember (m := m') rfl rfl rfl ((h.member id m hm).congr hs hsigner) fun m₀ hm₀ => ?_
  obtain rfl := Option.some.inj (hm.symm.trans hm₀)
  exact ⟨hs.myLeaf, (congrArg View.epoch hs.view).ge⟩

variable [DecidableEq β]

/-- Every step keeps the invariant. -/
theorem World.Inv.step {a : Action β} (h : w.Inv) (hs : w.step a = some w') : w'.Inv := by
  cases step_cases hs with
  | commit hm hpres hhead hpop hp => exact h.commit hm hpres hhead hpop hp
  | @apply id m e g hm he hpres hrem hg =>
    have hrem' := GroupOp.ne_remove_of_removes hrem
    obtain ⟨g', pre, low, high, hg', hc, hnext, hsplit, hhigh, hadv, hholds⟩ :=
      h.applyCommit hm hpres he hrem'
    obtain rfl : g' = g := Except.ok.inj (hg'.symm.trans hg)
    have hok := h.member id m hm
    have hwf := (h.linked.wf _ _ hok.view).1
    have hnew : w.MemberOk id ⟨m.signer, g', fun _ => 0⟩ :=
      hok.next hpres (fun _ _ hv => hv) rfl hwf.shape.length hc hnext hadv.view hadv.myLeaf
        hadv.app (fun _ => hholds)
    refine h.setMember (m := ⟨m.signer, g', fun _ => 0⟩) rfl rfl rfl hnew fun m₀ hm₀ => ?_
    obtain rfl := Option.some.inj (hm.symm.trans hm₀)
    have hepoch : g'.epoch = m.group.epoch + 1 := congrArg View.epoch hadv.view
    refine ⟨hadv.myLeaf, ?_⟩
    show m.group.epoch ≤ g'.epoch
    omega
  | @join entry signer dh kem coins c wel g hnone he hg =>
    obtain ⟨v, pre, pkg, target, low, high, hadv, hholds, hv, hwf, hep, hc, hnext, hw, hkid, -⟩ :=
      h.join he hg
    have hepoch : g.epoch = entry + 1 := by
      rw [show g.epoch = v.epoch + 1 from congrArg View.epoch hadv.view, hep]
    have hmy : g.myLeaf = target := hadv.myLeaf
    have hnew : w.MemberOk (entry + 1) ⟨signer, g, fun _ => 0⟩ := by
      refine ⟨hepoch.ge, ?_, ?_, fun _ => ?_, fun _ => ?_, fun q v' hq hlt => ?_,
        fun q v' hq hv' => ?_⟩
      · exact hepoch ▸ hnext.trans (congrArg some hadv.view.symm)
      · exact hadv.app.trans (congrArg _ (congrArg View.epochSecret hadv.view).symm)
      · exact hadv.view ▸ hholds
      · refine ⟨pkg, ?_, hkid⟩
        have hnodes : g.nodes = (v.next coins c pre).nodes := congrArg View.nodes hadv.view
        have hcap : g.capacity = v.capacity := congrArg View.capacity hadv.view
        have hsp := hc.spliced
        rw [hw.op] at hsp
        obtain ⟨-, -, rfl⟩ := splice_add hsp
        have hnode : leafToNode v.capacity target < v.nodes.length := by
          have := hw.lt
          rw [hwf.shape.length, leafToNode]
          omega
        have hnotMem : leafToNode v.capacity target ∉ directPath v.capacity c.senderLeaf :=
          fun hd => absurd (lt_of_mem_directPath hc.sender hd)
            (Nat.not_lt.2 (Nat.le_add_right _ _))
        show g.nodes[leafToNode g.capacity g.myLeaf]? = _
        rw [hnodes, hcap, hmy, getElem?_next_of_notMem hnotMem, List.getElem?_set_self hnode]
      · have hlt' : q < g.epoch := hlt
        omega
      · obtain rfl : q = entry := by omega
        obtain rfl : v = v' := Option.some.inj (hv.symm.trans hv')
        show v.nodes[v.node g.myLeaf]? = _
        rw [hmy]
        exact hw.blank
    refine h.setMember (m := ⟨signer, g, fun _ => 0⟩) rfl rfl rfl hnew fun m₀ hm₀ => ?_
    rw [hnone] at hm₀
    cases hm₀
  | @sealRecord id plaintext record m g hm hpres hg =>
    have hsame := sameCore_sealRecord hg
    refine h.setMember (m := { m with group := g }) rfl rfl rfl
      ((h.member id m hm).congr hsame rfl) fun m₀ hm₀ => ?_
    obtain rfl := Option.some.inj (hm.symm.trans hm₀)
    exact ⟨hsame.myLeaf, (congrArg View.epoch hsame.view).ge⟩
  | @deliver id leaf m record plaintext hm hpres hleaf hrec =>
    exact h.handed hm ⟨m.signer, _, _⟩ (sameCore_openRecord _ _) rfl
  | @receive id m record hm =>
    exact h.handed hm { m with group := _ } (sameCore_openRecord _ _) rfl

/-- **Every reachable world satisfies the invariant.** -/
theorem inv_of_reachable {ok : World β → Action β → Prop} (h : (machine β).Reachable ok w) :
    w.Inv :=
  h.invariant (I := World.Inv) (fun _ hs => World.IsStart.inv hs)
    fun _ _ _ _ hi _ hs => World.Inv.step hi hs

end Invariant

end Group

end NovaChannel
