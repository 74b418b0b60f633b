import NovaChannel.Group.Convergence

/-!
# Where secrets come from

* `Stores g` : everything a member's state holds; `World.commits`, `World.welcomes` : everything
  broadcast;
* `derives_of_sealed` : the holder of a key pair derives what was sealed to it;
* `World.Sym` : where the secrets in every state of a symbolic run come from.
-/

namespace NovaChannel

namespace Group

open Crypto Term

/-! ### Knowledge -/

/-- The fields of a member's state. -/
inductive Stores (g : Group Bytes) : Bytes → Prop
  | groupId : Stores g g.groupId
  | capacity : Stores g (.num g.capacity)
  | node {n : TreeNode Bytes} (h : n ∈ g.nodes) : Stores g n.write
  | epoch : Stores g (.num g.epoch)
  | epochSecret : Stores g g.epochSecret
  | applicationSecret : Stores g g.applicationSecret
  | transcriptHash : Stores g g.transcriptHash
  | myLeaf : Stores g (.num g.myLeaf)
  | dhSecret {keys : Bytes × Bytes} (h : g.myLeafKeys = some keys) : Stores g keys.1
  | kemSecret {keys : Bytes × Bytes} (h : g.myLeafKeys = some keys) : Stores g keys.2
  | knownSecret {n : ℕ} {s : Bytes} (h : g.knownSecrets n = some s) : Stores g s
  | sendSeq : Stores g (.num g.sendSeq)
  | sendChain : Stores g g.sendChain
  | recvChain {leaf n : ℕ} {chain : Bytes} (h : g.recvChains leaf = some (chain, n)) :
      Stores g chain

/-- Every commit broadcast so far. -/
def World.commits (w : World Bytes) : Set Bytes := {t | ∃ e ∈ w.log, t = e.commit.write}

/-- Every welcome broadcast so far. -/
def World.welcomes (w : World Bytes) : Set Bytes :=
  {t | ∃ e ∈ w.log, ∃ wel, e.welcome = some wel ∧ t = wel.write}

/-- Everything in a state, every commit and every welcome. -/
def World.holderKnows (w : World Bytes) (g : Group Bytes) : Set Bytes :=
  {t | Stores g t} ∪ w.commits ∪ w.welcomes

/-! ### Opening an envelope -/

section Sealed

variable {K : Set Bytes}

/-- An envelope, written out. -/
theorem sealToNode_term {coins : SealCoins Bytes} {a b aad m : Bytes} {s : SealedToNode Bytes}
    (h : sealToNode coins ⟨dhPublic a, kemPublic b⟩ aad m = .ok s) :
    s = ⟨dhPublic coins.ephSecret, .fn .kemCiphertext b coins.kemRandom,
      .aead (deriveSealKey (dhShared coins.ephSecret a) (.fn .kemShared b coins.kemRandom))
        zeroNonce aad m⟩ := (sealToNode_eq_ok h).2

/-- **The holder of a key pair derives what was sealed to it.** -/
theorem derives_of_sealed {coins : SealCoins Bytes} {a b aad m : Bytes} {s : SealedToNode Bytes}
    (h : sealToNode coins ⟨dhPublic a, kemPublic b⟩ aad m = .ok s) (ha : Derives K a)
    (hb : Derives K b) (hs : Derives K s.write) : Derives K m := by
  rw [sealToNode_term h] at hs
  have heph := hs.of_list (t := dhPublic coins.ephSecret) (by simp)
  have hct := hs.of_list (t := .fn .kemCiphertext b coins.kemRandom) (by simp)
  have haead := hs.of_list (t := .aead (deriveSealKey (dhShared coins.ephSecret a)
    (.fn .kemShared b coins.kemRandom)) zeroNonce aad m) (by simp)
  have hdh : Derives K (dhShared coins.ephSecret a) := by
    rw [dhShared_comm]; exact .dh ha heph
  have hlist : Derives K (list [dhShared coins.ephSecret a, .fn .kemShared b coins.kemRandom]) :=
    Derives.list (by simp [hdh, Derives.decapsulate hb hct])
  have hkey : Derives K (deriveSealKey (dhShared coins.ephSecret a)
      (.fn .kemShared b coins.kemRandom)) := .fn rfl (.fn rfl .nil hlist) (.lit _)
  exact .aeadOpen hkey haead

/-- Whoever opens a welcome has the epoch secret of the epoch before the commit. -/
theorem derives_epochSecret {v : View Bytes} {target : ℕ} {signature : Bytes}
    (h : Derives K (frame [(v.snapshot target).write, signature])) : Derives K v.epochSecret := by
  have hs : Derives K (v.snapshot target).write := Derives.of_list h (by simp)
  exact Derives.of_list hs (by simp [View.snapshot])

theorem derives_applicationSecret {s : Bytes} (h : Derives K s) :
    Derives K (deriveApplicationSecret s) := .fn rfl (.fn rfl .nil h) (.lit _)

end Sealed

/-! ### Chains -/

section Chains

variable {β : Type} [Crypto β] {g g' : Group β}

/-- Every chain key held is one of the epoch's chains, at the position it is counted at. -/
structure Chained (g : Group β) : Prop where
  send : g.sendChain = chainAt g.applicationSecret g.myLeaf g.sendSeq
  recv : ∀ leaf chain n, g.recvChains leaf = some (chain, n) →
    chain = chainAt g.applicationSecret leaf n

theorem FreshChains.chained (h : FreshChains g) : Chained g :=
  ⟨h.sendChain_eq, fun leaf chain n hr => by rw [h.recvChains] at hr; cases hr⟩

theorem Chained.recvChain_eq (h : Chained g) (leaf : ℕ) :
    (g.recvChain leaf).1 = chainAt g.applicationSecret leaf (g.recvChain leaf).2 := by
  unfold Group.recvChain
  cases hr : g.recvChains leaf with
  | none => rfl
  | some entry => exact h.recv leaf entry.1 entry.2 hr

theorem Chained.sealRecord (h : Chained g) {plaintext record : β}
    (hs : g.sealRecord plaintext = .ok (g', record)) : Chained g' := by
  obtain ⟨-, rfl, -⟩ := sealRecord_eq_ok hs
  refine ⟨?_, h.recv⟩
  show (advance g.sendChain).1 = _
  rw [h.send, chainAt_succ]

/-- One receive chain moved to a position of its own chain. -/
theorem Chained.update (h : Chained g) {leaf n : ℕ} {chain : β}
    (hc : chain = chainAt g.applicationSecret leaf n) :
    Chained { g with recvChains := Function.update g.recvChains leaf (some (chain, n)) } := by
  refine ⟨h.send, fun l chain' n' hr => ?_⟩
  by_cases hl : l = leaf
  · subst hl
    simp only [Function.update_self, Option.some.injEq, Prod.mk.injEq] at hr
    obtain ⟨rfl, rfl⟩ := hr
    exact hc
  · simp only [Function.update_of_ne hl] at hr
    exact h.recv l chain' n' hr

/-- Opening, successful or not, keeps every chain at its position. -/
theorem Chained.openRecord (h : Chained g) (record : β) : Chained (g.openRecord record).1 := by
  unfold Group.openRecord
  split
  · exact h
  · rename_i epoch leaf seq header ct _
    split_ifs
    · exact h
    · exact h
    · exact h
    · have hset := h.update (h.recvChain_eq leaf)
      unfold openNext
      split_ifs
      · exact hset
      · split
        · exact hset
        · split
          · exact hset
          · rename_i next hnext
            obtain ⟨-, rfl⟩ := checkedAdd64_eq_some.1 hnext
            refine hset.update ?_
            rw [h.recvChain_eq, ← chainAt_succ]

end Chains

/-! ### Provenance -/

/-- The secret of the `i`-th node of the path committed in epoch `q`. -/
def secretAt (q i : ℕ) : Bytes := pathStep^[i] (.name (.pathSecret q))

/-- The leaf `leaf` of a tree carries the public key of `keys`. -/
def View.HasKey (v : View Bytes) (leaf : ℕ) (keys : Bytes × Bytes) : Prop :=
  ∃ lp, v.nodes[v.node leaf]? = some (.leaf lp) ∧
    lp.publicKey = ⟨dhPublic keys.1, kemPublic keys.2⟩

/-- `s` is the secret of node `n` in the path update of an earlier epoch; while the member `g` is
in the tree, its own leaf was in that epoch's tree too. -/
def World.Sourced (w : World Bytes) (g : Group Bytes) (n : ℕ) (s : Bytes) : Prop :=
  ∃ q e i v, w.log[q]? = some e ∧ w.views[q + 1]? = some v ∧ q < g.epoch ∧
    (directPath v.capacity e.commit.senderLeaf)[i]? = some n ∧ s = secretAt q i ∧
    (g.isMember g.myLeaf = true → ∀ keys, g.myLeafKeys = some keys → v.HasKey g.myLeaf keys)

/-- A member of a symbolic run. -/
structure World.MemberSym (w : World Bytes) (m : Member Bytes) : Prop where
  names : ∃ owner k, m.signer = .name (.identity owner) ∧
    m.group.myLeafKeys = some (.name (.leafDh k), .name (.leafKem k))
  chained : Chained m.group
  known : ∀ n s, m.group.knownSecrets n = some s → w.Sourced m.group n s

/-- A world of a symbolic run. -/
structure World.Sym (w : World Bytes) : Prop where
  genesis : ∃ v, w.views[0]? = some v ∧ v.groupId = .name .groupId ∧
    v.epochSecret = initialEpochSecret (.name .init) (.name .groupId) ∧
    v.transcriptHash = genesisTranscriptHash (.name .groupId) ∧
    (∀ (n : ℕ) lp, v.nodes[n]? = some (.leaf lp) → ∃ owner k, lp = (package owner k).public) ∧
    ∀ (n : ℕ) pk, v.nodes[n]? ≠ some (.parent pk)
  entry : ∀ p (e : Entry Bytes), w.log[p]? = some e → e.coins = coinsOf p ∧
    ∀ leaf lp, e.commit.op = .add leaf lp →
      (∃ owner k, lp = (package owner k).public) ∧ ∃ wel, e.welcome = some wel
  member : ∀ id m, w.members id = some m → w.MemberSym m

section Sym

variable {w w' : World Bytes}

theorem lookup_pathSecrets_eq_some {path : List ℕ} {secret s : Bytes} {d : ℕ}
    (h : (pathSecrets path secret).lookup d = some s) :
    ∃ i, path[i]? = some d ∧ s = pathStep^[i] secret := by
  induction path generalizing secret with
  | nil => cases h
  | cons e path ih =>
    rw [pathSecrets, List.lookup_cons] at h
    split at h
    · rename_i he
      exact ⟨0, congrArg some (beq_iff_eq.1 he).symm, (Option.some.inj h).symm⟩
    · obtain ⟨i, hi, hs⟩ := ih h
      exact ⟨i + 1, by simpa using hi, hs⟩

theorem World.MemberSym.mono {m : Member Bytes} (h : w.MemberSym m)
    (hlog : ∀ (q : ℕ) e, w.log[q]? = some e → w'.log[q]? = some e)
    (hviews : ∀ (q : ℕ) v, w.views[q]? = some v → w'.views[q]? = some v) : w'.MemberSym m := by
  refine ⟨h.names, h.chained, fun n s hs => ?_⟩
  obtain ⟨q, e, i, v, he, hv, hrest⟩ := h.known n s hs
  exact ⟨q, e, i, v, hlog q e he, hviews _ v hv, hrest⟩

/-- Records leave the provenance of a member's secrets alone. -/
theorem World.MemberSym.congr {m m' : Member Bytes} (h : w.MemberSym m)
    (hs : SameCore m.group m'.group) (hsigner : m'.signer = m.signer)
    (hc : Chained m'.group) : w.MemberSym m' := by
  refine ⟨?_, hc, fun n s hn => ?_⟩
  · rw [hsigner, hs.myLeafKeys]; exact h.names
  · rw [hs.known] at hn
    obtain ⟨q, e, i, v, he, hv, hq, hi, heq, hkey⟩ := h.known n s hn
    refine ⟨q, e, i, v, he, hv, ?_, hi, heq, ?_⟩
    · rw [show m'.group.epoch = m.group.epoch from congrArg View.epoch hs.view]; exact hq
    · rw [hs.myLeaf, hs.myLeafKeys, isMember_eq_of_view hs.view]; exact hkey

/-- A member that advances through entry `q` learns secrets of that entry's path. -/
theorem World.MemberSym.next {m : Member Bytes} {g₀ : Group Bytes} {q : ℕ} {e : Entry Bytes}
    {v : View Bytes} {pre : List (TreeNode Bytes)} {low high : List ℕ}
    (he : w.log[q]? = some e) (hq : v.epoch = q) (hcoins : e.coins = coinsOf q)
    (hnext : w.views[q + 1]? = some (v.next e.coins e.commit pre))
    (hsplit : directPath v.capacity e.commit.senderLeaf = low ++ high)
    (hadv : Advanced (v.next e.coins e.commit pre)
      (pathSecrets high (pathStep^[low.length] e.coins.pathSecret)) g₀ m.group)
    (hholds : m.group.isMember m.group.myLeaf = true →
      Holds (v.next e.coins e.commit pre) m.group)
    (hnames : ∃ owner k, m.signer = .name (.identity owner) ∧
      m.group.myLeafKeys = some (.name (.leafDh k), .name (.leafKem k)))
    (hold : ∀ n s, g₀.knownSecrets n = some s → g₀.epoch ≤ q ∧ w.Sourced g₀ n s ∧
      g₀.isMember g₀.myLeaf = true) : w.MemberSym m := by
  have hepoch : m.group.epoch = q + 1 := (congrArg View.epoch hadv.view).trans (congrArg (· + 1) hq)
  refine ⟨hnames, hadv.fresh.chained, fun n s hs => ?_⟩
  rw [hadv.known, insertKnown] at hs
  cases hl : (pathSecrets high (pathStep^[low.length] e.coins.pathSecret)).lookup n with
  | none =>
    rw [hl] at hs
    obtain ⟨hle, ⟨q', e', i, v', he', hv', hq', hi, heq, hkey⟩, hpres⟩ := hold n s hs
    refine ⟨q', e', i, v', he', hv', by omega, hi, heq, fun _ keys hkeys => ?_⟩
    rw [hadv.myLeafKeys] at hkeys
    rw [hadv.myLeaf]
    exact hkey hpres keys hkeys
  | some s' =>
    rw [hl] at hs
    obtain rfl : s' = s := Option.some.inj hs
    obtain ⟨i, hi, heq⟩ := lookup_pathSecrets_eq_some hl
    refine ⟨q, e, i + low.length, _, he, hnext, by omega, ?_, ?_, fun hpres keys hkeys => ?_⟩
    · show (directPath v.capacity e.commit.senderLeaf)[i + low.length]? = some n
      rw [hsplit, List.getElem?_append_right (by omega), Nat.add_sub_cancel]
      exact hi
    · rw [heq, hcoins, secretAt, Function.iterate_add_apply]
      rfl
    · obtain ⟨lp, dh, kem, hlp, hkeys', hpk⟩ := (hholds hpres).leaf
      obtain rfl : (dh, kem) = keys := Option.some.inj (hkeys'.symm.trans hkeys)
      refine ⟨lp, ?_, hpk⟩
      have hcap : m.group.capacity = v.capacity := congrArg View.capacity hadv.view
      rw [leafNode, hcap] at hlp
      exact hlp

/-- A world that extends the log, the views and the members of a symbolic one. -/
theorem World.Sym.extend (h : w.Sym)
    (hlog : ∀ (q : ℕ) e, w.log[q]? = some e → w'.log[q]? = some e)
    (hviews : ∀ (q : ℕ) v, w.views[q]? = some v → w'.views[q]? = some v)
    (hentry : ∀ (p : ℕ) e, w'.log[p]? = some e → w.log[p]? = some e ∨ (e.coins = coinsOf p ∧
      ∀ leaf lp, e.commit.op = .add leaf lp →
        (∃ owner k, lp = (package owner k).public) ∧ ∃ wel, e.welcome = some wel))
    (hmem : ∀ id m, w'.members id = some m → w.members id = some m ∨ w'.MemberSym m) :
    w'.Sym := by
  refine ⟨?_, fun p e he => ?_, fun id m hm => ?_⟩
  · obtain ⟨v, hv, hrest⟩ := h.genesis
    exact ⟨v, hviews 0 v hv, hrest⟩
  · exact (hentry p e he).elim (h.entry p e) id
  · exact (hmem id m hm).elim (fun hm => (h.member id m hm).mono hlog hviews) (fun h => h)

theorem World.Sym.handed (h : w.Sym) {id : ℕ} {m : Member Bytes} (hm : w.members id = some m)
    (m' : Member Bytes) (hs : SameCore m.group m'.group) (hsigner : m'.signer = m.signer)
    (hc : Chained m'.group) {record : Bytes} {result : Result (ℕ × Bytes)} : (w.handed id m' record result).Sym := by
  obtain ⟨opened, he⟩ := w.handed_eq id m' record result
  rw [he]
  refine h.extend (fun _ _ h => h) (fun _ _ h => h) (fun _ _ h => .inl h) fun id' m'' hm' => ?_
  rcases World.members_setMember_eq_some.1 hm' with ⟨rfl, rfl⟩ | ⟨-, hm'⟩
  · exact .inr (((h.member _ m hm).congr hs hsigner hc).mono (fun _ _ h => h) fun _ _ h => h)
  · exact .inl hm'

theorem sym_of_start {owner k capacity : ℕ} {g : Group Bytes}
    (hg : symCreate owner k capacity = .ok g) :
    (World.start (.name (.identity owner)) g).Sym := by
  obtain ⟨-, -, -, -, -, hkeys, hknown, hnodes, hfresh⟩ := create_spec hg
  have hg' := hg
  simp only [symCreate, Group.create] at hg'
  split_ifs at hg'
  obtain rfl := (Except.ok.inj hg').symm
  refine ⟨⟨_, rfl, rfl, rfl, rfl, fun n lp hn => ?_, fun n pk hn => ?_⟩, fun p e he => ?_,
    fun id m hm => ?_⟩
  · have hn' := (hnodes n).symm.trans hn
    split_ifs at hn'
    · exact ⟨owner, k, (TreeNode.leaf.inj (Option.some.inj hn')).symm⟩
    · cases hn'
  · have hn' := (hnodes n).symm.trans hn
    split_ifs at hn'
    · cases hn'
    · cases hn'
  · simp [World.start] at he
  · by_cases hid : id = 0
    · subst hid
      obtain rfl := (Option.some.inj hm).symm
      refine ⟨⟨owner, k, rfl, hkeys⟩, hfresh.chained, fun n s hs => ?_⟩
      cases hs
    · simp [World.start, Function.update_of_ne hid] at hm

/-- A commit of a symbolic run. -/
theorem World.Sym.commit (h : w.Sym) (hinv : w.Inv) {id : ℕ} {p : SymProposal}
    {m : Member Bytes} {g : Group Bytes} {c : Commit Bytes} {welcome : Option (Welcome Bytes)}
    (hm : w.members id = some m) (hpres : m.present = true) (hhead : m.group.epoch = w.log.length)
    (hpop : p.toProposal.popValid = true)
    (hp : m.propose (coinsOf w.log.length) p.toProposal = .ok (g, c, welcome))
    (hinv' : ((w.append ⟨coinsOf w.log.length, c, welcome⟩ g.view).setMember id
      ⟨m.signer, g, fun _ => 0⟩).Inv) :
    ((w.append ⟨coinsOf w.log.length, c, welcome⟩ g.view).setMember id
      ⟨m.signer, g, fun _ => 0⟩).Sym := by
  have hok := hinv.member id m hm
  obtain ⟨hwf, hep⟩ := hinv.linked.wf _ _ hok.view
  obtain ⟨hsender, hop, ⟨pre, hc, hadv⟩, -⟩ :=
    propose_spec hwf (hok.holds hpres) (hok.signs hpres) hpop hp
  have hsym := h.member id m hm
  refine h.extend (fun q e he => getElem?_append_some.2 (.inl he))
    (fun q v hv => getElem?_append_some.2 (.inl hv)) (fun q e he => ?_) fun id' m' hm' => ?_
  · rcases getElem?_append_some.1 he with he | ⟨rfl, rfl⟩
    · exact .inl he
    · refine .inr ⟨rfl, fun leaf lp ho => ?_⟩
      have hadd := (hop leaf lp ho).1
      refine ⟨?_, ?_⟩
      · cases p with
        | add owner k => exact ⟨owner, k, (Proposal.add.inj hadd).symm⟩
        | remove leaf => cases hadd
        | update => cases hadd
      · rw [hadd] at hp
        rcases propose_eq_ok hp with ⟨_, wel, _, hwel, _⟩ | ⟨_, he, _⟩ | ⟨he, _⟩
        · exact ⟨wel, hwel⟩
        · cases he
        · cases he
  · rcases World.members_setMember_eq_some.1 hm' with ⟨rfl, rfl⟩ | ⟨-, hm'⟩
    · refine .inr ?_
      have hnew := hinv'.member id' _ World.members_setMember_self
      have hviewslen := hinv.linked.length
      obtain ⟨owner, k, hsigner, hkeys⟩ := hsym.names
      refine World.MemberSym.next (e := ⟨coinsOf w.log.length, c, welcome⟩)
        (getElem?_append_some.2 (.inr ⟨rfl, rfl⟩)) (hep.trans hhead) rfl
        (getElem?_append_some.2 (.inr ⟨by omega, hadv.view.symm⟩)) (List.nil_append _).symm hadv
        (fun hp' => hadv.view ▸ hnew.holds hp') ⟨owner, k, hsigner, hadv.myLeafKeys.trans hkeys⟩
        fun n s hs => ⟨hhead.le, ?_, hpres⟩
      obtain ⟨q, e, i, v, he, hv, hrest⟩ := hsym.known n s hs
      exact ⟨q, e, i, v, getElem?_append_some.2 (.inl he), getElem?_append_some.2 (.inl hv), hrest⟩
    · exact .inl hm'

/-- **Every step of a symbolic run keeps track of where secrets come from.** -/
theorem World.Sym.step (h : w.Sym) (hinv : w.Inv) {a : SymAction}
    (hs : w.step (a.toAction w) = some w') : w'.Sym := by
  have hinv' := hinv.step hs
  cases a with
  | commit id p =>
    cases step_cases hs with
    | commit hm hpres hhead hpop hp => exact h.commit hinv hm hpres hhead hpop hp hinv'
  | apply id =>
    cases step_cases hs with
    | @apply _ m e g hm he hpres hrem hg =>
      obtain ⟨g', pre, low, high, hg', -, hnext, hsplit, -, hadv, hholds⟩ :=
        hinv.applyCommit hm hpres he (GroupOp.ne_remove_of_removes hrem)
      obtain rfl : g' = g := Except.ok.inj (hg'.symm.trans hg)
      have hsym := h.member id m hm
      refine h.extend (fun _ _ h => h) (fun _ _ h => h) (fun _ _ h => .inl h) fun id' m' hm' => ?_
      rcases World.members_setMember_eq_some.1 hm' with ⟨rfl, rfl⟩ | ⟨-, hm'⟩
      · refine .inr ?_
        obtain ⟨owner, k, hsigner, hkeys⟩ := hsym.names
        exact World.MemberSym.next (e := e) (v := m.group.view) he rfl
          (h.entry _ e he).1 hnext hsplit hadv (fun _ => hholds)
          ⟨owner, k, hsigner, hadv.myLeafKeys.trans hkeys⟩
          fun n s hs => ⟨Nat.le_refl _, hsym.known n s hs, hpres⟩
      · exact .inl hm'
  | join entry owner k =>
    cases step_cases hs with
    | @join _ _ _ _ coins c wel g hnone he hg =>
      obtain ⟨v, pre, pkg, target, low, high, hadv, hholds, -, -, hep, -, hnext, -, -, -, hsplit,
        -⟩ := hinv.join he hg
      refine h.extend (fun _ _ h => h) (fun _ _ h => h) (fun _ _ h => .inl h) fun id' m' hm' => ?_
      rcases World.members_setMember_eq_some.1 hm' with ⟨rfl, rfl⟩ | ⟨-, hm'⟩
      · refine .inr ?_
        exact World.MemberSym.next (e := ⟨coins, c, some wel⟩) he hep (h.entry _ _ he).1 hnext
          hsplit hadv (fun _ => hholds) ⟨owner, k, rfl, hadv.myLeafKeys⟩
          fun n s hs => by cases hs
      · exact .inl hm'
  | sealRecord id plaintext =>
    cases step_cases hs with
    | @sealRecord _ _ record m g hm hpres hg =>
      refine h.extend (fun _ _ h => h) (fun _ _ h => h) (fun _ _ h => .inl h) fun id' m' hm' => ?_
      rcases World.members_setMember_eq_some.1 hm' with ⟨rfl, rfl⟩ | ⟨-, hm'⟩
      · have hsym := h.member _ m hm
        have hnew : w.MemberSym { m with group := g } :=
          hsym.congr (sameCore_sealRecord hg) rfl (hsym.chained.sealRecord hg)
        exact .inr (hnew.mono (fun _ _ h => h) fun _ _ h => h)
      · exact .inl hm'
  | deliver id leaf =>
    cases step_cases hs with
    | @deliver _ _ m record plaintext hm hpres hleaf hrec =>
      exact h.handed hm ⟨m.signer, _, _⟩ (sameCore_openRecord _ _) rfl
        ((h.member id m hm).chained.openRecord record)
  | receive id record =>
    cases step_cases hs with
    | @receive _ m _ hm =>
      exact h.handed hm { m with group := _ } (sameCore_openRecord _ _) rfl
        ((h.member id m hm).chained.openRecord record)

theorem inv_of_symbolic {ok : World Bytes → SymAction → Prop}
    (h : symbolicMachine.Reachable ok w) : w.Inv := inv_of_reachable (machine_of_symbolic h)

/-- **Every world of a symbolic run knows where its secrets come from.** -/
theorem sym_of_reachable {ok : World Bytes → SymAction → Prop}
    (h : symbolicMachine.Reachable ok w) : w.Sym := by
  refine h.invariant (I := World.Sym) (fun w hw => ?_) fun w w' a hr hi _ hs => ?_
  · obtain ⟨owner, k, capacity, g, hg, rfl⟩ := hw
    exact sym_of_start hg
  · exact World.Sym.step hi
      (inv_of_symbolic hr) hs

end Sym

end Group

end NovaChannel
