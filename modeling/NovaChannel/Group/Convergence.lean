import NovaChannel.Group.Runs
import NovaChannel.Group.Symbolic

/-!
# Convergence

What the members of a group rely on, in every run.

* `World.Fifo` : the send chain of every member and its receive chains agree with the records
  sent in its epoch, as long as records are handed over in order;
* `group_converges` : **every commit is accepted by every other member, the members of an epoch
  agree, and records open in order at every receiver**;
* `join_iff_joinable` : **a new member joins exactly when nothing populated shadows its leaf**.
-/

namespace NovaChannel

namespace Group

open Crypto

/-! ### Records of one sender -/

section Records

variable {β : Type} [Crypto β]

/-- A sender's chain key after `n` records. -/
def chainAt (applicationSecret : β) (leaf n : ℕ) : β :=
  (fun chain => (advance chain).1)^[n] (deriveSenderChain applicationSecret leaf)

/-- The key of a sender's record number `n`. -/
def messageKeyAt (applicationSecret : β) (leaf n : ℕ) : β :=
  (advance (chainAt applicationSecret leaf n)).2

/-- A sender's record number `n`. -/
def recordAt (applicationSecret : β) (epoch leaf n : ℕ) (plaintext : β) : β :=
  frame [appHeader epoch leaf n,
    aeadSeal (messageKeyAt applicationSecret leaf n) (appHeader epoch leaf n) plaintext]

theorem chainAt_succ (applicationSecret : β) (leaf n : ℕ) :
    chainAt applicationSecret leaf (n + 1) = (advance (chainAt applicationSecret leaf n)).1 := by
  rw [chainAt, Function.iterate_succ_apply']
  rfl

variable [LawfulCrypto β]

theorem readRecord_recordAt {applicationSecret plaintext : β} {epoch leaf n : ℕ}
    (he : epoch < 2 ^ 64) (hl : leaf < 2 ^ 64) (hn : n < 2 ^ 64) :
    readRecord (recordAt applicationSecret epoch leaf n plaintext) =
      some (epoch, leaf, n, appHeader epoch leaf n,
        aeadSeal (messageKeyAt applicationSecret leaf n) (appHeader epoch leaf n) plaintext) := by
  simp [readRecord, recordAt, appHeader, LawfulCrypto.unnum_num he, LawfulCrypto.unnum_num hl,
    LawfulCrypto.unnum_num hn]

/-- The record a receiver expects next opens. -/
theorem openRecord_recordAt {g : Group β} {leaf n : ℕ} (plaintext : β) (he : g.epoch < 2 ^ 64)
    (hl : leaf < 2 ^ 64) (hn : n + 1 < 2 ^ 64) (hne : leaf ≠ g.myLeaf)
    (hmem : g.isMember leaf = true)
    (hchain : g.recvChain leaf = (chainAt g.applicationSecret leaf n, n)) :
    ∃ recvChains, g.openRecord (recordAt g.applicationSecret g.epoch leaf n plaintext) =
        ({ g with recvChains := recvChains }, .ok (leaf, plaintext)) ∧
      (recvChains leaf = some (chainAt g.applicationSecret leaf (n + 1), n + 1)) ∧
      ∀ l, l ≠ leaf → recvChains l = g.recvChains l := by
  have hadd : checkedAdd64 n 1 = some (n + 1) := by simp only [checkedAdd64, hn, ↓reduceIte]
  have hopen : aeadSealOpen (messageKeyAt g.applicationSecret leaf n) (appHeader g.epoch leaf n)
      (aeadSeal (messageKeyAt g.applicationSecret leaf n) (appHeader g.epoch leaf n) plaintext) =
      .ok plaintext := by
    simp [aeadSealOpen, aeadSeal]
  refine ⟨Function.update (Function.update g.recvChains leaf (some (g.recvChain leaf))) leaf
    (some (chainAt g.applicationSecret leaf (n + 1), n + 1)), ?_, by simp,
    fun l hne' => by simp [hne']⟩
  simp only [openRecord, readRecord_recordAt he hl (by omega : n < 2 ^ 64), ne_eq,
    not_true_eq_false, ↓reduceIte, hne, hmem, Bool.not_true, Bool.false_eq_true, openNext, hchain]
  rw [← messageKeyAt, hopen]
  simp only [hadd, chainAt_succ]

end Records

/-! ### Records in order -/

section Fifo

variable {β : Type} [Crypto β]

/-- The chains of every member agree with the records sent in its epoch. -/
structure World.Fifo (w : World β) : Prop where
  sent : ∀ p leaf n r pt, (w.sent p leaf)[n]? = some (r, pt) → ∃ v, w.views[p]? = some v ∧
    leaf < v.capacity ∧ (∃ lp, v.nodes[v.node leaf]? = some (.leaf lp)) ∧ n + 1 < 2 ^ 64 ∧
    r = recordAt (deriveApplicationSecret v.epochSecret) p leaf n pt
  owner : ∀ p leaf, w.sent p leaf ≠ [] → ∃ id m, w.members id = some m ∧
    m.group.myLeaf = leaf ∧ id ≤ p ∧ p ≤ m.group.epoch
  sender : ∀ id m, w.members id = some m →
    m.group.sendSeq = (w.sent m.group.epoch m.group.myLeaf).length ∧
    m.group.sendChain = chainAt m.group.applicationSecret m.group.myLeaf m.group.sendSeq
  receiver : ∀ id m, w.members id = some m → ∀ leaf, m.group.recvChain leaf =
    (chainAt m.group.applicationSecret leaf (m.delivered leaf), m.delivered leaf)

/-- A member whose chains are fresh, for its part of the invariant. -/
theorem FreshChains.recvChain {g : Group β} (h : FreshChains g) (leaf : ℕ) :
    g.recvChain leaf = (chainAt g.applicationSecret leaf 0, 0) := by
  rw [Group.recvChain, h.recvChains]
  rfl

theorem FreshChains.sendChain_eq {g : Group β} (h : FreshChains g) :
    g.sendChain = chainAt g.applicationSecret g.myLeaf g.sendSeq := by
  rw [h.sendSeq, h.sendChain]
  rfl

/-- A member that enters an epoch finds that nothing was sent from its leaf there. -/
theorem World.Fifo.enter {w w' : World β} (h : w.Fifo) (hinv : w'.Inv) {id : ℕ} {m : Member β}
    (hsent : w'.sent = w.sent) (hmem : w'.members = Function.update w.members id (some m))
    (hext : ∀ (q : ℕ) (v : View β), w.views[q]? = some v → w'.views[q]? = some v)
    (hfresh : FreshChains m.group) (hdel : ∀ leaf, m.delivered leaf = 0)
    (hold : ∀ m₀, w.members id = some m₀ → m.group.myLeaf = m₀.group.myLeaf ∧
      m₀.group.epoch < m.group.epoch) : w'.Fifo := by
  have hself : w'.members id = some m := by rw [hmem, Function.update_self]
  have hother : ∀ id', id' ≠ id → w'.members id' = w.members id' := fun id' hi => by
    rw [hmem, Function.update_of_ne hi]
  have hempty : w.sent m.group.epoch m.group.myLeaf = [] := by
    by_contra hne
    obtain ⟨id', m', hm', hleaf, hid, hep⟩ := h.owner _ _ hne
    have hent := (hinv.member id m hself).entered
    rcases Nat.lt_trichotomy id id' with hlt | rfl | hlt
    · have := hinv.epoch_lt_of_myLeaf_eq hself ((hother id' (by omega)).trans hm') hlt hleaf.symm
      omega
    · have := (hold m' hm').2
      omega
    · have := hinv.epoch_lt_of_myLeaf_eq ((hother id' (by omega)).trans hm') hself hlt hleaf
      omega
  constructor
  · intro p leaf n r pt hr
    rw [hsent] at hr
    obtain ⟨v, hv, hrest⟩ := h.sent p leaf n r pt hr
    exact ⟨v, hext p v hv, hrest⟩
  · intro p leaf hne
    rw [hsent] at hne
    obtain ⟨id', m', hm', hleaf, hid, hep⟩ := h.owner p leaf hne
    by_cases hi : id' = id
    · subst hi
      obtain ⟨hl, he⟩ := hold m' hm'
      exact ⟨id', m, hself, hl.trans hleaf, hid, by omega⟩
    · exact ⟨id', m', (hother id' hi).trans hm', hleaf, hid, hep⟩
  · intro id' m' hm'
    rw [hsent]
    by_cases hi : id' = id
    · subst hi
      obtain rfl := Option.some.inj (hself.symm.trans hm')
      exact ⟨by rw [hempty, hfresh.sendSeq]; rfl, hfresh.sendChain_eq⟩
    · exact h.sender id' m' ((hother id' hi).symm.trans hm')
  · intro id' m' hm' leaf
    by_cases hi : id' = id
    · subst hi
      obtain rfl := Option.some.inj (hself.symm.trans hm')
      rw [hdel, hfresh.recvChain]
    · exact h.receiver id' m' ((hother id' hi).symm.trans hm') leaf

/-- A sealed record is the next one of its leaf. -/
theorem World.Fifo.sealRecord {w : World β} (h : w.Fifo) (hinv : w.Inv) {id : ℕ} {m : Member β}
    {g : Group β} {plaintext record : β} (hm : w.members id = some m) (hpres : m.present = true)
    (hs : m.group.sealRecord plaintext = .ok (g, record)) :
    ((w.send m.group record plaintext).setMember id { m with group := g }).Fifo := by
  obtain ⟨hlt, rfl, rfl⟩ := sealRecord_eq_ok hs
  obtain ⟨hseq, hchain⟩ := h.sender id m hm
  have hok := hinv.member id m hm
  have hsent : ∀ p leaf, (w.send m.group (recordAt m.group.applicationSecret m.group.epoch
      m.group.myLeaf m.group.sendSeq plaintext) plaintext).sent p leaf =
      if p = m.group.epoch ∧ leaf = m.group.myLeaf then
        w.sent p leaf ++ [(recordAt m.group.applicationSecret m.group.epoch m.group.myLeaf
          m.group.sendSeq plaintext, plaintext)]
      else w.sent p leaf := by
    intro p leaf
    simp only [World.send, Function.update_apply]
    by_cases hp : p = m.group.epoch
    · subst hp
      by_cases hl : leaf = m.group.myLeaf
      · subst hl; simp
      · simp [hl]
    · simp [hp]
  have hrec : frame [appHeader m.group.epoch m.group.myLeaf m.group.sendSeq,
      aeadSeal (advance m.group.sendChain).2 (appHeader m.group.epoch m.group.myLeaf
        m.group.sendSeq) plaintext] = recordAt m.group.applicationSecret m.group.epoch
          m.group.myLeaf m.group.sendSeq plaintext := by
    rw [recordAt, messageKeyAt, ← hchain]
  rw [hrec]
  constructor
  · intro p leaf n r pt hr
    have hr' := (congrArg (·[n]?) (hsent p leaf)).symm.trans hr
    split_ifs at hr' with hpl
    · obtain ⟨rfl, rfl⟩ := hpl
      rcases getElem?_append_some.1 hr' with hr' | ⟨rfl, he⟩
      · exact h.sent _ _ n r pt hr'
      · cases he
        obtain ⟨lp, hlp, -⟩ := hok.signs hpres
        refine ⟨_, hok.view, (hok.holds hpres).lt, ⟨lp, hlp⟩, by omega, ?_⟩
        rw [← hseq, hok.app]
        rfl
    · exact h.sent p leaf n r pt hr'
  · intro p leaf hne
    have hne' : (w.send m.group (recordAt m.group.applicationSecret m.group.epoch
      m.group.myLeaf m.group.sendSeq plaintext) plaintext).sent p leaf ≠ [] := hne
    rw [hsent] at hne'
    split_ifs at hne' with hpl
    · obtain ⟨rfl, rfl⟩ := hpl
      exact ⟨id, _, World.members_setMember_self, rfl, hok.entered, Nat.le_refl _⟩
    · obtain ⟨id', m', hm', hleaf, hid, hep⟩ := h.owner p leaf hne'
      by_cases hi : id' = id
      · subst hi
        obtain rfl := Option.some.inj (hm.symm.trans hm')
        exact ⟨id', _, World.members_setMember_self, hleaf, hid, hep⟩
      · exact ⟨id', m', (World.members_setMember_of_ne hi).trans hm', hleaf, hid, hep⟩
  · intro id' m' hm'
    rcases World.members_setMember_eq_some.1 hm' with ⟨rfl, rfl⟩ | ⟨hi, hm'⟩
    · refine ⟨?_, ?_⟩
      · refine Eq.trans ?_ (congrArg List.length (hsent m.group.epoch m.group.myLeaf)).symm
        simp [hseq]
      · show (advance m.group.sendChain).1 = _
        rw [hchain, ← chainAt_succ]
    · have hm'' : w.members id' = some m' := hm'
      obtain ⟨hs', hc'⟩ := h.sender id' m' hm''
      refine ⟨?_, hc'⟩
      refine Eq.trans ?_ (congrArg List.length (hsent m'.group.epoch m'.group.myLeaf)).symm
      rw [if_neg, hs']
      -- another member at the same leaf in the same epoch does not exist
      rintro ⟨he, hl⟩
      exact hinv.myLeaf_ne hm hm'' (Ne.symm hi) he hl.symm
  · intro id' m' hm' leaf
    rcases World.members_setMember_eq_some.1 hm' with ⟨rfl, rfl⟩ | ⟨-, hm'⟩
    · exact h.receiver id' m hm leaf
    · exact h.receiver id' m' hm' leaf

variable [LawfulCrypto β]

/-- **The next record of a sender opens** at every member of the epoch. -/
theorem World.Fifo.openRecord {w : World β} (h : w.Fifo) (hinv : w.Inv) {id leaf : ℕ}
    {m : Member β} {record plaintext : β} (hm : w.members id = some m)
    (hleaf : leaf ≠ m.group.myLeaf)
    (hrec : (w.sent m.group.epoch leaf)[m.delivered leaf]? = some (record, plaintext)) :
    ∃ recvChains, m.group.openRecord record =
        ({ m.group with recvChains := recvChains }, .ok (leaf, plaintext)) ∧
      recvChains leaf = some (chainAt m.group.applicationSecret leaf (m.delivered leaf + 1),
        m.delivered leaf + 1) ∧
      ∀ l, l ≠ leaf → recvChains l = m.group.recvChains l := by
  have hok := hinv.member id m hm
  obtain ⟨v, hv, hlt, ⟨lp, hlp⟩, hn, rfl⟩ := h.sent _ _ _ _ _ hrec
  obtain rfl : m.group.view = v := Option.some.inj (hok.view.symm.trans hv)
  have hwf := (hinv.linked.wf _ _ hv).1
  have hmax := hwf.max
  have hmem : m.group.isMember leaf = true := (isMember_iff hwf.shape.length).2 ⟨hlt, lp, hlp⟩
  have happ : deriveApplicationSecret m.group.view.epochSecret = m.group.applicationSecret :=
    hok.app.symm
  rw [happ]
  exact openRecord_recordAt plaintext hwf.epoch (by unfold maxCapacity at hmax; omega) hn hleaf hmem
    (h.receiver id m hm leaf)

/-- Handing over the next record keeps the chains in step. -/
theorem World.Fifo.deliver {w : World β} (h : w.Fifo) (hinv : w.Inv) {id leaf : ℕ}
    {m : Member β} {record plaintext : β} (hm : w.members id = some m)
    (hleaf : leaf ≠ m.group.myLeaf)
    (hrec : (w.sent m.group.epoch leaf)[m.delivered leaf]? = some (record, plaintext)) :
    (w.handed id ⟨m.signer, (m.group.openRecord record).1,
      Function.update m.delivered leaf (m.delivered leaf + 1)⟩ record
      (m.group.openRecord record).2).Fifo := by
  obtain ⟨recvChains, hopen, hself, hothers⟩ := h.openRecord hinv hm hleaf hrec
  obtain ⟨opened, he⟩ := w.handed_eq id ⟨m.signer, (m.group.openRecord record).1,
    Function.update m.delivered leaf (m.delivered leaf + 1)⟩ record (m.group.openRecord record).2
  rw [he, hopen]
  constructor
  · exact h.sent
  · intro p l hne
    obtain ⟨id', m', hm', hl, hid, hep⟩ := h.owner p l hne
    by_cases hi : id' = id
    · subst hi
      obtain rfl := Option.some.inj (hm.symm.trans hm')
      exact ⟨id', _, World.members_setMember_self, hl, hid, hep⟩
    · exact ⟨id', m', (World.members_setMember_of_ne hi).trans hm', hl, hid, hep⟩
  · intro id' m' hm'
    rcases World.members_setMember_eq_some.1 hm' with ⟨rfl, rfl⟩ | ⟨-, hm'⟩
    · exact h.sender id' m hm
    · exact h.sender id' m' hm'
  · intro id' m' hm' l
    rcases World.members_setMember_eq_some.1 hm' with ⟨rfl, rfl⟩ | ⟨-, hm'⟩
    · by_cases hl : l = leaf
      · subst hl
        simp [Group.recvChain, hself]
      · have := h.receiver id' m hm l
        simp only [Group.recvChain, hothers l hl, Function.update_of_ne hl]
        exact this
    · exact h.receiver id' m' hm' l

theorem World.IsStart.fifo {w : World β} (h : w.IsStart) : w.Fifo := by
  obtain ⟨signer, capacity, dh, kem, gid, init, g, hg, rfl⟩ := h
  obtain ⟨-, -, -, -, -, -, -, -, hfresh⟩ := create_spec hg
  have hm : ∀ id (m : Member β), (World.start signer g).members id = some m →
      m = ⟨signer, g, fun _ => 0⟩ := by
    intro id m hm
    by_cases hid : id = 0
    · subst hid
      simpa [World.start, eq_comm] using hm
    · simp [World.start, Function.update_of_ne hid] at hm
  refine ⟨fun p leaf n r pt hr => ?_, fun p leaf hne => absurd rfl hne, fun id m hm' => ?_,
    fun id m hm' leaf => ?_⟩
  · simp [World.start] at hr
  · rw [hm id m hm']
    exact ⟨hfresh.sendSeq, hfresh.sendChain_eq⟩
  · rw [hm id m hm']
    exact hfresh.recvChain leaf

variable [DecidableEq β]

/-- Every step that hands records over in order keeps the chains in step. -/
theorem World.Fifo.step {w w' : World β} {a : Action β} (h : w.Fifo) (hinv : w.Inv)
    (hok : InOrder w a) (hs : w.step a = some w') : w'.Fifo := by
  have hinv' := hinv.step hs
  cases step_cases hs with
  | @commit id coins p m g c welcome hm hpres hhead hpop hp =>
    have hmok := hinv.member id m hm
    obtain ⟨-, -, ⟨pre, -, hadv⟩, -⟩ := propose_spec (hinv.linked.wf _ _ hmok.view).1
      (hmok.holds hpres) (hmok.signs hpres) hpop hp
    refine h.enter (m := ⟨m.signer, g, fun _ => 0⟩) hinv' rfl rfl
      (fun q v hv => getElem?_append_some.2 (.inl hv)) hadv.fresh (fun _ => rfl) fun m₀ hm₀ => ?_
    obtain rfl := Option.some.inj (hm.symm.trans hm₀)
    have hepoch : g.epoch = m.group.epoch + 1 := congrArg View.epoch hadv.view
    exact ⟨hadv.myLeaf, hepoch.symm ▸ Nat.lt_succ_self _⟩
  | @apply id m e g hm he hpres hrem hg =>
    obtain ⟨g', pre, low, high, hg', -, -, -, -, hadv, -⟩ :=
      hinv.applyCommit hm hpres he (GroupOp.ne_remove_of_removes hrem)
    obtain rfl : g' = g := Except.ok.inj (hg'.symm.trans hg)
    refine h.enter (m := ⟨m.signer, g', fun _ => 0⟩) hinv' rfl rfl (fun _ _ hv => hv) hadv.fresh
      (fun _ => rfl) fun m₀ hm₀ => ?_
    obtain rfl := Option.some.inj (hm.symm.trans hm₀)
    have hepoch : g'.epoch = m.group.epoch + 1 := congrArg View.epoch hadv.view
    exact ⟨hadv.myLeaf, hepoch.symm ▸ Nat.lt_succ_self _⟩
  | @join entry signer dh kem coins c wel g hnone he hg =>
    obtain ⟨v, pre, -, target, low, high, hadv, -⟩ := hinv.join he hg
    refine h.enter (m := ⟨signer, g, fun _ => 0⟩) hinv' rfl rfl (fun _ _ hv => hv) hadv.fresh
      (fun _ => rfl) fun m₀ hm₀ => ?_
    rw [hnone] at hm₀
    cases hm₀
  | sealRecord hm hpres hg => exact h.sealRecord hinv hm hpres hg
  | deliver hm hpres hleaf hrec => exact h.deliver hinv hm hleaf hrec
  | receive => exact hok.elim

/-- The chains are in step in every run that hands records over in order. -/
theorem fifo_of_reachable {w : World β} (h : (machine β).Reachable InOrder w) : w.Fifo := by
  refine h.invariant (I := World.Fifo) (fun _ hs => World.IsStart.fifo hs) ?_
  exact fun _ _ _ hr hi hok hs => World.Fifo.step hi (inv_of_reachable hr) hok hs

end Fifo

/-! ### Agreement -/

section Agreement

variable {β : Type} [Crypto β]

/-- Two states agree on everything the members of an epoch share. -/
structure Agree (g g' : Group β) : Prop where
  epoch : g'.epoch = g.epoch
  epochSecret : g'.epochSecret = g.epochSecret
  applicationSecret : g'.applicationSecret = g.applicationSecret
  transcriptHash : g'.transcriptHash = g.transcriptHash
  nodes : g'.nodes = g.nodes

theorem agree_of_view {g g' : Group β} (h : g'.view = g.view)
    (ha : g.applicationSecret = deriveApplicationSecret g.epochSecret)
    (ha' : g'.applicationSecret = deriveApplicationSecret g'.epochSecret) : Agree g g' :=
  ⟨congrArg View.epoch h, congrArg View.epochSecret h,
    by rw [ha, ha', show g'.epochSecret = g.epochSecret from congrArg View.epochSecret h],
    congrArg View.transcriptHash h, congrArg View.nodes h⟩

variable [LawfulCrypto β] [DecidableEq β]

omit [LawfulCrypto β] [DecidableEq β] in
/-- The members of one epoch agree. -/
theorem World.Inv.agree {w : World β} (h : w.Inv) {id id' : ℕ} {m m' : Member β}
    (hm : w.members id = some m) (hm' : w.members id' = some m')
    (he : m'.group.epoch = m.group.epoch) : Agree m.group m'.group := by
  have hok := h.member id m hm
  have hok' := h.member id' m' hm'
  refine agree_of_view ?_ hok.app hok'.app
  exact Option.some.inj ((he ▸ hok'.view.symm).trans hok.view)

/-- **Every run of a group converges.**  A member accepts the next commit of the log unless it
removes the member, and then agrees with every other member that has reached that epoch; the
members of an epoch agree; and the next record of a sender opens at every other member of the
epoch, as the sender's leaf and the exact plaintext. -/
theorem group_converges {w : World β} (h : (machine β).Reachable InOrder w) :
    (∀ id m e, w.members id = some m → m.present = true →
      w.log[m.group.epoch]? = some e → e.commit.op.removes m.group.myLeaf = false →
      ∃ g, m.group.applyCommit e.commit = .ok g ∧ g.epoch = m.group.epoch + 1 ∧
        ∀ id' m', w.members id' = some m' → m'.group.epoch = m.group.epoch + 1 →
          Agree m'.group g) ∧
    (∀ id id' m m', w.members id = some m → w.members id' = some m' →
      m'.group.epoch = m.group.epoch → Agree m.group m'.group) ∧
    (∀ id leaf m record plaintext, w.members id = some m → leaf ≠ m.group.myLeaf →
      (w.sent m.group.epoch leaf)[m.delivered leaf]? = some (record, plaintext) →
      ∃ g, m.group.openRecord record = (g, .ok (leaf, plaintext))) := by
  have hinv := inv_of_reachable h
  refine ⟨fun id m e hm hpres he hrem => ?_, fun id id' m m' hm hm' he => hinv.agree hm hm' he,
    fun id leaf m record plaintext hm hleaf hrec => ?_⟩
  · obtain ⟨g, pre, low, high, hg, -, hnext, -, -, hadv, -⟩ :=
      hinv.applyCommit hm hpres he (GroupOp.ne_remove_of_removes hrem)
    refine ⟨g, hg, congrArg View.epoch hadv.view, fun id' m' hm' he' => ?_⟩
    have hok' := hinv.member id' m' hm'
    refine agree_of_view ?_ hok'.app
      (hadv.app.trans (congrArg _ (congrArg View.epochSecret hadv.view).symm))
    refine hadv.view.trans (Option.some.inj (hnext.symm.trans ?_))
    rw [← he']
    exact hok'.view
  · obtain ⟨recvChains, hopen, -⟩ :=
      (fifo_of_reachable h).openRecord hinv hm hleaf hrec
    exact ⟨_, hopen⟩

/-- The founder adds two members; the second one refreshes its path, and the founder, but not the
first one, has applied that commit and sealed a record. -/
def sampleRun : List SymAction :=
  [.commit 0 (.add 1 1), .join 0 1 1, .commit 0 (.add 2 2), .apply 1, .join 1 2 2,
    .commit 2 .update, .apply 0, .sealRecord 0 "hello"]

/-- A property of the world a list of actions leads to, found by running it. -/
theorem exists_of_runFrom (capacity : ℕ) (as : List SymAction) {p : World Bytes → Bool}
    (hok : ∀ t, ∀ a ∈ as, SymInOrder t a) (h : (runFrom capacity as).map p = some true) :
    ∃ w, runFrom capacity as = some w ∧ (machine Bytes).Reachable InOrder w ∧ p w = true := by
  obtain ⟨w, hw, hp⟩ := Option.map_eq_some_iff.1 h
  exact ⟨w, hw, reachable_of_symbolic inOrder_of_symInOrder (reachable_of_runFrom hok hw), hp⟩

theorem sampleRun_inOrder : ∀ t, ∀ a ∈ sampleRun, SymInOrder t a := by
  intro t a ha
  simp only [sampleRun, List.mem_cons, List.not_mem_nil, or_false] at ha
  rcases ha with rfl | rfl | rfl | rfl | rfl | rfl | rfl | rfl <;> trivial

/-- Member `1` still has a commit to apply, and member `2` a record of the founder to open. -/
def lagging (w : World Bytes) : Bool :=
  match w.members 1, w.members 2 with
  | some m₁, some m₂ => m₁.present && decide (m₁.group.epoch = 2) &&
      (match w.log[m₁.group.epoch]? with
        | some e => !e.commit.op.removes m₁.group.myLeaf
        | none => false) &&
      decide (m₂.group.epoch = 3) && decide (0 ≠ m₂.group.myLeaf) &&
      (match (w.sent m₂.group.epoch 0)[m₂.delivered 0]? with
        | some (_, plaintext) => decide (plaintext = .lit "hello")
        | none => false)
  | _, _ => false

/-- After the sample run, the first member accepts the commit it has not applied, and the second
one opens the founder's record. -/
theorem group_converges_sample : ∃ w m₁ m₂ e g₁ g₂ record,
    runFrom 4 sampleRun = some w ∧ w.members 1 = some m₁ ∧ w.members 2 = some m₂ ∧
    w.log[m₁.group.epoch]? = some e ∧ m₁.group.applyCommit e.commit = .ok g₁ ∧
    Agree m₂.group g₁ ∧ m₂.group.openRecord record = (g₂, .ok (0, .lit "hello")) := by
  obtain ⟨w, hrun, hw, hp⟩ := exists_of_runFrom 4 sampleRun (p := lagging) sampleRun_inOrder
    (by decide +kernel)
  unfold lagging at hp
  obtain ⟨haccept, -, hopen⟩ := group_converges hw
  split at hp
  · rename_i m₁ m₂ hm₁ hm₂
    simp only [Bool.and_eq_true, decide_eq_true_eq] at hp
    obtain ⟨⟨⟨⟨⟨hpres, hep₁⟩, hlog⟩, hep₂⟩, hleaf⟩, hsent⟩ := hp
    split at hlog
    · rename_i e he
      split at hsent
      · rename_i record plaintext hrec
        obtain ⟨g₁, hg₁, -, hagree⟩ := haccept 1 m₁ e hm₁ hpres he (by simpa using hlog)
        obtain ⟨g₂, hg₂⟩ := hopen 2 0 m₂ record plaintext hm₂ hleaf hrec
        rw [of_decide_eq_true hsent] at hg₂
        exact ⟨w, m₁, m₂, e, g₁, g₂, record, hrun, hm₁, hm₂, he, hg₁,
          hagree 2 m₂ hm₂ (by omega), hg₂⟩
      · cases hsent
    · cases hlog
  · cases hp

/-- **A new member joins, and agrees with the committer and with every member that applies the
commit, exactly when nothing populated stands between its leaf and the committer's direct
path.** -/
theorem join_iff_joinable {ok : World β → Action β → Prop} {w : World β}
    (h : (machine β).Reachable ok w) {id : ℕ} {m : Member β} {coins : CommitCoins β}
    {pkg : LeafKeyPackage β} {g : Group β} {c : Commit β} {wel : Welcome β}
    {signer dhSecret kemSecret : β} (hm : w.members id = some m) (hpres : m.present = true)
    (hpop : pkg.popValid = true)
    (hkey : pkg.publicKey = (MyLeafKeyPackage.generate signer dhSecret kemSecret).publicKey)
    (hid : pkg.identity = publicIdentity signer)
    (hp : m.group.proposeAdd m.signer coins pkg = .ok (g, c, wel)) :
    ∃ target, m.group.firstBlankLeaf = some target ∧
      ((∃ j, Group.join (MyLeafKeyPackage.generate signer dhSecret kemSecret) wel c = .ok j ∧
          Agree g j ∧ ∀ id' m' g', id' ≠ id → w.members id' = some m' → m'.present = true →
            m'.group.epoch = m.group.epoch → m'.group.applyCommit c = .ok g' → Agree g' j) ↔
        ∀ d ∈ directPath m.group.capacity target,
          d ∉ directPath m.group.capacity m.group.myLeaf → m.group.nodes[d]? = some .blank) := by
  have hinv := inv_of_reachable h
  have hok := hinv.member id m hm
  have hwf := (hinv.linked.wf _ _ hok.view).1
  have hholds := hok.holds hpres
  obtain ⟨lp, hlp, hlid⟩ := hok.signs hpres
  obtain ⟨target, ht, hc, hw⟩ := proposeAdd_spec hwf rfl hholds.lt hlp hlid hp
  obtain ⟨hop, hsender, -, pre, hcm, hadv⟩ := commit_spec hwf rfl hholds.lt hlp hlid hc
  have hpre : Shape m.group.view.capacity pre :=
    hwf.shape.splice (by rw [hop]; rintro _ _ ⟨⟩; exact hpop) hcm.spliced
  have hkp := MyLeafKeyPackage.generate_paired signer dhSecret kemSecret
  have happ : g.applicationSecret = deriveApplicationSecret g.epochSecret :=
    hadv.app.trans (congrArg _ (congrArg View.epochSecret hadv.view).symm)
  refine ⟨target, ht, ⟨fun ⟨j, hj, _⟩ => ?_, fun hj => ?_⟩⟩
  · have hjoin : m.group.view.Joinable c.senderLeaf target := by
      by_contra hnot
      rw [join_fails hwf hcm hw hkp hkey hid hnot] at hj
      cases hj
    rw [hsender] at hjoin
    exact hjoin
  · have hjoin : m.group.view.Joinable c.senderLeaf target := hsender ▸ hj
    obtain ⟨j, low, high, hj, -, -, hadvj, -⟩ := join_spec hwf hcm hpre hw hkp hkey hid hjoin
    have happj : j.applicationSecret = deriveApplicationSecret j.epochSecret :=
      hadvj.app.trans (congrArg _ (congrArg View.epochSecret hadvj.view).symm)
    refine ⟨j, hj, agree_of_view (hadvj.view.trans hadv.view.symm) happ happj,
      fun id' m' g' hne hm' hpres' he' hg' => ?_⟩
    have hok' := hinv.member id' m' hm'
    have hholds' := hok'.holds hpres'
    have hview' : m'.group.view = m.group.view :=
      Option.some.inj (hok'.view.symm.trans ((congrArg (w.views[·]?) he').trans hok.view))
    rw [hview'] at hholds'
    obtain ⟨g'', _, _, hg'', -, -, hadv', -⟩ := hholds'.applyCommit hwf hcm hpre
      (hsender ▸ hinv.myLeaf_ne hm hm' (Ne.symm hne) he') (by rw [hop]; simp)
    obtain rfl : g'' = g' := Except.ok.inj (hg''.symm.trans hg')
    refine agree_of_view (hadvj.view.trans hadv'.view.symm) ?_ happj
    exact hadv'.app.trans (congrArg _ (congrArg View.epochSecret hadv'.view).symm)

end Agreement

/-- The founder's add of a fourth member succeeds. -/
def mayAdd (w : World Bytes) : Bool :=
  match w.members 0 with
  | some m => m.present &&
    (match m.group.proposeAdd m.signer (coinsOf 3) (package 3 3).public with
      | .ok _ => true
      | .error _ => false)
  | none => false

/-- In the sample run's world the founder may add a fourth member; the theorem decides whether it
joins. -/
theorem join_iff_joinable_sample : ∃ w m g c wel target, runFrom 4 sampleRun = some w ∧
    w.members 0 = some m ∧
    m.group.proposeAdd m.signer (coinsOf 3) (package 3 3).public = .ok (g, c, wel) ∧
    m.group.firstBlankLeaf = some target ∧
    ((∃ j, Group.join (package 3 3) wel c = .ok j ∧ Agree g j ∧
        ∀ id' m' g', id' ≠ 0 → w.members id' = some m' → m'.present = true →
          m'.group.epoch = m.group.epoch → m'.group.applyCommit c = .ok g' → Agree g' j) ↔
      ∀ d ∈ directPath m.group.capacity target,
        d ∉ directPath m.group.capacity m.group.myLeaf → m.group.nodes[d]? = some .blank) := by
  obtain ⟨w, hrun, hw, hp⟩ := exists_of_runFrom 4 sampleRun (p := mayAdd) sampleRun_inOrder
    (by decide +kernel)
  unfold mayAdd at hp
  split at hp
  · rename_i m hm
    simp only [Bool.and_eq_true] at hp
    obtain ⟨hpres, hadd⟩ := hp
    split at hadd
    · rename_i r hr
      obtain ⟨g, c, wel⟩ := r
      obtain ⟨target, ht, hiff⟩ := join_iff_joinable hw hm hpres
        (MyLeafKeyPackage.generate_popValid _ _ _) rfl rfl hr
      exact ⟨w, m, g, c, wel, target, hrun, hm, hr, ht, hiff⟩
    · cases hadd
  · cases hp

/-- The founder, up to date, adds a fourth member, which cannot join. -/
def addUnjoinable (w : World Bytes) : Bool :=
  match w.members 0 with
  | some m => m.present && decide (m.group.epoch = w.log.length) &&
    (match m.group.proposeAdd m.signer (coinsOf 3) (package 3 3).public with
      | .ok (_, c, wel) =>
        match Group.join (package 3 3) wel c with
        | .error e => decide (e = .error .commitNotDecryptable)
        | .ok _ => false
      | .error _ => false)
  | none => false

/-- **An honest add whose new member cannot join.**  The second member's fresh path populates the
node above leaves 2 and 3; the founder then adds a fourth member at leaf 3, whose key is sealed
nowhere in the commit. -/
theorem join_fails_below_populated_node : ∃ w m g c wel,
    (machine Bytes).Reachable InOrder w ∧ w.members 0 = some m ∧ m.present = true ∧
    m.group.epoch = w.log.length ∧ (package 3 3).public.popValid = true ∧
    m.group.proposeAdd m.signer (coinsOf 3) (package 3 3).public = .ok (g, c, wel) ∧
    Group.join (package 3 3) wel c = .err .commitNotDecryptable := by
  obtain ⟨w, -, hw, hp⟩ := exists_of_runFrom 4 sampleRun (p := addUnjoinable) sampleRun_inOrder
    (by decide +kernel)
  unfold addUnjoinable at hp
  split at hp
  · rename_i m hm
    simp only [Bool.and_eq_true, decide_eq_true_eq] at hp
    obtain ⟨⟨hpres, hep⟩, hadd⟩ := hp
    split at hadd
    · rename_i g c wel hr
      split at hadd
      · rename_i e he
        refine ⟨w, m, g, c, wel, hw, hm, hpres, hep, MyLeafKeyPackage.generate_popValid _ _ _,
          hr, ?_⟩
        rw [he, of_decide_eq_true hadd]
      · cases hadd
    · cases hadd
  · cases hp

end Group

end NovaChannel
