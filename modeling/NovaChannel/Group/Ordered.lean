import NovaChannel.Group.Attribution

/-!
# Records of a sender in order

What a member opens from one leaf, compared with what was sealed there, when records are handed over
in any order, some twice, some not at all, and a coalition of members makes others.

* `World.Inv.step_kinds` : a step lets a member enter an epoch, seals a record or hands one over;
* `World.counted` : the world in which every member counts the records that it opened;
* `World.openedFrom` : what a member opened from a leaf in an epoch, in order;
* `opened_in_order` : **it is an initial part of what was sealed there; a sealed record opens
  exactly when it is the next one; and no message key seals two records**.
-/

namespace NovaChannel

namespace Group

open Crypto

/-! ### What a step does to the records -/

section Kinds

variable {β : Type} [Crypto β] {w w' : World β}

/-- Member `id` entered an epoch as `m`, and nothing was sealed or opened. -/
structure World.Entered (w w' : World β) (id : ℕ) (m : Member β) : Prop where
  members : w'.members = Function.update w.members id (some m)
  sent : w'.sent = w.sent
  opened : w'.opened = w.opened
  views : ∀ (q : ℕ) (v : View β), w.views[q]? = some v → w'.views[q]? = some v
  fresh : FreshChains m.group
  later : ∀ m₀, w.members id = some m₀ → m.group.myLeaf = m₀.group.myLeaf ∧
    m₀.group.epoch < m.group.epoch

variable [LawfulCrypto β] [DecidableEq β]

/-- A step lets a member enter an epoch, seals a record, or hands one over. -/
theorem World.Inv.step_kinds {a : Action β} (hinv : w.Inv) (hs : w.step a = some w') :
    (∃ id m, w.Entered w' id m) ∨
    (∃ id m g plaintext record, w.members id = some m ∧ m.present = true ∧
      m.group.sealRecord plaintext = .ok (g, record) ∧
      w' = (w.send m.group record plaintext).setMember id { m with group := g }) ∨
    ∃ id m m' record, w.members id = some m ∧ m'.group = (m.group.openRecord record).1 ∧
      w' = w.handed id m' record (m.group.openRecord record).2 := by
  cases step_cases hs with
  | @commit id coins p m g c welcome hm hpres hhead hpop hp =>
    -- the committer enters the epoch that its own commit leads to
    have hmok := hinv.member id m hm
    obtain ⟨-, -, ⟨pre, -, hadv⟩, -⟩ := propose_spec (hinv.linked.wf _ _ hmok.view).1
      (hmok.holds hpres) (hmok.signs hpres) hpop hp
    refine .inl ⟨id, ⟨m.signer, g, fun _ => 0⟩, rfl, rfl, rfl,
      fun q v hv => getElem?_append_some.2 (.inl hv), hadv.fresh, fun m₀ hm₀ => ?_⟩
    obtain rfl := Option.some.inj (hm.symm.trans hm₀)
    have hepoch : g.epoch = m.group.epoch + 1 := congrArg View.epoch hadv.view
    exact ⟨hadv.myLeaf, hepoch.symm ▸ Nat.lt_succ_self _⟩
  | @apply id m e g hm he hpres hrem hg =>
    obtain ⟨g', pre, low, high, hg', -, -, -, -, hadv, -⟩ :=
      hinv.applyCommit hm hpres he (GroupOp.ne_remove_of_removes hrem)
    obtain rfl : g' = g := Except.ok.inj (hg'.symm.trans hg)
    refine .inl ⟨id, ⟨m.signer, g', fun _ => 0⟩, rfl, rfl, rfl, fun _ _ hv => hv, hadv.fresh,
      fun m₀ hm₀ => ?_⟩
    obtain rfl := Option.some.inj (hm.symm.trans hm₀)
    have hepoch : g'.epoch = m.group.epoch + 1 := congrArg View.epoch hadv.view
    exact ⟨hadv.myLeaf, hepoch.symm ▸ Nat.lt_succ_self _⟩
  | @join entry signer dh kem coins c wel g hnone he hg =>
    obtain ⟨v, pre, -, target, low, high, hadv, -⟩ := hinv.join he hg
    refine .inl ⟨entry + 1, ⟨signer, g, fun _ => 0⟩, rfl, rfl, rfl, fun _ _ hv => hv, hadv.fresh,
      fun m₀ hm₀ => ?_⟩
    -- the number of a new member is taken by nobody
    rw [hnone] at hm₀
    cases hm₀
  | @sealRecord id plaintext record m g hm hpres hg =>
    exact .inr (.inl ⟨id, m, g, plaintext, record, hm, hpres, hg, rfl⟩)
  | @deliver id leaf m record plaintext hm hpres hleaf hrec =>
    exact .inr (.inr ⟨id, m, ⟨m.signer, _, _⟩, record, hm, rfl, rfl⟩)
  | @receive id m record hm =>
    exact .inr (.inr ⟨id, m, { m with group := _ }, record, hm, rfl, rfl⟩)

end Kinds

/-! ### Counting what was opened -/

section Counted

variable {β : Type} [Crypto β] {w w' : World β} {id leaf : ℕ} {m : Member β}

/-- The member, with the number of records it opened of each leaf. -/
def Member.counted (m : Member β) : Member β :=
  { m with delivered := fun leaf => (m.group.recvChain leaf).2 }

/-- The world in which the records handed over are those that opened. -/
def World.counted (w : World β) : World β :=
  { w with members := Option.map Member.counted ∘ w.members }

theorem World.members_counted (hm : w.members id = some m) :
    w.counted.members id = some m.counted := by
  show (w.members id).map Member.counted = _
  rw [hm]
  rfl

theorem World.members_counted_eq_some (hm : w.counted.members id = some m) :
    ∃ m₀, w.members id = some m₀ ∧ m = m₀.counted := by
  obtain ⟨m₀, hm₀, rfl⟩ := Option.map_eq_some_iff.1 hm
  exact ⟨m₀, hm₀, rfl⟩

theorem World.Entered.members_counted (h : w.Entered w' id m) :
    w'.counted.members = Function.update w.counted.members id (some m.counted) := by
  show Option.map Member.counted ∘ w'.members = _
  rw [h.members, Function.comp_update]
  rfl

theorem World.counted_setMember (w : World β) (id : ℕ) (m : Member β) :
    (w.setMember id m).counted = w.counted.setMember id m.counted := by
  unfold World.counted
  rw [World.setMember, Function.comp_update]
  rfl

/-- The invariant of the system does not depend on what members count. -/
theorem World.Inv.counted (h : w.Inv) : w.counted.Inv where
  linked := ⟨h.linked.length, h.linked.wf, h.linked.entry⟩
  member id m hm := by
    obtain ⟨m₀, hm₀, rfl⟩ := World.members_counted_eq_some hm
    obtain ⟨entered, view, app, holds, signs, occupied, born⟩ := h.member id m₀ hm₀
    exact ⟨entered, view, app, holds, signs, occupied, born⟩
  committer p e he := by
    obtain ⟨id, m, hm, hrest⟩ := h.committer p e he
    exact ⟨id, m.counted, World.members_counted hm, hrest⟩

/-- Fresh chains: nothing opened yet. -/
theorem FreshChains.counted (h : FreshChains m.group) (leaf : ℕ) : m.counted.delivered leaf = 0 :=
  congrArg Prod.snd (h.recvChain leaf)

/-- The chains of a member are at their positions. -/
theorem World.Fifo.chained (h : w.counted.Fifo) (hm : w.members id = some m) : Chained m.group where
  send := (h.sender id _ (World.members_counted hm)).2
  recv leaf chain n hr := by
    have hrecv := h.receiver id _ (World.members_counted hm) leaf
    have hchain : m.group.recvChain leaf = (chain, n) := by
      unfold Group.recvChain
      rw [hr]
      rfl
    have hcounted : m.counted.delivered leaf = n := congrArg Prod.snd hchain
    rw [hcounted] at hrecv
    exact congrArg Prod.fst (hchain.symm.trans hrecv)

/-- Being handed a record that may or may not open. -/
theorem World.Fifo.handed (h : w.counted.Fifo) (hm : w.members id = some m) (m' : Member β)
    {record : β} (hm' : m'.group = (m.group.openRecord record).1) (result : Result (ℕ × β)) :
    (w.handed id m' record result).counted.Fifo := by
  obtain ⟨opened, he⟩ := w.handed_eq id m' record result
  have hchained : Chained m'.group := hm' ▸ (h.chained hm).openRecord record
  obtain ⟨recvChains, hframe⟩ := openRecord_frame m.group record
  rw [hframe] at hm'
  have hself : (w.handed id m' record result).members id = some m' := by
    rw [he]
    exact World.members_setMember_self
  have hsent : (w.handed id m' record result).counted.sent = w.sent := by rw [he]; rfl
  have hviews : (w.handed id m' record result).counted.views = w.views := by rw [he]; rfl
  have hother : ∀ i, i ≠ id →
      (w.handed id m' record result).counted.members i = w.counted.members i := by
    intro i hi
    show Option.map _ ((w.handed id m' record result).members i) = _
    rw [World.members_handed_of_ne hi]
    rfl
  -- nothing was sent, and only the receive chains of that member moved
  refine ⟨?_, ?_, ?_, ?_⟩
  · rw [hsent, hviews]
    exact h.sent
  · intro p leaf hne
    rw [hsent] at hne
    obtain ⟨i, mi, hmi, hleaf, hid, hep⟩ := h.owner p leaf hne
    by_cases hi : i = id
    · subst hi
      obtain rfl := Option.some.inj (hmi.symm.trans (World.members_counted hm))
      refine ⟨i, m'.counted, World.members_counted hself, ?_, hid, ?_⟩
      · show m'.group.myLeaf = leaf
        rw [hm']
        exact hleaf
      · show p ≤ m'.group.epoch
        rw [hm']
        exact hep
    · exact ⟨i, mi, (hother i hi).trans hmi, hleaf, hid, hep⟩
  · intro i mi hmi
    rw [hsent]
    by_cases hi : i = id
    · subst hi
      obtain rfl := Option.some.inj (hmi.symm.trans (World.members_counted hself))
      refine ⟨?_, hchained.send⟩
      show m'.group.sendSeq = (w.sent m'.group.epoch m'.group.myLeaf).length
      rw [hm']
      exact (h.sender i _ (World.members_counted hm)).1
    · exact h.sender i mi ((hother i hi).symm.trans hmi)
  · intro i mi hmi leaf
    by_cases hi : i = id
    · subst hi
      obtain rfl := Option.some.inj (hmi.symm.trans (World.members_counted hself))
      exact Prod.ext (hchained.recvChain_eq leaf) rfl
    · exact h.receiver i mi ((hother i hi).symm.trans hmi) leaf

variable [LawfulCrypto β] [DecidableEq β]

/-- **Every step keeps the counted chains in step**, also one that hands over any record. -/
theorem World.Fifo.counted_step {a : Action β} (h : w.counted.Fifo) (hinv : w.Inv)
    (hs : w.step a = some w') : w'.counted.Fifo := by
  have hinv' := hinv.step hs
  rcases hinv.step_kinds hs with ⟨id, m, he⟩ | ⟨id, m, g, plaintext, record, hm, hpres, hg, rfl⟩ |
    ⟨id, m, m', record, hm, hm', rfl⟩
  · refine h.enter hinv'.counted he.sent (he.members_counted) he.views he.fresh he.fresh.counted
      fun m₀ hm₀ => ?_
    obtain ⟨m₁, hm₁, rfl⟩ := World.members_counted_eq_some hm₀
    exact he.later m₁ hm₁
  · have hfifo := h.sealRecord hinv.counted (World.members_counted hm) hpres hg
    obtain ⟨-, rfl, -⟩ := sealRecord_eq_ok hg
    rw [World.counted_setMember]
    exact hfifo
  · exact h.handed hm _ hm' _

/-- The counted chains are in step in every run. -/
theorem counted_of_reachable {ok : World β → Action β → Prop} (h : (machine β).Reachable ok w) :
    w.counted.Fifo := by
  refine h.invariant (I := fun w => w.counted.Fifo) (fun w hw => ?_)
    fun _ _ _ hr hi _ hs => World.Fifo.counted_step hi (inv_of_reachable hr) hs
  -- at the start every count is zero, counted or not
  have hstart := hw.fifo
  obtain ⟨signer, capacity, dh, kem, gid, init, g, hg, rfl⟩ := hw
  obtain ⟨-, -, -, -, -, -, -, -, hfresh⟩ := create_spec hg
  have hmember : Member.counted ⟨signer, g, fun _ => 0⟩ = ⟨signer, g, fun _ => 0⟩ :=
    congrArg (Member.mk signer g) (funext (hfresh.counted (m := ⟨signer, g, fun _ => 0⟩)))
  have hcounted : (World.start signer g).counted = World.start signer g := by
    unfold World.counted World.start
    rw [Function.comp_update, Option.map_some, hmember]
    rfl
  rwa [hcounted]

end Counted

/-! ### What was opened from one leaf -/

section Opened

variable {β : Type} [Crypto β] {w w' : World β} {id e leaf : ℕ} {m : Member β}

/-- The records of a leaf and an epoch that a member opened, with their plaintexts, in order. -/
def World.openedFrom (w : World β) (id e leaf : ℕ) : List (β × β) :=
  (w.opened.reverse.filter fun o => o.id == id && o.epoch == e && o.leaf == leaf).map fun o =>
    (o.record, o.plaintext)

/-- A record that was opened just now is the last one. -/
theorem World.openedFrom_cons {o : Opened β} (h : w'.opened = o :: w.opened) (id e leaf : ℕ) :
    w'.openedFrom id e leaf = w.openedFrom id e leaf ++
      if o.id = id ∧ o.epoch = e ∧ o.leaf = leaf then [(o.record, o.plaintext)] else [] := by
  unfold World.openedFrom
  rw [h, List.reverse_cons, List.filter_append, List.map_append]
  split_ifs with ho
  · obtain ⟨rfl, rfl, rfl⟩ := ho
    simp
  · have hnone : (o.id == id && o.epoch == e && o.leaf == leaf) = false := by
      rw [Bool.eq_false_iff]
      intro hb
      simp only [Bool.and_eq_true, beq_iff_eq] at hb
      exact ho ⟨hb.1.1, hb.1.2, hb.2⟩
    simp [hnone]

theorem World.openedFrom_congr (h : w'.opened = w.opened) (id e leaf : ℕ) :
    w'.openedFrom id e leaf = w.openedFrom id e leaf := by
  unfold World.openedFrom
  rw [h]

/-- Nothing was opened in an epoch that the member has not reached. -/
theorem World.OpenedOnce.openedFrom_eq_nil (h : w.OpenedOnce)
    (hlt : ∀ m, w.members id = some m → m.group.epoch < e) : w.openedFrom id e leaf = [] := by
  unfold World.openedFrom
  rw [List.map_eq_nil_iff, List.filter_eq_nil_iff]
  intro o ho hb
  simp only [Bool.and_eq_true, beq_iff_eq] at hb
  obtain ⟨⟨rfl, rfl⟩, rfl⟩ := hb
  obtain ⟨m, -, -, -, hm, hle, -⟩ := h.counted o (List.mem_reverse.1 ho)
  have := hlt m hm
  omega

/-- Every member's receive chains are as far as what it opened. -/
def World.InStep (w : World β) : Prop :=
  ∀ id m, w.members id = some m → ∀ leaf,
    (w.openedFrom id m.group.epoch leaf).length = (m.group.recvChain leaf).2

/-- A member that enters an epoch. -/
theorem World.InStep.enter (h : w.InStep) (he : w.Entered w' id m) (honce : w.OpenedOnce) :
    w'.InStep := by
  intro i mi hmi leaf
  rw [World.openedFrom_congr he.opened]
  by_cases hi : i = id
  · subst hi
    obtain rfl : m = mi := by
      rw [he.members, Function.update_self] at hmi
      exact Option.some.inj hmi
    rw [honce.openedFrom_eq_nil fun m₀ hm₀ => (he.later m₀ hm₀).2, he.fresh.recvChain]
    rfl
  · rw [he.members, Function.update_of_ne hi] at hmi
    exact h i mi hmi leaf

/-- Being handed a record: it is refused, or it is the next one of its leaf. -/
theorem World.InStep.handed (h : w.InStep) (hm : w.members id = some m) (m' : Member β)
    {record : β} (hm' : m'.group = (m.group.openRecord record).1) :
    (w.handed id m' record (m.group.openRecord record).2).InStep := by
  have hepoch : m'.group.epoch = m.group.epoch := by
    rw [hm']
    exact congrArg View.epoch (sameCore_openRecord m.group record).view
  rcases openRecord_spec m.group record with ⟨⟨err, herr⟩, hsame⟩ | ⟨leaf, header, ct, plaintext,
    -, -, -, -, hok, hself, hother⟩
  · -- refused: no chain moves and nothing is opened
    rw [herr]
    intro i mi hmi l
    show (w.openedFrom i mi.group.epoch l).length = _
    rcases World.members_setMember_eq_some.1 hmi with ⟨rfl, rfl⟩ | ⟨-, hmi⟩
    · rw [hepoch, hm', hsame]
      exact h i m hm l
    · exact h i mi hmi l
  · -- opened: the chain of that leaf and what was opened from it grow by one
    rw [hok]
    intro i mi hmi l
    rw [World.openedFrom_cons (w := w) rfl, List.length_append]
    rcases World.members_setMember_eq_some.1 hmi with ⟨rfl, rfl⟩ | ⟨hi, hmi⟩
    · have hcount := h i m hm l
      rw [hepoch, hm']
      by_cases hl : l = leaf
      · subst hl
        rw [if_pos ⟨rfl, rfl, rfl⟩, hself, hcount]
        rfl
      · rw [if_neg fun hc => hl hc.2.2.symm, hother l hl, hcount]
        rfl
    · rw [if_neg fun hc => hi hc.1.symm]
      exact h i mi hmi l

variable [LawfulCrypto β] [DecidableEq β]

/-- The receive chains are as far as what was opened, in every run. -/
theorem inStep_of_reachable {ok : World β → Action β → Prop} (h : (machine β).Reachable ok w) :
    w.InStep := by
  refine h.invariant (I := World.InStep) (fun w hw => ?_) fun w w' a hr hi _ hs => ?_
  · obtain ⟨signer, capacity, dh, kem, gid, init, g, hg, rfl⟩ := hw
    obtain ⟨-, -, -, -, -, -, -, -, hfresh⟩ := create_spec hg
    intro id m hm leaf
    by_cases hid : id = 0
    · subst hid
      obtain rfl : ⟨signer, g, fun _ => 0⟩ = m := by simpa [World.start] using hm
      exact (congrArg Prod.snd (hfresh.recvChain leaf)).symm
    · simp [World.start, Function.update_of_ne hid] at hm
  · rcases (inv_of_reachable hr).step_kinds hs with ⟨id, m, he⟩ |
      ⟨id, m, g, plaintext, record, hm, -, hg, rfl⟩ | ⟨id, m, m', record, hm, hm', rfl⟩
    · exact hi.enter he (openedOnce_of_reachable hr)
    · obtain ⟨-, rfl, -⟩ := sealRecord_eq_ok hg
      intro i mi hmi leaf
      show (w.openedFrom i mi.group.epoch leaf).length = _
      rcases World.members_setMember_eq_some.1 hmi with ⟨rfl, rfl⟩ | ⟨-, hmi⟩
      · exact hi i m hm leaf
      · exact hi i mi hmi leaf
    · exact hi.handed hm _ hm'

end Opened

/-! ### In order -/

section Ordered

variable {w w' : World Bytes}

/-- What comes next in a list continues an initial part of it. -/
theorem isPrefix_concat {α : Type} {xs ys : List α} {x : α} (h : xs <+: ys)
    (hx : ys[xs.length]? = some x) : xs ++ [x] <+: ys := by
  obtain ⟨zs, rfl⟩ := h
  rw [List.getElem?_append_right (Nat.le_refl _), Nat.sub_self] at hx
  cases zs with
  | nil => cases hx
  | cons z zs =>
    obtain rfl := Option.some.inj hx
    exact ⟨zs, by simp⟩

/-- **A sealed record opens exactly when it is the next one of its leaf.** -/
theorem openRecord_sent_iff {ok : World Bytes → SymAction → Prop}
    (hr : symbolicMachine.Reachable ok w) {id e leaf i leaf' : ℕ} {m : Member Bytes}
    {record p p' : Bytes} (hm : w.members id = some m)
    (hrec : (w.sent e leaf)[i]? = some (record, p)) :
    (m.group.openRecord record).2 = .ok (leaf', p') ↔
      leaf' = leaf ∧ p' = p ∧ e = m.group.epoch ∧ leaf ≠ m.group.myLeaf ∧
        i = (w.openedFrom id e leaf).length := by
  have hinv := inv_of_symbolic hr
  have hfifo := counted_of_reachable (machine_of_symbolic hr)
  have hcount := inStep_of_reachable (machine_of_symbolic hr) id m hm
  constructor
  · -- what opens has the number that the chain is at, and a sealed record has one number
    intro hopen
    obtain ⟨v, -, -, -, -, hat⟩ := hfifo.sent e leaf i record p hrec
    have hat' := eq_recordAt_of_open (hfifo.chained hm) hopen
    obtain ⟨-, rfl, rfl, rfl, rfl⟩ := recordAt_inj (hat.symm.trans hat')
    refine ⟨rfl, rfl, rfl, ?_, (hcount leaf).symm⟩
    rcases openRecord_spec m.group record with ⟨⟨err, herr⟩, -⟩ | ⟨leaf', header, ct, plaintext', -,
      hne, -, -, hok, -⟩
    · cases hopen.symm.trans herr
    · obtain ⟨rfl, -⟩ := Prod.mk.inj (Except.ok.inj (hopen.symm.trans hok))
      exact hne
  · rintro ⟨rfl, rfl, rfl, hne, rfl⟩
    rw [hcount leaf'] at hrec
    obtain ⟨recvChains, hopen, -⟩ :=
      hfifo.openRecord hinv.counted (World.members_counted hm) hne hrec
    exact congrArg Prod.snd hopen

/-- Members outside `C` opened an initial part of what was sealed. -/
def World.Continued (w : World Bytes) (C : Set ℕ) : Prop :=
  ∀ id, id ∉ C → ∀ e leaf, w.openedFrom id e leaf <+: w.sent e leaf

/-- Sealing continues what was sent. -/
theorem sent_isPrefix_send (g : Group Bytes) (record plaintext : Bytes) (e leaf : ℕ) :
    w.sent e leaf <+: (w.send g record plaintext).sent e leaf := by
  show _ <+: Function.update w.sent g.epoch _ e leaf
  by_cases he : e = g.epoch
  · subst he
    rw [Function.update_self]
    by_cases hl : leaf = g.myLeaf
    · subst hl
      rw [Function.update_self]
      exact List.prefix_append _ _
    · exact ⟨[], by rw [List.append_nil, Function.update_of_ne hl]⟩
  · exact ⟨[], by rw [List.append_nil, Function.update_of_ne he]⟩

/-- What opens now is the next record of its leaf, if it was sealed. -/
theorem World.Continued.handed {ok : World Bytes → SymAction → Prop}
    (hr : symbolicMachine.Reachable ok w) {C : Set ℕ} (h : w.Continued C) {id : ℕ}
    {m m' : Member Bytes} {record : Bytes} (hm : w.members id = some m)
    (hattr : (w.handed id m' record (m.group.openRecord record).2).Attributed C) :
    (w.handed id m' record (m.group.openRecord record).2).Continued C := by
  cases hopen : (m.group.openRecord record).2 with
  | error err =>
    rw [hopen] at hattr
    exact h
  | ok opened =>
    obtain ⟨leaf, plaintext⟩ := opened
    rw [hopen] at hattr
    intro i hi e l
    rw [World.openedFrom_cons (w := w) rfl]
    split_ifs with ho
    · -- it was sealed, somewhere, and it opens where the next one is
      obtain ⟨rfl, rfl, rfl⟩ := ho
      have hsent : (record, plaintext) ∈ w.sent m'.group.epoch leaf :=
        hattr _ List.mem_cons_self hi
      obtain ⟨j, hj⟩ := List.mem_iff_getElem?.1 hsent
      obtain ⟨-, -, -, -, rfl⟩ := (openRecord_sent_iff hr hm hj).1 hopen
      exact isPrefix_concat (h id hi _ _) hj
    · rw [List.append_nil]
      exact h i hi e l

/-- One step, while what members outside `C` open is attributed. -/
theorem World.Continued.step {ok : World Bytes → SymAction → Prop}
    (hr : symbolicMachine.Reachable ok w) {C : Set ℕ} (h : w.Continued C) {a : SymAction}
    (hattr : w'.Attributed C) (hs : w.step (a.toAction w) = some w') : w'.Continued C := by
  rcases (inv_of_symbolic hr).step_kinds hs with ⟨id, m, he⟩ |
    ⟨id, m, g, plaintext, record, hm, -, -, rfl⟩ | ⟨id, m, m', record, hm, -, rfl⟩
  · intro i hi e leaf
    rw [World.openedFrom_congr he.opened, he.sent]
    exact h i hi e leaf
  · exact fun i hi e leaf =>
      (h i hi e leaf).trans (sent_isPrefix_send m.group record plaintext e leaf)
  · exact h.handed hr hm hattr

/-- The record is sealed under the key. -/
def SealedUnder (record key : Bytes) : Prop :=
  ∃ header plaintext, record = frame [header, aeadSeal key header plaintext]

/-- **No message key seals two records**, of any epochs and leaves. -/
theorem sealedUnder_unique {ok : World Bytes → SymAction → Prop}
    (hr : symbolicMachine.Reachable ok w) {e leaf i e' leaf' i' : ℕ} {r r' : Bytes × Bytes}
    {key : Bytes} (h : (w.sent e leaf)[i]? = some r) (h' : (w.sent e' leaf')[i']? = some r')
    (hk : SealedUnder r.1 key) (hk' : SealedUnder r'.1 key) : e = e' ∧ leaf = leaf' ∧ i = i' := by
  have hfifo := counted_of_reachable (machine_of_symbolic hr)
  obtain ⟨v, hv, -, -, -, hat⟩ := hfifo.sent e leaf i r.1 r.2 h
  obtain ⟨v', hv', -, -, -, hat'⟩ := hfifo.sent e' leaf' i' r'.1 r'.2 h'
  have hkey : ∀ {A e l n p r}, r = recordAt A e l n p → SealedUnder r key →
      messageKeyAt A l n = key := by
    rintro A e l n p r rfl ⟨header, plaintext, hr⟩
    have hlist := Term.list_inj.1 hr
    exact (Term.aead.inj (List.cons.inj (List.cons.inj hlist).2).1).1
  obtain ⟨happ, rfl, rfl⟩ := messageKeyAt_inj ((hkey hat hk).trans (hkey hat' hk').symm)
  exact ⟨epochSecret_inj (sym_of_reachable hr) (inv_of_symbolic hr).linked hv hv'
    (deriveApplicationSecret_inj happ), rfl, rfl⟩

/-- **Group messages arrive in order.**  In every run in which members outside the coalition whose
application secret the coalition has are only handed sealed records, what such a member opened from
a leaf is an initial part of what was sealed there, in order; at any time a sealed record opens at a
member exactly when it is of its epoch, of another leaf and the next one that it did not open; and
no message key seals two records. -/
theorem opened_in_order {C : Set ℕ} (hr : symbolicMachine.Reachable (Insulated C) w) :
    (∀ id, id ∉ C → ∀ e leaf, w.openedFrom id e leaf <+: w.sent e leaf) ∧
    (∀ id m e leaf i record p, w.members id = some m →
      (w.sent e leaf)[i]? = some (record, p) → ∀ leaf' p',
        (m.group.openRecord record).2 = .ok (leaf', p') ↔
          leaf' = leaf ∧ p' = p ∧ e = m.group.epoch ∧ leaf ≠ m.group.myLeaf ∧
            i = (w.openedFrom id e leaf).length) ∧
    ∀ (e leaf i e' leaf' i' : ℕ) key (r r' : Bytes × Bytes), (w.sent e leaf)[i]? = some r →
      (w.sent e' leaf')[i']? = some r' → SealedUnder r.1 key → SealedUnder r'.1 key →
      e = e' ∧ leaf = leaf' ∧ i = i' := by
  refine ⟨?_, fun id m e leaf i record p hm hrec leaf' p' => openRecord_sent_iff hr hm hrec,
    fun e leaf i e' leaf' i' key r r' h h' hk hk' => sealedUnder_unique hr h h' hk hk'⟩
  have hboth : w.Attributed C ∧ w.Continued C := by
    refine hr.invariant (I := fun w => w.Attributed C ∧ w.Continued C) (fun w hw => ?_)
      fun w w' a hr hi ha hs => ?_
    · obtain ⟨owner, k, capacity, g, -, rfl⟩ := hw
      exact ⟨fun o ho => (List.not_mem_nil ho).elim, fun id _ e leaf => List.nil_prefix⟩
    · have hattr := World.Attributed.step hr hi.1 ha hs
      exact ⟨hattr, World.Continued.step hr hi.2 hattr hs⟩
  exact hboth.2

end Ordered

section Sample

/-- Member `1` is removed; the founder seals two records in the epoch without it, and one of them
arrives. -/
def orderedRun : List SymAction :=
  [.commit 0 (.add 1 1), .join 0 1 1, .commit 0 (.add 2 2), .apply 1, .join 1 2 2,
    .commit 0 (.remove 1), .apply 2, .sealRecord 0 "first", .sealRecord 0 "second", .deliver 2 0]

/-- What member `2` opened is the first record, and the second one opens. -/
theorem opened_in_order_orderedRun : ∃ w m record, runFrom 4 orderedRun = some w ∧
    w.members 2 = some m ∧ (w.sent 3 0)[1]? = some (record, .lit "second") ∧
    (w.openedFrom 2 3 0).length = 1 ∧ w.openedFrom 2 3 0 <+: w.sent 3 0 ∧
    (m.group.openRecord record).2 = .ok (0, .lit "second") := by
  have hrun : (runFrom 4 orderedRun).map (fun w => ((w.openedFrom 2 3 0).length,
      (w.members 2).map fun m => (m.group.epoch, m.group.myLeaf),
      ((w.sent 3 0)[1]?).map Prod.snd)) = some (1, some (3, 2), some (.lit "second")) := by
    decide +kernel
  obtain ⟨w, hw, hp⟩ := Option.map_eq_some_iff.1 hrun
  simp only [Prod.mk.injEq, Option.map_eq_some_iff, Prod.exists, exists_eq_right] at hp
  obtain ⟨hlen, ⟨m, hm, hepoch, hleaf⟩, record, hrec⟩ := hp
  have hr : symbolicMachine.Reachable (Insulated {1}) w := by
    refine reachable_of_runFrom (fun t a ha => ?_) hw
    simp only [orderedRun, List.mem_cons, List.not_mem_nil, or_false] at ha
    rcases ha with rfl | rfl | rfl | rfl | rfl | rfl | rfl | rfl | rfl | rfl <;> trivial
  obtain ⟨hinitial, hnext, -⟩ := opened_in_order hr
  refine ⟨w, m, record, hw, hm, hrec, hlen, hinitial 2 (by simp) 3 0, ?_⟩
  exact (hnext 2 m 3 0 1 record _ hm hrec 0 _).2 ⟨rfl, rfl, hepoch.symm, by omega, hlen.symm⟩

end Sample

end Group

end NovaChannel
