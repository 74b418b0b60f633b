import NovaChannel.Group.Removal

/-!
# Who sent a record

What an opened record says about its sender, in runs in which a coalition of members makes
arbitrary records.

* `World.OpenedOnce` : no member opens a record twice, whatever it is handed;
* `World.coalitionKnows` : everything a coalition of members ever held, and everything sent;
* `Protected` : the keys derived from an application secret on the way to message keys;
* `opened_attributed` : **as long as the coalition cannot derive the receiver's application
  secret, what the receiver opens was sealed by the member at that leaf**;
* `opens_forged` : whoever has that secret makes records of any other member.
-/

namespace NovaChannel

namespace Group

open Crypto Term

/-! ### Opening once -/

section Once

variable {β : Type} [Crypto β]

/-- **What opening a record does**: it fails and moves no chain, or it opens the next record of a
leaf and moves that leaf's chain by one. -/
theorem openRecord_spec (g : Group β) (record : β) :
    ((∃ e, (g.openRecord record).2 = .error e) ∧
      ∀ leaf, (g.openRecord record).1.recvChain leaf = g.recvChain leaf) ∨
    ∃ leaf header ct plaintext,
      readRecord record = some (g.epoch, leaf, (g.recvChain leaf).2, header, ct) ∧
      leaf ≠ g.myLeaf ∧ g.isMember leaf = true ∧
      aeadSealOpen (advance (g.recvChain leaf).1).2 header ct = .ok plaintext ∧
      (g.openRecord record).2 = .ok (leaf, plaintext) ∧
      ((g.openRecord record).1.recvChain leaf).2 = (g.recvChain leaf).2 + 1 ∧
      ∀ l, l ≠ leaf → (g.openRecord record).1.recvChain l = g.recvChain l := by
  unfold Group.openRecord
  split
  · exact .inl ⟨⟨_, rfl⟩, fun _ => rfl⟩
  · rename_i epoch leaf seq header ct hread
    split_ifs with hepoch hleaf hmem
    · exact .inl ⟨⟨_, rfl⟩, fun _ => rfl⟩
    · exact .inl ⟨⟨_, rfl⟩, fun _ => rfl⟩
    · exact .inl ⟨⟨_, rfl⟩, fun _ => rfl⟩
    · obtain rfl : epoch = g.epoch := not_not.1 hepoch
      -- setting the chain up changes nothing that can be read
      have hset : ∀ l, Group.recvChain
          { g with recvChains := Function.update g.recvChains leaf (some (g.recvChain leaf)) } l =
          g.recvChain l := by
        intro l
        by_cases hl : l = leaf
        · subst hl; simp [Group.recvChain]
        · simp [Group.recvChain, Function.update_of_ne hl]
      unfold openNext
      split_ifs with hseq
      · exact .inl ⟨⟨_, rfl⟩, hset⟩
      · obtain rfl : seq = (g.recvChain leaf).2 := not_not.1 hseq
        split
        · exact .inl ⟨⟨_, rfl⟩, hset⟩
        · rename_i plaintext hopen
          split
          · exact .inl ⟨⟨_, rfl⟩, hset⟩
          · rename_i next hnext
            obtain ⟨-, rfl⟩ := checkedAdd64_eq_some.1 hnext
            refine .inr ⟨leaf, header, ct, plaintext, hread, hleaf, by simpa using hmem, hopen, rfl,
              by simp [Group.recvChain], fun l hl => ?_⟩
            simp [Group.recvChain, Function.update_of_ne hl]

/-- Every opened record was counted: its number is below the next one its receiver expects, until
the epoch ends. -/
structure World.OpenedOnce (w : World β) : Prop where
  counted : ∀ o ∈ w.opened, ∃ m seq header ct, w.members o.id = some m ∧
    o.epoch ≤ m.group.epoch ∧ readRecord o.record = some (o.epoch, o.leaf, seq, header, ct) ∧
    (o.epoch = m.group.epoch → seq < (m.group.recvChain o.leaf).2)
  once : w.opened.Pairwise fun o o' => o.id = o'.id → o.record ≠ o'.record

variable {w w' : World β} {id : ℕ} {m : Member β}

/-- A member moves on to a later epoch, or further along its chains. -/
theorem World.OpenedOnce.setMember (h : w.OpenedOnce) (hopened : w'.opened = w.opened)
    (hmem : w'.members = Function.update w.members id (some m))
    (hle : ∀ m₀, w.members id = some m₀ → m₀.group.epoch < m.group.epoch ∨
      m₀.group.epoch = m.group.epoch ∧
        ∀ leaf, (m₀.group.recvChain leaf).2 ≤ (m.group.recvChain leaf).2) : w'.OpenedOnce := by
  refine ⟨fun o ho => ?_, hopened ▸ h.once⟩
  obtain ⟨m₀, seq, header, ct, hm₀, hep, hread, hlt⟩ := h.counted o (hopened ▸ ho)
  by_cases hid : o.id = id
  · refine ⟨m, seq, header, ct, by rw [hmem, hid, Function.update_self], ?_, hread, fun he => ?_⟩
    · rcases hle m₀ (hid ▸ hm₀) with hlt' | ⟨heq, -⟩ <;> omega
    · rcases hle m₀ (hid ▸ hm₀) with hlt' | ⟨heq, hchain⟩
      · omega
      · exact lt_of_lt_of_le (hlt (by omega)) (hchain o.leaf)
  · exact ⟨m₀, seq, header, ct, by rw [hmem, Function.update_of_ne hid]; exact hm₀, hep, hread, hlt⟩

/-- Being handed a record, which may or may not open. -/
theorem World.OpenedOnce.handed (h : w.OpenedOnce) (hm : w.members id = some m) (m' : Member β)
    {record : β} (hm' : m'.group = (m.group.openRecord record).1) :
    (w.handed id m' record (m.group.openRecord record).2).OpenedOnce := by
  have hepoch : m'.group.epoch = m.group.epoch := by
    rw [hm']
    exact congrArg View.epoch (sameCore_openRecord m.group record).view
  rcases openRecord_spec m.group record with ⟨⟨err, herr⟩, hsame⟩ | ⟨leaf, header, ct, plaintext,
    hread, -, -, -, hok, hself, hother⟩
  · rw [herr]
    refine h.setMember (m := m') rfl rfl fun m₀ hm₀ => .inr ?_
    obtain rfl := Option.some.inj (hm.symm.trans hm₀)
    exact ⟨hepoch.symm, fun l => by rw [hm', hsame]⟩
  · rw [hok]
    have hset : (w.setMember id m').OpenedOnce := by
      refine h.setMember (m := m') rfl rfl fun m₀ hm₀ => .inr ?_
      obtain rfl := Option.some.inj (hm.symm.trans hm₀)
      refine ⟨hepoch.symm, fun l => ?_⟩
      rw [hm']
      by_cases hl : l = leaf
      · subst hl; omega
      · rw [hother l hl]
    refine ⟨fun o ho => ?_, List.pairwise_cons.2 ⟨fun o ho hid hrec => ?_, hset.once⟩⟩
    · rcases List.mem_cons.1 ho with rfl | ho
      · refine ⟨m', (m.group.recvChain leaf).2, header, ct, World.members_setMember_self,
          Nat.le_refl _, ?_, fun _ => ?_⟩
        · show readRecord record = some (m'.group.epoch, leaf, _, header, ct)
          rw [hepoch]
          exact hread
        · show _ < (m'.group.recvChain leaf).2
          rw [hm']
          omega
      · exact hset.counted o ho
    · -- the same record opened before had a smaller number
      obtain ⟨m₀, seq, header', ct', hm₀, -, hread', hlt⟩ := h.counted o ho
      have hid : id = o.id := hid
      have hrec : record = o.record := hrec
      obtain rfl := Option.some.inj (hm.symm.trans (hid ▸ hm₀))
      rw [← hrec, hread] at hread'
      simp only [Option.some.injEq, Prod.mk.injEq] at hread'
      obtain ⟨he, hl, hs, -⟩ := hread'
      have := hlt he.symm
      rw [← hl, ← hs] at this
      exact absurd this (lt_irrefl _)

variable [LawfulCrypto β] [DecidableEq β]

/-- **No member opens a record twice**, in any run. -/
theorem openedOnce_of_reachable {ok : World β → Action β → Prop}
    (h : (machine β).Reachable ok w) : w.OpenedOnce := by
  refine h.invariant (I := World.OpenedOnce) (fun w hw => ?_) fun w w' a hr hi _ hs => ?_
  · obtain ⟨signer, capacity, dh, kem, gid, init, g, hg, rfl⟩ := hw
    exact ⟨fun o ho => (List.not_mem_nil ho).elim, List.Pairwise.nil⟩
  · have hinv := inv_of_reachable hr
    cases step_cases hs with
    | @commit id coins p m g c welcome hm hpres hhead hpop hp =>
      obtain ⟨-, -, ⟨pre, -, hadv⟩, -⟩ := propose_spec (hinv.linked.wf _ _
        (hinv.member id m hm).view).1 ((hinv.member id m hm).holds hpres)
        ((hinv.member id m hm).signs hpres) hpop hp
      refine hi.setMember (m := ⟨m.signer, g, fun _ => 0⟩) rfl rfl fun m₀ hm₀ => .inl ?_
      obtain rfl := Option.some.inj (hm.symm.trans hm₀)
      have hepoch : g.epoch = m.group.epoch + 1 := congrArg View.epoch hadv.view
      show m.group.epoch < g.epoch
      omega
    | @apply id m e g hm he hpres hrem hg =>
      obtain ⟨g', pre, low, high, hg', -, -, -, -, hadv, -⟩ :=
        hinv.applyCommit hm hpres he (GroupOp.ne_remove_of_removes hrem)
      obtain rfl : g' = g := Except.ok.inj (hg'.symm.trans hg)
      refine hi.setMember (m := ⟨m.signer, g', fun _ => 0⟩) rfl rfl fun m₀ hm₀ => .inl ?_
      obtain rfl := Option.some.inj (hm.symm.trans hm₀)
      have hepoch : g'.epoch = m.group.epoch + 1 := congrArg View.epoch hadv.view
      show m.group.epoch < g'.epoch
      omega
    | @join entry signer dh kem coins c wel g hnone he hg =>
      refine hi.setMember (m := ⟨signer, g, fun _ => 0⟩) rfl rfl fun m₀ hm₀ => ?_
      rw [hnone] at hm₀
      cases hm₀
    | @sealRecord id plaintext record m g hm hpres hg =>
      obtain ⟨-, rfl, -⟩ := sealRecord_eq_ok hg
      refine hi.setMember (m := { m with group := _ }) rfl rfl fun m₀ hm₀ => .inr ?_
      obtain rfl := Option.some.inj (hm.symm.trans hm₀)
      exact ⟨rfl, fun _ => Nat.le_refl _⟩
    | @deliver id leaf m record plaintext hm hpres hleaf hrec =>
      exact hi.handed hm ⟨m.signer, _, _⟩ rfl
    | @receive id m record hm => exact hi.handed hm { m with group := _ } rfl

end Once

/-! ### Keys of one epoch -/

/-- The keys on the way from an application secret to the message keys of its epoch. -/
def Protected (A t : Bytes) : Prop :=
  t = hkdfExtract none A ∨ ∃ leaf n, t = chainAt A leaf n ∨ t = messageKeyAt A leaf n

theorem chainAt_zero (A : Bytes) (leaf : ℕ) : chainAt A leaf 0 =
    .fn (.expand 32) (.fn .extract .nil A) (list [labelSenderChain, .num leaf]) := rfl

theorem chainAt_mac (A : Bytes) (leaf n : ℕ) :
    chainAt A leaf (n + 1) = .fn .mac (chainAt A leaf n) labelNextChain := by
  rw [chainAt_succ]
  rfl

theorem chainAt_inj {A B : Bytes} {l k n i : ℕ} (h : chainAt A l n = chainAt B k i) :
    A = B ∧ l = k ∧ n = i := by
  induction n generalizing i with
  | zero =>
    cases i with
    | zero =>
      rw [chainAt_zero, chainAt_zero] at h
      injection h with _ h1 h2
      injection h1 with _ _ h1
      have h2 := list_injective h2
      simp only [List.cons.injEq, Term.num.injEq, true_and, and_true] at h2
      exact ⟨h1, h2, rfl⟩
    | succ i => rw [chainAt_zero, chainAt_mac] at h; cases h
  | succ n ih =>
    cases i with
    | zero => rw [chainAt_zero, chainAt_mac] at h; cases h
    | succ i =>
      rw [chainAt_mac, chainAt_mac] at h
      injection h with _ h _
      obtain ⟨rfl, rfl, rfl⟩ := ih h
      exact ⟨rfl, rfl, rfl⟩

theorem messageKeyAt_inj {A B : Bytes} {l k n i : ℕ}
    (h : messageKeyAt A l n = messageKeyAt B k i) : A = B ∧ l = k ∧ n = i := by
  injection h with _ h _
  exact chainAt_inj h

/-- A chain key of one application secret protects nothing of another. -/
theorem not_protected_chainAt {A B : Bytes} (h : B ≠ A) (l n : ℕ) :
    ¬ Protected A (chainAt B l n) := by
  rintro (he | ⟨k, i, he | he⟩)
  · cases n with
    | zero => cases he
    | succ n => rw [chainAt_mac] at he; cases he
  · exact h (chainAt_inj he).1
  · cases n with
    | zero => cases he
    | succ n =>
      rw [chainAt_mac] at he
      injection he with _ _ he
      exact absurd he (by decide)

/-- Other functions, and expansions under other labels, are not protected. -/
theorem not_protected {A : Bytes} {f : Fn} {a b : Bytes} (h1 : f ≠ .extract) (h2 : f ≠ .mac)
    (h3 : f = .expand 32 → ∀ leaf, b ≠ list [labelSenderChain, .num leaf]) :
    ¬ Protected A (.fn f a b) := by
  rintro (he | ⟨k, i, he | he⟩)
  · injection he with he
    exact h1 he
  · cases i with
    | zero =>
      rw [chainAt_zero] at he
      injection he with hf _ hb
      exact h3 hf k hb
    | succ i =>
      rw [chainAt_mac] at he
      injection he with he
      exact h2 he
  · injection he with he
    exact h2 he

/-- **Without the application secret no key protected by it is derivable**, when none was handed
out. -/
theorem not_derives_of_protected {K : Set Bytes} {A : Bytes}
    {S : Bytes → Bytes → Bytes → Bytes → Prop}
    (hK : ∀ t ∈ K, Handed S (fun f a b => ¬ Protected A (.fn f a b)) t) (hA : ¬ Derives K A)
    {t : Bytes} (ht : Protected A t) : ¬ Derives K t := by
  have hprk : ¬ Derives K (hkdfExtract none A) := fun h =>
    hA (made_of_derives hK rfl (not_not.2 (.inl rfl)) h).2
  have hchain : ∀ leaf n, ¬ Derives K (chainAt A leaf n) := by
    intro leaf n
    induction n with
    | zero =>
      intro h
      exact hprk (made_of_derives hK rfl (not_not.2 (.inr ⟨leaf, 0, .inl rfl⟩)) h).1
    | succ n ih =>
      intro h
      rw [chainAt_mac] at h
      exact ih (made_of_derives hK rfl
        (not_not.2 (.inr ⟨leaf, n + 1, .inl (chainAt_mac A leaf n).symm⟩)) h).1
  rcases ht with rfl | ⟨leaf, n, rfl | rfl⟩
  · exact hprk
  · exact hchain leaf n
  · exact fun h => hchain leaf n
      (made_of_derives hK rfl (not_not.2 (.inr ⟨leaf, n, .inr rfl⟩)) h).1

/-! ### What a coalition knows -/

section Coalition

variable {w w' : World Bytes}

/-- Every state the members `C` were ever in and their signing keys, every commit, every welcome
and every record. -/
def World.coalitionKnows (w : World Bytes) (C : Set ℕ) : Set Bytes :=
  {t | ∃ id g, id ∈ C ∧ (id, g) ∈ w.past ∧ Stores g t} ∪
  {t | ∃ id m, id ∈ C ∧ w.members id = some m ∧ t = m.signer} ∪ w.commits ∪ w.welcomes ∪
  {t | ∃ e leaf p, (t, p) ∈ w.sent e leaf}

/-- Every record sent in an epoch is sealed with a message key of that epoch. -/
def World.SentOk (w : World Bytes) : Prop :=
  ∀ e leaf r p, (r, p) ∈ w.sent e leaf → ∃ v n s, w.views[e]? = some v ∧ p = .lit s ∧
    r = recordAt (deriveApplicationSecret v.epochSecret) e leaf n p

theorem World.SentOk.mono (h : w.SentOk) (hsent : w'.sent = w.sent) (he : w.Extends w') :
    w'.SentOk := by
  intro e leaf r p hr
  obtain ⟨v, n, s, hv, hrest⟩ := h e leaf r p (hsent ▸ hr)
  exact ⟨v, n, s, he.views _ v hv, hrest⟩

theorem World.SentOk.handed (h : w.SentOk) (id : ℕ) (m : Member Bytes) (record : Bytes)
    (result : Result (ℕ × Bytes)) : (w.handed id m record result).SentOk := by
  obtain ⟨opened, he⟩ := w.handed_eq id m record result
  rw [he]
  exact h

/-- What was sent stays sent. -/
theorem mem_send {g : Group Bytes} {record plaintext : Bytes} {e leaf : ℕ} {r : Bytes × Bytes}
    (hr : r ∈ w.sent e leaf) : r ∈ (w.send g record plaintext).sent e leaf := by
  show r ∈ Function.update w.sent g.epoch _ e leaf
  by_cases he : e = g.epoch
  · subst he
    rw [Function.update_self]
    by_cases hl : leaf = g.myLeaf
    · subst hl
      rw [Function.update_self]
      exact List.mem_append_left _ hr
    · rwa [Function.update_of_ne hl]
  · rwa [Function.update_of_ne he]

theorem World.SentOk.step (h : w.SentOk) (hinv : w.Inv) (hsym : w.Sym) {a : SymAction}
    (hs : w.step (a.toAction w) = some w') : w'.SentOk := by
  obtain ⟨hext, -⟩ := extends_of_step hs
  cases a with
  | commit id p => cases step_cases hs with | commit => exact h.mono rfl hext
  | apply id => cases step_cases hs with | apply => exact h.mono rfl hext
  | join entry owner k => cases step_cases hs with | join => exact h.mono rfl hext
  | deliver id leaf => cases step_cases hs with | deliver => exact h.handed _ _ _ _
  | receive id record => cases step_cases hs with | receive => exact h.handed _ _ _ _
  | sealRecord id plaintext =>
    cases step_cases hs with
    | @sealRecord _ _ record m g hm hpres hg =>
      have hok := hinv.member _ m hm
      obtain ⟨-, -, rfl⟩ := sealRecord_eq_ok hg
      intro e leaf r p hr
      have hr' : (r, p) ∈ Function.update w.sent m.group.epoch (Function.update
          (w.sent m.group.epoch) m.group.myLeaf (w.sent m.group.epoch m.group.myLeaf ++ [_]))
          e leaf := hr
      by_cases he : e = m.group.epoch
      · subst he
        rw [Function.update_self] at hr'
        by_cases hl : leaf = m.group.myLeaf
        · subst hl
          rw [Function.update_self] at hr'
          rcases List.mem_append.1 hr' with hr' | hr'
          · exact h _ _ r p hr'
          · obtain ⟨rfl, rfl⟩ := Prod.mk.inj (List.mem_singleton.1 hr')
            refine ⟨_, m.group.sendSeq, plaintext, hok.view, rfl, ?_⟩
            rw [show m.group.view.epochSecret = m.group.epochSecret from rfl, ← hok.app, recordAt,
              messageKeyAt, ← (hsym.member _ m hm).chained.send]
        · rw [Function.update_of_ne hl] at hr'
          exact h _ _ r p hr'
      · rw [Function.update_of_ne he] at hr'
        exact h _ _ r p hr'

theorem sentOk_of_reachable {ok : World Bytes → SymAction → Prop}
    (h : symbolicMachine.Reachable ok w) : w.SentOk := by
  refine h.invariant (I := World.SentOk) (fun w hw => ?_) fun w w' a hr hi _ hs => ?_
  · obtain ⟨owner, k, capacity, g, -, rfl⟩ := hw
    intro e leaf r p hr
    cases hr
  · exact World.SentOk.step hi (inv_of_symbolic hr) (sym_of_reachable hr) hs

/-! ### What is handed out -/

/-- What is sealed under a message key of the application secret `A` is a record sent in the
epoch `e`. -/
def World.SealedAs (w : World Bytes) (e : ℕ) (A : Bytes) (k _n a m : Bytes) : Prop :=
  ∀ leaf i, k = messageKeyAt A leaf i →
    a = appHeader e leaf i ∧ (recordAt A e leaf i m, m) ∈ w.sent e leaf

/-- No key protected by `A` can be read off the term, and only records are sealed under one. -/
abbrev World.HandsOut (w : World Bytes) (e : ℕ) (A : Bytes) : Bytes → Prop :=
  Handed (w.SealedAs e A) fun f a b => ¬ Protected A (.fn f a b)

theorem ofPublic_handsOut (w : World Bytes) (e : ℕ) (A : Bytes) : OfPublic (w.HandsOut e A) where
  lit _ := trivial
  num _ := trivial
  groupId := trivial
  list _ h := handed_list.2 h
  fn f _ _ hf := not_protected (by rintro rfl; cases hf) (by rintro rfl; cases hf)
    (by rintro rfl; cases hf)
  hash _ _ := not_protected (by simp) (by simp) (by simp)

/-- An expansion under another label is not protected. -/
theorem handsOut_expand {e : ℕ} {A prk info : Bytes}
    (h : ∀ leaf, info ≠ list [labelSenderChain, .num leaf]) :
    w.HandsOut e A (.fn (.expand 32) prk info) := not_protected (by simp) (by simp) fun _ => h

theorem handsOut_secretAt (e : ℕ) (A : Bytes) (q i : ℕ) : w.HandsOut e A (secretAt q i) := by
  cases i with
  | zero => exact trivial
  | succ i =>
    rw [secretAt_succ]
    exact handsOut_expand fun _ h => by cases h

theorem handsOut_epochSecret (h : w.Sym) (hl : w.Linked) {e p : ℕ} {A : Bytes} {v : View Bytes}
    (hv : w.views[p]? = some v) : w.HandsOut e A v.epochSecret := by
  obtain ⟨prk, info, hes, hinfo⟩ := epochSecret_label h hl hv
  rw [hes]
  refine handsOut_expand fun leaf hx => ?_
  rcases hinfo with rfl | ⟨th, rfl⟩
  · cases hx
  · have hx := list_injective hx
    simp only [List.cons.injEq] at hx
    exact absurd hx.1 (by decide)

/-- An envelope is no record. -/
theorem handsOut_sealed {e : ℕ} {A dh ss n a m : Bytes} (hm : w.HandsOut e A m) :
    w.HandsOut e A (.aead (deriveSealKey dh ss) n a m) :=
  ⟨fun _ _ hk => (by cases hk), hm⟩

theorem handsOut_commits (h : w.Sym) (hl : w.Linked) (e : ℕ) (A : Bytes) :
    ∀ t ∈ w.commits, w.HandsOut e A t := by
  rintro _ ⟨entry, he, rfl⟩
  obtain ⟨p, he⟩ := List.mem_iff_getElem?.1 he
  obtain ⟨v, pre, hv, hc, -⟩ := hl.entry p entry he
  exact (ofPublic_handsOut w e A).commit h hl hv he hc fun i _ _ _ _ _ _ _ _ =>
    handsOut_sealed (handsOut_secretAt e A p i)

theorem recordAt_inj {A B : Bytes} {e e' l l' n n' : ℕ} {p p' : Bytes}
    (h : recordAt A e l n p = recordAt B e' l' n' p') :
    messageKeyAt A l n = messageKeyAt B l' n' ∧ e = e' ∧ l = l' ∧ n = n' ∧ p = p' := by
  have h := list_injective h
  simp only [List.cons.injEq, and_true] at h
  obtain ⟨hh, hc⟩ := h
  have hh := list_injective hh
  simp only [List.cons.injEq, and_true] at hh
  injection hc with hk _ _ hm
  exact ⟨hk, Term.num.inj hh.1, Term.num.inj hh.2.1, Term.num.inj hh.2.2, hm⟩

theorem deriveApplicationSecret_inj {s t : Bytes}
    (h : deriveApplicationSecret s = deriveApplicationSecret t) : s = t := by
  injection h with _ h _
  injection h with _ _ h

/-- **A coalition that cannot derive an application secret holds no key it protects**, and has seen
nothing sealed under one but the records of that epoch. -/
theorem handsOut_coalition {ok : World Bytes → SymAction → Prop}
    (hr : symbolicMachine.Reachable ok w) {C : Set ℕ} {e : ℕ} {v : View Bytes}
    (hv : w.views[e]? = some v)
    (hA : ¬ Derives (w.coalitionKnows C) (deriveApplicationSecret v.epochSecret)) :
    ∀ t ∈ w.coalitionKnows C, w.HandsOut e (deriveApplicationSecret v.epochSecret) t := by
  have h := sym_of_reachable hr
  have hinv := inv_of_symbolic hr
  have hl := hinv.linked
  have hQ := ofPublic_handsOut w e (deriveApplicationSecret v.epochSecret)
  have hcommits := handsOut_commits h hl e (deriveApplicationSecret v.epochSecret)
  have hsigned : ∀ entry ∈ w.log, w.HandsOut e (deriveApplicationSecret v.epochSecret)
      entry.commit.signedBytes := fun entry he => (hcommits _ ⟨entry, he, rfl⟩).1
  rintro t ((((⟨id, g, hC, hg, ht⟩ | ⟨id, m, hC, hm, rfl⟩) | ht) | ⟨entry, he, wel, hwel, rfl⟩) |
    ⟨e', leaf, p, ht⟩)
  · -- a state: its chains belong to an application secret the coalition has
    obtain ⟨m, rfl, hok, hm⟩ := ok_of_past hr hg
    obtain ⟨-, k, -, hkeys⟩ := hm.names
    have hne : m.group.applicationSecret ≠ deriveApplicationSecret v.epochSecret := fun he =>
      hA (he ▸ .known (.inl (.inl (.inl (.inl ⟨id, _, hC, hg, .applicationSecret⟩)))))
    refine hQ.stores h hl hsigned hok hm (handsOut_epochSecret h hl hok.view) ?_ (fun keys hk => ?_)
      (fun n s hs => ?_) (fun leaf n => ?_) t ht
    · rw [hok.app]
      exact handsOut_expand fun _ hx => by cases hx
    · obtain rfl := Option.some.inj (hkeys.symm.trans hk)
      exact ⟨trivial, trivial⟩
    · obtain ⟨q, -, i, -, -, -, -, -, rfl, -⟩ := hm.known n s hs
      exact handsOut_secretAt e _ q i
    · cases n with
      | zero => exact not_protected_chainAt hne leaf 0
      | succ n =>
        have := not_protected_chainAt hne leaf (n + 1)
        rw [chainAt_mac] at this ⊢
        exact this
  · obtain ⟨owner, -, hsigner, -⟩ := (h.member id m hm).names
    rw [hsigner]
    exact trivial
  · exact hcommits t ht
  · obtain ⟨q, he⟩ := List.mem_iff_getElem?.1 he
    exact hQ.welcome h hl hsigned he hwel fun u _ _ _ _ _ hu _ hm =>
      handsOut_sealed (hm (handsOut_epochSecret h hl hu))
  · obtain ⟨u, n, s, hu, rfl, rfl⟩ := sentOk_of_reachable hr e' leaf t p ht
    refine handed_list.2 (List.forall_mem_cons.2 ⟨handed_list.2 ?_, List.forall_mem_singleton.2
      ⟨fun l i hk => ?_, trivial⟩⟩)
    · simp only [List.forall_mem_cons]
      exact ⟨trivial, trivial, trivial, fun _ hx => (List.not_mem_nil hx).elim⟩
    · obtain ⟨hA', rfl, rfl⟩ := messageKeyAt_inj hk
      obtain rfl := epochSecret_inj h hl hu hv (deriveApplicationSecret_inj hA')
      exact ⟨rfl, hA' ▸ ht⟩

/-! ### Attribution -/

/-- A record that opens is the next record of its leaf. -/
theorem eq_recordAt_of_open {g : Group Bytes} (hc : Chained g) {record plaintext : Bytes}
    {leaf : ℕ} (h : (g.openRecord record).2 = .ok (leaf, plaintext)) :
    record = recordAt g.applicationSecret g.epoch leaf (g.recvChain leaf).2 plaintext := by
  rcases openRecord_spec g record with ⟨⟨err, herr⟩, -⟩ | ⟨leaf', header, ct, plaintext', hread, -,
    -, hopen, hok, -⟩
  · cases h.symm.trans herr
  · obtain ⟨rfl, rfl⟩ := Prod.mk.inj (Except.ok.inj (h.symm.trans hok))
    rw [hc.recvChain_eq] at hopen
    have hct : ct = .aead (messageKeyAt g.applicationSecret leaf (g.recvChain leaf).2) zeroNonce
        header plaintext := by
      unfold aeadSealOpen at hopen
      split at hopen
      · rename_i p hp
        obtain rfl := Except.ok.inj hopen
        exact aeadOpen_eq_some.1 hp
      · cases hopen
    unfold readRecord at hread
    split at hread
    · rename_i header' ct' hrec
      split at hread
      · rename_i t₁ t₂ t₃ hheader
        simp only [Option.bind_eq_bind, Option.bind_eq_some_iff, Option.some.injEq,
          Prod.mk.injEq] at hread
        obtain ⟨n₁, h1, n₂, h2, n₃, h3, rfl, rfl, rfl, rfl, rfl⟩ := hread
        have h1 := eq_num_of_unnum h1
        have h2 := eq_num_of_unnum h2
        have h3 := eq_num_of_unnum h3
        have hheader := eq_list_of_unlist hheader
        have hrec := eq_list_of_unlist hrec
        rw [hrec, hct, hheader, h1, h2, h3]
        rfl
      · cases hread
    · cases hread

/-- The insiders `C` hand over records they can make. -/
def Insiders (C : Set ℕ) (w : World Bytes) : SymAction → Prop
  | .receive _ record => Derives (w.coalitionKnows C) record
  | _ => True

/-- The insiders `C` hand over records they can make; a member outside the coalition whose
application secret they can derive is handed nothing but records somebody sealed. -/
def Insulated (C : Set ℕ) (w : World Bytes) : SymAction → Prop
  | .receive id record => Derives (w.coalitionKnows C) record ∧ (id ∈ C ∨
      (∃ e leaf p, (record, p) ∈ w.sent e leaf) ∨
      ∀ m, w.members id = some m → ¬ Derives (w.coalitionKnows C) m.group.applicationSecret)
  | _ => True

/-- A record that was sent opens as what it is. -/
theorem sent_of_sent (hs : w.SentOk) {g : Group Bytes} (hc : Chained g)
    {record p plaintext : Bytes} {e leaf leaf' : ℕ} (hr : (record, p) ∈ w.sent e leaf')
    (h : (g.openRecord record).2 = .ok (leaf, plaintext)) :
    (record, plaintext) ∈ w.sent g.epoch leaf := by
  obtain ⟨v, n, s, -, rfl, rfl⟩ := hs e leaf' record p hr
  obtain ⟨-, rfl, rfl, -, rfl⟩ := recordAt_inj (eq_recordAt_of_open hc h)
  exact hr

/-- **A record made without the application secret opens only if it was sent.** -/
theorem sent_of_derives {ok : World Bytes → SymAction → Prop}
    (hr : symbolicMachine.Reachable ok w) {C : Set ℕ} {id leaf : ℕ} {m : Member Bytes}
    {record plaintext : Bytes} (hm : w.members id = some m)
    (hrec : Derives (w.coalitionKnows C) record)
    (hA : ¬ Derives (w.coalitionKnows C) m.group.applicationSecret)
    (h : (m.group.openRecord record).2 = .ok (leaf, plaintext)) :
    (record, plaintext) ∈ w.sent m.group.epoch leaf := by
  have hok := (inv_of_symbolic hr).member id m hm
  have happ : m.group.applicationSecret = deriveApplicationSecret m.group.view.epochSecret :=
    hok.app
  have heq := eq_recordAt_of_open ((sym_of_reachable hr).member id m hm).chained h
  rw [happ] at hA heq
  have hhands := handsOut_coalition hr hok.view hA
  rw [heq] at hrec ⊢
  have hct := hrec.of_list (t := .aead _ zeroNonce _ plaintext) (List.mem_cons_of_mem _
    List.mem_cons_self)
  rcases derives_key_or_handed hhands hct with hk | hsealed
  · exact absurd hk (not_derives_of_protected hhands hA (.inr ⟨_, _, .inr rfl⟩))
  · exact (hsealed leaf _ rfl).2

/-- Every record a member outside `C` opened was sent. -/
def World.Attributed (w : World Bytes) (C : Set ℕ) : Prop :=
  ∀ o ∈ w.opened, o.id ∉ C → (o.record, o.plaintext) ∈ w.sent o.epoch o.leaf

theorem World.Attributed.handed {C : Set ℕ} (h : w.Attributed C) {id : ℕ} {m : Member Bytes}
    {record : Bytes} {result : Result (ℕ × Bytes)} (ho : id ∉ C → ∀ leaf plaintext,
      result = .ok (leaf, plaintext) → (record, plaintext) ∈ w.sent m.group.epoch leaf) :
    (w.handed id m record result).Attributed C := by
  unfold World.handed
  split
  · rename_i leaf plaintext
    intro o hmem hC
    rcases List.mem_cons.1 hmem with rfl | hmem
    · exact ho hC leaf plaintext rfl
    · exact h o hmem hC
  · exact h

/-- One step keeps every opened record attributed. -/
theorem World.Attributed.step {ok : World Bytes → SymAction → Prop} {C : Set ℕ}
    (hr : symbolicMachine.Reachable ok w) (h : w.Attributed C) {a : SymAction}
    (ha : Insulated C w a) (hs : w.step (a.toAction w) = some w') : w'.Attributed C := by
  have hsent := sentOk_of_reachable hr
  have hsym := sym_of_reachable hr
  cases a with
  | commit id p => cases step_cases hs with | commit => exact h
  | apply id => cases step_cases hs with | apply => exact h
  | join entry owner k => cases step_cases hs with | join => exact h
  | sealRecord id plaintext =>
    cases step_cases hs with
    | @sealRecord _ _ record m g hm hpres hg =>
      intro o ho hC
      exact mem_send (h o ho hC)
  | deliver id leaf =>
    cases step_cases hs with
    | @deliver _ _ m record plaintext hm hpres hleaf hrec =>
      refine h.handed fun _ leaf' plaintext' hopen => ?_
      rw [show (m.group.openRecord record).1.epoch = m.group.epoch from
        congrArg View.epoch (sameCore_openRecord m.group record).view]
      exact sent_of_sent hsent (hsym.member id m hm).chained (List.mem_of_getElem? hrec) hopen
  | receive id record =>
    cases step_cases hs with
    | @receive _ m _ hm =>
      refine h.handed fun hC leaf plaintext hopen => ?_
      rw [show (m.group.openRecord record).1.epoch = m.group.epoch from
        congrArg View.epoch (sameCore_openRecord m.group record).view]
      obtain ⟨hrec, hid | ⟨e, leaf', p, hp⟩ | hA⟩ := ha
      · exact absurd hid hC
      · exact sent_of_sent hsent (hsym.member id m hm).chained hp hopen
      · exact sent_of_derives hr hm hrec (hA m hm) hopen

/-- **Group messages are attributable** as long as members outside the coalition whose application
secret the coalition has are only handed sealed records: in every run, whatever a member outside
the coalition opened was sealed by the member at that leaf, with that plaintext, in that epoch;
and nobody opened a record twice. -/
theorem opened_attributed {C : Set ℕ} (hr : symbolicMachine.Reachable (Insulated C) w) :
    w.Attributed C ∧ w.opened.Pairwise fun o o' => o.id = o'.id → o.record ≠ o'.record := by
  refine ⟨?_, (openedOnce_of_reachable (machine_of_symbolic hr)).once⟩
  refine hr.invariant (I := fun w => w.Attributed C) (fun w hw => ?_)
    fun w w' a hr hi hok hs => World.Attributed.step hr hi hok hs
  obtain ⟨owner, k, capacity, g, -, rfl⟩ := hw
  exact fun o ho => (List.not_mem_nil ho).elim

/-- **Whoever has the application secret makes records of any other member.** -/
theorem opens_forged {K : Set Bytes} {g : Group Bytes} (hc : Chained g) (hepoch : g.epoch < 2 ^ 64)
    {leaf : ℕ} (hlt : leaf < 2 ^ 64) (hseq : (g.recvChain leaf).2 + 1 < 2 ^ 64)
    (hleaf : leaf ≠ g.myLeaf) (hmem : g.isMember leaf = true)
    (hA : Derives K g.applicationSecret) {plaintext : Bytes} (hp : Derives K plaintext) :
    ∃ record, Derives K record ∧ (g.openRecord record).2 = .ok (leaf, plaintext) := by
  have hchain : ∀ n, Derives K (chainAt g.applicationSecret leaf n) := by
    intro n
    induction n with
    | zero => exact .fn rfl (.fn rfl .nil hA) (.cons (.lit _) (.cons (.num _) .nil))
    | succ n ih =>
      rw [chainAt_mac]
      exact .fn rfl ih (.num _)
  have hheader : Derives K (appHeader g.epoch leaf (g.recvChain leaf).2) :=
    .cons (.num _) (.cons (.num _) (.cons (.num _) .nil))
  refine ⟨recordAt g.applicationSecret g.epoch leaf (g.recvChain leaf).2 plaintext,
    .cons hheader (.cons (.aead (.fn rfl (hchain _) (.num _)) (.num _) hheader hp) .nil), ?_⟩
  obtain ⟨recvChains, hopen, -⟩ := openRecord_recordAt plaintext hepoch hlt hseq
    hleaf hmem (Prod.ext (hc.recvChain_eq leaf) rfl)
  rw [hopen]

end Coalition

/-! ### Two runs -/

/-- Member `1` is removed; the founder seals a record in the epoch without it. -/
def insulatedRun : List SymAction :=
  [.commit 0 (.add 1 1), .join 0 1 1, .commit 0 (.add 2 2), .apply 1, .join 1 2 2,
    .commit 0 (.remove 1), .apply 2, .sealRecord 0 "hello", .deliver 2 0]

/-- The one record opened after that run. -/
def openedHello (w : World Bytes) : Bool :=
  match w.opened with
  | [o] => decide (o.id = 2 ∧ o.leaf = 0 ∧ o.plaintext = .lit "hello")
  | _ => false

/-- In that run member `1`, alone, is a coalition that may hand over anything; the record opened is
the founder's. -/
theorem opened_attributed_insulatedRun : ∃ w o, runFrom 4 insulatedRun = some w ∧
    w.opened = [o] ∧ o.id = 2 ∧ o.leaf = 0 ∧ o.plaintext = .lit "hello" ∧
    (o.record, o.plaintext) ∈ w.sent o.epoch o.leaf := by
  have hrun : (runFrom 4 insulatedRun).map openedHello = some true := by decide +kernel
  obtain ⟨w, hw, hp⟩ := Option.map_eq_some_iff.1 hrun
  unfold openedHello at hp
  split at hp
  · rename_i o hopened
    obtain ⟨hid, hleaf, hpt⟩ := of_decide_eq_true hp
    have hr : symbolicMachine.Reachable (Insulated {1}) w := by
      refine reachable_of_runFrom (fun t a ha => ?_) hw
      simp only [insulatedRun, List.mem_cons, List.not_mem_nil, or_false] at ha
      rcases ha with rfl | rfl | rfl | rfl | rfl | rfl | rfl | rfl | rfl <;> trivial
    obtain ⟨hattr, -⟩ := opened_attributed hr
    exact ⟨w, o, hw, hopened, hid, hleaf, hpt, hattr o (by simp [hopened]) (by simp [hid])⟩
  · cases hp

/-- Three members reach one epoch and nobody seals anything. -/
def silentRun : List SymAction :=
  [.commit 0 (.add 1 1), .join 0 1 1, .commit 0 (.add 2 2), .apply 1, .join 1 2 2]

/-- All three are in epoch `2`, and no record of the founder is under way. -/
def silent (w : World Bytes) : Bool :=
  match w.members 0, w.past.find? (fun p => decide (p.1 = 1)), w.members 2 with
  | some m₀, some (i, g₁), some m₂ =>
    decide (i = 1 ∧ m₀.group.myLeaf = 0 ∧ m₀.group.epoch = 2 ∧ m₂.group.epoch = 2 ∧
      g₁.applicationSecret = m₂.group.applicationSecret ∧ 0 ≠ m₂.group.myLeaf ∧
      m₂.group.isMember 0 = true ∧ (m₂.group.recvChain 0).2 = 0 ∧ w.sent 2 0 = [])
  | _, _, _ => false

/-- **A member forges a record of another one.**  Member `1` makes a record that member `2` opens
as the founder's, who sealed nothing. -/
theorem opened_forged_silentRun : ∃ w o m₀, symbolicMachine.Reachable (Insiders {1}) w ∧
    o ∈ w.opened ∧ o.id = 2 ∧ o.leaf = 0 ∧ o.plaintext = .lit "forged" ∧
    w.members 0 = some m₀ ∧ m₀.group.myLeaf = 0 ∧ m₀.group.epoch = o.epoch ∧
    w.sent o.epoch o.leaf = [] := by
  have hrun : (runFrom 4 silentRun).map silent = some true := by decide +kernel
  obtain ⟨w, hw, hp⟩ := Option.map_eq_some_iff.1 hrun
  unfold silent at hp
  split at hp
  · rename_i m₀ i g₁ m₂ hm₀ hg₁ hm₂
    obtain ⟨rfl, hl₀, he₀, he₂, happ, hleaf, hmem, hseq, hsent⟩ := of_decide_eq_true hp
    have hr : symbolicMachine.Reachable (Insiders {1}) w := by
      refine reachable_of_runFrom (fun t a ha => ?_) hw
      simp only [silentRun, List.mem_cons, List.not_mem_nil, or_false] at ha
      rcases ha with rfl | rfl | rfl | rfl | rfl <;> trivial
    have hA : Derives (w.coalitionKnows {1}) m₂.group.applicationSecret :=
      happ ▸ .known (.inl (.inl (.inl (.inl ⟨1, g₁, rfl, List.mem_of_find?_eq_some hg₁,
        .applicationSecret⟩))))
    obtain ⟨record, hrec, hopen⟩ := opens_forged ((sym_of_reachable hr).member 2 m₂ hm₂).chained
      (by omega) (by omega) (by omega) hleaf hmem hA (.lit "forged")
    have hstep : symbolicMachine.step w (.receive 2 record) =
        some (w.handed 2 { m₂ with group := (m₂.group.openRecord record).1 } record
          (m₂.group.openRecord record).2) := by
      show w.step (.receive 2 record) = _
      simp only [World.step, hm₂]
    have hepoch : (m₂.group.openRecord record).1.epoch = 2 := by
      rw [← he₂]
      exact congrArg View.epoch (sameCore_openRecord m₂.group record).view
    refine ⟨_, ⟨2, (m₂.group.openRecord record).1.epoch, 0, .lit "forged", record⟩, m₀,
      hr.step (a := .receive 2 record) hrec hstep, ?_, rfl, rfl, rfl,
      (World.members_handed_of_ne (by omega)).trans hm₀, hl₀, he₀.trans hepoch.symm, ?_⟩
    · rw [hopen]
      exact List.mem_cons_self
    · rw [hopen, hepoch]
      exact hsent
  · cases hp

end Group

end NovaChannel
