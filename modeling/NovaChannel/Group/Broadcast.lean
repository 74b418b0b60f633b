import NovaChannel.Group.Provenance

/-!
# What a run hands out

The views, commits and welcomes of a symbolic run, as terms.

* `ok_of_past` : every state a member was ever in satisfies what current states satisfy;
* `World.Sym.leaf`, `World.Sym.parent` : the public keys of a tree, and which leaves stayed below
  the key of an internal node;
* `epochSecret_inj` : every epoch has a secret of its own;
* `OfPublic` : what is public has the property; `OfPublic.commit`, `OfPublic.welcome` and
  `OfPublic.stores` reduce messages and states to their ciphertexts and secrets;
* `safe_commit`, `safe_welcome`, `safe_stores` : when these give nothing secret away.
-/

namespace NovaChannel

namespace Group

open Crypto Term

/-! ### Past states -/

section Past

variable {w w' : World Bytes}

/-- The later world of a run extends the earlier one. -/
structure World.Extends (w w' : World Bytes) : Prop where
  log : ∀ (q : ℕ) e, w.log[q]? = some e → w'.log[q]? = some e
  views : ∀ (q : ℕ) v, w.views[q]? = some v → w'.views[q]? = some v

/-- A step extends the world, and the only new past state is a member's current one. -/
theorem extends_of_step {a : Action Bytes} (h : w.step a = some w') :
    w.Extends w' ∧
      ∀ p ∈ w'.past, p ∈ w.past ∨ ∃ m, w'.members p.1 = some m ∧ m.group = p.2 := by
  have single : ∀ {v : World Bytes} {id : ℕ} {m : Member Bytes}, v.past = w.past →
      ∀ p ∈ (v.setMember id m).past,
        p ∈ w.past ∨ ∃ m', (v.setMember id m).members p.1 = some m' ∧ m'.group = p.2 := by
    intro v id m hv p hp
    rcases List.mem_cons.1 hp with rfl | hp
    · exact .inr ⟨m, World.members_setMember_self, rfl⟩
    · exact .inl (hv ▸ hp)
  have handed : ∀ {id : ℕ} {m : Member Bytes} {record : Bytes} {result : Result (ℕ × Bytes)},
      w.Extends (w.handed id m record result) ∧ ∀ p ∈ (w.handed id m record result).past,
        p ∈ w.past ∨
          ∃ m', (w.handed id m record result).members p.1 = some m' ∧ m'.group = p.2 := by
    intro id m record result
    obtain ⟨opened, he⟩ := w.handed_eq id m record result
    rw [he]
    exact ⟨⟨fun _ _ h => h, fun _ _ h => h⟩, single (v := w) rfl⟩
  cases step_cases h with
  | commit =>
    exact ⟨⟨fun q e he => getElem?_append_some.2 (.inl he),
      fun q v hv => getElem?_append_some.2 (.inl hv)⟩, single rfl⟩
  | apply => exact ⟨⟨fun _ _ h => h, fun _ _ h => h⟩, single rfl⟩
  | join => exact ⟨⟨fun _ _ h => h, fun _ _ h => h⟩, single rfl⟩
  | sealRecord => exact ⟨⟨fun _ _ h => h, fun _ _ h => h⟩, single rfl⟩
  | deliver => exact handed
  | receive => exact handed

theorem World.MemberOk.extend {id : ℕ} {m : Member Bytes} (h : w.MemberOk id m)
    (he : w.Extends w') : w'.MemberOk id m := h.mono he.views

theorem World.MemberSym.extend {m : Member Bytes} (h : w.MemberSym m) (he : w.Extends w') :
    w'.MemberSym m := h.mono he.log he.views

/-- **Every state a member was ever in** satisfies the invariants of the members. -/
theorem ok_of_past {ok : World Bytes → SymAction → Prop} (h : symbolicMachine.Reachable ok w)
    {id : ℕ} {g : Group Bytes} (hg : (id, g) ∈ w.past) :
    ∃ m, m.group = g ∧ w.MemberOk id m ∧ w.MemberSym m := by
  induction h with
  | init hi =>
    have hr : symbolicMachine.Reachable ok _ := .init hi
    obtain ⟨owner, k, capacity, g₀, -, rfl⟩ := hi
    obtain ⟨rfl, rfl⟩ := Prod.mk.inj (List.mem_singleton.1 hg)
    have hm : (World.start (.name (.identity owner)) g).members 0 =
        some ⟨.name (.identity owner), g, fun _ => 0⟩ := by simp [World.start]
    exact ⟨_, rfl, (inv_of_symbolic hr).member 0 _ hm, (sym_of_reachable hr).member 0 _ hm⟩
  | @step w w' a hr ha hs ih =>
    have hr' := Machine.Reachable.step hr ha hs
    obtain ⟨hext, hpast⟩ := extends_of_step hs
    rcases hpast _ hg with hg | ⟨m, hm, hmg⟩
    · obtain ⟨m, hmg, hok, hsym⟩ := ih hg
      exact ⟨m, hmg, hok.extend hext, hsym.extend hext⟩
    · have hinv := inv_of_symbolic hr'
      exact ⟨m, hmg, hinv.member _ _ hm, (sym_of_reachable hr').member _ _ hm⟩

end Past

/-! ### The views of a run -/

section Views

variable {w : World Bytes}

/-- Induction along the epochs of a run. -/
theorem World.Linked.induction (h : w.Linked) {P : ℕ → View Bytes → Prop}
    (zero : ∀ v, w.views[0]? = some v → P 0 v)
    (succ : ∀ (p : ℕ) v (e : Entry Bytes) pre, w.views[p]? = some v → w.log[p]? = some e →
      v.WellFormed → v.epoch = p → Committed v e.coins e.commit pre → Shape v.capacity pre →
      w.views[p + 1]? = some (v.next e.coins e.commit pre) → P p v →
      P (p + 1) (v.next e.coins e.commit pre)) :
    ∀ (p : ℕ) v, w.views[p]? = some v → P p v := by
  intro p
  induction p with
  | zero => exact zero
  | succ p ih =>
    intro v' hv'
    have hlt : p + 1 < w.views.length := (List.getElem?_eq_some_iff.1 hv').1
    have hlog : p < w.log.length := by
      have := h.length
      omega
    obtain ⟨v, pre, hv, hc, hpre, hnext, -⟩ := h.entry p _ (List.getElem?_eq_getElem hlog)
    obtain rfl := Option.some.inj (hnext.symm.trans hv')
    obtain ⟨hwf, hep⟩ := h.wf p v hv
    exact succ p v _ pre hv (List.getElem?_eq_getElem hlog) hwf hep hc hpre hnext (ih v hv)

theorem World.Linked.getElem?_views (h : w.Linked) {p : ℕ} (hp : p ≤ w.log.length) :
    ∃ v, w.views[p]? = some v := by
  have hlt : p < w.views.length := by
    have := h.length
    omega
  exact ⟨_, List.getElem?_eq_getElem hlt⟩

/-- All views have one capacity. -/
theorem World.Linked.capacity_eq (h : w.Linked) {p q : ℕ} {v u : View Bytes}
    (hv : w.views[p]? = some v) (hu : w.views[q]? = some u) : v.capacity = u.capacity := by
  obtain ⟨v₀, hv₀⟩ := h.getElem?_views (Nat.zero_le _)
  have hall : ∀ (p : ℕ) v, w.views[p]? = some v → v.capacity = v₀.capacity :=
    h.induction (P := fun _ v => v.capacity = v₀.capacity)
      (fun v hv => by rw [Option.some.inj (hv.symm.trans hv₀)])
      fun _ _ _ _ _ _ _ _ _ _ _ ih => ih
  rw [hall p v hv, hall q u hu]

theorem World.Sym.groupId (h : w.Sym) (hl : w.Linked) {p : ℕ} {v : View Bytes}
    (hv : w.views[p]? = some v) : v.groupId = .name .groupId := by
  obtain ⟨v₀, hv₀, hgid, -⟩ := h.genesis
  exact hl.induction (P := fun _ v => v.groupId = .name .groupId)
    (fun v hv => by rw [Option.some.inj (hv.symm.trans hv₀), hgid])
    (fun _ _ _ _ _ _ _ _ _ _ _ ih => ih) p v hv

/-- A leaf of a spliced tree was in the tree or has just been added. -/
theorem leaf_of_splice {nodes pre : List (TreeNode Bytes)} {capacity n : ℕ}
    {op : GroupOp Bytes} {lp : LeafKeyPackage Bytes} (h : splice nodes capacity op = .ok pre)
    (hn : pre[n]? = some (.leaf lp)) :
    nodes[n]? = some (.leaf lp) ∨ ∃ leaf, op = .add leaf lp ∧ n = leafToNode capacity leaf := by
  cases op with
  | add leaf lp' =>
    obtain ⟨-, -, rfl⟩ := splice_add h
    rw [List.getElem?_set] at hn
    split_ifs at hn with he hlt
    · obtain rfl : lp' = lp := by simpa using hn
      exact .inr ⟨leaf, rfl, he.symm⟩
    · exact .inl hn
  | remove leaf =>
    obtain ⟨-, hl, hb, hs⟩ := splice_remove h
    by_cases hbel : Below n (leafToNode capacity leaf)
    · rw [hb n hbel (hl ▸ (List.getElem?_eq_some_iff.1 hn).1)] at hn
      cases hn
    · exact .inl (hs n hbel ▸ hn)
  | update =>
    cases h
    exact .inl hn

/-- A path update brings no leaf. -/
theorem leaf_of_next {v : View Bytes} {coins : CommitCoins Bytes} {c : Commit Bytes}
    {pre : List (TreeNode Bytes)} (hc : Committed v coins c pre) (hpre : Shape v.capacity pre)
    {n : ℕ} {lp : LeafKeyPackage Bytes}
    (hn : (v.next coins c pre).nodes[n]? = some (.leaf lp)) : pre[n]? = some (.leaf lp) := by
  by_cases hd : n ∈ directPath v.capacity c.senderLeaf
  · obtain ⟨s, -, hs⟩ := hc.getElem?_next hpre hd
    cases hs.symm.trans hn
  · rwa [getElem?_next_of_notMem hd] at hn

/-- **Every leaf carries a key package.** -/
theorem World.Sym.leaf (h : w.Sym) (hl : w.Linked) {p n : ℕ} {v : View Bytes}
    {lp : LeafKeyPackage Bytes} (hv : w.views[p]? = some v)
    (hn : v.nodes[n]? = some (.leaf lp)) : ∃ owner k, lp = (package owner k).public := by
  obtain ⟨v₀, hv₀, -, -, -, hleaf, -⟩ := h.genesis
  refine hl.induction (P := fun _ v => ∀ (n : ℕ) lp, v.nodes[n]? = some (.leaf lp) →
    ∃ owner k, lp = (package owner k).public) (fun v hv => ?_) (fun p v e pre _ he _ _ hc hpre _ ih
    n lp hn => ?_) p v hv n lp hn
  · rw [Option.some.inj (hv.symm.trans hv₀)]
    exact hleaf
  · rcases leaf_of_splice hc.spliced (leaf_of_next hc hpre hn) with hn | ⟨leaf, hop, -⟩
    · exact ih n lp hn
    · exact ((h.entry p e he).2 leaf lp hop).1

/-- The key of an internal node `n` comes from the path of an epoch `q`, and every leaf that
stood below `n` then still stands there. -/
def World.Rooted (w : World Bytes) (p : ℕ) (v : View Bytes) (n : ℕ) (pk : NodePublicKey Bytes) :
    Prop :=
  ∃ q e j u, q < p ∧ w.log[q]? = some e ∧ w.views[q + 1]? = some u ∧
    (directPath u.capacity e.commit.senderLeaf)[j]? = some n ∧
    pk = (deriveNodeKeypair (secretAt q j)).public ∧
    ∀ leaf lp, Below n (u.node leaf) → u.nodes[u.node leaf]? = some (.leaf lp) →
      v.nodes[v.node leaf]? = some (.leaf lp)

/-- **The keys of internal nodes are derived from path secrets**, and a removal below a node
blanks it. -/
theorem World.Sym.parent (h : w.Sym) (hl : w.Linked) {p n : ℕ} {v : View Bytes}
    {pk : NodePublicKey Bytes} (hv : w.views[p]? = some v)
    (hn : v.nodes[n]? = some (.parent pk)) : w.Rooted p v n pk := by
  obtain ⟨v₀, hv₀, -, -, -, -, hparent⟩ := h.genesis
  refine hl.induction (P := fun p v => ∀ (n : ℕ) pk, v.nodes[n]? = some (.parent pk) →
    w.Rooted p v n pk) (fun v hv n pk hn => ?_) (fun p v e pre hv he hwf _ hc hpre hnext ih n pk hn
    => ?_) p v hv n pk hn
  · rw [Option.some.inj (hv.symm.trans hv₀)] at hn
    exact absurd hn (hparent n pk)
  · by_cases hd : n ∈ directPath v.capacity e.commit.senderLeaf
    · -- a key of the new path
      obtain ⟨s, hs, hset⟩ := hc.getElem?_next hpre hd
      obtain ⟨i, hi, rfl⟩ := lookup_pathSecrets_eq_some hs
      refine ⟨p, e, i, _, by omega, he, hnext, hi, ?_, fun leaf lp _ hlp => hlp⟩
      rw [hset] at hn
      rw [(h.entry p e he).1] at hn
      exact (TreeNode.parent.inj (Option.some.inj hn)).symm
    · -- an older key: nothing below it was removed
      rw [getElem?_next_of_notMem hd] at hn
      obtain ⟨q, e', j, u, hq, he', hu, hj, hpk, hkeep⟩ := ih n pk (parent_of_splice hc.spliced hn)
      refine ⟨q, e', j, u, by omega, he', hu, hj, hpk, fun leaf lp hb hlp => ?_⟩
      refine hc.leaf_next (hkeep leaf lp hb hlp) fun hrem => ?_
      have hsp := hc.spliced
      rw [hrem] at hsp
      obtain ⟨-, hlen, hblank, -⟩ := splice_remove hsp
      have hcap : u.capacity = v.capacity := hl.capacity_eq hu hv
      rw [View.node, hcap] at hb
      have hlt : n < v.nodes.length := hlen ▸ (List.getElem?_eq_some_iff.1 hn).1
      rw [hblank n hb hlt] at hn
      cases hn

/-! ### Epoch secrets -/

/-- The epoch secret grows with every epoch. -/
theorem World.Linked.epochSecret_succ (h : w.Linked) {p : ℕ} {v v' : View Bytes}
    (hv : w.views[p]? = some v) (hv' : w.views[p + 1]? = some v') :
    ∃ e, w.log[p]? = some e ∧ v'.epochSecret = nextEpochSecret v.epochSecret
      (commitSecret (directPath v.capacity e.commit.senderLeaf) e.coins.pathSecret)
      v'.transcriptHash := by
  have hlt : p + 1 < w.views.length := (List.getElem?_eq_some_iff.1 hv').1
  have hlog : p < w.log.length := by
    have := h.length
    omega
  obtain ⟨u, pre, hu, -, -, hnext, -⟩ := h.entry p _ (List.getElem?_eq_getElem hlog)
  obtain rfl := Option.some.inj (hu.symm.trans hv)
  obtain rfl := Option.some.inj (hnext.symm.trans hv')
  exact ⟨_, List.getElem?_eq_getElem hlog, rfl⟩

theorem nextEpochSecret_inj {s c t s' c' t' : Bytes}
    (h : nextEpochSecret s c t = nextEpochSecret s' c' t') : s = s' ∧ c = c' := by
  injection h with _ h _
  injection h with _ h h'
  exact ⟨h, h'⟩

theorem initialEpochSecret_ne {i g s c t : Bytes} :
    initialEpochSecret i g ≠ nextEpochSecret s c t := by
  intro h
  injection h with _ _ h
  cases h

/-- **Every epoch has a secret of its own.** -/
theorem epochSecret_inj (h : w.Sym) (hl : w.Linked) {p q : ℕ} {v u : View Bytes}
    (hv : w.views[p]? = some v) (hu : w.views[q]? = some u)
    (he : v.epochSecret = u.epochSecret) : p = q := by
  obtain ⟨v₀, hv₀, -, hes, -⟩ := h.genesis
  have zero_succ : ∀ {q : ℕ} {v u : View Bytes}, w.views[0]? = some v →
      w.views[q + 1]? = some u → v.epochSecret ≠ u.epochSecret := by
    intro q v u hv hu he
    obtain ⟨u', hu'⟩ := hl.getElem?_views (p := q) (by
      have := (List.getElem?_eq_some_iff.1 hu).1
      have := hl.length
      omega)
    obtain ⟨e, -, hsucc⟩ := hl.epochSecret_succ hu' hu
    obtain rfl := Option.some.inj (hv.symm.trans hv₀)
    exact initialEpochSecret_ne (hes.symm.trans (he.trans hsucc))
  induction p generalizing q v u with
  | zero =>
    cases q with
    | zero => rfl
    | succ q => exact absurd he (zero_succ hv hu)
  | succ p ih =>
    cases q with
    | zero => exact absurd he.symm (zero_succ hu hv)
    | succ q =>
      have hlen := hl.length
      have hp := (List.getElem?_eq_some_iff.1 hv).1
      have hq := (List.getElem?_eq_some_iff.1 hu).1
      obtain ⟨v', hv'⟩ := hl.getElem?_views (p := p) (by omega)
      obtain ⟨u', hu'⟩ := hl.getElem?_views (p := q) (by omega)
      obtain ⟨_, -, h1⟩ := hl.epochSecret_succ hv' hv
      obtain ⟨_, -, h2⟩ := hl.epochSecret_succ hu' hu
      rw [ih hv' hu' (nextEpochSecret_inj (h1.symm.trans (he.trans h2))).1]

end Views

/-! ### Policies of a run -/

/-- Path secrets and epoch secrets, by the label they are derived with. -/
def Exposable (t : Bytes) : Prop :=
  ∃ prk info, t = .fn (.expand 32) prk info ∧
    (info = labelPathStep ∨ info = labelEpochSecret ∨ ∃ th, info = frame [labelEpochSecret, th])

/-- A policy that hands out path secrets and epoch secrets only, and does not hide the group's
name. -/
structure PlainPolicy (P : Policy Name) : Prop where
  exposed : ∀ t, P.exposed t → Exposable t
  groupId : ¬ P.secret .groupId

/-- Every epoch secret carries the label of epoch secrets. -/
theorem epochSecret_label {w : World Bytes} (h : w.Sym) (hl : w.Linked) {p : ℕ} {v : View Bytes}
    (hv : w.views[p]? = some v) : ∃ prk info, v.epochSecret = .fn (.expand 32) prk info ∧
      (info = labelEpochSecret ∨ ∃ th, info = frame [labelEpochSecret, th]) := by
  cases p with
  | zero =>
    obtain ⟨v₀, hv₀, -, hes, -⟩ := h.genesis
    rw [Option.some.inj (hv.symm.trans hv₀), hes]
    exact ⟨_, _, rfl, .inl rfl⟩
  | succ p =>
    have hlt := (List.getElem?_eq_some_iff.1 hv).1
    have hlen := hl.length
    obtain ⟨u, hu⟩ := hl.getElem?_views (p := p) (by omega)
    obtain ⟨e, -, hes⟩ := hl.epochSecret_succ hu hv
    rw [hes]
    exact ⟨_, _, rfl, .inr ⟨_, rfl⟩⟩

theorem exposable_epochSecret {w : World Bytes} (h : w.Sym) (hl : w.Linked) {p : ℕ}
    {v : View Bytes} (hv : w.views[p]? = some v) : Exposable v.epochSecret := by
  obtain ⟨prk, info, hes, hinfo⟩ := epochSecret_label h hl hv
  exact ⟨prk, info, hes, .inr hinfo⟩

section Policies

variable {P : Policy Name}

/-- A function value that no policy hands out is as safe as its arguments. -/
theorem PlainPolicy.safe_fn (hP : PlainPolicy P) {f : Fn} {a b : Bytes}
    (hpub : f.isPublic = false) (hkem : f ≠ .kemShared) (h : ¬ Exposable (.fn f a b)) :
    P.Safe (.fn f a b) ↔ P.Safe a ∧ P.Safe b := by
  rw [Policy.safe_fn hkem, hpub]
  constructor
  · rintro (h' | h' | h')
    · cases h'
    · exact absurd (hP.exposed _ h') h
    · exact h'
  · exact fun h' => .inr (.inr h')

theorem not_exposable {f : Fn} {a b : Bytes} (hf : f ≠ .expand 32) : ¬ Exposable (.fn f a b) := by
  rintro ⟨prk, info, h, -⟩
  injection h with h _ _
  exact hf h

theorem not_exposable_lit {prk : Bytes} {label : String}
    (h1 : label ≠ "novachannel group v1 path secret step")
    (h2 : label ≠ "novachannel group v1 epoch secret") :
    ¬ Exposable (.fn (.expand 32) prk (.lit label)) := by
  rintro ⟨prk', info, h, h'⟩
  injection h with _ _ h
  subst h
  rcases h' with h' | h' | ⟨th, h'⟩
  · exact h1 (Term.lit.inj h')
  · exact h2 (Term.lit.inj h')
  · cases h'

theorem PlainPolicy.safe_extract (hP : PlainPolicy P) {salt : Option Bytes} {a : Bytes} :
    P.Safe (hkdfExtract salt a) ↔ P.Safe (salt.getD .nil) ∧ P.Safe a :=
  hP.safe_fn rfl (by simp) (not_exposable (by simp))

/-- A secret expanded under a label of its own is as safe as the secret. -/
theorem PlainPolicy.safe_expand (hP : PlainPolicy P) {s : Bytes} (label : String)
    (h1 : label ≠ "novachannel group v1 path secret step")
    (h2 : label ≠ "novachannel group v1 epoch secret") :
    P.Safe (hkdfExpand32 s (.lit label)) ↔ P.Safe s := by
  refine (hP.safe_fn rfl (by simp) (not_exposable_lit h1 h2)).trans ?_
  rw [hP.safe_extract]
  exact ⟨fun h => h.1.2, fun h => ⟨⟨trivial, h⟩, trivial⟩⟩

theorem PlainPolicy.safe_applicationSecret (hP : PlainPolicy P) {s : Bytes} :
    P.Safe (deriveApplicationSecret s) ↔ P.Safe s := hP.safe_expand _ (by decide) (by decide)

/-- An envelope's key is as safe as the shared secret of its encapsulation: the recipient's key
or the randomness has to be safe. -/
theorem PlainPolicy.safe_sealKey (hP : PlainPolicy P) {a a' b r : Bytes}
    (h : P.Safe (deriveSealKey (dhShared a a') (.fn .kemShared b r))) : P.Safe b ∨ P.Safe r := by
  have h := (hP.safe_expand (s := frame [dhShared a a', .fn .kemShared b r])
    "novachannel group v1 seal key" (by decide) (by decide)).1 h
  have h := Policy.safe_list.1 h (.fn .kemShared b r) (by simp)
  rcases Policy.safe_kemShared.1 h with h | h | h
  · exact absurd (hP.exposed _ h) (not_exposable (by simp))
  · exact .inl h
  · exact .inr h

/-- The secret keys of a node are as safe as its path secret. -/
theorem PlainPolicy.safe_nodeKem (hP : PlainPolicy P) {s : Bytes} :
    P.Safe (deriveNodeKeypair s).kemSecret ↔ P.Safe s := by
  have h1 := hP.safe_fn (f := .slice 32 96) (a := .fn (.expand 96) (hkdfExtract none s)
    labelNodeKeygen) (b := .nil) rfl (by simp) (not_exposable (by simp))
  have h2 := hP.safe_fn (f := .expand 96) (a := hkdfExtract none s) (b := labelNodeKeygen) rfl
    (by simp) (not_exposable (by simp))
  refine h1.trans ?_
  rw [h2, hP.safe_extract]
  exact ⟨fun h => h.1.1.2, fun h => ⟨⟨⟨trivial, h⟩, trivial⟩, trivial⟩⟩

theorem PlainPolicy.safe_pathStep (hP : PlainPolicy P) {s : Bytes} :
    P.Safe (pathStep s) ↔ P.exposed (pathStep s) ∨ P.Safe s := by
  refine (Policy.safe_fn (by simp)).trans ?_
  rw [hP.safe_extract]
  exact ⟨fun h => (h.resolve_left (by simp [Fn.isPublic])).imp id fun h => h.1.2,
    fun h => .inr (h.imp id fun h => ⟨⟨trivial, h⟩, trivial⟩)⟩

theorem PlainPolicy.safe_nextEpochSecret (hP : PlainPolicy P) {s c t : Bytes} :
    P.Safe (nextEpochSecret s c t) ↔
      P.exposed (nextEpochSecret s c t) ∨ (P.Safe s ∧ P.Safe c) ∧ P.Safe t := by
  refine (Policy.safe_fn (by simp)).trans ?_
  rw [hP.safe_extract]
  have hlist : P.Safe (list [labelEpochSecret, t]) ↔ P.Safe t := by
    rw [Policy.safe_list]
    exact ⟨fun h => h t (by simp), fun h x hx => by
      rcases List.mem_cons.1 hx with rfl | hx
      · trivial
      · exact List.mem_singleton.1 hx ▸ h⟩
  exact ⟨fun h => (h.resolve_left (by simp [Fn.isPublic])).imp id fun h => ⟨h.1, hlist.1 h.2⟩,
    fun h => .inr (h.imp id fun h => ⟨h.1, hlist.2 h.2⟩)⟩

theorem PlainPolicy.safe_initialEpochSecret (hP : PlainPolicy P) {i g : Bytes} :
    P.Safe (initialEpochSecret i g) ↔ P.exposed (initialEpochSecret i g) ∨ P.Safe i ∧ P.Safe g := by
  refine (Policy.safe_fn (by simp)).trans ?_
  rw [hP.safe_extract]
  exact ⟨fun h => (h.resolve_left (by simp [Fn.isPublic])).imp id fun h => ⟨h.1.2.1, h.1.2.2.1⟩,
    fun h => .inr (h.imp id fun h => ⟨⟨trivial, h.1, h.2, trivial⟩, trivial⟩)⟩

/-- What a policy hands out is safe. -/
theorem PlainPolicy.safe_of_exposed (hP : PlainPolicy P) {t : Bytes} (h : P.exposed t) :
    P.Safe t := by
  obtain ⟨prk, info, rfl, -⟩ := hP.exposed t h
  exact (Policy.safe_fn (by simp)).2 (.inr (.inl h))

/-- Every chain key of an epoch is safe when the application secret is. -/
theorem safe_chainAt {s : Bytes} (h : P.Safe s) (leaf n : ℕ) : P.Safe (chainAt s leaf n) := by
  induction n with
  | zero =>
    exact Policy.safe_fn_of_safe (Policy.safe_fn_of_safe trivial h) ⟨trivial, trivial, trivial⟩
  | succ n ih =>
    rw [chainAt_succ]
    exact Policy.safe_fn_of_safe ih trivial

end Policies

/-! ### Broadcast messages -/

/-- A property of terms that everything public has. -/
structure OfPublic (Q : Bytes → Prop) : Prop where
  lit : ∀ s, Q (.lit s)
  num : ∀ n, Q (.num n)
  groupId : Q (.name .groupId)
  list : ∀ ts, (∀ t ∈ ts, Q t) → Q (list ts)
  fn : ∀ f a b, f.isPublic = true → Q (.fn f a b)
  hash : ∀ t, Q t → Q (sha256 t)

theorem PlainPolicy.ofPublic {P : Policy Name} (hP : PlainPolicy P) : OfPublic P.Safe where
  lit _ := trivial
  num _ := trivial
  groupId := hP.groupId
  list _ h := Policy.safe_list.2 h
  fn f _ _ hf := (Policy.safe_fn (by rintro rfl; cases hf)).2 (.inl hf)
  hash _ h := Policy.safe_fn_of_safe h trivial

/-- What the levels of a path update hold: the level's public key, and its secret sealed to nodes
below it, none of which is above the committer's leaf `c`. -/
theorem mem_commitPath {coins : ℕ → ℕ → SealCoins Bytes} {nodes : List (TreeNode Bytes)}
    {capacity prev c : ℕ} {path : List ℕ} (hp : IsPath prev path) {secret : Bytes}
    {pathNodes : List (UpdatePathNode Bytes)} {newKnown : List (ℕ × Bytes)} (hc : Below prev c)
    (h : commitPath coins nodes capacity prev secret path = .ok (pathNodes, newKnown)) :
    ∀ n ∈ pathNodes, ∃ i d, path[i]? = some d ∧
      n.publicKey = (deriveNodeKeypair (pathStep^[i] secret)).public ∧
      ∀ ct ∈ n.ciphertexts, ∃ t pk, Below d t ∧ ¬ Below t c ∧ nodePublicKey nodes t = some pk ∧
        sealToNode (coins d t) pk pathSecretAadContext (pathStep^[i] secret) = .ok ct := by
  induction hp generalizing secret pathNodes newKnown with
  | root =>
    intro n hn
    simp only [commitPath, Except.ok.injEq, Prod.mk.injEq] at h
    rw [← h.1] at hn
    cases hn
  | @step prev path hprev hp ih =>
    obtain ⟨s, targets, cts, pathNodes', newKnown', hs, ht, hcts, hrest, rfl, rfl⟩ :=
      commitPath_cons h
    obtain ⟨s', hs', hs0, hsp, -, -, hdisj⟩ := sibling_spec hprev
    obtain rfl : s' = s := Option.some.inj (hs'.symm.trans hs)
    intro n hn
    rcases List.mem_cons.1 hn with rfl | hn
    · refine ⟨0, (prev - 1) / 2, rfl, rfl, fun ct hct => ?_⟩
      obtain ⟨t, htm, pk, hpk, hseal⟩ := (sealTargets_eq_ok hcts).2 ct hct
      have hst : Below s' t := (mem_resolution ht htm).1
      have hb : Below ((prev - 1) / 2) s' := hsp ▸ below_parent hs0
      exact ⟨t, pk, hb.trans hst, fun htc => hdisj c hc (hst.trans htc), hpk, hseal⟩
    · obtain ⟨i, d, hi, hpk, hct⟩ := ih ((below_parent hprev).trans hc) hrest n hn
      exact ⟨i + 1, d, by simpa using hi, hpk, hct⟩

/-- The public key of a node of a spliced tree, and what its secret half is. -/
theorem World.Sym.target {w : World Bytes} (h : w.Sym) (hl : w.Linked) {p t : ℕ} {v : View Bytes}
    {e : Entry Bytes} {pre : List (TreeNode Bytes)} {pk : NodePublicKey Bytes}
    (hv : w.views[p]? = some v) (he : w.log[p]? = some e) (hc : Committed v e.coins e.commit pre)
    (hpk : nodePublicKey pre t = some pk) :
    (∃ owner k, pre[t]? = some (.leaf (package owner k).public) ∧ pk = packageKey k) ∨
    (pre[t]? = some (.parent pk) ∧ w.Rooted p v t pk) := by
  unfold nodePublicKey at hpk
  split at hpk
  · rename_i lp hlp
    obtain ⟨owner, k, rfl⟩ : ∃ owner k, lp = (package owner k).public := by
      rcases leaf_of_splice hc.spliced hlp with hlp | ⟨leaf, hop, -⟩
      · exact h.leaf hl hv hlp
      · exact ((h.entry p e he).2 leaf lp hop).1
    exact .inl ⟨owner, k, hlp, (Option.some.inj hpk).symm⟩
  · rename_i pk' hp
    obtain rfl := Option.some.inj hpk
    exact .inr ⟨hp, h.parent hl hv (parent_of_splice hc.spliced hp)⟩
  · cases hpk

section Public

variable {Q : Bytes → Prop} {w : World Bytes}

theorem OfPublic.publicKey (hQ : OfPublic Q) (a b : Bytes) :
    Q (NodePublicKey.write ⟨dhPublic a, kemPublic b⟩) :=
  hQ.list _ (by simpa using ⟨hQ.fn _ _ _ rfl, hQ.fn _ _ _ rfl⟩)

theorem OfPublic.package (hQ : OfPublic Q) (owner k : ℕ) : Q (package owner k).public.write :=
  hQ.list _ (by simpa using ⟨hQ.fn _ _ _ rfl, hQ.publicKey _ _, hQ.fn _ _ _ rfl⟩)

/-- An envelope is public up to its ciphertext. -/
theorem OfPublic.sealed (hQ : OfPublic Q) {coins : SealCoins Bytes} {a b aad m : Bytes}
    {s : SealedToNode Bytes} (h : sealToNode coins ⟨dhPublic a, kemPublic b⟩ aad m = .ok s)
    (hs : Q (.aead (deriveSealKey (dhShared coins.ephSecret a)
      (.fn .kemShared b coins.kemRandom)) zeroNonce aad m)) : Q s.write := by
  rw [sealToNode_term h]
  exact hQ.list _ (by simpa using ⟨hQ.fn _ _ _ rfl, hQ.fn _ _ _ rfl, hs⟩)

/-- **A commit is public up to its ciphertexts**, which are for nodes that are not above the
committer's leaf. -/
theorem OfPublic.commit_of_targets (hQ : OfPublic Q) (h : w.Sym) (hl : w.Linked) {p : ℕ} {v : View Bytes}
    {e : Entry Bytes} {pre : List (TreeNode Bytes)} (hv : w.views[p]? = some v)
    (he : w.log[p]? = some e) (hc : Committed v e.coins e.commit pre)
    (hct : ∀ (i d t : ℕ) (a b c : Bytes), (directPath v.capacity e.commit.senderLeaf)[i]? = some d →
      Below d t → ¬ Below t (v.node e.commit.senderLeaf) →
      nodePublicKey pre t = some ⟨dhPublic a, kemPublic b⟩ →
      Q (.aead (deriveSealKey (dhShared c a) (.fn .kemShared b (.name (.kemRandom p d t))))
        zeroNonce pathSecretAadContext (secretAt p i))) :
    Q e.commit.write := by
  obtain ⟨hcoins, hop⟩ := h.entry p e he
  have hpath : ∀ n ∈ e.commit.path, Q n.write := by
    intro n hn
    obtain ⟨i, d, hi, hpk, hcts⟩ := mem_commitPath (isPath_directPath _ _) (.refl _) hc.path n hn
    refine hQ.list _ (List.forall_mem_cons.2 ⟨?_, List.forall_mem_cons.2 ⟨hQ.num _,
      fun t ht => ?_⟩⟩)
    · rw [hpk]
      exact hQ.publicKey _ _
    · obtain ⟨ct, hct', rfl⟩ := List.mem_map.1 ht
      obtain ⟨t, pk, hb, hnot, htpk, hseal⟩ := hcts ct hct'
      obtain ⟨a, b, rfl⟩ : ∃ a b, pk = ⟨dhPublic a, kemPublic b⟩ := by
        rcases h.target hl hv he hc htpk with ⟨-, k, -, rfl⟩ | ⟨-, q, -, j, -, -, -, -, -, rfl, -⟩
        · exact ⟨_, _, rfl⟩
        · exact ⟨_, _, rfl⟩
      rw [hcoins] at hseal
      exact hQ.sealed hseal (hct i d t a b _ hi hb hnot htpk)
  have hopQ : Q e.commit.op.write := by
    cases ho : e.commit.op with
    | add leaf lp =>
      obtain ⟨⟨owner, k, rfl⟩, -⟩ := hop leaf lp ho
      exact hQ.list _ (by simpa using ⟨hQ.num _, hQ.num _, hQ.package owner k⟩)
    | remove leaf => exact hQ.list _ (by simpa using ⟨hQ.num _, hQ.num _⟩)
    | update => exact hQ.list _ (List.forall_mem_singleton.2 (hQ.num _))
  have hgid : Q e.commit.groupId := by
    rw [hc.groupId, h.groupId hl hv]
    exact hQ.groupId
  have hsig : Q e.commit.signature := by
    obtain ⟨lp, hlp, hver⟩ := hc.signed
    obtain ⟨owner, k, rfl⟩ := h.leaf hl hv hlp
    have hs : e.commit.signature = .fn .signature (.name (.identity owner)) e.commit.signedBytes :=
      of_decide_eq_true hver
    rw [hs]
    exact hQ.fn _ _ _ rfl
  refine hQ.list _ (List.forall_mem_cons.2 ⟨hQ.list _ ?_, List.forall_mem_singleton.2 hsig⟩)
  simp only [List.forall_mem_cons, List.forall_mem_map]
  exact ⟨hQ.lit _, hgid, hQ.num _, hQ.num _, hopQ, hQ.num _, hpath⟩

/-- **A commit is public up to its ciphertexts.** -/
theorem OfPublic.commit (hQ : OfPublic Q) (h : w.Sym) (hl : w.Linked) {p : ℕ} {v : View Bytes}
    {e : Entry Bytes} {pre : List (TreeNode Bytes)} (hv : w.views[p]? = some v)
    (he : w.log[p]? = some e) (hc : Committed v e.coins e.commit pre)
    (hct : ∀ (i d t : ℕ) (a b c : Bytes), (directPath v.capacity e.commit.senderLeaf)[i]? = some d →
      Below d t → nodePublicKey pre t = some ⟨dhPublic a, kemPublic b⟩ →
      Q (.aead (deriveSealKey (dhShared c a) (.fn .kemShared b (.name (.kemRandom p d t))))
        zeroNonce pathSecretAadContext (secretAt p i))) :
    Q e.commit.write :=
  hQ.commit_of_targets h hl hv he hc fun i d t a b c hi hb _ hpk => hct i d t a b c hi hb hpk

/-- The transcript hash is public when the commits are. -/
theorem OfPublic.transcriptHash (hQ : OfPublic Q) (h : w.Sym) (hl : w.Linked)
    (hcommit : ∀ e ∈ w.log, Q e.commit.signedBytes) {p : ℕ} {v : View Bytes}
    (hv : w.views[p]? = some v) : Q v.transcriptHash := by
  obtain ⟨v₀, hv₀, -, -, hth, -⟩ := h.genesis
  refine hl.induction (P := fun _ v => Q v.transcriptHash) (fun v hv => ?_)
    (fun p v e pre _ he _ _ _ _ _ ih => ?_) p v hv
  · rw [Option.some.inj (hv.symm.trans hv₀), hth]
    exact hQ.hash _ hQ.groupId
  · exact hQ.hash _ (hQ.list _ (by simpa using ⟨ih, hcommit e (List.mem_of_getElem? he)⟩))

/-- A slot of a view is public. -/
theorem OfPublic.node (hQ : OfPublic Q) (h : w.Sym) (hl : w.Linked) {p : ℕ} {v : View Bytes}
    (hv : w.views[p]? = some v) {n : TreeNode Bytes} (hn : n ∈ v.nodes) : Q n.write := by
  obtain ⟨i, hi⟩ := List.mem_iff_getElem?.1 hn
  cases n with
  | blank => exact hQ.list _ (List.forall_mem_singleton.2 (hQ.num _))
  | leaf lp =>
    obtain ⟨owner, k, rfl⟩ := h.leaf hl hv hi
    exact hQ.list _ (by simpa using ⟨hQ.num _, hQ.package owner k⟩)
  | parent pk =>
    obtain ⟨q, -, j, -, -, -, -, -, rfl, -⟩ := h.parent hl hv hi
    exact hQ.list _ (by simpa using ⟨hQ.num _, hQ.publicKey _ _⟩)

/-- **A welcome is public up to its ciphertext**, and what it carries is public up to the epoch
secret. -/
theorem OfPublic.welcome (hQ : OfPublic Q) (h : w.Sym) (hl : w.Linked)
    (hcommit : ∀ e ∈ w.log, Q e.commit.signedBytes) {p : ℕ} {e : Entry Bytes}
    {wel : Welcome Bytes} (he : w.log[p]? = some e) (hwel : e.welcome = some wel)
    (hct : ∀ (v : View Bytes) (target owner k : ℕ) (a m : Bytes), w.views[p]? = some v →
      e.commit.op = .add target (Group.package owner k).public → (Q v.epochSecret → Q m) →
      Q (.aead (deriveSealKey (dhShared (.name (.welcomeDh p)) a)
        (.fn .kemShared (.name (.leafKem k)) (.name (.welcomeKem p)))) zeroNonce welcomeAadContext
        m)) : Q wel.write := by
  obtain ⟨v, pre, hv, -, -, -, hw⟩ := hl.entry p e he
  obtain ⟨pkg, target, hw, -⟩ := hw wel hwel
  obtain ⟨⟨owner, k, rfl⟩, -⟩ := (h.entry p e he).2 target pkg hw.op
  obtain ⟨signer, lp, -, -, hseal⟩ := hw.sealedBy
  rw [(h.entry p e he).1] at hseal
  refine hQ.sealed hseal (hct v target owner k _ _ hv hw.op fun hes => ?_)
  have hgid : Q v.groupId := by
    rw [h.groupId hl hv]
    exact hQ.groupId
  refine hQ.list _ (List.forall_mem_cons.2 ⟨hQ.list _ ?_,
    List.forall_mem_singleton.2 (hQ.fn _ _ _ rfl)⟩)
  simp only [List.forall_mem_cons, List.forall_mem_map]
  exact ⟨hgid, hQ.num _, hQ.num _, hes, hQ.transcriptHash h hl hcommit hv, hQ.num _,
    fun n hn => hQ.node h hl hv hn⟩

/-- **A member's state is public** up to its secrets. -/
theorem OfPublic.stores (hQ : OfPublic Q) (h : w.Sym) (hl : w.Linked)
    (hcommit : ∀ e ∈ w.log, Q e.commit.signedBytes) {id : ℕ} {m : Member Bytes}
    (hok : w.MemberOk id m) (hm : w.MemberSym m) (hes : Q m.group.epochSecret)
    (happ : Q m.group.applicationSecret)
    (hkeys : ∀ keys, m.group.myLeafKeys = some keys → Q keys.1 ∧ Q keys.2)
    (hknown : ∀ n s, m.group.knownSecrets n = some s → Q s)
    (hchain : ∀ leaf n, Q (chainAt m.group.applicationSecret leaf n)) :
    ∀ t, Stores m.group t → Q t := by
  intro t ht
  cases ht with
  | groupId =>
    rw [show m.group.groupId = m.group.view.groupId from rfl, h.groupId hl hok.view]
    exact hQ.groupId
  | capacity => exact hQ.num _
  | node hn => exact hQ.node h hl hok.view hn
  | epoch => exact hQ.num _
  | epochSecret => exact hes
  | applicationSecret => exact happ
  | transcriptHash => exact hQ.transcriptHash h hl hcommit hok.view
  | myLeaf => exact hQ.num _
  | dhSecret hk => exact (hkeys _ hk).1
  | kemSecret hk => exact (hkeys _ hk).2
  | knownSecret hn => exact hknown _ _ hn
  | sendSeq => exact hQ.num _
  | sendChain =>
    rw [hm.chained.send]
    exact hchain _ _
  | recvChain hr =>
    rw [hm.chained.recv _ _ _ hr]
    exact hchain _ _

end Public

/-! ### Safe messages -/

section Safe

variable {P : Policy Name} {w : World Bytes}

/-- **A commit gives nothing secret away** when none of its envelopes does. -/
theorem safe_commit (hP : PlainPolicy P) (h : w.Sym) (hl : w.Linked) {p : ℕ} {v : View Bytes}
    {e : Entry Bytes} {pre : List (TreeNode Bytes)} (hv : w.views[p]? = some v)
    (he : w.log[p]? = some e) (hc : Committed v e.coins e.commit pre)
    (hct : ∀ (i d t : ℕ) (a b : Bytes), (directPath v.capacity e.commit.senderLeaf)[i]? = some d →
      Below d t → nodePublicKey pre t = some ⟨dhPublic a, kemPublic b⟩ →
      P.Safe b ∨ P.Safe (.name (.kemRandom p d t)) → P.Safe (secretAt p i)) :
    P.Safe e.commit.write :=
  hP.ofPublic.commit h hl hv he hc fun i d t a b _ hi hb hpk hkey =>
    hct i d t a b hi hb hpk (hP.safe_sealKey hkey)

theorem safe_signedBytes (hcommit : ∀ t ∈ w.commits, P.Safe t) :
    ∀ e ∈ w.log, P.Safe e.commit.signedBytes := fun e he => (hcommit _ ⟨e, he, rfl⟩).1

/-- **A welcome gives nothing secret away** when the new member's key and the randomness are
secret, or the epoch secret it carries is not. -/
theorem safe_welcome (hP : PlainPolicy P) (h : w.Sym) (hl : w.Linked)
    (hcommit : ∀ t ∈ w.commits, P.Safe t) {p : ℕ} {e : Entry Bytes} {wel : Welcome Bytes}
    (he : w.log[p]? = some e) (hwel : e.welcome = some wel)
    (hsafe : ∀ v target owner k, w.views[p]? = some v →
      e.commit.op = .add target (package owner k).public →
      ¬ P.secret (.leafKem k) ∨ ¬ P.secret (.welcomeKem p) → P.Safe v.epochSecret) :
    P.Safe wel.write :=
  hP.ofPublic.welcome h hl (safe_signedBytes hcommit) he hwel
    fun v target owner k _ _ hv hop hm hkey =>
      hm (hsafe v target owner k hv hop (hP.safe_sealKey hkey))

/-- **A member's state gives nothing secret away** when its leaf keys, its path secrets and its
epoch secret are not secret. -/
theorem safe_stores (hP : PlainPolicy P) (h : w.Sym) (hl : w.Linked)
    (hcommit : ∀ t ∈ w.commits, P.Safe t) {id : ℕ} {m : Member Bytes} (hok : w.MemberOk id m)
    (hm : w.MemberSym m) (hes : P.Safe m.group.epochSecret)
    (hkeys : ∀ keys, m.group.myLeafKeys = some keys → P.Safe keys.1 ∧ P.Safe keys.2)
    (hknown : ∀ n s, m.group.knownSecrets n = some s → P.Safe s) :
    ∀ t, Stores m.group t → P.Safe t := by
  have happ : P.Safe m.group.applicationSecret := by
    rw [hok.app]
    exact hP.safe_applicationSecret.2 hes
  exact hP.ofPublic.stores h hl (safe_signedBytes hcommit) hok hm hes happ hkeys hknown
    (safe_chainAt happ)

end Safe

end Group

end NovaChannel
