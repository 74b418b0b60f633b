import NovaChannel.Group.Broadcast

/-!
# The past

What a member's state and the messages broadcast say about earlier epochs, in every symbolic run.

* `pastPolicy` : the policy under which every epoch secret before a given epoch is unsafe;
* `forwardSecret_iff` : **a member's state hides the application secrets of earlier epochs exactly
  when no earlier welcome was sealed to its leaf key**;
* `joiner_learns_iff` : **a new member learns the epoch before it was added, and nothing older**.
-/

namespace NovaChannel

namespace Group

open Crypto Term

section Past

variable {w : World Bytes}

/-- Hidden: what the first epoch secret was drawn from, every KEM key but that of the key package
`k`, and the randomness of every welcome before the epoch `first`.  Handed out: the epoch secrets
from `first` on. -/
def World.pastPolicy (w : World Bytes) (first k : ℕ) : Policy Name where
  secret
    | .init => True
    | .leafKem k' => k' ≠ k
    | .welcomeKem q => q < first
    | _ => False
  exposed t := ∃ (j : ℕ) (v : View Bytes), first ≤ j ∧ w.views[j]? = some v ∧ t = v.epochSecret

theorem plain_pastPolicy (h : w.Sym) (hl : w.Linked) (first k : ℕ) :
    PlainPolicy (w.pastPolicy first k) := by
  refine ⟨?_, fun hs => hs⟩
  rintro _ ⟨j, v, -, hv, rfl⟩
  exact exposable_epochSecret h hl hv

/-- **No epoch secret before `first` is safe.** -/
theorem not_safe_epochSecret (h : w.Sym) (hl : w.Linked) {first k p : ℕ} {v : View Bytes}
    (hp : p < first) (hv : w.views[p]? = some v) :
    ¬ (w.pastPolicy first k).Safe v.epochSecret := by
  have hP := plain_pastPolicy h hl first k
  have hexp : ∀ {p : ℕ} {v : View Bytes}, p < first → w.views[p]? = some v →
      ¬ (w.pastPolicy first k).exposed v.epochSecret := by
    rintro p v hp hv ⟨j, u, hj, hu, he⟩
    have := epochSecret_inj h hl hv hu he
    omega
  induction p generalizing v with
  | zero =>
    have hnot := hexp hp hv
    obtain ⟨v₀, hv₀, -, hes, -⟩ := h.genesis
    rw [Option.some.inj (hv.symm.trans hv₀), hes] at hnot ⊢
    rw [hP.safe_initialEpochSecret]
    rintro (hx | ⟨hx, -⟩)
    · exact hnot hx
    · exact hx trivial
  | succ p ih =>
    have hnot := hexp hp hv
    have hlt := (List.getElem?_eq_some_iff.1 hv).1
    have hlen := hl.length
    obtain ⟨u, hu⟩ := hl.getElem?_views (p := p) (by omega)
    obtain ⟨e, -, hes⟩ := hl.epochSecret_succ hu hv
    rw [hes] at hnot ⊢
    rw [hP.safe_nextEpochSecret]
    rintro (hx | ⟨⟨hx, -⟩, -⟩)
    · exact hnot hx
    · exact ih (by omega) hu hx

/-- The path secrets are not hidden. -/
theorem safe_secretAt (first k q i : ℕ) : (w.pastPolicy first k).Safe (secretAt q i) := by
  unfold secretAt
  induction i with
  | zero => exact fun hs => hs
  | succ i ih =>
    rw [Function.iterate_succ_apply']
    exact Policy.safe_fn_of_safe (Policy.safe_fn_of_safe trivial ih) trivial

theorem safe_commits (h : w.Sym) (hl : w.Linked) (first k : ℕ) :
    ∀ t ∈ w.commits, (w.pastPolicy first k).Safe t := by
  rintro _ ⟨e, he, rfl⟩
  obtain ⟨p, he⟩ := List.mem_iff_getElem?.1 he
  obtain ⟨v, pre, hv, hc, -⟩ := hl.entry p e he
  exact safe_commit (plain_pastPolicy h hl first k) h hl hv he hc
    fun i d t a b _ _ _ _ => safe_secretAt first k p i

/-- **The holder of an added key package finds the epoch secret in its welcome.** -/
theorem World.Linked.derives_of_welcome (hl : w.Linked) {K : Set Bytes} {q leaf : ℕ}
    {e : Entry Bytes} {wel : Welcome Bytes} {lp : LeafKeyPackage Bytes} {a b : Bytes}
    {v : View Bytes} (he : w.log[q]? = some e) (hwel : e.welcome = some wel)
    (hop : e.commit.op = .add leaf lp) (hlp : lp.publicKey = ⟨dhPublic a, kemPublic b⟩)
    (hv : w.views[q]? = some v) (ha : Derives K a) (hb : Derives K b)
    (hK : Derives K wel.write) : Derives K v.epochSecret := by
  obtain ⟨u, pre, hu, -, -, -, hw⟩ := hl.entry q e he
  obtain rfl := Option.some.inj (hu.symm.trans hv)
  obtain ⟨pkg, target, hw, -⟩ := hw wel hwel
  obtain ⟨rfl, rfl⟩ := GroupOp.add.inj (hop.symm.trans hw.op)
  obtain ⟨signer, -, -, -, hseal⟩ := hw.sealedBy
  rw [hlp] at hseal
  exact derives_epochSecret (derives_of_sealed hseal ha hb hK)

end Past

/-! ### A run with two adds -/

/-- The founder adds a member, which joins, and then another one. -/
def joinRun : List SymAction := [.commit 0 (.add 1 1), .join 0 1 1, .commit 0 (.add 2 2)]

/-- What the world after that run holds: the retained states and the two adds. -/
def afterAdds (w : World Bytes) : Bool :=
  match w.past, w.log with
  | [(i₀, g₀), (i₁, g₁), _, _], [e₀, e₁] =>
    decide (i₀ = 0 ∧ i₁ = 1 ∧ e₀.welcome.isSome = true ∧ e₁.welcome.isSome = true ∧
      e₀.commit.op = .add 1 (package 1 1).public ∧
      e₁.commit.op = .add 2 (package 2 2).public ∧
      e₁.commit.fromEpoch = 1 ∧ g₀.epoch = 2 ∧ g₁.epoch = 1 ∧
      g₀.myLeafKeys = some (.name (.leafDh 0), .name (.leafKem 0)) ∧
      g₁.myLeafKeys = some (.name (.leafDh 1), .name (.leafKem 1)))
  | _, _ => false

/-- The world after that run: the founder's state `g₀`, the first member's state `g₁`, and the two
commits. -/
theorem joinRun_spec : ∃ w g₀ g₁ e₀ e₁ wel₀ wel₁, runFrom 4 joinRun = some w ∧
    symbolicMachine.Reachable Anything w ∧ (0, g₀) ∈ w.past ∧ (1, g₁) ∈ w.past ∧
    w.log = [e₀, e₁] ∧ e₀.welcome = some wel₀ ∧ e₁.welcome = some wel₁ ∧
    e₀.commit.op = .add 1 (package 1 1).public ∧ e₁.commit.op = .add 2 (package 2 2).public ∧
    e₁.commit.fromEpoch = 1 ∧ g₀.epoch = 2 ∧ g₁.epoch = 1 ∧
    g₀.myLeafKeys = some (.name (.leafDh 0), .name (.leafKem 0)) ∧
    g₁.myLeafKeys = some (.name (.leafDh 1), .name (.leafKem 1)) := by
  have hrun : (runFrom 4 joinRun).map afterAdds = some true := by decide +kernel
  obtain ⟨w, hw, hp⟩ := Option.map_eq_some_iff.1 hrun
  unfold afterAdds at hp
  split at hp
  · rename_i i₀ g₀ i₁ g₁ p₂ p₃ e₀ e₁ hpast hlog
    obtain ⟨rfl, rfl, h₀, h₁, hrest⟩ := of_decide_eq_true hp
    obtain ⟨wel₀, h₀⟩ := Option.isSome_iff_exists.1 h₀
    obtain ⟨wel₁, h₁⟩ := Option.isSome_iff_exists.1 h₁
    exact ⟨w, g₀, g₁, e₀, e₁, wel₀, wel₁, hw, reachable_of_runFrom (fun _ _ _ => trivial) hw,
      by simp [hpast], by simp [hpast], hlog, h₀, h₁, hrest⟩
  · cases hp

section Past

variable {w : World Bytes}

/-! ### A member's past -/

/-- No application secret of an earlier epoch is derivable from the state and everything
broadcast. -/
def World.ForwardSecret (w : World Bytes) (g : Group Bytes) : Prop :=
  ∀ (e : ℕ) v, e < g.epoch → w.views[e]? = some v →
    ¬ Derives (w.holderKnows g) (deriveApplicationSecret v.epochSecret)

/-- A commit before the state's epoch adds a key package with the state's own leaf key. -/
def World.WelcomedBefore (w : World Bytes) (g : Group Bytes) : Prop :=
  ∃ q e leaf lp keys, w.log[q]? = some e ∧ q < g.epoch ∧ e.commit.op = .add leaf lp ∧
    g.myLeafKeys = some keys ∧ lp.publicKey = ⟨dhPublic keys.1, kemPublic keys.2⟩

/-- The leaf keys open the welcome, whatever happened since. -/
theorem not_forwardSecret_of_welcomedBefore (h : w.Sym) (hl : w.Linked) {g : Group Bytes}
    (hw : w.WelcomedBefore g) : ¬ w.ForwardSecret g := by
  obtain ⟨q, e, leaf, lp, keys, he, hq, hop, hkeys, hlp⟩ := hw
  obtain ⟨-, wel, hwel⟩ := (h.entry q e he).2 leaf lp hop
  obtain ⟨v, -, hv, -⟩ := hl.entry q e he
  intro hfs
  refine hfs q v hq hv (derives_applicationSecret ?_)
  exact hl.derives_of_welcome he hwel hop hlp hv (.known (.inl (.inl (.dhSecret hkeys))))
    (.known (.inl (.inl (.kemSecret hkeys))))
    (.known (.inr ⟨e, List.mem_of_getElem? he, wel, hwel, rfl⟩))

/-- A state whose leaf key was never sent a welcome hides its past. -/
theorem forwardSecret_of_not_welcomedBefore (h : w.Sym) (hl : w.Linked) {id : ℕ}
    {m : Member Bytes} (hok : w.MemberOk id m) (hm : w.MemberSym m)
    (hnot : ¬ w.WelcomedBefore m.group) : w.ForwardSecret m.group := by
  obtain ⟨owner, k, -, hkeys⟩ := hm.names
  have hP := plain_pastPolicy h hl m.group.epoch k
  have hcommits := safe_commits h hl m.group.epoch k
  have hexp : ∀ (j : ℕ) v, m.group.epoch ≤ j → w.views[j]? = some v →
      (w.pastPolicy m.group.epoch k).Safe v.epochSecret := fun j v hj hv =>
    hP.safe_of_exposed ⟨j, v, hj, hv, rfl⟩
  have hstores := safe_stores hP h hl hcommits hok hm (hexp _ _ (Nat.le_refl _) hok.view)
    (fun keys hk => by
      obtain rfl := Option.some.inj (hkeys.symm.trans hk)
      exact ⟨fun hs => hs, fun hs => hs rfl⟩)
    (fun n s hs => by
      obtain ⟨q, -, i, -, -, -, -, -, rfl, -⟩ := hm.known n s hs
      exact safe_secretAt _ k q i)
  intro j v hj hv
  refine Policy.not_derives (P := w.pastPolicy m.group.epoch k) ?_ fun hs =>
    not_safe_epochSecret h hl hj hv (hP.safe_applicationSecret.1 hs)
  rintro t ((ht | ht) | ⟨e, he, wel, hwel, rfl⟩)
  · exact hstores t ht
  · exact hcommits t ht
  · obtain ⟨q, he⟩ := List.mem_iff_getElem?.1 he
    refine safe_welcome hP h hl hcommits he hwel fun u target owner' k' hu hop hor => ?_
    by_cases hq : q < m.group.epoch
    · -- sealed to another key, with randomness of its own
      rcases hor with hk' | hr
      · have hkk : k' = k := not_not.1 hk'
        exact absurd ⟨q, e, target, _, _, he, hq, hop, hkeys, hkk ▸ rfl⟩ hnot
      · exact absurd hq hr
    · exact hexp q u (by omega) hu

/-- **A member's state hides the application secrets of every earlier epoch exactly when no
welcome before its epoch was sealed to its leaf key**, in every run and for every state a member
was ever in. -/
theorem forwardSecret_iff {ok : World Bytes → SymAction → Prop}
    (h : symbolicMachine.Reachable ok w) {id : ℕ} {g : Group Bytes} (hg : (id, g) ∈ w.past) :
    w.ForwardSecret g ↔ ¬ w.WelcomedBefore g := by
  have hsym := sym_of_reachable h
  have hl := (inv_of_symbolic h).linked
  obtain ⟨m, rfl, hok, hm⟩ := ok_of_past h hg
  exact ⟨fun hfs hw => not_forwardSecret_of_welcomedBefore hsym hl hw hfs,
    forwardSecret_of_not_welcomedBefore hsym hl hok hm⟩

/-- In the sample run the founder's past is hidden and the member's is not. -/
theorem forwardSecret_iff_joinRun : ∃ w g₀ g₁, runFrom 4 joinRun = some w ∧ (0, g₀) ∈ w.past ∧
    (1, g₁) ∈ w.past ∧ g₀.epoch = 2 ∧ w.ForwardSecret g₀ ∧ g₁.epoch = 1 ∧
    ¬ w.ForwardSecret g₁ := by
  obtain ⟨w, g₀, g₁, e₀, e₁, -, -, hw, hr, h₀, h₁, hlog, -, -, hop₀, hop₁, -, hep₀, hep₁, hk₀,
    hk₁⟩ := joinRun_spec
  refine ⟨w, g₀, g₁, hw, h₀, h₁, hep₀, (forwardSecret_iff hr h₀).2 ?_, hep₁, fun hfs =>
    (forwardSecret_iff hr h₁).1 hfs ⟨0, e₀, 1, _, _, by simp [hlog], by omega, hop₀, hk₁, rfl⟩⟩
  rintro ⟨q, e, leaf, lp, keys, he, hq, hop, hkeys, hlp⟩
  obtain rfl := Option.some.inj (hk₀.symm.trans hkeys)
  rw [hlog] at he
  -- neither add is of the founder's own package
  obtain rfl | rfl : q = 0 ∨ q = 1 := by omega
  · obtain rfl := Option.some.inj he
    obtain ⟨-, rfl⟩ := GroupOp.add.inj (hop₀.symm.trans hop)
    exact absurd hlp (by decide)
  · obtain rfl := Option.some.inj he
    obtain ⟨-, rfl⟩ := GroupOp.add.inj (hop₁.symm.trans hop)
    exact absurd hlp (by decide)

/-- **A state that gives its past away**: the member that has just joined derives the application
secret of the epoch before. -/
theorem not_forwardSecret_joinRun : ∃ w id g, symbolicMachine.Reachable Anything w ∧
    (id, g) ∈ w.past ∧ ¬ w.ForwardSecret g := by
  obtain ⟨w, g₀, g₁, e₀, e₁, -, -, -, hr, -, h₁, hlog, -, -, hop₀, -, -, -, hep₁, -, hk₁⟩ :=
    joinRun_spec
  have hl := (inv_of_symbolic hr).linked
  exact ⟨w, 1, g₁, hr, h₁, not_forwardSecret_of_welcomedBefore (sym_of_reachable hr) hl
    ⟨0, e₀, 1, _, _, by simp [hlog], by omega, hop₀, hk₁, rfl⟩⟩

/-! ### A new member's past -/

/-- The fields of a private key package, a welcome, and every commit of the run. -/
def World.joinerKnows (w : World Bytes) (kp : MyLeafKeyPackage Bytes) (wel : Welcome Bytes) :
    Set Bytes :=
  {kp.identity, kp.dhSecret, kp.dhPublic, kp.kemSecret, kp.kemPublic, kp.pop, wel.write} ∪ w.commits

/-- The welcome hands the epoch before the add to the new member. -/
theorem World.Linked.joiner_derives (hl : w.Linked) {e : Entry Bytes} {wel : Welcome Bytes}
    {leaf owner k q : ℕ} {v : View Bytes} (he : w.log[q]? = some e) (hwel : e.welcome = some wel)
    (hop : e.commit.op = .add leaf (package owner k).public) (hv : w.views[q]? = some v) :
    Derives (w.joinerKnows (package owner k) wel) v.epochSecret :=
  hl.derives_of_welcome (a := .name (.leafDh k)) (b := .name (.leafKem k)) he hwel hop rfl hv
    (.known (.inl (by simp [package, MyLeafKeyPackage.generate])))
    (.known (.inl (by simp [package, MyLeafKeyPackage.generate]))) (.known (.inl (by simp)))

/-- Older epochs stay hidden from the new member. -/
theorem joiner_not_derives (h : w.Sym) (hl : w.Linked) {e : Entry Bytes} {wel : Welcome Bytes}
    {owner k q j : ℕ} {v : View Bytes} (he : w.log[q]? = some e) (hwel : e.welcome = some wel)
    (hj : j < q) (hv : w.views[j]? = some v) {t : Bytes}
    (ht : (w.pastPolicy q k).Safe t → (w.pastPolicy q k).Safe v.epochSecret) :
    ¬ Derives (w.joinerKnows (package owner k) wel) t := by
  have hP := plain_pastPolicy h hl q k
  have hcommits := safe_commits h hl q k
  refine Policy.not_derives (P := w.pastPolicy q k) ?_ fun hs =>
    not_safe_epochSecret h hl hj hv (ht hs)
  rintro t (ht | ht)
  · rcases ht with rfl | rfl | rfl | rfl | rfl | rfl | rfl
    · exact .inl rfl
    · exact fun hs => hs
    · exact .inl rfl
    · exact fun hs => hs rfl
    · exact .inl rfl
    · exact .inl rfl
    · exact safe_welcome hP h hl hcommits he hwel fun u _ _ _ hu _ _ =>
        hP.safe_of_exposed ⟨q, u, Nat.le_refl _, hu, rfl⟩
  · exact hcommits t ht

/-- **A new member learns nothing of the epochs before the one it was added in, and all of that
one**: of the epochs up to the commit's own, exactly the older ones keep their epoch secret and
their application secret from the key package, the welcome and all commits. -/
theorem joiner_learns_iff {ok : World Bytes → SymAction → Prop}
    (h : symbolicMachine.Reachable ok w) {e : Entry Bytes} {wel : Welcome Bytes}
    {leaf owner k j : ℕ} {v : View Bytes} (he : e ∈ w.log) (hwel : e.welcome = some wel)
    (hop : e.commit.op = .add leaf (package owner k).public) (hj : j ≤ e.commit.fromEpoch)
    (hv : w.views[j]? = some v) :
    (¬ Derives (w.joinerKnows (package owner k) wel) v.epochSecret ↔ j < e.commit.fromEpoch) ∧
    (¬ Derives (w.joinerKnows (package owner k) wel) (deriveApplicationSecret v.epochSecret) ↔
      j < e.commit.fromEpoch) := by
  have hsym := sym_of_reachable h
  have hl := (inv_of_symbolic h).linked
  obtain ⟨q, he⟩ := List.mem_iff_getElem?.1 he
  obtain ⟨u, pre, hu, hc, -⟩ := hl.entry q e he
  have hfrom : e.commit.fromEpoch = q := hc.fromEpoch.trans (hl.wf q u hu).2
  rw [hfrom] at hj ⊢
  have hP := plain_pastPolicy hsym hl q k
  have hown : ¬ j < q → Derives (w.joinerKnows (package owner k) wel) v.epochSecret := by
    intro hlt
    obtain rfl : j = q := by omega
    exact hl.joiner_derives he hwel hop hv
  refine ⟨⟨fun hd => ?_, fun hlt => ?_⟩, ⟨fun hd => ?_, fun hlt => ?_⟩⟩
  · by_contra hlt
    exact hd (hown hlt)
  · exact joiner_not_derives hsym hl he hwel hlt hv id
  · by_contra hlt
    exact hd (derives_applicationSecret (hown hlt))
  · exact joiner_not_derives hsym hl he hwel hlt hv hP.safe_applicationSecret.1

/-- In the sample run the second new member learns nothing of epoch `0`, and the secrets of
epoch `1`. -/
theorem joiner_learns_iff_joinRun : ∃ w wel v₀ v₁, runFrom 4 joinRun = some w ∧
    w.views[0]? = some v₀ ∧ w.views[1]? = some v₁ ∧
    ¬ Derives (w.joinerKnows (package 2 2) wel) v₀.epochSecret ∧
    ¬ Derives (w.joinerKnows (package 2 2) wel) (deriveApplicationSecret v₀.epochSecret) ∧
    ¬ ¬ Derives (w.joinerKnows (package 2 2) wel) v₁.epochSecret := by
  obtain ⟨w, -, -, e₀, e₁, wel₀, wel₁, hw, hr, -, -, hlog, -, hwel, -, hop, hfrom, -⟩ :=
    joinRun_spec
  have hl := (inv_of_symbolic hr).linked
  obtain ⟨v₀, hv₀⟩ := hl.getElem?_views (p := 0) (by simp)
  obtain ⟨v₁, hv₁⟩ := hl.getElem?_views (p := 1) (by simp [hlog])
  have hmem : e₁ ∈ w.log := by simp [hlog]
  obtain ⟨h1, h2⟩ := joiner_learns_iff hr hmem hwel hop (by omega) hv₀
  obtain ⟨h3, -⟩ := joiner_learns_iff hr hmem hwel hop (by omega) hv₁
  refine ⟨w, wel₁, v₀, v₁, hw, hv₀, hv₁, h1.2 (by omega), h2.2 (by omega), fun hn => ?_⟩
  have := h3.1 hn
  omega

/-- **A new member that learns the past**: it derives the epoch secret and the
application secret of the epoch its commit was made in. -/
theorem joiner_derives_joinRun : ∃ w e wel v, symbolicMachine.Reachable Anything w ∧ e ∈ w.log ∧
    e.welcome = some wel ∧ e.commit.op = .add 2 (package 2 2).public ∧
    w.views[e.commit.fromEpoch]? = some v ∧
    Derives (w.joinerKnows (package 2 2) wel) v.epochSecret ∧
    Derives (w.joinerKnows (package 2 2) wel) (deriveApplicationSecret v.epochSecret) := by
  obtain ⟨w, -, -, e₀, e₁, wel₀, wel₁, -, hr, -, -, hlog, -, hwel, -, hop, hfrom, -⟩ :=
    joinRun_spec
  have hl := (inv_of_symbolic hr).linked
  obtain ⟨v, hv⟩ := hl.getElem?_views (p := 1) (by simp [hlog])
  have hd := hl.joiner_derives (q := 1) (by simp [hlog]) hwel hop hv
  exact ⟨w, e₁, wel₁, v, hr, by simp [hlog], hwel, hop, hfrom ▸ hv, hd,
    derives_applicationSecret hd⟩

end Past

end Group

end NovaChannel
