import NovaChannel.Group.Healing

/-!
# Healing where no key package is used twice

A member heals by refreshing its path when no other leaf has its key.  That is so in every run whose
adds bring key packages that are not in the tree.

* `AddsUnused` : the steps that add no key package whose key some leaf carries;
* `unshared_of_reachable` : over such runs no two leaves of a tree share a key;
* `healed_of_addsUnused` : **every refresh heals there**.
-/

namespace NovaChannel

namespace Group

open Crypto Term

/-- An add brings a key package whose key no leaf of the newest tree carries. -/
def AddsUnused (w : World Bytes) : SymAction → Prop
  | .commit _ (.add _ k) =>
    ∀ v, w.views[w.log.length]? = some v → ∀ leaf, ¬ v.HasKey leaf (packageSecrets k)
  | _ => True

/-- No two leaves carry one key. -/
def View.Unshared (v : View Bytes) : Prop :=
  ∀ leaf leaf' keys, v.HasKey leaf keys → v.HasKey leaf' keys → leaf = leaf'

theorem leafToNode_injective {capacity leaf leaf' : ℕ}
    (h : leafToNode capacity leaf = leafToNode capacity leaf') : leaf = leaf' :=
  Nat.add_left_cancel h

/-- A commit that adds no key of the tree leaves the leaves' keys apart. -/
theorem View.Unshared.next {v : View Bytes} {coins : CommitCoins Bytes} {c : Commit Bytes}
    {pre : List (TreeNode Bytes)} (h : v.Unshared) (hc : Committed v coins c pre)
    (hpre : Shape v.capacity pre)
    (hadd : ∀ leaf lp, c.op = .add leaf lp → ∀ other lp',
      v.nodes[v.node other]? = some (.leaf lp') → lp'.publicKey ≠ lp.publicKey) :
    (v.next coins c pre).Unshared := by
  rintro leaf leaf' keys ⟨lp, hlp, hkey⟩ ⟨lp', hlp', hkey'⟩
  have hsame : lp.publicKey = lp'.publicKey := hkey.trans hkey'.symm
  rcases leaf_of_splice hc.spliced (leaf_of_next hc hpre hlp) with hold | ⟨l, hop, hl⟩
  · rcases leaf_of_splice hc.spliced (leaf_of_next hc hpre hlp') with hold' | ⟨l', hop', hl'⟩
    · exact h leaf leaf' keys ⟨lp, hold, hkey⟩ ⟨lp', hold', hkey'⟩
    · exact absurd hsame (hadd l' lp' hop' leaf lp hold)
  · rcases leaf_of_splice hc.spliced (leaf_of_next hc hpre hlp') with hold' | ⟨l', hop', hl'⟩
    · exact absurd hsame.symm (hadd l lp hop leaf' lp' hold')
    · obtain ⟨rfl, -⟩ := GroupOp.add.inj (hop.symm.trans hop')
      exact leafToNode_injective (hl.trans hl'.symm)

/-- The founder's tree has one leaf. -/
theorem hasKey_start {owner k capacity : ℕ} {g : Group Bytes}
    (hg : symCreate owner k capacity = .ok g) {leaf : ℕ} {keys : Bytes × Bytes}
    (h : g.view.HasKey leaf keys) :
    leaf = 0 ∧ (⟨dhPublic keys.1, kemPublic keys.2⟩ : NodePublicKey Bytes) = packageKey k := by
  obtain ⟨-, -, -, hcap, -, -, -, hnodes, -⟩ := create_spec hg
  obtain ⟨lp, hlp, hkey⟩ := h
  have hlp' := (hnodes _).symm.trans hlp
  split_ifs at hlp' with hlt hn
  · obtain rfl := TreeNode.leaf.inj (Option.some.inj hlp')
    have hn' : leafToNode g.capacity leaf = leafToNode g.capacity 0 := by rw [hcap]; exact hcap ▸ hn
    exact ⟨leafToNode_injective hn', hkey.symm⟩
  · cases hlp'

/-- **No two leaves share a key**, in any epoch of a run that adds no key package twice. -/
theorem unshared_of_reachable {w : World Bytes} (h : symbolicMachine.Reachable AddsUnused w) :
    ∀ (q : ℕ) v, w.views[q]? = some v → v.Unshared := by
  refine h.invariant (I := fun w => ∀ (q : ℕ) v, w.views[q]? = some v → v.Unshared) ?_ ?_
  · rintro w ⟨owner, k, capacity, g, hg, rfl⟩ q v hv
    obtain rfl := List.mem_singleton.1 (List.mem_of_getElem? hv)
    intro leaf leaf' keys hkey hkey'
    rw [(hasKey_start hg hkey).1, (hasKey_start hg hkey').1]
  · intro w w' a hr ih hok hs
    change w.step (a.toAction w) = some w' at hs
    have handed : ∀ {id : ℕ} {m : Member Bytes} {record : Bytes} {result : Result (ℕ × Bytes)},
        (w.handed id m record result).views = w.views := by
      intro id m record result
      obtain ⟨opened, he⟩ := w.handed_eq id m record result
      rw [he]
      rfl
    cases a with
    | commit id p =>
      cases step_cases hs with
      | commit hm hpres hhead hpop hp =>
        intro q v hv
        rcases getElem?_append_some.1 hv with hv | ⟨-, rfl⟩
        · exact ih q v hv
        · have hinv := inv_of_symbolic hr
          have hmem := hinv.member id _ hm
          obtain ⟨hwf, -⟩ := hinv.linked.wf _ _ hmem.view
          obtain ⟨-, hop, ⟨pre, hc, hadv⟩, -⟩ :=
            propose_spec hwf (hmem.holds hpres) (hmem.signs hpres) hpop hp
          have hpre : Shape _ pre :=
            hwf.shape.splice (fun leaf lp he => (hop leaf lp he).2) hc.spliced
          rw [hadv.view]
          refine (ih _ _ hmem.view).next hc hpre fun leaf lp he other lp' hlp' hsame => ?_
          have hadd := (hop leaf lp he).1
          cases p with
          | add owner k =>
            obtain rfl := Proposal.add.inj hadd
            exact hok _ (hhead ▸ hmem.view) other ⟨lp', hlp', hsame⟩
          | remove leaf => cases hadd
          | update => cases hadd
    | apply id =>
      cases step_cases hs with
      | apply => exact ih
    | join entry owner k =>
      cases step_cases hs with
      | join => exact ih
    | sealRecord id plaintext =>
      cases step_cases hs with
      | sealRecord => exact ih
    | deliver id leaf =>
      cases step_cases hs with
      | deliver => rw [handed]; exact ih
    | receive id record =>
      cases step_cases hs with
      | receive => rw [handed]; exact ih

/-- **Every refresh heals** in a run that adds no key package while a leaf has its key: once a member
has committed an update from some epoch, neither the epoch secret nor the application secret of any
later epoch is derivable from a copy of its state in that epoch, every commit and every welcome to
others. -/
theorem healed_of_addsUnused {w : World Bytes} (h : symbolicMachine.Reachable AddsUnused w) {id : ℕ}
    {g : Group Bytes} (hg : (id, g) ∈ w.past) {entry : Entry Bytes}
    (he : w.log[g.epoch]? = some entry) (hop : entry.commit.op = .update)
    (hsender : entry.commit.senderLeaf = g.myLeaf) {j : ℕ} {v : View Bytes} (hj : g.epoch < j)
    (hv : w.views[j]? = some v) :
    ¬ Derives (w.copied g) v.epochSecret ∧
      ¬ Derives (w.copied g) (deriveApplicationSecret v.epochSecret) := by
  have hr : w.Refreshed g := by
    refine ⟨⟨entry, he, hop, hsender⟩, fun leaf keys hkeys hkey => ?_⟩
    obtain ⟨m, rfl, hok, -⟩ := ok_of_past h hg
    have hpresent := present_of_committed (inv_of_symbolic h).linked hok he hsender
    -- its own leaf has the key, and no other one
    obtain ⟨lp, dh, kem, hlp, hown, hpk⟩ := (hok.holds hpresent).leaf
    obtain rfl := Option.some.inj (hown.symm.trans hkeys)
    exact unshared_of_reachable h _ _ hok.view leaf _ _ hkey ⟨lp, hlp, hpk⟩
  obtain ⟨P, hP, hsafe, hnot⟩ := exists_policy_of_refreshed h hg hr
  exact ⟨Policy.not_derives hsafe (hnot j v hj hv), Policy.not_derives hsafe fun hs =>
    hnot j v hj hv (hP.safe_applicationSecret.1 hs)⟩

/-- The run in which the founder adds a member, which refreshes its path, adds no key package
twice. -/
theorem reachable_healRun {w : World Bytes} (h : runFrom 4 healRun = some w) :
    symbolicMachine.Reachable AddsUnused w := by
  unfold runFrom at h
  split at h
  · rename_i g hg
    obtain ⟨w₁, hadd, hrest⟩ := (Machine.run_cons _).1 h
    have hstart : symbolicMachine.Reachable AddsUnused (World.start (.name (.identity 0)) g) :=
      .init ⟨0, 0, 4, g, hg, rfl⟩
    have hunused : AddsUnused (World.start (.name (.identity 0)) g) (.commit 0 (.add 1 1)) := by
      intro v hv leaf hkey
      obtain rfl := List.mem_singleton.1 (List.mem_of_getElem? hv)
      exact absurd (hasKey_start hg hkey).2 (by decide)
    refine .of_run (hstart.step hunused hadd) (fun t a ha => ?_) hrest
    simp only [List.mem_cons, List.not_mem_nil, or_false] at ha
    rcases ha with rfl | rfl | rfl | rfl <;> trivial
  · cases h

/-- There a copy of the member's first state gives away neither the epoch of its own update nor the
next one. -/
theorem healed_of_addsUnused_healRun : ∃ w g v₂ v₃, runFrom 4 healRun = some w ∧
    (1, g) ∈ w.past ∧ g.epoch = 1 ∧ w.views[2]? = some v₂ ∧ w.views[3]? = some v₃ ∧
    ¬ Derives (w.copied g) (deriveApplicationSecret v₂.epochSecret) ∧
    ¬ Derives (w.copied g) (deriveApplicationSecret v₃.epochSecret) := by
  have hrun : (runFrom 4 healRun).map afterHealing = some true := by decide +kernel
  obtain ⟨w, hw, hp⟩ := Option.map_eq_some_iff.1 hrun
  unfold afterHealing at hp
  split at hp
  · rename_i i g e₀ e₁ e₂ hpast hlog
    obtain ⟨hstate, -⟩ := Bool.and_eq_true_iff.1 hp
    obtain ⟨rfl, hep, hop, hsender, -⟩ := of_decide_eq_true hstate
    have hg := List.mem_of_find?_eq_some hpast
    have he : w.log[g.epoch]? = some e₁ := by simp [hlog, hep]
    have hreach := reachable_healRun hw
    have hl := (inv_of_symbolic hreach).linked
    obtain ⟨v₂, hv₂⟩ := hl.getElem?_views (p := 2) (by simp [hlog])
    obtain ⟨v₃, hv₃⟩ := hl.getElem?_views (p := 3) (by simp [hlog])
    exact ⟨w, g, v₂, v₃, hw, hg, hep, hv₂, hv₃,
      (healed_of_addsUnused hreach hg he hop hsender (by omega) hv₂).2,
      (healed_of_addsUnused hreach hg he hop hsender (by omega) hv₃).2⟩
  · cases hp

end Group

end NovaChannel
