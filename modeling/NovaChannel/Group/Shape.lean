import NovaChannel.Group.Path

/-!
# The shape of a tree

What splicing an operation and installing a path update do to the slots of a tree.

* `Shape capacity nodes` : leaves stand in the last slots, public keys of internal nodes in the
  others; both operations keep it;
* `splice_add`, `splice_remove`, `setPath_of_mem`, `setPath_of_notMem` : the slots afterwards.
-/

namespace NovaChannel

namespace Group

open Crypto

section Shape

variable {β : Type}

/-- Leaves stand in the last `capacity` slots, with valid proofs of possession, and public keys
of internal nodes elsewhere. -/
structure Shape [Crypto β] (capacity : ℕ) (nodes : List (TreeNode β)) : Prop where
  length : nodes.length = 2 * capacity - 1
  leaf : ∀ n lp, nodes[n]? = some (.leaf lp) → capacity - 1 ≤ n ∧ lp.popValid = true
  parent : ∀ n pk, nodes[n]? = some (.parent pk) → n < capacity - 1

theorem getElem?_foldl_set_blank (ds : List ℕ) (nodes : List (TreeNode β)) (n : ℕ) :
    (ds.foldl (fun nodes a => nodes.set a .blank) nodes)[n]? =
      if n ∈ ds then nodes[n]?.map fun _ => .blank else nodes[n]? := by
  induction ds generalizing nodes with
  | nil => simp
  | cons d ds ih =>
    rw [List.foldl_cons, ih]
    by_cases hn : n = d
    · subst hn
      by_cases hlt : n < nodes.length
      · simp [hlt]
      · have h1 : nodes[n]? = none := List.getElem?_eq_none (Nat.not_lt.1 hlt)
        have h2 : (nodes.set n .blank)[n]? = none :=
          List.getElem?_eq_none (by rw [List.length_set]; exact Nat.not_lt.1 hlt)
        simp [h1, h2]
    · simp [List.getElem?_set_ne (Ne.symm hn), List.mem_cons, hn]

theorem splice_add {nodes : List (TreeNode β)} {capacity leaf : ℕ} {lp : LeafKeyPackage β}
    {pre : List (TreeNode β)} (h : splice nodes capacity (.add leaf lp) = .ok pre) :
    leaf < capacity ∧ nodes[leafToNode capacity leaf]? = some .blank ∧
      pre = nodes.set (leafToNode capacity leaf) (.leaf lp) := by
  simp only [splice] at h
  split_ifs at h with hl
  split at h
  · rename_i hb
    exact ⟨by omega, hb, (Except.ok.inj h).symm⟩
  all_goals cases h

/-- A removal blanks the leaf and everything above it, and nothing else. -/
theorem splice_remove {nodes : List (TreeNode β)} {capacity leaf : ℕ}
    {pre : List (TreeNode β)} (h : splice nodes capacity (.remove leaf) = .ok pre) :
    leaf < capacity ∧ pre.length = nodes.length ∧
      (∀ n, Below n (leafToNode capacity leaf) → n < nodes.length → pre[n]? = some .blank) ∧
      (∀ n, ¬ Below n (leafToNode capacity leaf) → pre[n]? = nodes[n]?) := by
  simp only [splice] at h
  split_ifs at h with hl
  split at h
  · cases h
  · obtain rfl := Except.ok.inj h
    have hlen : ∀ (ds : List ℕ) (l : List (TreeNode β)),
        (ds.foldl (fun nodes a => nodes.set a TreeNode.blank) l).length = l.length := by
      intro ds
      induction ds with
      | nil => exact fun _ => rfl
      | cons d ds ih => exact fun l => by rw [List.foldl_cons, ih, List.length_set]
    refine ⟨by omega, by rw [hlen, List.length_set], fun n hn hlt => ?_, fun n hn => ?_⟩
    · rw [getElem?_foldl_set_blank]
      by_cases he : n = leafToNode capacity leaf
      · subst he
        have hm : leafToNode capacity leaf ∉ directPath capacity leaf :=
          fun h => (mem_directPath.1 h).2 rfl
        simp [hm, hlt]
      · rw [if_pos (mem_directPath.2 ⟨hn, he⟩), List.getElem?_set_ne (Ne.symm he),
          List.getElem?_eq_getElem hlt, Option.map_some]
    · have hm : n ∉ directPath capacity leaf := fun h => hn (mem_directPath.1 h).1
      have he : leafToNode capacity leaf ≠ n := fun h => hn (h ▸ .refl _)
      rw [getElem?_foldl_set_blank, if_neg hm, List.getElem?_set_ne he]
  · cases h

theorem length_splice {nodes : List (TreeNode β)} {capacity : ℕ} {op : GroupOp β}
    {pre : List (TreeNode β)} (h : splice nodes capacity op = .ok pre) :
    pre.length = nodes.length := by
  cases op with
  | add leaf lp =>
    obtain ⟨-, -, rfl⟩ := splice_add h
    exact List.length_set
  | remove leaf => exact (splice_remove h).2.1
  | update => rw [← Except.ok.inj h]

/-- Splicing creates no key of an internal node. -/
theorem parent_of_splice {nodes : List (TreeNode β)} {capacity : ℕ} {op : GroupOp β}
    {pre : List (TreeNode β)} (h : splice nodes capacity op = .ok pre) {n : ℕ}
    {pk : NodePublicKey β}
    (hn : pre[n]? = some (.parent pk)) : nodes[n]? = some (.parent pk) := by
  cases op with
  | add leaf lp =>
    obtain ⟨-, -, rfl⟩ := splice_add h
    rw [List.getElem?_set] at hn
    split_ifs at hn <;> simp_all
  | remove leaf =>
    obtain ⟨-, hl, hb, hs⟩ := splice_remove h
    by_cases hbel : Below n (leafToNode capacity leaf)
    · have hlt : n < nodes.length := hl ▸ (List.getElem?_eq_some_iff.1 hn).1
      rw [hb n hbel hlt] at hn
      cases hn
    · rwa [hs n hbel] at hn
  | update => cases h; exact hn

/-- The slots an operation touches: a leaf it fills, or the blanked path of a removed leaf. -/
theorem getElem?_splice {nodes : List (TreeNode β)} {capacity : ℕ} {op : GroupOp β}
    {pre : List (TreeNode β)} (h : splice nodes capacity op = .ok pre)
    {n : ℕ} (hn : capacity - 1 ≤ n)
    {lp : LeafKeyPackage β} (hlp : nodes[n]? = some (.leaf lp))
    (hrem : ∀ leaf, op = .remove leaf → n ≠ leafToNode capacity leaf) :
    pre[n]? = some (.leaf lp) := by
  cases op with
  | add leaf lp' =>
    obtain ⟨-, hb, rfl⟩ := splice_add h
    have he : leafToNode capacity leaf ≠ n := by
      rintro rfl
      rw [hb] at hlp
      cases hlp
    rw [List.getElem?_set_ne he, hlp]
  | remove leaf =>
    obtain ⟨hl, -, -, hs⟩ := splice_remove h
    have hlt : leafToNode capacity leaf < 2 * capacity - 1 := by unfold leafToNode; omega
    rw [hs n fun hb => hrem leaf rfl (eq_of_below_leaf hn hlt hb).symm, hlp]
  | update => cases h; exact hlp

variable [Crypto β]

theorem Shape.splice {nodes : List (TreeNode β)} {capacity : ℕ} {op : GroupOp β}
    {pre : List (TreeNode β)} (hs : Shape capacity nodes)
    (hop : ∀ leaf lp, op = .add leaf lp → lp.popValid = true)
    (h : Group.splice nodes capacity op = .ok pre) : Shape capacity pre := by
  refine ⟨?_, fun n lp hn => ?_, fun n pk hn => hs.parent n pk (parent_of_splice h hn)⟩
  · rw [length_splice h, hs.length]
  · cases op with
    | add leaf lp' =>
      obtain ⟨hl, hb, rfl⟩ := splice_add h
      rw [List.getElem?_set] at hn
      split_ifs at hn with he hlt
      · obtain rfl : lp' = lp := by simpa using hn
        exact ⟨by unfold leafToNode at he; omega, hop _ _ rfl⟩
      · exact hs.leaf n lp hn
    | remove leaf =>
      obtain ⟨-, hl, hb, hsame⟩ := splice_remove h
      by_cases hbel : Below n (leafToNode capacity leaf)
      · rw [hb n hbel (hl ▸ (List.getElem?_eq_some_iff.1 hn).1)] at hn
        cases hn
      · exact hs.leaf n lp (hsame n hbel ▸ hn)
    | update => cases h; exact hs.leaf n lp hn

omit [Crypto β] in
theorem length_setPath (nodes : List (TreeNode β)) (path : List ℕ)
    (pathNodes : List (UpdatePathNode β)) :
    (setPath nodes path pathNodes).length = nodes.length := by
  unfold setPath
  generalize path.zip pathNodes = l
  induction l generalizing nodes with
  | nil => rfl
  | cons d l ih => rw [List.foldl_cons, ih, List.length_set]

omit [Crypto β] in
theorem setPath_of_notMem {nodes : List (TreeNode β)} {path : List ℕ}
    {pathNodes : List (UpdatePathNode β)} {n : ℕ} (h : n ∉ path) :
    (setPath nodes path pathNodes)[n]? = nodes[n]? := by
  have hz : ∀ dn ∈ path.zip pathNodes, dn.1 ≠ n :=
    fun dn hdn he => h (he ▸ (List.of_mem_zip hdn).1)
  unfold setPath
  generalize path.zip pathNodes = l at hz ⊢
  induction l generalizing nodes with
  | nil => rfl
  | cons dn l ih =>
    rw [List.foldl_cons, ih fun e he => hz e (List.mem_cons_of_mem _ he),
      List.getElem?_set_ne (hz dn List.mem_cons_self)]

/-- After a path update every node of the path carries the public key of its path secret. -/
theorem setPath_of_mem {coins : ℕ → ℕ → SealCoins β} {nodes pre : List (TreeNode β)}
    {capacity prev : ℕ} {secret : β} {path : List ℕ} {pathNodes : List (UpdatePathNode β)}
    {newKnown : List (ℕ × β)}
    (h : commitPath coins pre capacity prev secret path = .ok (pathNodes, newKnown))
    (hnd : path.Nodup) {d : ℕ} (hd : d ∈ path) (hlt : d < nodes.length) :
    ∃ s, (pathSecrets path secret).lookup d = some s ∧
      (setPath nodes path pathNodes)[d]? = some (.parent (deriveNodeKeypair s).public) := by
  induction path generalizing prev secret pathNodes newKnown nodes with
  | nil => cases hd
  | cons e path ih =>
    obtain ⟨s, targets, cts, pathNodes', newKnown', -, -, -, hr, rfl, -⟩ := commitPath_cons h
    obtain ⟨he, hnd⟩ := List.nodup_cons.1 hnd
    by_cases hde : d = e
    · subst hde
      refine ⟨secret, by simp [pathSecrets], ?_⟩
      have hset : setPath nodes (d :: path)
          (⟨(deriveNodeKeypair secret).public, cts⟩ :: pathNodes') =
          setPath (nodes.set d (.parent (deriveNodeKeypair secret).public)) path pathNodes' := rfl
      rw [hset, setPath_of_notMem he]
      simp [hlt]
    · have hd' : d ∈ path := (List.mem_cons.1 hd).resolve_left hde
      have hne : (d == e) = false := by simpa using hde
      have hlt' : d < (nodes.set e (.parent (deriveNodeKeypair secret).public)).length := by
        simpa using hlt
      obtain ⟨s', hs', hset⟩ := ih hr hnd hd' hlt'
      exact ⟨s', by simp only [pathSecrets, List.lookup_cons, hne, hs'], hset⟩

theorem Shape.setPath {nodes : List (TreeNode β)} {capacity : ℕ} (hs : Shape capacity nodes)
    {path : List ℕ} (hpath : ∀ d ∈ path, d < capacity - 1)
    (pathNodes : List (UpdatePathNode β)) :
    Shape capacity (Group.setPath nodes path pathNodes) := by
  have hz : ∀ dn ∈ path.zip pathNodes, dn.1 < capacity - 1 :=
    fun dn hdn => hpath _ (List.of_mem_zip hdn).1
  unfold Group.setPath
  generalize path.zip pathNodes = l at hz ⊢
  induction l generalizing nodes with
  | nil => exact hs
  | cons dn l ih =>
    refine ih ⟨by rw [List.length_set, hs.length], fun n lp hn => ?_, fun n pk hn => ?_⟩
      (fun e he => hz e (List.mem_cons_of_mem _ he))
    · rw [List.getElem?_set] at hn
      split_ifs at hn
      · cases hn
      · exact hs.leaf n lp hn
    · rw [List.getElem?_set] at hn
      split_ifs at hn with he
      · exact he ▸ hz dn List.mem_cons_self
      · exact hs.parent n pk hn

end Shape

end Group

end NovaChannel
