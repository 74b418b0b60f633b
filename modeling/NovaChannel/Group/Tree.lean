import NovaChannel.Group.Keys
import NovaChannel.Lib.HeapTree

/-!
# The ratchet tree

Index arithmetic of the fixed-capacity, array-based complete binary tree (root `0`, leaves
the last `capacity` slots), direct paths and resolutions.

* `Below a n` is the ancestor order; it is `HeapTree.Under` on indices shifted by one;
* `IsPath` describes the path a loop over `direct_path` walks, one parent at a time;
* `mem_resolution` and `resolution_covers` say what `resolution` returns: the topmost
  populated nodes, and one above every populated node.
-/

namespace NovaChannel

namespace Group

/-- `leaf_to_node`. -/
def leafToNode (capacity leaf : ℕ) : ℕ := capacity - 1 + leaf

/-- `is_leaf`. -/
def isLeaf (capacity node : ℕ) : Bool := decide (node ≥ capacity - 1)

/-- `parent`. -/
def parent (node : ℕ) : Option ℕ := if node = 0 then none else some ((node - 1) / 2)

/-- `left_child`. -/
def leftChild (node : ℕ) : ℕ := 2 * node + 1

/-- `right_child`. -/
def rightChild (node : ℕ) : ℕ := 2 * node + 2

/-- `sibling`: the other child of `node`'s parent. -/
def sibling (node : ℕ) : Option ℕ := do
  let p ← parent node
  some (if leftChild p = node then rightChild p else leftChild p)

/-- The loop of `direct_path`, for at most `fuel` steps. -/
def climb : ℕ → ℕ → List ℕ
  | 0, _ => []
  | fuel + 1, n =>
    match parent n with
    | none => []
    | some p => p :: climb fuel p

/-- `direct_path`: the ancestors of `leaf`, nearest first, ending at the root. -/
def directPath (capacity leaf : ℕ) : List ℕ :=
  climb (leafToNode capacity leaf) (leafToNode capacity leaf)

/-- The recursion of `resolution`; `none` is an index out of range. -/
def resolutionFrom {β : Type} (nodes : List (TreeNode β)) (capacity : ℕ) :
    ℕ → ℕ → Option (List ℕ)
  | 0, _ => none
  | fuel + 1, node =>
    match nodes[node]? with
    | none => none
    | some .blank =>
      if isLeaf capacity node then some []
      else do
        let out ← resolutionFrom nodes capacity fuel (leftChild node)
        let rest ← resolutionFrom nodes capacity fuel (rightChild node)
        some (out ++ rest)
    | some (.leaf _) => some [node]
    | some (.parent _) => some [node]

/-- `resolution`: the minimal set of populated nodes covering every leaf under `node`. -/
def resolution {β : Type} (nodes : List (TreeNode β)) (capacity node : ℕ) : Option (List ℕ) :=
  resolutionFrom nodes capacity capacity node

/-- `node_public_key`; `none` is the `unreachable!` of a blank node. -/
def nodePublicKey {β : Type} (nodes : List (TreeNode β)) (node : ℕ) :
    Option (NodePublicKey β) :=
  match nodes[node]? with
  | some (.leaf lp) => some lp.publicKey
  | some (.parent pk) => some pk
  | _ => none

/-! ### The ancestor order -/

/-- `a` is `n` or an ancestor of `n`. -/
def Below (a n : ℕ) : Prop := HeapTree.Under (a + 1) (n + 1)

theorem Below.refl (n : ℕ) : Below n n := HeapTree.Under.refl _

theorem Below.trans {a b c : ℕ} (hab : Below a b) (hbc : Below b c) : Below a c :=
  HeapTree.Under.trans hab hbc

theorem Below.le {a n : ℕ} (h : Below a n) : a ≤ n := by
  have := HeapTree.Under.le h
  omega

theorem Below.antisymm {a b : ℕ} (hab : Below a b) (hba : Below b a) : a = b :=
  Nat.le_antisymm hab.le hba.le

theorem Below.total {a b n : ℕ} (ha : Below a n) (hb : Below b n) : Below a b ∨ Below b a :=
  HeapTree.Under.total ha hb

theorem below_zero (n : ℕ) : Below 0 n := HeapTree.under_one (Nat.succ_pos n)

/-- One step up. -/
theorem below_iff_parent {a n : ℕ} (hn : 0 < n) : Below a n ↔ n = a ∨ Below a ((n - 1) / 2) := by
  have h : (n - 1) / 2 + 1 = (n + 1) / 2 := by omega
  unfold Below
  rw [h, HeapTree.under_iff_half]
  simp only [Nat.add_right_cancel_iff]

theorem below_parent {n : ℕ} (hn : 0 < n) : Below ((n - 1) / 2) n :=
  (below_iff_parent hn).2 (.inr (.refl _))

theorem below_iff_children {a n : ℕ} :
    Below a n ↔ n = a ∨ Below (leftChild a) n ∨ Below (rightChild a) n := by
  unfold Below leftChild rightChild
  rw [HeapTree.under_iff_children, show 2 * (a + 1) = 2 * a + 1 + 1 by ring]
  simp only [Nat.add_right_cancel_iff]

theorem not_below_right {a n : ℕ} (h : Below (leftChild a) n) : ¬ Below (rightChild a) n := by
  unfold Below leftChild rightChild at *
  have h' : HeapTree.Under (2 * (a + 1)) (n + 1) := by
    rw [show 2 * (a + 1) = 2 * a + 1 + 1 by ring]; exact h
  have := HeapTree.not_under_sibling (Nat.succ_pos a) h'
  rwa [show 2 * (a + 1) + 1 = 2 * a + 2 + 1 by ring] at this

/-- Leaves have nothing below them in the array. -/
theorem eq_of_below_leaf {capacity a n : ℕ} (ha : capacity - 1 ≤ a) (hn : n < 2 * capacity - 1)
    (h : Below a n) : n = a := by
  rcases below_iff_children.1 h with h | h | h
  · exact h
  all_goals
    have := h.le
    simp only [leftChild, rightChild] at this
    omega

/-! ### Siblings -/

/-- A node other than the root has a sibling; together they split what is below the parent. -/
theorem sibling_spec {n : ℕ} (hn : 0 < n) :
    ∃ s, sibling n = some s ∧ 0 < s ∧ (s - 1) / 2 = (n - 1) / 2 ∧ s ≤ n + 1 ∧
      (∀ x, Below ((n - 1) / 2) x ↔ x = (n - 1) / 2 ∨ Below n x ∨ Below s x) ∧
      (∀ x, Below n x → ¬ Below s x) := by
  have hp : parent n = some ((n - 1) / 2) := by simp [parent, Nat.pos_iff_ne_zero.1 hn]
  set p := (n - 1) / 2 with hpdef
  rcases Nat.even_or_odd' n with ⟨k, hk | hk⟩
  · have hr : rightChild p = n := by simp only [rightChild]; omega
    have hl : leftChild p ≠ n := by simp only [leftChild]; omega
    refine ⟨leftChild p, by simp [sibling, hp, hl], by simp [leftChild],
      by simp only [leftChild]; omega, by simp only [leftChild]; omega, fun x => ?_,
      fun x hx hs => not_below_right hs (hr ▸ hx)⟩
    rw [below_iff_children, hr, or_comm (a := Below (leftChild p) x)]
  · have hl : leftChild p = n := by simp only [leftChild]; omega
    refine ⟨rightChild p, by simp [sibling, hp, hl], by simp [rightChild],
      by simp only [rightChild]; omega, by simp only [rightChild]; omega, fun x => ?_,
      fun x hx => not_below_right (hl ▸ hx)⟩
    rw [below_iff_children, hl]

/-! ### Direct paths -/

/-- `ps` lists the strict ancestors of `n`, nearest first. -/
inductive IsPath : ℕ → List ℕ → Prop
  | root : IsPath 0 []
  | step {n : ℕ} {ps : List ℕ} (hn : 0 < n) (h : IsPath ((n - 1) / 2) ps) :
      IsPath n ((n - 1) / 2 :: ps)

theorem isPath_climb : ∀ (fuel n : ℕ), n ≤ fuel → IsPath n (climb fuel n) := by
  intro fuel
  induction fuel with
  | zero =>
    intro n hn
    obtain rfl : n = 0 := by omega
    exact .root
  | succ fuel ih =>
    intro n hn
    by_cases h0 : n = 0
    · subst h0
      exact .root
    · have hp : parent n = some ((n - 1) / 2) := by simp [parent, h0]
      simp only [climb, hp]
      exact .step (by omega) (ih _ (by omega))

theorem isPath_directPath (capacity leaf : ℕ) :
    IsPath (leafToNode capacity leaf) (directPath capacity leaf) :=
  isPath_climb _ _ (Nat.le_refl _)

namespace IsPath

theorem mem_iff {n : ℕ} {ps : List ℕ} (h : IsPath n ps) {d : ℕ} :
    d ∈ ps ↔ Below d n ∧ d ≠ n := by
  induction h with
  | root =>
    simp only [List.not_mem_nil, false_iff, not_and, not_not]
    intro hd
    have := hd.le
    omega
  | @step n ps hn _ ih =>
    rw [List.mem_cons, ih]
    constructor
    · rintro (rfl | ⟨hd, -⟩)
      · exact ⟨below_parent hn, by omega⟩
      · refine ⟨hd.trans (below_parent hn), ?_⟩
        have := hd.le
        omega
    · rintro ⟨hd, hne⟩
      rcases (below_iff_parent hn).1 hd with h | h
      · exact absurd h.symm hne
      · by_cases he : d = (n - 1) / 2
        · exact .inl he
        · exact .inr ⟨h, he⟩

theorem lt {n : ℕ} {ps : List ℕ} (h : IsPath n ps) {d : ℕ} (hd : d ∈ ps) : d < n := by
  obtain ⟨hb, hne⟩ := h.mem_iff.1 hd
  have := hb.le
  omega

theorem nodup {n : ℕ} {ps : List ℕ} (h : IsPath n ps) : ps.Nodup := by
  induction h with
  | root => exact List.nodup_nil
  | step _ h ih => exact List.nodup_cons.2 ⟨fun hd => absurd (h.lt hd) (by omega), ih⟩

theorem ne_nil {n : ℕ} {ps : List ℕ} (h : IsPath n ps) (hn : 0 < n) : ps ≠ [] := by
  cases h with
  | root => omega
  | step => simp

theorem eq_nil {ps : List ℕ} (h : IsPath 0 ps) : ps = [] :=
  List.eq_nil_iff_forall_not_mem.2 fun _ hd => absurd (h.lt hd) (Nat.not_lt_zero _)

theorem getLast_eq {n : ℕ} {ps : List ℕ} (h : IsPath n ps) (hn : 0 < n) :
    ps.getLast? = some 0 := by
  induction h with
  | root => omega
  | @step n ps _ h ih =>
    rcases Nat.eq_zero_or_pos ((n - 1) / 2) with h0 | hp
    · rw [h0] at h ⊢
      rw [h.eq_nil]
      rfl
    · rw [List.getLast?_cons, ih hp]
      rfl

end IsPath

theorem mem_directPath {capacity leaf d : ℕ} :
    d ∈ directPath capacity leaf ↔
      Below d (leafToNode capacity leaf) ∧ d ≠ leafToNode capacity leaf :=
  (isPath_directPath capacity leaf).mem_iff

/-! ### Resolutions -/

section Resolution

variable {β : Type} {nodes : List (TreeNode β)} {capacity : ℕ}

theorem resolutionFrom_isSome (hlen : nodes.length = 2 * capacity - 1) :
    ∀ (fuel node : ℕ), capacity ≤ node + fuel → 0 < fuel → node < nodes.length →
      ∃ l, resolutionFrom nodes capacity fuel node = some l := by
  intro fuel
  induction fuel with
  | zero => intro node _ h; omega
  | succ fuel ih =>
    intro node hf _ hn
    simp only [resolutionFrom, List.getElem?_eq_getElem hn]
    cases hv : nodes[node] with
    | blank =>
      by_cases hl : isLeaf capacity node = true
      · exact ⟨[], by simp [hl]⟩
      · have hlt : ¬ node ≥ capacity - 1 := by simpa only [isLeaf, decide_eq_true_eq] using hl
        obtain ⟨a, ha⟩ := ih (leftChild node) (by simp only [leftChild]; omega) (by omega)
          (by simp only [leftChild]; omega)
        obtain ⟨b, hb⟩ := ih (rightChild node) (by simp only [rightChild]; omega) (by omega)
          (by simp only [rightChild]; omega)
        exact ⟨a ++ b, by simp [hl, ha, hb]⟩
    | leaf lp => exact ⟨[node], rfl⟩
    | parent pk => exact ⟨[node], rfl⟩

/-- In a tree of the right size no index of a resolution is out of range. -/
theorem resolution_isSome (hlen : nodes.length = 2 * capacity - 1) {node : ℕ}
    (hn : node < nodes.length) : ∃ l, resolution nodes capacity node = some l :=
  resolutionFrom_isSome hlen capacity node (by omega) (by omega) hn

theorem mem_resolutionFrom : ∀ {fuel node : ℕ} {l : List ℕ},
    resolutionFrom nodes capacity fuel node = some l → ∀ t ∈ l,
      Below node t ∧ (∃ v, nodes[t]? = some v ∧ v ≠ .blank) ∧
        ∀ a, Below node a → Below a t → a ≠ t → nodes[a]? = some .blank := by
  intro fuel
  induction fuel with
  | zero => intro node l h; cases h
  | succ fuel ih =>
    intro node l h t ht
    simp only [resolutionFrom] at h
    have single : ∀ v, nodes[node]? = some v → v ≠ .blank → l = [node] →
        Below node t ∧ (∃ v, nodes[t]? = some v ∧ v ≠ .blank) ∧
          ∀ a, Below node a → Below a t → a ≠ t → nodes[a]? = some .blank := by
      rintro v hv hne rfl
      obtain rfl := List.mem_singleton.1 ht
      exact ⟨.refl _, ⟨v, hv, hne⟩, fun a ha hat hn => absurd (hat.antisymm ha) hn⟩
    split at h
    · cases h
    · rename_i hv
      split_ifs at h with hl
      · cases h; cases ht
      · simp only [Option.bind_eq_bind, Option.bind_eq_some_iff, Option.some.injEq] at h
        obtain ⟨a, ha, b, hb, rfl⟩ := h
        rw [List.mem_append] at ht
        -- what is above `t` is `node` itself or lies in `t`'s half
        have lift : ∀ c, (c = leftChild node ∨ c = rightChild node) → Below c t →
            (∀ a, Below c a → Below a t → a ≠ t → nodes[a]? = some .blank) →
            ∀ a, Below node a → Below a t → a ≠ t → nodes[a]? = some .blank := by
          intro c hc hct hup a hna hat hne
          by_cases he : a = node
          · exact he ▸ hv
          · refine hup a ?_ hat hne
            rcases below_iff_children.1 hna with h | h | h
            · exact absurd h he
            all_goals
              rcases hc with rfl | rfl
              · first
                | exact h
                | exact absurd (h.trans hat) (not_below_right hct)
              · first
                | exact h
                | exact absurd hct (not_below_right (h.trans hat))
        rcases ht with ht | ht
        · obtain ⟨h1, h2, h3⟩ := ih ha t ht
          exact ⟨below_iff_children.2 (.inr (.inl h1)), h2, lift _ (.inl rfl) h1 h3⟩
        · obtain ⟨h1, h2, h3⟩ := ih hb t ht
          exact ⟨below_iff_children.2 (.inr (.inr h1)), h2, lift _ (.inr rfl) h1 h3⟩
    · rename_i lp hv
      exact single _ hv (by simp) (by simpa using h.symm)
    · rename_i pk hv
      exact single _ hv (by simp) (by simpa using h.symm)

/-- A resolution lists populated nodes with nothing populated between them and its node. -/
theorem mem_resolution {node : ℕ} {l : List ℕ} (h : resolution nodes capacity node = some l)
    {t : ℕ} (ht : t ∈ l) :
    Below node t ∧ (∃ v, nodes[t]? = some v ∧ v ≠ .blank) ∧
      ∀ a, Below node a → Below a t → a ≠ t → nodes[a]? = some .blank :=
  mem_resolutionFrom h t ht

theorem resolutionFrom_covers (hlen : nodes.length = 2 * capacity - 1) :
    ∀ {fuel node : ℕ} {l : List ℕ}, resolutionFrom nodes capacity fuel node = some l →
      ∀ {x : ℕ} {v : TreeNode β}, Below node x → nodes[x]? = some v → v ≠ .blank →
        ∃ t ∈ l, Below t x := by
  intro fuel
  induction fuel with
  | zero => intro node l h; cases h
  | succ fuel ih =>
    intro node l h x v hx hv hne
    simp only [resolutionFrom] at h
    split at h
    · cases h
    · rename_i hb
      split_ifs at h with hl
      · have hlt : x < nodes.length := (List.getElem?_eq_some_iff.1 hv).1
        obtain rfl : x = node :=
          eq_of_below_leaf (by simpa [isLeaf] using hl) (by omega) hx
        rw [hb] at hv
        exact absurd (Option.some.inj hv).symm hne
      · simp only [Option.bind_eq_bind, Option.bind_eq_some_iff, Option.some.injEq] at h
        obtain ⟨a, ha, b, hb', rfl⟩ := h
        rcases below_iff_children.1 hx with rfl | hx | hx
        · rw [hb] at hv
          exact absurd (Option.some.inj hv).symm hne
        · obtain ⟨t, ht, htx⟩ := ih ha hx hv hne
          exact ⟨t, List.mem_append_left _ ht, htx⟩
        · obtain ⟨t, ht, htx⟩ := ih hb' hx hv hne
          exact ⟨t, List.mem_append_right _ ht, htx⟩
    · cases h; exact ⟨node, List.mem_singleton_self _, hx⟩
    · cases h; exact ⟨node, List.mem_singleton_self _, hx⟩

/-- Above every populated node under `node` there is one node of the resolution. -/
theorem resolution_covers (hlen : nodes.length = 2 * capacity - 1) {node : ℕ} {l : List ℕ}
    (h : resolution nodes capacity node = some l) {x : ℕ} {v : TreeNode β}
    (hx : Below node x) (hv : nodes[x]? = some v) (hne : v ≠ .blank) : ∃ t ∈ l, Below t x :=
  resolutionFrom_covers hlen h hx hv hne

end Resolution

end Group

end NovaChannel
