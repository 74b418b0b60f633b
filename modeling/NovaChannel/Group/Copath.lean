import NovaChannel.Group.Tree

/-!
# What a commit seals to

A commit walks up from its own leaf and seals each path secret to the resolution of the sibling.

* `Covers` : a list of nodes covers every populated leaf of a kind exactly once;
* `resolution_covers_once` : the resolution of a node covers what is below it;
* `copath_covers_once` : **the copath covers every populated leaf but the committer's**.
-/

namespace NovaChannel

namespace Group

section Copath

variable {β : Type} {nodes : List (TreeNode β)} {capacity : ℕ}

/-- Neither node is above the other. -/
def Apart (a b : ℕ) : Prop := ¬ Below a b ∧ ¬ Below b a

theorem Apart.symm {a b : ℕ} (h : Apart a b) : Apart b a := ⟨h.2, h.1⟩

/-- Nodes below two nodes that are apart are apart. -/
theorem Apart.below {a b x y : ℕ} (h : Apart a b) (hx : Below a x) (hy : Below b y) :
    Apart x y := by
  constructor
  · intro hxy
    exact (Below.total (hx.trans hxy) hy).elim h.1 h.2
  · intro hyx
    exact (Below.total hx (hy.trans hyx)).elim h.1 h.2

theorem apart_children (n : ℕ) : Apart (leftChild n) (rightChild n) := by
  constructor
  · intro h
    exact not_below_right h (.refl _)
  · intro h
    exact not_below_right (.refl _) h

/-- The nodes of a list are in range and populated, none is above another, and they cover every
populated leaf for which `p` holds exactly once. -/
structure Covers (nodes : List (TreeNode β)) (p : ℕ → Prop) (l : List ℕ) : Prop where
  populated : ∀ t ∈ l, ∃ v, nodes[t]? = some v ∧ v ≠ .blank
  apart : l.Pairwise Apart
  once : ∀ x lp, p x → nodes[x]? = some (.leaf lp) → ∃! t, t ∈ l ∧ Below t x

/-- Two nodes of a list of nodes apart that are above one node are the same. -/
theorem eq_of_apart {l : List ℕ} (h : l.Pairwise Apart) {s t x : ℕ} (hs : s ∈ l) (ht : t ∈ l)
    (hsx : Below s x) (htx : Below t x) : s = t := by
  by_contra hne
  have hpair : l.Pairwise fun a b => a ≠ b → Apart a b := h.imp (by intro a b hab _; exact hab)
  have hflip : l.Pairwise (flip fun a b => a ≠ b → Apart a b) :=
    h.imp (by intro a b hab _; exact hab.symm)
  have hapart : s ≠ t → Apart s t :=
    List.Pairwise.forall_of_forall_of_flip (fun _ _ hne => absurd rfl hne) hpair hflip hs ht
  exact (Below.total hsx htx).elim (hapart hne).1 (hapart hne).2

/-! ### One resolution -/

theorem apart_resolutionFrom : ∀ {fuel node : ℕ} {l : List ℕ},
    resolutionFrom nodes capacity fuel node = some l → l.Pairwise Apart := by
  intro fuel
  induction fuel with
  | zero => intro node l h; cases h
  | succ fuel ih =>
    intro node l h
    simp only [resolutionFrom] at h
    split at h
    · cases h
    · split_ifs at h
      · cases h
        exact List.Pairwise.nil
      · simp only [Option.bind_eq_bind, Option.bind_eq_some_iff, Option.some.injEq] at h
        obtain ⟨a, ha, b, hb, rfl⟩ := h
        refine List.pairwise_append.2 ⟨ih ha, ih hb, fun x hx y hy => ?_⟩
        exact (apart_children node).below (mem_resolutionFrom ha x hx).1
          (mem_resolutionFrom hb y hy).1
    · cases h
      exact List.pairwise_singleton _ _
    · cases h
      exact List.pairwise_singleton _ _

/-- **A resolution covers what is below its node exactly once.** -/
theorem resolution_covers_once (hlen : nodes.length = 2 * capacity - 1) {node : ℕ} {l : List ℕ}
    (h : resolution nodes capacity node = some l) :
    (∀ t ∈ l, Below node t) ∧ Covers nodes (Below node) l := by
  refine ⟨fun t ht => (mem_resolution h ht).1, fun t ht => (mem_resolution h ht).2.1,
    apart_resolutionFrom h, fun x lp hx hleaf => ?_⟩
  obtain ⟨t, ht, htx⟩ := resolution_covers hlen h hx hleaf (by simp)
  exact ⟨t, ⟨ht, htx⟩, fun s hs => eq_of_apart (apart_resolutionFrom h) hs.1 ht hs.2 htx⟩

/-! ### The copath -/

/-- The nodes the path loop of `commit` seals to, step by step. -/
def copathFrom (nodes : List (TreeNode β)) (capacity : ℕ) : ℕ → List ℕ → Option (List ℕ)
  | _, [] => some []
  | prev, d :: path => do
    let target ← sibling prev
    let targets ← resolution nodes capacity target
    let rest ← copathFrom nodes capacity d path
    some (targets ++ rest)

/-- The nodes a commit from a leaf seals to. -/
def copath (nodes : List (TreeNode β)) (capacity leaf : ℕ) : Option (List ℕ) :=
  copathFrom nodes capacity (leafToNode capacity leaf) (directPath capacity leaf)

/-- What the loop seals to from a node on: everything that is not below it. -/
theorem copathFrom_covers_once (hlen : nodes.length = 2 * capacity - 1)
    (hleaves : ∀ x lp, nodes[x]? = some (.leaf lp) → isLeaf capacity x = true) {prev : ℕ}
    {path : List ℕ} (hpath : IsPath prev path) (hprev : prev < nodes.length) :
    ∃ l, copathFrom nodes capacity prev path = some l ∧ (∀ t ∈ l, Apart prev t) ∧
      Covers nodes (fun x => ¬ Below prev x) l := by
  induction hpath with
  | root => exact ⟨[], rfl, fun t ht => (by cases ht), fun t ht => (by cases ht),
      List.Pairwise.nil, fun x lp hx _ => absurd (below_zero x) hx⟩
  | @step n ps hn htail ih =>
    obtain ⟨s, hs, -, hparent, hle, hsplit, hdisjoint⟩ := sibling_spec hn
    obtain ⟨targets, htargets⟩ := resolution_isSome hlen (show s < nodes.length by omega)
    obtain ⟨hbelow, hcovers⟩ := resolution_covers_once hlen htargets
    obtain ⟨rest, hrest, habove, hcovers'⟩ := ih (by omega)
    have hns : Apart n s := ⟨fun h => hdisjoint s h (.refl _), hdisjoint n (.refl _)⟩
    have hds : Below ((n - 1) / 2) s := (hsplit s).2 (.inr (.inr (.refl _)))
    have hapart : (targets ++ rest).Pairwise Apart :=
      List.pairwise_append.2 ⟨hcovers.apart, hcovers'.apart, fun x hx y hy =>
        (habove y hy).below (hds.trans (hbelow x hx)) (.refl _)⟩
    refine ⟨targets ++ rest, by simp [copathFrom, hs, htargets, hrest], fun t ht => ?_,
      fun t ht => ?_, hapart, fun x lp hx hleaf => ?_⟩
    · rcases List.mem_append.1 ht with ht | ht
      · exact hns.below (.refl _) (hbelow t ht)
      · exact (habove t ht).below (below_parent hn) (.refl _)
    · rcases List.mem_append.1 ht with ht | ht
      · exact hcovers.populated t ht
      · exact hcovers'.populated t ht
    · -- the leaf is below the sibling, or not below the parent
      have hcover : ∃ t ∈ targets ++ rest, Below t x := by
        by_cases hd : Below ((n - 1) / 2) x
        · rcases (hsplit x).1 hd with rfl | h | h
          · have hinner := hleaves _ lp hleaf
            rw [isLeaf, decide_eq_true_eq] at hinner
            omega
          · exact absurd h hx
          · obtain ⟨t, ⟨ht, htx⟩, -⟩ := hcovers.once x lp h hleaf
            exact ⟨t, List.mem_append_left _ ht, htx⟩
        · obtain ⟨t, ⟨ht, htx⟩, -⟩ := hcovers'.once x lp hd hleaf
          exact ⟨t, List.mem_append_right _ ht, htx⟩
      obtain ⟨t, ht, htx⟩ := hcover
      exact ⟨t, ⟨ht, htx⟩, fun u hu => eq_of_apart hapart hu.1 ht hu.2 htx⟩

/-- **Resolutions cover the group exactly once**: the resolution of a node what is below it, and the
copath of a committer every populated leaf but its own. -/
theorem copath_covers_once (hlen : nodes.length = 2 * capacity - 1)
    (hleaves : ∀ x lp, nodes[x]? = some (.leaf lp) → isLeaf capacity x = true) :
    (∀ node < nodes.length, ∃ l, resolution nodes capacity node = some l ∧
      (∀ t ∈ l, Below node t ∧ t < nodes.length) ∧ Covers nodes (Below node) l) ∧
    ∀ leaf < capacity, ∃ l, copath nodes capacity leaf = some l ∧
      (∀ t ∈ l, Apart (leafToNode capacity leaf) t ∧ t < nodes.length) ∧
      Covers nodes (fun x => x ≠ leafToNode capacity leaf) l := by
  have hrange : ∀ {p l}, Covers nodes p l → ∀ t ∈ l, t < nodes.length := by
    intro p l h t ht
    obtain ⟨v, hv, -⟩ := h.populated t ht
    exact (List.getElem?_eq_some_iff.1 hv).1
  constructor
  · intro node hnode
    obtain ⟨l, hl⟩ := resolution_isSome hlen hnode
    obtain ⟨hbelow, hcovers⟩ := resolution_covers_once hlen hl
    exact ⟨l, hl, fun t ht => ⟨hbelow t ht, hrange hcovers t ht⟩, hcovers⟩
  · intro leaf hleaf
    have hnode : leafToNode capacity leaf < nodes.length := by
      unfold leafToNode
      omega
    obtain ⟨l, hl, hapart, hcovers⟩ :=
      copathFrom_covers_once hlen hleaves (isPath_directPath capacity leaf) hnode
    refine ⟨l, hl, fun t ht => ⟨hapart t ht, hrange hcovers t ht⟩, hcovers.populated,
      hcovers.apart, fun x lp hx hpop => hcovers.once x lp (fun hbelow => hx ?_) hpop⟩
    exact eq_of_below_leaf (Nat.le_add_right _ _)
      (hlen ▸ (List.getElem?_eq_some_iff.1 hpop).1) hbelow

/-- Two members in a tree of four leaves. -/
theorem copath_covers_once_two : ∃ l,
    copath [.blank, .parent ⟨0, 0⟩, .blank, .leaf ⟨1, ⟨1, 1⟩, 1⟩, .blank, .leaf ⟨2, ⟨2, 2⟩, 2⟩, .blank]
      4 0 = some l ∧ ∃! t, t ∈ l ∧ Below t 5 := by
  have hleaves : ∀ x lp, ([.blank, .parent ⟨0, 0⟩, .blank, .leaf ⟨1, ⟨1, 1⟩, 1⟩, .blank,
      .leaf ⟨2, ⟨2, 2⟩, 2⟩, .blank] : List (TreeNode ℕ))[x]? = some (.leaf lp) →
      isLeaf 4 x = true := by
    intro x lp hx
    by_cases hlow : x < 3
    · obtain rfl | rfl | rfl : x = 0 ∨ x = 1 ∨ x = 2 := by omega
      all_goals cases hx
    · simp only [isLeaf, decide_eq_true_eq]
      omega
  obtain ⟨-, hcopath⟩ := copath_covers_once rfl hleaves
  obtain ⟨l, hl, -, hcovers⟩ := hcopath 0 (by decide)
  exact ⟨l, hl, hcovers.once 5 _ (by decide) rfl⟩

end Copath

end Group

end NovaChannel
