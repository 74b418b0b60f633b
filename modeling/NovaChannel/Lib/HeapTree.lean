import Mathlib.Data.Nat.Log
import Mathlib.Tactic.Ring

/-!
# Heap numbering of a binary tree

The nodes of an infinite complete binary tree are numbered `1, 2, 3, …` level by level: the
root is `1`, the children of `a` are `2 * a` and `2 * a + 1`, the parent of `n` is `n / 2`.
`Under a n` says that `n` is `a` or lies in the subtree below `a`.

* `Under` is a partial order whose up-sets are chains (`Under.total`), so two subtrees are
  nested or disjoint;
* the two children of a node split what is strictly below it (`under_iff_children`).
-/

namespace NovaChannel

namespace HeapTree

/-- Node `n` is `a` itself or a node of the subtree below `a`. -/
def Under (a n : ℕ) : Prop := ∃ k, n / 2 ^ k = a

theorem Under.refl (n : ℕ) : Under n n := ⟨0, by simp⟩

theorem Under.trans {a b c : ℕ} (hab : Under a b) (hbc : Under b c) : Under a c := by
  obtain ⟨j, hj⟩ := hab
  obtain ⟨k, hk⟩ := hbc
  refine ⟨k + j, ?_⟩
  rw [pow_add, ← Nat.div_div_eq_div_mul, hk, hj]

theorem Under.le {a n : ℕ} (h : Under a n) : a ≤ n := by
  obtain ⟨k, rfl⟩ := h
  exact Nat.div_le_self _ _

theorem Under.antisymm {a b : ℕ} (hab : Under a b) (hba : Under b a) : a = b :=
  Nat.le_antisymm hab.le hba.le

theorem under_half (n : ℕ) : Under (n / 2) n := ⟨1, by simp⟩

/-- One step up: a node below `a` is `a`, or its parent is below `a`. -/
theorem under_iff_half {a n : ℕ} : Under a n ↔ n = a ∨ Under a (n / 2) := by
  constructor
  · rintro ⟨k, hk⟩
    cases k with
    | zero => exact .inl (by simpa using hk)
    | succ k =>
      refine .inr ⟨k, ?_⟩
      rw [Nat.div_div_eq_div_mul, mul_comm, ← pow_succ]
      exact hk
  · rintro (rfl | h)
    · exact .refl _
    · exact h.trans (under_half n)

/-- The nodes above one node form a chain. -/
theorem Under.total {a b n : ℕ} (ha : Under a n) (hb : Under b n) : Under a b ∨ Under b a := by
  obtain ⟨j, rfl⟩ := ha
  obtain ⟨k, rfl⟩ := hb
  rcases Nat.le_total j k with h | h
  · refine .inr ⟨k - j, ?_⟩
    rw [Nat.div_div_eq_div_mul, ← pow_add, Nat.add_sub_cancel' h]
  · refine .inl ⟨j - k, ?_⟩
    rw [Nat.div_div_eq_div_mul, ← pow_add, Nat.add_sub_cancel' h]

/-- What is strictly below `a` is below one of its two children. -/
theorem under_iff_children {a n : ℕ} :
    Under a n ↔ n = a ∨ Under (2 * a) n ∨ Under (2 * a + 1) n := by
  constructor
  · rintro ⟨k, hk⟩
    induction k generalizing a with
    | zero => exact .inl (by simpa using hk)
    | succ k ih =>
      have hc : n / 2 ^ k = 2 * a ∨ n / 2 ^ k = 2 * a + 1 := by
        rw [pow_succ, ← Nat.div_div_eq_div_mul] at hk
        omega
      exact .inr (hc.imp (fun h => ⟨k, h⟩) (fun h => ⟨k, h⟩))
  · rintro (rfl | h | h)
    · exact .refl _
    · exact Under.trans ⟨1, by omega⟩ h
    · exact Under.trans ⟨1, by omega⟩ h

/-- Two different nodes of one level have disjoint subtrees. -/
theorem not_under_of_lt {a b n : ℕ} (ha : Under a n) (hlt : a < b) (hb : b < 2 * a) :
    ¬ Under b n := by
  intro h
  rcases ha.total h with h' | h'
  · rcases under_iff_half.1 h' with h' | h'
    · omega
    · have := h'.le
      omega
  · exact absurd h'.le (by omega)

/-- The subtrees of two siblings are disjoint. -/
theorem not_under_sibling {a n : ℕ} (ha : 0 < a) (h : Under (2 * a) n) :
    ¬ Under (2 * a + 1) n :=
  not_under_of_lt h (by omega) (by omega)

theorem under_one {n : ℕ} (hn : 0 < n) : Under 1 n := by
  induction n using Nat.strong_induction_on with
  | _ n ih =>
    by_cases h : n = 1
    · subst h; exact .refl _
    · exact (ih (n / 2) (by omega) (by omega)).trans (under_half n)

end HeapTree

end NovaChannel
