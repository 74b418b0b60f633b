import Mathlib.LinearAlgebra.Lagrange
import Mathlib.RingTheory.Polynomial.Basic

/-!
# Shamir's secret sharing

A secret is the constant term of a polynomial, a share its value at a point other than zero.

* `poly` : the polynomial of a list of coefficients;
* `sum_lagrangeAtZero` : **enough shares give the secret**, in any order;
* `card_sharings_eq` : **too few say nothing about it**: as many polynomials as for any other secret
  take the same values;
* `sum_powers_smul` : the commitment to a polynomial, evaluated at a point.
-/

namespace NovaChannel

namespace Shamir

open Polynomial

variable {F : Type} [Field F]

/-! ### Polynomials from coefficients -/

/-- The polynomial with the coefficients of a list, the constant term first. -/
noncomputable def poly : List F → F[X]
  | [] => 0
  | c :: cs => C c + X * poly cs

theorem eval_poly_cons (c : F) (cs : List F) (x : F) :
    (poly (c :: cs)).eval x = c + x * (poly cs).eval x := by
  rw [poly, eval_add, eval_C, eval_mul, eval_X]

/-- The constant term is the value at zero. -/
theorem eval_poly_zero (c : F) (cs : List F) : (poly (c :: cs)).eval 0 = c := by
  rw [eval_poly_cons, zero_mul, add_zero]

/-- Horner's rule. -/
theorem horner_eq (cs : List F) (x : F) :
    cs.reverse.foldl (fun acc c => acc * x + c) 0 = (poly cs).eval x := by
  rw [List.foldl_reverse]
  induction cs with
  | nil => rw [poly, eval_zero, List.foldr_nil]
  | cons c cs ih =>
    rw [List.foldr_cons, ih, eval_poly_cons]
    ring

theorem coeff_poly (cs : List F) (k : ℕ) : (poly cs).coeff k = cs.getD k 0 := by
  induction cs generalizing k with
  | nil => rw [poly, coeff_zero, List.getD_nil]
  | cons c cs ih =>
    cases k with
    | zero => simp [poly]
    | succ k => simp [poly, ih]

theorem degree_poly_lt (cs : List F) : (poly cs).degree < cs.length := by
  rw [degree_lt_iff_coeff_zero]
  intro k hk
  rw [coeff_poly, List.getD_eq_getElem?_getD, List.getElem?_eq_none hk, Option.getD_none]

/-- Every polynomial is one of its coefficients. -/
theorem poly_ofFn_coeff {n : ℕ} {p : F[X]} (hp : p.degree < n) :
    poly (List.ofFn fun i : Fin n => p.coeff i) = p := by
  ext k
  rw [coeff_poly]
  by_cases hk : k < n
  · simp [hk]
  · have hzero := (degree_lt_iff_coeff_zero p n).1 hp k (by omega)
    simp [hk, hzero]

theorem poly_ofFn_add {n : ℕ} (a b : Fin n → F) :
    poly (List.ofFn (a + b)) = poly (List.ofFn a) + poly (List.ofFn b) := by
  ext k
  rw [coeff_add, coeff_poly, coeff_poly, coeff_poly]
  by_cases hk : k < n <;> simp [hk]

/-! ### Reconstruction -/

section Reconstruction

variable {ι : Type} [DecidableEq ι] (v : ι → F)

/-- The weight of a share in the secret, among the shares of a list. -/
def lagrangeAtZero (i : ι) (all : List ι) : F :=
  ((all.filter (· ≠ i)).map v).prod * ((all.filter (· ≠ i)).map fun j => v j - v i).prod⁻¹

/-- The weights are the Lagrange basis at zero. -/
theorem lagrangeAtZero_eq {all : List ι} (hnd : all.Nodup) (i : ι) :
    lagrangeAtZero v i all = (Lagrange.basis all.toFinset v i).eval 0 := by
  have herase : (all.filter (· ≠ i)).toFinset = all.toFinset.erase i := by
    ext j
    simp [and_comm]
  have hprod : ∀ f : ι → F, ((all.filter (· ≠ i)).map f).prod =
      ∏ j ∈ all.toFinset.erase i, f j := by
    intro f
    rw [← herase, List.prod_toFinset _ (hnd.filter _)]
  rw [lagrangeAtZero, hprod, hprod, ← Finset.prod_inv_distrib, ← Finset.prod_mul_distrib,
    Lagrange.basis, eval_prod]
  refine Finset.prod_congr rfl fun j _ => ?_
  rw [Lagrange.basisDivisor, eval_mul, eval_C, eval_sub, eval_X, eval_C, zero_sub,
    ← neg_sub (v j) (v i), inv_neg, neg_mul_neg, mul_comm]

/-- No denominator is zero. -/
theorem lagrange_denominator_ne_zero (hv : Function.Injective v) (i : ι) (all : List ι) :
    ((all.filter (· ≠ i)).map fun j => v j - v i).prod ≠ 0 := by
  refine List.prod_ne_zero fun hzero => ?_
  obtain ⟨j, hj, heq⟩ := List.mem_map.1 hzero
  exact (of_decide_eq_true (List.mem_filter.1 hj).2) (hv (sub_eq_zero.1 heq))

/-- The weights do not depend on the order of the shares. -/
theorem lagrangeAtZero_perm {all all' : List ι} (h : all.Perm all') (i : ι) :
    lagrangeAtZero v i all = lagrangeAtZero v i all' := by
  rw [lagrangeAtZero, lagrangeAtZero, ((h.filter _).map _).prod_eq, ((h.filter _).map _).prod_eq]

/-- **Enough shares give the secret.** -/
theorem sum_lagrangeAtZero (hv : Function.Injective v) {all : List ι} (hnd : all.Nodup)
    {p : F[X]} (hp : p.degree < all.length) :
    (all.map fun i => lagrangeAtZero v i all * p.eval (v i)).sum = p.eval 0 := by
  have hcard : p.degree < all.toFinset.card := by rwa [List.toFinset_card_of_nodup hnd]
  have hinterpolate := Lagrange.eq_interpolate (hv.injOn (s := all.toFinset)) hcard
  have heval := congrArg (eval 0) hinterpolate
  rw [Lagrange.interpolate_apply, eval_finsetSum] at heval
  rw [heval, ← List.sum_toFinset _ hnd]
  refine Finset.sum_congr rfl fun i _ => ?_
  rw [eval_mul, eval_C, lagrangeAtZero_eq v hnd, mul_comm]

/-- The same in the exponent. -/
theorem sum_lagrangeAtZero_smul {P : Type} [AddCommGroup P] [Module F P]
    (hv : Function.Injective v) {all : List ι} (hnd : all.Nodup) {p : F[X]}
    (hp : p.degree < all.length) (R : P) :
    (all.map fun i => lagrangeAtZero v i all • p.eval (v i) • R).sum = p.eval 0 • R := by
  rw [← sum_lagrangeAtZero v hv hnd hp, List.sum_smul, List.map_map]
  refine congrArg List.sum (List.map_congr_left fun i _ => ?_)
  rw [Function.comp_apply, mul_smul]

/-- Values at enough points are those of a polynomial of small degree exactly when the remainder
by what vanishes at the points has that degree. -/
theorem exists_eval_eq_iff {s : Finset ι} (hv : Set.InjOn v s) {p : F[X]} {t : ℕ}
    (ht : t ≤ s.card) :
    (∃ f : F[X], f.degree < t ∧ ∀ i ∈ s, p.eval (v i) = f.eval (v i)) ↔
      (p %ₘ Lagrange.nodal s v).degree < t := by
  have hmonic := Lagrange.nodal_monic (s := s) (v := v)
  have heval : ∀ i ∈ s, (p %ₘ Lagrange.nodal s v).eval (v i) = p.eval (v i) := by
    intro i hi
    rw [modByMonic_eq_sub_mul_div, eval_sub, eval_mul, Lagrange.eval_nodal_at_node hi, zero_mul,
      sub_zero]
  constructor
  · rintro ⟨f, hf, hvalues⟩
    have hdegree : (p %ₘ Lagrange.nodal s v).degree < s.card := by
      rw [← Lagrange.degree_nodal (s := s) (v := v)]
      exact degree_modByMonic_lt p hmonic
    have hsame : p %ₘ Lagrange.nodal s v = f := by
      refine eq_of_degrees_lt_of_eval_index_eq s hv hdegree
        (hf.trans_le (by exact_mod_cast ht)) fun i hi => ?_
      rw [heval i hi, hvalues i hi]
    rwa [hsame]
  · intro hdegree
    exact ⟨_, hdegree, fun i hi => (heval i hi).symm⟩

end Reconstruction

/-! ### Commitments -/

/-- A commitment evaluated at a point, power by power. -/
theorem sum_powers_smul {P : Type} [AddCommGroup P] [Module F P] (cs : List F) (x : F) (G : P) :
    ((cs.map (· • G)).foldl (fun (acc : P × F) c => (acc.1 + acc.2 • c, acc.2 * x)) (0, 1)).1 =
      (poly cs).eval x • G := by
  have hgeneral : ∀ (cs : List F) (acc : P) (power : F),
      ((cs.map (· • G)).foldl (fun (acc : P × F) c => (acc.1 + acc.2 • c, acc.2 * x))
        (acc, power)).1 = acc + (power * (poly cs).eval x) • G := by
    intro cs
    induction cs with
    | nil => simp [poly]
    | cons c cs ih =>
      intro acc power
      rw [List.map_cons, List.foldl_cons, ih, eval_poly_cons, smul_smul, add_assoc, ← add_smul]
      ring_nf
  rw [hgeneral, zero_add, one_mul]

/-! ### Secrecy -/

section Secrecy

variable {ι : Type} [Fintype ι] (x : ι → F)

/-- A polynomial that moves the secret by `s` and no share. -/
noncomputable def mask (s : F) : F[X] := C s * ∏ i, (1 - C (x i)⁻¹ * X)

theorem eval_mask_zero (s : F) : (mask x s).eval 0 = s := by
  simp [mask, eval_prod]

theorem eval_mask_share (s : F) {i : ι} (hi : x i ≠ 0) : (mask x s).eval (x i) = 0 := by
  rw [mask, eval_mul, eval_prod, Finset.prod_eq_zero (Finset.mem_univ i), mul_zero]
  simp [hi]

theorem degree_mask_lt (s : F) {t : ℕ} (ht : Fintype.card ι < t) : (mask x s).degree < t := by
  have hfactor : ∀ i, (1 - C (x i)⁻¹ * X : F[X]).natDegree ≤ 1 := by
    intro i
    refine (natDegree_sub_le _ _).trans (max_le (by simp) ?_)
    exact (natDegree_C_mul_le _ _).trans natDegree_X_le
  have hprod : (∏ i, (1 - C (x i)⁻¹ * X : F[X])).natDegree ≤ Fintype.card ι :=
    calc (∏ i, (1 - C (x i)⁻¹ * X : F[X])).natDegree
        ≤ ∑ i, (1 - C (x i)⁻¹ * X : F[X]).natDegree := natDegree_prod_le _ _
      _ ≤ ∑ _i : ι, 1 := Finset.sum_le_sum fun i _ => hfactor i
      _ = Fintype.card ι := by simp
  have hmask : (mask x s).natDegree < t :=
    ((natDegree_C_mul_le _ _).trans hprod).trans_lt ht
  exact (degree_le_natDegree).trans_lt (by exact_mod_cast hmask)

/-- **Fewer shares than the threshold say nothing about the secret**: with any `s'` in place of
`s` as many coefficient vectors take the same values at the same points. -/
theorem card_sharings_eq [Fintype F] [DecidableEq F] (hx : ∀ i, x i ≠ 0) {t : ℕ}
    (ht : Fintype.card ι < t) (y : ι → F) (s s' : F) :
    (Finset.univ.filter fun a : Fin t → F =>
        (poly (List.ofFn a)).eval 0 = s ∧ ∀ i, (poly (List.ofFn a)).eval (x i) = y i).card =
      (Finset.univ.filter fun a : Fin t → F =>
        (poly (List.ofFn a)).eval 0 = s' ∧ ∀ i, (poly (List.ofFn a)).eval (x i) = y i).card := by
  let d : Fin t → F := fun i => (mask x (s' - s)).coeff i
  have hd : poly (List.ofFn d) = mask x (s' - s) := poly_ofFn_coeff (degree_mask_lt x _ ht)
  refine Finset.card_equiv (Equiv.addRight d) fun a => ?_
  have hshift : poly (List.ofFn (a + d)) = poly (List.ofFn a) + mask x (s' - s) := by
    rw [poly_ofFn_add, hd]
  rw [Finset.mem_filter, Finset.mem_filter, Equiv.coe_addRight, hshift, eval_add, eval_mask_zero]
  refine and_congr (by simp) (and_congr ?_ (forall_congr' fun i => ?_))
  · rw [← eq_sub_iff_add_eq, sub_sub_cancel]
  · rw [eval_add, eval_mask_share x _ (hx i), add_zero]

end Secrecy

end Shamir

end NovaChannel
