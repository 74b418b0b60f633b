import NovaChannel.Rln.Permutation

/-!
# The permutation is a bijection

Every step of the permutation is injective, so on the finite state space it is a bijection.

* `sbox_injective` : seven is prime to `p - 1`;
* `mdsLight_injective`, `internalDiffuse_injective` : the two linear layers are non-singular;
* `applyStep_bijective`, `tracePermutation_bijective` : the steps and the whole permutation.
-/

namespace NovaChannel

namespace Rln

/-! ### The S-box -/

theorem sbox_eq {E : Type} [CommRing E] (x : E) : sbox x = x ^ 7 := by
  simp only [sbox]
  ring

/-- The inverse of the S-box is the power by the inverse of 7 modulo `p - 1`. -/
theorem sbox_injective : Function.Injective (sbox : BaseElement → BaseElement) := by
  refine Function.LeftInverse.injective (g := fun y => y ^ 10540996611094048183) fun x => ?_
  simp only [sbox_eq]
  rw [← pow_mul]
  by_cases hx : x = 0
  · subst hx
    rw [zero_pow (by decide)]
  · -- the exponent is one more than a multiple of the order of the unit group
    have hexp : 7 * 10540996611094048183 = (modulus - 1) * 4 + 1 := by decide
    rw [hexp, pow_add, pow_mul, ZMod.pow_card_sub_one_eq_one hx, one_pow, one_mul, pow_one]

/-! ### The linear layers -/

theorem eq_of_mul_eq_zero {k x y : BaseElement} (hk : k ≠ 0) (h : k * (x - y) = 0) : x = y :=
  sub_eq_zero.1 ((mul_eq_zero.1 h).resolve_left hk)

/-- The rows of the adjugate recover the lanes, 35 times. -/
theorem mds4_injective : Function.Injective (mds4 : (Fin 4 → BaseElement) → Fin 4 → BaseElement) := by
  intro x y h
  have h0 : x 0 + x 1 + (x 2 + x 3) + x 1 + (x 0 + x 1) =
      y 0 + y 1 + (y 2 + y 3) + y 1 + (y 0 + y 1) := congrFun h 0
  have h1 : x 0 + x 1 + (x 2 + x 3) + x 1 + x 2 + x 2 =
      y 0 + y 1 + (y 2 + y 3) + y 1 + y 2 + y 2 := congrFun h 1
  have h2 : x 0 + x 1 + (x 2 + x 3) + x 3 + (x 2 + x 3) =
      y 0 + y 1 + (y 2 + y 3) + y 3 + (y 2 + y 3) := congrFun h 2
  have h3 : x 0 + x 1 + (x 2 + x 3) + x 3 + x 0 + x 0 =
      y 0 + y 1 + (y 2 + y 3) + y 3 + y 0 + y 0 := congrFun h 3
  have hk : (35 : BaseElement) ≠ 0 := by decide
  have e0 : x 0 = y 0 :=
    eq_of_mul_eq_zero hk (by linear_combination -4 * h0 + 3 * h1 - 11 * h2 + 17 * h3)
  have e1 : x 1 = y 1 :=
    eq_of_mul_eq_zero hk (by linear_combination 17 * h0 - 4 * h1 + 3 * h2 - 11 * h3)
  have e2 : x 2 = y 2 :=
    eq_of_mul_eq_zero hk (by linear_combination -11 * h0 + 17 * h1 - 4 * h2 + 3 * h3)
  have e3 : x 3 = y 3 :=
    eq_of_mul_eq_zero hk (by linear_combination 3 * h0 - 11 * h1 + 17 * h2 - 4 * h3)
  funext i
  fin_cases i
  · exact e0
  · exact e1
  · exact e2
  · exact e3

/-- The two halves are recovered from their mix, three times. -/
theorem mdsLight_injective : Function.Injective (mdsLight : State BaseElement → State BaseElement) := by
  intro x y h
  have hk : (3 : BaseElement) ≠ 0 := by decide
  -- the mix of one lane of each half
  have hmix : ∀ a b a' b' : BaseElement, a + (a + b) = a' + (a' + b') →
      b + (a + b) = b' + (a' + b') → a = a' ∧ b = b' := by
    intro a b a' b' h1 h2
    exact ⟨eq_of_mul_eq_zero hk (by linear_combination 2 * h1 - h2),
      eq_of_mul_eq_zero hk (by linear_combination 2 * h2 - h1)⟩
  obtain ⟨hlo0, hhi0⟩ := hmix _ _ _ _ (congrFun h 0) (congrFun h 4)
  obtain ⟨hlo1, hhi1⟩ := hmix _ _ _ _ (congrFun h 1) (congrFun h 5)
  obtain ⟨hlo2, hhi2⟩ := hmix _ _ _ _ (congrFun h 2) (congrFun h 6)
  obtain ⟨hlo3, hhi3⟩ := hmix _ _ _ _ (congrFun h 3) (congrFun h 7)
  have hlo : mds4 ![x 0, x 1, x 2, x 3] = mds4 ![y 0, y 1, y 2, y 3] := by
    funext i
    fin_cases i
    · exact hlo0
    · exact hlo1
    · exact hlo2
    · exact hlo3
  have hhi : mds4 ![x 4, x 5, x 6, x 7] = mds4 ![y 4, y 5, y 6, y 7] := by
    funext i
    fin_cases i
    · exact hhi0
    · exact hhi1
    · exact hhi2
    · exact hhi3
  have hlo := mds4_injective hlo
  have hhi := mds4_injective hhi
  funext i
  fin_cases i
  · exact congrFun hlo 0
  · exact congrFun hlo 1
  · exact congrFun hlo 2
  · exact congrFun hlo 3
  · exact congrFun hhi 0
  · exact congrFun hhi 1
  · exact congrFun hhi 2
  · exact congrFun hhi 3

/-- The diagonal is `-2, 1, 2, 1/2, 3, -1/2, -3, -4`. -/
theorem internalDiag_eq : internalDiag =
    ![-2, 1, 2, 9223372034707292161, 3, -9223372034707292161, -3, -4] := by
  decide

/-- The sum of the lanes is recovered first, 21 times; then every lane from it. -/
theorem internalDiffuse_injective :
    Function.Injective (internalDiffuse : State BaseElement → State BaseElement) := by
  intro x y h
  have hlane : ∀ i, x 0 + x 1 + x 2 + x 3 + x 4 + x 5 + x 6 + x 7 + internalDiag i * x i =
      y 0 + y 1 + y 2 + y 3 + y 4 + y 5 + y 6 + y 7 + internalDiag i * y i := fun i => congrFun h i
  rw [internalDiag_eq] at hlane
  have h0 := hlane 0
  have h1 := hlane 1
  have h2 := hlane 2
  have h3 := hlane 3
  have h4 := hlane 4
  have h5 := hlane 5
  have h6 := hlane 6
  have h7 := hlane 7
  simp only [Matrix.cons_val] at h0 h1 h2 h3 h4 h5 h6 h7
  have hhalf : (2 : BaseElement) * 9223372034707292161 = 1 := by decide
  have hsum : x 0 + x 1 + x 2 + x 3 + x 4 + x 5 + x 6 + x 7 =
      y 0 + y 1 + y 2 + y 3 + y 4 + y 5 + y 6 + y 7 := by
    refine eq_of_mul_eq_zero (show (21 : BaseElement) ≠ 0 by decide) ?_
    linear_combination (-6) * h0 + 12 * h1 + 6 * h2 + 24 * h3 + 4 * h4 - 24 * h5 - 4 * h6 - 3 * h7 -
      12 * (x 3 - y 3) * hhalf - 12 * (x 5 - y 5) * hhalf
  have hcancel : ∀ i, internalDiag i * (x i - y i) = 0 := by
    intro i
    have hi : x 0 + x 1 + x 2 + x 3 + x 4 + x 5 + x 6 + x 7 + internalDiag i * x i =
      y 0 + y 1 + y 2 + y 3 + y 4 + y 5 + y 6 + y 7 + internalDiag i * y i := congrFun h i
    linear_combination hi - hsum
  have hne : ∀ i, internalDiag i ≠ 0 := by decide
  funext i
  exact eq_of_mul_eq_zero (hne i) (hcancel i)

/-! ### The steps -/

/-- **Every step is invertible**, whatever its constants. -/
theorem applyStep_bijective (kind : StepKind) (rc : State BaseElement) :
    Function.Bijective fun state : State BaseElement => applyStep state kind rc := by
  refine Finite.injective_iff_bijective.1 fun x y h => ?_
  cases kind with
  | linearOnly => exact mdsLight_injective h
  | full =>
    have hboxed := mdsLight_injective h
    funext i
    have hi := congrFun hboxed i
    fin_cases i
    all_goals exact add_right_cancel (sbox_injective hi)
  | partialRound =>
    have hboxed := internalDiffuse_injective h
    funext i
    have hi := congrFun hboxed i
    fin_cases i
    · exact add_right_cancel (sbox_injective hi)
    all_goals exact hi

theorem stateAfter_bijective (params : Params) (r : ℕ) :
    Function.Bijective fun input => stateAfter params input r := by
  induction r with
  | zero => exact Function.bijective_id
  | succ r ih => exact (applyStep_bijective (stepKindAt r) (params.roundConstants r)).comp ih

/-- **The permutation is a bijection**: the last state of a trace determines its input, every state
is the last one of some trace, and each of the steps is invertible. -/
theorem tracePermutation_bijective :
    (Function.Bijective fun input : State BaseElement =>
      (tracePermutation .new input).getLast (tracePermutation_ne_nil .new input)) ∧
    ∀ kind (rc : State BaseElement),
      Function.Bijective fun state : State BaseElement => applyStep state kind rc := by
  refine ⟨?_, applyStep_bijective⟩
  simp only [getLast_tracePermutation]
  exact stateAfter_bijective .new rounds

end Rln

end NovaChannel
