import Mathlib

/-!
# The Poseidon2 permutation

Poseidon2 over the Goldilocks field, width 8, and the two-to-one compression made of it.  The
steps are written for any ring over the field, as the constraints use them too.

* `prime_modulus` : the modulus is prime;
* `stateAfter` : the state after the first steps of a permutation, and `compress2` its lane 0
  after the last.
-/

namespace NovaChannel

namespace Rln

/-! ### The field -/

/-- The Goldilocks modulus, `2 ^ 64 - 2 ^ 32 + 1`. -/
abbrev modulus : ℕ := 18446744069414584321

/-- `winterfell`'s `f64::BaseElement`. -/
abbrev BaseElement : Type := ZMod modulus

/-- Lucas's test with the base 7: `p - 1 = 2 ^ 32 * 3 * 5 * 17 * 257 * 65537`. -/
theorem prime_modulus : Nat.Prime modulus := by
  refine lucas_primality modulus 7 (by reduce_mod_char) fun q hq hd => ?_
  have hfac : modulus - 1 = 2 ^ 32 * 3 * 5 * 17 * 257 * 65537 := by norm_num
  rw [hfac] at hd ⊢
  have hprime : ∀ r, Nat.Prime r → q ∣ r → q = r := fun r hr =>
    (Nat.prime_dvd_prime_iff_eq hq hr).1
  simp only [hq.dvd_mul] at hd
  -- one power for each prime factor
  rcases hd with ((((hd | hd) | hd) | hd) | hd) | hd
  · obtain rfl := hprime 2 Nat.prime_two (hq.dvd_of_dvd_pow hd)
    norm_num
    reduce_mod_char
    decide
  · obtain rfl := hprime 3 Nat.prime_three hd
    norm_num
    reduce_mod_char
    decide
  · obtain rfl := hprime 5 Nat.prime_five hd
    norm_num
    reduce_mod_char
    decide
  · obtain rfl := hprime 17 (by norm_num) hd
    norm_num
    reduce_mod_char
    decide
  · obtain rfl := hprime 257 (by norm_num) hd
    norm_num
    reduce_mod_char
    decide
  · obtain rfl := hprime 65537 (by norm_num) hd
    norm_num
    reduce_mod_char
    decide

instance : Fact (Nat.Prime modulus) := ⟨prime_modulus⟩

/-! ### The steps -/

/-- `HALF_FULL_ROUNDS`. -/
def halfFullRounds : ℕ := 4
/-- `PARTIAL_ROUNDS`. -/
def partialRounds : ℕ := 22
/-- `ROUNDS`: the steps of a permutation. -/
def rounds : ℕ := 1 + 2 * halfFullRounds + partialRounds

/-- A permutation state. -/
abbrev State (E : Type) : Type := Fin 8 → E

instance neZeroLanes : NeZero 8 := ⟨by decide⟩

/-- Which mixing and S-box shape a step uses. -/
inductive StepKind
  | linearOnly
  | full
  | partialRound
  deriving DecidableEq

/-- `step_kind_at`. -/
def stepKindAt (i : ℕ) : StepKind :=
  if i = 0 then .linearOnly
  else if i ≤ halfFullRounds then .full
  else if i ≤ halfFullRounds + partialRounds then .partialRound
  else .full

section Steps

variable {E : Type} [CommRing E]

/-- `sbox`: the seventh power. -/
def sbox (x : E) : E :=
  let x2 := x * x
  let x4 := x2 * x2
  let x6 := x4 * x2
  x6 * x

/-- `mds4`. -/
def mds4 (x : Fin 4 → E) : Fin 4 → E :=
  let t01 := x 0 + x 1
  let t23 := x 2 + x 3
  let t0123 := t01 + t23
  let t01123 := t0123 + x 1
  let t01233 := t0123 + x 3
  ![t01123 + t01, t01123 + x 2 + x 2, t01233 + t23, t01233 + x 0 + x 0]

/-- `mds_light`: the external layer. -/
def mdsLight (state : State E) : State E :=
  let lo := mds4 ![state 0, state 1, state 2, state 3]
  let hi := mds4 ![state 4, state 5, state 6, state 7]
  ![lo 0 + (lo 0 + hi 0), lo 1 + (lo 1 + hi 1), lo 2 + (lo 2 + hi 2), lo 3 + (lo 3 + hi 3),
    hi 0 + (lo 0 + hi 0), hi 1 + (lo 1 + hi 1), hi 2 + (lo 2 + hi 2), hi 3 + (lo 3 + hi 3)]

/-- `full_round`. -/
def fullRound (state rc : State E) : State E :=
  mdsLight ![sbox (state 0 + rc 0), sbox (state 1 + rc 1), sbox (state 2 + rc 2),
    sbox (state 3 + rc 3), sbox (state 4 + rc 4), sbox (state 5 + rc 5), sbox (state 6 + rc 6),
    sbox (state 7 + rc 7)]

/-- `INTERNAL_DIAG`: `-2, 1, 2, 1/2, 3, -1/2, -3, -4`. -/
def internalDiag : State BaseElement :=
  ![0xfffffffeffffffff, 0x0000000000000001, 0x0000000000000002, 0x7fffffff80000001,
    0x0000000000000003, 0x7fffffff80000000, 0xfffffffefffffffe, 0xfffffffefffffffd]

variable [Algebra BaseElement E]

/-- `internal_diffuse`. -/
def internalDiffuse (state : State E) : State E :=
  let sum := state 0 + state 1 + state 2 + state 3 + state 4 + state 5 + state 6 + state 7
  fun i => sum + algebraMap BaseElement E (internalDiag i) * state i

/-- `partial_round`. -/
def partialRound (state : State E) (rcLane0 : E) : State E :=
  internalDiffuse ![sbox (state 0 + rcLane0), state 1, state 2, state 3, state 4, state 5, state 6,
    state 7]

/-- `apply_step`. -/
def applyStep (state : State E) (kind : StepKind) (rc : State E) : State E :=
  match kind with
  | .linearOnly => mdsLight state
  | .full => fullRound state rc
  | .partialRound => partialRound state (rc 0)

end Steps

/-! ### The constants -/

/-- `EXTERNAL_INITIAL`. -/
def externalInitial : List (State BaseElement) :=
  [![0xdd5743e7f2a5a5d9, 0xcb3a864e58ada44b, 0xffa2449ed32f8cdc, 0x42025f65d6bd13ee,
      0x7889175e25506323, 0x34b98bb03d24b737, 0xbdcc535ecc4faa2a, 0x5b20ad869fc0d033],
    ![0xf1dda5b9259dfcb4, 0x27515210be112d59, 0x4227d1718c766c3f, 0x26d333161a5bd794,
      0x49b938957bf4b026, 0x4a56b5938b213669, 0x1120426b48c8353d, 0x6b323c3f10a56cad],
    ![0xce57d6245ddca6b2, 0xb1fc8d402bba1eb1, 0xb5c5096ca959bd04, 0x6db55cd306d31f7f,
      0xc49d293a81cb9641, 0x1ce55a4fe979719f, 0xa92e60a9d178a4d1, 0x002cc64973bcfd8c],
    ![0xcea721cce82fb11b, 0xe5b55eb8098ece81, 0x4e30525c6f1ddd66, 0x43c6702827070987,
      0xaca68430a7b5762a, 0x3674238634df9c93, 0x88cee1c825e33433, 0xde99ae8d74b57176]]

/-- `EXTERNAL_FINAL`. -/
def externalFinal : List (State BaseElement) :=
  [![0x014ef1197d341346, 0x9725e20825d07394, 0xfdb25aef2c5bae3b, 0xbe5402dc598c971e,
      0x93a5711f04cdca3d, 0xc45a9a5b2f8fb97b, 0xfe8946a924933545, 0x2af997a27369091c],
    ![0xaa62c88e0b294011, 0x058eb9d810ce9f74, 0xb3cb23eced349ae4, 0xa3648177a77b4a84,
      0x43153d905992d95d, 0xf4e2a97cda44aa4b, 0x5baa2702b908682f, 0x082923bdf4f750d1],
    ![0x98ae09a325893803, 0xf8a6475077968838, 0xceb0735bf00b2c5f, 0x0a1a5d953888e072,
      0x2fcb190489f94475, 0xb5be06270dec69fc, 0x739cb934b09acf8b, 0x537750b75ec7f25b],
    ![0xe9dd318bae1f3961, 0xf7462137299efe1a, 0xb1f6b8eee9adb940, 0xbdebcc8a809dfe6b,
      0x40fc1f791b178113, 0x3ac1c3362d014864, 0x9a016184bdb8aeba, 0x95f2394459fbc25e]]

/-- `INTERNAL`. -/
def internal : List BaseElement :=
  [0x488897d85ff51f56, 0x1140737ccb162218, 0xa7eeb9215866ed35, 0x9bd2976fee49fcc9,
    0xc0c8f0de580a3fcc, 0x4fb2dae6ee8fc793, 0x343a89f35f37395b, 0x223b525a77ca72c8,
    0x56ccb62574aaa918, 0xc4d507d8027af9ed, 0xa080673cf0b7e95c, 0xf0184884eb70dcf8,
    0x044f10b0cb3d5c69, 0xe9e3f7993938f186, 0x1b761c80e772f459, 0x606cec607a1b5fac,
    0x14a0c2e1d45f03cd, 0x4eace8855398574f, 0xf905ca7103eff3e6, 0xf8c8f8d20862c059,
    0xb524fe8bdd678e5a, 0xfbb7865901a1ec41]

/-- `step_round_constants`, the row of one step. -/
def stepRoundConstants (i : ℕ) : State BaseElement :=
  match stepKindAt i with
  | .linearOnly => fun _ => 0
  | .full =>
    if i ≤ halfFullRounds then (externalInitial[i - 1]?).getD fun _ => 0
    else (externalFinal[i - (halfFullRounds + partialRounds) - 1]?).getD fun _ => 0
  | .partialRound => ![(internal[i - halfFullRounds - 1]?).getD 0, 0, 0, 0, 0, 0, 0, 0]

/-- `Params`. -/
structure Params where
  roundConstants : ℕ → State BaseElement

/-- `Params::new`. -/
def Params.new : Params := ⟨stepRoundConstants⟩

/-! ### The permutation -/

/-- The state after the first `r` steps. -/
def stateAfter (params : Params) (input : State BaseElement) : ℕ → State BaseElement
  | 0 => input
  | r + 1 => applyStep (stateAfter params input r) (stepKindAt r) (params.roundConstants r)

/-- `trace_permutation`: the input and the states after each step. -/
def tracePermutation (params : Params) (input : State BaseElement) : List (State BaseElement) :=
  (List.range (rounds + 1)).map (stateAfter params input)

theorem tracePermutation_ne_nil (params : Params) (input : State BaseElement) :
    tracePermutation params input ≠ [] := by
  simp [tracePermutation]

theorem getLast_tracePermutation (params : Params) (input : State BaseElement) :
    (tracePermutation params input).getLast (tracePermutation_ne_nil _ _) =
      stateAfter params input rounds := by
  rw [List.getLast_eq_getElem]
  simp [tracePermutation]

/-- The reference vector of the source's tests, lanes 0 and 7. -/
example : stateAfter .new (fun i => (i : ℕ)) rounds 0 = 0x020cf04a1b214d14 ∧
    stateAfter .new (fun i => (i : ℕ)) rounds 7 = 0xf415abb924da395b := by decide +kernel

/-- The input of a compression: two active lanes. -/
def hashInput {E : Type} [Zero E] (left right : E) : State E := ![left, right, 0, 0, 0, 0, 0, 0]

/-- `compress2`. -/
def compress2 (params : Params) (left right : BaseElement) : BaseElement :=
  (tracePermutation params (hashInput left right)).getLast (tracePermutation_ne_nil _ _) 0

theorem compress2_eq (params : Params) (left right : BaseElement) :
    compress2 params left right = stateAfter params (hashInput left right) rounds 0 := by
  rw [compress2, getLast_tracePermutation]

end Rln

end NovaChannel
