import Mathlib
import NovaChannel.Lib.Lucas
import NovaChannel.Wire

/-!
# Scalars and points

The scalars of Ristretto255 are the integers modulo the prime `ℓ`; the points are a group of that
order, taken from `curve25519-dalek`.

* `prime_groupOrder` : `ℓ` is prime, so scalars can be divided;
* `scalarFromId_injective` : participant ids are different evaluation points, and none is zero;
* `Ristretto` : the group, generated by its basepoint.
-/

namespace NovaChannel

namespace Mpc

open Wire (beBytes fromBe)

/-! ### The group order -/

/-- The order `ℓ` of the group. -/
def groupOrder : ℕ := 2 ^ 252 + 27742317777372353535851937790883648493

/-! The primes a factorization of `ℓ - 1` asks for, and those their own ask for. -/

theorem prime_factor_a : Nat.Prime 14741173 := by
  refine prime_of_lucas 2 [(2, 2), (3, 2), (409477, 1)] ?_
    (by norm_num) (by reduce_mod_char) ?_
  · simp only [List.forall_mem_cons]
    exact ⟨by norm_num, by norm_num, by norm_num, List.forall_mem_nil _⟩
  · simp only [List.forall_mem_cons]
    refine ⟨?_, ?_, ?_, List.forall_mem_nil _⟩
    all_goals norm_num; reduce_mod_char; decide

theorem prime_factor_b : Nat.Prime 58964693 := by
  refine prime_of_lucas 2 [(2, 2), (14741173, 1)] ?_
    (by norm_num) (by reduce_mod_char) ?_
  · simp only [List.forall_mem_cons]
    exact ⟨by norm_num, prime_factor_a, List.forall_mem_nil _⟩
  · simp only [List.forall_mem_cons]
    refine ⟨?_, ?_, List.forall_mem_nil _⟩
    all_goals norm_num; reduce_mod_char; decide

theorem prime_factor_c : Nat.Prime 292386187 := by
  refine prime_of_lucas 2 [(2, 1), (3, 4), (307, 1), (5879, 1)] ?_
    (by norm_num) (by reduce_mod_char) ?_
  · simp only [List.forall_mem_cons]
    exact ⟨by norm_num, by norm_num, by norm_num, by norm_num, List.forall_mem_nil _⟩
  · simp only [List.forall_mem_cons]
    refine ⟨?_, ?_, ?_, ?_, List.forall_mem_nil _⟩
    all_goals norm_num; reduce_mod_char; decide

theorem prime_factor_d : Nat.Prime 213441916511 := by
  refine prime_of_lucas 13 [(2, 1), (5, 1), (73, 1), (292386187, 1)] ?_
    (by norm_num) (by reduce_mod_char) ?_
  · simp only [List.forall_mem_cons]
    exact ⟨by norm_num, by norm_num, by norm_num, prime_factor_c, List.forall_mem_nil _⟩
  · simp only [List.forall_mem_cons]
    refine ⟨?_, ?_, ?_, ?_, List.forall_mem_nil _⟩
    all_goals norm_num; reduce_mod_char; decide

theorem prime_factor_e : Nat.Prime 1257559732178653 := by
  refine prime_of_lucas 2 [(2, 2), (3, 1), (7, 1), (23, 1), (531581, 1), (1224481, 1)] ?_
    (by norm_num) (by reduce_mod_char) ?_
  · simp only [List.forall_mem_cons]
    exact ⟨by norm_num, by norm_num, by norm_num, by norm_num, by norm_num, by norm_num,
      List.forall_mem_nil _⟩
  · simp only [List.forall_mem_cons]
    refine ⟨?_, ?_, ?_, ?_, ?_, ?_, List.forall_mem_nil _⟩
    all_goals norm_num; reduce_mod_char; decide

theorem prime_factor_f : Nat.Prime 4434155615661930479 := by
  refine prime_of_lucas 17 [(2, 1), (41, 1), (43, 1), (1257559732178653, 1)] ?_
    (by norm_num) (by reduce_mod_char) ?_
  · simp only [List.forall_mem_cons]
    exact ⟨by norm_num, by norm_num, by norm_num, prime_factor_e, List.forall_mem_nil _⟩
  · simp only [List.forall_mem_cons]
    refine ⟨?_, ?_, ?_, ?_, List.forall_mem_nil _⟩
    all_goals norm_num; reduce_mod_char; decide

theorem prime_factor_g : Nat.Prime 172054593956031949258510691 := by
  refine prime_of_lucas 2 [(2, 1), (5, 1), (1361, 1), (2851, 1), (4434155615661930479, 1)] ?_
    (by norm_num) (by reduce_mod_char) ?_
  · simp only [List.forall_mem_cons]
    exact ⟨by norm_num, by norm_num, by norm_num, by norm_num, prime_factor_f,
      List.forall_mem_nil _⟩
  · simp only [List.forall_mem_cons]
    refine ⟨?_, ?_, ?_, ?_, ?_, List.forall_mem_nil _⟩
    all_goals norm_num; reduce_mod_char; decide

theorem prime_factor_h : Nat.Prime 3044861653679985063343 := by
  refine prime_of_lucas 5 [(2, 1), (3, 1), (11, 1), (30703, 1),
    (82163, 1), (132667, 1), (137849, 1)] ?_ (by norm_num) (by reduce_mod_char) ?_
  · simp only [List.forall_mem_cons]
    exact ⟨by norm_num, by norm_num, by norm_num, by norm_num, by norm_num, by norm_num,
      by norm_num, List.forall_mem_nil _⟩
  · simp only [List.forall_mem_cons]
    refine ⟨?_, ?_, ?_, ?_, ?_, ?_, ?_, List.forall_mem_nil _⟩
    all_goals norm_num; reduce_mod_char; decide

theorem prime_factor_i : Nat.Prime 198211423230930754013084525763697 := by
  refine prime_of_lucas 5 [(2, 4), (3, 1), (23, 1), (58964693, 1), (3044861653679985063343, 1)] ?_
    (by norm_num) (by reduce_mod_char) ?_
  · simp only [List.forall_mem_cons]
    exact ⟨by norm_num, by norm_num, by norm_num, prime_factor_b, prime_factor_h,
      List.forall_mem_nil _⟩
  · simp only [List.forall_mem_cons]
    refine ⟨?_, ?_, ?_, ?_, ?_, List.forall_mem_nil _⟩
    all_goals norm_num; reduce_mod_char; decide

theorem prime_factor_j : Nat.Prime 19757330305831588566944191468367130476339 := by
  refine prime_of_lucas 2 [(2, 1), (269, 1), (213441916511, 1), (172054593956031949258510691, 1)] ?_
    (by norm_num) (by reduce_mod_char) ?_
  · simp only [List.forall_mem_cons]
    exact ⟨by norm_num, by norm_num, prime_factor_d, prime_factor_g, List.forall_mem_nil _⟩
  · simp only [List.forall_mem_cons]
    refine ⟨?_, ?_, ?_, ?_, List.forall_mem_nil _⟩
    all_goals norm_num; reduce_mod_char; decide

theorem prime_factor_k : Nat.Prime 276602624281642239937218680557139826668747 := by
  refine prime_of_lucas 2 [(2, 1), (7, 1), (19757330305831588566944191468367130476339, 1)] ?_
    (by norm_num) (by reduce_mod_char) ?_
  · simp only [List.forall_mem_cons]
    exact ⟨by norm_num, by norm_num, prime_factor_j, List.forall_mem_nil _⟩
  · simp only [List.forall_mem_cons]
    refine ⟨?_, ?_, ?_, List.forall_mem_nil _⟩
    all_goals norm_num; reduce_mod_char; decide

/-- **The order of the group is prime.** -/
theorem prime_groupOrder : Nat.Prime groupOrder := by
  rw [groupOrder]
  refine prime_of_lucas 2 [(2, 2), (3, 1), (11, 1), (198211423230930754013084525763697, 1),
    (276602624281642239937218680557139826668747, 1)] ?_ (by norm_num) (by reduce_mod_char) ?_
  · simp only [List.forall_mem_cons]
    exact ⟨by norm_num, by norm_num, by norm_num, prime_factor_i, prime_factor_k,
      List.forall_mem_nil _⟩
  · simp only [List.forall_mem_cons]
    refine ⟨?_, ?_, ?_, ?_, ?_, List.forall_mem_nil _⟩
    all_goals norm_num; reduce_mod_char; decide

instance : Fact (Nat.Prime groupOrder) := ⟨prime_groupOrder⟩

/-- `Scalar`. -/
abbrev Scalar : Type := ZMod groupOrder

/-- `Scalar::to_bytes`: 32 bytes, the lowest first. -/
def scalarBytes (s : Scalar) : Bytes := (beBytes 32 s.val).reverse

/-- `Scalar::from_canonical_bytes`. -/
def fromCanonicalBytes (bytes : Bytes) : Option Scalar :=
  if bytes.length = 32 ∧ fromBe bytes.reverse < groupOrder then some (fromBe bytes.reverse)
  else none

@[simp] theorem length_scalarBytes (s : Scalar) : (scalarBytes s).length = 32 := by
  rw [scalarBytes, List.length_reverse, Wire.length_beBytes]

theorem fromBe_scalarBytes (s : Scalar) : fromBe (scalarBytes s).reverse = s.val := by
  have hlt : s.val < groupOrder := s.val_lt
  have hbound : groupOrder < 256 ^ 32 := by norm_num [groupOrder]
  rw [scalarBytes, List.reverse_reverse, Wire.fromBe_beBytes (hlt.trans hbound)]

/-- A scalar is read back from its bytes. -/
@[simp] theorem fromCanonicalBytes_scalarBytes (s : Scalar) :
    fromCanonicalBytes (scalarBytes s) = some s := by
  have hlt : s.val < groupOrder := s.val_lt
  rw [fromCanonicalBytes, fromBe_scalarBytes, if_pos ⟨length_scalarBytes s, hlt⟩,
    ZMod.natCast_zmod_val]

theorem scalarBytes_injective : Function.Injective scalarBytes := by
  intro s s' h
  have hsome := congrArg fromCanonicalBytes h
  rw [fromCanonicalBytes_scalarBytes, fromCanonicalBytes_scalarBytes] at hsome
  exact Option.some.inj hsome

/-! ### Participant ids -/

/-- `u32`. -/
abbrev U32 : Type := Fin (2 ^ 32)

instance neZero_u32 : NeZero (2 ^ 32) := ⟨by decide⟩

/-- `ParticipantId`. -/
abbrev ParticipantId : Type := U32

/-- `is_valid_participant_id`. -/
def isValidParticipantId (id : ParticipantId) : Bool := id ≠ 0

/-- `scalar_from_id`. -/
def scalarFromId (id : ParticipantId) : Scalar := (id.val : Scalar)

/-- Different ids are different evaluation points. -/
theorem scalarFromId_injective : Function.Injective scalarFromId := by
  intro id id' h
  have hbound : 2 ^ 32 < groupOrder := by norm_num [groupOrder]
  have hid : id.val < groupOrder := id.isLt.trans hbound
  have hid' : id'.val < groupOrder := id'.isLt.trans hbound
  have hval := congrArg ZMod.val h
  rw [scalarFromId, scalarFromId, ZMod.val_natCast_of_lt hid, ZMod.val_natCast_of_lt hid'] at hval
  exact Fin.ext hval

@[simp] theorem scalarFromId_zero : scalarFromId 0 = 0 := Nat.cast_zero

/-- **A valid id is not the secret's own evaluation point.** -/
theorem scalarFromId_ne_zero {id : ParticipantId} (h : isValidParticipantId id = true) :
    scalarFromId id ≠ 0 := by
  rw [← scalarFromId_zero]
  exact fun heq => of_decide_eq_true h (scalarFromId_injective heq)

/-! ### Points -/

/-- Ristretto255: a group with a generator, over the scalars, and its encoding. -/
structure Ristretto (Point : Type) [AddCommGroup Point] [Module Scalar Point] where
  /-- `RISTRETTO_BASEPOINT_POINT`. -/
  basepoint : Point
  /-- Every point is one multiple of the basepoint. -/
  generates : Function.Bijective fun s : Scalar => s • basepoint
  /-- `compress`. -/
  compress : Point → Bytes

namespace Ristretto

variable {Point : Type} [AddCommGroup Point] [Module Scalar Point] (R : Ristretto Point)

theorem smul_basepoint_inj {s s' : Scalar} : s • R.basepoint = s' • R.basepoint ↔ s = s' :=
  R.generates.injective.eq_iff

theorem exists_log (P : Point) : ∃ s : Scalar, P = s • R.basepoint := by
  obtain ⟨s, hs⟩ := R.generates.surjective P
  exact ⟨s, hs.symm⟩

end Ristretto

/-- The scalars as points, for small runs. -/
def scalarGroup : Ristretto Scalar where
  basepoint := 1
  generates := by
    have hid : (fun s : Scalar => s • (1 : Scalar)) = id := by
      funext s
      rw [smul_eq_mul, mul_one, id]
    rw [hid]
    exact Function.bijective_id
  compress := scalarBytes

end Mpc

end NovaChannel
