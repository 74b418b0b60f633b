import NovaChannel.Lib.Shamir
import NovaChannel.Lib.SortedMap
import NovaChannel.Mpc.Scalar

/-!
# Dealers and complaints

A dealer shares a secret of its own: the values of a polynomial at the participants' ids, and the
polynomial's coefficients in the exponent as a commitment.  A participant that finds fault with its
share complains, and anyone can judge the share the dealer discloses.

* `evaluateCommitment_eq` : **a commitment evaluates to the share in the exponent**;
* `verifyShare_iff` : what passes for a share of an honest dealer;
* `unblamed_iff` : when a complaint cannot disqualify an honest dealer.
-/

namespace NovaChannel

namespace Mpc

open Shamir (poly)

/-! ### Polynomials -/

/-- `evaluate`. -/
def evaluate (coefficients : List Scalar) (x : Scalar) : Scalar :=
  coefficients.reverse.foldl (fun acc c => acc * x + c) 0

theorem evaluate_eq (coefficients : List Scalar) (x : Scalar) :
    evaluate coefficients x = (poly coefficients).eval x :=
  Shamir.horner_eq coefficients x

section Definitions

variable {Point : Type} [AddCommGroup Point] [Module Scalar Point] (R : Ristretto Point)

/-- `evaluate_commitment`. -/
def evaluateCommitment (commitments : List Point) (id : Scalar) : Point :=
  (commitments.foldl (fun (acc : Point × Scalar) c => (acc.1 + acc.2 • c, acc.2 * id)) (0, 1)).1

/-- A commitment evaluates to the value of the polynomial in the exponent. -/
theorem evaluateCommitment_eq (coefficients : List Scalar) (x : Scalar) :
    evaluateCommitment (coefficients.map (· • R.basepoint)) x =
      evaluate coefficients x • R.basepoint := by
  rw [evaluate_eq]
  exact Shamir.sum_powers_smul coefficients x R.basepoint

/-! ### Dealers -/

/-- `Dealer`: a polynomial of `threshold` coefficients and its commitments. -/
structure Dealer where
  threshold : U32
  numParticipants : U32
  coefficients : List Scalar
  commitments : List Point
  threshold_pos : 1 ≤ threshold
  threshold_le : threshold ≤ numParticipants
  length_coefficients : coefficients.length = threshold.val
  commits : commitments = coefficients.map (· • R.basepoint)

/-- `Dealer::new`, on the scalars its generator draws; `none` is a failed assertion. -/
def Dealer.new (threshold numParticipants : U32) (draws : ℕ → Scalar) : Option (Dealer R) :=
  if h : 1 ≤ threshold ∧ threshold ≤ numParticipants then
    let coefficients := (List.range threshold.val).map draws
    some {
      threshold := threshold
      numParticipants := numParticipants
      coefficients := coefficients
      commitments := coefficients.map (· • R.basepoint)
      threshold_pos := h.1
      threshold_le := h.2
      length_coefficients := by rw [List.length_map, List.length_range]
      commits := rfl }
  else none

/-- The participants `1..=n`. -/
def participants (n : U32) : List ParticipantId :=
  (List.finRange n.val).map fun i => ⟨i.val + 1, by omega⟩

theorem mem_participants {n : U32} {id : ParticipantId} :
    id ∈ participants n ↔ isValidParticipantId id = true ∧ id ≤ n := by
  rw [participants, List.mem_map, isValidParticipantId, decide_eq_true_iff, Fin.le_def, ne_eq,
    Fin.ext_iff]
  constructor
  · rintro ⟨i, -, rfl⟩
    exact ⟨by simp, i.isLt⟩
  · rintro ⟨hpos, hle⟩
    have hpos : id.val ≠ 0 := hpos
    exact ⟨⟨id.val - 1, by omega⟩, List.mem_finRange _, Fin.ext (by simp only; omega)⟩

theorem sorted_participants (n : U32) : (participants n).Pairwise (· < ·) := by
  rw [participants, List.pairwise_map]
  exact (List.pairwise_lt_finRange n.val).imp fun h => by
    rw [Fin.lt_def] at h ⊢
    simp only
    omega

variable {R} in
/-- `Dealer::reveal`: the commitments, and a share for every participant. -/
def Dealer.reveal (d : Dealer R) : List Point × SortedMap ParticipantId Scalar :=
  (d.commitments, {
    toList := (participants d.numParticipants).map fun id =>
      (id, evaluate d.coefficients (scalarFromId id))
    sorted := List.pairwise_map.2 (sorted_participants d.numParticipants) })

variable {R} in
/-- `Dealer::share_for`. -/
def Dealer.shareFor (d : Dealer R) (participantId : ParticipantId) : Option Scalar :=
  if isValidParticipantId participantId = false ∨ participantId > d.numParticipants then none
  else some (evaluate d.coefficients (scalarFromId participantId))

/-! ### Complaints -/

/-- `Complaint`. -/
structure Complaint where
  accuser : ParticipantId
  dealerIndex : ℕ
  receivedShare : Scalar

/-- `ComplaintVerdict`. -/
inductive ComplaintVerdict
  | malformedComplaint
  | dealerCannotProduceAValidShare
  | disclosureIsValidButContradictsTheAccusersClaim
  | complaintWasUnfounded
  deriving DecidableEq, Repr

/-- `is_faulty`. -/
def ComplaintVerdict.isFaulty : ComplaintVerdict → Bool
  | .dealerCannotProduceAValidShare => true
  | _ => false

variable [DecidableEq Point]

/-- `verify_share`. -/
def verifyShare (commitments : List Point) (participantId : ParticipantId) (share : Scalar) :
    Bool :=
  if isValidParticipantId participantId = false then false
  else
    let expected := evaluateCommitment commitments (scalarFromId participantId)
    share • R.basepoint = expected

/-- `resolve_complaint`. -/
def resolveComplaint (dealerCommitments : List Point) (complaint : Complaint)
    (disclosedShare : Scalar) : ComplaintVerdict :=
  if isValidParticipantId complaint.accuser = false then .malformedComplaint
  else if verifyShare R dealerCommitments complaint.accuser disclosedShare = false then
    .dealerCannotProduceAValidShare
  else if disclosedShare ≠ complaint.receivedShare then
    .disclosureIsValidButContradictsTheAccusersClaim
  else .complaintWasUnfounded

end Definitions

/-! ### Shares -/

section Shares

variable {Point : Type} [AddCommGroup Point] [Module Scalar Point] {R : Ristretto Point}

/-- A share is disclosed for the ids that were dealt to, and is the one that was dealt. -/
theorem Dealer.shareFor_eq_some {d : Dealer R} {id : ParticipantId} {share : Scalar} :
    d.shareFor id = some share ↔
      id ∈ participants d.numParticipants ∧ share = evaluate d.coefficients (scalarFromId id) := by
  rw [Dealer.shareFor, mem_participants]
  by_cases hvalid : isValidParticipantId id = true
  · by_cases hle : id ≤ d.numParticipants
    · rw [if_neg (by simp [hvalid, hle])]
      simp [hvalid, hle, eq_comm]
    · rw [if_pos (.inr (not_le.1 hle))]
      simp [hle]
  · rw [if_pos (.inl (by simpa using hvalid))]
    simp [hvalid]

theorem Dealer.shareFor_eq_none {d : Dealer R} {id : ParticipantId} :
    d.shareFor id = none ↔ id ∉ participants d.numParticipants := by
  rw [Option.eq_none_iff_forall_ne_some]
  constructor
  · intro h hmem
    exact h _ (Dealer.shareFor_eq_some.2 ⟨hmem, rfl⟩)
  · intro h share hs
    exact h (Dealer.shareFor_eq_some.1 hs).1

theorem Dealer.mem_reveal {d : Dealer R} {id : ParticipantId} {share : Scalar} :
    (id, share) ∈ d.reveal.2.toList ↔
      id ∈ participants d.numParticipants ∧ share = evaluate d.coefficients (scalarFromId id) := by
  rw [Dealer.reveal, List.mem_map]
  constructor
  · rintro ⟨i, hi, heq⟩
    obtain ⟨rfl, rfl⟩ := Prod.mk.inj heq
    exact ⟨hi, rfl⟩
  · rintro ⟨hi, rfl⟩
    exact ⟨id, hi, rfl⟩

variable [DecidableEq Point]

/-- **What passes for a share of an honest dealer**: the value of its polynomial, and nothing
else. -/
theorem verifyShare_iff (coefficients : List Scalar) {id : ParticipantId} (share : Scalar) :
    verifyShare R (coefficients.map (· • R.basepoint)) id share = true ↔
      isValidParticipantId id = true ∧ share = evaluate coefficients (scalarFromId id) := by
  rw [verifyShare]
  by_cases hvalid : isValidParticipantId id = true
  · rw [if_neg (by simp [hvalid])]
    simp only [evaluateCommitment_eq, decide_eq_true_iff, R.smul_basepoint_inj, hvalid, true_and]
  · rw [if_pos (by simpa using hvalid)]
    simp [hvalid]

/-- What makes a verdict a faulty one. -/
theorem isFaulty_resolveComplaint (commitments : List Point) (complaint : Complaint)
    (disclosedShare : Scalar) :
    (resolveComplaint R commitments complaint disclosedShare).isFaulty = true ↔
      isValidParticipantId complaint.accuser = true ∧
        verifyShare R commitments complaint.accuser disclosedShare = false := by
  rw [resolveComplaint]
  split_ifs with hvalid hverify hclaim
  · simp [ComplaintVerdict.isFaulty, hvalid]
  · simp [ComplaintVerdict.isFaulty, hverify, hvalid]
  · simp [ComplaintVerdict.isFaulty, hverify]
  · simp [ComplaintVerdict.isFaulty, hverify]

/-- A complaint does not disqualify the dealer: not by the share the dealer discloses, and not by
whatever stands in for it when the dealer rightly discloses none. -/
def Unblamed (d : Dealer R) (complaint : Complaint) : Prop :=
  (∀ share, d.shareFor complaint.accuser = some share →
    (resolveComplaint R d.commitments complaint share).isFaulty = false) ∧
  (d.shareFor complaint.accuser = none → ∀ standIn,
    (resolveComplaint R d.commitments complaint standIn).isFaulty = false)

/-- A verdict on an honest dealer is faulty on any other share of a valid id. -/
theorem Dealer.isFaulty_iff (d : Dealer R) (complaint : Complaint) (disclosedShare : Scalar) :
    (resolveComplaint R d.commitments complaint disclosedShare).isFaulty = true ↔
      isValidParticipantId complaint.accuser = true ∧
        disclosedShare ≠ evaluate d.coefficients (scalarFromId complaint.accuser) := by
  rw [isFaulty_resolveComplaint, ← Bool.not_eq_true, d.commits, verifyShare_iff]
  constructor
  · rintro ⟨hvalid, hne⟩
    exact ⟨hvalid, fun heq => hne ⟨hvalid, heq⟩⟩
  · rintro ⟨hvalid, hne⟩
    exact ⟨hvalid, fun h => hne h.2⟩

/-- **When a complaint cannot disqualify an honest dealer**: its accuser is zero or one of the
participants.  Past the last one the dealer discloses nothing, and that counts against it. -/
theorem unblamed_iff (d : Dealer R) (complaint : Complaint) :
    Unblamed d complaint ↔ complaint.accuser ≤ d.numParticipants := by
  constructor
  · intro h
    by_contra hle
    have hnone : d.shareFor complaint.accuser = none :=
      Dealer.shareFor_eq_none.2 fun hmem => hle (mem_participants.1 hmem).2
    have hvalid : isValidParticipantId complaint.accuser = true := by
      refine decide_eq_true fun hzero => hle ?_
      rw [hzero]
      exact Fin.zero_le _
    have hfault := (d.isFaulty_iff complaint
      (evaluate d.coefficients (scalarFromId complaint.accuser) + 1)).2 ⟨hvalid, by simp⟩
    rw [h.2 hnone] at hfault
    cases hfault
  · intro hle
    refine ⟨fun share hshare => ?_, fun hnone standIn => ?_⟩
    · obtain ⟨-, rfl⟩ := Dealer.shareFor_eq_some.1 hshare
      rw [← Bool.not_eq_true, d.isFaulty_iff]
      exact fun h => h.2 rfl
    · have hinvalid : isValidParticipantId complaint.accuser ≠ true := fun hvalid =>
        Dealer.shareFor_eq_none.1 hnone (mem_participants.2 ⟨hvalid, hle⟩)
      rw [← Bool.not_eq_true, d.isFaulty_iff]
      exact fun h => hinvalid h.1

/-- The one participant's dealer, accused by a second. -/
theorem exists_blamed : ∃ d : Dealer scalarGroup, Dealer.new scalarGroup 1 1 (fun _ => 1) = some d ∧
    ¬ Unblamed d ⟨2, 0, 0⟩ := by
  refine ⟨_, rfl, fun h => ?_⟩
  have hnone := h.2 (by decide) 0
  rw [← Bool.not_eq_true, Dealer.isFaulty_iff] at hnone
  exact hnone ⟨by decide, by simp [evaluate]⟩

end Shares

end Mpc

end NovaChannel
