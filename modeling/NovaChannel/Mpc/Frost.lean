import NovaChannel.Mpc.Dkg

/-!
# Threshold signatures

Any quorum holding the key shares of the group signs together.  Each signer commits to two nonces;
binding factors tie its share of the signature to the message and to everyone's commitments; the
shares add up to one Schnorr signature.

* `encodeCommitmentList_perm` : everyone hashes the same list, in whatever order it is held;
* `verifySignatureShare_iff` : **what passes for a signer's share is what it signed**, and nothing
  else;
* `frost_correct` : attribution, and shares that all pass add up to a signature of the group.
-/

namespace NovaChannel

namespace Mpc

open Shamir (poly lagrangeAtZero)

/-! ### Hashing -/

/-- `Scalar::from_bytes_mod_order_wide`. -/
def fromBytesModOrderWide (bytes : Bytes) : Scalar := (Wire.fromBe bytes.reverse : Scalar)

namespace Frost

/-- `CONTEXT_STRING`. -/
def contextString : Bytes := "FROST-RISTRETTO255-SHA512-v1".toUTF8.toList

section Definitions

variable (sha512 : Bytes → Bytes)

/-- `hash_raw`. -/
def hashRaw (label : String) (input : Bytes) : Bytes :=
  sha512 (contextString ++ label.toUTF8.toList ++ input)

/-- `hash_to_scalar`. -/
def hashToScalar (label : String) (input : Bytes) : Scalar :=
  fromBytesModOrderWide (sha512 (contextString ++ label.toUTF8.toList ++ input))

/-- `encode_identifier`. -/
def encodeIdentifier (id : ParticipantId) : Bytes := scalarBytes (scalarFromId id)

variable {Point : Type} [AddCommGroup Point] [Module Scalar Point] (R : Ristretto Point)

/-! ### The two rounds -/

/-- `SecretNonces`. -/
structure SecretNonces where
  hidingNonce : Scalar
  bindingNonce : Scalar

/-- `SigningCommitment`. -/
structure SigningCommitment (Point : Type) where
  participantId : ParticipantId
  hidingPoint : Point
  bindingPoint : Point

/-- `round1_commit`: the commitment to the nonces it draws. -/
def round1Commit (participantId : ParticipantId) (nonces : SecretNonces) :
    SigningCommitment Point :=
  ⟨participantId, nonces.hidingNonce • R.basepoint, nonces.bindingNonce • R.basepoint⟩

/-- `encode_commitment_list`. -/
def encodeCommitmentList (commitments : List (SigningCommitment Point)) : Bytes :=
  (commitments.mergeSort fun c c' => c.participantId ≤ c'.participantId).flatMap fun c =>
    encodeIdentifier c.participantId ++ R.compress c.hidingPoint ++ R.compress c.bindingPoint

/-- `binding_factor`. -/
def bindingFactor (participantId : ParticipantId) (groupPublicKey : Point) (message : Bytes)
    (commitments : List (SigningCommitment Point)) : Scalar :=
  let msgHash := hashRaw sha512 "msg" message
  let commHash := hashRaw sha512 "com" (encodeCommitmentList R commitments)
  hashToScalar sha512 "rho"
    (R.compress groupPublicKey ++ msgHash ++ commHash ++ encodeIdentifier participantId)

/-- `group_commitment`. -/
def groupCommitment (groupPublicKey : Point) (message : Bytes)
    (commitments : List (SigningCommitment Point)) : Point :=
  commitments.foldl (fun acc c =>
    let rho := bindingFactor sha512 R c.participantId groupPublicKey message commitments
    acc + c.hidingPoint + rho • c.bindingPoint) 0

/-- `challenge`. -/
def challenge (groupCommitment groupPublicKey : Point) (message : Bytes) : Scalar :=
  hashToScalar sha512 "chal" (R.compress groupCommitment ++ R.compress groupPublicKey ++ message)

/-- `round2_sign`. -/
def round2Sign (share : KeyShare Point) (nonces : SecretNonces) (message : Bytes)
    (signerIds : List ParticipantId) (commitments : List (SigningCommitment Point)) : Scalar :=
  let rho := bindingFactor sha512 R share.participantId share.groupPublicKey message commitments
  let r := groupCommitment sha512 R share.groupPublicKey message commitments
  let c := challenge sha512 R r share.groupPublicKey message
  let lambda := lagrangeCoefficientAtZero share.participantId signerIds
  nonces.hidingNonce + rho * nonces.bindingNonce + lambda * share.secretShare * c

/-- `public_verification_share`. -/
def publicVerificationShare (participantId : ParticipantId)
    (dealerCommitments : List (List Point)) (excluded : List ℕ) : Point :=
  let id := scalarFromId participantId
  (surviving excluded dealerCommitments).foldl (fun acc commitments =>
    acc + evaluateCommitment commitments id) 0

variable [DecidableEq Point]

/-- `verify_signature_share`. -/
def verifySignatureShare (participantId : ParticipantId) (verificationShare : Point)
    (zi : Scalar) (message : Bytes) (signerIds : List ParticipantId)
    (commitments : List (SigningCommitment Point)) (groupPublicKey : Point) : Bool :=
  match commitments.find? (·.participantId = participantId) with
  | none => false
  | some myCommitment =>
    let rho := bindingFactor sha512 R participantId groupPublicKey message commitments
    let r := groupCommitment sha512 R groupPublicKey message commitments
    let c := challenge sha512 R r groupPublicKey message
    let lambda := lagrangeCoefficientAtZero participantId signerIds
    let expected :=
      myCommitment.hidingPoint + rho • myCommitment.bindingPoint + (lambda * c) • verificationShare
    zi • R.basepoint = expected

/-- `Signature`. -/
structure Signature (Point : Type) where
  r : Point
  z : Scalar

omit [DecidableEq Point] in
/-- `aggregate`. -/
def aggregate (groupPublicKey : Point) (message : Bytes)
    (commitments : List (SigningCommitment Point))
    (signatureShares : List (ParticipantId × Scalar)) : Signature Point where
  r := groupCommitment sha512 R groupPublicKey message commitments
  z := signatureShares.foldl (fun acc e => acc + e.2) 0

/-- `verify`. -/
def verify (signature : Signature Point) (groupPublicKey : Point) (message : Bytes) : Bool :=
  let c := challenge sha512 R signature.r groupPublicKey message
  signature.z • R.basepoint = signature.r + c • groupPublicKey

end Definitions

/-! ### Orders -/

section Orders

variable {Point : Type} [AddCommGroup Point] [Module Scalar Point] {R : Ristretto Point}
  {sha512 : Bytes → Bytes} {cs cs' : List (SigningCommitment Point)}

/-- **The order in which commitments are held does not matter** to what is hashed of them. -/
theorem encodeCommitmentList_perm (hnd : (cs.map (·.participantId)).Nodup) (h : cs.Perm cs') :
    encodeCommitmentList R cs = encodeCommitmentList R cs' := by
  have hsorted : ∀ l : List (SigningCommitment Point),
      (l.mergeSort fun c c' => c.participantId ≤ c'.participantId).Pairwise
        fun c c' => (decide (c.participantId ≤ c'.participantId)) = true := by
    intro l
    refine List.pairwise_mergeSort (fun a b c hab hbc => ?_) (fun a b => ?_) l
    · exact decide_eq_true ((of_decide_eq_true hab).trans (of_decide_eq_true hbc))
    · simpa using le_total a.participantId b.participantId
  have hsame : (cs.mergeSort fun c c' => c.participantId ≤ c'.participantId) =
      cs'.mergeSort fun c c' => c.participantId ≤ c'.participantId := by
    refine List.Perm.eq_of_pairwise (fun a b ha hb hab hba => ?_) (hsorted cs) (hsorted cs')
      (((List.mergeSort_perm cs _).trans h).trans (List.mergeSort_perm cs' _).symm)
    have hid := le_antisymm (of_decide_eq_true hab) (of_decide_eq_true hba)
    exact List.inj_on_of_nodup_map hnd ((List.mergeSort_perm cs _).mem_iff.1 ha)
      (h.mem_iff.2 ((List.mergeSort_perm cs' _).mem_iff.1 hb)) hid
  rw [encodeCommitmentList, encodeCommitmentList, hsame]

theorem bindingFactor_perm (hnd : (cs.map (·.participantId)).Nodup) (h : cs.Perm cs')
    (id : ParticipantId) (Y : Point) (message : Bytes) :
    bindingFactor sha512 R id Y message cs = bindingFactor sha512 R id Y message cs' := by
  rw [bindingFactor, bindingFactor, encodeCommitmentList_perm hnd h]

/-- The group commitment as a sum. -/
theorem groupCommitment_eq (Y : Point) (message : Bytes) :
    groupCommitment sha512 R Y message cs = (cs.map fun c =>
      c.hidingPoint + bindingFactor sha512 R c.participantId Y message cs • c.bindingPoint).sum := by
  have h := foldl_add_eq_sum (fun c : SigningCommitment Point =>
    c.hidingPoint + bindingFactor sha512 R c.participantId Y message cs • c.bindingPoint) cs 0
  rw [zero_add] at h
  rw [← h, groupCommitment]
  simp only [add_assoc]

theorem groupCommitment_perm (hnd : (cs.map (·.participantId)).Nodup) (h : cs.Perm cs')
    (Y : Point) (message : Bytes) :
    groupCommitment sha512 R Y message cs = groupCommitment sha512 R Y message cs' := by
  rw [groupCommitment_eq, groupCommitment_eq, (h.map _).sum_eq]
  simp only [bindingFactor_perm hnd h]

theorem lagrangeCoefficientAtZero_perm {ids ids' : List ParticipantId} (h : ids.Perm ids')
    (id : ParticipantId) :
    lagrangeCoefficientAtZero id ids = lagrangeCoefficientAtZero id ids' := by
  rw [lagrangeCoefficientAtZero_eq, lagrangeCoefficientAtZero_eq]
  exact Shamir.lagrangeAtZero_perm scalarFromId h id

end Orders

/-! ### Shares -/

section Shares

variable {Point : Type} [AddCommGroup Point] [Module Scalar Point] {R : Ristretto Point}
  {sha512 : Bytes → Bytes}

/-- The commitments of the signers, in the order of their ids in the list. -/
def committed (R : Ristretto Point) (nonces : ParticipantId → SecretNonces)
    (signers : List ParticipantId) : List (SigningCommitment Point) :=
  signers.map fun id => round1Commit R id (nonces id)

theorem nodup_committed {nonces : ParticipantId → SecretNonces} {signers : List ParticipantId}
    (h : signers.Nodup) : ((committed R nonces signers).map (·.participantId)).Nodup := by
  have hids : (committed R nonces signers).map (·.participantId) = signers := by
    rw [committed, List.map_map]
    exact List.map_id signers
  rwa [hids]

/-- A signer's commitment is the one found under its id. -/
theorem find?_committed {nonces : ParticipantId → SecretNonces} {signers : List ParticipantId}
    (hnd : signers.Nodup) {cs : List (SigningCommitment Point)}
    (h : cs.Perm (committed R nonces signers)) {id : ParticipantId} (hid : id ∈ signers) :
    cs.find? (·.participantId = id) = some (round1Commit R id (nonces id)) := by
  have hnodup : (cs.map (·.participantId)).Nodup :=
    (h.map _).nodup_iff.2 (nodup_committed hnd)
  have hmem : round1Commit R id (nonces id) ∈ cs := h.mem_iff.2 (List.mem_map_of_mem hid)
  cases hfind : cs.find? (·.participantId = id) with
  | none => exact absurd (decide_eq_true rfl) (List.find?_eq_none.1 hfind _ hmem)
  | some c =>
    have hc : c.participantId = id := by simpa using List.find?_some hfind
    rw [List.inj_on_of_nodup_map hnodup (List.mem_of_find?_eq_some hfind) hmem hc]

variable [DecidableEq Point]

/-- **What passes for a signer's share is what it signed**, with its own nonces and key share, and
nothing else, whatever the orders in which the signer and the verifier hold the lists. -/
theorem verifySignatureShare_iff {nonces : ParticipantId → SecretNonces}
    {signers : List ParticipantId} (hnd : signers.Nodup) {id : ParticipantId} (hid : id ∈ signers)
    {ids ids' : List ParticipantId} (hids : ids.Perm signers) (hids' : ids'.Perm signers)
    {cs cs' : List (SigningCommitment Point)} (hcs : cs.Perm (committed R nonces signers))
    (hcs' : cs'.Perm (committed R nonces signers)) (secretShare : Scalar) (Y : Point)
    (message : Bytes) (z : Scalar) :
    verifySignatureShare sha512 R id (secretShare • R.basepoint) z message ids' cs' Y = true ↔
      z = round2Sign sha512 R ⟨id, secretShare, Y⟩ (nonces id) message ids cs := by
  have hperm := hcs.trans hcs'.symm
  have hnodup : (cs.map (·.participantId)).Nodup := (hcs.map _).nodup_iff.2 (nodup_committed hnd)
  rw [verifySignatureShare, find?_committed hnd hcs' hid]
  simp only [round2Sign, bindingFactor_perm hnodup hperm, groupCommitment_perm hnodup hperm,
    lagrangeCoefficientAtZero_perm (hids.trans hids'.symm), round1Commit]
  refine decide_eq_true_iff.trans ?_
  rw [← R.smul_basepoint_inj, smul_smul, smul_smul, ← add_smul, ← add_smul, mul_right_comm]

/-- A dealer's commitments to a participant's share, summed as the shares are. -/
theorem publicVerificationShare_dealers (dealers : List (Dealer R)) (excluded : List ℕ)
    (id : ParticipantId) :
    publicVerificationShare id (dealers.map fun d => d.reveal.1) excluded =
      (jointPoly (survivingCoefficients dealers excluded)).eval (scalarFromId id) •
        R.basepoint := by
  rw [publicVerificationShare, surviving_map, foldl_add_eq_sum (fun commitments : List Point =>
    evaluateCommitment commitments (scalarFromId id)), zero_add, eval_jointPoly, List.sum_smul,
    survivingCoefficients, List.map_map, List.map_map, List.map_map]
  refine congrArg List.sum (List.map_congr_left fun d _ => ?_)
  simp only [Function.comp_apply, Dealer.reveal, d.commits, evaluateCommitment_eq]

/-- **Shares as they are signed add up to a signature**, for the values of one polynomial. -/
theorem verify_aggregate {p : Polynomial Scalar} {nonces : ParticipantId → SecretNonces}
    {signers : List ParticipantId} (hnd : signers.Nodup) (hp : p.degree < signers.length)
    {cs : List (SigningCommitment Point)} (hcs : cs.Perm (committed R nonces signers))
    {message : Bytes} {z : ParticipantId → Scalar}
    (hz : ∀ id ∈ signers, z id = round2Sign sha512 R
      ⟨id, p.eval (scalarFromId id), p.eval 0 • R.basepoint⟩ (nonces id) message signers
      (committed R nonces signers))
    {shares : List (ParticipantId × Scalar)}
    (hshares : shares.Perm (signers.map fun id => (id, z id))) :
    verify sha512 R (aggregate sha512 R (p.eval 0 • R.basepoint) message cs shares)
      (p.eval 0 • R.basepoint) message = true := by
  have hnodup := @nodup_committed _ _ _ R nonces signers hnd
  -- everything is about the commitments in the order of the signers
  have hr := @groupCommitment_perm _ _ _ R sha512 _ _ hnodup hcs.symm (p.eval 0 • R.basepoint)
    message
  rw [verify, aggregate, foldl_add_eq_sum (fun e : ParticipantId × Scalar => e.2), zero_add,
    (hshares.map _).sum_eq, List.map_map, ← hr]
  refine decide_eq_true ?_
  let Y := p.eval 0 • R.basepoint
  let c := challenge sha512 R (groupCommitment sha512 R Y message (committed R nonces signers)) Y
    message
  let rho := fun id => bindingFactor sha512 R id Y message (committed R nonces signers)
  have hcommitment : groupCommitment sha512 R Y message (committed R nonces signers) =
      (signers.map fun id =>
        (nonces id).hidingNonce • R.basepoint + rho id • (nonces id).bindingNonce • R.basepoint).sum := by
    rw [groupCommitment_eq, committed, List.map_map]
    rfl
  have hshare : ∀ id ∈ signers, z id • R.basepoint =
      ((nonces id).hidingNonce • R.basepoint + rho id • (nonces id).bindingNonce • R.basepoint) +
        c • lagrangeAtZero scalarFromId id signers • p.eval (scalarFromId id) • R.basepoint := by
    intro id hid
    rw [hz id hid, round2Sign, lagrangeCoefficientAtZero_eq]
    simp only [smul_smul, ← add_smul]
    congr 2
    exact mul_comm _ c
  calc (signers.map fun id => z id).sum • R.basepoint
      = (signers.map fun id => z id • R.basepoint).sum := by
        rw [List.sum_smul, List.map_map]
        rfl
    _ = (signers.map fun id =>
          ((nonces id).hidingNonce • R.basepoint + rho id • (nonces id).bindingNonce • R.basepoint) +
          c • lagrangeAtZero scalarFromId id signers • p.eval (scalarFromId id) •
            R.basepoint).sum := congrArg List.sum (List.map_congr_left hshare)
    _ = groupCommitment sha512 R Y message (committed R nonces signers) + c • Y := by
        rw [List.sum_map_add, hcommitment]
        have hkey : Y = _ := (Shamir.sum_lagrangeAtZero_smul scalarFromId scalarFromId_injective
          hnd hp R.basepoint).symm
        rw [hkey, List.smul_sum, List.map_map]
        rfl

/-- **Threshold signatures are correct and attributable.**  Whatever dealers of one threshold are
excluded, for every quorum, nonces and message, and in whatever orders everyone holds the lists: a
signer's share passes exactly when it is what the signer's key share and nonces give, and shares
that all pass add up to a signature under the group's key. -/
theorem frost_correct (sha512 : Bytes → Bytes) {t n : U32} {dealers : List (Dealer R)}
    (hdealers : ∀ d ∈ dealers, d.threshold = t ∧ d.numParticipants = n) (excluded : List ℕ) :
    ∃ (Y : Point) (keyShare : ParticipantId → KeyShare Point),
      (∀ id ∈ participants n, finalizeKeyShareExcludingFaulty id
          (dealers.map fun d => d.reveal.1) (dealers.map fun d => d.reveal.2) excluded =
            some (keyShare id) ∧ (keyShare id).groupPublicKey = Y) ∧
      ∀ (signers : List ParticipantId) (nonces : ParticipantId → SecretNonces) (message : Bytes),
        signers.Nodup → (∀ id ∈ signers, id ∈ participants n) → t.val ≤ signers.length →
        let accepts := fun ids' cs' id z => verifySignatureShare sha512 R id
          (publicVerificationShare id (dealers.map fun d => d.reveal.1) excluded) z message ids' cs' Y
        (∀ id ∈ signers, ∀ ids ids' cs cs', ids.Perm signers → ids'.Perm signers →
          cs.Perm (committed R nonces signers) → cs'.Perm (committed R nonces signers) → ∀ z,
            accepts ids' cs' id z = true ↔
              z = round2Sign sha512 R (keyShare id) (nonces id) message ids cs) ∧
        ∀ z : ParticipantId → Scalar, (∀ id ∈ signers, ∃ ids cs, ids.Perm signers ∧
            cs.Perm (committed R nonces signers) ∧ accepts ids cs id (z id) = true) →
          ∀ cs shares, cs.Perm (committed R nonces signers) →
            shares.Perm (signers.map fun id => (id, z id)) →
            verify sha512 R (aggregate sha512 R Y message cs shares) Y message = true := by
  let p := jointPoly (survivingCoefficients dealers excluded)
  have hdegree := degree_survivingCoefficients_lt (fun d hd => (hdealers d hd).1) excluded
  refine ⟨p.eval 0 • R.basepoint,
    fun id => ⟨id, p.eval (scalarFromId id), p.eval 0 • R.basepoint⟩,
    fun id hid => ⟨finalizeKeyShareExcludingFaulty_dealers (fun d hd => (hdealers d hd).2)
      excluded hid, rfl⟩, fun signers nonces message hnd _ hlen => ?_⟩
  have hiff : ∀ id ∈ signers, ∀ ids ids' cs cs', ids.Perm signers → ids'.Perm signers →
      cs.Perm (committed R nonces signers) → cs'.Perm (committed R nonces signers) → ∀ z,
      verifySignatureShare sha512 R id
        (publicVerificationShare id (dealers.map fun d => d.reveal.1) excluded) z message ids' cs'
        (p.eval 0 • R.basepoint) = true ↔
      z = round2Sign sha512 R ⟨id, p.eval (scalarFromId id), p.eval 0 • R.basepoint⟩ (nonces id)
        message ids cs := by
    intro id hid ids ids' cs cs' hids hids' hcs hcs' z
    rw [publicVerificationShare_dealers]
    exact verifySignatureShare_iff hnd hid hids hids' hcs hcs' _ _ message z
  refine ⟨hiff, fun z haccepted cs shares hcs hshares => ?_⟩
  refine verify_aggregate hnd (hdegree.trans_le (by exact_mod_cast hlen)) hcs (fun id hid => ?_)
    hshares
  obtain ⟨ids, cs', hids, hcs', haccepts⟩ := haccepted id hid
  exact (hiff id hid signers ids (committed R nonces signers) cs' (List.Perm.refl _) hids
    (List.Perm.refl _) hcs' (z id)).1 haccepts

/-- Two dealers of three shares, the first excluded, and the last two participants. -/
theorem frost_correct_two : ∃ d d' : Dealer scalarGroup,
    Dealer.new scalarGroup 2 3 (fun k => k + 1) = some d ∧
    Dealer.new scalarGroup 2 3 (fun k => k) = some d' ∧
    ∃ (Y : Scalar) (keyShare : ParticipantId → KeyShare Scalar),
      finalizeKeyShareExcludingFaulty 3 [d.reveal.1, d'.reveal.1] [d.reveal.2, d'.reveal.2] [0] =
        some (keyShare 3) ∧
      ∀ z, verifySignatureShare id scalarGroup 3
          (publicVerificationShare 3 [d.reveal.1, d'.reveal.1] [0]) z [9] [2, 3]
          (committed scalarGroup (fun i => ⟨scalarFromId i, 1⟩) [2, 3]) Y = true ↔
        z = round2Sign id scalarGroup (keyShare 3) ⟨scalarFromId 3, 1⟩ [9] [3, 2]
          (committed scalarGroup (fun i => ⟨scalarFromId i, 1⟩) [3, 2]) := by
  obtain ⟨d, hd⟩ : ∃ d, Dealer.new scalarGroup 2 3 (fun k => k + 1) = some d := ⟨_, rfl⟩
  obtain ⟨d', hd'⟩ : ∃ d', Dealer.new scalarGroup 2 3 (fun k => k) = some d' := ⟨_, rfl⟩
  have hdealers : ∀ x ∈ [d, d'], x.threshold = 2 ∧ x.numParticipants = 3 := by
    intro x hx
    obtain rfl := Option.some.inj hd
    obtain rfl := Option.some.inj hd'
    rcases List.mem_pair.1 hx with rfl | rfl <;> exact ⟨rfl, rfl⟩
  obtain ⟨Y, keyShare, hshares, hquorum⟩ := frost_correct id hdealers [0]
  have hmem : ∀ i ∈ ([3, 2] : List ParticipantId), i ∈ participants 3 := by
    intro i hi
    rcases List.mem_pair.1 hi with rfl | rfl
    · exact mem_participants.2 ⟨rfl, le_refl _⟩
    · exact mem_participants.2 ⟨rfl, by decide⟩
  have hswap : ([2, 3] : List ParticipantId).Perm [3, 2] := List.Perm.swap 3 2 []
  refine ⟨d, d', hd, hd', Y, keyShare, (hshares 3 (hmem 3 List.mem_cons_self)).1, ?_⟩
  exact (hquorum [3, 2] (fun i => ⟨scalarFromId i, 1⟩) [9] (by decide) hmem (le_refl _)).1 3
    List.mem_cons_self [3, 2] [2, 3] _ _ (List.Perm.refl _) hswap (List.Perm.refl _)
    (hswap.map _)

end Shares

end Frost

end Mpc

end NovaChannel
