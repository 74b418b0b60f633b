import NovaChannel.Mpc.Faulty
import NovaChannel.Mpc.Frost

/-!
# Signing among malicious dealers and signers

The key may come from dealers that broadcast anything, and a signer may commit to any two points
and send any share.  What is left to the others: to check each share, and to name who failed.

* `verifySignatureShare_eq_expected` : one value passes for each signer's share, whatever the
  points it committed to;
* `verify_aggregate_iff` : **the sum of the shares is a signature exactly when it is the sum of the
  values expected**;
* `robust_of_honest` : a key dealt by honest dealers is sound, whoever else is flagged;
* `frost_abort` : an attempt that fails is blamed on someone, and never on an honest signer.
-/

namespace NovaChannel

namespace Mpc

open Polynomial
open Shamir (lagrangeAtZero)

variable {Point : Type} [AddCommGroup Point] [Module Scalar Point] {R : Ristretto Point}

/-! ### Commitments of any dealer -/

/-- Points as multiples of the basepoint. -/
theorem Ristretto.map_log (points : List Point) :
    (points.map R.log).map (· • R.basepoint) = points := by
  rw [List.map_map]
  conv_rhs => rw [← List.map_id points]
  exact List.map_congr_left fun P _ => R.log_smul P

theorem evaluateCommitment_log (commitments : List Point) (x : Scalar) :
    evaluateCommitment commitments x = evaluate (commitments.map R.log) x • R.basepoint := by
  rw [← evaluateCommitment_eq, Ristretto.map_log]

variable [DecidableEq Point]

/-- The verification share of a participant is the value of what was committed to. -/
theorem publicVerificationShare_dealings (dealers : List (Dealing Point)) (id : ParticipantId) :
    Frost.publicVerificationShare id (dealers.map Prod.fst)
        (identifyFaultyDealers R (dealers.map Prod.fst) (dealers.map Prod.snd)) =
      (committedPoly R dealers).eval (scalarFromId id) • R.basepoint := by
  rw [Frost.publicVerificationShare, surviving_map, surviving_identifyFaultyDealers,
    foldl_add_eq_sum (fun commitments : List Point =>
      evaluateCommitment commitments (scalarFromId id)), zero_add, committedPoly, eval_jointPoly,
    List.sum_smul, List.map_map, List.map_map, List.map_map]
  exact congrArg List.sum (List.map_congr_left fun d _ => evaluateCommitment_log d.1 _)

/-- An honest dealer's shares all verify. -/
theorem allValid_reveal (d : Dealer R) : allValid R d.reveal = true := by
  refine List.all_eq_true.2 fun s hs => ?_
  obtain ⟨hid, hshare⟩ := Dealer.mem_reveal.1 hs
  have hcommits : d.reveal.1 = d.coefficients.map (· • R.basepoint) := d.commits
  rw [hcommits, verifyShare_iff]
  exact ⟨(mem_participants.1 hid).1, hshare⟩

/-- **Honest dealers make a sound key**, whatever was sent by the dealers that are flagged. -/
theorem robust_of_honest {t n : U32} (ht : 1 ≤ t) (htn : t ≤ n) {dealers : List (Dealing Point)}
    {honest : List (Dealer R)} (hleft : unflagged R dealers = honest.map Dealer.reveal)
    (hhonest : ∀ d ∈ honest, d.threshold = t ∧ d.numParticipants = n) : Robust R t n dealers := by
  have hlog : ∀ d : Dealer R, d.reveal.1.map R.log = d.coefficients := by
    intro d
    have hcommits : d.reveal.1 = d.coefficients.map (· • R.basepoint) := d.commits
    rw [hcommits, List.map_map]
    conv_rhs => rw [← List.map_id d.coefficients]
    exact List.map_congr_left fun s _ => R.smul_basepoint_inj.1 (R.log_smul _)
  have hpoly : (committedPoly R dealers).degree < t.val := by
    refine degree_jointPoly_lt fun cs hcs => ?_
    rw [hleft, List.map_map] at hcs
    obtain ⟨d, hd, rfl⟩ := List.mem_map.1 hcs
    rw [Function.comp_apply, hlog, d.length_coefficients, (hhonest d hd).1]
  refine (robust_iff R ht htn dealers).2 ⟨fun x hx => ?_, ?_⟩
  · rw [hleft] at hx
    obtain ⟨d, hd, rfl⟩ := List.mem_map.1 hx
    refine ⟨fun hnil => ?_, fun id hid => ?_⟩
    · have hpos := Fin.le_def.1 d.threshold_pos
      rw [← d.length_coefficients, ← hlog d, hnil] at hpos
      exact Nat.not_succ_le_zero 0 hpos
    · rw [← (hhonest d hd).2] at hid
      exact Option.isSome_iff_exists.2
        ⟨_, SortedMap.mem_toList.1 (Dealer.mem_reveal.2 ⟨hid, rfl⟩)⟩
  · exact degree_modByMonic_le_left.trans_lt hpoly

namespace Frost

variable {sha512 : Bytes → Bytes} {cs cs' : List (SigningCommitment Point)}

/-! ### The one share that passes -/

/-- What a signer's share has to be, from the points it committed to. -/
noncomputable def expected (sha512 : Bytes → Bytes) (R : Ristretto Point)
    (cs : List (SigningCommitment Point)) (signers : List ParticipantId) (Y : Point)
    (message : Bytes) (p : Scalar[X]) (c : SigningCommitment Point) : Scalar :=
  R.log c.hidingPoint + bindingFactor sha512 R c.participantId Y message cs * R.log c.bindingPoint +
    lagrangeAtZero scalarFromId c.participantId signers * p.eval (scalarFromId c.participantId) *
      challenge sha512 R (groupCommitment sha512 R Y message cs) Y message

omit [AddCommGroup Point] [Module Scalar Point] [DecidableEq Point] in
/-- A commitment is the one found under its id. -/
theorem find?_participantId (hnd : (cs.map (·.participantId)).Nodup)
    {c : SigningCommitment Point} (hc : c ∈ cs) :
    cs.find? (·.participantId = c.participantId) = some c := by
  cases hfind : cs.find? (·.participantId = c.participantId) with
  | none => exact absurd (decide_eq_true rfl) (List.find?_eq_none.1 hfind _ hc)
  | some c' =>
    have hid : c'.participantId = c.participantId := by simpa using List.find?_some hfind
    rw [List.inj_on_of_nodup_map hnd (List.mem_of_find?_eq_some hfind) hc hid]

/-- **One value passes for a signer's share**, whatever it committed to. -/
theorem verifySignatureShare_eq_expected (hnd : (cs.map (·.participantId)).Nodup)
    {c : SigningCommitment Point} (hc : c ∈ cs) {signers : List ParticipantId} {Y : Point}
    {message : Bytes} {p : Scalar[X]} {z : Scalar} :
    verifySignatureShare sha512 R c.participantId
        (p.eval (scalarFromId c.participantId) • R.basepoint) z message signers cs Y = true ↔
      z = expected sha512 R cs signers Y message p c := by
  rw [verifySignatureShare, find?_participantId hnd hc]
  simp only [decide_eq_true_iff, lagrangeCoefficientAtZero_eq]
  nth_rewrite 1 [← R.log_smul c.hidingPoint, ← R.log_smul c.bindingPoint]
  rw [smul_smul, smul_smul, ← add_smul, ← add_smul, R.smul_basepoint_inj, expected, mul_right_comm]

omit [DecidableEq Point] in
/-- What an honest signer is expected to send is what it signs. -/
theorem expected_round1Commit (hnd : (cs.map (·.participantId)).Nodup) (hcs : cs'.Perm cs)
    {signers ids : List ParticipantId} (hids : ids.Perm signers) {Y : Point} {message : Bytes}
    {p : Scalar[X]} {id : ParticipantId} {nonces : SecretNonces} :
    expected sha512 R cs signers Y message p (round1Commit R id nonces) =
      round2Sign sha512 R ⟨id, p.eval (scalarFromId id), Y⟩ nonces message ids cs' := by
  have hnd' : (cs'.map (·.participantId)).Nodup := (hcs.map _).nodup_iff.2 hnd
  have hlog : ∀ s : Scalar, R.log (s • R.basepoint) = s := fun s =>
    R.smul_basepoint_inj.1 (R.log_smul _)
  simp only [expected, round2Sign, round1Commit, hlog, bindingFactor_perm hnd' hcs,
    groupCommitment_perm hnd' hcs, lagrangeCoefficientAtZero_perm hids,
    lagrangeCoefficientAtZero_eq]

/-! ### The sum of the shares -/

omit [DecidableEq Point] in
/-- The values expected add up to a signature. -/
theorem sum_expected_smul {signers : List ParticipantId} (hnd : signers.Nodup)
    (hcs : cs.map (·.participantId) = signers) {p : Scalar[X]} (hp : p.degree < signers.length)
    {message : Bytes} :
    (cs.map (expected sha512 R cs signers (p.eval 0 • R.basepoint) message p)).sum • R.basepoint =
      groupCommitment sha512 R (p.eval 0 • R.basepoint) message cs +
        challenge sha512 R (groupCommitment sha512 R (p.eval 0 • R.basepoint) message cs)
          (p.eval 0 • R.basepoint) message • p.eval 0 • R.basepoint := by
  let Y := p.eval 0 • R.basepoint
  let r := groupCommitment sha512 R Y message cs
  let k := challenge sha512 R r Y message
  have hshare : ∀ c ∈ cs, expected sha512 R cs signers Y message p c • R.basepoint =
      (c.hidingPoint + bindingFactor sha512 R c.participantId Y message cs • c.bindingPoint) +
        k • lagrangeAtZero scalarFromId c.participantId signers •
          p.eval (scalarFromId c.participantId) • R.basepoint := by
    intro c _
    rw [expected, add_smul, add_smul, mul_smul, R.log_smul, R.log_smul, smul_smul, smul_smul,
      mul_comm _ k, ← mul_assoc]
  have hkey := Shamir.sum_lagrangeAtZero_smul scalarFromId scalarFromId_injective hnd hp R.basepoint
  calc (cs.map (expected sha512 R cs signers Y message p)).sum • R.basepoint
      = (cs.map fun c => expected sha512 R cs signers Y message p c • R.basepoint).sum := by
        rw [List.sum_smul, List.map_map]
        rfl
    _ = (cs.map fun c =>
          (c.hidingPoint + bindingFactor sha512 R c.participantId Y message cs • c.bindingPoint) +
          k • lagrangeAtZero scalarFromId c.participantId signers •
            p.eval (scalarFromId c.participantId) • R.basepoint).sum :=
        congrArg List.sum (List.map_congr_left hshare)
    _ = r + k • Y := by
        rw [List.sum_map_add, ← groupCommitment_eq]
        conv_rhs => rw [show Y = _ from hkey.symm, List.smul_sum, ← hcs, List.map_map, List.map_map]
        rw [hcs]
        rfl

/-- **A sum of shares is a signature** exactly when it is the sum of the values expected. -/
theorem verify_aggregate_iff {signers : List ParticipantId} (hnd : signers.Nodup)
    (hcs : (cs.map (·.participantId)).Perm signers) {p : Scalar[X]}
    (hp : p.degree < signers.length) {message : Bytes}
    {shares : List (ParticipantId × Scalar)} :
    verify sha512 R (aggregate sha512 R (p.eval 0 • R.basepoint) message cs shares)
        (p.eval 0 • R.basepoint) message = true ↔
      (shares.map Prod.snd).sum =
        (cs.map (expected sha512 R cs signers (p.eval 0 • R.basepoint) message p)).sum := by
  -- the quorum in the order of the commitments
  have hsame : expected sha512 R cs signers (p.eval 0 • R.basepoint) message p =
      expected sha512 R cs (cs.map (·.participantId)) (p.eval 0 • R.basepoint) message p := by
    funext c
    rw [expected, expected, Shamir.lagrangeAtZero_perm scalarFromId hcs]
  rw [← hcs.length_eq] at hp
  have hsum := @sum_expected_smul _ _ _ R sha512 cs _ (hcs.nodup_iff.2 hnd) rfl p hp message
  rw [verify, aggregate, foldl_add_eq_sum (fun e : ParticipantId × Scalar => e.2), zero_add, hsame]
  refine decide_eq_true_iff.trans ?_
  rw [← hsum]
  exact R.smul_basepoint_inj

/-- **Failed attempts are blamed on someone, and never on an honest signer.**  Among malicious
dealers whose outcome is sound and malicious signers, who commit to any points and send any shares:
where the shares do not add up to a signature, someone's share does not pass; one wrong share is
enough for that; and the share of a signer that followed the protocol passes, whatever the others
sent. -/
theorem frost_abort (sha512 : Bytes → Bytes) {t n : U32} {dealers : List (Dealing Point)}
    (ht : 1 ≤ t) (hrobust : Robust R t n dealers) :
    ∃ (Y : Point) (keyShare : ParticipantId → KeyShare Point),
      (∀ id ∈ participants n, outcome R dealers id = some (keyShare id) ∧
        (keyShare id).groupPublicKey = Y) ∧
      ∀ (signers : List ParticipantId) (cs : List (SigningCommitment Point)) (message : Bytes)
        (z : ParticipantId → Scalar), signers.Nodup → (∀ id ∈ signers, id ∈ participants n) →
        t.val ≤ signers.length → (cs.map (·.participantId)).Perm signers →
        let accepted := fun id => verifySignatureShare sha512 R id
          (publicVerificationShare id (dealers.map Prod.fst)
            (identifyFaultyDealers R (dealers.map Prod.fst) (dealers.map Prod.snd)))
          (z id) message signers cs Y
        let valid := verify sha512 R
          (aggregate sha512 R Y message cs (signers.map fun id => (id, z id))) Y message
        (valid = false → ∃ id ∈ signers, accepted id = false) ∧
        (∀ id ∈ signers, (∀ id' ∈ signers, id' ≠ id → accepted id' = true) →
          valid = accepted id) ∧
        ∀ id ∈ signers, ∀ nonces ids cs', round1Commit R id nonces ∈ cs → ids.Perm signers →
          cs'.Perm cs → z id = round2Sign sha512 R (keyShare id) nonces message ids cs' →
            accepted id = true := by
  obtain ⟨hreturns, f, hdegree, hf⟩ := hrobust
  let given : ParticipantId → KeyShare Point := fun id =>
    ⟨id, (committedPoly R dealers).eval (scalarFromId id),
      (committedPoly R dealers).eval 0 • R.basepoint⟩
  have hgiven : ∀ id ∈ participants n, outcome R dealers id = some (given id) := by
    intro id hid
    obtain ⟨share, hshare⟩ := hreturns id hid
    rw [hshare, ((outcome_eq_some (mem_participants.1 hid).1).1 hshare).2]
  obtain ⟨hvalues, -⟩ := hf given hgiven
  refine ⟨f.eval 0 • R.basepoint, given, fun id hid => ⟨hgiven id hid, (hvalues id hid).2⟩,
    fun signers cs message z hnd hsigners hlen hcs => ?_⟩
  intro accepted valid
  have hnodup : (cs.map (·.participantId)).Nodup := hcs.nodup_iff.2 hnd
  have hp : f.degree < signers.length := hdegree.trans_le (by exact_mod_cast hlen)
  let due := expected sha512 R cs signers (f.eval 0 • R.basepoint) message f
  -- a share passes when it is the one due
  have haccepted : ∀ c ∈ cs, (accepted c.participantId = true ↔ z c.participantId = due c) := by
    intro c hc
    have hid := hsigners _ (hcs.mem_iff.1 (List.mem_map_of_mem hc))
    have hvalue : (committedPoly R dealers).eval (scalarFromId c.participantId) =
        f.eval (scalarFromId c.participantId) := (hvalues _ hid).1
    rw [← @verifySignatureShare_eq_expected _ _ _ R _ sha512 cs hnodup c hc, ← hvalue,
      ← publicVerificationShare_dealings]
  have hsigner : ∀ id ∈ signers, ∃ c ∈ cs, c.participantId = id := fun id hid =>
    List.mem_map.1 (hcs.mem_iff.2 hid)
  have hvalid : valid = true ↔
      (cs.map fun c => z c.participantId).sum = (cs.map due).sum := by
    have hshares : ((signers.map fun id => (id, z id)).map Prod.snd).sum =
        (cs.map fun c => z c.participantId).sum := by
      rw [List.map_map, ← (hcs.map _).sum_eq, List.map_map]
      rfl
    rw [← hshares]
    exact verify_aggregate_iff hnd hcs hp
  -- when all others send what is due, the sum is right when the last share is
  have hlast : ∀ id ∈ signers, (∀ id' ∈ signers, id' ≠ id → accepted id' = true) →
      valid = accepted id := by
    intro id hid hothers
    obtain ⟨c, hc, rfl⟩ := hsigner id hid
    obtain ⟨l, l', rfl⟩ := List.append_of_mem hc
    rw [Bool.eq_iff_iff, hvalid, haccepted c hc]
    have hrest : ∀ x ∈ l ++ l', z x.participantId = due x := by
      intro x hx
      have hxcs : x ∈ l ++ c :: l' := List.perm_middle.mem_iff.2 (List.mem_cons_of_mem c hx)
      refine (haccepted x hxcs).1
        (hothers _ (hcs.mem_iff.1 (List.mem_map_of_mem hxcs)) fun heq => ?_)
      have hnot := (List.perm_middle.map fun c : SigningCommitment Point =>
        c.participantId).nodup_iff.1 hnodup
      exact (List.nodup_cons.1 hnot).1 (List.mem_map.2 ⟨x, hx, heq⟩)
    rw [(List.perm_middle.map _).sum_eq, ((List.perm_middle (a := c)).map due).sum_eq,
      List.map_cons, List.map_cons, List.sum_cons, List.sum_cons,
      List.map_congr_left hrest]
    exact add_left_inj _
  refine ⟨fun hinvalid => ?_, hlast, fun id hid nonces ids cs' hmem hids hcs' hz => ?_⟩
  · by_contra hnone
    have hall : ∀ id ∈ signers, accepted id = true := fun id hid =>
      Bool.eq_true_of_not_eq_false fun h => hnone ⟨id, hid, h⟩
    have hpos : 0 < signers.length := (Fin.le_def.1 ht).trans hlen
    obtain ⟨id, hid⟩ := List.exists_mem_of_length_pos hpos
    rw [hlast id hid fun id' hid' _ => hall id' hid', hall id hid] at hinvalid
    cases hinvalid
  · refine (haccepted _ hmem).2 (hz.trans ?_)
    have hshare : given id = ⟨id, f.eval (scalarFromId id), f.eval 0 • R.basepoint⟩ := by
      have hid' := hsigners id hid
      rw [KeyShare.mk.injEq]
      exact ⟨rfl, (hvalues id hid').1, (hvalues id hid').2⟩
    rw [hshare]
    exact (expected_round1Commit hnodup hcs' hids).symm

/-- A dealer that broadcasts nothing and hands out a share. -/
def emptyDealing : Dealing Scalar := ([], SortedMap.empty.insert 1 5)

theorem allValid_emptyDealing : allValid scalarGroup emptyDealing = false := by
  decide +kernel

/-- One honest dealer of three shares, one that is flagged, and an honest signer beside one that
commits to any two points and sends zero. -/
theorem frost_abort_sample : ∃ d : Dealer scalarGroup,
    Dealer.new scalarGroup 2 3 (fun k => k + 1) = some d ∧
    ∃ (Y : Scalar) (keyShare : ParticipantId → KeyShare Scalar),
      outcome scalarGroup [d.reveal, emptyDealing] 3 = some (keyShare 3) ∧
      let cs := [⟨2, 7, 6⟩, round1Commit scalarGroup 3 ⟨4, 5⟩]
      verifySignatureShare id scalarGroup 3
        (publicVerificationShare 3 [d.reveal.1, []]
          (identifyFaultyDealers scalarGroup [d.reveal.1, []] [d.reveal.2, emptyDealing.2]))
        (round2Sign id scalarGroup (keyShare 3) ⟨4, 5⟩ [9] [2, 3] cs) [9] [3, 2] cs Y = true := by
  obtain ⟨d, hd⟩ : ∃ d, Dealer.new scalarGroup 2 3 (fun k => k + 1) = some d := ⟨_, rfl⟩
  have hshape : d.threshold = 2 ∧ d.numParticipants = 3 := by
    obtain rfl := Option.some.inj hd
    exact ⟨rfl, rfl⟩
  have hleft : unflagged scalarGroup [d.reveal, emptyDealing] = [d].map Dealer.reveal := by
    rw [unflagged, List.filter_cons_of_pos (allValid_reveal d),
      List.filter_cons_of_neg (by rw [allValid_emptyDealing]; exact Bool.false_ne_true),
      List.filter_nil]
    rfl
  obtain ⟨Y, keyShare, hshares, hsign⟩ := frost_abort id (t := 2) (n := 3) (by decide)
    (robust_of_honest (by decide) (by decide) hleft fun x hx => by
      rw [List.mem_singleton.1 hx]
      exact hshape)
  have hmem : ∀ i ∈ ([3, 2] : List ParticipantId), i ∈ participants 3 := by
    intro i hi
    rcases List.mem_pair.1 hi with rfl | rfl
    · exact mem_participants.2 ⟨rfl, le_refl _⟩
    · exact mem_participants.2 ⟨rfl, by decide⟩
  let cs : List (SigningCommitment Scalar) := [⟨2, 7, 6⟩, round1Commit scalarGroup 3 ⟨4, 5⟩]
  have hswap : ([2, 3] : List ParticipantId).Perm [3, 2] := List.Perm.swap 3 2 []
  refine ⟨d, hd, Y, keyShare, (hshares 3 (hmem 3 List.mem_cons_self)).1, ?_⟩
  exact (hsign [3, 2] cs [9]
    (fun i => if i = 3 then round2Sign id scalarGroup (keyShare 3) ⟨4, 5⟩ [9] [2, 3] cs else 0)
    (by decide) hmem (le_refl _) hswap).2.2 3 List.mem_cons_self ⟨4, 5⟩ [2, 3] cs
    (List.mem_cons_of_mem _ List.mem_cons_self) hswap (List.Perm.refl _) rfl

end Frost

end Mpc

end NovaChannel
