import NovaChannel.Mpc.Dealer

/-!
# The distributed key and threshold decryption

Everyone sums the shares and the commitments of the dealers that were not excluded.  The shares
are then values of one polynomial whose constant term is the secret key of the group.

* `jointPoly` : the sum of the dealers' polynomials (`finalizeKeyShareExcludingFaulty_dealers`);
* `thresholdDecryption_correct` : **any quorum decrypts what was sent to the group**.
-/

namespace NovaChannel

namespace Mpc

open Polynomial
open Shamir (poly lagrangeAtZero)

section Definitions

variable {Point : Type} [AddCommGroup Point] [Module Scalar Point] (R : Ristretto Point)

/-! ### Key shares -/

/-- `KeyShare`. -/
structure KeyShare (Point : Type) where
  participantId : ParticipantId
  secretShare : Scalar
  groupPublicKey : Point

/-- `finalize_key_share`; `none` is the failed assertion. -/
def finalizeKeyShare (participantId : ParticipantId) (verifiedSharesFromEachDealer : List Scalar)
    (eachDealersC0 : List Point) : Option (KeyShare Point) :=
  if isValidParticipantId participantId then
    some {
      participantId := participantId
      secretShare := verifiedSharesFromEachDealer.foldl (· + ·) 0
      groupPublicKey := eachDealersC0.foldl (· + ·) 0 }
  else none

/-- `identify_faulty_dealers`. -/
def identifyFaultyDealers [DecidableEq Point] (dealerCommitments : List (List Point))
    (dealerShares : List (SortedMap ParticipantId Scalar)) : List ℕ :=
  (dealerCommitments.zip dealerShares).zipIdx.filterMap fun e =>
    let allValid := e.1.2.toList.all fun s => verifyShare R e.1.1 s.1 s.2
    if allValid then none else some e.2

/-- The entries of a list whose index is not excluded. -/
def surviving {α : Type} (excluded : List ℕ) (l : List α) : List α :=
  (l.zipIdx.filter fun e => e.2 ∉ excluded).map Prod.fst

/-- `finalize_key_share_excluding_faulty`; `none` is an index out of range or the failed
assertion. -/
def finalizeKeyShareExcludingFaulty (participantId : ParticipantId)
    (dealerCommitments : List (List Point))
    (dealerShares : List (SortedMap ParticipantId Scalar)) (excluded : List ℕ) :
    Option (KeyShare Point) := do
  let survivingShares ← (surviving excluded dealerShares).mapM fun shares =>
    shares.get? participantId
  let survivingC0 ← (surviving excluded dealerCommitments).mapM List.head?
  finalizeKeyShare participantId survivingShares survivingC0

/-! ### Lagrange interpolation -/

/-- The loop of `lagrange_coefficient_at_zero`: numerator and denominator. -/
def lagrangeLoop (participantId : ParticipantId) (allIds : List ParticipantId) :
    Scalar × Scalar :=
  let xi := scalarFromId participantId
  allIds.foldl (fun (acc : Scalar × Scalar) other =>
    if other = participantId then acc
    else
      let xj := scalarFromId other
      (acc.1 * xj, acc.2 * (xj - xi))) (1, 1)

/-- `lagrange_coefficient_at_zero`. -/
def lagrangeCoefficientAtZero (participantId : ParticipantId) (allIds : List ParticipantId) :
    Scalar :=
  let (num, den) := lagrangeLoop participantId allIds
  num * den⁻¹

/-- `partial_decrypt`. -/
def partialDecrypt (share : KeyShare Point) (r : Point) : Point := share.secretShare • r

/-- `combine_partials`. -/
def combinePartials (partials : List (ParticipantId × Point)) : Point :=
  let ids := partials.map Prod.fst
  partials.foldl (fun acc e => acc + lagrangeCoefficientAtZero e.1 ids • e.2) 0

variable (sha256 : Bytes → Bytes)

/-- What `derive_symmetric_key` hashes first. -/
def sharedSecretLabel : Bytes := "novachannel-mpc shared secret v1".toUTF8.toList

/-- `derive_symmetric_key`. -/
def deriveSymmetricKey (sharedPoint : Point) : Bytes :=
  sha256 (sharedSecretLabel ++ R.compress sharedPoint)

/-- `encapsulate`, with the ephemeral scalar it draws. -/
def encapsulate (groupPublicKey : Point) (r : Scalar) : Point × Bytes :=
  (r • R.basepoint, deriveSymmetricKey R sha256 (r • groupPublicKey))

end Definitions

/-! ### The code's interpolation -/

theorem lagrangeLoop_eq (participantId : ParticipantId) (allIds : List ParticipantId) :
    lagrangeLoop participantId allIds =
      (((allIds.filter (· ≠ participantId)).map scalarFromId).prod,
        ((allIds.filter (· ≠ participantId)).map fun j =>
          scalarFromId j - scalarFromId participantId).prod) := by
  have hgeneral : ∀ (ids : List ParticipantId) (acc : Scalar × Scalar),
      ids.foldl (fun (acc : Scalar × Scalar) other =>
        if other = participantId then acc
        else (acc.1 * scalarFromId other,
          acc.2 * (scalarFromId other - scalarFromId participantId))) acc =
      (acc.1 * ((ids.filter (· ≠ participantId)).map scalarFromId).prod,
        acc.2 * ((ids.filter (· ≠ participantId)).map fun j =>
          scalarFromId j - scalarFromId participantId).prod) := by
    intro ids
    induction ids with
    | nil => simp
    | cons id ids ih =>
      intro acc
      rw [List.foldl_cons, ih]
      by_cases hid : id = participantId
      · simp [hid]
      · simp [hid, mul_assoc]
  have h := hgeneral allIds (1, 1)
  rw [one_mul, one_mul] at h
  exact h

/-- The code's coefficient is the weight of the share. -/
theorem lagrangeCoefficientAtZero_eq (participantId : ParticipantId)
    (allIds : List ParticipantId) :
    lagrangeCoefficientAtZero participantId allIds =
      lagrangeAtZero scalarFromId participantId allIds := by
  rw [lagrangeCoefficientAtZero, lagrangeLoop_eq]
  rfl

/-- **No denominator is zero**, whatever ids there are. -/
theorem lagrangeLoop_ne_zero (participantId : ParticipantId) (allIds : List ParticipantId) :
    (lagrangeLoop participantId allIds).2 ≠ 0 := by
  rw [lagrangeLoop_eq]
  exact Shamir.lagrange_denominator_ne_zero scalarFromId scalarFromId_injective participantId allIds

theorem foldl_add_eq_sum {M α : Type} [AddCommMonoid M] (f : α → M) (l : List α) (m : M) :
    l.foldl (fun acc a => acc + f a) m = m + (l.map f).sum := by
  induction l generalizing m with
  | nil => simp
  | cons a l ih => rw [List.foldl_cons, ih, List.map_cons, List.sum_cons, add_assoc]

section Correctness

variable {Point : Type} [AddCommGroup Point] [Module Scalar Point] {R : Ristretto Point}

/-- Partials of the values of one polynomial combine to its constant term in the exponent. -/
theorem combinePartials_eq {p : Scalar[X]} {ids : List ParticipantId} (hnd : ids.Nodup)
    (hp : p.degree < ids.length) (P : Point) :
    combinePartials (ids.map fun id => (id, p.eval (scalarFromId id) • P)) = p.eval 0 • P := by
  have hids : (ids.map fun id => (id, p.eval (scalarFromId id) • P)).map Prod.fst = ids := by
    rw [List.map_map]
    exact List.map_id ids
  rw [combinePartials, hids, foldl_add_eq_sum (fun e : ParticipantId × Point =>
    lagrangeCoefficientAtZero e.1 ids • e.2), zero_add, List.map_map]
  simp only [Function.comp_def, lagrangeCoefficientAtZero_eq]
  exact Shamir.sum_lagrangeAtZero_smul scalarFromId scalarFromId_injective hnd hp P

/-! ### The joint polynomial -/

theorem surviving_map {α β : Type} (excluded : List ℕ) (f : α → β) (l : List α) :
    surviving excluded (l.map f) = (surviving excluded l).map f := by
  rw [surviving, surviving, List.zipIdx_map, List.filter_map, List.map_map, List.map_map]
  rfl

theorem mem_of_mem_surviving {α : Type} {excluded : List ℕ} {l : List α} {a : α}
    (h : a ∈ surviving excluded l) : a ∈ l := by
  obtain ⟨e, he, rfl⟩ := List.mem_map.1 h
  exact (List.mem_zipIdx' (List.mem_filter.1 he).1).2 ▸ List.getElem_mem _

/-- The sum of the polynomials with these coefficients. -/
noncomputable def jointPoly (coefficients : List (List Scalar)) : Scalar[X] :=
  (coefficients.map poly).sum

theorem eval_jointPoly (coefficients : List (List Scalar)) (x : Scalar) :
    (jointPoly coefficients).eval x = (coefficients.map fun cs => evaluate cs x).sum := by
  rw [jointPoly]
  induction coefficients with
  | nil => simp
  | cons cs coefficients ih =>
    rw [List.map_cons, List.sum_cons, eval_add, ih, List.map_cons, List.sum_cons, evaluate_eq]

theorem degree_jointPoly_lt {coefficients : List (List Scalar)} {t : ℕ}
    (h : ∀ cs ∈ coefficients, cs.length ≤ t) : (jointPoly coefficients).degree < t := by
  rw [jointPoly, ← mem_degreeLT]
  refine list_sum_mem fun p hp => ?_
  obtain ⟨cs, hcs, rfl⟩ := List.mem_map.1 hp
  exact mem_degreeLT.2 ((Shamir.degree_poly_lt cs).trans_le (by exact_mod_cast h cs hcs))

/-- A fallible map that succeeds, entry by entry. -/
theorem mapM_eq_some_iff {α β : Type} {f : α → Option β} {l : List α} {l' : List β} :
    l.mapM f = some l' ↔ List.Forall₂ (fun a b => f a = some b) l l' := by
  induction l generalizing l' with
  | nil => simp [eq_comm]
  | cons a l ih =>
    rw [List.mapM_cons, Option.bind_eq_bind, Option.bind_eq_some_iff, List.forall₂_cons_left_iff]
    refine exists_congr fun b => ?_
    rw [Option.bind_eq_bind, Option.bind_eq_some_iff]
    constructor
    · rintro ⟨hb, l₁, hl, heq⟩
      exact ⟨l₁, hb, ih.1 hl, (Option.some.inj heq).symm⟩
    · rintro ⟨l₁, hb, hl, rfl⟩
      exact ⟨hb, l₁, ih.2 hl, rfl⟩

theorem mapM_eq_some_map {α β : Type} {f : α → Option β} {g : α → β} {l : List α}
    (h : ∀ a ∈ l, f a = some (g a)) : l.mapM f = some (l.map g) := by
  rw [mapM_eq_some_iff, List.forall₂_map_right_iff, List.forall₂_same]
  exact h

theorem exists_of_mapM_eq_some {α β : Type} {f : α → Option β} {l : List α} {l' : List β}
    (h : l.mapM f = some l') {a : α} (ha : a ∈ l) : ∃ b, f a = some b := by
  rw [mapM_eq_some_iff] at h
  induction h with
  | nil => cases ha
  | cons hb _ ih =>
    rcases List.mem_cons.1 ha with rfl | ha
    · exact ⟨_, hb⟩
    · exact ih ha

/-- The coefficients of the dealers that are not excluded. -/
def survivingCoefficients (dealers : List (Dealer R)) (excluded : List ℕ) : List (List Scalar) :=
  (surviving excluded dealers).map Dealer.coefficients

theorem degree_survivingCoefficients_lt {t : U32} {dealers : List (Dealer R)}
    (h : ∀ d ∈ dealers, d.threshold = t) (excluded : List ℕ) :
    (jointPoly (survivingCoefficients dealers excluded)).degree < t.val := by
  refine degree_jointPoly_lt fun cs hcs => ?_
  obtain ⟨d, hd, rfl⟩ := List.mem_map.1 hcs
  rw [d.length_coefficients, h d (mem_of_mem_surviving hd)]

/-- A dealer's first commitment is one to its secret. -/
theorem Dealer.head_commitments (d : Dealer R) :
    d.commitments.head? = some (evaluate d.coefficients 0 • R.basepoint) := by
  have hpos := Fin.le_def.1 d.threshold_pos
  rw [← d.length_coefficients] at hpos
  obtain ⟨c, cs, hcs⟩ := List.exists_cons_of_ne_nil
    (List.ne_nil_of_length_pos (Nat.lt_of_lt_of_le (by decide) hpos))
  rw [d.commits, hcs, List.map_cons, List.head?_cons, evaluate_eq, Shamir.eval_poly_zero]

/-- **The key share of a participant**: the value of the joint polynomial at its id, and the
constant term in the exponent. -/
theorem finalizeKeyShareExcludingFaulty_dealers {n : U32} {dealers : List (Dealer R)}
    (hn : ∀ d ∈ dealers, d.numParticipants = n) (excluded : List ℕ) {id : ParticipantId}
    (hid : id ∈ participants n) :
    finalizeKeyShareExcludingFaulty id (dealers.map fun d => d.reveal.1)
      (dealers.map fun d => d.reveal.2) excluded = some {
        participantId := id
        secretShare :=
          (jointPoly (survivingCoefficients dealers excluded)).eval (scalarFromId id)
        groupPublicKey :=
          (jointPoly (survivingCoefficients dealers excluded)).eval 0 • R.basepoint } := by
  have hshares : ((surviving excluded dealers).map fun d => d.reveal.2).mapM
      (fun shares => shares.get? id) = some (((surviving excluded dealers).map fun d =>
        d.coefficients).map fun cs => evaluate cs (scalarFromId id)) := by
    rw [List.mapM_map, List.map_map]
    refine mapM_eq_some_map fun d hd => SortedMap.mem_toList.1 (Dealer.mem_reveal.2 ⟨?_, rfl⟩)
    rwa [hn d (mem_of_mem_surviving hd)]
  have hc0 : ((surviving excluded dealers).map fun d => d.reveal.1).mapM
      List.head? = some (((surviving excluded dealers).map fun d =>
        d.coefficients).map fun cs => evaluate cs 0 • R.basepoint) := by
    rw [List.mapM_map, List.map_map]
    exact mapM_eq_some_map fun d _ => d.head_commitments
  rw [finalizeKeyShareExcludingFaulty, surviving_map, surviving_map, hshares, hc0,
    Option.bind_eq_bind, Option.bind_some, Option.bind_eq_bind, Option.bind_some,
    finalizeKeyShare, if_pos (mem_participants.1 hid).1]
  rw [← List.sum_eq_foldl, ← List.sum_eq_foldl, ← eval_jointPoly]
  congr 2
  rw [eval_jointPoly, List.sum_smul, survivingCoefficients, List.map_map, List.map_map,
    List.map_map]
  rfl

/-- **Threshold decryption is correct**: whatever dealers of one threshold are excluded, every
quorum of at least that many participants, in any order, computes from an ephemeral point what the
holder of the group's secret would, and so the key that was encapsulated. -/
theorem thresholdDecryption_correct (sha256 : Bytes → Bytes) {t n : U32} {dealers : List (Dealer R)}
    (hdealers : ∀ d ∈ dealers, d.threshold = t ∧ d.numParticipants = n) (excluded : List ℕ) :
    ∃ (s : Scalar) (keyShare : ParticipantId → KeyShare Point),
      (∀ id ∈ participants n, finalizeKeyShareExcludingFaulty id
          (dealers.map fun d => d.reveal.1) (dealers.map fun d => d.reveal.2) excluded =
            some (keyShare id) ∧ (keyShare id).groupPublicKey = s • R.basepoint) ∧
      ∀ (r : Scalar) (quorum : List ParticipantId), quorum.Nodup →
        (∀ id ∈ quorum, id ∈ participants n) → t.val ≤ quorum.length →
        let sent := encapsulate R sha256 (s • R.basepoint) r
        let combined := combinePartials
          (quorum.map fun id => (id, partialDecrypt (keyShare id) sent.1))
        combined = s • sent.1 ∧ deriveSymmetricKey R sha256 combined = sent.2 ∧
          ∀ id ∈ quorum, (lagrangeLoop id quorum).2 ≠ 0 := by
  let p := jointPoly (survivingCoefficients dealers excluded)
  have hdegree := degree_survivingCoefficients_lt (fun d hd => (hdealers d hd).1) excluded
  refine ⟨p.eval 0, fun id => ⟨id, p.eval (scalarFromId id), p.eval 0 • R.basepoint⟩,
    fun id hid => ⟨finalizeKeyShareExcludingFaulty_dealers (fun d hd => (hdealers d hd).2)
      excluded hid, rfl⟩, fun r quorum hnd _ hlen => ?_⟩
  have hcombined := combinePartials_eq hnd
    (hdegree.trans_le (by exact_mod_cast hlen)) (r • R.basepoint)
  refine ⟨hcombined, ?_, fun id _ => lagrangeLoop_ne_zero id quorum⟩
  rw [encapsulate, smul_comm r]
  exact congrArg (deriveSymmetricKey R sha256) hcombined

/-- Two dealers of three shares, the first excluded, and the last two participants. -/
theorem thresholdDecryption_correct_two : ∃ d d' : Dealer scalarGroup,
    Dealer.new scalarGroup 2 3 (fun k => k + 1) = some d ∧
    Dealer.new scalarGroup 2 3 (fun k => k) = some d' ∧
    ∃ (s : Scalar) (keyShare : ParticipantId → KeyShare Scalar),
      finalizeKeyShareExcludingFaulty 3 [d.reveal.1, d'.reveal.1] [d.reveal.2, d'.reveal.2] [0] =
        some (keyShare 3) ∧
      combinePartials ([3, 2].map fun i =>
        (i, partialDecrypt (keyShare i) (encapsulate scalarGroup id (s • 1) 1).1)) =
        s • (encapsulate scalarGroup id (s • 1) 1).1 := by
  obtain ⟨d, hd⟩ : ∃ d, Dealer.new scalarGroup 2 3 (fun k => k + 1) = some d := ⟨_, rfl⟩
  obtain ⟨d', hd'⟩ : ∃ d', Dealer.new scalarGroup 2 3 (fun k => k) = some d' := ⟨_, rfl⟩
  have hdealers : ∀ x ∈ [d, d'], x.threshold = 2 ∧ x.numParticipants = 3 := by
    intro x hx
    obtain rfl := Option.some.inj hd
    obtain rfl := Option.some.inj hd'
    rcases List.mem_pair.1 hx with rfl | rfl <;> exact ⟨rfl, rfl⟩
  obtain ⟨s, keyShare, hshares, hquorum⟩ := thresholdDecryption_correct id hdealers [0]
  have h3 : (3 : ParticipantId) ∈ participants 3 := mem_participants.2 ⟨rfl, le_refl _⟩
  have h2 : (2 : ParticipantId) ∈ participants 3 := mem_participants.2 ⟨rfl, by decide⟩
  have hmem : ∀ i ∈ ([3, 2] : List ParticipantId), i ∈ participants 3 := by
    intro i hi
    rcases List.mem_pair.1 hi with rfl | rfl
    · exact h3
    · exact h2
  exact ⟨d, d', hd, hd', s, keyShare, (hshares 3 h3).1,
    (hquorum 1 [3, 2] (by decide) hmem (le_refl _)).1⟩

end Correctness

end Mpc

end NovaChannel
