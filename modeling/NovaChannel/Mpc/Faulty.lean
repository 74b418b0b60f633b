import NovaChannel.Mpc.Dkg

/-!
# Malicious dealers

A dealer may broadcast any vector of commitments and hand out any shares.  One whose shares do not
all verify is left out; nothing is asked of the length of its vector, nor that it dealt to everyone.

* `surviving_identifyFaultyDealers` : who is left;
* `robust_iff` : **exactly when the key of those who are left is sound**;
* `not_robust_empty` : a dealer that broadcasts nothing at all.
-/

namespace NovaChannel

namespace Mpc

open Polynomial
open Shamir (poly lagrangeAtZero)

section Definitions

variable {Point : Type} [AddCommGroup Point] [Module Scalar Point] (R : Ristretto Point)

/-- What a dealer sends out: commitments, and shares. -/
abbrev Dealing (Point : Type) : Type := List Point × SortedMap ParticipantId Scalar

/-- The multiple of the basepoint that a point is. -/
noncomputable def Ristretto.log (P : Point) : Scalar := (R.exists_log P).choose

theorem Ristretto.log_smul (P : Point) : R.log P • R.basepoint = P :=
  (R.exists_log P).choose_spec.symm

variable [DecidableEq Point]

/-- Every share of the dealer verifies. -/
def allValid (d : Dealing Point) : Bool := d.2.toList.all fun s => verifyShare R d.1 s.1 s.2

/-- The dealers that are not flagged. -/
def unflagged (dealers : List (Dealing Point)) : List (Dealing Point) :=
  dealers.filter (allValid R)

/-- The key share of a participant, once the dealers that are flagged are excluded. -/
def outcome (dealers : List (Dealing Point)) (id : ParticipantId) : Option (KeyShare Point) :=
  finalizeKeyShareExcludingFaulty id (dealers.map Prod.fst) (dealers.map Prod.snd)
    (identifyFaultyDealers R (dealers.map Prod.fst) (dealers.map Prod.snd))

/-- Every participant gets a key share; the shares lie on one polynomial below the threshold, with
the group's key for its constant term; and every quorum interpolates to that. -/
def Robust (t n : U32) (dealers : List (Dealing Point)) : Prop :=
  (∀ id ∈ participants n, ∃ share, outcome R dealers id = some share) ∧
  ∃ f : Scalar[X], f.degree < t.val ∧ ∀ keyShare : ParticipantId → KeyShare Point,
    (∀ id ∈ participants n, outcome R dealers id = some (keyShare id)) →
      (∀ id ∈ participants n, (keyShare id).secretShare = f.eval (scalarFromId id) ∧
        (keyShare id).groupPublicKey = f.eval 0 • R.basepoint) ∧
      ∀ quorum : List ParticipantId, quorum.Nodup → (∀ id ∈ quorum, id ∈ participants n) →
        t.val ≤ quorum.length →
        (quorum.map fun id => lagrangeCoefficientAtZero id quorum *
          (keyShare id).secretShare).sum = f.eval 0

/-- A dealer that is not flagged committed to something and dealt to every participant. -/
def Complete (n : U32) (dealers : List (Dealing Point)) : Prop :=
  ∀ d ∈ unflagged R dealers, d.1 ≠ [] ∧ ∀ id ∈ participants n, d.2.contains id = true

/-- The sum of the polynomials that the dealers who are not flagged committed to. -/
noncomputable def committedPoly (dealers : List (Dealing Point)) : Scalar[X] :=
  jointPoly ((unflagged R dealers).map fun d => d.1.map R.log)

/-- The polynomial that vanishes at zero and at every participant. -/
noncomputable def vanishing (n : U32) : Scalar[X] := Lagrange.nodal (Finset.Iic n) scalarFromId

end Definitions

section Robustness

variable {Point : Type} [AddCommGroup Point] [Module Scalar Point] {R : Ristretto Point}
  [DecidableEq Point] {dealers : List (Dealing Point)}

/-! ### Who is left -/

/-- Who is flagged. -/
theorem mem_identifyFaultyDealers {k : ℕ} :
    k ∈ identifyFaultyDealers R (dealers.map Prod.fst) (dealers.map Prod.snd) ↔
      ∃ d, (d, k) ∈ dealers.zipIdx ∧ allValid R d = false := by
  have hzip : (dealers.map Prod.fst).zip (dealers.map Prod.snd) = dealers := by
    rw [← List.unzip_fst, ← List.unzip_snd]
    exact List.zip_unzip dealers
  rw [identifyFaultyDealers, hzip, List.mem_filterMap]
  constructor
  · rintro ⟨⟨d, k'⟩, hmem, hsome⟩
    cases hvalid : allValid R d with
    | true =>
      rw [allValid] at hvalid
      simp [hvalid] at hsome
    | false =>
      rw [allValid] at hvalid
      simp only [hvalid, Bool.false_eq_true, if_false, Option.some.injEq] at hsome
      subst hsome
      exact ⟨d, hmem, by rw [allValid, hvalid]⟩
  · rintro ⟨d, hmem, hvalid⟩
    rw [allValid] at hvalid
    exact ⟨(d, k), hmem, by simp [hvalid]⟩

/-- **Who is left**: the dealers whose shares all verify. -/
theorem surviving_identifyFaultyDealers :
    surviving (identifyFaultyDealers R (dealers.map Prod.fst) (dealers.map Prod.snd)) dealers =
      unflagged R dealers := by
  have hsame : (dealers.zipIdx.filter fun e =>
      e.2 ∉ identifyFaultyDealers R (dealers.map Prod.fst) (dealers.map Prod.snd)) =
      dealers.zipIdx.filter (allValid R ∘ Prod.fst) := by
    refine List.filter_congr fun e he => ?_
    rw [Function.comp_apply, Bool.eq_iff_iff, decide_eq_true_iff, mem_identifyFaultyDealers]
    constructor
    · intro hnot
      by_contra hvalid
      exact hnot ⟨e.1, he, by simpa using hvalid⟩
    · rintro hvalid ⟨d, hd, hinvalid⟩
      -- there is one dealer at each index
      have hsome := List.mk_mem_zipIdx_iff_getElem?.1 hd
      rw [List.mem_zipIdx_iff_getElem?.1 he] at hsome
      rw [Option.some.inj hsome] at hvalid
      rw [hvalid] at hinvalid
      cases hinvalid
  rw [surviving, hsame, ← List.filter_map, List.zipIdx_map_fst, unflagged]

/-- A share that verifies is the value of the polynomial committed to. -/
theorem get?_of_allValid {d : Dealing Point} (hd : allValid R d = true) {id : ParticipantId}
    {share : Scalar} (h : d.2.get? id = some share) :
    share = evaluate (d.1.map R.log) (scalarFromId id) := by
  have hverify := List.all_eq_true.1 hd _ (SortedMap.mem_toList.2 h)
  have hpoints : d.1 = (d.1.map R.log).map (· • R.basepoint) := by
    rw [List.map_map]
    conv_lhs => rw [← List.map_id d.1]
    exact List.map_congr_left fun P _ => (R.log_smul P).symm
  rw [hpoints, verifyShare_iff] at hverify
  exact hverify.2

/-- When a participant gets a key share, and which. -/
theorem outcome_eq_some {id : ParticipantId} (hid : isValidParticipantId id = true)
    {share : KeyShare Point} :
    outcome R dealers id = some share ↔
      (∀ d ∈ unflagged R dealers, d.1 ≠ [] ∧ d.2.contains id = true) ∧
      share = ⟨id, (committedPoly R dealers).eval (scalarFromId id),
        (committedPoly R dealers).eval 0 • R.basepoint⟩ := by
  have hvalue : ∀ (ds : List (Dealing Point)), (∀ d ∈ ds, allValid R d = true) →
      (∀ d ∈ ds, d.2.contains id = true) → ds.mapM (fun d => d.2.get? id) =
        some ((ds.map fun d => d.1.map R.log).map fun cs => evaluate cs (scalarFromId id)) := by
    intro ds hall hheld
    rw [List.map_map]
    refine mapM_eq_some_map fun d hd => ?_
    obtain ⟨s, hs⟩ := Option.isSome_iff_exists.1 (hheld d hd)
    rw [hs, Function.comp_apply, get?_of_allValid (hall d hd) hs]
  have hhead : ∀ (ds : List (Dealing Point)), (∀ d ∈ ds, d.1 ≠ []) →
      ds.mapM (fun d => d.1.head?) = some ((ds.map fun d => d.1.map R.log).map fun cs =>
        evaluate cs 0 • R.basepoint) := by
    intro ds hne
    rw [List.map_map]
    refine mapM_eq_some_map fun d hd => ?_
    obtain ⟨P, Ps, hP⟩ := List.exists_cons_of_ne_nil (hne d hd)
    rw [hP, List.head?_cons, Function.comp_apply, hP, List.map_cons, evaluate_eq,
      Shamir.eval_poly_zero, R.log_smul]
  rw [outcome, finalizeKeyShareExcludingFaulty, surviving_map, surviving_map,
    surviving_identifyFaultyDealers, List.mapM_map, List.mapM_map, Option.bind_eq_bind,
    Option.bind_eq_some_iff]
  have hvalid : ∀ d ∈ unflagged R dealers, allValid R d = true := fun d hd =>
    (List.mem_filter.1 hd).2
  have hsecret : (committedPoly R dealers).eval (scalarFromId id) =
      (((unflagged R dealers).map fun d => d.1.map R.log).map fun cs =>
        evaluate cs (scalarFromId id)).foldl (· + ·) 0 := by
    rw [← List.sum_eq_foldl, committedPoly, eval_jointPoly]
  have hpublic : (committedPoly R dealers).eval 0 • R.basepoint =
      (((unflagged R dealers).map fun d => d.1.map R.log).map fun cs =>
        evaluate cs 0 • R.basepoint).foldl (· + ·) 0 := by
    rw [← List.sum_eq_foldl, committedPoly, eval_jointPoly, List.sum_smul, List.map_map]
    rfl
  constructor
  · rintro ⟨shares, hshares, h⟩
    rw [Option.bind_eq_bind, Option.bind_eq_some_iff] at h
    obtain ⟨c0, hc0, h⟩ := h
    have hheld : ∀ d ∈ unflagged R dealers, d.2.contains id = true := by
      intro d hd
      obtain ⟨s, hs⟩ := exists_of_mapM_eq_some hshares hd
      exact Option.isSome_iff_exists.2 ⟨s, hs⟩
    have hne : ∀ d ∈ unflagged R dealers, d.1 ≠ [] := by
      intro d hd hnil
      obtain ⟨P, hP⟩ := exists_of_mapM_eq_some hc0 hd
      rw [Function.comp_apply] at hP
      rw [hnil] at hP
      cases hP
    refine ⟨fun d hd => ⟨hne d hd, hheld d hd⟩, ?_⟩
    obtain rfl := Option.some.inj (hshares.symm.trans (hvalue _ hvalid hheld))
    obtain rfl := Option.some.inj (hc0.symm.trans (hhead _ hne))
    rw [finalizeKeyShare, if_pos hid] at h
    rw [hsecret, hpublic]
    exact (Option.some.inj h).symm
  · rintro ⟨hcomplete, rfl⟩
    refine ⟨_, hvalue _ hvalid fun d hd => (hcomplete d hd).2, ?_⟩
    have hc0 := hhead _ fun d hd => (hcomplete d hd).1
    rw [Option.bind_eq_bind, Option.bind_eq_some_iff]
    exact ⟨_, hc0, by rw [finalizeKeyShare, if_pos hid, hsecret, hpublic]⟩

/-! ### When the key is sound -/

/-- Zero and the participants. -/
theorem mem_Iic_iff {n id : U32} : id ∈ Finset.Iic n ↔ id = 0 ∨ id ∈ participants n := by
  rw [Finset.mem_Iic, mem_participants]
  by_cases hid : id = 0
  · simp [hid]
  · simp [hid, isValidParticipantId]

/-- **When the outcome is sound.**  Every dealer that is not flagged committed to something and
dealt to every participant, and their polynomials sum to one that, up to what vanishes at zero and
at every participant, is below the threshold. -/
theorem robust_iff (R : Ristretto Point) {t n : U32} (ht : 1 ≤ t) (htn : t ≤ n)
    (dealers : List (Dealing Point)) :
    Robust R t n dealers ↔
      Complete R n dealers ∧ (committedPoly R dealers %ₘ vanishing n).degree < t.val := by
  have hcard : t.val ≤ (Finset.Iic n).card := by
    rw [Fin.card_Iic]
    exact Nat.le_succ_of_le htn
  rw [vanishing, ← Shamir.exists_eval_eq_iff scalarFromId
    (scalarFromId_injective.injOn (s := Finset.Iic n)) hcard]
  have hvalid : ∀ id ∈ participants n, isValidParticipantId id = true := fun id hid =>
    (mem_participants.1 hid).1
  constructor
  · rintro ⟨hreturns, f, hdegree, hf⟩
    have hcomplete : Complete R n dealers := by
      have hone : (1 : U32) ∈ participants n := mem_participants.2 ⟨rfl, ht.trans htn⟩
      intro d hd
      obtain ⟨share, hshare⟩ := hreturns 1 hone
      refine ⟨(((outcome_eq_some (hvalid 1 hone)).1 hshare).1 d hd).1, fun id hid => ?_⟩
      obtain ⟨share, hshare⟩ := hreturns id hid
      exact (((outcome_eq_some (hvalid id hid)).1 hshare).1 d hd).2
    refine ⟨hcomplete, f, hdegree, fun id hid => ?_⟩
    have hshares : ∀ i ∈ participants n, outcome R dealers i = some
        ⟨i, (committedPoly R dealers).eval (scalarFromId i),
          (committedPoly R dealers).eval 0 • R.basepoint⟩ := fun i hi =>
      (outcome_eq_some (hvalid i hi)).2
        ⟨fun d hd => ⟨(hcomplete d hd).1, (hcomplete d hd).2 i hi⟩, rfl⟩
    obtain ⟨hvalues, -⟩ := hf _ hshares
    rcases mem_Iic_iff.1 hid with rfl | hid
    · obtain ⟨-, hkey⟩ := hvalues 1 (mem_participants.2 ⟨rfl, ht.trans htn⟩)
      rw [scalarFromId_zero]
      exact R.smul_basepoint_inj.1 hkey
    · exact (hvalues id hid).1
  · rintro ⟨hcomplete, f, hdegree, hf⟩
    have hshares : ∀ i ∈ participants n, outcome R dealers i = some
        ⟨i, (committedPoly R dealers).eval (scalarFromId i),
          (committedPoly R dealers).eval 0 • R.basepoint⟩ := fun i hi =>
      (outcome_eq_some (hvalid i hi)).2
        ⟨fun d hd => ⟨(hcomplete d hd).1, (hcomplete d hd).2 i hi⟩, rfl⟩
    refine ⟨fun id hid => ⟨_, hshares id hid⟩, f, hdegree, fun keyShare hkeyShare => ?_⟩
    have hzero : f.eval 0 = (committedPoly R dealers).eval 0 := by
      have h := hf 0 (mem_Iic_iff.2 (.inl rfl))
      rw [scalarFromId_zero] at h
      exact h.symm
    have hvalues : ∀ id ∈ participants n, (keyShare id).secretShare = f.eval (scalarFromId id) ∧
        (keyShare id).groupPublicKey = f.eval 0 • R.basepoint := by
      intro id hid
      rw [← Option.some.inj ((hshares id hid).symm.trans (hkeyShare id hid))]
      exact ⟨hf id (mem_Iic_iff.2 (.inr hid)), by rw [hzero]⟩
    refine ⟨hvalues, fun quorum hnd hquorum hlen => ?_⟩
    rw [← Shamir.sum_lagrangeAtZero scalarFromId scalarFromId_injective hnd
      (hdegree.trans_le (by exact_mod_cast hlen))]
    refine congrArg List.sum (List.map_congr_left fun id hid => ?_)
    rw [lagrangeCoefficientAtZero_eq, (hvalues id (hquorum id hid)).1]

/-- One dealer that broadcasts nothing; and one that shares the constant 5, whose outcome is
sound. -/
theorem robust_iff_one :
    (Robust scalarGroup 1 1 [([], .empty)] ↔ Complete scalarGroup 1 [([], .empty)] ∧
      (committedPoly scalarGroup [([], .empty)] %ₘ vanishing 1).degree < (1 : U32).val) ∧
    Robust scalarGroup 1 1 [([5], SortedMap.empty.insert 1 5)] := by
  refine ⟨robust_iff scalarGroup (le_refl _) (le_refl _) [([], .empty)],
    (robust_iff scalarGroup (le_refl _) (le_refl _) _).2 ⟨fun d hd => ?_, ?_⟩⟩
  · obtain rfl := List.mem_singleton.1 (List.mem_of_mem_filter hd)
    refine ⟨List.cons_ne_nil _ _, fun id hid => ?_⟩
    obtain rfl : id = 1 := List.mem_singleton.1 hid
    rfl
  · refine Polynomial.degree_modByMonic_le_left.trans_lt (degree_jointPoly_lt fun cs hcs => ?_)
    obtain ⟨d, hd, rfl⟩ := List.mem_map.1 hcs
    obtain rfl := List.mem_singleton.1 (List.mem_of_mem_filter hd)
    exact le_refl 1

/-- **A dealer that broadcasts nothing** is not flagged, and leaves no one with a key. -/
theorem not_robust_empty : ¬ ∀ (t n : U32) (dealers : List (Dealing Scalar)), 1 ≤ t → t ≤ n →
    Robust scalarGroup t n dealers := by
  intro hrobust
  have hone : (1 : U32) ∈ participants 1 := mem_participants.2 ⟨rfl, le_refl _⟩
  obtain ⟨share, hshare⟩ :=
    (hrobust 1 1 [([], .empty)] (le_refl _) (le_refl _)).1 1 hone
  have hunflagged : ([], .empty) ∈ unflagged scalarGroup [([], .empty)] :=
    List.mem_filter.2 ⟨List.mem_cons_self, rfl⟩
  exact (((outcome_eq_some rfl).1 hshare).1 _ hunflagged).1 rfl

end Robustness

end Mpc

end NovaChannel
