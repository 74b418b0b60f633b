import NovaChannel.Mpc.Dkg
import NovaChannel.Transport

/-!
# Post-quantum threshold encryption

A sender shares a master secret among operators, each share sealed under a key of its own from a
KEM, and seals the payload under a key derived from the master secret.

* `encryptToGroup`, `partialDecrypt`, `combineAndDecrypt` : the source;
* `thresholdKem_roundTrip` : **every quorum reads the payload**, and no operator opens a share under
  another's KEM ciphertext;
* `perfect_secrecy` : **too few shares say nothing about the secret**, and none is the secret.
-/

namespace NovaChannel

namespace Mpc

namespace ThresholdKem

open Transport (Aead)
open Wire (FixedBytes)
open Shamir (poly)

/-- ML-KEM-1024, HKDF-SHA256 and ChaCha20-Poly1305. -/
structure Primitives where
  /-- The encapsulation key of a decapsulation key. -/
  publicKey : Bytes → Bytes
  /-- `encapsulate_with_rng`, with what it draws: ciphertext and shared secret. -/
  encapsulate : Bytes → Bytes → Bytes × Bytes
  decapsulate : Bytes → Bytes → Bytes
  /-- `hkdf_expand_32`. -/
  hkdfExpand32 : Bytes → Bytes → Bytes
  aead : Aead

/-- `SHARE_WRAP_INFO`. -/
def shareWrapInfo : Bytes := "novachannel-mpc threshold-kem share-wrap v1".toUTF8.toList
/-- `PAYLOAD_KEY_INFO`. -/
def payloadKeyInfo : Bytes := "novachannel-mpc threshold-kem payload-key v1".toUTF8.toList

section Definitions

variable (K : Primitives)

/-- `OperatorKeyPair`. -/
structure OperatorKeyPair where
  id : ParticipantId
  publicKey : Bytes
  secret : Bytes
  valid : isValidParticipantId id = true
  publicKey_eq : publicKey = K.publicKey secret

/-- `generate`, with the key it draws; `none` is the failed assertion. -/
def OperatorKeyPair.generate (id : ParticipantId) (secret : Bytes) : Option (OperatorKeyPair K) :=
  if h : isValidParticipantId id = true then some ⟨id, K.publicKey secret, secret, h, rfl⟩
  else none

/-- `aead_seal`, with the nonce it draws; `none` is the failed `expect`. -/
def aeadSeal (key : Bytes) (nonce : FixedBytes 12) (plaintext : Bytes) : Option Bytes :=
  (K.aead.encrypt key nonce.1 [] plaintext).map (nonce.1 ++ ·)

/-- `aead_open`. -/
def aeadOpen (key sealed : Bytes) : Except String Bytes :=
  if sealed.length < 12 then .error "ciphertext too short to contain a nonce"
  else
    match K.aead.decrypt key (sealed.take 12) [] (sealed.drop 12) with
    | none => .error "AEAD authentication failed"
    | some plaintext => .ok plaintext

/-- `OperatorShare`. -/
structure OperatorShare where
  ciphertext : Bytes
  wrappedShare : Bytes
  deriving DecidableEq

/-- `GroupCiphertext`. -/
structure GroupCiphertext where
  shares : SortedMap ParticipantId OperatorShare
  threshold : U32
  payload : Bytes

/-- What `encrypt_to_group` draws. -/
structure Draws where
  /-- The master secret first. -/
  scalar : ℕ → Scalar
  seed : ParticipantId → Bytes
  nonce : ParticipantId → FixedBytes 12
  payloadNonce : FixedBytes 12

/-- The coefficients of the master secret's polynomial. -/
def sharingCoefficients (draws : Draws) (threshold : U32) : List Scalar :=
  draws.scalar 0 :: (List.range' 1 (threshold.val - 1)).map draws.scalar

/-- One operator's share, encapsulated and sealed. -/
def wrapShare (draws : Draws) (coefficients : List Scalar) (id : ParticipantId)
    (publicKey : Bytes) : Option OperatorShare := do
  let share := evaluate coefficients (scalarFromId id)
  let encapsulated := K.encapsulate publicKey (draws.seed id)
  let wrapKey := K.hkdfExpand32 encapsulated.2 shareWrapInfo
  let wrappedShare ← aeadSeal K wrapKey (draws.nonce id) (scalarBytes share)
  some ⟨encapsulated.1, wrappedShare⟩

/-- `encrypt_to_group`; `none` is a failed assertion. -/
def encryptToGroup (operators : SortedMap ParticipantId Bytes) (threshold : U32) (draws : Draws)
    (plaintext : Bytes) : Option GroupCiphertext :=
  if ¬ (1 ≤ threshold ∧ threshold.val ≤ operators.toList.length) then none
  else if ¬ operators.keys.all isValidParticipantId then none
  else do
    let masterSecret := draws.scalar 0
    let coefficients := sharingCoefficients draws threshold
    let shares ← operators.toList.mapM fun e =>
      (wrapShare K draws coefficients e.1 e.2).map fun share => (e.1, share)
    let payloadKey := K.hkdfExpand32 (scalarBytes masterSecret) payloadKeyInfo
    let payload ← aeadSeal K payloadKey draws.payloadNonce plaintext
    some ⟨SortedMap.collect shares, threshold, payload⟩

/-- `partial_decrypt`. -/
def partialDecrypt (operator : OperatorKeyPair K) (groupCiphertext : GroupCiphertext) :
    Except String (ParticipantId × Scalar) :=
  match groupCiphertext.shares.get? operator.id with
  | none => .error "this operator has no share in the given ciphertext"
  | some myShare => do
    let sharedSecret := K.decapsulate operator.secret myShare.ciphertext
    let wrapKey := K.hkdfExpand32 sharedSecret shareWrapInfo
    let shareBytes ← aeadOpen K wrapKey myShare.wrappedShare
    if shareBytes.length ≠ 32 then .error "unwrapped share had the wrong length"
    else
      match fromCanonicalBytes shareBytes with
      | none => .error "unwrapped share was not a canonical scalar"
      | some share => .ok (operator.id, share)

/-- The scalar a list of partials interpolates. -/
def interpolated (partials : List (ParticipantId × Scalar)) : Scalar :=
  let ids := partials.map Prod.fst
  partials.foldl (fun acc e => acc + lagrangeCoefficientAtZero e.1 ids * e.2) 0

/-- `combine_and_decrypt`. -/
def combineAndDecrypt (partials : List (ParticipantId × Scalar))
    (groupCiphertext : GroupCiphertext) : Except String Bytes :=
  let masterSecret := interpolated partials
  let payloadKey := K.hkdfExpand32 (scalarBytes masterSecret) payloadKeyInfo
  aeadOpen K payloadKey groupCiphertext.payload

/-- The KEM ciphertexts of a group handed round among its entries. -/
def permuteCiphertexts (π : Equiv.Perm ParticipantId) (sent : GroupCiphertext) :
    GroupCiphertext where
  shares := sent.shares.filterMap fun id share =>
    (sent.shares.get? (π id)).map fun other => ⟨other.ciphertext, share.wrappedShare⟩
  threshold := sent.threshold
  payload := sent.payload

variable {K} in
/-- The operators' public keys by their ids. -/
def publicKeys (operators : List (OperatorKeyPair K)) : SortedMap ParticipantId Bytes :=
  SortedMap.collect (operators.map fun o => (o.id, o.publicKey))

end Definitions

/-! ### What the primitives promise -/

/-- **The primitives do their job, and commit to their keys.** -/
structure Lawful (K : Primitives) : Prop where
  decapsulate_encapsulate : ∀ secret seed,
    K.decapsulate secret (K.encapsulate (K.publicKey secret) seed).1 =
      (K.encapsulate (K.publicKey secret) seed).2
  /-- A shared secret comes from one ciphertext only. -/
  secret_commits : ∀ secret seed ciphertext,
    K.decapsulate secret ciphertext = (K.encapsulate (K.publicKey secret) seed).2 →
      ciphertext = (K.encapsulate (K.publicKey secret) seed).1
  /-- Ciphertexts for different keys differ. -/
  ciphertext_commits : ∀ publicKey publicKey' seed seed',
    (K.encapsulate publicKey seed).1 = (K.encapsulate publicKey' seed').1 →
      publicKey = publicKey'
  hkdf_inj : ∀ secret secret' info,
    K.hkdfExpand32 secret info = K.hkdfExpand32 secret' info → secret = secret'
  decrypt_encrypt : ∀ key nonce message ciphertext,
    K.aead.encrypt key nonce [] message = some ciphertext →
      K.aead.decrypt key nonce [] ciphertext = some message
  /-- A ciphertext opens under one key only. -/
  key_commits : ∀ key key' nonce message ciphertext message',
    K.aead.encrypt key nonce [] message = some ciphertext →
      K.aead.decrypt key' nonce [] ciphertext = some message' → key' = key
  /-- Encryption does not fail within the cipher's limit. -/
  accepts : ∀ key nonce message, message.length < 64 * (2 ^ 32 - 1) →
    (K.aead.encrypt key nonce [] message).isSome = true

section Lemmas

variable {K : Primitives}

/-- What was sealed opens. -/
theorem aeadOpen_aeadSeal (hK : Lawful K) {key sealed plaintext : Bytes} {nonce : FixedBytes 12}
    (h : aeadSeal K key nonce plaintext = some sealed) : aeadOpen K key sealed = .ok plaintext := by
  obtain ⟨ciphertext, hcipher, rfl⟩ := Option.map_eq_some_iff.1 h
  have hlength : ¬ (nonce.1 ++ ciphertext).length < 12 := by
    rw [List.length_append, nonce.2]
    omega
  rw [aeadOpen, if_neg hlength, List.take_left' nonce.2, List.drop_left' nonce.2,
    hK.decrypt_encrypt _ _ _ _ hcipher]

/-- Nothing opens under another key. -/
theorem aeadOpen_ne_ok (hK : Lawful K) {key key' sealed plaintext : Bytes} {nonce : FixedBytes 12}
    (h : aeadSeal K key nonce plaintext = some sealed) (hkey : key' ≠ key) :
    ∃ e, aeadOpen K key' sealed = .error e := by
  obtain ⟨ciphertext, hcipher, rfl⟩ := Option.map_eq_some_iff.1 h
  rw [aeadOpen, List.take_left' nonce.2, List.drop_left' nonce.2]
  split_ifs
  · exact ⟨_, rfl⟩
  · cases hopen : K.aead.decrypt key' nonce.1 [] ciphertext with
    | none => exact ⟨_, rfl⟩
    | some message => exact absurd (hK.key_commits _ _ _ _ _ _ hcipher hopen) hkey

theorem isSome_aeadSeal (hK : Lawful K) (key : Bytes) (nonce : FixedBytes 12) {plaintext : Bytes}
    (h : plaintext.length < 64 * (2 ^ 32 - 1)) :
    (aeadSeal K key nonce plaintext).isSome = true := by
  rw [aeadSeal, Option.isSome_map]
  exact hK.accepts _ _ _ h

theorem length_sharingCoefficients (draws : Draws) {threshold : U32} (h : 1 ≤ threshold) :
    (sharingCoefficients draws threshold).length = threshold.val := by
  have hpos : 1 ≤ threshold.val := Fin.le_def.1 h
  rw [sharingCoefficients, List.length_cons, List.length_map, List.length_range']
  omega

/-- The constant term is the master secret. -/
theorem eval_sharingCoefficients (draws : Draws) (threshold : U32) :
    (poly (sharingCoefficients draws threshold)).eval 0 = draws.scalar 0 :=
  Shamir.eval_poly_zero _ _

/-- Related lists have related members. -/
theorem exists_of_forall₂ {α β : Type} {r : α → β → Prop} {l : List α} {l' : List β}
    (h : List.Forall₂ r l l') : (∀ b ∈ l', ∃ a ∈ l, r a b) ∧ ∀ a ∈ l, ∃ b ∈ l', r a b := by
  induction h with
  | nil => exact ⟨fun b hb => (by cases hb), fun a ha => (by cases ha)⟩
  | @cons a b l l' hab _ ih =>
    refine ⟨fun y hy => ?_, fun x hx => ?_⟩
    · rcases List.mem_cons.1 hy with rfl | hy
      · exact ⟨a, List.mem_cons_self, hab⟩
      · obtain ⟨x, hx, hr⟩ := ih.1 y hy
        exact ⟨x, List.mem_cons_of_mem _ hx, hr⟩
    · rcases List.mem_cons.1 hx with rfl | hx
      · exact ⟨b, List.mem_cons_self, hab⟩
      · obtain ⟨y, hy, hr⟩ := ih.2 x hx
        exact ⟨y, List.mem_cons_of_mem _ hy, hr⟩

/-- The shares of a group, wrapped one by one under their ids. -/
theorem get?_wrapped {operators : SortedMap ParticipantId Bytes} {draws : Draws}
    {coefficients : List Scalar} {shares : List (ParticipantId × OperatorShare)}
    (h : operators.toList.mapM (fun e =>
      (wrapShare K draws coefficients e.1 e.2).map fun share => (e.1, share)) = some shares)
    {id : ParticipantId} {share : OperatorShare} :
    (SortedMap.collect shares).get? id = some share ↔ ∃ publicKey,
      operators.get? id = some publicKey ∧
        wrapShare K draws coefficients id publicKey = some share := by
  have hall := mapM_eq_some_iff.1 h
  have hkeys : operators.toList.map (·.1) = shares.map (·.1) := by
    rw [← List.forall₂_eq_eq_eq, List.forall₂_map_left_iff, List.forall₂_map_right_iff]
    refine hall.imp fun e s hs => ?_
    obtain ⟨share, -, rfl⟩ := Option.map_eq_some_iff.1 hs
    rfl
  have hnd : (shares.map (·.1)).Nodup := hkeys ▸ SortedMap.nodup_keys operators
  obtain ⟨hfrom, hto⟩ := exists_of_forall₂ hall
  rw [SortedMap.get?_collect hnd]
  constructor
  · intro hmem
    obtain ⟨⟨i, publicKey⟩, he, hs⟩ := hfrom _ hmem
    obtain ⟨_, hwrap, heq⟩ := Option.map_eq_some_iff.1 hs
    obtain ⟨rfl, rfl⟩ := Prod.mk.inj heq
    exact ⟨publicKey, SortedMap.mem_toList.1 he, hwrap⟩
  · rintro ⟨publicKey, hget, hwrap⟩
    obtain ⟨s, hs, heq⟩ := hto _ (SortedMap.mem_toList.2 hget)
    rw [hwrap, Option.map_some] at heq
    exact Option.some.inj heq ▸ hs

/-- **What `encrypt_to_group` returns**: a share for every operator, and the payload. -/
theorem encryptToGroup_eq_some {operators : SortedMap ParticipantId Bytes} {threshold : U32}
    {draws : Draws} {plaintext : Bytes} {sent : GroupCiphertext}
    (h : encryptToGroup K operators threshold draws plaintext = some sent) :
    (1 ≤ threshold ∧ threshold.val ≤ operators.toList.length) ∧
      (∀ id ∈ operators.keys, isValidParticipantId id = true) ∧
      (∀ id share, sent.shares.get? id = some share ↔ ∃ publicKey,
        operators.get? id = some publicKey ∧
          wrapShare K draws (sharingCoefficients draws threshold) id publicKey = some share) ∧
      aeadSeal K (K.hkdfExpand32 (scalarBytes (draws.scalar 0)) payloadKeyInfo)
        draws.payloadNonce plaintext = some sent.payload := by
  rw [encryptToGroup] at h
  split_ifs at h with hthreshold hvalid
  simp only [Option.bind_eq_bind, Option.bind_eq_some_iff] at h
  obtain ⟨shares, hshares, payload, hpayload, h⟩ := h
  obtain rfl := Option.some.inj h
  exact ⟨hthreshold, List.all_eq_true.1 hvalid,
    fun id share => get?_wrapped hshares, hpayload⟩

/-- It panics only on a wrong threshold, an invalid id or a payload past the cipher's limit. -/
theorem isSome_encryptToGroup (hK : Lawful K) {operators : SortedMap ParticipantId Bytes}
    {threshold : U32} (hthreshold : 1 ≤ threshold ∧ threshold.val ≤ operators.toList.length)
    (hvalid : ∀ id ∈ operators.keys, isValidParticipantId id = true) (draws : Draws)
    {plaintext : Bytes} (hlen : plaintext.length < 64 * (2 ^ 32 - 1)) :
    (encryptToGroup K operators threshold draws plaintext).isSome = true := by
  have hwrap : ∀ id publicKey, ∃ share,
      wrapShare K draws (sharingCoefficients draws threshold) id publicKey = some share := by
    intro id publicKey
    have hshort : (scalarBytes (evaluate (sharingCoefficients draws threshold)
        (scalarFromId id))).length < 64 * (2 ^ 32 - 1) := by
      rw [length_scalarBytes]
      decide
    obtain ⟨sealed, hsealed⟩ := Option.isSome_iff_exists.1 (isSome_aeadSeal hK
      (K.hkdfExpand32 (K.encapsulate publicKey (draws.seed id)).2 shareWrapInfo) (draws.nonce id)
      hshort)
    exact ⟨⟨_, sealed⟩, by rw [wrapShare, hsealed]; rfl⟩
  choose share hshare using hwrap
  have hshares : operators.toList.mapM (fun e =>
      (wrapShare K draws (sharingCoefficients draws threshold) e.1 e.2).map
        fun share => (e.1, share)) =
      some (operators.toList.map fun e => (e.1, share e.1 e.2)) :=
    mapM_eq_some_map fun e _ => by rw [hshare, Option.map_some]
  obtain ⟨payload, hpayload⟩ := Option.isSome_iff_exists.1 (isSome_aeadSeal hK
    (K.hkdfExpand32 (scalarBytes (draws.scalar 0)) payloadKeyInfo) draws.payloadNonce hlen)
  rw [encryptToGroup, if_neg (not_not.2 hthreshold),
    if_neg (not_not.2 (List.all_eq_true.2 hvalid))]
  simp only [hshares, hpayload, Option.bind_eq_bind, Option.bind_some, Option.isSome_some]

theorem wrapShare_eq_some {draws : Draws} {coefficients : List Scalar} {id : ParticipantId}
    {publicKey : Bytes} {share : OperatorShare}
    (h : wrapShare K draws coefficients id publicKey = some share) :
    share.ciphertext = (K.encapsulate publicKey (draws.seed id)).1 ∧
      aeadSeal K (K.hkdfExpand32 (K.encapsulate publicKey (draws.seed id)).2 shareWrapInfo)
        (draws.nonce id) (scalarBytes (evaluate coefficients (scalarFromId id))) =
          some share.wrappedShare := by
  obtain ⟨wrappedShare, hsealed, heq⟩ := Option.bind_eq_some_iff.1 h
  obtain rfl := Option.some.inj heq
  exact ⟨rfl, hsealed⟩

/-! ### The operators -/

variable {operators : List (OperatorKeyPair K)} {threshold : U32} {draws : Draws}
  {plaintext : Bytes} {sent : GroupCiphertext}

theorem get?_publicKeys (hids : (operators.map OperatorKeyPair.id).Nodup) {id : ParticipantId}
    {publicKey : Bytes} :
    (publicKeys operators).get? id = some publicKey ↔
      ∃ o ∈ operators, o.id = id ∧ o.publicKey = publicKey := by
  have hnd : ((operators.map fun o => (o.id, o.publicKey)).map (·.1)).Nodup := by
    rwa [List.map_map]
  rw [publicKeys, SortedMap.get?_collect hnd, List.mem_map]
  exact exists_congr fun o => and_congr_right fun _ => Prod.ext_iff

theorem length_publicKeys (hids : (operators.map OperatorKeyPair.id).Nodup) :
    (publicKeys operators).toList.length = operators.length := by
  have hnd : ((operators.map fun o => (o.id, o.publicKey)).map (·.1)).Nodup := by
    rwa [List.map_map]
  rw [publicKeys, (SortedMap.perm_collect hnd).length_eq, List.length_map]

/-- **The entry of an operator**: sealed to it, the value of the polynomial at its id. -/
theorem exists_share (hids : (operators.map OperatorKeyPair.id).Nodup)
    (hsent : encryptToGroup K (publicKeys operators) threshold draws plaintext = some sent)
    {o : OperatorKeyPair K} (ho : o ∈ operators) : ∃ share, sent.shares.get? o.id = some share ∧
      share.ciphertext = (K.encapsulate (K.publicKey o.secret) (draws.seed o.id)).1 ∧
      aeadSeal K (K.hkdfExpand32 (K.encapsulate (K.publicKey o.secret) (draws.seed o.id)).2
        shareWrapInfo) (draws.nonce o.id) (scalarBytes (evaluate
          (sharingCoefficients draws threshold) (scalarFromId o.id))) =
            some share.wrappedShare := by
  rw [encryptToGroup] at hsent
  split_ifs at hsent
  simp only [Option.bind_eq_bind, Option.bind_eq_some_iff] at hsent
  obtain ⟨shares, hshares, payload, -, heq⟩ := hsent
  obtain rfl := Option.some.inj heq
  have hkey : (o.id, o.publicKey) ∈ (publicKeys operators).toList :=
    SortedMap.mem_toList.2 ((get?_publicKeys hids).2 ⟨o, ho, rfl, rfl⟩)
  obtain ⟨e, -, he⟩ := (exists_of_forall₂ (mapM_eq_some_iff.1 hshares)).2 _ hkey
  obtain ⟨share, hwrap, -⟩ := Option.map_eq_some_iff.1 he
  refine ⟨share, (get?_wrapped hshares).2 ⟨o.publicKey, SortedMap.mem_toList.1 hkey, hwrap⟩, ?_⟩
  rw [← o.publicKey_eq]
  exact wrapShare_eq_some hwrap

/-- An operator reads its share. -/
theorem partialDecrypt_sent (hK : Lawful K) (hids : (operators.map OperatorKeyPair.id).Nodup)
    (hsent : encryptToGroup K (publicKeys operators) threshold draws plaintext = some sent)
    {o : OperatorKeyPair K} (ho : o ∈ operators) :
    partialDecrypt K o sent =
      .ok (o.id, (poly (sharingCoefficients draws threshold)).eval (scalarFromId o.id)) := by
  obtain ⟨share, hget, hcipher, hsealed⟩ := exists_share hids hsent ho
  rw [partialDecrypt, hget]
  simp only [hcipher, hK.decapsulate_encapsulate, aeadOpen_aeadSeal hK hsealed, bind, Except.bind,
    length_scalarBytes, ne_eq, not_true_eq_false, if_false, fromCanonicalBytes_scalarBytes,
    evaluate_eq]

/-- **Under another ciphertext than its own an operator reads nothing.** -/
theorem partialDecrypt_other (hK : Lawful K) (hids : (operators.map OperatorKeyPair.id).Nodup)
    (hsent : encryptToGroup K (publicKeys operators) threshold draws plaintext = some sent)
    {o : OperatorKeyPair K} (ho : o ∈ operators) {share : OperatorShare}
    (hshare : sent.shares.get? o.id = some share) {other : GroupCiphertext} {ciphertext : Bytes}
    (hother : other.shares.get? o.id = some ⟨ciphertext, share.wrappedShare⟩)
    (hne : ciphertext ≠ share.ciphertext) :
    ∃ e, partialDecrypt K o other = .error e := by
  obtain ⟨share', hget, hcipher, hsealed⟩ := exists_share hids hsent ho
  obtain rfl := Option.some.inj (hshare.symm.trans hget)
  have hkey : K.hkdfExpand32 (K.decapsulate o.secret ciphertext) shareWrapInfo ≠
      K.hkdfExpand32 (K.encapsulate (K.publicKey o.secret) (draws.seed o.id)).2 shareWrapInfo :=
    fun heq => hne (hcipher ▸ hK.secret_commits _ _ _ (hK.hkdf_inj _ _ _ heq))
  obtain ⟨e, he⟩ := aeadOpen_ne_ok hK hsealed hkey
  refine ⟨e, ?_⟩
  rw [partialDecrypt, hother]
  simp only [he, bind, Except.bind]

/-- The values of a polynomial at enough ids interpolate its constant term. -/
theorem interpolated_eq {p : Polynomial Scalar} {ids : List ParticipantId} (hnd : ids.Nodup)
    (hp : p.degree < ids.length) :
    interpolated (ids.map fun id => (id, p.eval (scalarFromId id))) = p.eval 0 := by
  have hids : (ids.map fun id => (id, p.eval (scalarFromId id))).map Prod.fst = ids := by
    rw [List.map_map]
    exact List.map_id ids
  rw [interpolated, hids, foldl_add_eq_sum (fun e : ParticipantId × Scalar =>
    lagrangeCoefficientAtZero e.1 ids * e.2), zero_add, List.map_map]
  simp only [Function.comp_def, lagrangeCoefficientAtZero_eq]
  exact Shamir.sum_lagrangeAtZero scalarFromId scalarFromId_injective hnd hp

/-- A quorum reads the payload. -/
theorem combineAndDecrypt_sent (hK : Lawful K) (hids : (operators.map OperatorKeyPair.id).Nodup)
    (hsent : encryptToGroup K (publicKeys operators) threshold draws plaintext = some sent)
    {quorum : List (OperatorKeyPair K)} (hquorum : ∀ o ∈ quorum, o ∈ operators)
    (hnd : (quorum.map OperatorKeyPair.id).Nodup) (hlen : threshold.val ≤ quorum.length) :
    ∃ partials, quorum.mapM (fun o => partialDecrypt K o sent) = .ok partials ∧
      combineAndDecrypt K partials sent = .ok plaintext := by
  obtain ⟨⟨hpos, -⟩, -, -, hpayload⟩ := encryptToGroup_eq_some hsent
  let p := poly (sharingCoefficients draws threshold)
  have hpartials : quorum.mapM (fun o => partialDecrypt K o sent) =
      .ok ((quorum.map OperatorKeyPair.id).map fun id => (id, p.eval (scalarFromId id))) := by
    rw [List.map_map]
    clear hnd hlen
    induction quorum with
    | nil => rfl
    | cons o quorum ih =>
      rw [List.mapM_cons, partialDecrypt_sent hK hids hsent (hquorum o List.mem_cons_self),
        ih fun o ho => hquorum o (List.mem_cons_of_mem _ ho)]
      rfl
  have hdegree : p.degree < (quorum.map OperatorKeyPair.id).length := by
    refine (Shamir.degree_poly_lt _).trans_le ?_
    rw [length_sharingCoefficients draws hpos, List.length_map]
    exact_mod_cast hlen
  refine ⟨_, hpartials, ?_⟩
  rw [combineAndDecrypt, interpolated_eq hnd hdegree, eval_sharingCoefficients]
  exact aeadOpen_aeadSeal hK hpayload

/-- **Threshold encryption round-trips**: among operators with different ids every quorum of at
least the threshold, in any order, reads the payload; and whoever finds another operator's KEM
ciphertext in its entry reads nothing. -/
theorem thresholdKem_roundTrip (hK : Lawful K)
    (hids : (operators.map OperatorKeyPair.id).Nodup) (threshold : U32) (draws : Draws)
    (plaintext : Bytes) :
    (1 ≤ threshold ∧ threshold.val ≤ operators.length →
      plaintext.length < 64 * (2 ^ 32 - 1) →
      (encryptToGroup K (publicKeys operators) threshold draws plaintext).isSome = true) ∧
    ∀ sent, encryptToGroup K (publicKeys operators) threshold draws plaintext = some sent →
      (∀ quorum : List (OperatorKeyPair K), (∀ o ∈ quorum, o ∈ operators) →
        (quorum.map OperatorKeyPair.id).Nodup → threshold.val ≤ quorum.length →
        ∃ partials, quorum.mapM (fun o => partialDecrypt K o sent) = .ok partials ∧
          combineAndDecrypt K partials sent = .ok plaintext) ∧
      ((operators.map OperatorKeyPair.publicKey).Nodup → ∀ π : Equiv.Perm ParticipantId,
        (∀ o ∈ operators, π o.id ∈ operators.map OperatorKeyPair.id) →
        ∀ o ∈ operators, π o.id ≠ o.id →
          ∃ e, partialDecrypt K o (permuteCiphertexts π sent) = .error e) := by
  refine ⟨fun hthreshold hlen => ?_, fun sent hsent => ⟨fun quorum hquorum hnd hlen =>
    combineAndDecrypt_sent hK hids hsent hquorum hnd hlen, fun hkeys π hπ o ho hmoved => ?_⟩⟩
  · refine isSome_encryptToGroup hK (by rwa [length_publicKeys hids]) (fun id hid => ?_) draws hlen
    obtain ⟨publicKey, hget⟩ := SortedMap.mem_keys.1 hid
    obtain ⟨o, -, rfl, -⟩ := (get?_publicKeys hids).1 hget
    exact o.valid
  · obtain ⟨share, hshare, hcipher, -⟩ := exists_share hids hsent ho
    obtain ⟨o', ho', hid'⟩ := List.mem_map.1 (hπ o ho)
    obtain ⟨share', hshare', hcipher', -⟩ := exists_share hids hsent ho'
    rw [hid'] at hshare'
    have hother : (permuteCiphertexts π sent).shares.get? o.id =
        some ⟨share'.ciphertext, share.wrappedShare⟩ := by
      rw [permuteCiphertexts, SortedMap.get?_filterMap, hshare, Option.bind_some, hshare',
        Option.map_some]
    refine partialDecrypt_other hK hids hsent ho hshare hother fun heq => hmoved ?_
    -- equal ciphertexts were made for one key, so for one operator
    rw [hcipher, hcipher'] at heq
    have hpublic : o'.publicKey = o.publicKey := by
      rw [o'.publicKey_eq, o.publicKey_eq]
      exact hK.ciphertext_commits _ _ _ _ heq
    rw [← hid', List.inj_on_of_nodup_map hkeys ho' ho hpublic]

end Lemmas

/-! ### Small primitives -/

/-- A key and a message as one string, the end of the key marked. -/
def pack (key message : Bytes) : Bytes := key.flatMap (fun b => [1, b]) ++ 0 :: message

theorem pack_inj {key key' message message' : Bytes} (h : pack key message = pack key' message') :
    key = key' ∧ message = message' := by
  induction key generalizing key' with
  | nil =>
    cases key' with
    | nil => exact ⟨rfl, (List.cons.inj h).2⟩
    | cons b key' => exact absurd (List.cons.inj h).1 (by decide)
  | cons b key ih =>
    cases key' with
    | nil => exact absurd (List.cons.inj h).1 (by decide)
    | cons b' key' =>
      obtain ⟨hb, h⟩ := List.cons.inj (List.cons.inj h).2
      obtain ⟨hkey, hmessage⟩ := ih h
      exact ⟨hb ▸ hkey ▸ rfl, hmessage⟩

theorem pack_append (key message : Bytes) : pack key [] ++ message = pack key message := by
  rw [pack, pack, List.append_assoc]
  rfl

/-- Primitives that hide nothing. -/
def packing : Primitives where
  publicKey secret := secret
  encapsulate publicKey seed := (pack publicKey seed, pack publicKey seed)
  decapsulate _ ciphertext := ciphertext
  hkdfExpand32 secret info := info ++ secret
  aead := {
    encrypt := fun key _ _ message => some (pack key message)
    decrypt := fun key _ _ ciphertext =>
      if pack key [] <+: ciphertext then some (ciphertext.drop (pack key []).length) else none }

theorem lawful_packing : Lawful packing where
  decapsulate_encapsulate _ _ := rfl
  secret_commits _ _ _ h := h
  ciphertext_commits _ _ _ _ h := (pack_inj h).1
  hkdf_inj _ _ _ h := List.append_cancel_left h
  decrypt_encrypt key nonce message ciphertext h := by
    obtain rfl := Option.some.inj h
    simp [packing, ← pack_append key message]
  key_commits key key' nonce message ciphertext message' h h' := by
    obtain rfl := Option.some.inj h
    simp only [packing] at h'
    split_ifs at h' with hprefix
    obtain ⟨rest, hrest⟩ := hprefix
    rw [pack_append] at hrest
    exact (pack_inj hrest).1
  accepts _ _ _ _ := rfl

/-- Two operators, both of them needed. -/
def twoOperators : List (OperatorKeyPair packing) :=
  [⟨1, [1], [1], rfl, rfl⟩, ⟨2, [2], [2], rfl, rfl⟩]

/-- What the sender draws for the small runs. -/
def someDraws : Draws where
  scalar k := k + 1
  seed id := [UInt8.ofNat id.val]
  nonce _ := ⟨List.replicate 12 0, rfl⟩
  payloadNonce := ⟨List.replicate 12 0, rfl⟩

/-- Both operators read a payload, the second one first, and not with their ciphertexts swapped. -/
theorem thresholdKem_roundTrip_two : ∃ sent,
    encryptToGroup packing (publicKeys twoOperators) 2 someDraws [7] = some sent ∧
    (∃ partials, twoOperators.reverse.mapM (fun o => partialDecrypt packing o sent) =
        .ok partials ∧ combineAndDecrypt packing partials sent = .ok [7]) ∧
    ∀ o ∈ twoOperators,
      ∃ e, partialDecrypt packing o (permuteCiphertexts (Equiv.swap 1 2) sent) = .error e := by
  obtain ⟨hsome, hsent⟩ := thresholdKem_roundTrip lawful_packing
    (show (twoOperators.map OperatorKeyPair.id).Nodup by decide) 2 someDraws [7]
  obtain ⟨sent, h⟩ := Option.isSome_iff_exists.1 (hsome (by decide) (by decide))
  obtain ⟨hquorum, hmoved⟩ := hsent sent h
  refine ⟨sent, h, hquorum twoOperators.reverse (fun o ho => List.mem_reverse.1 ho) (by decide)
    (by decide), fun o ho => hmoved (by decide) (Equiv.swap 1 2) (fun x hx => ?_) o ho ?_⟩
  · rcases List.mem_pair.1 hx with rfl | rfl <;> decide
  · rcases List.mem_pair.1 ho with rfl | rfl <;> decide

/-! ### Secrecy -/

section Secrecy

variable {Point : Type} [AddCommGroup Point] [Module Scalar Point] {R : Ristretto Point}

/-- **Shamir sharing is perfectly secret**: fewer values at valid ids than there are coefficients
fit as many polynomials with one secret as with any other; and what a dealer reveals or discloses
and what is sealed to an operator is the value at the receiver's id, which is never zero. -/
theorem perfect_secrecy :
    (∀ (t k : ℕ), k < t → ∀ points : Fin k → ParticipantId, Function.Injective points →
      (∀ i, isValidParticipantId (points i) = true) → ∀ (values : Fin k → Scalar) (s s' : Scalar),
      (Finset.univ.filter fun a : Fin t → Scalar => (List.ofFn a).head? = some s ∧
        ∀ i, evaluate (List.ofFn a) (scalarFromId (points i)) = values i).card =
      (Finset.univ.filter fun a : Fin t → Scalar => (List.ofFn a).head? = some s' ∧
        ∀ i, evaluate (List.ofFn a) (scalarFromId (points i)) = values i).card) ∧
    (∀ d : Dealer R, d.coefficients.length = d.threshold.val ∧ ∀ id share,
      (id, share) ∈ d.reveal.2.toList ∨ d.shareFor id = some share →
        scalarFromId id ≠ 0 ∧ share = evaluate d.coefficients (scalarFromId id)) ∧
    ∀ (K : Primitives) operators threshold draws plaintext sent,
      encryptToGroup K operators threshold draws plaintext = some sent →
      (sharingCoefficients draws threshold).length = threshold.val ∧
      ∀ id share, sent.shares.get? id = some share → scalarFromId id ≠ 0 ∧ ∃ key,
        aeadSeal K key (draws.nonce id) (scalarBytes
          (evaluate (sharingCoefficients draws threshold) (scalarFromId id))) =
            some share.wrappedShare := by
  refine ⟨fun t k hk points hinj hvalid values s s' => ?_, fun d => ⟨d.length_coefficients,
    fun id share h => ?_⟩, fun K operators threshold draws plaintext sent hsent => ?_⟩
  · have hcard : Fintype.card (Fin k) < t := by rwa [Fintype.card_fin]
    have hhead : ∀ (a : Fin t → Scalar) (c : Scalar),
        (List.ofFn a).head? = some c ↔ (poly (List.ofFn a)).eval 0 = c := by
      intro a c
      obtain ⟨c', cs, hcs⟩ := List.exists_cons_of_ne_nil
        (List.ne_nil_of_length_pos (show 0 < (List.ofFn a).length by rw [List.length_ofFn]; omega))
      rw [hcs, Shamir.eval_poly_zero, List.head?_cons, Option.some.injEq]
    have hsharings : ∀ c, (Finset.univ.filter fun a : Fin t → Scalar =>
        (List.ofFn a).head? = some c ∧
          ∀ i, evaluate (List.ofFn a) (scalarFromId (points i)) = values i) =
        Finset.univ.filter fun a : Fin t → Scalar => (poly (List.ofFn a)).eval 0 = c ∧
          ∀ i, (poly (List.ofFn a)).eval (scalarFromId (points i)) = values i :=
      fun c => Finset.filter_congr fun a _ => by simp only [hhead, evaluate_eq]
    rw [hsharings, hsharings]
    convert Shamir.card_sharings_eq (fun i => scalarFromId (points i))
      (fun i => scalarFromId_ne_zero (hvalid i)) hcard values s s'
  · obtain ⟨hid, rfl⟩ : id ∈ participants d.numParticipants ∧
        share = evaluate d.coefficients (scalarFromId id) := by
      rcases h with h | h
      · exact Dealer.mem_reveal.1 h
      · exact Dealer.shareFor_eq_some.1 h
    exact ⟨scalarFromId_ne_zero (mem_participants.1 hid).1, rfl⟩
  · obtain ⟨⟨hpos, -⟩, hvalid, hshares, -⟩ := encryptToGroup_eq_some hsent
    refine ⟨length_sharingCoefficients draws hpos, fun id share hget => ?_⟩
    obtain ⟨publicKey, hkey, hwrap⟩ := (hshares id share).1 hget
    exact ⟨scalarFromId_ne_zero (hvalid id (SortedMap.mem_keys.2 ⟨publicKey, hkey⟩)), _,
      (wrapShare_eq_some hwrap).2⟩

/-- One value of a line at one point fits every secret, and a second dealer's shares. -/
theorem perfect_secrecy_line :
    (∀ s s' : Scalar, (Finset.univ.filter fun a : Fin 2 → Scalar => (List.ofFn a).head? = some s ∧
        ∀ _ : Fin 1, evaluate (List.ofFn a) (scalarFromId 5) = 7).card =
      (Finset.univ.filter fun a : Fin 2 → Scalar => (List.ofFn a).head? = some s' ∧
        ∀ _ : Fin 1, evaluate (List.ofFn a) (scalarFromId 5) = 7).card) ∧
    ∃ d : Dealer scalarGroup, Dealer.new scalarGroup 2 3 (fun k => k + 1) = some d ∧
      ∃ share, d.shareFor 2 = some share ∧ scalarFromId 2 ≠ 0 := by
  refine ⟨fun s s' => (@perfect_secrecy Scalar _ _ scalarGroup).1 2 1 (by decide) (fun _ => 5)
    (fun i j _ => Subsingleton.elim i j) (fun _ => rfl) (fun _ => 7) s s', ?_⟩
  obtain ⟨d, hd⟩ : ∃ d, Dealer.new scalarGroup 2 3 (fun k => k + 1) = some d := ⟨_, rfl⟩
  have hid : (2 : ParticipantId) ∈ participants d.numParticipants := by
    obtain rfl := Option.some.inj hd
    exact mem_participants.2 ⟨rfl, by decide⟩
  have hshare := Dealer.shareFor_eq_some.2 ⟨hid, rfl⟩
  exact ⟨d, hd, _, hshare, ((perfect_secrecy.2.1 d).2 2 _ (.inr hshare)).1⟩

end Secrecy

end ThresholdKem

end Mpc

end NovaChannel
