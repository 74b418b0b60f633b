import NovaChannel.MultiDevice.Symbolic

/-!
# Deniability

The responder of a session can make up its whole transcript: every exchange is computed from its
own secrets and the other device's public keys.

* `fabricate` : a session start in another device's name;
* `initiate_eq_fabricate` : **it is the start that the other device would have made**, with the same
  randomness, failures included;
* `respond_fabricate` : the responder accepts it as it accepts a real one.
-/

namespace NovaChannel

namespace X3dh

open Crypto ByteString
open NovaChannel.Group (checkedDh)

section Definitions

variable {β : Type} [Crypto β]

/-- A session start in the name of a device with the given public keys, by the holder of the
bundle's secrets. -/
def fabricate (coins : InitiateCoins β) (theirSigningIdentity theirDhPublic : β)
    (myDhIdentity : DhIdentity β) (mySpk : SignedPreKey β) (opks : OneTimePreKeyStore β)
    (myBundle : PreKeyBundle β) (initialPayload : β) : Result (InitiatedSession β) := do
  let ephemeralPublic := x25519Public coins.ephemeralSecret
  let dh1 ← mySpk.diffieHellman theirDhPublic
  let dh2 ← myDhIdentity.diffieHellman ephemeralPublic
  let dh3 ← mySpk.diffieHellman ephemeralPublic
  let oneTimeSecret ← transpose (myBundle.oneTimePrekey.map fun opk => opks.peek opk.1)
  let dh4 ← transpose (oneTimeSecret.map fun opk => opk.diffieHellman ephemeralPublic)
  let (mlKemCt, mlKemSs) := encapsulate myBundle.spk.kemPublic coins.kemRandom
  let mlKemOpk := myBundle.oneTimePrekey.map fun opk => encapsulate opk.2.2 coins.opkKemRandom
  let keys := derive (combine dh1 dh2 dh3 dh4 mlKemSs (mlKemOpk.map (·.2)))
  let opk := myBundle.oneTimePrekey.map fun opk =>
    (opk.1, (encapsulate opk.2.2 coins.opkKemRandom).1)
  let header := headerFields theirDhPublic ephemeralPublic mlKemCt opk
  let sealedPayload := aeadEncrypt keys.initPayloadKey zeroNonce (payloadAad header)
    (frame [theirSigningIdentity, initialPayload])
  pure ⟨frame (header ++ [sealedPayload]),
    ⟨myBundle.identity, keys.i2r, keys.r2i, keys.ratchetRoot⟩⟩

end Definitions

section Deniability

variable {β : Type} [Crypto β] [LawfulCrypto β] {dh myDh : DhIdentity β} {spk : SignedPreKey β}
  {opks : OneTimePreKeyStore β} {bundle : PreKeyBundle β}

/-- The two ends of an exchange with the one-time prekey. -/
theorem transpose_fabricate (hb : Holds myDh spk opks bundle) (ephemeralSecret : β) :
    (transpose (bundle.oneTimePrekey.map fun opk => opks.peek opk.1) >>= fun oneTimeSecret =>
      transpose (oneTimeSecret.map fun opk => opk.diffieHellman (x25519Public ephemeralSecret))) =
    transpose (bundle.oneTimePrekey.map fun opk =>
      checkedDh (Crypto.diffieHellman ephemeralSecret opk.2.1)) := by
  cases hopk : bundle.oneTimePrekey with
  | none => rfl
  | some opk =>
    obtain ⟨-, k, hpeek, hpublic, -⟩ := hb.opk opk hopk
    simp only [Option.map_some, transpose, hpeek, Except.map, Result.ok_bind,
      OneTimePreKey.diffieHellman, hpublic, LawfulCrypto.diffieHellman_comm k.secret]

/-- **Whatever the initiator can send, the responder can make up**: the same message, with the same
keys, from the same randomness, and without the initiator's secret. -/
theorem initiate_eq_fabricate (coins : InitiateCoins β) (identity payload : β)
    (hdh : dh.publicKey = x25519Public dh.secret) (hb : Holds myDh spk opks bundle) :
    initiate coins identity dh bundle payload =
      fabricate coins identity dh.publicKey myDh spk opks bundle payload := by
  have h1 : dh.diffieHellman bundle.spk.dhPublic = spk.diffieHellman dh.publicKey := by
    rw [DhIdentity.diffieHellman, SignedPreKey.diffieHellman, hb.spkDh, hdh,
      LawfulCrypto.diffieHellman_comm]
  have h2 : checkedDh (Crypto.diffieHellman coins.ephemeralSecret bundle.dhIdentity) =
      myDh.diffieHellman (x25519Public coins.ephemeralSecret) := by
    rw [DhIdentity.diffieHellman, hb.dhIdentity, LawfulCrypto.diffieHellman_comm]
  have h3 : checkedDh (Crypto.diffieHellman coins.ephemeralSecret bundle.spk.dhPublic) =
      spk.diffieHellman (x25519Public coins.ephemeralSecret) := by
    rw [SignedPreKey.diffieHellman, hb.spkDh, LawfulCrypto.diffieHellman_comm]
  simp only [initiate, fabricate, h1, h2, h3, ← transpose_fabricate hb, bind_assoc]

section Sample

open MultiDevice

/-- A start of device `0` with device `1`, made by device `1`. -/
theorem initiate_eq_fabricate_sample : ∃ out,
    initiate (initiateCoins 0) (identityOf 0) (dhIdentityOf 0) (bundleOf 1 (some 7)) (.lit "hello") =
      .ok out ∧
    fabricate (initiateCoins 0) (identityOf 0) (dhIdentityOf 0).publicKey (dhIdentityOf 1) (spkOf 1)
      [opkOf 1 7] (bundleOf 1 (some 7)) (.lit "hello") = .ok out := by
  have hrun : ∃ out, initiate (initiateCoins 0) (identityOf 0) (dhIdentityOf 0)
      (bundleOf 1 (some 7)) (.lit "hello") = .ok out :=
    ⟨_, initiate_eq_ok.2 ⟨⟨rfl, rfl, rfl, fun _ _ => rfl⟩, rfl⟩⟩
  have hholds : Holds (dhIdentityOf 1) (spkOf 1) [opkOf 1 7] (bundleOf 1 (some 7)) := by
    refine holds_bundleOf 1 fun id h => ?_
    obtain rfl := Option.some.inj h
    exact ⟨by decide, rfl⟩
  obtain ⟨out, hout⟩ := hrun
  refine ⟨out, hout, ?_⟩
  rw [← initiate_eq_fabricate (initiateCoins 0) (identityOf 0) (.lit "hello") rfl hholds, hout]

end Sample

/-- **The responder accepts what it made up** as it accepts a real start, and arrives at the same
session. -/
theorem respond_fabricate [ByteString β] {coins : InitiateCoins β} {identity payload : β}
    {out : InitiatedSession β}
    (hct : ∀ pk r : β, ByteString.isMlKemCiphertext (encapsulate pk r).1 = true)
    (hdh : dh.publicKey = x25519Public dh.secret) (hb : Holds myDh spk opks bundle)
    (h : fabricate coins identity dh.publicKey myDh spk opks bundle payload = .ok out) :
    respond myDh spk opks out.message =
      (consumeReferenced opks (initiateOpk coins bundle), .ok ⟨identity, payload,
        ⟨identity, out.session.receiver, out.session.sender, out.session.ratchetRoot⟩⟩) :=
  respond_initiate hct hdh hb ((initiate_eq_fabricate coins identity payload hdh hb).trans h)

end Deniability

end X3dh

end NovaChannel
