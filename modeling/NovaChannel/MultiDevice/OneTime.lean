import NovaChannel.MultiDevice.Impersonation
import Mathlib.Data.List.Nodup

/-!
# One-time prekeys serve once

Initiator and responder agree, and a one-time prekey is used up by the session it serves.

* `respond_bundle` : **both sides of a session hold the same keys**, and the prekey named is gone;
* `served` : the prekeys that successful responses used, over any messages (`served_once`);
* `agreement_and_single_use` : both, and that a message which does not authenticate costs nothing.
-/

namespace NovaChannel

namespace MultiDevice

open Crypto X3dh

section OneTime

variable {β : Type} [Crypto β] [ByteString β]

/-- The one-time prekey that an init message names. -/
def namedPrekey (bytes : β) : Option ℕ :=
  match readInit bytes with
  | .ok m => m.opk.map Prod.fst
  | .error _ => none

/-- The one-time prekeys that served successful responses, in order, over a sequence of messages. -/
def served (dh : DhIdentity β) (spk : SignedPreKey β) : OneTimePreKeyStore β → List β → List ℕ
  | _, [] => []
  | opks, bytes :: messages =>
    let (opks', responded) := respond dh spk opks bytes
    (if responded.isOk then (namedPrekey bytes).toList else []) ++ served dh spk opks' messages

/-- What one message does to the store: nothing, or it removes the prekey it names, which was
there. -/
theorem respond_cases (dh : DhIdentity β) (spk : SignedPreKey β) (opks : OneTimePreKeyStore β)
    (bytes : β) :
    ((respond dh spk opks bytes).1 = opks ∧ (respond dh spk opks bytes).2.isOk = false) ∨
    ∃ m, readInit bytes = .ok m ∧ (∀ x ∈ m.opk, ∃ k, opks.peek x.1 = .ok k) ∧
      (respond dh spk opks bytes).1 = consumeReferenced opks m.opk := by
  rw [respond]
  cases hopen : openInit dh spk opks bytes with
  | error e => exact .inl ⟨rfl, rfl⟩
  | ok opened =>
    obtain ⟨m, keys, plaintext⟩ := opened
    obtain ⟨hm, hpeek, -⟩ := openInit_eq_ok hopen
    exact .inr ⟨m, hm, hpeek, rfl⟩

omit [Crypto β] [ByteString β] in
theorem mem_of_peek_eq_ok {opks : OneTimePreKeyStore β} {id : ℕ} {k : OneTimePreKey β}
    (h : opks.peek id = .ok k) : k ∈ opks ∧ k.id = id := by
  rw [OneTimePreKeyStore.peek] at h
  cases hfind : opks.find? (·.id = id) with
  | none =>
    rw [hfind] at h
    cases h
  | some k' =>
    rw [hfind] at h
    obtain rfl := Except.ok.inj h
    exact ⟨List.mem_of_find?_eq_some hfind, by simpa using List.find?_some hfind⟩

omit [Crypto β] [ByteString β] in
theorem consumeReferenced_subset (opks : OneTimePreKeyStore β) (named : Option (ℕ × β)) :
    consumeReferenced opks named ⊆ opks := by
  cases named with
  | none => exact fun _ hk => hk
  | some x => exact fun _ hk => (List.mem_filter.1 hk).1

/-- **No one-time prekey serves twice**, and only those of the store serve. -/
theorem served_once (dh : DhIdentity β) (spk : SignedPreKey β) (opks : OneTimePreKeyStore β)
    (messages : List β) :
    (served dh spk opks messages).Nodup ∧
      ∀ id ∈ served dh spk opks messages, ∃ k ∈ opks, k.id = id := by
  induction messages generalizing opks with
  | nil => exact ⟨List.nodup_nil, fun id hid => (by cases hid)⟩
  | cons bytes messages ih =>
    obtain ⟨hnd, hfrom⟩ := ih (respond dh spk opks bytes).1
    rw [served]
    rcases respond_cases dh spk opks bytes with
      ⟨hsame, hfailed⟩ | ⟨m, hm, hpeek, hstore⟩
    · rw [hsame] at hnd hfrom
      simp only [hfailed, hsame, Bool.false_eq_true, if_false, List.nil_append]
      exact ⟨hnd, hfrom⟩
    · rw [hstore] at hnd hfrom
      have hnamed : namedPrekey bytes = m.opk.map Prod.fst := by rw [namedPrekey, hm]
      have hlater : ∀ id ∈ served dh spk (consumeReferenced opks m.opk) messages,
          ∃ k ∈ opks, k.id = id := by
        intro id hid
        obtain ⟨k, hk, hkid⟩ := hfrom id hid
        exact ⟨k, consumeReferenced_subset opks m.opk hk, hkid⟩
      simp only [hstore, hnamed]
      split_ifs
      · cases hopk : m.opk with
        | none =>
          rw [hopk] at hnd hlater
          exact ⟨hnd, hlater⟩
        | some x =>
          rw [hopk] at hnd hfrom hlater
          -- what serves later is still in the store, and `x.1` is not
          have hgone : x.1 ∉ served dh spk (consumeReferenced opks (some x)) messages := by
            intro hmem
            obtain ⟨k, hk, hkid⟩ := hfrom x.1 hmem
            exact (of_decide_eq_true (List.mem_filter.1 hk).2) hkid
          refine ⟨List.nodup_cons.2 ⟨hgone, hnd⟩, fun id hid => ?_⟩
          rcases List.mem_cons.1 hid with rfl | hid
          · obtain ⟨k, hk⟩ := hpeek x hopk
            exact ⟨k, mem_of_peek_eq_ok hk⟩
          · exact hlater id hid
      · exact ⟨hnd, hlater⟩

variable [LawfulCrypto β]

omit [Crypto β] [ByteString β] [LawfulCrypto β] in
/-- A store with different ids finds each of its prekeys. -/
theorem peek_of_mem {opks : OneTimePreKeyStore β} (hids : (opks.map OneTimePreKey.id).Nodup)
    {k : OneTimePreKey β} (hk : k ∈ opks) : opks.peek k.id = .ok k := by
  rw [OneTimePreKeyStore.peek]
  cases hfind : opks.find? (·.id = k.id) with
  | none => exact absurd (decide_eq_true rfl) (List.find?_eq_none.1 hfind k hk)
  | some k' =>
    have hid : k'.id = k.id := by simpa using List.find?_some hfind
    rw [List.inj_on_of_nodup_map hids (List.mem_of_find?_eq_some hfind) hk hid]

/-- **Both sides of a session agree**, with a one-time prekey of the responder's store or without;
the prekey named, and no other, is gone afterwards. -/
theorem respond_bundle (hct : ∀ pk r : β, ByteString.isMlKemCiphertext (encapsulate pk r).1 = true)
    {signingIdentity dhSecret spkSecret spkKemSecret : β} {opks : OneTimePreKeyStore β}
    (hids : (opks.map OneTimePreKey.id).Nodup)
    (hopks : ∀ k ∈ opks, k.id < 2 ^ 32 ∧ k = .generate k.id k.secret k.kemSecret)
    {opk : Option (OneTimePreKey β)} (hopk : ∀ k ∈ opk, k ∈ opks)
    {coins : InitiateCoins β} {identity initiatorSecret payload : β} {out : InitiatedSession β}
    (h : initiate coins identity (.generate initiatorSecret)
      (.build (publicIdentity signingIdentity) (.generate dhSecret)
        (.generate signingIdentity spkSecret spkKemSecret) (opk.map OneTimePreKey.public))
      payload = .ok out) :
    ∃ opks', respond (.generate dhSecret) (.generate signingIdentity spkSecret spkKemSecret) opks
        out.message = (opks', .ok ⟨identity, payload,
          ⟨identity, out.session.receiver, out.session.sender, out.session.ratchetRoot⟩⟩) ∧
      opks'.Sublist opks ∧ ∀ k, k ∈ opks' ↔ k ∈ opks ∧ k ∉ opk := by
  have hholds : Holds (.generate dhSecret) (.generate signingIdentity spkSecret spkKemSecret) opks
      (.build (publicIdentity signingIdentity) (.generate dhSecret)
        (.generate signingIdentity spkSecret spkKemSecret) (opk.map OneTimePreKey.public)) := by
    refine ⟨rfl, rfl, rfl, fun x hx => ?_⟩
    obtain ⟨k, hk, rfl⟩ := Option.map_eq_some_iff.1 hx
    obtain ⟨hlt, hgen⟩ := hopks k (hopk k hk)
    refine ⟨hlt, k, peek_of_mem hids (hopk k hk), ?_, ?_⟩
    · exact congrArg OneTimePreKey.publicKey hgen
    · exact congrArg OneTimePreKey.kemPublic hgen
  refine ⟨_, respond_initiate hct rfl hholds h, ?_⟩
  cases opk with
  | none => exact ⟨List.Sublist.refl _, fun k => by simp [initiateOpk, PreKeyBundle.build,
      consumeReferenced]⟩
  | some k =>
    refine ⟨List.filter_sublist, fun k' => ?_⟩
    rw [initiateOpk, PreKeyBundle.build, Option.map_some, Option.map_some, consumeReferenced,
      OneTimePreKeyStore.consume, List.mem_filter]
    refine and_congr_right fun hk' => ?_
    rw [decide_eq_true_iff, Option.mem_some_iff, OneTimePreKey.public]
    refine not_congr ⟨fun heq => ?_, fun heq => heq ▸ rfl⟩
    exact (List.inj_on_of_nodup_map hids hk' (hopk k rfl) heq).symm

/-- **Agreement, and one session for one prekey.**  Whoever answers the message of `initiate` to a
bundle of its own holds the initiator's identity, payload and root, and the initiator's directional
keys crosswise, and loses the prekey named and no other; no prekey serves two successful responses;
and a message that fails up to its authentication changes nothing. -/
theorem agreement_and_single_use
    (hct : ∀ pk r : β, ByteString.isMlKemCiphertext (encapsulate pk r).1 = true)
    (signingIdentity dhSecret spkSecret spkKemSecret : β) (opks : OneTimePreKeyStore β)
    (hids : (opks.map OneTimePreKey.id).Nodup)
    (hopks : ∀ k ∈ opks, k.id < 2 ^ 32 ∧ k = .generate k.id k.secret k.kemSecret) :
    (∀ (opk : Option (OneTimePreKey β)) (coins : InitiateCoins β)
      (identity initiatorSecret payload : β) (out : InitiatedSession β), (∀ k ∈ opk, k ∈ opks) →
      initiate coins identity (.generate initiatorSecret)
        (.build (publicIdentity signingIdentity) (.generate dhSecret)
          (.generate signingIdentity spkSecret spkKemSecret) (opk.map OneTimePreKey.public))
        payload = .ok out →
      ∃ opks', respond (.generate dhSecret) (.generate signingIdentity spkSecret spkKemSecret) opks
          out.message = (opks', .ok ⟨identity, payload,
            ⟨identity, out.session.receiver, out.session.sender, out.session.ratchetRoot⟩⟩) ∧
        opks'.Sublist opks ∧ ∀ k, k ∈ opks' ↔ k ∈ opks ∧ k ∉ opk) ∧
    (∀ (dh : DhIdentity β) (spk : SignedPreKey β) (store : OneTimePreKeyStore β)
      (messages : List β), (served dh spk store messages).Nodup ∧
        ∀ id ∈ served dh spk store messages, ∃ k ∈ store, k.id = id) ∧
    ∀ (dh : DhIdentity β) (spk : SignedPreKey β) (store : OneTimePreKeyStore β) (bytes : β) e,
      openInit dh spk store bytes = .error e → respond dh spk store bytes = (store, .error e) := by
  refine ⟨fun opk coins identity initiatorSecret payload out hopk h => ?_,
    fun dh spk store messages => served_once dh spk store messages,
    fun dh spk store bytes e he => ?_⟩
  · exact respond_bundle hct hids hopks hopk h
  · rw [respond, he]

end OneTime

/-- Device `1`, with two one-time prekeys, and a message of device `2` to the first of them. -/
theorem agreement_and_single_use_two : ∃ out, initiate (initiateCoins 0) (identityOf 2)
    (.generate (.name (.dhIdentity 2)))
    (.build (identityOf 1) (.generate (.name (.dhIdentity 1)))
      (.generate (.name (.identity 1)) (.name (.spkDh 1)) (.name (.spkKem 1)))
      ((some (opkOf 1 0)).map OneTimePreKey.public)) (.lit "") = .ok out ∧
    ∃ opks', respond (.generate (.name (.dhIdentity 1)))
      (.generate (.name (.identity 1)) (.name (.spkDh 1)) (.name (.spkKem 1)))
      [opkOf 1 0, opkOf 1 1] out.message = (opks', .ok ⟨identityOf 2, .lit "",
        ⟨identityOf 2, out.session.receiver, out.session.sender, out.session.ratchetRoot⟩⟩) ∧
      opks'.Sublist [opkOf 1 0, opkOf 1 1] ∧
      ∀ k, k ∈ opks' ↔ k ∈ [opkOf 1 0, opkOf 1 1] ∧ k ∉ some (opkOf 1 0) := by
  have hopks : ∀ k ∈ [opkOf 1 0, opkOf 1 1],
      k.id < 2 ^ 32 ∧ k = .generate k.id k.secret k.kemSecret := by
    intro k hk
    rcases List.mem_pair.1 hk with rfl | rfl <;> exact ⟨by decide, rfl⟩
  exact ⟨_, rfl, (agreement_and_single_use Term.isMlKemCiphertext_encapsulate
    (.name (.identity 1)) (.name (.dhIdentity 1)) (.name (.spkDh 1)) (.name (.spkKem 1))
    [opkOf 1 0, opkOf 1 1] (by decide) hopks).1 (some (opkOf 1 0)) (initiateCoins 0) (identityOf 2) (.name (.dhIdentity 2))
    (.lit "") _ (fun k hk => by cases hk; exact List.mem_cons_self) rfl⟩

end MultiDevice

end NovaChannel
