import NovaChannel.SealedSender.System

/-!
# Who sealed an accepted message

A certificate travels inside the envelope, and opening the envelope is all it takes to use it
again.

* `authentic_of_sealsToHonest` : as long as honest users seal to honest recipients only, every
  message accepted was sealed to its recipient by a holder of the certified identity's key;
* `accepted_forgery` : with a certificate that it was sent, the adversary makes an envelope that
  any honest recipient accepts;
* `not_authentic_forwarded` : a malicious recipient does.
-/

namespace NovaChannel

namespace SealedSender

open Crypto Term

variable {honest : ℕ → Bool} {w w' : World}

/-! ### Secrets -/

/-- Honest secrets are secret; every function value may be handed out. -/
def policy (honest : ℕ → Bool) : Policy Name where
  secret n := n.secret honest = true
  exposed _ := False

theorem safe_published {user : ℕ} {t : Bytes} (h : t ∈ published user) :
    (policy honest).Safe t := by
  simp only [published, List.mem_cons, List.not_mem_nil, or_false] at h
  rcases h with rfl | rfl | rfl | rfl <;> exact .inl rfl

theorem safe_knowledge (h : ∀ t ∈ w.net, (policy honest).Safe t) :
    ∀ t ∈ w.knowledge honest, (policy honest).Safe t := by
  rintro t (rfl | ⟨user, ht⟩ | ⟨n, hn, rfl⟩ | ht)
  · exact .inl rfl
  · exact safe_published ht
  · show ¬ n.secret honest = true
    simp [hn]
  · exact h t ht

/-- The identity is an honest user's, or the adversary holds its key. -/
def Issued (honest : ℕ → Bool) (w : World) (senderIdentity : Bytes) : Prop :=
  (∃ user, honest user = true ∧ senderIdentity = identityOf user) ∨
  ∃ secret, senderIdentity = publicIdentity secret ∧ Derives (w.knowledge honest) secret

/-- The signatures that are handed out. -/
def HandedOut (honest : ℕ → Bool) (w : World) (f : Fn) (a b : Bytes) : Prop :=
  f = .signature → a = .name .issuer →
    ∃ senderIdentity expiresAt, b = certSignedBytes senderIdentity expiresAt ∧
      Issued honest w senderIdentity

/-- The ciphertexts that are handed out. -/
def SealedAs (honest : ℕ → Bool) (w : World) (key _nonce _aad payload : Bytes) : Prop :=
  ∃ k x expiresAt, x ∈ w.sealed ∧ honest x.sender = true ∧
    key = sealKey (sealCoins k) x.recipient ∧
    payload = frame ((certificateOf x.sender expiresAt).write ++ [x.plaintext])

/-- The certificates of honest users. -/
def HonestCertificate (honest : ℕ → Bool) (f : Fn) (a b : Bytes) : Prop :=
  f = .signature ∧ a = .name .issuer ∧
    ∃ user expiresAt, honest user = true ∧ b = certSignedBytes (identityOf user) expiresAt

/-- The keys of the envelopes sealed to honest users. -/
def HonestKey (honest : ℕ → Bool) (key : Bytes) : Prop :=
  ∃ k user, honest user = true ∧ key = sealKey (sealCoins k) (spkOf user).sealingPublicKey

/-- The key of an envelope between honest users is not safe. -/
theorem not_safe_of_honestKey {key : Bytes} (h : HonestKey honest key) :
    ¬ (policy honest).Safe key := by
  obtain ⟨k, user, huser, rfl⟩ := h
  intro hs
  have hshared : ¬ (policy honest).Safe
      (.fn .kemShared (.name (.spkKem user)) (.name (.kemRandom k))) := by
    rintro (h | h | h)
    · exact h
    · exact h huser
    · exact h rfl
  rcases hs with h | h | ⟨h, -⟩
  · cases h
  · exact h
  rcases h with h | h | ⟨-, h⟩
  · cases h
  · exact h
  exact hshared h.2.1

theorem certSignedBytes_inj {id id' : Bytes} {exp exp' : ℕ}
    (h : certSignedBytes id exp = certSignedBytes id' exp') : id = id' ∧ exp = exp' := by
  obtain ⟨-, h⟩ := List.cons.inj (Term.list_injective h)
  obtain ⟨hid, h⟩ := List.cons.inj h
  exact ⟨hid, Term.num.inj (List.cons.inj h).1⟩

/-! ### What holds in every run -/

/-- What the adversary was sent is safe, and made as the users and the issuer make it. -/
structure World.Inv (honest : ℕ → Bool) (w : World) : Prop where
  certificates : ∀ c ∈ w.certificates, honest c.1 = true
  safe : ∀ t ∈ w.net, (policy honest).Safe t
  handed : ∀ t ∈ w.net, Handed (SealedAs honest w) (HandedOut honest w) t

namespace World.Inv

theorem not_derives_issuer (h : w.Inv honest) :
    ¬ Derives (w.knowledge honest) (.name .issuer) :=
  Policy.not_derives (safe_knowledge h.safe) fun hs => hs rfl

theorem not_derives_identity (h : w.Inv honest) {user : ℕ} (huser : honest user = true) :
    ¬ Derives (w.knowledge honest) (.name (.identity user)) :=
  Policy.not_derives (safe_knowledge h.safe) fun hs => hs huser

theorem handed_knowledge (h : w.Inv honest) :
    ∀ t ∈ w.knowledge honest, Handed (SealedAs honest w) (HandedOut honest w) t := by
  rintro t (rfl | ⟨user, ht⟩ | ⟨n, -, rfl⟩ | ht)
  · exact fun hf => (by cases hf)
  · simp only [published, List.mem_cons, List.not_mem_nil, or_false] at ht
    rcases ht with rfl | rfl | rfl | rfl
    · exact fun hf => (by cases hf)
    · exact fun hf => (by cases hf)
    · exact fun hf => (by cases hf)
    · exact fun _ ha => (by cases ha)
  · trivial
  · exact h.handed t ht

/-- A certificate that the adversary derives was issued. -/
theorem issued_of_derives (h : w.Inv honest) {senderIdentity : Bytes} {expiresAt : ℕ}
    (hd : Derives (w.knowledge honest)
      (sign (.name .issuer) (certSignedBytes senderIdentity expiresAt))) :
    Issued honest w senderIdentity := by
  by_contra hnot
  have hH : ¬ HandedOut honest w .signature (.name .issuer)
      (certSignedBytes senderIdentity expiresAt) := by
    intro hH
    obtain ⟨id, exp, heq, hissued⟩ := hH rfl rfl
    exact hnot ((certSignedBytes_inj heq).1 ▸ hissued)
  exact h.not_derives_issuer (made_of_derives h.handed_knowledge rfl hH hd).1

/-- The adversary was sent one more term. -/
theorem send (h : w.Inv honest) {t : Bytes} {sealed : List SealedMessage}
    (hsub : w.sealed ⊆ sealed) (hsafe : (policy honest).Safe t)
    (ht : Handed (SealedAs honest { w with net := t :: w.net, sealed := sealed })
      (HandedOut honest { w with net := t :: w.net, sealed := sealed }) t) :
    World.Inv honest { w with net := t :: w.net, sealed := sealed } := by
  have hknow : w.knowledge honest ⊆
      World.knowledge honest { w with net := t :: w.net, sealed := sealed } :=
    fun s hs => hs.imp_right (Or.imp_right (Or.imp_right (List.mem_cons_of_mem _)))
  refine ⟨h.certificates, List.forall_mem_cons.2 ⟨hsafe, h.safe⟩,
    List.forall_mem_cons.2 ⟨ht, fun s hs => ?_⟩⟩
  refine (h.handed s hs).mono ?_ ?_
  · rintro key nonce aad payload ⟨k, x, exp, hx, hrest⟩
    exact ⟨k, x, exp, hsub hx, hrest⟩
  · intro f a b hH hf ha
    obtain ⟨id, exp, hb, hissued⟩ := hH hf ha
    exact ⟨id, exp, hb, hissued.imp_right fun ⟨secret, hs, hd⟩ => ⟨secret, hs, hd.mono hknow⟩⟩

/-- The payload of an envelope is safe: a certificate gives no secret away. -/
theorem safe_payload (user exp : ℕ) (plaintext : String) :
    (policy honest).Safe (frame ((certificateOf user exp).write ++ [Term.lit plaintext])) := by
  refine Policy.safe_list.2 fun t ht => ?_
  simp only [SenderCertificate.write, List.cons_append, List.nil_append, List.mem_cons,
    List.not_mem_nil, or_false] at ht
  rcases ht with rfl | rfl | rfl | rfl
  · exact .inl rfl
  · trivial
  · exact .inl rfl
  · trivial

/-- An envelope of an honest user is safe to send. -/
theorem safe_envelope {k user exp : ℕ} {recipient : SealingPublicKey Bytes} {plaintext : String}
    {envelope : Bytes} (h : sealEnvelope (sealCoins k) recipient (certificateOf user exp)
      (.lit plaintext) = .ok envelope) : (policy honest).Safe envelope := by
  obtain ⟨-, rfl⟩ := sealEnvelope_eq_ok.1 h
  refine Policy.safe_list.2 fun t ht => ?_
  simp only [sealHeader, List.cons_append, List.nil_append, List.mem_cons, List.not_mem_nil,
    or_false] at ht
  rcases ht with rfl | rfl | rfl
  · exact .inl rfl
  · show (policy honest).Safe (Term.encapsulate _ recipient.kemPublic).1
    unfold Term.encapsulate
    split
    · exact .inl rfl
    · exact .inl rfl
  · exact fun _ => safe_payload user exp plaintext

/-- An envelope of an honest user is handed out as what was sealed. -/
theorem handed_envelope {k user exp : ℕ} {recipient : SealingPublicKey Bytes} {plaintext : String}
    {envelope : Bytes} (huser : honest user = true)
    (hmem : ⟨user, recipient, .lit plaintext⟩ ∈ w.sealed)
    (h : sealEnvelope (sealCoins k) recipient (certificateOf user exp) (.lit plaintext) =
      .ok envelope) : Handed (SealedAs honest w) (HandedOut honest w) envelope := by
  obtain ⟨-, rfl⟩ := sealEnvelope_eq_ok.1 h
  refine handed_list.2 fun t ht => ?_
  simp only [sealHeader, List.cons_append, List.nil_append, List.mem_cons, List.not_mem_nil,
    or_false] at ht
  rcases ht with rfl | rfl | rfl
  · exact fun hf => (by cases hf)
  · show Handed _ _ (Term.encapsulate _ recipient.kemPublic).1
    unfold Term.encapsulate
    split
    · exact fun hf => (by cases hf)
    · exact fun hf => (by cases hf)
  · refine ⟨⟨k, ⟨user, recipient, .lit plaintext⟩, exp, hmem, huser, rfl, rfl⟩,
      handed_list.2 fun t ht => ?_⟩
    simp only [SenderCertificate.write, List.cons_append, List.nil_append, List.mem_cons,
      List.not_mem_nil, or_false] at ht
    rcases ht with rfl | rfl | rfl | rfl
    · exact fun hf => (by cases hf)
    · trivial
    · exact fun _ _ => ⟨_, exp, rfl, .inl ⟨user, huser, rfl⟩⟩
    · trivial

theorem step (h : w.Inv honest) {a : Action} (ha : Possible honest w a)
    (hs : w.step a = some w') : w'.Inv honest := by
  cases a with
  | issue user exp =>
    obtain rfl := Option.some.inj hs
    exact ⟨List.forall_mem_cons.2 ⟨ha, h.certificates⟩, h.safe, h.handed⟩
  | issueMalicious secret exp =>
    obtain rfl := Option.some.inj hs
    refine h.send (fun _ hx => hx) (.inl rfl) fun _ _ => ⟨_, exp, rfl, .inr ⟨secret, rfl, ?_⟩⟩
    exact Derives.mono (fun s hs => hs.imp_right (Or.imp_right (Or.imp_right
      (List.mem_cons_of_mem _)))) ha
  | sealTo i recipient plaintext =>
    obtain ⟨⟨user, exp⟩, hget, hs⟩ := Option.bind_eq_some_iff.1 hs
    have huser := h.certificates _ (List.mem_of_getElem? hget)
    dsimp only at hs
    split at hs
    · cases hs
    · rename_i envelope hseal
      obtain rfl := Option.some.inj hs
      exact h.send (List.subset_cons_self _ _) (safe_envelope hseal)
        (handed_envelope huser List.mem_cons_self hseal)
  | openAt user envelope now =>
    obtain rfl := Option.some.inj hs
    unfold World.accept
    split
    · exact h
    · split
      · exact h
      · exact ⟨h.certificates, h.safe, h.handed⟩

theorem run {ok : World → Action → Prop} (hok : ∀ w a, ok w a → Possible honest w a)
    (h : sealedMachine.Reachable ok w) : w.Inv honest := by
  refine h.invariant (fun w hw => ?_) fun w w' a _ hinv ha hs => hinv.step (hok w a ha) hs
  obtain rfl := hw
  exact ⟨fun _ hc => (by cases hc), fun _ ht => (by cases ht), fun _ ht => (by cases ht)⟩

end World.Inv

/-! ### Sealing to honest recipients -/

/-- Honest certificates stay inside envelopes to honest recipients. -/
structure World.Closed (honest : ℕ → Bool) (w : World) : Prop where
  recipients : ∀ x ∈ w.sealed,
    ∃ user, honest user = true ∧ x.recipient = (spkOf user).sealingPublicKey
  locked : ∀ t ∈ w.net, Locked (HonestKey honest) (HonestCertificate honest) t

namespace World.Closed

theorem locked_knowledge (h : w.Closed honest) :
    ∀ t ∈ w.knowledge honest, Locked (HonestKey honest) (HonestCertificate honest) t := by
  have hname : ∀ {f : Fn} {a b : Bytes}, ¬ (f = .signature ∧ a = .name .issuer) →
      Locked (HonestKey honest) (HonestCertificate honest) (.fn f a b) :=
    fun hf hc => hf ⟨hc.1, hc.2.1⟩
  rintro t (rfl | ⟨user, ht⟩ | ⟨n, -, rfl⟩ | ht)
  · exact hname (by simp)
  · simp only [published, List.mem_cons, List.not_mem_nil, or_false] at ht
    rcases ht with rfl | rfl | rfl | rfl
    · exact hname (by simp)
    · exact hname (by simp)
    · exact hname (by simp)
    · exact hname (by simp)
  · trivial
  · exact h.locked t ht

/-- The adversary derives no honest certificate. -/
theorem not_derives_certificate (h : w.Closed honest) (hinv : w.Inv honest) {user : ℕ}
    (huser : honest user = true) (expiresAt : ℕ) : ¬ Derives (w.knowledge honest)
      (sign (.name .issuer) (certSignedBytes (identityOf user) expiresAt)) := by
  intro hd
  refine locked_of_derives h.locked_knowledge (fun key hkey => ?_) (fun f a b hc => ?_) hd
    ⟨rfl, rfl, user, expiresAt, huser, rfl⟩
  · exact Policy.not_derives (safe_knowledge hinv.safe) (not_safe_of_honestKey hkey)
  · obtain ⟨rfl, rfl, -⟩ := hc
    exact ⟨rfl, fun hd => hinv.not_derives_issuer hd.1⟩

/-- An envelope between honest users keeps its certificate inside. -/
theorem locked_envelope {k user exp : ℕ} {recipient : SealingPublicKey Bytes} {plaintext : Bytes}
    {envelope : Bytes}
    (hr : ∃ u, honest u = true ∧ recipient = (spkOf u).sealingPublicKey)
    (h : sealEnvelope (sealCoins k) recipient (certificateOf user exp) plaintext = .ok envelope) :
    Locked (HonestKey honest) (HonestCertificate honest) envelope := by
  obtain ⟨-, rfl⟩ := sealEnvelope_eq_ok.1 h
  obtain ⟨u, hu, rfl⟩ := hr
  refine locked_list.2 fun t ht => ?_
  simp only [sealHeader, List.cons_append, List.nil_append, List.mem_cons, List.not_mem_nil,
    or_false] at ht
  rcases ht with rfl | rfl | rfl
  · exact fun hc => (by cases hc.1)
  · exact fun hc => (by cases hc.1)
  · exact .inl ⟨k, u, hu, rfl⟩

theorem step (h : w.Closed honest) (hinv : w.Inv honest) {a : Action}
    (ha : Possible honest w a) (hr : SealsToHonest honest w a) (hs : w.step a = some w') :
    w'.Closed honest := by
  cases a with
  | issue user exp =>
    obtain rfl := Option.some.inj hs
    exact ⟨h.recipients, h.locked⟩
  | issueMalicious secret exp =>
    obtain rfl := Option.some.inj hs
    refine ⟨h.recipients, List.forall_mem_cons.2 ⟨?_, h.locked⟩⟩
    -- the adversary does not hold the key of an honest identity
    rintro ⟨-, -, user, exp', huser, hb⟩
    have hid := (Term.fn.inj (certSignedBytes_inj hb).1).2.1
    exact hinv.not_derives_identity huser (hid ▸ ha)
  | sealTo i recipient plaintext =>
    obtain ⟨⟨user, exp⟩, hget, hs⟩ := Option.bind_eq_some_iff.1 hs
    dsimp only at hs
    split at hs
    · cases hs
    · rename_i envelope hseal
      obtain rfl := Option.some.inj hs
      exact ⟨List.forall_mem_cons.2 ⟨hr, h.recipients⟩,
        List.forall_mem_cons.2 ⟨locked_envelope hr hseal, h.locked⟩⟩
  | openAt user envelope now =>
    obtain rfl := Option.some.inj hs
    unfold World.accept
    split
    · exact h
    · split
      · exact h
      · exact ⟨h.recipients, h.locked⟩

end World.Closed

/-! ### Acceptance -/

theorem verify_eq_ok {c : SenderCertificate Bytes} {now : ℕ}
    (h : c.verify issuerIdentity now = .ok ()) :
    now < c.expiresAt ∧
    c.signature = sign (.name .issuer) (certSignedBytes c.senderIdentity c.expiresAt) := by
  unfold SenderCertificate.verify at h
  split_ifs at h with hnow hv
  exact ⟨by omega, of_decide_eq_true hv⟩

/-- Two honest users' prekeys and an envelope key: the key says for whom. -/
theorem recipient_of_key {user u k : ℕ} {ephemeral ct : Bytes}
    (h : deriveEnvelopeKey (diffieHellman (spkOf user).dhSecret ephemeral)
      (Crypto.decapsulate (spkOf user).kemSecret ct) =
      sealKey (sealCoins k) (spkOf u).sealingPublicKey) : user = u := by
  have hlist := Term.list_injective (Term.fn.inj (Term.fn.inj h).2.1).2.2
  have hss : Term.decapsulate (.name (.spkKem user)) ct =
      .fn .kemShared (.name (.spkKem u)) (.name (.kemRandom k)) :=
    (List.cons.inj (List.cons.inj hlist).2).1
  unfold Term.decapsulate at hss
  split at hss
  · split_ifs at hss
    · exact Name.spkKem.inj (Term.name.inj (Term.fn.inj hss).2.1)
    · cases hss
  · cases hss

/-- What an honest recipient accepts was sealed to it by a holder of the certified key. -/
theorem authentic_accept (hinv : w.Inv honest) (hclosed : w.Closed honest) {user now : ℕ}
    {envelope : Bytes} {m : UnsealedMessage Bytes} (hd : Derives (w.knowledge honest) envelope)
    (hopen : openEnvelope (spkOf user) envelope = .ok m)
    (hverify : m.certificate.verify issuerIdentity now = .ok ()) :
    (∃ sender, honest sender = true ∧ m.certificate.senderIdentity = identityOf sender ∧
      ⟨sender, (spkOf user).sealingPublicKey, m.plaintext⟩ ∈ w.sealed) ∨
    ∃ secret, m.certificate.senderIdentity = publicIdentity secret ∧
      Derives (w.knowledge honest) secret := by
  obtain ⟨ephemeral, ct, sealedPayload, payload, hu, hdec, hread⟩ := openEnvelope_eq_ok hopen
  obtain ⟨expires, hpayload, hexpires⟩ := readPayload_eq_ok hread
  obtain ⟨-, hsig⟩ := verify_eq_ok hverify
  obtain rfl := Term.eq_list_of_unlist hu
  obtain rfl := Term.eq_list_of_unlist hpayload
  obtain rfl := aeadOpen_eq_some.1 hdec
  have hsealed := hd.of_list (List.mem_cons_of_mem _ (List.mem_cons_of_mem _ List.mem_cons_self))
  rcases derives_key_or_handed hinv.handed_knowledge hsealed with hkey | hhanded
  · -- the adversary holds the key, so it holds the certificate
    have hcert := (Derives.aeadOpen hkey hsealed).of_list
      (List.mem_cons_of_mem _ (List.mem_cons_of_mem _ List.mem_cons_self))
    rw [hsig] at hcert
    rcases hinv.issued_of_derives hcert with ⟨sender, hsender, hid⟩ | hmalicious
    · rw [hid] at hcert
      exact absurd hcert (hclosed.not_derives_certificate hinv hsender _)
    · exact .inr hmalicious
  · -- the envelope is an honest user's
    obtain ⟨k, x, exp, hx, hsender, hkey, hfields⟩ := hhanded
    obtain ⟨u, -, hr⟩ := hclosed.recipients x hx
    rw [hr] at hkey
    obtain rfl := recipient_of_key hkey
    have hlist := Term.list_injective hfields
    simp only [SenderCertificate.write, List.cons_append, List.nil_append, List.cons.injEq,
      and_true] at hlist
    obtain ⟨hid, -, -, hplain⟩ := hlist
    refine .inl ⟨x.sender, hsender, hid, ?_⟩
    rw [hplain, ← hr]
    exact hx

theorem World.Authentic.step (h : w.Authentic honest) (hinv : w.Inv honest)
    (hclosed : w.Closed honest) {a : Action} (ha : Possible honest w a)
    (hs : w.step a = some w') : w'.Authentic honest := by
  -- what was accepted before stays authentic
  have hkeep : ∀ {net : List Bytes} {sealed : List SealedMessage} {certs : List (ℕ × ℕ)},
      w.net ⊆ net → w.sealed ⊆ sealed →
      World.Authentic honest ⟨certs, net, sealed, w.accepted⟩ := by
    intro net sealed certs hnet hsealed a ha
    rcases h a ha with ⟨user, huser, hid, hx⟩ | ⟨secret, hid, hd⟩
    · exact .inl ⟨user, huser, hid, hsealed hx⟩
    · exact .inr ⟨secret, hid, hd.mono fun s hs =>
        hs.imp_right (Or.imp_right (Or.imp_right fun hs => hnet hs))⟩
  cases a with
  | issue user exp =>
    obtain rfl := Option.some.inj hs
    exact hkeep (fun _ hx => hx) fun _ hx => hx
  | issueMalicious secret exp =>
    obtain rfl := Option.some.inj hs
    exact hkeep (List.subset_cons_self _ _) fun _ hx => hx
  | sealTo i recipient plaintext =>
    obtain ⟨⟨user, exp⟩, hget, hs⟩ := Option.bind_eq_some_iff.1 hs
    dsimp only at hs
    split at hs
    · cases hs
    · obtain rfl := Option.some.inj hs
      exact hkeep (List.subset_cons_self _ _) (List.subset_cons_self _ _)
  | openAt user envelope now =>
    obtain rfl := Option.some.inj hs
    unfold World.accept
    split
    · exact h
    · rename_i m hopen
      split
      · exact h
      · rename_i hverify
        exact List.forall_mem_cons.2 ⟨authentic_accept hinv hclosed ha.2 hopen hverify, h⟩

/-- **Every message accepted was sealed to its recipient by a holder of the certified identity's
key**, in every run in which honest users seal to honest recipients only. -/
theorem authentic_of_sealsToHonest (h : sealedMachine.Reachable
    (fun w a => Possible honest w a ∧ SealsToHonest honest w a) w) : w.Authentic honest := by
  have hboth : w.Closed honest ∧ w.Authentic honest := by
    refine Machine.Reachable.invariant (I := fun w => w.Closed honest ∧ w.Authentic honest)
      (fun w hw => ?_) (fun w w' a hreach hw ha hs => ?_) h
    · obtain rfl := hw
      exact ⟨⟨fun _ hx => (by cases hx), fun _ ht => (by cases ht)⟩, fun _ hx => (by cases hx)⟩
    · have hinv := World.Inv.run (fun _ _ => And.left) hreach
      exact ⟨hw.1.step hinv ha.1 ha.2 hs, hw.2.step hinv hw.1 ha.1 hs⟩
  exact hboth.2

/-! ### A certificate used again -/

/-- The adversary's randomness. -/
def maliciousCoins : SealCoins Bytes := ⟨.name (.malicious 0), .name (.malicious 1)⟩

/-- **Whoever was sent a certificate can seal under it**: any recipient accepts the envelope as
the certified user's. -/
theorem accepted_forgery {sender expiresAt now : ℕ} {plaintext : Bytes} (recipient : ℕ)
    (hcert : Derives (w.knowledge honest) (certificateOf sender expiresAt).signature)
    (hp : Derives (w.knowledge honest) plaintext) (hnow : now < expiresAt)
    (hexpires : expiresAt < 2 ^ 64) : ∃ envelope, Derives (w.knowledge honest) envelope ∧
      openEnvelope (spkOf recipient) envelope = .ok ⟨certificateOf sender expiresAt, plaintext⟩ ∧
      (certificateOf sender expiresAt).verify issuerIdentity now = .ok () := by
  have hseal : sealEnvelope maliciousCoins (spkOf recipient).sealingPublicKey
      (certificateOf sender expiresAt) plaintext = .ok _ := sealEnvelope_eq_ok.2 ⟨rfl, rfl⟩
  refine ⟨_, ?_, openEnvelope_sealEnvelope Term.isMlKemCiphertext_encapsulate hexpires rfl rfl hseal,
    ?_⟩
  · have hname : ∀ k, Derives (w.knowledge honest) (.name (.malicious k)) := fun k =>
      .known (.inr (.inr (.inl ⟨_, rfl, rfl⟩)))
    have hdh : Derives (w.knowledge honest) (dhPublic (.name (.spkDh recipient))) :=
      .known (.inr (.inl ⟨recipient, List.mem_cons_of_mem _ List.mem_cons_self⟩))
    have hkem : Derives (w.knowledge honest) (kemPublic (.name (.spkKem recipient))) :=
      .known (.inr (.inl ⟨recipient,
        List.mem_cons_of_mem _ (List.mem_cons_of_mem _ List.mem_cons_self)⟩))
    have hid : Derives (w.knowledge honest) (identityOf sender) :=
      .known (.inr (.inl ⟨sender, List.mem_cons_self⟩))
    have hheader : ∀ t ∈ sealHeader maliciousCoins (spkOf recipient).sealingPublicKey,
        Derives (w.knowledge honest) t := by
      intro t ht
      rcases List.mem_cons.1 ht with rfl | ht
      · exact .fn rfl (hname 0) .nil
      · obtain rfl := List.mem_singleton.1 ht
        exact .kemCiphertext hkem (hname 1)
    refine .list fun t ht => ?_
    rcases List.mem_append.1 ht with ht | ht
    · exact hheader t ht
    obtain rfl := List.mem_singleton.1 ht
    refine .aead (.fn rfl (.fn rfl .nil (.list fun t ht => ?_)) (.lit _)) (.num 0)
      (.list fun t ht => ?_) (.list fun t ht => ?_)
    · rcases List.mem_cons.1 ht with rfl | ht
      · exact .dh (hname 0) hdh
      · obtain rfl := List.mem_singleton.1 ht
        exact .kemShared hkem (hname 1)
    · rcases List.mem_cons.1 ht with rfl | ht
      · exact .lit _
      · obtain rfl := List.mem_singleton.1 ht
        exact .list hheader
    · simp only [SenderCertificate.write, List.cons_append, List.nil_append, List.mem_cons,
        List.not_mem_nil, or_false] at ht
      rcases ht with rfl | rfl | rfl | rfl
      · exact hid
      · exact .num _
      · exact hcert
      · exact hp
  · simp only [SenderCertificate.verify, certificateOf, SenderCertificate.issue,
      if_neg (not_le.2 hnow), issuerIdentity, LawfulCrypto.verify_sign, ↓reduceIte]

section Sample

/-- User `1` is malicious. -/
def onlyOneMalicious (user : ℕ) : Bool := user ≠ 1

/-- The state before anything happened. -/
def quiet : World := ⟨[], [], [], []⟩

/-- User `0`'s envelope to a user, under its certificate. -/
def envelopeTo (user : ℕ) : Bytes :=
  let recipient := (spkOf user).sealingPublicKey
  frame (sealHeader (sealCoins 0) recipient ++ [aeadEncrypt (sealKey (sealCoins 0) recipient)
    zeroNonce (envelopeAad (sealHeader (sealCoins 0) recipient))
    (frame ((certificateOf 0 1000).write ++ [.lit "hello"]))])

/-- The state after user `0` sealed it. -/
def sealedTo (user : ℕ) : World :=
  ⟨[(0, 1000)], [envelopeTo user], [⟨0, (spkOf user).sealingPublicKey, .lit "hello"⟩], []⟩

theorem reachable_sealedTo {ok : World → Action → Prop} (user : ℕ)
    (hissue : ok quiet (.issue 0 1000))
    (hseal : ok ⟨[(0, 1000)], [], [], []⟩ (.sealTo 0 (spkOf user).sealingPublicKey "hello")) :
    sealedMachine.Reachable ok (sealedTo user) :=
  .step (.step (.init rfl) hissue rfl) hseal rfl

/-- A message between honest users is accepted. -/
theorem authentic_of_sealsToHonest_delivered : ∃ w,
    (sealedTo 2).step (.openAt 2 (envelopeTo 2) 500) = some w ∧
    w.accepted = [⟨2, ⟨certificateOf 0 1000, .lit "hello"⟩⟩] ∧ w.Authentic onlyOneMalicious := by
  have hstep : ((sealedTo 2).step (.openAt 2 (envelopeTo 2) 500)).map (·.accepted) =
      some [⟨2, ⟨certificateOf 0 1000, .lit "hello"⟩⟩] := by decide +kernel
  obtain ⟨w, hw, haccepted⟩ := Option.map_eq_some_iff.1 hstep
  have hok : Possible onlyOneMalicious (sealedTo 2) (.openAt 2 (envelopeTo 2) 500) :=
    ⟨rfl, .known (.inr (.inr (.inr List.mem_cons_self)))⟩
  have hreach : sealedMachine.Reachable (fun w a => Possible onlyOneMalicious w a ∧
      SealsToHonest onlyOneMalicious w a) (sealedTo 2) :=
    reachable_sealedTo 2 ⟨rfl, trivial⟩ ⟨trivial, 2, rfl, rfl⟩
  exact ⟨w, hw, haccepted, authentic_of_sealsToHonest (hreach.step ⟨hok, trivial⟩ hw)⟩

/-- The malicious user opens what was sealed to it. -/
theorem derives_certificate : Derives ((sealedTo 1).knowledge onlyOneMalicious)
    (certificateOf 0 1000).signature := by
  have hname : ∀ n : Name, n.secret onlyOneMalicious = false →
      Derives ((sealedTo 1).knowledge onlyOneMalicious) (.name n) :=
    fun n hn => .known (.inr (.inr (.inl ⟨n, hn, rfl⟩)))
  have henvelope : Derives ((sealedTo 1).knowledge onlyOneMalicious) (envelopeTo 1) :=
    .known (.inr (.inr (.inr List.mem_cons_self)))
  have heph := henvelope.of_list List.mem_cons_self
  have hct := henvelope.of_list (List.mem_cons_of_mem _ List.mem_cons_self)
  have hsealed := henvelope.of_list
    (List.mem_cons_of_mem _ (List.mem_cons_of_mem _ List.mem_cons_self))
  have hkey : Derives ((sealedTo 1).knowledge onlyOneMalicious)
      (sealKey (sealCoins 0) (spkOf 1).sealingPublicKey) := by
    refine .fn rfl (.fn rfl .nil (.list fun t ht => ?_)) (.lit _)
    rcases List.mem_cons.1 ht with rfl | ht
    · show Derives _ (dhShared (.name (Name.ephemeral 0)) (.name (Name.spkDh 1)))
      rw [dhShared_comm]
      exact .dh (hname (.spkDh 1) rfl) heph
    · obtain rfl := List.mem_singleton.1 ht
      exact .decapsulate (hname (.spkKem 1) rfl) hct
  exact (Derives.aeadOpen hkey hsealed).of_list
    (List.mem_cons_of_mem _ (List.mem_cons_of_mem _ List.mem_cons_self))

/-- **A malicious recipient seals under the certificate of an honest sender.** -/
theorem not_authentic_forwarded : ¬ ∀ honest w, sealedMachine.Reachable (Possible honest) w →
    w.Authentic honest := by
  intro h
  obtain ⟨envelope, hd, hopen, hverify⟩ := accepted_forgery 2 derives_certificate
    (.lit "forged") (by decide : 500 < 1000) (by decide)
  have hreach : sealedMachine.Reachable (Possible onlyOneMalicious) (sealedTo 1) :=
    reachable_sealedTo 1 rfl trivial
  have hok : Possible onlyOneMalicious (sealedTo 1) (.openAt 2 envelope 500) := ⟨rfl, hd⟩
  have hnext : sealedMachine.Reachable (Possible onlyOneMalicious)
      ((sealedTo 1).accept 2 envelope 500) := hreach.step hok rfl
  have haccept : (sealedTo 1).accept 2 envelope 500 =
      { sealedTo 1 with accepted := [⟨2, ⟨certificateOf 0 1000, .lit "forged"⟩⟩] } := by
    simp only [World.accept, hopen, hverify]
    rfl
  have hinv := World.Inv.run (fun _ _ ha => ha) hnext
  have hauth := h onlyOneMalicious _ hnext
  rw [haccept] at hauth hinv
  rcases hauth _ List.mem_cons_self with ⟨user, -, -, hmem⟩ | ⟨secret, hid, hsecret⟩
  · -- the one message sealed was another, to another
    have hplain := (SealedMessage.mk.inj (List.mem_singleton.1 hmem)).2.2
    exact absurd (Term.lit.inj hplain) (by decide)
  · obtain rfl : secret = .name (.identity 0) := (Term.fn.inj hid).2.1.symm
    exact hinv.not_derives_identity (show onlyOneMalicious 0 = true from rfl) hsecret

end Sample

end SealedSender

end NovaChannel
