import NovaChannel.Lib.Hybrid
import NovaChannel.MultiDevice.Symbolic

/-!
# Who can compute a session's keys

Any number of session starts between any devices, and an adversary that has every bundle, every
init message, and the secrets that leaked.

* `SessionStart.Broken` : every exchange that a session's keys are mixed from has lost one of the
  two secrets behind it;
* `sessionKeys_iff` : **the adversary derives a session's keys exactly then**: one whole exchange
  is enough, classical or post-quantum, of the signed prekey or of the one-time prekey.
-/

namespace NovaChannel

namespace X3dh

open Crypto Term MultiDevice

/-- A session start: who starts it with whom, the one-time prekey in the bundle, and the payload. -/
structure SessionStart where
  initiator : ℕ
  responder : ℕ
  opk : Option ℕ
  payload : String

namespace SessionStart

/-- `initiate`, with the randomness of the `k`-th start. -/
def run (s : SessionStart) (k : ℕ) : Result (InitiatedSession MultiDevice.Bytes) :=
  initiate (initiateCoins k) (identityOf s.initiator) (dhIdentityOf s.initiator)
    (bundleOf s.responder s.opk) (.lit s.payload)

/-- Every exchange of the start has lost one of its secrets. -/
structure Broken (leaked : Name → Prop) (s : SessionStart) (k : ℕ) : Prop where
  dh1 : leaked (.dhIdentity s.initiator) ∨ leaked (.spkDh s.responder)
  dh2 : leaked (.ephemeral k) ∨ leaked (.dhIdentity s.responder)
  dh3 : leaked (.ephemeral k) ∨ leaked (.spkDh s.responder)
  dh4 : ∀ id ∈ s.opk, leaked (.ephemeral k) ∨ leaked (.opkDh s.responder id)
  kem : leaked (.spkKem s.responder) ∨ leaked (.kemRandom k)
  opkKem : ∀ id ∈ s.opk, leaked (.opkKem s.responder id) ∨ leaked (.opkKemRandom k)

end SessionStart

/-- What a device publishes. -/
inductive Published : MultiDevice.Bytes → Prop
  | identity (owner : ℕ) : Published (identityOf owner)
  | dhIdentity (owner : ℕ) : Published (dhIdentityOf owner).publicKey
  | spkDh (owner : ℕ) : Published (spkOf owner).dhPublic
  | spkKem (owner : ℕ) : Published (spkOf owner).kemPublic
  | spkSignature (owner : ℕ) : Published (spkOf owner).signature
  | opkDh (owner id : ℕ) : Published (opkOf owner id).publicKey
  | opkKem (owner id : ℕ) : Published (opkOf owner id).kemPublic

/-- What the adversary has: everything published, every init message, and what leaked. -/
def adversaryKnows (starts : ℕ → Option SessionStart) (leaked : Name → Prop) :
    Set MultiDevice.Bytes :=
  {t | Published t ∨ (∃ k s out, starts k = some s ∧ s.run k = .ok out ∧ t = out.message) ∨
    ∃ n, leaked n ∧ t = .name n}

section Secrecy

variable {starts : ℕ → Option SessionStart} {leaked : Name → Prop} {s : SessionStart} {k : ℕ}
  {out : InitiatedSession MultiDevice.Bytes}

/-! ### What the adversary has is safe -/

theorem hybridSafe_published {t : MultiDevice.Bytes} (h : Published t) :
    (Policy.leakPolicy leaked).HybridSafe t := by
  cases h <;> exact Policy.hybridSafe_public rfl (by simp)

/-- The session that `initiate` returns; every exchange contributes. -/
theorem SessionStart.run_eq_ok (h : s.run k = .ok out) :
    out = ⟨initiateMessage (initiateCoins k) (identityOf s.initiator) (dhIdentityOf s.initiator)
        (bundleOf s.responder s.opk) (.lit s.payload), identityOf s.responder,
      (initiateKeys (initiateCoins k) (dhIdentityOf s.initiator)
        (bundleOf s.responder s.opk)).i2r,
      (initiateKeys (initiateCoins k) (dhIdentityOf s.initiator)
        (bundleOf s.responder s.opk)).r2i,
      (initiateKeys (initiateCoins k) (dhIdentityOf s.initiator)
        (bundleOf s.responder s.opk)).ratchetRoot⟩ := (initiate_eq_ok.1 h).2

/-- An init message gives nothing away: what is sealed in it is public. -/
theorem hybridSafe_message (h : s.run k = .ok out) :
    (Policy.leakPolicy leaked).HybridSafe out.message := by
  obtain rfl := s.run_eq_ok h
  refine Policy.hybridSafe_list.2 fun t ht => ?_
  rcases List.mem_append.1 ht with ht | ht
  · rcases List.mem_append.1 ht with ht | ht
    · simp only [List.mem_cons, List.not_mem_nil, or_false] at ht
      rcases ht with rfl | rfl | rfl
      · exact Policy.hybridSafe_public rfl (by simp)
      · exact Policy.hybridSafe_public rfl (by simp)
      · exact Policy.hybridSafe_public rfl (by simp)
    · cases hopk : s.opk with
      | none =>
        simp only [initiateOpk, bundleOf, PreKeyBundle.build, hopk, Option.map_none,
          List.mem_singleton] at ht
        rw [ht]
        trivial
      | some id =>
        simp only [initiateOpk, bundleOf, PreKeyBundle.build, hopk, Option.map_some, List.mem_cons,
          List.not_mem_nil, or_false] at ht
        rcases ht with rfl | rfl | rfl
        · trivial
        · trivial
        · exact Policy.hybridSafe_public rfl (by simp)
  · obtain rfl := List.mem_singleton.1 ht
    refine fun _ => Policy.hybridSafe_list.2 fun t ht => ?_
    simp only [List.mem_cons, List.not_mem_nil, or_false] at ht
    rcases ht with rfl | rfl
    · exact Policy.hybridSafe_public rfl (by simp)
    · trivial

theorem hybridSafe_adversaryKnows :
    ∀ t ∈ adversaryKnows starts leaked, (Policy.leakPolicy leaked).HybridSafe t := by
  rintro t (ht | ⟨k, s, out, -, hrun, rfl⟩ | ⟨n, hn, rfl⟩)
  · exact hybridSafe_published ht
  · exact hybridSafe_message hrun
  · exact Policy.hybridSafe_leaked.2 hn

/-! ### The keys of a session -/

/-- The combined secret of a start. -/
def SessionStart.combined (s : SessionStart) (k : ℕ) : MultiDevice.Bytes :=
  combine (dhShared (.name (.dhIdentity s.initiator)) (.name (.spkDh s.responder)))
    (dhShared (.name (.ephemeral k)) (.name (.dhIdentity s.responder)))
    (dhShared (.name (.ephemeral k)) (.name (.spkDh s.responder)))
    (s.opk.map fun id => dhShared (.name (.ephemeral k)) (.name (.opkDh s.responder id)))
    (.fn .kemShared (.name (.spkKem s.responder)) (.name (.kemRandom k)))
    (s.opk.map fun id =>
      .fn .kemShared (.name (.opkKem s.responder id)) (.name (.opkKemRandom k)))

theorem initiateKeys_eq (s : SessionStart) (k : ℕ) :
    initiateKeys (initiateCoins k) (dhIdentityOf s.initiator) (bundleOf s.responder s.opk) =
      derive (s.combined k) := by
  cases h : s.opk with
  | none =>
    rw [SessionStart.combined, h]
    rfl
  | some id =>
    rw [SessionStart.combined, h]
    rfl

/-- The combined secret is safe when every exchange is broken. -/
theorem hybridSafe_combined :
    (Policy.leakPolicy leaked).HybridSafe (s.combined k) ↔ s.Broken leaked k := by
  have hlist : (Policy.leakPolicy leaked).HybridSafe (s.combined k) ↔ _ := Policy.hybridSafe_list
  rw [hlist]
  constructor
  · intro h
    refine ⟨?_, ?_, ?_, fun id hid => ?_, ?_, fun id hid => ?_⟩
    · exact Policy.hybridSafe_dh.1 (h _ (by simp))
    · exact Policy.hybridSafe_dh.1 (h _ (by simp))
    · exact Policy.hybridSafe_dh.1 (h _ (by simp))
    · obtain hid : s.opk = some id := hid
      exact Policy.hybridSafe_dh.1 (h _ (by simp [hid]))
    · exact Policy.hybridSafe_kem.1 (h _ (by simp))
    · obtain hid : s.opk = some id := hid
      exact Policy.hybridSafe_kem.1 (h _ (by simp [hid]))
  · intro h t ht
    simp only [List.cons_append, List.nil_append, List.append_assoc, List.mem_cons,
      List.mem_append, Option.mem_toList, Option.map_eq_some_iff] at ht
    rcases ht with rfl | rfl | rfl | ⟨id, hid, rfl⟩ | rfl | ⟨id, hid, rfl⟩
    · exact Policy.hybridSafe_dh.2 h.dh1
    · exact Policy.hybridSafe_dh.2 h.dh2
    · exact Policy.hybridSafe_dh.2 h.dh3
    · exact Policy.hybridSafe_dh.2 (h.dh4 id hid)
    · exact Policy.hybridSafe_kem.2 h.kem
    · exact Policy.hybridSafe_kem.2 (h.opkKem id hid)

/-- A key expanded from the combined secret is as safe as the secret. -/
theorem hybridSafe_expand {n : ℕ} {combined : MultiDevice.Bytes} {label : String} :
    (Policy.leakPolicy leaked).HybridSafe (hkdfExpand n (hkdfExtract none combined) (.lit label)) ↔
      (Policy.leakPolicy leaked).HybridSafe combined := by
  refine ((Policy.opaque_leakPolicy leaked).hybridSafe_fn rfl (by simp) (by simp)).trans ?_
  refine (and_iff_left trivial).trans ?_
  exact ((Policy.opaque_leakPolicy leaked).hybridSafe_fn rfl (by simp) (by simp)).trans
    (and_iff_right trivial)

theorem hybridSafe_slice {i j : ℕ} {t : MultiDevice.Bytes} :
    (Policy.leakPolicy leaked).HybridSafe (slice i j t) ↔ (Policy.leakPolicy leaked).HybridSafe t :=
  ((Policy.opaque_leakPolicy leaked).hybridSafe_fn rfl (by simp) (by simp)).trans
    (and_iff_left trivial)

/-! ### What a broken session gives away -/

/-- Whoever has one secret of each exchange computes the combined secret. -/
theorem derives_combined (hs : starts k = some s) (hrun : s.run k = .ok out)
    (h : s.Broken leaked k) : Derives (adversaryKnows starts leaked) (s.combined k) := by
  have hK : ∀ {n n'}, leaked n ∨ leaked n' → Derives (adversaryKnows starts leaked) (.name n) ∨
      Derives (adversaryKnows starts leaked) (.name n') := fun h =>
    h.imp (fun hn => .known (.inr (.inr ⟨_, hn, rfl⟩))) fun hn => .known (.inr (.inr ⟨_, hn, rfl⟩))
  have hpublished : ∀ {t : MultiDevice.Bytes}, Published t →
      Derives (adversaryKnows starts leaked) t := fun ht => .known (.inl ht)
  have hmessage : Derives (adversaryKnows starts leaked) out.message :=
    .known (.inr (.inl ⟨k, s, out, hs, hrun, rfl⟩))
  obtain rfl := s.run_eq_ok hrun
  -- the ephemeral key and the ciphertexts are in the message
  have hheader : ∀ t ∈ initiateHeader (initiateCoins k) (dhIdentityOf s.initiator)
      (bundleOf s.responder s.opk), Derives (adversaryKnows starts leaked) t := fun t ht =>
    Derives.of_list hmessage (List.mem_append_left _ ht)
  have heph : Derives (adversaryKnows starts leaked) (dhPublic (.name (.ephemeral k))) :=
    hheader _ (by simp [initiateHeader, headerFields, initiateCoins, x25519Public])
  have hct : Derives (adversaryKnows starts leaked)
      (.fn .kemCiphertext (.name (.spkKem s.responder)) (.name (.kemRandom k))) :=
    hheader _ (List.mem_append_left _ (List.mem_cons_of_mem _ (List.mem_cons_of_mem _
      List.mem_cons_self)))
  have hopkCt : ∀ id ∈ s.opk, Derives (adversaryKnows starts leaked)
      (.fn .kemCiphertext (.name (.opkKem s.responder id)) (.name (.opkKemRandom k))) := by
    intro id hid
    obtain hid : s.opk = some id := hid
    refine hheader _ (List.mem_append_right _ ?_)
    simp only [initiateOpk, bundleOf, PreKeyBundle.build, hid, Option.map_some]
    exact List.mem_cons_of_mem _ (List.mem_cons_of_mem _ List.mem_cons_self)
  refine .list fun t ht => ?_
  simp only [List.cons_append, List.nil_append, List.append_assoc, List.mem_cons,
    List.mem_append, Option.mem_toList, Option.map_eq_some_iff] at ht
  rcases ht with rfl | rfl | rfl | ⟨id, hid, rfl⟩ | rfl | ⟨id, hid, rfl⟩
  · exact Derives.dhShared_of_either (hK h.dh1) (hpublished (.dhIdentity _))
      (hpublished (.spkDh _))
  · exact Derives.dhShared_of_either (hK h.dh2) heph (hpublished (.dhIdentity _))
  · exact Derives.dhShared_of_either (hK h.dh3) heph (hpublished (.spkDh _))
  · exact Derives.dhShared_of_either (hK (h.dh4 id hid)) heph (hpublished (.opkDh _ _))
  · exact Derives.kemShared_of_either (hK h.kem) (hpublished (.spkKem _)) hct
  · exact Derives.kemShared_of_either (hK (h.opkKem id hid)) (hpublished (.opkKem _ _))
      (hopkCt id hid)

/-- **A session's keys are derivable exactly when every one of its exchanges has lost a secret**,
whatever other sessions there are and whatever else leaked: the ratchet's root and the key of either
direction. -/
theorem sessionKeys_iff (hs : starts k = some s) (hrun : s.run k = .ok out) :
    (Derives (adversaryKnows starts leaked) out.session.ratchetRoot ↔ s.Broken leaked k) ∧
      (Derives (adversaryKnows starts leaked) out.session.sender.key ↔ s.Broken leaked k) ∧
      (Derives (adversaryKnows starts leaked) out.session.receiver.key ↔ s.Broken leaked k) := by
  have hsafe : ∀ t ∈ adversaryKnows starts leaked, (Policy.leakPolicy leaked).HybridSafe t :=
    hybridSafe_adversaryKnows
  have hcombined : s.Broken leaked k → Derives (adversaryKnows starts leaked) (s.combined k) :=
    derives_combined hs hrun
  obtain rfl := s.run_eq_ok hrun
  rw [initiateKeys_eq]
  have hexpand : ∀ (n : ℕ) (label : String), s.Broken leaked k →
      Derives (adversaryKnows starts leaked)
        (hkdfExpand n (hkdfExtract none (s.combined k)) (.lit label)) := fun n label h =>
    .fn rfl (.fn rfl .nil (hcombined h)) (.lit _)
  refine ⟨⟨fun h => ?_, fun h => hexpand _ _ h⟩, ⟨fun h => ?_, fun h => ?_⟩,
    ⟨fun h => ?_, fun h => ?_⟩⟩
  · exact hybridSafe_combined.1 (hybridSafe_expand.1 (Policy.hybridSafe_of_derives hsafe h))
  · exact hybridSafe_combined.1 (hybridSafe_expand.1 (hybridSafe_slice.1
      (Policy.hybridSafe_of_derives hsafe h)))
  · exact .fn rfl (hexpand _ _ h) .nil
  · exact hybridSafe_combined.1 (hybridSafe_expand.1 (hybridSafe_slice.1
      (Policy.hybridSafe_of_derives hsafe h)))
  · exact .fn rfl (hexpand _ _ h) .nil

end Secrecy

/-- The secrets that a device keeps, its one-time prekeys apart. -/
def Lasting : Name → Prop
  | .identity _ | .dhIdentity _ | .spkDh _ | .spkKem _ => True
  | _ => False

/-- Two sessions of one initiator with one responder, with a one-time prekey and without. -/
def twoStarts : ℕ → Option SessionStart
  | 0 => some ⟨0, 1, some 7, "hello"⟩
  | 1 => some ⟨0, 1, none, "hello"⟩
  | _ => none

/-- Once every lasting secret leaked, the session with a one-time prekey is still secret, and the
other one is not. -/
theorem sessionKeys_iff_twoStarts : ∃ out out',
    SessionStart.run ⟨0, 1, some 7, "hello"⟩ 0 = .ok out ∧
      SessionStart.run ⟨0, 1, none, "hello"⟩ 1 = .ok out' ∧
      ¬ Derives (adversaryKnows twoStarts Lasting) out.session.ratchetRoot ∧
      Derives (adversaryKnows twoStarts Lasting) out'.session.ratchetRoot := by
  have hrun : ∀ (s : SessionStart) k, ∃ out, s.run k = .ok out := fun s k =>
    ⟨_, initiate_eq_ok.2 ⟨⟨rfl, rfl, rfl, fun _ _ => rfl⟩, rfl⟩⟩
  obtain ⟨out, hout⟩ := hrun ⟨0, 1, some 7, "hello"⟩ 0
  obtain ⟨out', hout'⟩ := hrun ⟨0, 1, none, "hello"⟩ 1
  have hfirst : twoStarts 0 = some ⟨0, 1, some 7, "hello"⟩ := rfl
  have hsecond : twoStarts 1 = some ⟨0, 1, none, "hello"⟩ := rfl
  refine ⟨out, out', hout, hout', fun h => ?_, ?_⟩
  · obtain ⟨-, -, -, -, -, hkem⟩ := (sessionKeys_iff hfirst hout).1.1 h
    rcases hkem 7 rfl with h | h
    · exact h
    · exact h
  · exact (sessionKeys_iff hsecond hout').1.2
      ⟨.inl trivial, .inr trivial, .inr trivial, fun id hid => (by cases hid), .inl trivial,
        fun id hid => (by cases hid)⟩

end X3dh

end NovaChannel
