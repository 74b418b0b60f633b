import Mathlib.Algebra.Group.Nat.Even
import Mathlib.Data.Nat.Notation
import Mathlib.Tactic.SplitIfs

/-!
# Errors and cryptographic primitives

Everything the workspace takes from third-party crates (X25519, ML-KEM, HKDF, HMAC, SHA-256,
ChaCha20-Poly1305, the hybrid signatures) is an operation of `Crypto β` over one type `β` of
byte strings; the protocol code of the other modules is generic in it.  `LawfulCrypto` states
that the primitives do their job: opening inverts sealing, both sides of an exchange reach
the same secret, a signature verifies.

The wire encoding enters through `Crypto.frame`, the fields a `Writer` put down as one byte
string, and `Crypto.unframe`, what a `Reader` finds in it.
-/

namespace NovaChannel

/-- The crate's error type. -/
inductive Error
  | malformed (msg : String)
  | badSignature
  | identityMismatch
  | wrongState
  | decrypt
  | replay
  | tooLarge
  | sequenceExhausted
  | ratchetInProgress
  | unknownEpoch
  | groupFull
  | notAGroupMember
  | commitNotDecryptable
  | tooManySkippedKeys
  | pathKeyMismatch
  | unknownOneTimePreKey
  | certificateExpired
  | unknownDevice
  | unauthorizedDevice
  | staleDeviceList
  | signingBackend
  deriving DecidableEq, Repr

/-- How a call can fail to return a value: with the crate's `Err`, or by a panic (an `expect`,
an index out of range, an arithmetic overflow). -/
inductive Fault
  | error (e : Error)
  | panic
  deriving DecidableEq, Repr

/-- The outcome of a fallible call. -/
abbrev Result (α : Type) := Except Fault α

namespace Result

/-- `Err(e)`. -/
abbrev err {α : Type} (e : Error) : Result α := .error (.error e)

/-- A value that an `expect` or an index operation takes for granted. -/
def expect {α : Type} : Option α → Result α
  | some a => .ok a
  | none => .error .panic

@[simp] theorem expect_some {α : Type} (a : α) : expect (some a) = .ok a := rfl

@[simp] theorem expect_none {α : Type} : expect (none : Option α) = .error .panic := rfl

theorem expect_eq_ok {α : Type} {o : Option α} {a : α} : expect o = .ok a ↔ o = some a := by
  cases o <;> simp

theorem exists_of_isOk {α : Type} {x : Result α} (h : x.isOk = true) : ∃ a, x = .ok a := by
  cases x with
  | error e => cases h
  | ok a => exact ⟨a, rfl⟩

/-- A successful sequence is one successful call after the other. -/
theorem bind_eq_ok {α γ : Type} {x : Result α} {f : α → Result γ} {c : γ} :
    (x >>= f) = .ok c ↔ ∃ a, x = .ok a ∧ f a = .ok c := by
  cases x with
  | error e => simp [bind, Except.bind]
  | ok a => simp [bind, Except.bind]

/-- A successful pass over a list pairs every input with an output and every output with an
input. -/
theorem mapM_eq_ok {α γ : Type} {f : α → Result γ} {xs : List α} {ys : List γ}
    (h : xs.mapM f = .ok ys) :
    (∀ x ∈ xs, ∃ y ∈ ys, f x = .ok y) ∧ (∀ y ∈ ys, ∃ x ∈ xs, f x = .ok y) := by
  induction xs generalizing ys with
  | nil =>
    rw [List.mapM_nil] at h
    obtain rfl : [] = ys := Except.ok.inj h
    simp
  | cons x xs ih =>
    rw [List.mapM_cons] at h
    obtain ⟨y, hy, h⟩ := bind_eq_ok.1 h
    obtain ⟨ys', hys, h⟩ := bind_eq_ok.1 h
    obtain rfl : y :: ys' = ys := Except.ok.inj h
    obtain ⟨h1, h2⟩ := ih hys
    constructor
    · rintro z (_ | ⟨_, hz⟩)
      · exact ⟨y, List.mem_cons_self, hy⟩
      · obtain ⟨w, hw, hf⟩ := h1 z hz
        exact ⟨w, List.mem_cons_of_mem _ hw, hf⟩
    · rintro w (_ | ⟨_, hw⟩)
      · exact ⟨x, List.mem_cons_self, hy⟩
      · obtain ⟨z, hz, hf⟩ := h2 w hw
        exact ⟨z, List.mem_cons_of_mem _ hz, hf⟩

@[simp] theorem ok_bind {α γ : Type} (a : α) (f : α → Result γ) :
    ((.ok a : Result α) >>= f) = f a := rfl

@[simp] theorem error_bind {α γ : Type} (e : Fault) (f : α → Result γ) :
    ((.error e : Result α) >>= f) = .error e := rfl

@[simp] theorem pure_eq_ok {α : Type} (a : α) : (pure a : Result α) = .ok a := rfl

@[simp] theorem throw_eq_error {α : Type} (e : Fault) : (throw e : Result α) = .error e := rfl

end Result

/-- Addition on `u64`, with the overflow check of the release profile. -/
def checkedAdd64 (a b : ℕ) : Option ℕ := if a + b < 2 ^ 64 then some (a + b) else none

theorem checkedAdd64_eq_some {a b c : ℕ} :
    checkedAdd64 a b = some c ↔ a + b < 2 ^ 64 ∧ c = a + b := by
  unfold checkedAdd64
  split_ifs with h
  · rw [Option.some.injEq]
    exact ⟨fun he => ⟨h, he.symm⟩, fun he => he.2.symm⟩
  · exact ⟨fun he => (by cases he), fun he => absurd he.1 h⟩

/-- The third-party primitives, over byte strings `β`. -/
class Crypto (β : Type) where
  /-- A byte-string literal. -/
  lit : String → β
  /-- A fixed-width big-endian number. -/
  num : ℕ → β
  /-- Reading a number back. -/
  unnum : β → Option ℕ
  /-- `Writer::into_bytes` after writing the fields one by one. -/
  frame : List β → β
  /-- The fields a `Reader` takes out of a message it reads to the end. -/
  unframe : β → Option (List β)
  /-- The byte string is exactly 32 bytes long. -/
  len32 : β → Bool
  /-- `&bytes[i..j]`. -/
  slice : ℕ → ℕ → β → β
  /-- `X25519Public::from(&secret)`. -/
  x25519Public : β → β
  /-- `secret.diffie_hellman(&public)`. -/
  diffieHellman : β → β → β
  /-- `SharedSecret::was_contributory`. -/
  wasContributory : β → Bool
  /-- The encapsulation key of a decapsulation key (given by its seed). -/
  mlKemPublic : β → β
  /-- `encapsulate_with_rng`: ciphertext and shared secret, from the randomness drawn. -/
  encapsulate : β → β → β × β
  /-- `decapsulate`. -/
  decapsulate : β → β → β
  /-- `Hkdf::<Sha256>::extract(salt, ikm)`. -/
  hkdfExtract : Option β → β → β
  /-- `hk.expand(info, &mut out)`, with the length of `out`. -/
  hkdfExpand : ℕ → β → β → β
  /-- HMAC-SHA256 of a message under a key. -/
  hmac : β → β → β
  /-- SHA-256. -/
  sha256 : β → β
  /-- ChaCha20-Poly1305 sealing: key, nonce, associated data, message. -/
  aeadEncrypt : β → β → β → β → β
  /-- ChaCha20-Poly1305 opening. -/
  aeadDecrypt : β → β → β → β → Option β
  /-- `Identity::public`. -/
  publicIdentity : β → β
  /-- `Identity::sign`. -/
  sign : β → β → β
  /-- `PublicIdentity::verify`: public identity, message, signature. -/
  verify : β → β → β → Bool

/-- The primitives are correct. -/
class LawfulCrypto (β : Type) [Crypto β] : Prop where
  unnum_num {n : ℕ} (h : n < 2 ^ 64) : Crypto.unnum (Crypto.num n : β) = some n
  unframe_frame (l : List β) : Crypto.unframe (Crypto.frame l) = some l
  len32_hkdfExpand (prk info : β) : Crypto.len32 (Crypto.hkdfExpand 32 prk info) = true
  /-- Both sides of an X25519 exchange compute the same point. -/
  diffieHellman_comm (a b : β) :
    Crypto.diffieHellman a (Crypto.x25519Public b) = Crypto.diffieHellman b (Crypto.x25519Public a)
  decapsulate_encapsulate (sk r : β) :
    Crypto.decapsulate sk (Crypto.encapsulate (Crypto.mlKemPublic sk) r).1 =
      (Crypto.encapsulate (Crypto.mlKemPublic sk) r).2
  aeadDecrypt_aeadEncrypt (k n a m : β) :
    Crypto.aeadDecrypt k n a (Crypto.aeadEncrypt k n a m) = some m
  /-- No other key, nonce or associated data opens a ciphertext to another message. -/
  eq_of_aeadDecrypt {k k' n n' a a' m m' : β} :
    Crypto.aeadDecrypt k' n' a' (Crypto.aeadEncrypt k n a m) = some m' → m' = m
  verify_sign (sk m : β) : Crypto.verify (Crypto.publicIdentity sk) m (Crypto.sign sk m) = true

attribute [simp] LawfulCrypto.unframe_frame LawfulCrypto.len32_hkdfExpand
  LawfulCrypto.aeadDecrypt_aeadEncrypt LawfulCrypto.verify_sign

section Injective

variable {β : Type} [Crypto β] [LawfulCrypto β]

@[simp] theorem frame_inj {l l' : List β} : Crypto.frame l = Crypto.frame l' ↔ l = l' := by
  refine ⟨fun h => ?_, fun h => by rw [h]⟩
  have hu := congrArg Crypto.unframe h
  simpa using hu

theorem num_inj {m n : ℕ} (hm : m < 2 ^ 64) (hn : n < 2 ^ 64)
    (h : (Crypto.num m : β) = Crypto.num n) : m = n := by
  have hu := congrArg Crypto.unnum h
  rw [LawfulCrypto.unnum_num hm, LawfulCrypto.unnum_num hn] at hu
  exact Option.some.inj hu

end Injective

end NovaChannel
