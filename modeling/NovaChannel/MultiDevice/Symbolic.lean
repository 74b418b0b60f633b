import NovaChannel.Prekey
import NovaChannel.X3dh
import NovaChannel.SymbolicBytes

/-!
# Symbolic devices

The values that devices and accounts draw at random, as names: long-term keys by their owner,
one-time prekeys by their id, the keys of a session start by its number.
-/

namespace NovaChannel

namespace MultiDevice

open Crypto X3dh

/-- The values drawn at random. -/
inductive Name
  | identity (owner : ℕ)
  | dhIdentity (owner : ℕ)
  | spkDh (owner : ℕ)
  | spkKem (owner : ℕ)
  | opkDh (owner id : ℕ)
  | opkKem (owner id : ℕ)
  | ephemeral (k : ℕ)
  | kemRandom (k : ℕ)
  | opkKemRandom (k : ℕ)
  | stepDh (k : ℕ)
  | stepKem (k : ℕ)
  | attemptNonce (k : ℕ)
  deriving DecidableEq

namespace Name

/-- A number for every name. -/
def code : Name → ℕ
  | identity owner => 12 * owner
  | dhIdentity owner => 12 * owner + 1
  | spkDh owner => 12 * owner + 2
  | spkKem owner => 12 * owner + 3
  | opkDh owner id => 12 * Nat.pair owner id + 4
  | opkKem owner id => 12 * Nat.pair owner id + 5
  | ephemeral k => 12 * k + 6
  | kemRandom k => 12 * k + 7
  | opkKemRandom k => 12 * k + 8
  | stepDh k => 12 * k + 9
  | stepKem k => 12 * k + 10
  | attemptNonce k => 12 * k + 11

theorem code_injective : Function.Injective code := by
  intro a b h
  cases a <;> cases b <;> simp only [code] at h <;> try omega
  all_goals first
    | (congr 1; omega)
    | (have h' := Nat.eq_of_mul_eq_mul_left (by omega : 0 < 12) (Nat.add_right_cancel h)
       obtain ⟨h1, h2⟩ := Nat.pair_eq_pair.1 h'
       rw [h1, h2])

instance : Named Name := ⟨code, code_injective⟩

end Name

/-- The byte strings of a symbolic run. -/
abbrev Bytes := Term Name

/-- The DH identity of a device. -/
def dhIdentityOf (owner : ℕ) : DhIdentity Bytes := .generate (.name (.dhIdentity owner))

/-- The signing identity of a device or an account. -/
def identityOf (owner : ℕ) : Bytes := publicIdentity (.name (.identity owner))

/-- The signed prekey of a device. -/
def spkOf (owner : ℕ) : SignedPreKey Bytes :=
  .generate (.name (.identity owner)) (.name (.spkDh owner)) (.name (.spkKem owner))

/-- A one-time prekey of a device. -/
def opkOf (owner id : ℕ) : OneTimePreKey Bytes :=
  .generate id (.name (.opkDh owner id)) (.name (.opkKem owner id))

/-- A device's bundle, with one of its one-time prekeys or without. -/
def bundleOf (owner : ℕ) (opk : Option ℕ) : PreKeyBundle Bytes :=
  .build (identityOf owner) (dhIdentityOf owner) (spkOf owner) (opk.map fun id =>
    (opkOf owner id).public)

/-- The secrets behind a device's bundle, while the device has its one-time prekey. -/
theorem holds_bundleOf (owner : ℕ) {opks : OneTimePreKeyStore Bytes} {opk : Option ℕ}
    (hopk : ∀ id, opk = some id → id < 2 ^ 32 ∧ opks.peek id = .ok (opkOf owner id)) :
    Holds (dhIdentityOf owner) (spkOf owner) opks (bundleOf owner opk) where
  dhIdentity := rfl
  spkDh := rfl
  spkKem := rfl
  opk := by
    rintro prekey h
    obtain ⟨id, hid, rfl⟩ := Option.map_eq_some_iff.1 h
    obtain ⟨hlt, hpeek⟩ := hopk id hid
    exact ⟨hlt, opkOf owner id, hpeek, rfl, rfl⟩

/-- The randomness of the `k`-th session start. -/
def initiateCoins (k : ℕ) : InitiateCoins Bytes :=
  ⟨.name (.ephemeral k), .name (.kemRandom k), .name (.opkKemRandom k)⟩

end MultiDevice

end NovaChannel
