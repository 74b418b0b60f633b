import NovaChannel.Crypto
import NovaChannel.Lib.Derives

/-!
# The symbolic model of the primitives

Terms over any names are byte strings with correct primitives: the operations of `Crypto` are
the term operations, and `LawfulCrypto` holds by the equations of the term algebra.
-/

namespace NovaChannel

open Term

variable {ν : Type} [Named ν] [DecidableEq ν]

instance : Crypto (Term ν) where
  lit := .lit
  num := .num
  unnum := unnum
  frame := list
  unframe := unlist
  len32 := len32
  slice i j t := .fn (.slice i j) t .nil
  x25519Public := dhPublic
  diffieHellman := dh
  wasContributory _ := true
  mlKemPublic := kemPublic
  encapsulate pk r := encapsulate r pk
  decapsulate := decapsulate
  hkdfExtract salt ikm := .fn .extract (salt.getD .nil) ikm
  hkdfExpand len prk info := .fn (.expand len) prk info
  hmac key m := .fn .mac key m
  sha256 m := .fn .hash m .nil
  aeadEncrypt := .aead
  aeadDecrypt := aeadOpen
  publicIdentity sk := .fn .identity sk .nil
  sign sk m := .fn .signature sk m
  verify := verify

instance : LawfulCrypto (Term ν) where
  unnum_num _ := rfl
  unframe_frame := unlist_list
  len32_hkdfExpand _ _ := rfl
  diffieHellman_comm := dhShared_comm
  decapsulate_encapsulate sk r := by
    show decapsulate sk (fn .kemCiphertext sk r) = fn .kemShared sk r
    simp only [decapsulate, ↓reduceIte]
  aeadDecrypt_aeadEncrypt _ _ _ _ := aeadOpen_eq_some.2 rfl
  eq_of_aeadDecrypt h := (aead.inj (aeadOpen_eq_some.1 h)).2.2.2.symm
  verify_sign _ _ := by
    show verify (fn .identity _ nil) _ (fn .signature _ _) = true
    simp [verify]

end NovaChannel
