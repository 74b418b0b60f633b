import Mathlib.Data.Nat.Notation
import Mathlib.Data.Nat.Pairing
import Mathlib.Tactic.SplitIfs

/-!
# Symbolic byte strings

A free term algebra for cryptographic protocols: fresh values are names, the primitives are
free function symbols, and the only equations are those the primitives are used for (opening
inverts sealing, both sides of a Diffie-Hellman exchange reach the same secret, decapsulation
finds what encapsulation chose, a signature verifies).

* `Term ν` : terms over the names `ν`, with decidable equality;
* `Term.le` : a total order on terms (`le_total`, `eq_of_le_of_le`), used to write a shared
  Diffie-Hellman secret in one way whichever side computes it (`dhShared_comm`);
* the operations on terms compute their normal forms;
* `Spine r t` : `r` is a first argument of a first argument … of `t`.
-/

namespace NovaChannel

/-- The primitive functions.  A unary one is applied to `Term.nil` as its second argument. -/
inductive Fn
  | hash
  | extract
  | expand (length : ℕ)
  | mac
  | slice (i j : ℕ)
  | dhPublic
  /-- The secret shared by two key pairs. -/
  | dhShared
  /-- An exchange with something that is no public key. -/
  | dhOther
  | kemPublic
  /-- The ciphertext for a secret key under some randomness. -/
  | kemCiphertext
  /-- The secret shared by it. -/
  | kemShared
  /-- Encapsulating to something that is no public key. -/
  | kemOtherCiphertext
  | kemOtherShared
  /-- Decapsulating what was not made for the key. -/
  | kemReject
  | identity
  | signature
  deriving DecidableEq

/-- A type of names that can be told apart by a number. -/
class Named (ν : Type) where
  code : ν → ℕ
  code_injective : Function.Injective code

/-- Symbolic byte strings over the names `ν`. -/
inductive Term (ν : Type)
  | name (n : ν)
  | lit (s : String)
  | num (n : ℕ)
  | nil
  | cons (a b : Term ν)
  | fn (f : Fn) (a b : Term ν)
  /-- Sealed under a key and a nonce, with associated data and a message. -/
  | aead (k n a m : Term ν)
  deriving DecidableEq

namespace Term

variable {ν : Type}

/-! ### A total order -/

section Order

/-- A function symbol as three numbers. -/
def fnCode : Fn → List ℕ
  | .hash => [0, 0, 0]
  | .extract => [1, 0, 0]
  | .expand n => [2, n, 0]
  | .mac => [3, 0, 0]
  | .slice i j => [4, i, j]
  | .dhPublic => [5, 0, 0]
  | .dhShared => [6, 0, 0]
  | .dhOther => [7, 0, 0]
  | .kemPublic => [8, 0, 0]
  | .kemCiphertext => [9, 0, 0]
  | .kemShared => [10, 0, 0]
  | .kemOtherCiphertext => [11, 0, 0]
  | .kemOtherShared => [12, 0, 0]
  | .kemReject => [13, 0, 0]
  | .identity => [14, 0, 0]
  | .signature => [15, 0, 0]

theorem fnCode_injective : Function.Injective fnCode := by
  intro f g h
  cases f <;> cases g <;> simp_all [fnCode]

theorem length_fnCode (f : Fn) : (fnCode f).length = 3 := by cases f <;> rfl

variable [Named ν]

/-- A term as a list of numbers, no one of which is a proper beginning of another. -/
def code : Term ν → List ℕ
  | name n => [0, Named.code n]
  | lit s => 1 :: s.toList.length :: s.toList.map Char.toNat
  | num n => [2, n]
  | nil => [3]
  | cons a b => 4 :: (code a ++ code b)
  | fn f a b => 5 :: (fnCode f ++ (code a ++ code b))
  | aead k n a m => 6 :: (code k ++ (code n ++ (code a ++ code m)))

theorem toNat_injective : Function.Injective Char.toNat := fun _ _ h => Char.toNat_inj.1 h

/-- The code of a term determines it, whatever follows. -/
theorem eq_of_code_append : ∀ {s t : Term ν} {x y : List ℕ},
    code s ++ x = code t ++ y → s = t ∧ x = y := by
  intro s
  induction s with
  | name n =>
    intro t x y h
    cases t <;> simp [code] at h
    exact ⟨congrArg name (Named.code_injective h.1), h.2⟩
  | lit s =>
    intro t x y h
    cases t <;> simp [code] at h
    obtain ⟨hlen, h⟩ := h
    obtain ⟨h1, h2⟩ := List.append_inj h (by simpa using hlen)
    rw [List.map_inj_right fun _ _ => toNat_injective.eq_iff.1] at h1
    exact ⟨congrArg lit (String.toList_inj.1 h1), h2⟩
  | num n =>
    intro t x y h
    cases t <;> simp [code] at h
    exact ⟨congrArg num h.1, h.2⟩
  | nil =>
    intro t x y h
    cases t <;> simp [code] at h
    exact ⟨rfl, h⟩
  | cons a b iha ihb =>
    intro t x y h
    cases t <;> simp [code] at h
    obtain ⟨ha, h1⟩ := iha h
    obtain ⟨hb, h2⟩ := ihb h1
    exact ⟨by rw [ha, hb], h2⟩
  | fn f a b iha ihb =>
    intro t x y h
    cases t <;> simp [code] at h
    obtain ⟨hf, h⟩ := List.append_inj h (by rw [length_fnCode, length_fnCode])
    obtain ⟨ha, h1⟩ := iha h
    obtain ⟨hb, h2⟩ := ihb h1
    exact ⟨by rw [fnCode_injective hf, ha, hb], h2⟩
  | aead k n a m ihk ihn iha ihm =>
    intro t x y h
    cases t <;> simp [code] at h
    obtain ⟨hk, h1⟩ := ihk h
    obtain ⟨hn, h2⟩ := ihn h1
    obtain ⟨ha, h3⟩ := iha h2
    obtain ⟨hm, h4⟩ := ihm h3
    exact ⟨by rw [hk, hn, ha, hm], h4⟩

theorem code_injective : Function.Injective (code (ν := ν)) := fun s t h =>
  (eq_of_code_append (x := []) (y := []) (by rw [h])).1

/-- The lexicographic order on lists of numbers. -/
def lexLe : List ℕ → List ℕ → Bool
  | [], _ => true
  | _ :: _, [] => false
  | a :: as, b :: bs => decide (a < b) || (decide (a = b) && lexLe as bs)

theorem lexLe_total (l k : List ℕ) : lexLe l k = true ∨ lexLe k l = true := by
  induction l generalizing k with
  | nil => exact .inl rfl
  | cons a l ih =>
    cases k with
    | nil => exact .inr rfl
    | cons b k =>
      simp only [lexLe, Bool.or_eq_true, decide_eq_true_eq, Bool.and_eq_true]
      rcases Nat.lt_trichotomy a b with h | rfl | h
      · exact .inl (.inl h)
      · exact (ih k).imp (fun h => .inr ⟨rfl, h⟩) fun h => .inr ⟨rfl, h⟩
      · exact .inr (.inl h)

theorem eq_of_lexLe {l k : List ℕ} (h : lexLe l k = true) (h' : lexLe k l = true) : l = k := by
  induction l generalizing k with
  | nil =>
    cases k with
    | nil => rfl
    | cons b k => cases h'
  | cons a l ih =>
    cases k with
    | nil => cases h
    | cons b k =>
      simp only [lexLe, Bool.or_eq_true, decide_eq_true_eq, Bool.and_eq_true] at h h'
      rcases h with h | ⟨rfl, h⟩
      · rcases h' with h' | ⟨rfl, -⟩ <;> omega
      · rcases h' with h' | ⟨-, h'⟩
        · omega
        · rw [ih h h']

/-- A total order on terms. -/
def le (s t : Term ν) : Bool := lexLe (code s) (code t)

theorem le_total (s t : Term ν) : le s t = true ∨ le t s = true := lexLe_total _ _

theorem eq_of_le_of_le {s t : Term ν} (h : le s t = true) (h' : le t s = true) : s = t :=
  code_injective (eq_of_lexLe h h')

end Order

/-! ### Operations -/

/-- The secret two key pairs share, in one way for both sides. -/
def dhShared [Named ν] (a b : Term ν) : Term ν :=
  if le a b then fn .dhShared a b else fn .dhShared b a

theorem dhShared_comm [Named ν] (a b : Term ν) : dhShared a b = dhShared b a := by
  unfold dhShared
  split_ifs with h h' h'
  · rw [eq_of_le_of_le h h']
  · rfl
  · rfl
  · exact ((le_total a b).elim h h').elim

/-- The public key of a secret key. -/
def dhPublic (a : Term ν) : Term ν := fn .dhPublic a nil

/-- A Diffie-Hellman exchange. -/
def dh [Named ν] (a : Term ν) : Term ν → Term ν
  | fn .dhPublic b nil => dhShared a b
  | t => fn .dhOther a t

@[simp] theorem dh_dhPublic [Named ν] (a b : Term ν) : dh a (dhPublic b) = dhShared a b := rfl

/-- The encapsulation key of a decapsulation key. -/
def kemPublic (sk : Term ν) : Term ν := fn .kemPublic sk nil

/-- Encapsulation: ciphertext and shared secret. -/
def encapsulate (r : Term ν) : Term ν → Term ν × Term ν
  | fn .kemPublic sk nil => (fn .kemCiphertext sk r, fn .kemShared sk r)
  | t => (fn .kemOtherCiphertext t r, fn .kemOtherShared t r)

@[simp] theorem encapsulate_kemPublic (sk r : Term ν) :
    encapsulate r (kemPublic sk) = (fn .kemCiphertext sk r, fn .kemShared sk r) := rfl

/-- The fields of a message. -/
def list : List (Term ν) → Term ν
  | [] => nil
  | t :: ts => cons t (list ts)

/-- Reading the fields back. -/
def unlist : Term ν → Option (List (Term ν))
  | nil => some []
  | cons a b => (unlist b).map (a :: ·)
  | _ => none

@[simp] theorem unlist_list (ts : List (Term ν)) : unlist (list ts) = some ts := by
  induction ts with
  | nil => rfl
  | cons t ts ih => simp [list, unlist, ih]

theorem eq_list_of_unlist {t : Term ν} {ts : List (Term ν)} (h : unlist t = some ts) :
    t = list ts := by
  induction t generalizing ts with
  | nil => cases h; rfl
  | cons a b _ ihb =>
    obtain ⟨us, hus, rfl⟩ := Option.map_eq_some_iff.1 h
    rw [ihb hus, list]
  | _ => cases h

theorem list_injective : Function.Injective (list (ν := ν)) := fun s t h =>
  Option.some.inj (by rw [← unlist_list s, h, unlist_list])

@[simp] theorem list_inj {s t : List (Term ν)} : list s = list t ↔ s = t :=
  list_injective.eq_iff

/-- Reading a number back. -/
def unnum : Term ν → Option ℕ
  | num n => some n
  | _ => none

theorem eq_num_of_unnum {t : Term ν} {n : ℕ} (h : unnum t = some n) : t = num n := by
  cases t <;> cases h
  rfl

/-- The terms that stand for exactly 32 bytes. -/
def len32 : Term ν → Bool
  | name _ => true
  | fn .hash _ _ => true
  | fn .extract _ _ => true
  | fn (.expand n) _ _ => decide (n = 32)
  | fn .mac _ _ => true
  | _ => false

/-! ### First arguments -/

/-- The term is reached through first arguments of functions: a key is on the spine of the keys
derived from it. -/
inductive Spine (r : Term ν) : Term ν → Prop
  | refl : Spine r r
  | fn {f : Fn} {a b : Term ν} (h : Spine r a) : Spine r (fn f a b)

/-- Of two terms on one spine, one is on the spine of the other. -/
theorem Spine.comparable {r r' t : Term ν} (h : Spine r t) (h' : Spine r' t) :
    Spine r r' ∨ Spine r' r := by
  induction h with
  | refl => exact .inr h'
  | fn h ih =>
    cases h' with
    | refl => exact .inl (.fn h)
    | fn h' => exact ih h'

section Decidable

variable [DecidableEq ν]

/-- Decapsulation. -/
def decapsulate (sk : Term ν) : Term ν → Term ν
  | fn .kemCiphertext sk' r =>
    if sk' = sk then fn .kemShared sk r else fn .kemReject sk (fn .kemCiphertext sk' r)
  | t => fn .kemReject sk t

/-- Opening a sealed message. -/
def aeadOpen (k n a : Term ν) : Term ν → Option (Term ν)
  | aead k' n' a' m => if k' = k ∧ n' = n ∧ a' = a then some m else none
  | _ => none

theorem aeadOpen_eq_some {k n a c m : Term ν} : aeadOpen k n a c = some m ↔ c = aead k n a m := by
  constructor
  · intro h
    unfold aeadOpen at h
    split at h
    · split_ifs at h with hk
      obtain ⟨rfl, rfl, rfl⟩ := hk
      obtain rfl := Option.some.inj h
      rfl
    · cases h
  · rintro rfl
    simp [aeadOpen]

/-- Verifying a signature under a public identity. -/
def verify (pk m s : Term ν) : Bool :=
  match pk with
  | fn .identity sk nil => decide (s = fn .signature sk m)
  | _ => false

end Decidable

end Term

end NovaChannel
