import NovaChannel.Lib.Term
import Mathlib.Data.Set.Basic

/-!
# What an adversary can derive

`Derives K t` : from the terms `K` an adversary that can compute every primitive, and that opens
whatever it holds the key of, obtains `t`.

Three ways to show that something is *not* derivable:

* `Policy.Safe` : names are secret or public, and a one-way value may be handed out although its
  arguments are secret.  What is derived from safe terms is safe (`Policy.safe_of_derives`);
* `Handed` : every ciphertext and every function value that can be read off the known terms is
  of a given kind.  What is derived is of that kind or was computed by the adversary
  (`handed_of_derives`);
* `Locked` : the function values of a kind are inside ciphertexts whose keys are not derivable
  (`locked_of_derives`).
-/

namespace NovaChannel

open Term

/-- The functions whose value is computed from their arguments. -/
def Fn.computable : Fn → Bool
  | .dhShared | .kemCiphertext | .kemShared => false
  | _ => true

/-- Derivability from the terms `K`. -/
inductive Derives {ν : Type} [Named ν] (K : Set (Term ν)) : Term ν → Prop
  | known {t : Term ν} (h : t ∈ K) : Derives K t
  | lit (s : String) : Derives K (.lit s)
  | num (n : ℕ) : Derives K (.num n)
  | nil : Derives K .nil
  | cons {a b : Term ν} (ha : Derives K a) (hb : Derives K b) : Derives K (.cons a b)
  | head {a b : Term ν} (h : Derives K (.cons a b)) : Derives K a
  | tail {a b : Term ν} (h : Derives K (.cons a b)) : Derives K b
  | fn {f : Fn} {a b : Term ν} (hf : f.computable = true) (ha : Derives K a) (hb : Derives K b) :
      Derives K (.fn f a b)
  | dh {a b : Term ν} (ha : Derives K a) (hb : Derives K (dhPublic b)) : Derives K (dhShared a b)
  | kemCiphertext {sk r : Term ν} (hsk : Derives K (kemPublic sk)) (hr : Derives K r) :
      Derives K (.fn .kemCiphertext sk r)
  | kemShared {sk r : Term ν} (hsk : Derives K (kemPublic sk)) (hr : Derives K r) :
      Derives K (.fn .kemShared sk r)
  | decapsulate {sk r : Term ν} (hsk : Derives K sk) (hct : Derives K (.fn .kemCiphertext sk r)) :
      Derives K (.fn .kemShared sk r)
  | aead {k n a m : Term ν} (hk : Derives K k) (hn : Derives K n) (ha : Derives K a)
      (hm : Derives K m) : Derives K (.aead k n a m)
  | aeadOpen {k n a m : Term ν} (hk : Derives K k) (h : Derives K (.aead k n a m)) : Derives K m

namespace Derives

variable {ν : Type} [Named ν] {K K' : Set (Term ν)} {t : Term ν}

/-- What is derived from derivable terms is derivable. -/
theorem trans (hK : ∀ t ∈ K, Derives K' t) (h : Derives K t) : Derives K' t := by
  induction h with
  | known h => exact hK _ h
  | lit s => exact .lit s
  | num n => exact .num n
  | nil => exact .nil
  | cons _ _ iha ihb => exact .cons iha ihb
  | head _ ih => exact .head ih
  | tail _ ih => exact .tail ih
  | fn hf _ _ iha ihb => exact .fn hf iha ihb
  | dh _ _ iha ihb => exact .dh iha ihb
  | kemCiphertext _ _ ihsk ihr => exact .kemCiphertext ihsk ihr
  | kemShared _ _ ihsk ihr => exact .kemShared ihsk ihr
  | decapsulate _ _ ihsk ihct => exact .decapsulate ihsk ihct
  | aead _ _ _ _ ihk ihn iha ihm => exact .aead ihk ihn iha ihm
  | aeadOpen _ _ ihk ih => exact .aeadOpen ihk ih

theorem mono (hK : K ⊆ K') (h : Derives K t) : Derives K' t :=
  h.trans fun _ ht => .known (hK ht)

/-- The fields of a derivable message are derivable. -/
theorem of_list {ts : List (Term ν)} (h : Derives K (list ts)) (ht : t ∈ ts) : Derives K t := by
  induction ts with
  | nil => cases ht
  | cons s ts ih =>
    rcases List.mem_cons.1 ht with rfl | ht
    · exact .head h
    · exact ih (.tail h) ht

/-- A message of derivable fields is derivable. -/
theorem list {ts : List (Term ν)} (h : ∀ t ∈ ts, Derives K t) : Derives K (list ts) := by
  induction ts with
  | nil => exact .nil
  | cons s ts ih =>
    exact .cons (h s List.mem_cons_self) (ih fun t ht => h t (List.mem_cons_of_mem _ ht))

end Derives

/-! ### Secrecy -/

/-- What is secret: the secret names, and the function values that may be handed out although
their arguments may not. -/
structure Policy (ν : Type) where
  secret : ν → Prop
  exposed : Term ν → Prop

/-- The functions whose values give nothing away. -/
def Fn.isPublic : Fn → Bool
  | .dhPublic | .dhShared | .dhOther | .kemPublic | .kemCiphertext | .kemOtherCiphertext
  | .identity | .signature => true
  | _ => false

namespace Policy

variable {ν : Type} (P : Policy ν)

/-- The term may be handed to an adversary.  A Diffie-Hellman secret always may: nothing rests on
it alone. -/
def Safe : Term ν → Prop
  | .name n => ¬ P.secret n
  | .lit _ => True
  | .num _ => True
  | .nil => True
  | .cons a b => Safe a ∧ Safe b
  | .fn .kemShared sk r => P.exposed (.fn .kemShared sk r) ∨ Safe sk ∨ Safe r
  | .fn f a b => f.isPublic = true ∨ P.exposed (.fn f a b) ∨ (Safe a ∧ Safe b)
  | .aead k _ _ m => Safe k → Safe m

variable {P}

theorem safe_fn {f : Fn} {a b : Term ν} (hf : f ≠ .kemShared) :
    P.Safe (.fn f a b) ↔ f.isPublic = true ∨ P.exposed (.fn f a b) ∨ (P.Safe a ∧ P.Safe b) := by
  cases f <;> first | exact absurd rfl hf | rfl

theorem safe_kemShared {sk r : Term ν} : P.Safe (.fn .kemShared sk r) ↔
    P.exposed (.fn .kemShared sk r) ∨ P.Safe sk ∨ P.Safe r := Iff.rfl

@[simp] theorem safe_list {ts : List (Term ν)} : P.Safe (list ts) ↔ ∀ t ∈ ts, P.Safe t := by
  induction ts with
  | nil => simp [list, Safe]
  | cons t ts ih => simp [list, Safe, ih]

theorem safe_fn_of_safe {f : Fn} {a b : Term ν} (ha : P.Safe a) (hb : P.Safe b) :
    P.Safe (.fn f a b) := by
  by_cases hf : f = .kemShared
  · subst hf
    exact .inr (.inl ha)
  · exact (safe_fn hf).2 (.inr (.inr ⟨ha, hb⟩))

variable [Named ν]

theorem safe_dhShared {a b : Term ν} : P.Safe (dhShared a b) := by
  unfold dhShared
  split_ifs
  · exact .inl rfl
  · exact .inl rfl

/-- **What is derived from safe terms is safe.** -/
theorem safe_of_derives {K : Set (Term ν)} (hK : ∀ t ∈ K, P.Safe t) {t : Term ν}
    (h : Derives K t) : P.Safe t := by
  induction h with
  | known h => exact hK _ h
  | lit s => trivial
  | num n => trivial
  | nil => trivial
  | cons _ _ iha ihb => exact ⟨iha, ihb⟩
  | head _ ih => exact ih.1
  | tail _ ih => exact ih.2
  | fn _ _ _ iha ihb => exact safe_fn_of_safe iha ihb
  | dh _ _ _ _ => exact safe_dhShared
  | kemCiphertext _ _ _ _ => exact .inl rfl
  | kemShared _ _ _ ihr => exact .inr (.inr ihr)
  | decapsulate _ _ ihsk _ => exact .inr (.inl ihsk)
  | aead _ _ _ _ _ _ _ ihm => exact fun _ => ihm
  | aeadOpen _ _ ihk ih => exact ih ihk

/-- An unsafe term is not derived from safe ones. -/
theorem not_derives {K : Set (Term ν)} (hK : ∀ t ∈ K, P.Safe t) {t : Term ν} (ht : ¬ P.Safe t) :
    ¬ Derives K t := fun h => ht (safe_of_derives hK h)

end Policy

/-! ### Origin -/

section Origin

variable {ν : Type}

/-- Every ciphertext and every function value that can be read off a term, opening ciphertexts
on the way, is of a given kind. -/
def Handed (A : Term ν → Term ν → Term ν → Term ν → Prop) (H : Fn → Term ν → Term ν → Prop) :
    Term ν → Prop
  | .name _ => True
  | .lit _ => True
  | .num _ => True
  | .nil => True
  | .cons a b => Handed A H a ∧ Handed A H b
  | .fn f a b => H f a b
  | .aead k n a m => A k n a m ∧ Handed A H m

variable {A : Term ν → Term ν → Term ν → Term ν → Prop} {H : Fn → Term ν → Term ν → Prop}

@[simp] theorem handed_list {ts : List (Term ν)} :
    Handed A H (list ts) ↔ ∀ t ∈ ts, Handed A H t := by
  induction ts with
  | nil => simp [list, Handed]
  | cons t ts ih => simp [list, Handed, ih]

theorem Handed.mono {A' : Term ν → Term ν → Term ν → Term ν → Prop}
    {H' : Fn → Term ν → Term ν → Prop} (hA : ∀ k n a m, A k n a m → A' k n a m)
    (hH : ∀ f a b, H f a b → H' f a b) {t : Term ν} (h : Handed A H t) : Handed A' H' t := by
  induction t with
  | name n => trivial
  | lit s => trivial
  | num n => trivial
  | nil => trivial
  | cons a b iha ihb => exact ⟨iha h.1, ihb h.2⟩
  | fn f a b _ _ => exact hH _ _ _ h
  | aead k n a m _ _ _ ihm => exact ⟨hA _ _ _ _ h.1, ihm h.2⟩

variable [Named ν]

/-- The adversary can compute the function value itself. -/
def Made (K : Set (Term ν)) (f : Fn) (a b : Term ν) : Prop :=
  f.computable = true → Derives K a ∧ Derives K b

/-- **Whatever is derived was handed out or computed.** -/
theorem handed_of_derives {K : Set (Term ν)} (hK : ∀ t ∈ K, Handed A H t) {t : Term ν}
    (h : Derives K t) :
    Handed (fun k n a m => Derives K k ∨ A k n a m) (fun f a b => Made K f a b ∨ H f a b) t := by
  have weaken : ∀ s, Handed A H s →
      Handed (fun k n a m => Derives K k ∨ A k n a m) (fun f a b => Made K f a b ∨ H f a b) s :=
    fun s => Handed.mono (fun _ _ _ _ => .inr) fun _ _ _ => .inr
  have made : ∀ {f : Fn} {a b : Term ν}, f.computable = false →
      Handed (fun k n a m => Derives K k ∨ A k n a m) (fun f a b => Made K f a b ∨ H f a b)
        (.fn f a b) := fun hf => .inl fun hc => by rw [hf] at hc; cases hc
  induction h with
  | known h => exact weaken _ (hK _ h)
  | lit s => trivial
  | num n => trivial
  | nil => trivial
  | cons _ _ iha ihb => exact ⟨iha, ihb⟩
  | head _ ih => exact ih.1
  | tail _ ih => exact ih.2
  | fn _ ha hb _ _ => exact .inl fun _ => ⟨ha, hb⟩
  | dh _ _ _ _ =>
    unfold dhShared
    split_ifs
    · exact made rfl
    · exact made rfl
  | kemCiphertext _ _ _ _ => exact made rfl
  | kemShared _ _ _ _ => exact made rfl
  | decapsulate _ _ _ _ => exact made rfl
  | aead hk _ _ _ _ _ _ ihm => exact ⟨.inl hk, ihm⟩
  | aeadOpen _ _ _ ih => exact ih.2

/-- A derivable value of a function that was never handed out was computed. -/
theorem made_of_derives {K : Set (Term ν)} (hK : ∀ t ∈ K, Handed A H t) {f : Fn} {a b : Term ν}
    (hf : f.computable = true) (hH : ¬ H f a b) (h : Derives K (.fn f a b)) :
    Derives K a ∧ Derives K b := by
  rcases handed_of_derives hK h with h | h
  · exact h hf
  · exact absurd h hH

/-- A derivable ciphertext was handed out, or made with the key. -/
theorem derives_key_or_handed {K : Set (Term ν)} (hK : ∀ t ∈ K, Handed A H t)
    {k n a m : Term ν} (h : Derives K (.aead k n a m)) : Derives K k ∨ A k n a m :=
  (handed_of_derives hK h).1

end Origin

/-! ### Under lock -/

section Lock

variable {ν : Type}

/-- Every function value of the kind `W` that can be read off a term is inside a ciphertext whose
key is locked. -/
def Locked (lock : Term ν → Prop) (W : Fn → Term ν → Term ν → Prop) : Term ν → Prop
  | .name _ => True
  | .lit _ => True
  | .num _ => True
  | .nil => True
  | .cons a b => Locked lock W a ∧ Locked lock W b
  | .fn f a b => ¬ W f a b
  | .aead k _ _ m => lock k ∨ Locked lock W m

variable {lock : Term ν → Prop} {W : Fn → Term ν → Term ν → Prop}

@[simp] theorem locked_list {ts : List (Term ν)} :
    Locked lock W (list ts) ↔ ∀ t ∈ ts, Locked lock W t := by
  induction ts with
  | nil => simp [list, Locked]
  | cons t ts ih => simp [list, Locked, ih]

variable [Named ν]

/-- **What is under lock stays there**, as long as no locked key is derived and no value of the
kind can be computed. -/
theorem locked_of_derives {K : Set (Term ν)} (hK : ∀ t ∈ K, Locked lock W t)
    (hlock : ∀ k, lock k → ¬ Derives K k)
    (hW : ∀ f a b, W f a b → f.computable = true ∧ ¬ (Derives K a ∧ Derives K b)) {t : Term ν}
    (h : Derives K t) : Locked lock W t := by
  have hnot : ∀ {f : Fn} {a b : Term ν}, f.computable = false → Locked lock W (.fn f a b) := by
    intro f a b hf hw
    rw [(hW f a b hw).1] at hf
    cases hf
  induction h with
  | known h => exact hK _ h
  | lit s => trivial
  | num n => trivial
  | nil => trivial
  | cons _ _ iha ihb => exact ⟨iha, ihb⟩
  | head _ ih => exact ih.1
  | tail _ ih => exact ih.2
  | fn _ ha hb _ _ => exact fun hw => (hW _ _ _ hw).2 ⟨ha, hb⟩
  | dh _ _ _ _ =>
    unfold dhShared
    split_ifs
    · exact hnot rfl
    · exact hnot rfl
  | kemCiphertext _ _ _ _ => exact hnot rfl
  | kemShared _ _ _ _ => exact hnot rfl
  | decapsulate _ _ _ _ => exact hnot rfl
  | aead _ _ _ _ _ _ _ ihm => exact .inr ihm
  | aeadOpen hk _ _ ih => exact ih.resolve_left fun hl => hlock _ hl hk

end Lock

end NovaChannel
