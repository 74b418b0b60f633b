import NovaChannel.Lib.Derives

/-!
# Two exchanges, one secret

`Policy.Safe` counts on encapsulated secrets alone.  Here a Diffie-Hellman secret counts as well: it
may be handed out only when one of its exponents may, so that a key mixed from several exchanges
stays secret as long as one of them does.

* `Policy.HybridSafe` : what may be handed to an adversary;
* `Policy.hybridSafe_of_derives` : what is derived from such terms is such a term;
* `Policy.leakPolicy` : every name is secret until it leaks;
* `Derives.dhShared_of_either`, `Derives.kemShared_of_either` : either secret of an exchange gives
  what is shared;
* `Policy.Opaque` : a policy under which a one-way value is as safe as its arguments
  (`Opaque.hybridSafe_fn`).
-/

namespace NovaChannel

open Term

namespace Policy

variable {ν : Type} (P : Policy ν)

/-- The term may be handed to an adversary. -/
def HybridSafe : Term ν → Prop
  | .name n => ¬ P.secret n
  | .lit _ => True
  | .num _ => True
  | .nil => True
  | .cons a b => HybridSafe a ∧ HybridSafe b
  | .fn .kemShared sk r => HybridSafe sk ∨ HybridSafe r
  | .fn .dhShared a b => HybridSafe a ∨ HybridSafe b
  | .fn f a b => f.isPublic = true ∨ P.exposed (.fn f a b) ∨ (HybridSafe a ∧ HybridSafe b)
  | .aead k _ _ m => HybridSafe k → HybridSafe m

variable {P}

theorem hybridSafe_fn {f : Fn} {a b : Term ν} (hkem : f ≠ .kemShared) (hdh : f ≠ .dhShared) :
    P.HybridSafe (.fn f a b) ↔
      f.isPublic = true ∨ P.exposed (.fn f a b) ∨ (P.HybridSafe a ∧ P.HybridSafe b) := by
  cases f <;> first | exact absurd rfl hkem | exact absurd rfl hdh | rfl

@[simp] theorem hybridSafe_name {n : ν} : P.HybridSafe (.name n) ↔ ¬ P.secret n := Iff.rfl

@[simp] theorem hybridSafe_kemShared {sk r : Term ν} :
    P.HybridSafe (.fn .kemShared sk r) ↔ P.HybridSafe sk ∨ P.HybridSafe r := Iff.rfl

@[simp] theorem hybridSafe_list {ts : List (Term ν)} :
    P.HybridSafe (list ts) ↔ ∀ t ∈ ts, P.HybridSafe t := by
  induction ts with
  | nil => simp [list, HybridSafe]
  | cons t ts ih => simp [list, HybridSafe, ih]

/-- The values of a public function give nothing away. -/
theorem hybridSafe_public {f : Fn} {a b : Term ν} (hf : f.isPublic = true) (hdh : f ≠ .dhShared) :
    P.HybridSafe (.fn f a b) :=
  (hybridSafe_fn (by rintro rfl; cases hf) hdh).2 (.inl hf)

theorem hybridSafe_fn_of_hybridSafe {f : Fn} {a b : Term ν} (ha : P.HybridSafe a)
    (hb : P.HybridSafe b) : P.HybridSafe (.fn f a b) := by
  by_cases hkem : f = .kemShared
  · subst hkem
    exact .inl ha
  · by_cases hdh : f = .dhShared
    · subst hdh
      exact .inl ha
    · exact (hybridSafe_fn hkem hdh).2 (.inr (.inr ⟨ha, hb⟩))

/-- A one-way value is unsafe when it is not handed out itself and one of its arguments is. -/
theorem not_hybridSafe_fn {f : Fn} {a b : Term ν} (hpub : f.isPublic = false) (hkem : f ≠ .kemShared)
    (hdh : f ≠ .dhShared) (hexposed : ¬ P.exposed (.fn f a b))
    (hab : ¬ P.HybridSafe a ∨ ¬ P.HybridSafe b) : ¬ P.HybridSafe (.fn f a b) := by
  rw [hybridSafe_fn hkem hdh, hpub]
  rintro (h | h | ⟨ha, hb⟩)
  · cases h
  · exact hexposed h
  · exact hab.elim (· ha) (· hb)

variable [Named ν]

/-- A Diffie-Hellman secret is safe when one of its exponents is. -/
@[simp] theorem hybridSafe_dhShared {a b : Term ν} :
    P.HybridSafe (dhShared a b) ↔ P.HybridSafe a ∨ P.HybridSafe b := by
  unfold dhShared
  split_ifs
  · exact Iff.rfl
  · exact or_comm

/-- **What is derived from safe terms is safe.** -/
theorem hybridSafe_of_derives {K : Set (Term ν)} (hK : ∀ t ∈ K, P.HybridSafe t) {t : Term ν}
    (h : Derives K t) : P.HybridSafe t := by
  induction h with
  | known h => exact hK _ h
  | lit s => trivial
  | num n => trivial
  | nil => trivial
  | cons _ _ iha ihb => exact ⟨iha, ihb⟩
  | head _ ih => exact ih.1
  | tail _ ih => exact ih.2
  | fn _ _ _ iha ihb => exact hybridSafe_fn_of_hybridSafe iha ihb
  | dh _ _ iha _ => exact hybridSafe_dhShared.2 (.inl iha)
  | kemCiphertext _ _ _ _ => exact hybridSafe_public rfl (by simp)
  | kemShared _ _ _ ihr => exact .inr ihr
  | decapsulate _ _ ihsk _ => exact .inl ihsk
  | aead _ _ _ _ _ _ _ ihm => exact fun _ => ihm
  | aeadOpen _ _ ihk ih => exact ih ihk

/-! ### Policies that hand out names only -/

/-- The policy hands out no one-way value whose arguments it does not hand out. -/
def Opaque (P : Policy ν) : Prop := ∀ t, ¬ P.exposed t

omit [Named ν] in
/-- A one-way value is as safe as its arguments. -/
theorem Opaque.hybridSafe_fn (hP : P.Opaque) {f : Fn} {a b : Term ν} (hpub : f.isPublic = false)
    (hkem : f ≠ .kemShared) (hdh : f ≠ .dhShared) :
    P.HybridSafe (.fn f a b) ↔ P.HybridSafe a ∧ P.HybridSafe b := by
  rw [Policy.hybridSafe_fn hkem hdh, hpub]
  exact ⟨fun h => (h.resolve_left (by simp)).resolve_left (hP _), fun h => .inr (.inr h)⟩

/-! ### Names that leaked -/

/-- Every name is secret until it leaks. -/
def leakPolicy (leaked : ν → Prop) : Policy ν where
  secret n := ¬ leaked n
  exposed _ := False

section Leaked

variable {leaked : ν → Prop}

omit [Named ν] in
theorem opaque_leakPolicy (leaked : ν → Prop) : (leakPolicy leaked).Opaque := fun _ h => h

omit [Named ν] in
@[simp] theorem hybridSafe_leaked {n : ν} :
    (leakPolicy leaked).HybridSafe (.name n) ↔ leaked n := not_not

theorem hybridSafe_dh {a b : ν} :
    (leakPolicy leaked).HybridSafe (dhShared (.name a) (.name b)) ↔ leaked a ∨ leaked b :=
  hybridSafe_dhShared.trans (or_congr hybridSafe_leaked hybridSafe_leaked)

omit [Named ν] in
theorem hybridSafe_kem {sk r : ν} :
    (leakPolicy leaked).HybridSafe (.fn .kemShared (.name sk) (.name r)) ↔ leaked sk ∨ leaked r :=
  hybridSafe_kemShared.trans (or_congr hybridSafe_leaked hybridSafe_leaked)

end Leaked

end Policy

namespace Derives

variable {ν : Type} [Named ν] {K : Set (Term ν)} {a b sk r : Term ν}

/-- Either secret of a Diffie-Hellman exchange gives what is shared. -/
theorem dhShared_of_either (h : Derives K a ∨ Derives K b) (ha : Derives K (dhPublic a))
    (hb : Derives K (dhPublic b)) : Derives K (dhShared a b) := by
  rcases h with h | h
  · exact .dh h hb
  · rw [dhShared_comm]
    exact .dh h ha

/-- Either secret of an encapsulation gives what is shared. -/
theorem kemShared_of_either (h : Derives K sk ∨ Derives K r) (hsk : Derives K (kemPublic sk))
    (hct : Derives K (.fn .kemCiphertext sk r)) : Derives K (.fn .kemShared sk r) := by
  rcases h with h | h
  · exact .decapsulate h hct
  · exact .kemShared hsk h

end Derives

end NovaChannel
