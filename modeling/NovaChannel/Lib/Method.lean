import Mathlib.Data.Nat.Notation

/-!
# Methods that change their receiver

A `Method σ ε α` is a call on a mutable receiver of type `σ`: it returns a value or fails, and
either way leaves a receiver behind.  Code with an early exit between two assignments leaves it
half changed.

* `Ends err m s o` : on `s` the method ends as `o` says; where it fails with an error that `err`
  counts as returned to the caller, the receiver is as it was;
* `Atomic err m s` : only the second half.

The rules follow the shape of such code: it reads the receiver and computes, then assigns.
-/

namespace NovaChannel

/-- A call on a mutable receiver: what it returns, and what it leaves behind. -/
abbrev Method (σ ε α : Type) := ExceptT ε (StateM σ) α

namespace Method

variable {σ ε α γ : Type} {err : ε → Prop} {s : σ}

/-- The call on one receiver. -/
def call (m : Method σ ε α) (s : σ) : Except ε α × σ := StateT.run (ExceptT.run m) s

/-- A computation that leaves the receiver alone. -/
def compute (x : Except ε α) : Method σ ε α := ExceptT.mk (pure x)

@[simp] theorem call_pure (a : α) : (pure a : Method σ ε α).call s = (.ok a, s) := rfl

@[simp] theorem call_throw (e : ε) : (throw e : Method σ ε α).call s = (.error e, s) := rfl

@[simp] theorem call_compute (x : Except ε α) : (compute x : Method σ ε α).call s = (x, s) := rfl

@[simp] theorem call_modify (f : σ → σ) :
    (modify f : Method σ ε PUnit).call s = (.ok ⟨⟩, f s) := rfl

@[simp] theorem call_get : (get : Method σ ε σ).call s = (.ok s, s) := rfl

theorem call_bind (m : Method σ ε α) (f : α → Method σ ε γ) :
    (m >>= f).call s = match m.call s with
      | (.ok a, s') => (f a).call s'
      | (.error e, s') => (.error e, s') := by
  simp only [call, ExceptT.run_bind, StateT.run_bind]
  cases h : StateT.run (ExceptT.run m) s with
  | mk x s' => cases x <;> rfl

theorem call_bind_ok {m : Method σ ε α} {a : α} {s' : σ} (h : m.call s = (.ok a, s'))
    (f : α → Method σ ε γ) : (m >>= f).call s = (f a).call s' := by
  rw [call_bind, h]

theorem call_bind_error {m : Method σ ε α} {e : ε} {s' : σ} (h : m.call s = (.error e, s'))
    (f : α → Method σ ε γ) : (m >>= f).call s = (.error e, s') := by
  rw [call_bind, h]

/-- On `s` the method ends as `o` says; an error returned to the caller leaves `s` as it was. -/
def Ends (err : ε → Prop) (m : Method σ ε α) (s : σ) (o : Except ε (σ × α)) : Prop :=
  match o with
  | .ok (s', a) => m.call s = (.ok a, s')
  | .error e => (m.call s).1 = .error e ∧ (err e → (m.call s).2 = s)

/-- An error returned to the caller leaves the receiver as it was. -/
def Atomic (err : ε → Prop) (m : Method σ ε α) (s : σ) : Prop :=
  ∀ e s', m.call s = (.error e, s') → err e → s' = s

namespace Ends

theorem ok {m : Method σ ε α} {a : α} {s' : σ} (h : m.call s = (.ok a, s')) :
    Ends err m s (.ok (s', a)) := h

theorem throw (e : ε) : Ends err (MonadExcept.throw e : Method σ ε α) s (.error e) :=
  ⟨rfl, fun _ => rfl⟩

theorem read {f : σ → Method σ ε α} {o : Except ε (σ × α)} (h : Ends err (f s) s o) :
    Ends err ((get : Method σ ε σ) >>= f) s o := h

/-- A computation before anything is assigned. -/
theorem compute_bind {x : Except ε γ} {f : γ → Method σ ε α} {o : γ → Except ε (σ × α)}
    (h : ∀ c, x = .ok c → Ends err (f c) s (o c)) : Ends err (compute x >>= f) s (x >>= o) := by
  cases x with
  | error e => exact ⟨rfl, fun _ => rfl⟩
  | ok c => exact h c rfl

/-- The same before a call that goes on with the outcome. -/
theorem compute_bind_bind {δ : Type} {x : Except ε γ} {f : γ → Method σ ε α}
    {o : γ → Except ε δ} {k : δ → Except ε (σ × α)}
    (h : ∀ c, x = .ok c → Ends err (f c) s (o c >>= k)) :
    Ends err (compute x >>= f) s ((x >>= o) >>= k) := by
  cases x with
  | error e => exact ⟨rfl, fun _ => rfl⟩
  | ok c => exact h c rfl

/-- What comes after the assignments may not fail any more. -/
theorem bind {δ : Type} {m : Method σ ε γ} {f : γ → Method σ ε α} {x : Except ε δ}
    {g : δ → σ × γ} {k : δ → σ × α} (h : Ends err m s (x >>= fun d => .ok (g d)))
    (hf : ∀ d, x = .ok d → (f (g d).2).call (g d).1 = (.ok (k d).2, (k d).1)) :
    Ends err (m >>= f) s (x >>= fun d => .ok (k d)) := by
  cases x with
  | error e =>
    obtain ⟨he, hs⟩ := h
    have hcall : m.call s = (.error e, (m.call s).2) := Prod.ext he rfl
    exact ⟨by rw [call_bind_error hcall], fun herr => by rw [call_bind_error hcall]; exact hs herr⟩
  | ok d => exact (call_bind_ok h f).trans (hf d rfl)

theorem atomic {m : Method σ ε α} {o : Except ε (σ × α)} (h : Ends err m s o) :
    Atomic err m s := by
  intro e s' hcall herr
  cases o with
  | error e' =>
    obtain ⟨he, hs⟩ := h
    rw [hcall] at he hs
    exact hs (Except.error.inj he ▸ herr)
  | ok p => cases hcall.symm.trans h

end Ends

namespace Atomic

theorem read {f : σ → Method σ ε α} (h : Atomic err (f s) s) :
    Atomic err ((get : Method σ ε σ) >>= f) s := h

theorem throw (e : ε) : Atomic err (MonadExcept.throw e : Method σ ε α) s :=
  fun _ _ h _ => (Prod.mk.inj h).2.symm

theorem compute_bind {x : Except ε γ} {f : γ → Method σ ε α}
    (h : ∀ c, x = .ok c → Atomic err (f c) s) : Atomic err (compute x >>= f) s := by
  cases x with
  | error e => exact fun _ _ hcall _ => (Prod.mk.inj hcall).2.symm
  | ok c => exact h c rfl

/-- What comes after the assignments may not fail any more. -/
theorem bind {m : Method σ ε γ} {f : γ → Method σ ε α} (h : Atomic err m s)
    (hf : ∀ c s', ∃ p : α × σ, (f c).call s' = (.ok p.1, p.2)) : Atomic err (m >>= f) s := by
  intro e s' hcall herr
  rcases hm : m.call s with ⟨_ | c, s₁⟩
  · rename_i e₁
    obtain ⟨he, rfl⟩ := Prod.mk.inj ((call_bind_error hm f).symm.trans hcall)
    exact h e₁ s₁ hm (Except.error.inj he ▸ herr)
  · obtain ⟨p, hp⟩ := hf c s₁
    cases hcall.symm.trans ((call_bind_ok hm f).trans hp)

end Atomic

end Method

end NovaChannel
