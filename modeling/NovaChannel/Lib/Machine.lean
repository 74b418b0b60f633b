import Mathlib.Data.Nat.Notation

/-!
# Transition systems with executable steps

A `Machine` has states, actions and a partial step function.  `Reachable ok s` says that some
run in which every action is allowed by `ok` leads to `s`; an inductive invariant holds of every
such state (`Reachable.invariant`), and a list of actions that can be run is a run
(`Reachable.of_run`).
-/

namespace NovaChannel

/-- A transition system: where runs start, and what an action does. -/
structure Machine (σ α : Type) where
  /-- The states a run may start from. -/
  init : σ → Prop
  /-- The state after an action, `none` when the action is not possible. -/
  step : σ → α → Option σ

namespace Machine

variable {σ α : Type} (M : Machine σ α)

/-- The states of the runs whose actions `ok` allows. -/
inductive Reachable (ok : σ → α → Prop) : σ → Prop
  | init {s : σ} (h : M.init s) : Reachable ok s
  | step {s s' : σ} {a : α} (h : Reachable ok s) (hok : ok s a) (hs : M.step s a = some s') :
      Reachable ok s'

/-- The state after a list of actions. -/
def run (s : σ) : List α → Option σ
  | [] => some s
  | a :: as => (M.step s a).bind fun s' => run s' as

theorem run_cons {s s' : σ} {a : α} {as : List α} :
    M.run s (a :: as) = some s' ↔ ∃ t, M.step s a = some t ∧ M.run t as = some s' :=
  Option.bind_eq_some_iff

/-- The machine started from one state. -/
def startAt (s : σ) : Machine σ α := { M with init := (· = s) }

theorem run_startAt (s₀ s : σ) (as : List α) : (M.startAt s₀).run s as = M.run s as := by
  induction as generalizing s with
  | nil => rfl
  | cons a as ih => exact Option.bind_congr fun t _ => ih t

variable {M} {ok : σ → α → Prop}

namespace Reachable

/-- A predicate that holds initially and that every allowed step from a reachable state
preserves holds of every reachable state. -/
theorem invariant {I : σ → Prop} (hinit : ∀ s, M.init s → I s)
    (hstep : ∀ s s' a, M.Reachable ok s → I s → ok s a → M.step s a = some s' → I s')
    {s : σ} (h : M.Reachable ok s) : I s := by
  induction h with
  | init h => exact hinit _ h
  | step h hok hs ih => exact hstep _ _ _ h ih hok hs

/-- Allowing more actions reaches more states. -/
theorem mono {ok' : σ → α → Prop} (hok : ∀ s a, ok s a → ok' s a) {s : σ}
    (h : M.Reachable ok s) : M.Reachable ok' s := by
  induction h with
  | init h => exact .init h
  | step _ ha hs ih => exact .step ih (hok _ _ ha) hs

/-- What a list of allowed actions leads to is reachable. -/
theorem of_run {s s' : σ} {as : List α} (h : M.Reachable ok s) (hok : ∀ t, ∀ a ∈ as, ok t a)
    (hrun : M.run s as = some s') : M.Reachable ok s' := by
  induction as generalizing s with
  | nil => cases hrun; exact h
  | cons a as ih =>
    obtain ⟨t, ht, hrun⟩ := Option.bind_eq_some_iff.1 hrun
    exact ih (h.step (hok s a List.mem_cons_self) ht)
      (fun u b hb => hok u b (List.mem_cons_of_mem _ hb)) hrun

end Reachable

end Machine

end NovaChannel
