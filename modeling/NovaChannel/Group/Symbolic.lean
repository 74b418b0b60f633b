import NovaChannel.Group.System
import NovaChannel.Symbolic

/-!
# Symbolic runs of a group

Runs in which every value drawn at random is a name of its own: the seeds of a commit are
named by its epoch, key packages by a number (the same package may be added any number of
times).  Records are handed over without restriction.
-/

namespace NovaChannel

namespace Group

open Crypto Term

/-- The values a run draws at random. -/
inductive Name
  | identity (owner : ℕ)
  | leafDh (k : ℕ)
  | leafKem (k : ℕ)
  | groupId
  | init
  | pathSecret (epoch : ℕ)
  | ephDh (epoch d t : ℕ)
  | kemRandom (epoch d t : ℕ)
  | welcomeDh (epoch : ℕ)
  | welcomeKem (epoch : ℕ)
  deriving DecidableEq

namespace Name

/-- A number for every name. -/
def code : Name → ℕ
  | identity owner => 10 * owner
  | leafDh k => 10 * k + 1
  | leafKem k => 10 * k + 2
  | groupId => 3
  | init => 4
  | pathSecret epoch => 10 * epoch + 5
  | ephDh epoch d t => 10 * Nat.pair epoch (Nat.pair d t) + 6
  | kemRandom epoch d t => 10 * Nat.pair epoch (Nat.pair d t) + 7
  | welcomeDh epoch => 10 * epoch + 8
  | welcomeKem epoch => 10 * epoch + 9

theorem code_injective : Function.Injective code := by
  intro a b h
  cases a <;> cases b <;> simp only [code] at h <;> try omega
  all_goals first
    | rfl
    | (congr 1; omega)
    | (have h' := Nat.eq_of_mul_eq_mul_left (by omega : 0 < 10) (Nat.add_right_cancel h)
       obtain ⟨h1, h2⟩ := Nat.pair_eq_pair.1 h'
       obtain ⟨h2, h3⟩ := Nat.pair_eq_pair.1 h2
       rw [h1, h2, h3])

instance : Named Name := ⟨code, code_injective⟩

end Name

/-- The byte strings of a symbolic run. -/
abbrev Bytes := Term Name

/-- The randomness of the commit made in an epoch. -/
def coinsOf (epoch : ℕ) : CommitCoins Bytes where
  pathSecret := .name (.pathSecret epoch)
  pathSecret_len := rfl
  sealCoins d t := ⟨.name (.ephDh epoch d t), .name (.kemRandom epoch d t)⟩
  welcome := ⟨.name (.welcomeDh epoch), .name (.welcomeKem epoch)⟩

/-- Key package number `k`, with the signing identity of `owner`. -/
def package (owner k : ℕ) : MyLeafKeyPackage Bytes :=
  .generate (.name (.identity owner)) (.name (.leafDh k)) (.name (.leafKem k))

/-- The public key of key package number `k`. -/
def packageKey (k : ℕ) : NodePublicKey Bytes :=
  ⟨dhPublic (.name (.leafDh k)), kemPublic (.name (.leafKem k))⟩

/-! ### The symbolic machine -/

/-- What a member may propose. -/
inductive SymProposal
  | add (owner k : ℕ)
  | remove (leafIndex : ℕ)
  | update
  deriving DecidableEq

/-- What can happen in a symbolic run. -/
inductive SymAction
  | commit (id : ℕ) (p : SymProposal)
  | apply (id : ℕ)
  | join (entry owner k : ℕ)
  | sealRecord (id : ℕ) (plaintext : String)
  | deliver (id leaf : ℕ)
  | receive (id : ℕ) (record : Bytes)
  deriving DecidableEq

/-- The proposal with its key package. -/
def SymProposal.toProposal : SymProposal → Proposal Bytes
  | .add owner k => .add (package owner k).public
  | .remove leafIndex => .remove leafIndex
  | .update => .update

/-- The action, with the names it draws in this state. -/
def SymAction.toAction (w : World Bytes) : SymAction → Action Bytes
  | .commit id p => .commit id (coinsOf w.log.length) p.toProposal
  | .apply id => .apply id
  | .join entry owner k =>
    .join entry (.name (.identity owner)) (.name (.leafDh k)) (.name (.leafKem k))
  | .sealRecord id plaintext => .sealRecord id (.lit plaintext)
  | .deliver id leaf => .deliver id leaf
  | .receive id record => .receive id record

/-- The group `create` returns to the owner of key package `k`. -/
def symCreate (owner k capacity : ℕ) : Result (Group Bytes) :=
  Group.create (.name (.identity owner)) capacity (.name (.leafDh k)) (.name (.leafKem k))
    (.name .groupId) (.name .init)

/-- Symbolic runs as a machine. -/
def symbolicMachine : Machine (World Bytes) SymAction where
  init w := ∃ owner k capacity g, symCreate owner k capacity = .ok g ∧
    w = World.start (.name (.identity owner)) g
  step w a := w.step (a.toAction w)

/-- Any action is allowed. -/
def Anything {σ α : Type} (_ : σ) (_ : α) : Prop := True

/-- The actions that hand records over in order. -/
def SymInOrder (_ : World Bytes) : SymAction → Prop
  | .receive _ _ => False
  | _ => True

/-- A symbolic run is a run of the system. -/
theorem reachable_of_symbolic {ok : World Bytes → SymAction → Prop}
    {ok' : World Bytes → Action Bytes → Prop} {w : World Bytes}
    (hok : ∀ w a, ok w a → ok' w (a.toAction w)) (h : symbolicMachine.Reachable ok w) :
    (machine Bytes).Reachable ok' w := by
  induction h with
  | init h =>
    obtain ⟨owner, k, capacity, g, hg, rfl⟩ := h
    exact .init ⟨_, _, _, _, _, _, g, hg, rfl⟩
  | step _ ha hs ih => exact .step ih (hok _ _ ha) hs

theorem machine_of_symbolic {ok : World Bytes → SymAction → Prop} {w : World Bytes}
    (h : symbolicMachine.Reachable ok w) : (machine Bytes).Reachable Anything w :=
  reachable_of_symbolic (fun _ _ _ => trivial) h

theorem inOrder_of_symInOrder (w : World Bytes) (a : SymAction) (h : SymInOrder w a) :
    InOrder w (a.toAction w) := by
  cases a with
  | receive id record => exact h.elim
  | _ => trivial

/-- The world a founder with key package `0` of owner `0` reaches by a list of actions. -/
def runFrom (capacity : ℕ) (as : List SymAction) : Option (World Bytes) :=
  match symCreate 0 0 capacity with
  | .ok g => symbolicMachine.run (World.start (.name (.identity 0)) g) as
  | .error _ => none

theorem reachable_of_runFrom {capacity : ℕ} {as : List SymAction} {w : World Bytes}
    {ok : World Bytes → SymAction → Prop} (hok : ∀ t, ∀ a ∈ as, ok t a)
    (h : runFrom capacity as = some w) : symbolicMachine.Reachable ok w := by
  unfold runFrom at h
  split at h
  · rename_i g hg
    exact .of_run (.init ⟨0, 0, capacity, g, hg, rfl⟩) hok h
  · cases h

end Group

end NovaChannel
