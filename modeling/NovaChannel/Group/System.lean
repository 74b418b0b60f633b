import NovaChannel.Group.Agreement
import NovaChannel.Lib.Machine

/-!
# A group and its members

The system the group code is part of: members with their own copies of the state, a totally
ordered log of commits that each member applies at its own pace, and the application records
they send each other.

* Only a member that has applied the whole log commits (the total order of commits); its commit
  is appended to the log together with the welcome, if any.
* A member applies the next commit of the log unless that commit removes it.
* The holder of a key package joins with the welcome and the commit of one entry of the log.
* `sealRecord`, `deliver`: records of one sender reach each receiver in order; `receive` hands a
  member any bytes.

`past` collects every state a member was ever in, `opened` every record a member opened.
-/

namespace NovaChannel

namespace Group

open Crypto

/-- A member: its signing identity, its copy of the group, and how many records of each leaf of
the current epoch it was handed in order. -/
structure Member (β : Type) where
  signer : β
  group : Group β
  delivered : ℕ → ℕ

/-- One commit of the log, with the randomness it drew and the welcome sent beside it. -/
structure Entry (β : Type) [Crypto β] where
  coins : CommitCoins β
  commit : Commit β
  welcome : Option (Welcome β)

/-- Member `id` opened `record` in `epoch`, as `plaintext` from `leaf`. -/
structure Opened (β : Type) where
  id : ℕ
  epoch : ℕ
  leaf : ℕ
  plaintext : β
  record : β

/-- The whole system.  A member's number is the epoch it entered the group in. -/
structure World (β : Type) [Crypto β] where
  members : ℕ → Option (Member β)
  /-- The commits, in order. -/
  log : List (Entry β)
  /-- The shared state before the first commit and after each one. -/
  views : List (View β)
  /-- The records of each epoch and leaf, with their plaintexts, in order. -/
  sent : ℕ → ℕ → List (β × β)
  opened : List (Opened β)
  past : List (ℕ × Group β)

/-- What a member may propose. -/
inductive Proposal (β : Type)
  | add (newMember : LeafKeyPackage β)
  | remove (leafIndex : ℕ)
  | update

/-- What can happen. -/
inductive Action (β : Type) [Crypto β]
  | commit (id : ℕ) (coins : CommitCoins β) (p : Proposal β)
  | apply (id : ℕ)
  | join (entry : ℕ) (signer dhSecret kemSecret : β)
  | sealRecord (id : ℕ) (plaintext : β)
  | deliver (id leaf : ℕ)
  | receive (id : ℕ) (record : β)

/-- The operation removes the leaf. -/
def GroupOp.removes {β : Type} : GroupOp β → ℕ → Bool
  | .remove leafIndex, leaf => decide (leafIndex = leaf)
  | _, _ => false

section Definitions

variable {β : Type} [Crypto β]

/-- The member's own leaf is populated: it has not removed itself. -/
def Member.present (m : Member β) : Bool := m.group.isMember m.group.myLeaf

/-- `propose_add`, `propose_remove` or `propose_update`. -/
def Member.propose (m : Member β) (coins : CommitCoins β) :
    Proposal β → Result (Group β × Commit β × Option (Welcome β))
  | .add newMember => do
    let (g, c, w) ← m.group.proposeAdd m.signer coins newMember
    pure (g, c, some w)
  | .remove leafIndex => do
    let (g, c) ← m.group.proposeRemove m.signer coins leafIndex
    pure (g, c, none)
  | .update => do
    let (g, c) ← m.group.proposeUpdate m.signer coins
    pure (g, c, none)

/-- A proposal adds only key packages with a valid proof of possession. -/
def Proposal.popValid : Proposal β → Bool
  | .add newMember => newMember.popValid
  | _ => true

namespace World

/-- The group as its founder created it. -/
def start (signer : β) (g : Group β) : World β where
  members := Function.update (fun _ => none) 0 (some ⟨signer, g, fun _ => 0⟩)
  log := []
  views := [g.view]
  sent := fun _ _ => []
  opened := []
  past := [(0, g)]

/-- The member has applied the whole log. -/
def atHead (w : World β) (m : Member β) : Bool := decide (m.group.epoch = w.log.length)

/-- Member `id` has a new state. -/
def setMember (w : World β) (id : ℕ) (m : Member β) : World β :=
  { w with members := Function.update w.members id (some m), past := (id, m.group) :: w.past }

/-- A new commit in the log. -/
def append (w : World β) (e : Entry β) (v : View β) : World β :=
  { w with log := w.log ++ [e], views := w.views ++ [v] }

/-- A new record of member state `g`. -/
def send (w : World β) (g : Group β) (record plaintext : β) : World β :=
  { w with sent := Function.update w.sent g.epoch (Function.update (w.sent g.epoch) g.myLeaf
      (w.sent g.epoch g.myLeaf ++ [(record, plaintext)])) }

/-- Member `id` was handed a record and is now `m`; `result` is what `open` returned. -/
def handed (w : World β) (id : ℕ) (m : Member β) (record : β) (result : Result (ℕ × β)) :
    World β :=
  let w := w.setMember id m
  match result with
  | .ok (leaf, plaintext) =>
    { w with opened := ⟨id, m.group.epoch, leaf, plaintext, record⟩ :: w.opened }
  | .error _ => w

variable [DecidableEq β]

/-- One step of the system. -/
def step (w : World β) : Action β → Option (World β)
  | .commit id coins p =>
    match w.members id with
    | none => none
    | some m =>
      if m.present && w.atHead m && p.popValid then
        match m.propose coins p with
        | .ok (g, c, welcome) =>
          some ((w.append ⟨coins, c, welcome⟩ g.view).setMember id ⟨m.signer, g, fun _ => 0⟩)
        | .error _ => none
      else none
  | .apply id =>
    match w.members id with
    | none => none
    | some m =>
      match w.log[m.group.epoch]? with
      | none => none
      | some e =>
        if m.present && !e.commit.op.removes m.group.myLeaf then
          match m.group.applyCommit e.commit with
          | .ok g => some (w.setMember id ⟨m.signer, g, fun _ => 0⟩)
          | .error _ => none
        else none
  | .join entry signer dhSecret kemSecret =>
    match w.members (entry + 1), w.log[entry]? with
    | none, some ⟨_, commit, some welcome⟩ =>
      match Group.join (MyLeafKeyPackage.generate signer dhSecret kemSecret) welcome commit with
      | .ok g => some (w.setMember (entry + 1) ⟨signer, g, fun _ => 0⟩)
      | .error _ => none
    | _, _ => none
  | .sealRecord id plaintext =>
    match w.members id with
    | none => none
    | some m =>
      if m.present then
        match m.group.sealRecord plaintext with
        | .ok (g, record) =>
          some ((w.send m.group record plaintext).setMember id { m with group := g })
        | .error _ => none
      else none
  | .deliver id leaf =>
    match w.members id with
    | none => none
    | some m =>
      match (w.sent m.group.epoch leaf)[m.delivered leaf]? with
      | none => none
      | some (record, _) =>
        if m.present && decide (leaf ≠ m.group.myLeaf) then
          let r := m.group.openRecord record
          some (w.handed id ⟨m.signer, r.1,
            Function.update m.delivered leaf (m.delivered leaf + 1)⟩ record r.2)
        else none
  | .receive id record =>
    match w.members id with
    | none => none
    | some m =>
      let r := m.group.openRecord record
      some (w.handed id { m with group := r.1 } record r.2)

end World

/-- The founder's possible first states. -/
def World.IsStart (w : World β) : Prop :=
  ∃ signer capacity dhSecret kemSecret groupId init g,
    Group.create signer capacity dhSecret kemSecret groupId init = .ok g ∧ w = World.start signer g

/-- The system as a machine. -/
def machine (β : Type) [Crypto β] [DecidableEq β] : Machine (World β) (Action β) where
  init := World.IsStart
  step := World.step

/-- The actions of members that only hand on records in order. -/
def InOrder : World β → Action β → Prop
  | _, .receive _ _ => False
  | _, _ => True

section Members

variable {w : World β} {id id' : ℕ} {m m' : Member β}

@[simp] theorem World.members_setMember_self : (w.setMember id m).members id = some m :=
  Function.update_self ..

theorem World.members_setMember_of_ne (h : id' ≠ id) :
    (w.setMember id m).members id' = w.members id' := Function.update_of_ne h ..

theorem World.members_setMember_eq_some :
    (w.setMember id m).members id' = some m' ↔
      (id' = id ∧ m' = m) ∨ (id' ≠ id ∧ w.members id' = some m') := by
  by_cases h : id' = id
  · subst h; simp [eq_comm]
  · simp [h, World.members_setMember_of_ne h]

/-- Handing over a record changes one member and the list of opened records. -/
theorem World.handed_eq (w : World β) (id : ℕ) (m : Member β) (record : β)
    (result : Result (ℕ × β)) :
    ∃ opened, w.handed id m record result = { w.setMember id m with opened := opened } := by
  unfold World.handed
  split
  · exact ⟨_, rfl⟩
  · exact ⟨w.opened, rfl⟩

theorem World.members_handed_of_ne {record : β} {result : Result (ℕ × β)} (h : id' ≠ id) :
    (w.handed id m record result).members id' = w.members id' := by
  obtain ⟨opened, he⟩ := w.handed_eq id m record result
  rw [he]
  exact World.members_setMember_of_ne h

end Members

/-- What a step did, one case for each action. -/
inductive Step [DecidableEq β] (w : World β) : Action β → World β → Prop
  | commit {id : ℕ} {coins : CommitCoins β} {p : Proposal β} {m : Member β} {g : Group β}
      {c : Commit β} {welcome : Option (Welcome β)} (hm : w.members id = some m)
      (hpresent : m.present = true) (hhead : m.group.epoch = w.log.length)
      (hpop : p.popValid = true) (h : m.propose coins p = .ok (g, c, welcome)) :
      Step w (.commit id coins p)
        ((w.append ⟨coins, c, welcome⟩ g.view).setMember id ⟨m.signer, g, fun _ => 0⟩)
  | apply {id : ℕ} {m : Member β} {e : Entry β} {g : Group β} (hm : w.members id = some m)
      (he : w.log[m.group.epoch]? = some e) (hpresent : m.present = true)
      (hrem : e.commit.op.removes m.group.myLeaf = false)
      (h : m.group.applyCommit e.commit = .ok g) :
      Step w (.apply id) (w.setMember id ⟨m.signer, g, fun _ => 0⟩)
  | join {entry : ℕ} {signer dhSecret kemSecret : β} {coins : CommitCoins β} {c : Commit β}
      {welcome : Welcome β} {g : Group β} (hnone : w.members (entry + 1) = none)
      (he : w.log[entry]? = some ⟨coins, c, some welcome⟩)
      (h : Group.join (MyLeafKeyPackage.generate signer dhSecret kemSecret) welcome c = .ok g) :
      Step w (.join entry signer dhSecret kemSecret)
        (w.setMember (entry + 1) ⟨signer, g, fun _ => 0⟩)
  | sealRecord {id : ℕ} {plaintext record : β} {m : Member β} {g : Group β}
      (hm : w.members id = some m) (hpresent : m.present = true)
      (h : m.group.sealRecord plaintext = .ok (g, record)) :
      Step w (.sealRecord id plaintext)
        ((w.send m.group record plaintext).setMember id { m with group := g })
  | deliver {id leaf : ℕ} {m : Member β} {record plaintext : β} (hm : w.members id = some m)
      (hpresent : m.present = true) (hleaf : leaf ≠ m.group.myLeaf)
      (hrec : (w.sent m.group.epoch leaf)[m.delivered leaf]? = some (record, plaintext)) :
      Step w (.deliver id leaf)
        (w.handed id ⟨m.signer, (m.group.openRecord record).1,
          Function.update m.delivered leaf (m.delivered leaf + 1)⟩ record
          (m.group.openRecord record).2)
  | receive {id : ℕ} {m : Member β} {record : β} (hm : w.members id = some m) :
      Step w (.receive id record)
        (w.handed id { m with group := (m.group.openRecord record).1 } record
          (m.group.openRecord record).2)

/-- **Inversion of the step function.** -/
theorem step_cases [DecidableEq β] {w w' : World β} {a : Action β} (h : w.step a = some w') :
    Step w a w' := by
  cases a with
  | commit id coins p =>
    simp only [World.step] at h
    split at h
    · cases h
    · rename_i m hm
      split_ifs at h with hc
      split at h
      · rename_i g c welcome hp
        simp only [Bool.and_eq_true, World.atHead, decide_eq_true_eq] at hc
        cases h
        exact .commit hm hc.1.1 hc.1.2 hc.2 hp
      · cases h
  | apply id =>
    simp only [World.step] at h
    split at h
    · cases h
    · rename_i m hm
      split at h
      · cases h
      · rename_i e he
        split_ifs at h with hc
        split at h
        · rename_i g hg
          simp only [Bool.and_eq_true, Bool.not_eq_true'] at hc
          cases h
          exact .apply hm he hc.1 hc.2 hg
        · cases h
  | join entry signer dh kem =>
    simp only [World.step] at h
    split at h
    · rename_i coins c welcome hnone he
      split at h
      · rename_i g hg
        cases h
        exact .join hnone he hg
      · cases h
    · cases h
  | sealRecord id plaintext =>
    simp only [World.step] at h
    split at h
    · cases h
    · rename_i m hm
      split_ifs at h with hc
      split at h
      · rename_i g record hs
        cases h
        exact .sealRecord hm hc hs
      · cases h
  | deliver id leaf =>
    simp only [World.step] at h
    split at h
    · cases h
    · rename_i m hm
      split at h
      · cases h
      · rename_i record plaintext hrec
        split_ifs at h with hc
        simp only [Bool.and_eq_true, decide_eq_true_eq] at hc
        cases h
        exact .deliver hm hc.1 hc.2 hrec
  | receive id record =>
    simp only [World.step] at h
    split at h
    · cases h
    · rename_i m hm
      cases h
      exact .receive hm

end Definitions

end Group

end NovaChannel
