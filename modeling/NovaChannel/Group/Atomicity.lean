import NovaChannel.Group.Process
import NovaChannel.Lib.Method

/-!
# Failed calls on a group

`apply_commit`, `propose_add` and `propose_remove` take `&mut self`: an early exit leaves behind
whatever was assigned before it.  Here they stand assignment by assignment, as `Method`s, and are
compared with the functions of the state machine.

* `ends_applyCommitInPlace`, `ends_commitInPlace` : the methods compute what `applyCommit` and
  `commit` return, and leave the group alone when they return an error;
* `SameUpToSetup` : a group is the same but for receive chains that were set up and not yet used;
  no call can tell such groups apart (`SameUpToSetup.outcomes`);
* `Failed.keeps` : whatever was accepted before a failed call is accepted after it.
-/

namespace NovaChannel

namespace Group

open Crypto

/-- An `Err` is returned to the caller; a panic is not. -/
def IsErr (f : Fault) : Prop := f ≠ .panic

/-! ### The methods -/

section Definitions

variable {β : Type} [Crypto β]

/-- `hk.expand(info, &mut out)`, with the limit on the length of `out`. -/
def expandChecked (length : ℕ) (prk info : β) : Result β :=
  if length ≤ 255 * 32 then .ok (hkdfExpand length prk info)
  else .err (.malformed "HKDF expand failed")

/-- `apply`, assignment by assignment. -/
def applyInPlace (preCommitNodes : List (TreeNode β)) (path : List ℕ)
    (pathNodes : List (UpdatePathNode β)) (commitSecret signedCommitBytes : β) :
    Method (Group β) Fault Unit := do
  modify fun g => { g with nodes := preCommitNodes }
  modify fun g => { g with nodes := setPath g.nodes path pathNodes }
  modify fun g => { g with
    transcriptHash := nextTranscriptHash g.transcriptHash signedCommitBytes }
  let g ← get
  let newEpochSecret ← Method.compute (expandChecked 32
    (hkdfExtract (some g.epochSecret) commitSecret) (frame [labelEpochSecret, g.transcriptHash]))
  modify fun g => { g with epochSecret := newEpochSecret }
  let g ← get
  let applicationSecret ← Method.compute (expandChecked 32 (hkdfExtract none g.epochSecret)
    labelApplicationSecret)
  modify fun g => { g with applicationSecret := applicationSecret }
  let epoch ← Method.compute (Result.expect (checkedAdd64 g.epoch 1))
  modify fun g => { g with epoch := epoch }
  let g ← get
  let sendChain ← Method.compute (expandChecked 32 (hkdfExtract none g.applicationSecret)
    (frame [labelSenderChain, num g.myLeaf]))
  modify fun g => { g with sendChain := sendChain }
  modify fun g => { g with sendSeq := 0 }
  modify fun g => { g with recvChains := fun _ => none }

/-- `commit`, with a signing backend that may fail. -/
def commitInPlace (signer : β → Option β) (coins : CommitCoins β) (op : GroupOp β) :
    Method (Group β) Fault (Commit β) := do
  let g ← get
  let preCommitNodes ← Method.compute (g.spliced op)
  let path := directPath g.capacity g.myLeaf
  let (pathNodes, newKnown) ← Method.compute (commitPath coins.sealCoins preCommitNodes g.capacity
    (leafToNode g.capacity g.myLeaf) coins.pathSecret path)
  let last ← Method.compute (Result.expect path.getLast?)
  let commitSecret ← Method.compute (Result.expect (newKnown.lookup last))
  let signed := commitSignedBytes g.groupId g.epoch g.myLeaf op pathNodes
  -- `Identity::sign` panics on a failing backend
  let signature ← Method.compute (Result.expect (signer signed))
  applyInPlace preCommitNodes path pathNodes commitSecret signed
  modify fun g => { g with knownSecrets := insertKnown g.knownSecrets newKnown }
  let g ← get
  pure { groupId := g.groupId, fromEpoch := g.epoch - 1, senderLeaf := g.myLeaf, op := op,
         path := pathNodes, signature := signature }

/-- `Identity::try_sign`. -/
def trySign (signer : β → Option β) (message : β) : Result β :=
  match signer message with
  | some signature => .ok signature
  | none => .err .signingBackend

/-- `propose_add`, with a signing backend that may fail. -/
def proposeAddInPlace (signer : β → Option β) (coins : CommitCoins β)
    (newMember : LeafKeyPackage β) : Method (Group β) Fault (Commit β × Welcome β) := do
  let g ← get
  match g.firstBlankLeaf with
  | none => throw (.error .groupFull)
  | some targetLeaf => do
    let snapshotBytes := (g.snapshot targetLeaf).write
    let signature ← Method.compute (trySign signer (welcomeSignedBytes snapshotBytes))
    let sealedSnapshot ← Method.compute (sealToNode coins.welcome newMember.publicKey
      welcomeAadContext (frame [snapshotBytes, signature]))
    let c ← commitInPlace signer coins (.add targetLeaf newMember)
    pure (c, ⟨sealedSnapshot⟩)

/-- `propose_remove`, with a signing backend that may fail. -/
def proposeRemoveInPlace (signer : β → Option β) (coins : CommitCoins β) (leafIndex : ℕ) :
    Method (Group β) Fault (Commit β) := do
  let g ← get
  if !g.isMember leafIndex then throw (.error .notAGroupMember)
  else commitInPlace signer coins (.remove leafIndex)

variable [DecidableEq β]

/-- `apply_commit`. -/
def applyCommitInPlace (c : Commit β) : Method (Group β) Fault Unit := do
  let g ← get
  if c.groupId ≠ g.groupId then throw (.error (.malformed "commit is for a different group"))
  else if c.fromEpoch ≠ g.epoch then throw (.error .wrongState)
  else match g.memberIdentity c.senderLeaf with
    | none => throw (.error .notAGroupMember)
    | some senderIdentity => do
      let signed := commitSignedBytes c.groupId c.fromEpoch c.senderLeaf c.op c.path
      if !verify senderIdentity signed c.signature then throw (.error .badSignature)
      else do
        let preCommitNodes ← Method.compute (g.spliced c.op)
        let path := directPath g.capacity c.senderLeaf
        if path.length ≠ c.path.length then
          throw (.error (.malformed "commit path length does not match tree depth"))
        else do
          let (foundLevel, secret) ← Method.compute (g.findAndDecrypt preCommitNodes 0
            (leafToNode g.capacity c.senderLeaf) path c.path)
          let newKnown ← Method.compute (verifyPath (path.drop foundLevel)
            (c.path.drop foundLevel) secret)
          let last ← Method.compute (Result.expect path.getLast?)
          let commitSecret ← Method.compute (Result.expect (newKnown.lookup last))
          applyInPlace preCommitNodes path c.path commitSecret signed
          modify fun g => { g with knownSecrets := insertKnown g.knownSecrets newKnown }

end Definitions

/-! ### What they leave behind -/

section InPlace

variable {β : Type} [Crypto β]

theorem expandChecked_32 (prk info : β) : expandChecked 32 prk info = .ok (hkdfExpand 32 prk info) :=
  if_pos (by omega)

/-- `apply` fails by a panic only, and else ends where `Group.apply` does. -/
theorem ends_applyInPlace (g : Group β) (pre : List (TreeNode β)) (path : List ℕ)
    (pathNodes : List (UpdatePathNode β)) (secret signed : β) :
    (applyInPlace pre path pathNodes secret signed).Ends IsErr g
      (g.apply pre path pathNodes secret signed >>= fun g' => .ok (g', ())) := by
  simp only [applyInPlace, Group.apply, expandChecked_32]
  cases he : checkedAdd64 g.epoch 1 with
  | none =>
    refine ⟨?_, fun h => absurd rfl h⟩
    simp only [Method.call_bind, Method.call_modify, Method.call_compute, Method.call_get, he,
      Result.expect_none]
  | some epoch =>
    refine Method.Ends.ok ?_
    simp only [Method.call_bind, Method.call_modify, Method.call_compute, Method.call_get, he,
      Result.expect_some]
    rfl

variable [DecidableEq β]

/-- **`apply_commit` installs the new state in one go**: it ends where `applyCommit` does, and where
it returns an error the group is as it was. -/
theorem ends_applyCommitInPlace (g : Group β) (c : Commit β) :
    (applyCommitInPlace c).Ends IsErr g (g.applyCommit c >>= fun g' => .ok (g', ())) := by
  unfold applyCommitInPlace applyCommit
  refine .read ?_
  split_ifs
  · exact .throw _
  · exact .throw _
  cases g.memberIdentity c.senderLeaf with
  | none => exact .throw _
  | some identity =>
    simp only
    split_ifs
    · exact .throw _
    · refine .compute_bind_bind fun pre _ => .throw _
    refine .compute_bind_bind fun pre _ => ?_
    refine .compute_bind_bind fun ⟨level, decrypted⟩ _ => ?_
    refine .compute_bind_bind fun newKnown _ => ?_
    refine .compute_bind_bind fun last _ => ?_
    refine .compute_bind_bind fun commitSecret _ => ?_
    -- `applyCommit` itself returns right after `apply`
    have hassoc : ∀ x : Result (Group β), ((x >>= fun g' => pure { g' with
        knownSecrets := insertKnown g'.knownSecrets newKnown }) >>= fun g' => .ok (g', ())) =
        x >>= fun g' => .ok ({ g' with
          knownSecrets := insertKnown g'.knownSecrets newKnown }, ()) := fun x => by
      cases x <;> rfl
    rw [hassoc]
    exact (ends_applyInPlace g pre _ c.path commitSecret _).bind fun g' _ => rfl

omit [DecidableEq β] in
/-- `commit` with a working backend ends where `Group.commit` does. -/
theorem ends_commitInPlace (g : Group β) (signer : β) (coins : CommitCoins β) (op : GroupOp β) :
    (commitInPlace (fun m => some (sign signer m)) coins op).Ends IsErr g
      (g.commit signer coins op) := by
  unfold commitInPlace commit
  refine .read ?_
  refine .compute_bind fun pre _ => ?_
  refine .compute_bind fun ⟨pathNodes, newKnown⟩ _ => ?_
  refine .compute_bind fun last _ => ?_
  refine .compute_bind fun commitSecret _ => ?_
  exact (ends_applyInPlace g pre _ pathNodes commitSecret _).bind fun g' _ => rfl

omit [DecidableEq β] in
/-- Any backend: where `commit` returns an error the group is as it was. -/
theorem atomic_commitInPlace (g : Group β) (signer : β → Option β) (coins : CommitCoins β)
    (op : GroupOp β) : (commitInPlace signer coins op).Atomic IsErr g := by
  unfold commitInPlace
  refine .read ?_
  refine .compute_bind fun pre _ => ?_
  refine .compute_bind fun ⟨pathNodes, newKnown⟩ _ => ?_
  refine .compute_bind fun last _ => ?_
  refine .compute_bind fun commitSecret _ => ?_
  refine .compute_bind fun signature _ => ?_
  exact (ends_applyInPlace g pre _ pathNodes commitSecret _).atomic.bind fun _ g' => ⟨(_, _), rfl⟩

omit [DecidableEq β] in
theorem atomic_proposeAddInPlace (g : Group β) (signer : β → Option β) (coins : CommitCoins β)
    (newMember : LeafKeyPackage β) : (proposeAddInPlace signer coins newMember).Atomic IsErr g := by
  unfold proposeAddInPlace
  refine .read ?_
  cases g.firstBlankLeaf with
  | none => exact .throw _
  | some targetLeaf =>
    refine .compute_bind fun signature _ => ?_
    refine .compute_bind fun sealedSnapshot _ => ?_
    exact (atomic_commitInPlace g signer coins _).bind fun _ g' => ⟨(_, _), rfl⟩

omit [DecidableEq β] in
theorem atomic_proposeRemoveInPlace (g : Group β) (signer : β → Option β) (coins : CommitCoins β)
    (leafIndex : ℕ) : (proposeRemoveInPlace signer coins leafIndex).Atomic IsErr g := by
  unfold proposeRemoveInPlace
  refine .read ?_
  split_ifs
  · exact .throw _
  · exact atomic_commitInPlace g signer coins _

omit [DecidableEq β] in
/-- `propose_add` with a working backend ends where `proposeAdd` does. -/
theorem ends_proposeAddInPlace (g : Group β) (signer : β) (coins : CommitCoins β)
    (newMember : LeafKeyPackage β) :
    (proposeAddInPlace (fun m => some (sign signer m)) coins newMember).Ends IsErr g
      (g.proposeAdd signer coins newMember) := by
  unfold proposeAddInPlace proposeAdd
  refine .read ?_
  cases g.firstBlankLeaf with
  | none => exact .throw _
  | some targetLeaf =>
    refine .compute_bind fun sealedSnapshot _ => ?_
    refine .bind (g := fun p => p) ?_ fun p _ => rfl
    change Method.Ends _ _ _ (g.commit signer coins (.add targetLeaf newMember) >>= pure)
    rw [bind_pure]
    exact ends_commitInPlace g signer coins _

omit [DecidableEq β] in
/-- `propose_remove` with a working backend ends where `proposeRemove` does. -/
theorem ends_proposeRemoveInPlace (g : Group β) (signer : β) (coins : CommitCoins β)
    (leafIndex : ℕ) :
    (proposeRemoveInPlace (fun m => some (sign signer m)) coins leafIndex).Ends IsErr g
      (g.proposeRemove signer coins leafIndex) := by
  unfold proposeRemoveInPlace proposeRemove
  refine .read ?_
  split_ifs
  · exact .throw _
  · exact ends_commitInPlace g signer coins _

end InPlace

/-! ### Receive chains set up and not used -/

section Setup

variable {β : Type} [Crypto β]

/-- The groups differ at most in receive chains that one of them set up and has not used. -/
structure SameUpToSetup (g g' : Group β) : Prop where
  rest : { g with recvChains := g'.recvChains } = g'
  recvChain : ∀ leaf, g'.recvChain leaf = g.recvChain leaf

/-- A call on a group. -/
inductive GroupCall (β : Type) [Crypto β]
  | applyCommit (c : Commit β)
  | openRecord (record : β)
  | sealRecord (plaintext : β)
  | propose (signer : β) (coins : CommitCoins β) (p : Proposal β)

/-- What a call returned. -/
inductive Outcome (β : Type)
  | applied (r : Result Unit)
  | opened (r : Result (ℕ × β))
  | sealed (r : Result β)
  | proposed (r : Result (Commit β × Option (Welcome β)))

/-- The group after a call that computes `x`. -/
def install {α : Type} (g : Group β) (x : Result (Group β × α)) : Group β × Result α :=
  match x with
  | .ok (g', a) => (g', .ok a)
  | .error e => (g, .error e)

variable [DecidableEq β]

/-- The group after a call, and what the call returned. -/
def callOn (g : Group β) : GroupCall β → Group β × Outcome β
  | .applyCommit c => (g.install (g.applyCommit c >>= fun g' => .ok (g', ()))).map id .applied
  | .openRecord record => (g.openRecord record).map id .opened
  | .sealRecord plaintext => (g.install (g.sealRecord plaintext)).map id .sealed
  | .propose signer coins p => (g.install (g.propose signer coins p)).map id .proposed

/-- What a list of calls returns. -/
def outcomes : Group β → List (GroupCall β) → List (Outcome β)
  | _, [] => []
  | g, a :: as => (g.callOn a).2 :: outcomes (g.callOn a).1 as

omit [DecidableEq β] in
theorem findAndDecrypt_recvChains (g : Group β) (r : ℕ → Option (β × ℕ))
    (pre : List (TreeNode β)) (path : List ℕ) (i prev : ℕ) (pathNodes : List (UpdatePathNode β)) :
    { g with recvChains := r }.findAndDecrypt pre i prev path pathNodes =
      g.findAndDecrypt pre i prev path pathNodes := by
  induction path generalizing i prev pathNodes with
  | nil => rfl
  | cons d path ih =>
    cases pathNodes with
    | nil => rfl
    | cons node pathNodes =>
      simp only [findAndDecrypt, ih]
      rfl

/-- Commits neither look at the receive chains nor keep them. -/
theorem applyCommit_recvChains (g : Group β) (r : ℕ → Option (β × ℕ)) (c : Commit β) :
    { g with recvChains := r }.applyCommit c = g.applyCommit c := by
  unfold applyCommit
  simp only [findAndDecrypt_recvChains]
  rfl

namespace SameUpToSetup

variable {g g' g'' : Group β}

omit [DecidableEq β] in
theorem refl (g : Group β) : SameUpToSetup g g := ⟨rfl, fun _ => rfl⟩

omit [DecidableEq β] in
theorem symm (h : SameUpToSetup g g') : SameUpToSetup g' g := by
  refine ⟨?_, fun leaf => (h.recvChain leaf).symm⟩
  rw [← h.rest]

omit [DecidableEq β] in
theorem trans (h : SameUpToSetup g g') (h' : SameUpToSetup g' g'') : SameUpToSetup g g'' := by
  refine ⟨?_, fun leaf => (h'.recvChain leaf).trans (h.recvChain leaf)⟩
  rw [← h'.rest, ← h.rest]

omit [DecidableEq β] in
/-- Setting up a chain is not using it. -/
theorem setUp (g : Group β) (leaf : ℕ) : SameUpToSetup g { g with
    recvChains := Function.update g.recvChains leaf (some (g.recvChain leaf)) } := by
  refine ⟨rfl, fun l => ?_⟩
  by_cases hl : l = leaf
  · subst hl
    simp [Group.recvChain]
  · simp [Group.recvChain, Function.update_of_ne hl]

omit [DecidableEq β] in
/-- Using a chain makes the same difference to both. -/
theorem update (h : SameUpToSetup g g') (leaf : ℕ) (entry : β × ℕ) :
    SameUpToSetup { g with recvChains := Function.update g.recvChains leaf (some entry) }
      { g' with recvChains := Function.update g'.recvChains leaf (some entry) } := by
  have happ : g'.applicationSecret = g.applicationSecret := by rw [← h.rest]
  refine ⟨by rw [← h.rest], fun l => ?_⟩
  by_cases hl : l = leaf
  · subst hl
    simp [Group.recvChain]
  · have hrecv := h.recvChain l
    simp only [Group.recvChain] at hrecv
    simp only [Group.recvChain, Function.update_of_ne hl, hrecv]

omit [DecidableEq β] in
theorem openNext (h : SameUpToSetup g g') (entry : β × ℕ) (senderLeaf seq : ℕ)
    (header ciphertext : β) :
    SameUpToSetup (g.openNext entry senderLeaf seq header ciphertext).1
        (g'.openNext entry senderLeaf seq header ciphertext).1 ∧
      (g'.openNext entry senderLeaf seq header ciphertext).2 =
        (g.openNext entry senderLeaf seq header ciphertext).2 := by
  unfold Group.openNext
  split_ifs
  · exact ⟨h, rfl⟩
  cases aeadSealOpen (advance entry.1).2 header ciphertext with
  | error e => exact ⟨h, rfl⟩
  | ok plaintext =>
    cases checkedAdd64 entry.2 1 with
    | none => exact ⟨h, rfl⟩
    | some next => exact ⟨h.update senderLeaf _, rfl⟩

omit [DecidableEq β] in
theorem openRecord (h : SameUpToSetup g g') (record : β) :
    SameUpToSetup (g.openRecord record).1 (g'.openRecord record).1 ∧
      (g'.openRecord record).2 = (g.openRecord record).2 := by
  have hepoch : g'.epoch = g.epoch := by rw [← h.rest]
  have hleaf : g'.myLeaf = g.myLeaf := by rw [← h.rest]
  have hmember : ∀ l, g'.isMember l = g.isMember l := fun l => by rw [← h.rest]; rfl
  unfold Group.openRecord
  cases readRecord record with
  | none => exact ⟨h, rfl⟩
  | some fields =>
    obtain ⟨epoch, senderLeaf, seq, header, ciphertext⟩ := fields
    simp only [hepoch, hleaf, hmember]
    split_ifs
    · exact ⟨h, rfl⟩
    · exact ⟨h, rfl⟩
    · exact ⟨h, rfl⟩
    · have hnext := (h.update senderLeaf (g.recvChain senderLeaf)).openNext
        (g.recvChain senderLeaf) senderLeaf seq header ciphertext
      simpa only [hepoch, hleaf, h.recvChain] using hnext

/-- **No call tells the groups apart.** -/
theorem callOn (h : SameUpToSetup g g') (a : GroupCall β) :
    SameUpToSetup (g.callOn a).1 (g'.callOn a).1 ∧ (g'.callOn a).2 = (g.callOn a).2 := by
  cases a with
  | applyCommit c =>
    have hc : g'.applyCommit c = g.applyCommit c := by
      rw [← h.rest, applyCommit_recvChains]
    simp only [Group.callOn, hc]
    cases g.applyCommit c with
    | error e => exact ⟨h, rfl⟩
    | ok g₁ => exact ⟨.refl g₁, rfl⟩
  | openRecord record =>
    obtain ⟨hs, hr⟩ := h.openRecord record
    exact ⟨hs, congrArg Outcome.opened hr⟩
  | sealRecord plaintext =>
    have hseq : g'.sendSeq = g.sendSeq := by rw [← h.rest]
    have hchain : g'.sendChain = g.sendChain := by rw [← h.rest]
    have hheader : (appHeader g'.epoch g'.myLeaf g'.sendSeq : β) =
        appHeader g.epoch g.myLeaf g.sendSeq := by rw [← h.rest]
    simp only [Group.callOn, Group.sealRecord]
    rw [hheader, hseq, hchain]
    cases checkedAdd64 g.sendSeq 1 with
    | none => exact ⟨h, rfl⟩
    | some sendSeq => exact ⟨⟨by rw [← h.rest]; rfl, h.recvChain⟩, rfl⟩
  | propose signer coins p =>
    have hp : g'.propose signer coins p = g.propose signer coins p := by
      rw [← h.rest]
      cases p <;> rfl
    simp only [Group.callOn, hp]
    cases g.propose signer coins p with
    | error e => exact ⟨h, rfl⟩
    | ok r => exact ⟨.refl r.1, rfl⟩

/-- Nor does any list of calls. -/
theorem outcomes (h : SameUpToSetup g g') (calls : List (GroupCall β)) :
    g'.outcomes calls = g.outcomes calls := by
  induction calls generalizing g g' with
  | nil => rfl
  | cons a as ih =>
    obtain ⟨hs, hr⟩ := h.callOn a
    rw [Group.outcomes, Group.outcomes, hr, ih hs]

end SameUpToSetup

end Setup

/-! ### Failed calls -/

section Failed

variable {β : Type} [Crypto β] [DecidableEq β] {g g₁ : Group β}

/-- A call on `g` returned an error and left `g₁` behind. -/
inductive Failed (g g₁ : Group β) : Prop
  | applyCommit {c : Commit β} {e : Error}
      (h : (applyCommitInPlace c).call g = (.error (.error e), g₁))
  | openRecord {record : β} {e : Error} (h : g.openRecord record = (g₁, .err e))
  | proposeAdd {signer : β → Option β} {coins : CommitCoins β} {newMember : LeafKeyPackage β}
      {e : Error} (h : (proposeAddInPlace signer coins newMember).call g = (.error (.error e), g₁))
  | proposeRemove {signer : β → Option β} {coins : CommitCoins β} {leafIndex : ℕ} {e : Error}
      (h : (proposeRemoveInPlace signer coins leafIndex).call g = (.error (.error e), g₁))

omit [DecidableEq β] in
/-- A record that does not open sets up a chain at most. -/
theorem sameUpToSetup_of_openRecord {record : β} {e : Error}
    (h : g.openRecord record = (g₁, .err e)) : SameUpToSetup g g₁ := by
  unfold Group.openRecord at h
  cases hread : readRecord record with
  | none =>
    rw [hread] at h
    exact (Prod.mk.inj h).1 ▸ .refl g
  | some fields =>
    obtain ⟨epoch, senderLeaf, seq, header, ciphertext⟩ := fields
    rw [hread] at h
    simp only at h
    split_ifs at h
    · exact (Prod.mk.inj h).1 ▸ .refl g
    · exact (Prod.mk.inj h).1 ▸ .refl g
    · exact (Prod.mk.inj h).1 ▸ .refl g
    unfold Group.openNext at h
    split_ifs at h
    · exact (Prod.mk.inj h).1 ▸ .setUp g senderLeaf
    split at h
    · exact (Prod.mk.inj h).1 ▸ .setUp g senderLeaf
    split at h
    · cases (Prod.mk.inj h).2
    · cases (Prod.mk.inj h).2

/-- Every other call that fails leaves the group as it was. -/
theorem Failed.eq_or_openRecord (h : Failed g g₁) :
    g₁ = g ∨ ∃ record e, g.openRecord record = (g₁, .err e) := by
  have herr : ∀ e : Error, IsErr (.error e) := fun e he => by cases he
  cases h with
  | applyCommit h => exact .inl ((ends_applyCommitInPlace g _).atomic _ _ h (herr _))
  | openRecord h => exact .inr ⟨_, _, h⟩
  | proposeAdd h => exact .inl (atomic_proposeAddInPlace g _ _ _ _ _ h (herr _))
  | proposeRemove h => exact .inl (atomic_proposeRemoveInPlace g _ _ _ _ _ h (herr _))

theorem Failed.sameUpToSetup (h : Failed g g₁) : SameUpToSetup g g₁ := by
  rcases h.eq_or_openRecord with rfl | ⟨record, e, h⟩
  · exact .refl g₁
  · exact sameUpToSetup_of_openRecord h

/-- **A failed call takes nothing away**: a commit accepted before it is accepted after it and
leads to the same group; a record opened before it is opened after it to the same plaintext, and
leads to a group that answers every later call in the same way. -/
theorem Failed.keeps (h : Failed g g₁) :
    (g₁ = g ∨ ∃ record e, g.openRecord record = (g₁, .err e)) ∧
    (∀ c g', (applyCommitInPlace c).call g = (.ok (), g') →
      (applyCommitInPlace c).call g₁ = (.ok (), g')) ∧
    ∀ record r g', g.openRecord record = (g', .ok r) →
      ∃ g₁', g₁.openRecord record = (g₁', .ok r) ∧ SameUpToSetup g' g₁' ∧
        ∀ calls, g₁'.outcomes calls = g'.outcomes calls := by
  have hsame := h.sameUpToSetup
  refine ⟨h.eq_or_openRecord, fun c g' hc => ?_, fun record r g' hr => ?_⟩
  · -- both groups compute the same successor
    have hg := ends_applyCommitInPlace g c
    have hg₁ := ends_applyCommitInPlace g₁ c
    rw [← hsame.rest, applyCommit_recvChains, hsame.rest] at hg₁
    cases hok : g.applyCommit c with
    | error e =>
      rw [hok] at hg
      cases hg.1.symm.trans (congrArg Prod.fst hc)
    | ok g'' =>
      rw [hok] at hg hg₁
      obtain rfl := (Prod.mk.inj (hg.symm.trans hc)).2
      exact hg₁
  · obtain ⟨hs, hres⟩ := hsame.openRecord record
    rw [hr] at hs hres
    exact ⟨_, Prod.ext rfl hres, hs, hs.outcomes⟩

end Failed

/-! ### Two senders -/

/-- Three members are in one epoch. -/
def trioCalls : List SymCall :=
  [.create 0 0 0 4, .propose 0 0 (.add 1 1), .join 1 1 1 0, .propose 0 0 (.add 2 2),
    .applyCommit 1 0, .join 2 2 2 0]

/-- A record with the header of the member at leaf 1 and a number it has not reached. -/
def strayRecord (g : Group Bytes) : Bytes := frame [appHeader g.epoch 1 7, .lit "noise"]

/-- The founder rejects the stray record and opens the one the member at leaf 2 sealed; it then
has the chain of leaf 1, which it has not if it sees the good record only. -/
def straySetsUp (w : Process Bytes) : Bool :=
  match w.groups 0, w.groups 2 with
  | some g, some g₂ =>
    match g₂.sealRecord (.lit "hello") with
    | .ok (_, record) =>
      decide ((g.openRecord (strayRecord g)).2 = .err .replay) &&
        decide ((g.openRecord record).2 = .ok (2, .lit "hello")) &&
        (g.openRecord record).1.recvChains 1 == none &&
        ((g.openRecord (strayRecord g)).1.openRecord record).1.recvChains 1 != none
    | .error _ => false
  | _, _ => false

theorem exists_stray : ∃ w g record, runCalls .empty trioCalls = some w ∧ w.groups 0 = some g ∧
    (g.openRecord (strayRecord g)).2 = .err .replay ∧
    (g.openRecord record).2 = .ok (2, .lit "hello") ∧
    (g.openRecord record).1.recvChains 1 = none ∧
    ((g.openRecord (strayRecord g)).1.openRecord record).1.recvChains 1 ≠ none := by
  have hrun : (runCalls .empty trioCalls).map straySetsUp = some true := by decide +kernel
  obtain ⟨w, hw, hp⟩ := Option.map_eq_some_iff.1 hrun
  unfold straySetsUp at hp
  split at hp
  · rename_i g g₂ hg hg₂
    split at hp
    · rename_i g₂' record hrecord
      simp only [Bool.and_eq_true, decide_eq_true_eq, beq_iff_eq, bne_iff_ne] at hp
      obtain ⟨⟨⟨hstray, hgood⟩, hnone⟩, hsome⟩ := hp
      exact ⟨w, g, record, hw, hg, hstray, hgood, hnone, hsome⟩
    · cases hp
  · cases hp

/-- The stray record takes nothing away from the good one. -/
theorem keeps_trioCalls : ∃ w g g₁ g₁' record, runCalls .empty trioCalls = some w ∧
    w.groups 0 = some g ∧ Failed g g₁ ∧
    g₁.openRecord record = (g₁', .ok (2, .lit "hello")) := by
  obtain ⟨w, g, record, hw, hg, hstray, hgood, -⟩ := exists_stray
  have hfailed : Failed g (g.openRecord (strayRecord g)).1 := .openRecord (Prod.ext rfl hstray)
  obtain ⟨g₁', hg₁', -⟩ := hfailed.keeps.2.2 record _ _ (Prod.ext rfl hgood)
  exact ⟨w, g, _, g₁', record, hw, hg, hfailed, hg₁'⟩

/-- But the group the good record leads to is not the same one: it has the chain the stray record
set up. -/
theorem not_keeps_trioCalls : ¬ ∀ w, (processMachine Bytes).Reachable Anything w →
    ∀ i g g₁, w.groups i = some g → Failed g g₁ →
      (∀ c g', (applyCommitInPlace c).call g = (.ok (), g') →
        (applyCommitInPlace c).call g₁ = (.ok (), g')) ∧
      ∀ record r g', g.openRecord record = (g', .ok r) → g₁.openRecord record = (g', .ok r) := by
  intro hall
  obtain ⟨w, g, record, hw, hg, hstray, hgood, hnone, hsome⟩ := exists_stray
  have hr : (processMachine Bytes).Reachable Anything w :=
    reachable_of_runCalls (.init rfl) (fun _ _ _ _ _ => trivial) hw
  have hfailed : Failed g (g.openRecord (strayRecord g)).1 := .openRecord (Prod.ext rfl hstray)
  have hsame := (hall w hr 0 g _ hg hfailed).2 record _ _ (Prod.ext rfl hgood)
  refine hsome ?_
  rw [hsame]
  exact hnone

end Group

end NovaChannel
