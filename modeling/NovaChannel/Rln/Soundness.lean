import NovaChannel.Rln.Air
import NovaChannel.Rln.MerkleTree

/-!
# A satisfied trace proves its statement

Every trace that meets the constraints, whatever it holds in the cells they leave free, computes
one secret key's commitment, an authentication path above it, its nullifier and its share.

* `stateOf_block` : a block runs the permutation;
* `stateOf_merkle` : the input of a Merkle block is a step of the path read off the trace;
* `sound_of_satisfies` : **soundness of the constraints**.
-/

namespace NovaChannel

namespace Rln

open Merkle RlnAir

namespace TraceTable

/-- The first row of a block. -/
def blockStart (block : ℕ) : ℕ := block * blockLen

/-- Lane 0 of a block's last row. -/
def blockOutput (trace : TraceTable) (block : ℕ) : BaseElement :=
  trace (blockStart block + rounds) colState0

/-- The secret key a trace works with. -/
def sk (trace : TraceTable) : BaseElement := trace 0 colSk

/-- The step of the authentication path that leads into a block. -/
def stepInto (trace : TraceTable) (block : ℕ) : PathStep BaseElement :=
  ⟨trace (blockStart block) colSibling,
    if trace (blockStart block) colSelector = 0 then .left else .right⟩

/-- The authentication path a trace works with. -/
def path (trace : TraceTable) (depth : ℕ) : List (PathStep BaseElement) :=
  (List.range depth).map fun k => trace.stepInto (k + 1)

@[simp] theorem length_path (trace : TraceTable) (depth : ℕ) :
    (trace.path depth).length = depth := by simp [path]

theorem path_succ (trace : TraceTable) (depth : ℕ) :
    trace.path (depth + 1) = trace.path depth ++ [trace.stepInto (depth + 1)] := by
  simp [path, List.range_succ]

end TraceTable

open TraceTable

/-! ### Blocks -/

section Blocks

variable {air : RlnAir} {trace : TraceTable} {block r : ℕ}

theorem blockLen_pos : 0 < blockLen := Nat.succ_pos _

theorem mod_blockLen (block : ℕ) (hr : r < blockLen) : (blockStart block + r) % blockLen = r := by
  rw [blockStart, Nat.mul_comm, Nat.mul_add_mod, Nat.mod_eq_of_lt hr]

theorem blockStart_succ (block : ℕ) :
    blockStart (block + 1) = blockStart block + rounds + 1 := by
  rw [blockStart, blockStart, Nat.succ_mul, blockLen]
  omega

/-- A row of a block of the trace. -/
theorem row_lt (hblock : block < numBlocks air.depth) (hr : r ≤ rounds) :
    blockStart block + r < traceLength air.depth := by
  have hle : (block + 1) * blockLen ≤ numBlocks air.depth * blockLen :=
    Nat.mul_le_mul_right _ hblock
  have hlen : blockLen = rounds + 1 := rfl
  rw [Nat.succ_mul] at hle
  unfold blockStart traceLength
  omega

theorem rootRow_eq (depth : ℕ) : rootRow depth = blockStart depth + rounds := by
  unfold rootRow a1TransitionRow numMerkleBlocks blockStart blockLen
  rw [Nat.succ_mul]
  omega

theorem a1InputRow_eq (depth : ℕ) : a1InputRow depth = blockStart (depth + 1) := by
  rw [blockStart_succ, ← rootRow_eq]
  rfl

theorem a1OutputRow_eq (depth : ℕ) : a1OutputRow depth = blockStart (depth + 1) + rounds := by
  unfold a1OutputRow linearcheckTransitionRow numMerkleBlocks blockStart blockLen
  rw [Nat.succ_mul (depth + 1)]
  omega

theorem yRow_eq (depth : ℕ) : yRow depth = blockStart (depth + 2) := by
  rw [blockStart_succ, ← a1OutputRow_eq]
  rfl

variable (h : air.Satisfies trace)

include h

/-- The constraints of a row that is not the last one. -/
theorem RlnAir.Satisfies.at (hblock : block < numBlocks air.depth) (hr : r ≤ rounds)
    (hlast : blockStart block + r + 1 < traceLength air.depth) :
    air.Transition (blockStart block + r) (trace (blockStart block + r))
      (trace (blockStart block + r + 1)) :=
  (transition_iff air (row_lt hblock hr) _ _).1 (h.transition _ hlast)

/-- **A block runs the permutation.** -/
theorem stateOf_block (hblock : block < numBlocks air.depth) (hr : r ≤ rounds) :
    stateOf (trace (blockStart block + r)) =
      stateAfter air.params (stateOf (trace (blockStart block))) r := by
  induction r with
  | zero => rfl
  | succ r ih =>
    have hlt : r < blockLen := by
      unfold blockLen
      omega
    have hlast := row_lt hblock hr
    rw [← Nat.add_assoc] at hlast
    have hmod := mod_blockLen block hlt
    have hstep := (h.at hblock (Nat.le_of_succ_le hr) hlast).step (by rw [hmod]; exact hr)
    rw [hmod, ih (Nat.le_of_succ_le hr)] at hstep
    rw [← Nat.add_assoc, hstep, stateAfter]

/-- What a block computes from a compression's input. -/
theorem blockOutput_eq (hblock : block < numBlocks air.depth) {left right : BaseElement}
    (hstart : stateOf (trace (blockStart block)) = hashInput left right) :
    trace.blockOutput block = compress2 air.params left right := by
  have hout := congrFun (stateOf_block h hblock (Nat.le_refl rounds)) 0
  rw [hstart, ← compress2_eq] at hout
  exact hout

/-- One secret key throughout. -/
theorem sk_eq {row : ℕ} (hrow : row < traceLength air.depth) : trace row colSk = trace.sk := by
  induction row with
  | zero => rfl
  | succ row ih =>
    have htrans := (transition_iff air (Nat.lt_of_succ_lt hrow) _ _).1 (h.transition row hrow)
    rw [htrans.sk, ih (Nat.lt_of_succ_lt hrow)]

/-- The row after a block that is not the last one. -/
theorem RlnAir.Satisfies.atEnd (hblock : block + 1 < numBlocks air.depth) :
    air.Transition (blockStart block + rounds) (trace (blockStart block + rounds))
      (trace (blockStart (block + 1))) := by
  have hlast := row_lt (r := 0) hblock (Nat.zero_le _)
  rw [Nat.add_zero, blockStart_succ] at hlast
  rw [blockStart_succ]
  exact h.at (Nat.lt_of_succ_lt hblock) (Nat.le_refl _) hlast

end Blocks

/-! ### The blocks of a trace -/

section Statement

variable {air : RlnAir} {trace : TraceTable} {block : ℕ} (h : air.Satisfies trace)

theorem rounds_lt : rounds < blockLen := Nat.lt_succ_self _

/-- Lanes 2 to 7 of a block's input are zero. -/
theorem eq_hashInput {s : State BaseElement} (hrest : ∀ k : Fin 6, s k.succ.succ = 0) :
    s = hashInput (s 0) (s 1) := by
  rw [state_eq_iff, Fin.forall_fin_succ]
  refine ⟨rfl, rfl, fun k => ?_⟩
  rw [hrest k]
  fin_cases k <;> rfl

theorem a1TransitionRow_eq (depth : ℕ) : a1TransitionRow depth = blockStart depth + rounds :=
  rootRow_eq depth

theorem linearcheckTransitionRow_eq (depth : ℕ) :
    linearcheckTransitionRow depth = blockStart (depth + 1) + rounds := a1OutputRow_eq depth

theorem blockStart_injective {b b' : ℕ} (hb : blockStart b + rounds = blockStart b' + rounds) :
    b = b' :=
  Nat.eq_of_mul_eq_mul_right (Nat.succ_pos rounds) (Nat.add_right_cancel hb)

include h

/-- The cells that are asserted. -/
theorem RlnAir.Satisfies.asserted :
    (∀ k : Fin 7, stateOf (trace 0) k.succ = 0) ∧
      trace.blockOutput air.depth = air.pubInputs.root ∧
      trace.blockOutput (air.depth + 1) = air.pubInputs.nullifier ∧
      trace (blockStart (air.depth + 2)) colState0 = air.pubInputs.y ∧
      trace (blockStart (air.depth + 1)) colSibling = air.pubInputs.epoch ∧
      trace (blockStart (air.depth + 1)) colSelector = 0 := by
  have ha := h.assertions
  simp only [getAssertions, List.forall_mem_append, List.forall_mem_cons, List.forall_mem_map,
    List.mem_finRange, forall_const, rootRow_eq, a1OutputRow_eq, yRow_eq, a1InputRow_eq] at ha
  exact ⟨ha.1, ha.2.1, ha.2.2.1, ha.2.2.2.1, ha.2.2.2.2.1, ha.2.2.2.2.2.1⟩

/-- The first block hashes the secret key. -/
theorem stateOf_first : stateOf (trace 0) = hashInput trace.sk 0 := by
  have hrow : 0 + 1 < traceLength air.depth := by
    have hlt := row_lt (Nat.succ_pos _ : 0 < numBlocks air.depth) (by decide : 1 ≤ rounds)
    rwa [blockStart, Nat.zero_mul] at hlt
  have hrow0 := ((transition_iff air (Nat.lt_of_succ_lt hrow) _ _).1
    (h.transition 0 hrow)).row0 rfl
  obtain ⟨hzero, -⟩ := h.asserted
  have hstate := eq_hashInput fun k : Fin 6 => hzero k.succ
  rw [hrow0] at hstate
  rw [hstate]
  exact congrArg _ (hzero 0)

/-- **The input of a Merkle block** is a step of the path. -/
theorem stateOf_merkle (hblock : block < air.depth) :
    stateOf (trace (blockStart (block + 1))) =
      hashInput ((trace.stepInto (block + 1)).inputs (trace.blockOutput block)).1
        ((trace.stepInto (block + 1)).inputs (trace.blockOutput block)).2 := by
  have hnum : block + 2 < numBlocks air.depth := by
    unfold numBlocks numMerkleBlocks
    omega
  have hend := h.atEnd (Nat.lt_of_succ_lt hnum)
  have hmod := mod_blockLen block rounds_lt
  have hstate := eq_hashInput (hend.injectRest hmod)
  rw [hend.inject0 hmod, hend.inject1 hmod] at hstate
  -- neither of the two special transitions is here
  have hna : blockStart block + rounds ≠ a1TransitionRow air.depth := by
    rw [a1TransitionRow_eq]
    exact fun he => absurd (blockStart_injective he) (by omega)
  have hnl : blockStart block + rounds ≠ linearcheckTransitionRow air.depth := by
    rw [linearcheckTransitionRow_eq]
    exact fun he => absurd (blockStart_injective he) (by omega)
  rw [injected0, if_neg hna, if_neg hnl] at hstate
  have hsel := (h.at (r := 0) (Nat.lt_of_succ_lt hnum) (Nat.zero_le _)
    (row_lt (Nat.lt_of_succ_lt hnum) (by decide : 1 ≤ rounds))).selector
  rw [hstate]
  rcases hsel with hsel | hsel
  · have hsel' : trace (blockStart (block + 1)) colSelector = 0 := hsel
    simp [stepInto, PathStep.inputs, hsel', blockOutput]
  · have hsel' : trace (blockStart (block + 1)) colSelector = 1 := hsel
    simp [stepInto, PathStep.inputs, hsel', blockOutput]

/-- **The outputs of the Merkle blocks climb the path.** -/
theorem blockOutput_merkle (hblock : block ≤ air.depth) :
    trace.blockOutput block =
      fold (compress2 air.params) (compress2 air.params trace.sk 0) (trace.path block) := by
  have hnum : ∀ b, b ≤ air.depth → b < numBlocks air.depth := fun b hb => by
    unfold numBlocks numMerkleBlocks
    omega
  induction block with
  | zero =>
    have hstart : stateOf (trace (blockStart 0)) = hashInput trace.sk 0 := by
      rw [blockStart, Nat.zero_mul, stateOf_first h]
    rw [blockOutput_eq h (hnum 0 hblock) hstart, path, List.range_zero, List.map_nil, fold_nil]
  | succ block ih =>
    rw [path_succ, fold_append, ← ih (Nat.le_of_succ_le hblock), fold_cons, fold_nil, climb,
      blockOutput_eq h (hnum _ hblock) (stateOf_merkle h hblock)]

/-- The block of the nullifier hashes the secret key and the epoch. -/
theorem stateOf_a1 :
    stateOf (trace (blockStart (air.depth + 1))) = hashInput trace.sk air.pubInputs.epoch := by
  have hnum : air.depth + 1 < numBlocks air.depth := by
    unfold numBlocks numMerkleBlocks
    omega
  have hend := h.atEnd hnum
  have hmod := mod_blockLen air.depth rounds_lt
  have hstate := eq_hashInput (hend.injectRest hmod)
  obtain ⟨-, -, -, -, hepoch, hsel⟩ := h.asserted
  rw [hend.inject0 hmod, hend.inject1 hmod, injected0, if_pos (a1TransitionRow_eq _).symm, hsel,
    hepoch, sk_eq h (row_lt (Nat.lt_of_succ_lt hnum) (Nat.le_refl _))] at hstate
  rw [hstate]
  simp

/-- **The nullifier.** -/
theorem blockOutput_a1 :
    trace.blockOutput (air.depth + 1) = compress2 air.params trace.sk air.pubInputs.epoch := by
  have hnum : air.depth + 1 < numBlocks air.depth := by
    unfold numBlocks numMerkleBlocks
    omega
  rw [blockOutput_eq h hnum (stateOf_a1 h)]

/-- The row after it carries the share. -/
theorem share_eq : trace (blockStart (air.depth + 2)) colState0 =
    trace.sk + trace.blockOutput (air.depth + 1) * air.pubInputs.x := by
  have hnum : air.depth + 2 < numBlocks air.depth := by
    unfold numBlocks numMerkleBlocks
    omega
  have hend := h.atEnd hnum
  have hmod := mod_blockLen (air.depth + 1) rounds_lt
  have hinject := hend.inject0 hmod
  have hna : blockStart (air.depth + 1) + rounds ≠ a1TransitionRow air.depth := by
    rw [a1TransitionRow_eq]
    exact fun he => absurd (blockStart_injective he) (by omega)
  rw [injected0, if_neg hna, if_pos (linearcheckTransitionRow_eq _).symm,
    sk_eq h (row_lt (Nat.lt_of_succ_lt hnum) (Nat.le_refl _)), stateOf, colState_zero] at hinject
  rw [hinject, blockOutput]

end Statement

/-- **Soundness of the constraints.**  Whatever a trace that meets them holds in its other cells,
one secret key is behind it: a path of `depth` steps leads from its commitment to the root, the
nullifier is its hash with the epoch, and the share is on its line. -/
theorem sound_of_satisfies {depth : ℕ} {pub : PublicInputs} {trace : TraceTable}
    (h : RlnAir.Satisfies ⟨pub, .new, depth⟩ trace) :
    ∃ (sk : BaseElement) (path : List (PathStep BaseElement)), path.length = depth ∧
      pub.root = fold compress (compress sk 0) path ∧ pub.nullifier = compress sk pub.epoch ∧
      pub.y = sk + pub.nullifier * pub.x := by
  obtain ⟨-, hroot, hnullifier, hy, -, -⟩ := h.asserted
  have ha1 := blockOutput_a1 h
  have hmerkle := blockOutput_merkle h (Nat.le_refl _)
  have hshare := share_eq h
  simp only at hroot hnullifier hy ha1 hmerkle hshare
  refine ⟨trace.sk, trace.path depth, trace.length_path depth, ?_, ?_, ?_⟩
  · rw [← hroot, hmerkle]
  · rw [← hnullifier, ha1]
  · rw [← hy, hshare, hnullifier]

end Rln

end NovaChannel
