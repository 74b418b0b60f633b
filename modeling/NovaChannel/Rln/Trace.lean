import NovaChannel.Rln.Soundness

/-!
# The trace of an honest prover

`build_trace` lays the permutations out block by block: the commitment, one block for each step of
the authentication path, the nullifier, and the share with its padding.

* `BlockStart`, `blocks` : what each block starts with;
* `rows_satisfies` : **the trace of any key and any path meets every constraint** for the
  public inputs read off it.
-/

namespace NovaChannel

namespace Rln

open Merkle RlnAir TraceTable

/-! ### Building a trace -/

/-- `Witness`. -/
structure Witness where
  sk : BaseElement
  path : List (PathStep BaseElement)

/-- `step_result`. -/
def stepResult (params : Params) (rowInBlock : ℕ) (state : State BaseElement) :
    State BaseElement :=
  if rounds ≤ rowInBlock then state
  else applyStep state (stepKindAt rowInBlock) (params.roundConstants rowInBlock)

/-- The state `r` rows into a block. -/
def runRounds (params : Params) (state : State BaseElement) : ℕ → State BaseElement
  | 0 => state
  | r + 1 => stepResult params r (runRounds params state r)

/-- What the first row of a block holds beside the key. -/
structure BlockStart where
  state : State BaseElement
  sibling : BaseElement
  selector : BaseElement

namespace BlockStart

/-- Lane 0 after the rounds of a block. -/
def output (params : Params) (b : BlockStart) : BaseElement := runRounds params b.state rounds 0

/-- Row `r` of a block.  The sibling and the selector are written in its first row only. -/
def row (params : Params) (sk : BaseElement) (b : BlockStart) (r : ℕ) : Row BaseElement :=
  let s := runRounds params b.state r
  ![s 0, s 1, s 2, s 3, s 4, s 5, s 6, s 7, sk, if r = 0 then b.sibling else 0,
    if r = 0 then b.selector else 0]

end BlockStart

/-- The boundary injection of a path step. -/
def inject (step : PathStep BaseElement) (state0 : BaseElement) : BlockStart :=
  match step.side with
  | .left => ⟨hashInput state0 step.sibling, step.sibling, 0⟩
  | .right => ⟨hashInput step.sibling state0, step.sibling, 1⟩

/-- The blocks of the path. -/
def merkleBlocks (params : Params) (b : BlockStart) : List (PathStep BaseElement) → List BlockStart
  | [] => [b]
  | step :: path => b :: merkleBlocks params (inject step (b.output params)) path

/-- The block of the commitment. -/
def leafBlock (sk : BaseElement) : BlockStart := ⟨hashInput sk 0, 0, 0⟩

/-- The block of the nullifier. -/
def a1Block (sk epoch : BaseElement) : BlockStart := ⟨hashInput sk epoch, epoch, 0⟩

/-- The block of the share. -/
def shareBlock (y : BaseElement) : BlockStart := ⟨hashInput y 0, 0, 0⟩

/-- The blocks of a trace. -/
def blocks (params : Params) (witness : Witness) (epoch x : BaseElement) : List BlockStart :=
  merkleBlocks params (leafBlock witness.sk) witness.path ++
    [a1Block witness.sk epoch,
      shareBlock (witness.sk + (a1Block witness.sk epoch).output params * x)]

/-- The rows of a trace. -/
def rows (params : Params) (witness : Witness) (epoch x : BaseElement) : TraceTable := fun row =>
  match (blocks params witness epoch x)[row / blockLen]? with
  | some b => b.row params witness.sk (row % blockLen)
  | none => 0

/-- `build_trace`. -/
def buildTrace (params : Params) (witness : Witness) (epoch x : BaseElement) :
    Except String TraceTable :=
  let depth := witness.path.length
  if isValidDepth depth then .ok (rows params witness epoch x)
  else .error (s!"path length {depth} is invalid: depth + 3 must be a power of two " ++
    "(valid depths: 1, 5, 13, 29, 61, ...)")

/-! ### Its rows -/

theorem rounds_pos : 0 < rounds := by decide

section Rows

variable {params : Params} {witness : Witness} {epoch x : BaseElement}

/-- The rounds of a block are the permutation. -/
theorem runRounds_eq (state : State BaseElement) {r : ℕ} (hr : r ≤ rounds) :
    runRounds params state r = stateAfter params state r := by
  induction r with
  | zero => rfl
  | succ r ih =>
    have hnot : ¬ rounds ≤ r := by omega
    rw [runRounds, stepResult, if_neg hnot, stateAfter, ih (Nat.le_of_succ_le hr)]

theorem BlockStart.output_eq (params : Params) (b : BlockStart) {left right : BaseElement}
    (hb : b.state = hashInput left right) : b.output params = compress2 params left right := by
  rw [output, runRounds_eq _ (Nat.le_refl rounds), hb, compress2_eq]

@[simp] theorem BlockStart.stateOf_row (sk : BaseElement) (b : BlockStart) (r : ℕ) :
    stateOf (b.row params sk r) = runRounds params b.state r := by
  funext lane
  fin_cases lane <;> rfl

@[simp] theorem BlockStart.row_sk (sk : BaseElement) (b : BlockStart) (r : ℕ) :
    b.row params sk r colSk = sk := rfl

@[simp] theorem BlockStart.row_sibling (sk : BaseElement) (b : BlockStart) :
    b.row params sk 0 colSibling = b.sibling := rfl

@[simp] theorem BlockStart.row_selector (sk : BaseElement) (b : BlockStart) (r : ℕ) :
    b.row params sk r colSelector = if r = 0 then b.selector else 0 := rfl

@[simp] theorem BlockStart.row_state0 (sk : BaseElement) (b : BlockStart) (r : ℕ) :
    b.row params sk r colState0 = runRounds params b.state r 0 := rfl

/-- Row `r` of a block of the trace. -/
theorem rows_eq {block r : ℕ} {b : BlockStart} (hr : r ≤ rounds)
    (hb : (blocks params witness epoch x)[block]? = some b) :
    rows params witness epoch x (blockStart block + r) = b.row params witness.sk r := by
  have hlt : r < blockLen := Nat.lt_succ_of_le hr
  have hdiv : (blockStart block + r) / blockLen = block := by
    rw [blockStart, Nat.add_comm, Nat.add_mul_div_right _ _ blockLen_pos,
      Nat.div_eq_of_lt hlt, Nat.zero_add]
  rw [rows, hdiv, hb, mod_blockLen block hlt]

theorem length_merkleBlocks (b : BlockStart) (path : List (PathStep BaseElement)) :
    (merkleBlocks params b path).length = path.length + 1 := by
  induction path generalizing b with
  | nil => rfl
  | cons step path ih => simp [merkleBlocks, ih]

theorem getElem?_merkleBlocks_zero (b : BlockStart) (path : List (PathStep BaseElement)) :
    (merkleBlocks params b path)[0]? = some b := by cases path <;> rfl

/-- A block of the path is injected by the block before it. -/
theorem getElem?_merkleBlocks_succ (b : BlockStart) (path : List (PathStep BaseElement)) {k : ℕ}
    {c : BlockStart} {step : PathStep BaseElement}
    (hc : (merkleBlocks params b path)[k]? = some c) (hstep : path[k]? = some step) :
    (merkleBlocks params b path)[k + 1]? = some (inject step (c.output params)) := by
  induction path generalizing b k with
  | nil => simp at hstep
  | cons s path ih =>
    rw [merkleBlocks, List.getElem?_cons_succ]
    cases k with
    | zero =>
      rw [merkleBlocks, List.getElem?_cons_zero, Option.some.injEq] at hc
      rw [List.getElem?_cons_zero, Option.some.injEq] at hstep
      rw [getElem?_merkleBlocks_zero, hc, hstep]
    | succ k =>
      rw [merkleBlocks, List.getElem?_cons_succ] at hc
      rw [List.getElem?_cons_succ] at hstep
      exact ih _ hc hstep

theorem length_blocks :
    (blocks params witness epoch x).length = numBlocks witness.path.length := by
  simp [blocks, length_merkleBlocks, numBlocks, numMerkleBlocks]

theorem getElem?_blocks_merkle (params : Params) (epoch x : BaseElement) {k : ℕ} (hk : k ≤ witness.path.length) :
    (blocks params witness epoch x)[k]? =
      (merkleBlocks params (leafBlock witness.sk) witness.path)[k]? := by
  rw [blocks, List.getElem?_append_left (by rw [length_merkleBlocks]; omega)]

theorem getElem?_blocks_a1 (params : Params) (witness : Witness) (epoch x : BaseElement) :
    (blocks params witness epoch x)[witness.path.length + 1]? =
    some (a1Block witness.sk epoch) := by
  rw [blocks, List.getElem?_append_right (by rw [length_merkleBlocks]), length_merkleBlocks,
    Nat.sub_self, List.getElem?_cons_zero]

theorem getElem?_blocks_share (params : Params) (witness : Witness) (epoch x : BaseElement) :
    (blocks params witness epoch x)[witness.path.length + 2]? =
    some (shareBlock (witness.sk + compress2 params witness.sk epoch * x)) := by
  have hone : witness.path.length + 2 - (witness.path.length + 1) = 1 := by omega
  rw [blocks, List.getElem?_append_right (by rw [length_merkleBlocks]; omega),
    length_merkleBlocks, hone, (a1Block witness.sk epoch).output_eq params rfl]
  rfl

/-- What the blocks of the path compute. -/
theorem output_merkleBlocks (params : Params) (sk : BaseElement) {path : List (PathStep BaseElement)} {k : ℕ}
    (hk : k ≤ path.length) :
    ∃ b left right, (merkleBlocks params (leafBlock sk) path)[k]? = some b ∧
      b.state = hashInput left right ∧ compress2 params left right =
        fold (compress2 params) (compress2 params sk 0) (path.take k) := by
  induction k with
  | zero => exact ⟨leafBlock sk, sk, 0, getElem?_merkleBlocks_zero _ _, rfl, by simp⟩
  | succ k ih =>
    obtain ⟨b, left, right, hb, hstate, hout⟩ := ih (Nat.le_of_succ_le hk)
    have hstep : path[k]? = some path[k] := List.getElem?_eq_getElem hk
    have hnext := getElem?_merkleBlocks_succ _ path hb hstep
    rw [b.output_eq params hstate, hout] at hnext
    have htake : path.take (k + 1) = path.take k ++ [path[k]] := by
      rw [List.take_add_one, hstep]
      rfl
    refine ⟨_, ((path[k]).inputs _).1, ((path[k]).inputs _).2, hnext, ?_, by
      rw [htake, fold_append, fold_cons, fold_nil, climb]⟩
    generalize path[k] = step
    obtain ⟨sibling, side⟩ := step
    cases side <;> rfl

end Rows

/-! ### It meets the constraints -/

section Complete

variable {params : Params} {witness : Witness} {epoch x : BaseElement}

/-- The public inputs of a trace. -/
def publicInputs (params : Params) (witness : Witness) (epoch x : BaseElement) : PublicInputs where
  root := fold (compress2 params) (compress2 params witness.sk 0) witness.path
  epoch := epoch
  x := x
  y := witness.sk + compress2 params witness.sk epoch * x
  nullifier := compress2 params witness.sk epoch

/-- Its constraints. -/
abbrev airOf (params : Params) (witness : Witness) (epoch x : BaseElement) : RlnAir :=
  ⟨publicInputs params witness epoch x, params, witness.path.length⟩

/-- A row inside a block. -/
theorem transition_inside {block r : ℕ} {b : BlockStart} (hr : r < rounds)
    (hb : (blocks params witness epoch x)[block]? = some b)
    (hsel : b.selector = 0 ∨ b.selector = 1)
    (hfirst : block = 0 → b.state 0 = witness.sk) :
    (airOf params witness epoch x).Transition (blockStart block + r)
      (rows params witness epoch x (blockStart block + r))
      (rows params witness epoch x (blockStart block + r + 1)) := by
  have hmod := mod_blockLen block (Nat.lt_succ_of_lt hr)
  have hne : (blockStart block + r) % blockLen ≠ rounds := by
    rw [hmod]
    exact hr.ne
  have hnext := rows_eq (r := r + 1) (Nat.succ_le_of_lt hr) hb
  rw [← Nat.add_assoc] at hnext
  rw [rows_eq hr.le hb, hnext]
  refine ⟨fun _ => ?_, fun h => absurd h hne, fun h => absurd h hne, fun h => absurd h hne,
    by rw [b.row_sk, b.row_sk], ?_, fun h => ?_⟩
  · rw [hmod, b.stateOf_row, b.stateOf_row, runRounds_eq _ hr.le, runRounds_eq _ hr, stateAfter]
  · rw [b.row_selector]
    split_ifs
    exacts [hsel, .inl rfl]
  · obtain ⟨hstart, rfl⟩ := Nat.add_eq_zero_iff.1 h
    have hblock : block = 0 := by
      rw [blockStart] at hstart
      exact (Nat.mul_eq_zero.1 hstart).resolve_right blockLen_pos.ne'
    rw [b.stateOf_row, b.row_sk]
    exact hfirst hblock

/-- The row at the end of a block. -/
theorem transition_end {block : ℕ} {b c : BlockStart}
    (hb : (blocks params witness epoch x)[block]? = some b)
    (hc : (blocks params witness epoch x)[block + 1]? = some c) {left right : BaseElement}
    (hstate : c.state = hashInput left right)
    (hleft : left = (airOf params witness epoch x).injected0 (blockStart block + rounds)
      (b.row params witness.sk rounds) (c.row params witness.sk 0))
    (hright : right = c.selector * b.output params + (1 - c.selector) * c.sibling) :
    (airOf params witness epoch x).Transition (blockStart block + rounds)
      (rows params witness epoch x (blockStart block + rounds))
      (rows params witness epoch x (blockStart block + rounds + 1)) := by
  have hmod := mod_blockLen block rounds_lt
  have hnlt : ¬ (blockStart block + rounds) % blockLen < rounds := by
    rw [hmod]
    exact lt_irrefl _
  have hnext := rows_eq (r := 0) (Nat.zero_le _) hc
  rw [Nat.add_zero, blockStart_succ] at hnext
  rw [rows_eq (Nat.le_refl _) hb, hnext]
  have hstate' : stateOf (c.row params witness.sk 0) = hashInput left right := by
    rw [c.stateOf_row, ← hstate]
    rfl
  have hselector : b.row params witness.sk rounds colSelector = 0 := by
    rw [b.row_selector, if_neg rounds_pos.ne']
  refine ⟨fun h => absurd h hnlt, fun _ => ?_, fun _ => ?_, fun _ k => ?_,
    by rw [b.row_sk, c.row_sk], .inl hselector, fun h => ?_⟩
  · rw [hstate', ← hleft]
    rfl
  · rw [hstate', c.row_selector, if_pos rfl, b.row_state0, c.row_sibling]
    exact hright
  · rw [hstate']
    fin_cases k <;> rfl
  · exact absurd h (Nat.add_pos_right _ rounds_pos).ne'

theorem selector_inject (step : PathStep BaseElement) (a : BaseElement) :
    (inject step a).selector = 0 ∨ (inject step a).selector = 1 := by
  obtain ⟨sibling, side⟩ := step
  cases side
  exacts [.inl rfl, .inr rfl]

theorem selector_merkleBlocks {b : BlockStart} (path : List (PathStep BaseElement))
    (hb : b.selector = 0 ∨ b.selector = 1) :
    ∀ c ∈ merkleBlocks params b path, c.selector = 0 ∨ c.selector = 1 := by
  induction path generalizing b with
  | nil =>
    intro c hc
    rwa [List.mem_singleton.1 hc]
  | cons step path ih =>
    intro c hc
    rcases List.mem_cons.1 hc with rfl | hc
    exacts [hb, ih (selector_inject _ _) c hc]

/-- The selectors are bits. -/
theorem selector_blocks :
    ∀ b ∈ blocks params witness epoch x, b.selector = 0 ∨ b.selector = 1 := by
  intro b hb
  rcases List.mem_append.1 hb with hb | hb
  · exact selector_merkleBlocks _ (.inl rfl) b hb
  · simp only [List.mem_cons, List.not_mem_nil, or_false] at hb
    rcases hb with rfl | rfl <;> exact .inl rfl

/-- The end of a block that a step of the path follows. -/
theorem transition_merkle {block : ℕ} (hblock : block < witness.path.length) :
    (airOf params witness epoch x).Transition (blockStart block + rounds)
      (rows params witness epoch x (blockStart block + rounds))
      (rows params witness epoch x (blockStart block + rounds + 1)) := by
  obtain ⟨b, -, -, hb, -, -⟩ := output_merkleBlocks params witness.sk hblock.le
  have hstep : witness.path[block]? = some witness.path[block] := List.getElem?_eq_getElem hblock
  have hc := getElem?_merkleBlocks_succ _ witness.path hb hstep
  rw [← getElem?_blocks_merkle params epoch x hblock.le] at hb
  rw [← getElem?_blocks_merkle params epoch x hblock] at hc
  have hna : blockStart block + rounds ≠ a1TransitionRow witness.path.length := by
    rw [a1TransitionRow_eq]
    exact fun he => absurd (blockStart_injective he) (by omega)
  have hnl : blockStart block + rounds ≠ linearcheckTransitionRow witness.path.length := by
    rw [linearcheckTransitionRow_eq]
    exact fun he => absurd (blockStart_injective he) (by omega)
  generalize witness.path[block] = step at hc
  have hstate : (inject step (b.output params)).state =
      hashInput (step.inputs (b.output params)).1 (step.inputs (b.output params)).2 := by
    obtain ⟨sibling, side⟩ := step
    cases side <;> rfl
  refine transition_end hb hc hstate ?_ ?_
  · rw [injected0, if_neg hna, if_neg hnl, BlockStart.row_selector, if_pos rfl,
      BlockStart.row_sibling, b.row_state0, ← BlockStart.output]
    obtain ⟨sibling, side⟩ := step
    cases side <;> simp [inject, PathStep.inputs]
  · obtain ⟨sibling, side⟩ := step
    cases side <;> simp [inject, PathStep.inputs]

/-- The end of the last block of the path. -/
theorem transition_a1 :
    (airOf params witness epoch x).Transition (blockStart witness.path.length + rounds)
      (rows params witness epoch x (blockStart witness.path.length + rounds))
      (rows params witness epoch x (blockStart witness.path.length + rounds + 1)) := by
  obtain ⟨b, -, -, hb, -, -⟩ :=
    output_merkleBlocks params witness.sk (Nat.le_refl witness.path.length)
  rw [← getElem?_blocks_merkle params epoch x (Nat.le_refl _)] at hb
  refine transition_end hb (getElem?_blocks_a1 params witness epoch x) rfl ?_ ?_
  · rw [injected0, if_pos (a1TransitionRow_eq _).symm, b.row_sk]
  · simp [a1Block]

/-- The end of the nullifier's block. -/
theorem transition_share :
    (airOf params witness epoch x).Transition (blockStart (witness.path.length + 1) + rounds)
      (rows params witness epoch x (blockStart (witness.path.length + 1) + rounds))
      (rows params witness epoch x (blockStart (witness.path.length + 1) + rounds + 1)) := by
  have hna : blockStart (witness.path.length + 1) + rounds ≠
      a1TransitionRow witness.path.length := by
    rw [a1TransitionRow_eq]
    exact fun he => absurd (blockStart_injective he) (by omega)
  have hout := (a1Block witness.sk epoch).output_eq params rfl
  refine transition_end (getElem?_blocks_a1 params witness epoch x)
    (getElem?_blocks_share params witness epoch x) rfl ?_ ?_
  · rw [injected0, if_neg hna, if_pos (linearcheckTransitionRow_eq _).symm, BlockStart.row_sk,
      BlockStart.row_state0, ← BlockStart.output, hout]
    rfl
  · simp [shareBlock]

/-- The first row of a block of the trace. -/
theorem rows_first {block : ℕ} {b : BlockStart}
    (hb : (blocks params witness epoch x)[block]? = some b) :
    rows params witness epoch x (blockStart block) = b.row params witness.sk 0 := by
  have hrow := rows_eq (r := 0) (Nat.zero_le _) hb
  rwa [Nat.add_zero] at hrow

/-- Lane 0 of its last row. -/
theorem rows_output {block : ℕ} {b : BlockStart} {left right : BaseElement}
    (hb : (blocks params witness epoch x)[block]? = some b)
    (hstate : b.state = hashInput left right) :
    rows params witness epoch x (blockStart block + rounds) colState0 =
      compress2 params left right := by
  rw [rows_eq (Nat.le_refl _) hb, b.row_state0, ← BlockStart.output, b.output_eq params hstate]

theorem getElem?_blocks_leaf (params : Params) (witness : Witness) (epoch x : BaseElement) :
    (blocks params witness epoch x)[0]? = some (leafBlock witness.sk) := by
  rw [getElem?_blocks_merkle params epoch x (Nat.zero_le _), getElem?_merkleBlocks_zero]

/-- The root in the trace. -/
theorem rows_root (params : Params) (witness : Witness) (epoch x : BaseElement) :
    rows params witness epoch x (rootRow witness.path.length) colState0 =
      fold (compress2 params) (compress2 params witness.sk 0) witness.path := by
  obtain ⟨b, left, right, hb, hstate, hroot⟩ :=
    output_merkleBlocks params witness.sk (Nat.le_refl witness.path.length)
  rw [List.take_length] at hroot
  rw [← getElem?_blocks_merkle params epoch x (Nat.le_refl _)] at hb
  rw [rootRow_eq, rows_output hb hstate, hroot]

theorem rows_assertions :
    ∀ a ∈ (airOf params witness epoch x).getAssertions,
      rows params witness epoch x a.row a.column = a.value := by
  have hleaf : rows params witness epoch x 0 = (leafBlock witness.sk).row params witness.sk 0 := by
    have hrow := rows_first (getElem?_blocks_leaf params witness epoch x)
    rwa [blockStart, Nat.zero_mul] at hrow
  simp only [getAssertions, List.forall_mem_append, List.forall_mem_cons, List.forall_mem_map,
    List.mem_finRange, forall_const, hleaf, rows_root, a1OutputRow_eq, yRow_eq, a1InputRow_eq,
    rows_first (getElem?_blocks_a1 params witness epoch x),
    rows_first (getElem?_blocks_share params witness epoch x),
    rows_output (getElem?_blocks_a1 params witness epoch x) rfl]
  refine ⟨fun k => ?_, rfl, rfl, rfl, rfl, rfl, fun a ha => (by cases ha)⟩
  fin_cases k <;> rfl

/-- **The trace of any key and any path meets every constraint.** -/
theorem rows_satisfies (params : Params) (witness : Witness) (epoch x : BaseElement) :
    (airOf params witness epoch x).Satisfies (rows params witness epoch x) := by
  constructor
  · intro row hrow
    refine (transition_iff _ (Nat.lt_of_succ_lt hrow) _ _).2 ?_
    -- where the row is in its block
    have hmod : row % blockLen < blockLen := Nat.mod_lt _ blockLen_pos
    have hblock : row / blockLen < numBlocks witness.path.length :=
      Nat.div_lt_of_lt_mul (by
        rw [Nat.mul_comm]
        exact Nat.lt_of_succ_lt hrow)
    have hsplit : blockStart (row / blockLen) + row % blockLen = row := by
      rw [blockStart, Nat.mul_comm, Nat.div_add_mod]
    obtain ⟨b, hb⟩ : ∃ b, (blocks params witness epoch x)[row / blockLen]? = some b :=
      ⟨_, List.getElem?_eq_getElem (by rwa [length_blocks])⟩
    generalize row / blockLen = block at *
    generalize row % blockLen = r at *
    subst hsplit
    rcases (Nat.lt_succ_iff.1 hmod).lt_or_eq with hlt | rfl
    · refine transition_inside hlt hb (selector_blocks b (List.mem_of_getElem? hb)) ?_
      rintro rfl
      rw [getElem?_blocks_leaf, Option.some.injEq] at hb
      rw [← hb]
      rfl
    · -- the next row starts another block
      have hnext : block + 1 < numBlocks witness.path.length := by
        by_contra hge
        have hlen : blockStart (block + 1) = traceLength witness.path.length := by
          rw [blockStart, traceLength, show block + 1 = numBlocks witness.path.length by omega]
        rw [blockStart_succ] at hlen
        exact absurd hrow (by rw [hlen]; exact lt_irrefl _)
      have hcases : block < witness.path.length ∨ block = witness.path.length ∨
          block = witness.path.length + 1 := by
        unfold numBlocks numMerkleBlocks at hnext
        omega
      rcases hcases with hlt | rfl | rfl
      exacts [transition_merkle hlt, transition_a1, transition_share]
  · exact rows_assertions

/-- The key and the path behind the trace. -/
theorem sk_rows (params : Params) (witness : Witness) (epoch x : BaseElement) :
    (rows params witness epoch x).sk = witness.sk := by
  have hrow := rows_first (getElem?_blocks_leaf params witness epoch x)
  rw [blockStart, Nat.zero_mul] at hrow
  rw [TraceTable.sk, hrow, BlockStart.row_sk]

theorem path_rows (params : Params) (witness : Witness) (epoch x : BaseElement) :
    (rows params witness epoch x).path witness.path.length = witness.path := by
  refine List.ext_getElem (length_path _ _) fun k hk hlen => ?_
  obtain ⟨b, -, -, hb, -, -⟩ := output_merkleBlocks params witness.sk hlen.le
  have hstep : witness.path[k]? = some witness.path[k] := List.getElem?_eq_getElem hlen
  have hc := getElem?_merkleBlocks_succ _ witness.path hb hstep
  rw [← getElem?_blocks_merkle params epoch x hlen] at hc
  simp only [path, List.getElem_map, List.getElem_range, stepInto, rows_first hc,
    BlockStart.row_selector, BlockStart.row_sibling, if_true]
  generalize witness.path[k] = step
  obtain ⟨sibling, side⟩ := step
  cases side <;> simp [inject]

end Complete

/-- The honest trace of the key 1 with one step of path. -/
theorem sound_of_satisfies_single :
    ∃ (sk : BaseElement) (path : List (PathStep BaseElement)), path.length = 1 ∧
      (publicInputs .new ⟨1, [⟨5, .right⟩]⟩ 2 3).root = fold compress (compress sk 0) path ∧
      (publicInputs .new ⟨1, [⟨5, .right⟩]⟩ 2 3).nullifier =
        compress sk (publicInputs .new ⟨1, [⟨5, .right⟩]⟩ 2 3).epoch ∧
      (publicInputs .new ⟨1, [⟨5, .right⟩]⟩ 2 3).y =
        sk + (publicInputs .new ⟨1, [⟨5, .right⟩]⟩ 2 3).nullifier *
          (publicInputs .new ⟨1, [⟨5, .right⟩]⟩ 2 3).x :=
  sound_of_satisfies (rows_satisfies .new ⟨1, [⟨5, .right⟩]⟩ 2 3)

end Rln

end NovaChannel
