import Mathlib
import NovaChannel.Lib.Merkle
import NovaChannel.Rln.Permutation

/-!
# The constraints of a membership proof

The algebraic intermediate representation: the eleven columns, the periodic columns, the
transition constraints between two rows and the assertions on single cells.

* `validateTraceInfo` : the trace shapes a verifier admits;
* `Satisfies` : a trace meets every constraint of a `RlnAir`;
* `transition_iff` : **what the constraints of two neighbouring rows say**, inside a block and at
  its end.
-/

namespace NovaChannel

namespace Rln

/-! ### The layout of a trace -/

/-- `BLOCK_LEN`: one injection row and a row for each step. -/
def blockLen : ℕ := rounds + 1

/-- `num_merkle_blocks`. -/
def numMerkleBlocks (depth : ℕ) : ℕ := depth + 1

/-- `num_blocks`. -/
def numBlocks (depth : ℕ) : ℕ := numMerkleBlocks depth + 2

/-- `trace_length`. -/
def traceLength (depth : ℕ) : ℕ := numBlocks depth * blockLen

/-- `is_power_of_two`. -/
def isPowerOfTwo (n : ℕ) : Bool := decide (2 ^ Nat.log2 n = n)

/-- `is_valid_depth`. -/
def isValidDepth (depth : ℕ) : Bool :=
  decide (numBlocks depth > 2) && isPowerOfTwo (numBlocks depth)

/-- `a1_transition_row`. -/
def a1TransitionRow (depth : ℕ) : ℕ := numMerkleBlocks depth * blockLen - 1
/-- `linearcheck_transition_row`. -/
def linearcheckTransitionRow (depth : ℕ) : ℕ := (numMerkleBlocks depth + 1) * blockLen - 1
/-- `root_row`. -/
def rootRow (depth : ℕ) : ℕ := a1TransitionRow depth
/-- `a1_output_row`. -/
def a1OutputRow (depth : ℕ) : ℕ := linearcheckTransitionRow depth
/-- `y_row`. -/
def yRow (depth : ℕ) : ℕ := linearcheckTransitionRow depth + 1
/-- `a1_input_row`. -/
def a1InputRow (depth : ℕ) : ℕ := a1TransitionRow depth + 1

/-- `TRACE_WIDTH`. -/
abbrev traceWidth : ℕ := 11

/-- One row of a trace: the state, the secret key, the sibling and the selector. -/
abbrev Row (E : Type) : Type := Fin traceWidth → E

/-- `COL_STATE0`. -/
def colState0 : Fin traceWidth := 0
/-- `COL_SK`. -/
def colSk : Fin traceWidth := 8
/-- `COL_SIBLING`. -/
def colSibling : Fin traceWidth := 9
/-- `COL_SELECTOR`. -/
def colSelector : Fin traceWidth := 10

/-- The column of a lane. -/
def colState (lane : Fin 8) : Fin traceWidth := lane.castLE (by decide)

/-- The state in a row. -/
def stateOf {E : Type} (row : Row E) : State E := fun lane => row (colState lane)

/-- A trace: its rows.  Only those below its length matter. -/
abbrev TraceTable : Type := ℕ → Row BaseElement

/-- `PublicInputs`. -/
structure PublicInputs where
  root : BaseElement
  epoch : BaseElement
  x : BaseElement
  y : BaseElement
  nullifier : BaseElement
  deriving DecidableEq

/-- What a proof declares about its trace. -/
structure TraceInfo where
  width : ℕ
  length : ℕ

/-- `validate_trace_info`. -/
def validateTraceInfo (traceInfo : TraceInfo) : Except String Unit :=
  if traceInfo.width ≠ traceWidth then
    .error s!"proof declares a trace width of {traceInfo.width}, not this AIR's {traceWidth}"
  else if traceInfo.length % blockLen ≠ 0 then
    .error (s!"proof declares a trace length of {traceInfo.length}, " ++
      s!"not a multiple of BLOCK_LEN ({blockLen})")
  else
    let blocks := traceInfo.length / blockLen
    if blocks ≤ 2 then
      .error (s!"proof declares a trace length of {traceInfo.length}, " ++
        "too short for even a zero-depth tree")
    else
      let depth := blocks - 3
      if !isValidDepth depth then
        .error (s!"proof declares a trace length of {traceInfo.length}, implying depth {depth}, " ++
          "which is invalid (depth + 3 must be a power of two)")
      else .ok ()

/-! ### The constraints -/

/-- The values of the periodic columns in one row. -/
structure PeriodicValues (E : Type) where
  isLastInBlock : E
  rc : State E
  isLinearOnly : E
  isFull : E
  isPartial : E
  isA1Transition : E
  isLinearcheckTransition : E
  isRow0 : E

/-- One asserted cell. -/
structure Assertion where
  column : Fin traceWidth
  row : ℕ
  value : BaseElement

/-- `RlnAir`: the constraints for given public inputs and a given depth. -/
structure RlnAir where
  pubInputs : PublicInputs
  params : Params
  depth : ℕ

namespace RlnAir

/-- The value of a selector column. -/
def indicator {E : Type} [Zero E] [One E] (p : Prop) [Decidable p] : E := if p then 1 else 0

/-- `get_periodic_column_values`, in one row: the first twelve columns repeat with every block, the
last three with the trace. -/
def periodicValues (air : RlnAir) (row : ℕ) : PeriodicValues BaseElement :=
  let r := row % blockLen
  let t := row % traceLength air.depth
  { isLastInBlock := indicator (r = blockLen - 1)
    rc := if r < rounds then air.params.roundConstants r else fun _ => 0
    isLinearOnly := indicator (r < rounds ∧ stepKindAt r = .linearOnly)
    isFull := indicator (r < rounds ∧ stepKindAt r = .full)
    isPartial := indicator (r < rounds ∧ stepKindAt r = .partialRound)
    isA1Transition := indicator (t = a1TransitionRow air.depth)
    isLinearcheckTransition := indicator (t = linearcheckTransitionRow air.depth)
    isRow0 := indicator (t = 0) }

section Transition

variable {E : Type} [CommRing E] [Algebra BaseElement E]

/-- The round transition of a row: the three possible steps, blended by the selectors. -/
def roundOut (current : Row E) (p : PeriodicValues E) : State E := fun i =>
  p.isLinearOnly * mdsLight (stateOf current) i + p.isFull * fullRound (stateOf current) p.rc i +
    p.isPartial * partialRound (stateOf current) (p.rc 0) i

/-- `evaluate_transition`: the values of the constraints on two neighbouring rows. -/
def evaluateTransition (air : RlnAir) (current next : Row E) (p : PeriodicValues E) : List E :=
  let notLast := 1 - p.isLastInBlock
  let notA1OrLinear := 1 - p.isA1Transition - p.isLinearcheckTransition
  let d1 := notLast * (next colState0 - roundOut current p 0)
  let generic0 := next colSelector * next colSibling + (1 - next colSelector) * current colState0
  let d2 := p.isLastInBlock * notA1OrLinear * (next colState0 - generic0)
  let d3 := p.isA1Transition * (next colState0 - current colSk)
  let xConst := algebraMap BaseElement E air.pubInputs.x
  let d4 := p.isLinearcheckTransition *
    (next colState0 - (current colSk + current colState0 * xConst))
  let e := fun k : Fin 7 => notLast * (next (colState k.succ) - roundOut current p k.succ)
  let generic := fun k : Fin 7 =>
    if k = 0 then next colSelector * current colState0 + (1 - next colSelector) * next colSibling
    else 0
  let f := fun k : Fin 7 => p.isLastInBlock * (next (colState k.succ) - generic k)
  [d1, d2, d3, d4] ++ (List.finRange 7).map e ++ (List.finRange 7).map f ++
    [next colSk - current colSk, current colSelector * (current colSelector - 1),
      p.isRow0 * (current colState0 - current colSk)]

end Transition

/-- `get_assertions`. -/
def getAssertions (air : RlnAir) : List Assertion :=
  (List.finRange 7).map (fun k => ⟨colState k.succ, 0, 0⟩) ++
    [⟨colState0, rootRow air.depth, air.pubInputs.root⟩,
      ⟨colState0, a1OutputRow air.depth, air.pubInputs.nullifier⟩,
      ⟨colState0, yRow air.depth, air.pubInputs.y⟩,
      ⟨colSibling, a1InputRow air.depth, air.pubInputs.epoch⟩,
      ⟨colSelector, a1InputRow air.depth, 0⟩]

/-- The trace meets every transition constraint between its rows and every assertion. -/
structure Satisfies (air : RlnAir) (trace : TraceTable) : Prop where
  transition : ∀ row, row + 1 < traceLength air.depth →
    ∀ v ∈ air.evaluateTransition (trace row) (trace (row + 1)) (air.periodicValues row), v = 0
  assertions : ∀ a ∈ air.getAssertions, trace a.row a.column = a.value

/-! ### What the constraints say -/

section Periodic

variable {air : RlnAir} {row : ℕ}

/-- Inside a block the round selectors blend to the one step of the row. -/
theorem roundOut_periodicValues (current : Row BaseElement) (h : row % blockLen < rounds) :
    roundOut current (air.periodicValues row) = applyStep (stateOf current)
      (stepKindAt (row % blockLen)) (air.params.roundConstants (row % blockLen)) := by
  funext i
  cases hkind : stepKindAt (row % blockLen) <;>
    simp [roundOut, periodicValues, indicator, h, hkind, applyStep]

theorem isLastInBlock_of_lt (h : row % blockLen < rounds) :
    (air.periodicValues row).isLastInBlock = 0 := by
  have hne : row % blockLen ≠ blockLen - 1 := by
    unfold blockLen at h ⊢
    omega
  simp [periodicValues, indicator, hne]

theorem isLastInBlock_of_eq (h : row % blockLen = rounds) :
    (air.periodicValues row).isLastInBlock = 1 := by
  have heq : row % blockLen = blockLen - 1 := h
  simp [periodicValues, indicator, heq]

variable (hrow : row < traceLength air.depth)

include hrow

theorem isA1Transition_eq :
    (air.periodicValues row).isA1Transition = indicator (row = a1TransitionRow air.depth) := by
  simp only [periodicValues, Nat.mod_eq_of_lt hrow]

theorem isLinearcheckTransition_eq : (air.periodicValues row).isLinearcheckTransition =
    indicator (row = linearcheckTransitionRow air.depth) := by
  simp only [periodicValues, Nat.mod_eq_of_lt hrow]

theorem isRow0_eq : (air.periodicValues row).isRow0 = indicator (row = 0) := by
  simp only [periodicValues, Nat.mod_eq_of_lt hrow]

end Periodic

theorem a1TransitionRow_mod (depth : ℕ) : a1TransitionRow depth % blockLen = rounds := by
  unfold a1TransitionRow numMerkleBlocks blockLen rounds halfFullRounds partialRounds
  omega

theorem linearcheckTransitionRow_mod (depth : ℕ) :
    linearcheckTransitionRow depth % blockLen = rounds := by
  unfold linearcheckTransitionRow numMerkleBlocks blockLen rounds halfFullRounds partialRounds
  omega

theorem a1TransitionRow_ne (depth : ℕ) :
    a1TransitionRow depth ≠ linearcheckTransitionRow depth := by
  unfold a1TransitionRow linearcheckTransitionRow numMerkleBlocks blockLen rounds halfFullRounds
    partialRounds
  omega

/-- Lane 0 of the row after a block. -/
def injected0 (air : RlnAir) (row : ℕ) (current next : Row BaseElement) : BaseElement :=
  if row = a1TransitionRow air.depth then current colSk
  else if row = linearcheckTransitionRow air.depth then
    current colSk + current colState0 * air.pubInputs.x
  else next colSelector * next colSibling + (1 - next colSelector) * current colState0

/-- What the transition constraints say about two neighbouring rows. -/
structure Transition (air : RlnAir) (row : ℕ) (current next : Row BaseElement) : Prop where
  /-- Inside a block: one step of the permutation. -/
  step : row % blockLen < rounds → stateOf next = applyStep (stateOf current)
    (stepKindAt (row % blockLen)) (air.params.roundConstants (row % blockLen))
  /-- After a block: the injected input. -/
  inject0 : row % blockLen = rounds → stateOf next 0 = injected0 air row current next
  inject1 : row % blockLen = rounds → stateOf next 1 =
    next colSelector * current colState0 + (1 - next colSelector) * next colSibling
  injectRest : row % blockLen = rounds → ∀ k : Fin 6, stateOf next k.succ.succ = 0
  sk : next colSk = current colSk
  selector : current colSelector = 0 ∨ current colSelector = 1
  row0 : row = 0 → stateOf current 0 = current colSk

theorem evaluateTransition_eq_zero_iff {E : Type} [CommRing E] [Algebra BaseElement E]
    (air : RlnAir) (current next : Row E) (p : PeriodicValues E) :
    (∀ v ∈ air.evaluateTransition current next p, v = 0) ↔
      ((1 - p.isLastInBlock) * (next colState0 - roundOut current p 0) = 0 ∧
        p.isLastInBlock * (1 - p.isA1Transition - p.isLinearcheckTransition) * (next colState0 -
          (next colSelector * next colSibling + (1 - next colSelector) * current colState0)) = 0 ∧
        p.isA1Transition * (next colState0 - current colSk) = 0 ∧
        p.isLinearcheckTransition * (next colState0 - (current colSk +
          current colState0 * algebraMap BaseElement E air.pubInputs.x)) = 0) ∧
      (∀ k : Fin 7,
        (1 - p.isLastInBlock) * (next (colState k.succ) - roundOut current p k.succ) = 0) ∧
      (∀ k : Fin 7, p.isLastInBlock * (next (colState k.succ) - (if k = 0 then
        next colSelector * current colState0 + (1 - next colSelector) * next colSibling
        else 0)) = 0) ∧
      (next colSk - current colSk = 0 ∧ current colSelector * (current colSelector - 1) = 0 ∧
        p.isRow0 * (current colState0 - current colSk) = 0) := by
  simp [evaluateTransition, or_imp, forall_and, and_assoc]

theorem colState_zero : colState 0 = colState0 := rfl

/-- The lanes of a state, lane 0 apart. -/
theorem state_eq_iff {E : Type} {s t : State E} :
    s = t ↔ s 0 = t 0 ∧ ∀ k : Fin 7, s k.succ = t k.succ := by
  rw [funext_iff, Fin.forall_fin_succ]

/-- The selector is a bit: the field has no zero divisors. -/
theorem selector_iff {a : BaseElement} : a * (a - 1) = 0 ↔ a = 0 ∨ a = 1 := by
  rw [mul_eq_zero, sub_eq_zero]

/-- Lane 0 after a block: exactly one of its three constraints applies. -/
theorem inject0_iff (air : RlnAir) {row : ℕ} (hrow : row < traceLength air.depth)
    (current next : Row BaseElement) :
    ((1 - (air.periodicValues row).isA1Transition -
        (air.periodicValues row).isLinearcheckTransition) * (next colState0 -
          (next colSelector * next colSibling + (1 - next colSelector) * current colState0)) = 0 ∧
      (air.periodicValues row).isA1Transition * (next colState0 - current colSk) = 0 ∧
      (air.periodicValues row).isLinearcheckTransition * (next colState0 - (current colSk +
        current colState0 * air.pubInputs.x)) = 0) ↔
      stateOf next 0 = injected0 air row current next := by
  rw [isA1Transition_eq hrow, isLinearcheckTransition_eq hrow, stateOf, colState_zero, injected0]
  by_cases ha : row = a1TransitionRow air.depth
  · have hne := a1TransitionRow_ne air.depth
    simp [indicator, ha, hne, sub_eq_zero]
  · by_cases hl : row = linearcheckTransitionRow air.depth
    · have hne := (a1TransitionRow_ne air.depth).symm
      simp [indicator, hl, hne, sub_eq_zero]
    · simp [indicator, ha, hl, sub_eq_zero]

/-- **What the constraints of two neighbouring rows say.** -/
theorem transition_iff (air : RlnAir) {row : ℕ} (hrow : row < traceLength air.depth)
    (current next : Row BaseElement) :
    (∀ v ∈ air.evaluateTransition current next (air.periodicValues row), v = 0) ↔
      air.Transition row current next := by
  rw [evaluateTransition_eq_zero_iff, selector_iff, sub_eq_zero, isRow0_eq hrow]
  have hrow0 : (indicator (row = 0) * (current colState0 - current colSk) = 0) ↔
      (row = 0 → stateOf current 0 = current colSk) := by
    by_cases h : row = 0
    · simp [indicator, h, sub_eq_zero, stateOf, colState_zero]
    · simp [indicator, h]
  rw [hrow0]
  have hle : row % blockLen ≤ rounds := Nat.lt_succ_iff.1 (Nat.mod_lt _ (Nat.succ_pos _))
  rcases hle.lt_or_eq with hlt | heq
  · -- inside a block
    have hne : row % blockLen ≠ rounds := hlt.ne
    have hna : row ≠ a1TransitionRow air.depth := fun h => hne (h ▸ a1TransitionRow_mod _)
    have hnl : row ≠ linearcheckTransitionRow air.depth :=
      fun h => hne (h ▸ linearcheckTransitionRow_mod _)
    have hstep : (next colState0 = roundOut current (air.periodicValues row) 0 ∧
        ∀ k : Fin 7, next (colState k.succ) =
          roundOut current (air.periodicValues row) k.succ) ↔
        stateOf next = applyStep (stateOf current) (stepKindAt (row % blockLen))
          (air.params.roundConstants (row % blockLen)) := by
      rw [state_eq_iff, roundOut_periodicValues current hlt]
      rfl
    rw [isLastInBlock_of_lt hlt, isA1Transition_eq hrow, isLinearcheckTransition_eq hrow]
    simp only [indicator, hna, hnl, ↓reduceIte, sub_zero, one_mul, zero_mul, sub_eq_zero,
      implies_true, true_and, and_true, ← and_assoc, hstep]
    exact ⟨fun ⟨⟨⟨h1, h2⟩, h3⟩, h4⟩ => ⟨fun _ => h1, fun h => absurd h hne,
      fun h => absurd h hne, fun h => absurd h hne, h2, h3, h4⟩,
      fun h => ⟨⟨⟨h.step hlt, h.sk⟩, h.selector⟩, h.row0⟩⟩
  · -- at the end of a block
    have hnlt : ¬ row % blockLen < rounds := by omega
    have hinject := inject0_iff air hrow current next
    rw [isLastInBlock_of_eq heq]
    simp only [sub_self, zero_mul, one_mul, implies_true, true_and, Algebra.algebraMap_self,
      RingHom.id_apply, hinject, sub_eq_zero]
    rw [Fin.forall_fin_succ]
    simp only [↓reduceIte, Fin.succ_ne_zero]
    exact ⟨fun ⟨h1, ⟨h2, h3⟩, h4, h5, h6⟩ => ⟨fun h => absurd h hnlt, fun _ => h1,
      fun _ => h2, fun _ => h3, h4, h5, h6⟩,
      fun h => ⟨h.inject0 heq, ⟨h.inject1 heq, h.injectRest heq⟩, h.sk, h.selector, h.row0⟩⟩

end RlnAir

end Rln

end NovaChannel
