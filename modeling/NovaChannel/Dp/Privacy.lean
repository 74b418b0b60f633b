import Mathlib.Algebra.Order.Ring.Rat
import Mathlib.Algebra.Order.Field.Basic
import Mathlib.Tactic.Linarith
import Mathlib.Tactic.NormNum
import Mathlib.Tactic.Ring
import NovaChannel.Dp.Scheduler

/-!
# What silence and sending tell about the queue

The generator is a tape of independent draws, and an outsider sees which slots sent.  A draw that is
asked for with an `f64` is `true` with the probability `RandomBool` gives it: `(-epsilon).exp()` and
the draws are rounded, so that probability is a parameter, and may be `0` or `1`.

* `law_eq` : the probability of an observation is the product of what each slot gives it, and
  depends on the messages through the busy slots alone;
* `chance_le_iff` : **the likelihood of one run is bounded by that of another exactly when** every
  slot that is busy in the other is busy in the one (or every slot sends), and then the best bound
  is a factor `q⁻¹` for each slot that is busy only in the one, `q` the probability of a dummy;
* `run_privacy` : bounded in both directions, as differential privacy asks, exactly when every slot
  sends or the same slots are busy: silence reveals that nothing was queued.
-/

namespace NovaChannel

namespace Dp

/-- The average of `f` over tapes of `n` independent draws that are `true` with probability `q`. -/
def average {K : Type*} [Ring K] (q : K) : ℕ → (List Bool → K) → K
  | 0, f => f []
  | n + 1, f =>
    q * average q n (fun tape => f (true :: tape)) +
      (1 - q) * average q n (fun tape => f (false :: tape))

theorem average_const {K : Type*} [Ring K] (q : K) (n : ℕ) (c : K) :
    average q n (fun _ => c) = c := by
  induction n with
  | zero => rfl
  | succ n ih =>
    rw [average, ih, ← add_mul, add_sub_cancel, one_mul]

/-- What an outsider sees of a run: which slots sent. -/
def observe {P M ρ : Type*} [Rng P ρ] (g : GridScheduler P M) (rng : ρ)
    (events : List (Event M)) : List Bool :=
  (g.run rng events).1.map SlotOutput.sent

/-- How `random_bool` draws: the probability of `true` for each `f64` that it is given. -/
structure RandomBool (P K : Type*) [Zero K] [One K] [LE K] where
  prob : P → K
  prob_nonneg : ∀ p, 0 ≤ prob p
  prob_le_one : ∀ p, prob p ≤ 1

/-- The probability that the run looks like `observation`. -/
def law {P K M : Type*} [Ring K] [LE K] (drawn : RandomBool P K) (g : GridScheduler P M)
    (events : List (Event M)) (observation : List Bool) : K :=
  average (drawn.prob g.scheduler.dummyProbability) (ticks events) fun tape =>
    if observe g tape events = observation then 1 else 0

/-- Which slots have a real message to send. -/
def busy {M : Type*} (queue : List M) (events : List (Event M)) : List Bool :=
  (heads queue events).map Option.isSome

/-- The chance that a slot, busy or not, looks as it does. -/
def slotChance {K : Type*} [Ring K] (q : K) : Bool → Bool → K
  | true, true => 1
  | true, false => 0
  | false, true => q
  | false, false => 1 - q

/-- The chance of an observation, given which slots are busy. -/
def chance {K : Type*} [Ring K] (q : K) : List Bool → List Bool → K
  | [], [] => 1
  | b :: slots, o :: observation => slotChance q b o * chance q slots observation
  | _, _ => 0

@[simp] theorem length_busy {M : Type*} (queue : List M) (events : List (Event M)) :
    (busy queue events).length = ticks events := by
  simp [busy]

theorem observe_tick {P M : Type*} (g : GridScheduler P M) (draw : Bool) (tape : List Bool)
    (events : List (Event M)) :
    observe g (draw :: tape) (.tick :: events) =
      (g.queue.head?.isSome || draw) ::
        observe { g with queue := g.queue.tail } tape events := by
  unfold observe
  rw [GridScheduler.run, GridScheduler.tick_eq]
  exact congrArg (· :: _) (SlotOutput.sent_ofDraw _ _)

section Law

variable {P K M : Type*} [Ring K]

theorem average_observe_cons (g : GridScheduler P M) (q : K) (n : ℕ) (events : List (Event M))
    (b o : Bool) (observation : List Bool) :
    average q n (fun tape => if b :: observe g tape events = o :: observation then 1 else 0) =
      if b = o then average q n (fun tape => if observe g tape events = observation then 1 else 0)
      else 0 := by
  by_cases h : b = o
  · simp only [h, List.cons.injEq, true_and, if_true]
  · simp only [h, List.cons.injEq, false_and, if_false]
    exact average_const q n 0

/-- **The probability of an observation is a product over the slots**, and the messages matter only
through which slots are busy. -/
theorem law_eq [LE K] (drawn : RandomBool P K) (g : GridScheduler P M) (events : List (Event M))
    (observation : List Bool) :
    law drawn g events observation =
      chance (drawn.prob g.scheduler.dummyProbability) (busy g.queue events) observation := by
  induction events generalizing g observation with
  | nil => cases observation <;> rfl
  | cons event events ih =>
    cases event with
    | enqueue message => exact ih (g.enqueue message) observation
    | tick =>
      have htail := ih { g with queue := g.queue.tail }
      unfold law at htail ⊢
      rw [ticks, average]
      cases observation with
      | nil =>
        simp only [observe_tick, reduceCtorEq, if_false, average_const]
        rw [mul_zero, mul_zero, add_zero]
        rfl
      | cons o observation =>
        simp only [observe_tick, average_observe_cons, htail]
        -- a busy slot sends whatever was drawn
        cases hbusy : g.queue.head?.isSome <;> cases o <;>
          simp [busy, heads, hbusy, chance, slotChance, ← add_mul]

end Law

/-- Every slot that is busy in `b` is busy in `a`. -/
def Covers (a b : List Bool) : Prop := List.Forall₂ (fun x y => y = true → x = true) a b

/-- How many slots are busy in `a` and not in `b`. -/
def extra (a b : List Bool) : ℕ := (List.zipWith (fun x y => x && !y) a b).count true

theorem pow_extra_cons {K : Type*} [Ring K] (q : K) (x y : Bool)
    (a b : List Bool) :
    q ^ extra (x :: a) (y :: b) = q ^ (if x && !y then 1 else 0) * q ^ extra a b := by
  rw [← pow_add]
  congr 1
  simp only [extra, List.zipWith_cons_cons, List.count_cons]
  rw [add_comm]
  cases x <;> cases y <;> rfl

/-- When every slot sends, all runs of one length look the same. -/
theorem chance_one {K : Type*} [Ring K] (a b o : List Bool) (hlen : a.length = b.length) :
    chance (1 : K) a o = chance 1 b o := by
  induction a generalizing b o with
  | nil => rw [List.length_eq_zero_iff.1 hlen.symm]
  | cons x a ih =>
    cases b with
    | nil => exact absurd hlen (by simp)
    | cons y b =>
      cases o with
      | nil => rfl
      | cons z o =>
        rw [chance, chance, ih b o (Nat.succ.inj hlen)]
        cases x <;> cases y <;> cases z <;> simp [slotChance]

theorem Covers.antisymm {a b : List Bool} (h : Covers a b) (h' : Covers b a) : a = b := by
  induction h with
  | nil => rfl
  | @cons x y a b hxy _ ih =>
    cases h' with
    | cons hyx htail => rw [ih htail, Bool.eq_iff_iff.2 ⟨hxy, hyx⟩]

/-- When every slot sends, a run looks like that for certain. -/
theorem chance_one_replicate {K : Type*} [Ring K] (a : List Bool) :
    chance (1 : K) a (List.replicate a.length true) = 1 := by
  induction a with
  | nil => rfl
  | cons x a ih =>
    rw [List.length_cons, List.replicate_succ, chance, ih]
    cases x <;> simp [slotChance]

/-- **Where a slot is busy in `b` alone**, silence in it is impossible in `b`. -/
theorem chance_of_not_covers {K : Type*} [Ring K] (q : K) {a b : List Bool}
    (hlen : a.length = b.length) (h : ¬ Covers a b) : chance q b a = 0 := by
  induction a generalizing b with
  | nil =>
    rw [List.length_eq_zero_iff.1 hlen.symm] at h
    exact absurd .nil h
  | cons x a ih =>
    cases b with
    | nil => exact absurd hlen (by simp)
    | cons y b =>
      by_cases hxy : y = true → x = true
      · -- the slot comes later
        have htail : ¬ Covers a b := fun hcovers => h (.cons hxy hcovers)
        rw [chance, ih (Nat.succ.inj hlen) htail, mul_zero]
      · obtain ⟨rfl, hx⟩ := Classical.not_imp.1 hxy
        obtain rfl : x = false := Bool.eq_false_iff.2 hx
        exact zero_mul _

/-- Where `a` covers `b`, looking like the busy slots of `a` costs `b` a factor `q` for each slot
that is busy in `a` alone. -/
theorem chance_of_covers {K : Type*} [CommRing K] (q : K) {a b : List Bool} (h : Covers a b) :
    chance q b a = chance q a a * q ^ extra a b := by
  induction h with
  | nil => simp [extra]
  | @cons x y a b hxy _ ih =>
    have hslot : slotChance q y x = slotChance q x x * q ^ (if x && !y then 1 else 0) := by
      cases x <;> cases y <;> simp_all [slotChance]
    rw [pow_extra_cons, chance, chance, hslot, ih]
    ring

section Chance

variable {K : Type*} [CommRing K] [LinearOrder K] [IsStrictOrderedRing K] {q C : K}

theorem slotChance_nonneg (h0 : 0 ≤ q) (h1 : q ≤ 1) (b o : Bool) : 0 ≤ slotChance q b o := by
  cases b <;> cases o <;> simp [slotChance, h0, h1]

theorem chance_nonneg (h0 : 0 ≤ q) (h1 : q ≤ 1) (a o : List Bool) : 0 ≤ chance q a o := by
  induction a generalizing o with
  | nil => cases o <;> simp [chance]
  | cons x a ih =>
    cases o with
    | nil => exact le_rfl
    | cons y o => exact mul_nonneg (slotChance_nonneg h0 h1 x y) (ih o)

/-- In one slot, covering costs at most a factor `q`, and only where the slot is busy in one
alone. -/
theorem slotChance_le (h1 : q ≤ 1) {x y : Bool} (h : y = true → x = true) (o : Bool) :
    slotChance q x o * q ^ (if x && !y then 1 else 0) ≤ slotChance q y o := by
  cases x <;> cases y <;> cases o <;> simp_all [slotChance]

/-- Where `a` covers `b`, the likelihood of any observation shrinks by at most a factor `q` for each
slot that is busy in `a` alone. -/
theorem chance_le (h0 : 0 ≤ q) (h1 : q ≤ 1) {a b : List Bool} (h : Covers a b) (o : List Bool) :
    chance q a o * q ^ extra a b ≤ chance q b o := by
  induction h generalizing o with
  | nil => simp [extra]
  | @cons x y a b hxy _ ih =>
    cases o with
    | nil => simp [chance]
    | cons z o =>
      calc chance q (x :: a) (z :: o) * q ^ extra (x :: a) (y :: b)
          = (slotChance q x z * q ^ (if x && !y then 1 else 0)) *
              (chance q a o * q ^ extra a b) := by
            rw [pow_extra_cons, chance]
            ring
        _ ≤ slotChance q y z * chance q b o := by
            refine mul_le_mul (slotChance_le h1 hxy z) (ih o) ?_ (slotChance_nonneg h0 h1 y z)
            exact mul_nonneg (chance_nonneg h0 h1 a o) (pow_nonneg h0 _)

/-- A run looks like its busy slots with positive probability, unless every slot sends. -/
theorem chance_self_pos (h1 : q < 1) (a : List Bool) : 0 < chance q a a := by
  induction a with
  | nil => exact one_pos
  | cons x a ih =>
    refine mul_pos ?_ ih
    cases x
    · exact sub_pos.2 h1
    · exact one_pos

/-- **The best bound on the likelihood ratio, and when there is one.** -/
theorem chance_le_iff (h0 : 0 ≤ q) (h1 : q ≤ 1) {a b : List Bool} (hlen : a.length = b.length) :
    (∀ o, chance q a o ≤ C * chance q b o) ↔
      1 ≤ C * q ^ extra a b ∧ (q = 1 ∨ Covers a b) := by
  rcases eq_or_lt_of_le h1 with rfl | hlt
  · rw [one_pow, mul_one]
    constructor
    · intro hle
      have h := hle (List.replicate a.length true)
      rw [← chance_one a b _ hlen, chance_one_replicate, mul_one] at h
      exact ⟨h, .inl rfl⟩
    · rintro ⟨hC, -⟩ o
      rw [← chance_one a b o hlen]
      exact le_mul_of_one_le_left (chance_nonneg h0 h1 a o) hC
  · have hpos := chance_self_pos hlt a
    constructor
    · intro hle
      have h := hle a
      by_cases hcovers : Covers a b
      · refine ⟨?_, .inr hcovers⟩
        rw [chance_of_covers q hcovers, mul_left_comm] at h
        exact (le_mul_iff_one_le_right hpos).1 h
      · rw [chance_of_not_covers q hlen hcovers, mul_zero] at h
        exact absurd hpos (not_lt.2 h)
    · rintro ⟨hC, hcase⟩ o
      have hcovers : Covers a b := hcase.resolve_left hlt.ne
      have hCpos : 0 ≤ C := by
        by_contra hneg
        have hnonpos : C * q ^ extra a b ≤ 0 :=
          mul_nonpos_of_nonpos_of_nonneg (not_le.1 hneg).le (pow_nonneg h0 _)
        exact absurd (hC.trans hnonpos) (not_le.2 one_pos)
      calc chance q a o
          ≤ chance q a o * (C * q ^ extra a b) :=
            le_mul_of_one_le_right (chance_nonneg h0 h1 a o) hC
        _ = C * (chance q a o * q ^ extra a b) := mul_left_comm _ _ _
        _ ≤ C * chance q b o := mul_le_mul_of_nonneg_left (chance_le h0 h1 hcovers o) hCpos

end Chance

section Epsilon

variable {P K M : Type*} [Float64 P] [CommRing K] [LinearOrder K] [IsStrictOrderedRing K]
variable {epsilon : P} {g g' : GridScheduler P M} {events events' : List (Event M)}

/-- **What an outsider learns from a run**, for the probability `q` with which a dummy is really
drawn: the likelihood of any observation in one run is at most `C` times that in another exactly
when `C` is at least `q⁻¹` for each slot that is busy in the one alone, and no slot is busy in the
other alone, unless `q = 1`; and a bound in both directions, as differential privacy asks, exists
exactly when `q = 1` or the same slots are busy. -/
theorem run_privacy (drawn : RandomBool P K)
    (hnew : DummyScheduler.new epsilon = some g.scheduler)
    (hsame : g'.scheduler = g.scheduler) (hticks : ticks events = ticks events') :
    let q := drawn.prob (Float64.exp (Float64.neg epsilon))
    (∀ C, (∀ observation, law drawn g events observation ≤ C * law drawn g' events' observation) ↔
        1 ≤ C * q ^ extra (busy g.queue events) (busy g'.queue events') ∧
          (q = 1 ∨ Covers (busy g.queue events) (busy g'.queue events'))) ∧
      ((∃ C, ∀ observation, law drawn g events observation ≤ C * law drawn g' events' observation ∧
          law drawn g' events' observation ≤ C * law drawn g events observation) ↔
        q = 1 ∨ busy g.queue events = busy g'.queue events') := by
  intro q
  have hq : drawn.prob g.scheduler.dummyProbability = q := by
    rw [DummyScheduler.dummyProbability_of_new hnew]
  have hlen : (busy g.queue events).length = (busy g'.queue events').length := by
    rw [length_busy, length_busy, hticks]
  simp only [law_eq, hsame, hq]
  generalize busy g.queue events = a at hlen ⊢
  generalize busy g'.queue events' = b at hlen ⊢
  have hiff : ∀ {a b : List Bool} (C : K), a.length = b.length →
      ((∀ o, chance q a o ≤ C * chance q b o) ↔
        1 ≤ C * q ^ extra a b ∧ (q = 1 ∨ Covers a b)) :=
    fun C => chance_le_iff (drawn.prob_nonneg _) (drawn.prob_le_one _)
  refine ⟨fun C => hiff C hlen, ?_, ?_⟩
  · rintro ⟨C, hle⟩
    obtain ⟨-, hcase⟩ := (hiff C hlen).1 fun o => (hle o).1
    obtain ⟨-, hcase'⟩ := (hiff C hlen.symm).1 fun o => (hle o).2
    rcases hcase with hone | hcovers
    · exact .inl hone
    · exact hcase'.imp_right hcovers.antisymm
  · -- the two runs look alike
    intro hcase
    have heq : ∀ o, chance q a o = chance q b o := by
      intro o
      rcases hcase with hone | rfl
      · rw [hone]
        exact chance_one a b o hlen
      · rfl
    exact ⟨1, fun o => by simp [heq o]⟩

end Epsilon

/-- One message, sent in the only slot. -/
def oneMessage : List (Event String) := [.enqueue "hello", .tick]

/-- No message in the only slot. -/
def noMessage : List (Event String) := [.tick]

/-- A finite double. -/
structure Double where
  value : ℚ
  deriving DecidableEq

/-- The exponentials of `-1` and of `-45` as they are rounded; no other is taken here. -/
instance : Float64 Double where
  zero := ⟨0⟩
  isFinite _ := true
  ge a b := b.value ≤ a.value
  neg a := ⟨-a.value⟩
  exp a :=
    if a.value = -1 then ⟨828390857088487 / 2 ^ 51⟩
    else if a.value = -45 then ⟨4756174794650941 / 2 ^ 117⟩
    else ⟨1⟩

/-- `random_bool` compares 64 random bits with the probability. -/
def compareBits : RandomBool Double ℚ where
  prob p := min 1 (max 0 ((p.value * 2 ^ 64).floor / 2 ^ 64))
  prob_nonneg _ := le_min zero_le_one (le_max_left _ _)
  prob_le_one _ := min_le_left _ _

/-- With `epsilon = 1`, one slot with a message is at most 3 times as likely as one without to look
as it does, and nothing bounds the likelihoods of the two in both directions.  With `epsilon = 45` a
dummy is never drawn, and nothing bounds them in this direction either. -/
theorem run_privacy_oneMessage :
    (∃ g : GridScheduler Double String, GridScheduler.new ⟨1⟩ = some g ∧
      (∀ o, law compareBits g oneMessage o ≤ 3 * law compareBits g noMessage o) ∧
      ¬ ∃ C, ∀ o, law compareBits g oneMessage o ≤ C * law compareBits g noMessage o ∧
        law compareBits g noMessage o ≤ C * law compareBits g oneMessage o) ∧
    ∃ g : GridScheduler Double String, GridScheduler.new ⟨45⟩ = some g ∧
      ¬ ∃ C, ∀ o, law compareBits g oneMessage o ≤ C * law compareBits g noMessage o := by
  have hticks : ticks oneMessage = ticks noMessage := rfl
  constructor
  · let g : GridScheduler Double String := ⟨⟨⟨1⟩, ⟨828390857088487 / 2 ^ 51⟩⟩, []⟩
    have hnew : DummyScheduler.new ⟨1⟩ = some g.scheduler := rfl
    have hq : 1 ≤ 3 * compareBits.prob (Float64.exp (Float64.neg ⟨1⟩)) ∧
        compareBits.prob (Float64.exp (Float64.neg ⟨1⟩)) ≠ 1 := by decide +kernel
    obtain ⟨hbound, hboth⟩ := run_privacy compareBits hnew (Eq.refl g.scheduler) hticks
    refine ⟨g, rfl, (hbound 3).2 ⟨?_, .inr (.cons (fun _ => rfl) .nil)⟩, fun h => ?_⟩
    · exact (pow_one (compareBits.prob _)).symm ▸ hq.1
    · rcases hboth.1 h with hone | hsameSlots
      · exact hq.2 hone
      · exact absurd hsameSlots (by decide)
  · let g : GridScheduler Double String := ⟨⟨⟨45⟩, ⟨4756174794650941 / 2 ^ 117⟩⟩, []⟩
    have hnew : DummyScheduler.new ⟨45⟩ = some g.scheduler := rfl
    have hq : compareBits.prob (Float64.exp (Float64.neg ⟨45⟩)) = 0 := by decide +kernel
    obtain ⟨hbound, -⟩ := run_privacy compareBits hnew (Eq.refl g.scheduler) hticks
    refine ⟨g, rfl, ?_⟩
    rintro ⟨C, hle⟩
    obtain ⟨hone, -⟩ := (hbound C).1 hle
    have hextra : extra (busy g.queue oneMessage) (busy g.queue noMessage) = 1 := rfl
    rw [hq, hextra, pow_one, mul_zero] at hone
    exact absurd hone (not_le.2 one_pos)

end Dp

end NovaChannel
