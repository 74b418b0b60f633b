import Mathlib.Data.Nat.Notation
import Mathlib.Data.List.Basic
import Mathlib.Order.Defs.PartialOrder

/-!
# Cover traffic: the per-slot decision and the grid scheduler

`DummyScheduler.decide` says whether a slot sends, and `GridScheduler` queues real messages and
sends at most one at each tick.  The generator is a state that `Rng.randomBool` advances.

* `GridScheduler.run_eq` : a run is the plain FIFO queue of `heads`, combined slot by slot with the
  draws of the generator: **the draws depend on the number of ticks and on nothing else**;
* `GridScheduler.run_fifo` : every tick has one output, the real messages leave in the order in
  which they came, each exactly once, and the message with `k` others before it leaves at the
  `k + 1`-st tick, whatever is queued meanwhile.
-/

namespace NovaChannel

namespace Dp

/-- The one call that the scheduler makes of a generator: a draw that is `true` with a given
probability. -/
class Rng (P ρ : Type*) where
  /-- The draw, and the generator after it. -/
  randomBool : P → ρ → Bool × ρ

namespace Rng

variable {P ρ : Type*} [Rng P ρ]

/-- The first `n` draws. -/
def draws (p : P) : ℕ → ρ → List Bool
  | 0, _ => []
  | n + 1, rng => (randomBool p rng).1 :: draws p n (randomBool p rng).2

/-- The generator after `n` draws. -/
def after (p : P) : ℕ → ρ → ρ
  | 0, rng => rng
  | n + 1, rng => after p n (randomBool p rng).2

@[simp] theorem length_draws (p : P) (n : ℕ) (rng : ρ) : (draws p n rng).length = n := by
  induction n generalizing rng with
  | zero => rfl
  | succ n ih => simp [draws, ih]

/-- A tape is a generator: the draws come off its front. -/
instance {P : Type*} : Rng P (List Bool) where
  randomBool _ tape := (tape.headD false, tape.tail)

end Rng

/-- What the scheduler computes with an `f64`. -/
class Float64 (P : Type*) where
  zero : P
  isFinite : P → Bool
  /-- The comparison `>=`. -/
  ge : P → P → Bool
  neg : P → P
  exp : P → P

/-- The cover-traffic decision of one slot. -/
structure DummyScheduler (P : Type*) where
  epsilon : P
  /-- The probability of a dummy in an empty slot. -/
  dummyProbability : P

namespace DummyScheduler

/-- `none` where the source panics: `epsilon` is infinite, not a number, or negative. -/
def new {P : Type*} [Float64 P] (epsilon : P) : Option (DummyScheduler P) :=
  if Float64.isFinite epsilon && Float64.ge epsilon Float64.zero then
    some { epsilon, dummyProbability := Float64.exp (Float64.neg epsilon) }
  else none

/-- What `new` sets. -/
theorem dummyProbability_of_new {P : Type*} [Float64 P] {epsilon : P} {s : DummyScheduler P}
    (h : new epsilon = some s) : s.dummyProbability = Float64.exp (Float64.neg epsilon) := by
  unfold new at h
  split at h
  · cases h
    rfl
  · cases h

variable {P ρ : Type*} [Rng P ρ]

/-- Whether the slot sends, and the generator after it. -/
def decide (s : DummyScheduler P) (hasRealMessage : Bool) (rng : ρ) : Bool × ρ :=
  -- drawn in a busy slot too, where the draw is discarded
  let dummy := Rng.randomBool s.dummyProbability rng
  (hasRealMessage || dummy.1, dummy.2)

end DummyScheduler

/-- What one tick transmitted. -/
inductive SlotOutput (M : Type*)
  | real (message : M)
  | dummy
  | silent
  deriving DecidableEq, Repr

namespace SlotOutput

variable {M : Type*}

/-- The real message of a slot, if it sent one. -/
def message? : SlotOutput M → Option M
  | real message => some message
  | dummy => none
  | silent => none

/-- What an outsider sees of a slot. -/
def sent : SlotOutput M → Bool
  | real _ => true
  | dummy => true
  | silent => false

/-- The output of a slot, from the oldest message of the queue and the draw. -/
def ofDraw : Option M → Bool → SlotOutput M
  | some message, _ => real message
  | none, true => dummy
  | none, false => silent

@[simp] theorem message?_ofDraw (head : Option M) (draw : Bool) :
    (ofDraw head draw).message? = head := by
  cases head <;> cases draw <;> rfl

@[simp] theorem sent_ofDraw (head : Option M) (draw : Bool) :
    (ofDraw head draw).sent = (head.isSome || draw) := by
  cases head <;> cases draw <;> rfl

end SlotOutput

/-- The scheduler with its queue of real messages, oldest first. -/
structure GridScheduler (P M : Type*) where
  scheduler : DummyScheduler P
  queue : List M

/-- What happens to a scheduler: a message comes, or a slot begins. -/
inductive Event (M : Type*)
  | enqueue (message : M)
  | tick

/-- How many slots a list of events has. -/
def ticks {M : Type*} : List (Event M) → ℕ
  | [] => 0
  | .enqueue _ :: events => ticks events
  | .tick :: events => ticks events + 1

/-- The messages that come. -/
def enqueued {M : Type*} : List (Event M) → List M
  | [] => []
  | .enqueue message :: events => message :: enqueued events
  | .tick :: events => enqueued events

/-- The plain queue: its oldest message at each tick. -/
def heads {M : Type*} : List M → List (Event M) → List (Option M)
  | _, [] => []
  | queue, .enqueue message :: events => heads (queue ++ [message]) events
  | queue, .tick :: events => queue.head? :: heads queue.tail events

/-- The plain queue after the events. -/
def queueAfter {M : Type*} : List M → List (Event M) → List M
  | queue, [] => queue
  | queue, .enqueue message :: events => queueAfter (queue ++ [message]) events
  | queue, .tick :: events => queueAfter queue.tail events

section Plain

variable {M : Type*}

@[simp] theorem length_heads (queue : List M) (events : List (Event M)) :
    (heads queue events).length = ticks events := by
  induction events generalizing queue with
  | nil => rfl
  | cons event events ih =>
    cases event with
    | enqueue message => exact ih _
    | tick => exact congrArg (· + 1) (ih _)

/-- First in, first out: what leaves, and then what stays, is what was there and then what came. -/
theorem heads_append_queueAfter (queue : List M) (events : List (Event M)) :
    (heads queue events).filterMap id ++ queueAfter queue events = queue ++ enqueued events := by
  induction events generalizing queue with
  | nil => simp [heads, queueAfter, enqueued]
  | cons event events ih =>
    cases event with
    | enqueue message =>
      have h := ih (queue ++ [message])
      rw [List.append_assoc] at h
      exact h
    | tick =>
      have h := ih queue.tail
      cases queue with
      | nil => exact h
      | cons oldest queue =>
        exact congrArg (oldest :: ·) h

/-- A message that `k` others wait before is the oldest one after `k` ticks. -/
theorem heads_get {queue : List M} {events : List (Event M)} {k : ℕ} (hk : k < ticks events)
    (hq : k < queue.length) : (heads queue events)[k]? = some (some queue[k]) := by
  induction events generalizing queue k with
  | nil => exact absurd hk (Nat.not_lt_zero k)
  | cons event events ih =>
    cases event with
    | enqueue message =>
      have hq' : k < (queue ++ [message]).length := by
        rw [List.length_append]
        omega
      have h := ih hk hq'
      rwa [List.getElem_append_left hq] at h
    | tick =>
      cases queue with
      | nil => exact absurd hq (Nat.not_lt_zero k)
      | cons oldest queue =>
        cases k with
        | zero => rfl
        | succ k =>
          have h := ih (Nat.lt_of_succ_lt_succ hk) (Nat.lt_of_succ_lt_succ hq)
          exact h

end Plain

namespace GridScheduler

/-- `none` where the source panics, as for its scheduler. -/
def new {P M : Type*} [Float64 P] (epsilon : P) : Option (GridScheduler P M) :=
  (DummyScheduler.new epsilon).map fun scheduler => { scheduler, queue := [] }

variable {P M ρ : Type*} [Rng P ρ]

/-- `enqueue`: it only adds to the queue. -/
def enqueue (g : GridScheduler P M) (message : M) : GridScheduler P M :=
  { g with queue := g.queue ++ [message] }

/-- How many messages wait. -/
def queueLen (g : GridScheduler P M) : ℕ := g.queue.length

/-- `tick`: the output of the slot, the scheduler and the generator after it. -/
def tick (g : GridScheduler P M) (rng : ρ) : SlotOutput M × GridScheduler P M × ρ :=
  let queued := g.queue.head?
  let send := g.scheduler.decide queued.isSome rng
  let output := if send.1 then
      match queued with
      | some message => .real message
      | none => .dummy
    else .silent
  (output, { g with queue := g.queue.tail }, send.2)

/-- The events in order: the outputs of the ticks, the scheduler and the generator at the end. -/
def run : GridScheduler P M → ρ → List (Event M) → List (SlotOutput M) × GridScheduler P M × ρ
  | g, rng, [] => ([], g, rng)
  | g, rng, .enqueue message :: events => run (g.enqueue message) rng events
  | g, rng, .tick :: events =>
    let slot := g.tick rng
    let rest := run slot.2.1 slot.2.2 events
    (slot.1 :: rest.1, rest.2)

/-- What a tick does: it takes the oldest message, if any, and one draw, in every case. -/
theorem tick_eq (g : GridScheduler P M) (rng : ρ) :
    g.tick rng =
      (.ofDraw g.queue.head? (Rng.randomBool g.scheduler.dummyProbability rng).1,
        { g with queue := g.queue.tail },
        (Rng.randomBool g.scheduler.dummyProbability rng).2) := by
  unfold tick DummyScheduler.decide
  generalize Rng.randomBool g.scheduler.dummyProbability rng = drawn
  generalize g.queue.head? = head
  obtain ⟨draw, rng'⟩ := drawn
  cases head with
  | none => cases draw <;> rfl
  | some message => rfl

/-- **A run is the plain queue and the draws, combined slot by slot**: the queue does not look at
the draws, and how many draws there are, and so the generator at the end, does not depend on what
was queued. -/
theorem run_eq (g : GridScheduler P M) (rng : ρ) (events : List (Event M)) :
    g.run rng events =
      (List.zipWith .ofDraw (heads g.queue events)
          (Rng.draws g.scheduler.dummyProbability (ticks events) rng),
        { g with queue := queueAfter g.queue events },
        Rng.after g.scheduler.dummyProbability (ticks events) rng) := by
  induction events generalizing g rng with
  | nil => rfl
  | cons event events ih =>
    cases event with
    | enqueue message => exact ih _ _
    | tick =>
      rw [run, tick_eq, ih]
      rfl

/-- The real messages of slots are those of the plain queue. -/
theorem filterMap_message? (queued : List (Option M)) (draws : List Bool)
    (h : queued.length = draws.length) :
    (List.zipWith SlotOutput.ofDraw queued draws).filterMap SlotOutput.message? =
      queued.filterMap id := by
  induction queued generalizing draws with
  | nil => rfl
  | cons head queued ih =>
    cases draws with
    | nil => exact absurd h (by simp)
    | cons draw draws =>
      have htail := ih draws (Nat.succ.inj h)
      cases head with
      | none => cases draw <;> exact htail
      | some message => exact congrArg (message :: ·) htail

/-- **Over every run**, with any generator and whenever the messages come: every tick has one
output; the real messages that left, and then the queue, are the queue at the start and then the
messages that came; a message with `k` others before it leaves at the `k + 1`-st tick; and the
generator at the end depends on the number of ticks alone. -/
theorem run_fifo (g : GridScheduler P M) (rng : ρ) (events : List (Event M)) :
    (g.run rng events).1.length = ticks events ∧
      (g.run rng events).1.filterMap SlotOutput.message? ++ (g.run rng events).2.1.queue =
        g.queue ++ enqueued events ∧
      (∀ k (hk : k < g.queue.length), k < ticks events →
        (g.run rng events).1[k]? = some (.real g.queue[k])) ∧
      (g.run rng events).2.2 = Rng.after g.scheduler.dummyProbability (ticks events) rng := by
  rw [run_eq]
  refine ⟨by simp, ?_, fun k hk htick => ?_, rfl⟩
  · rw [filterMap_message? _ _ (by simp)]
    exact heads_append_queueAfter _ _
  · have hdraw : k < (Rng.draws g.scheduler.dummyProbability (ticks events) rng).length := by
      rwa [Rng.length_draws]
    rw [List.getElem?_zipWith, heads_get htick hk, List.getElem?_eq_getElem hdraw]
    rfl

/-- Two messages wait and a third one comes after the first tick: they leave in order, each at its
tick, also when no draw asks for a dummy. -/
theorem run_fifo_sample :
    let g : GridScheduler ℕ ℕ := ⟨⟨0, 1⟩, [10, 20]⟩
    let events : List (Event ℕ) := [.tick, .enqueue 30, .tick, .tick]
    (g.run [false, false, false] events).1[1]? = some (.real 20) ∧
      (g.run [false, false, false] events).1.filterMap SlotOutput.message? = [10, 20, 30] := by
  intro g events
  obtain ⟨-, hfifo, hslot, -⟩ := run_fifo g [false, false, false] events
  have hempty : (g.run [false, false, false] events).2.1.queue = [] := rfl
  rw [hempty, List.append_nil] at hfifo
  exact ⟨hslot 1 (by decide) (by decide), hfifo⟩

end GridScheduler

end Dp

end NovaChannel
