import NovaChannel.Handshake.Generic
import NovaChannel.Lib.Hybrid
import NovaChannel.Lib.Machine
import NovaChannel.Transport.Generic

/-!
# The handshake and the transport under attack

Any number of parties, each running any number of sessions in either role and exchanging records
over them, on a network that is the adversary: it delivers what it derives from the public
identities, from everything that was sent, and from the secrets that leaked so far.  It also chooses
what is sent, except for fresh messages.  Any secret may leak at any time.

* `World`, `Action`, `World.step` : the sessions of all parties, and what may happen;
* `attackedMachine`, `Possible` : the runs;
* `derives_sessionKey` : the keys of a session are derivable exactly when its secret is.
-/

namespace NovaChannel

namespace HybridHandshake

namespace Attacked

open Crypto Term
open X3dh (EstablishedSession)

/-- One of the two sides of a handshake. -/
inductive Side
  /-- The `i`-th initiator session. -/
  | initiator (i : ℕ)
  /-- The `j`-th responder session. -/
  | responder (j : ℕ)
  deriving DecidableEq

namespace Side

/-- A number for every side. -/
def code : Side → ℕ
  | initiator i => 2 * i
  | responder j => 2 * j + 1

theorem code_injective : Function.Injective code := by
  intro a b h
  cases a <;> cases b <;> simp only [code] at h <;> first | omega | (congr 1; omega)

end Side

/-- The values drawn at random. -/
inductive Name
  | identity (party : ℕ)
  /-- Of the `i`-th initiator session. -/
  | initiatorDh (i : ℕ)
  | initiatorKem (i : ℕ)
  /-- Of the `j`-th responder session. -/
  | responderDh (j : ℕ)
  | responderKem (j : ℕ)
  /-- Drawn by the adversary. -/
  | adversary (k : ℕ)
  /-- The message that a side sends as its `seq`-th. -/
  | payload (s : Side) (seq : ℕ)
  deriving DecidableEq

namespace Name

/-- A number for every name. -/
def code : Name → ℕ
  | identity party => 7 * party
  | initiatorDh i => 7 * i + 1
  | initiatorKem i => 7 * i + 2
  | responderDh j => 7 * j + 3
  | responderKem j => 7 * j + 4
  | adversary k => 7 * k + 5
  | payload s seq => 7 * Nat.pair s.code seq + 6

theorem code_injective : Function.Injective code := by
  intro a b h
  cases a with
  | payload s seq =>
    cases b with
    | payload s' seq' =>
      have hpair : Nat.pair s.code seq = Nat.pair s'.code seq' := by
        simp only [code] at h
        omega
      obtain ⟨hs, hseq⟩ := Nat.pair_eq_pair.1 hpair
      rw [Side.code_injective hs, hseq]
    | _ => simp only [code] at h; omega
  | _ => cases b <;> simp only [code] at h <;> first | omega | (congr 1; omega)

instance : Named Name := ⟨code, code_injective⟩

end Name

/-- The byte strings of a symbolic run. -/
abbrev Bytes := Term Name

/-- The signing key of a party. -/
def identityKey (party : ℕ) : Bytes := .name (.identity party)

/-- The identity of a party. -/
def identityOf (party : ℕ) : Bytes := publicIdentity (identityKey party)

/-! ### Runs -/

/-- A call of the initiator's `complete`, with what had leaked before it. -/
structure InitiatorCall where
  party : ℕ
  msg2 : Bytes
  result : Result (Bytes × EstablishedSession Bytes)
  leakedBefore : List Name

/-- An initiator session; `complete` consumes its state. -/
structure InitiatorSession where
  state : InitiatorHandshakeState Bytes
  call : Option InitiatorCall

/-- A call of the responder's `complete`, with what had leaked before it. -/
structure ResponderCall where
  msg3 : Bytes
  result : Result (EstablishedSession Bytes)
  leakedBefore : List Name

/-- A responder session: the message it received and the one it sent. -/
structure ResponderSession where
  party : ℕ
  msg1 : Bytes
  msg2 : Bytes
  state : ResponderHandshakeState Bytes
  call : Option ResponderCall

/-- The transport of a session: one direction each. -/
structure End where
  sender : DataPlane.Sender Bytes
  receiver : DataPlane.Receiver Bytes

/-- The transport of a new session. -/
def End.new (est : EstablishedSession Bytes) : End := ⟨.new est.sender, .new est.receiver⟩

/-- A message that a side sealed. -/
structure Sealing where
  side : Side
  seq : ℕ
  plaintext : Bytes

/-- A message that a side opened, with what had leaked before it. -/
structure Opening where
  side : Side
  seq : ℕ
  plaintext : Bytes
  leakedBefore : List Name

/-- All sessions of all parties, what was sent, and what leaked. -/
structure World where
  initiators : List InitiatorSession
  responders : List ResponderSession
  net : List Bytes
  leaked : List Name
  /-- The transports in use. -/
  ends : Side → Option End
  sealings : List Sealing
  openings : List Opening

/-- What the adversary or a party does next. -/
inductive Action
  | start (expected : Option Bytes)
  | complete (i party : ℕ) (msg2 : Bytes)
  | respond (party : ℕ) (expected : Option Bytes) (msg1 : Bytes)
  | finish (j : ℕ) (msg3 : Bytes)
  /-- A party signs for another purpose, under its own context. -/
  | signElsewhere (party : ℕ) (label : String) (fields : List Bytes)
  /-- A side sends this message, or a fresh one. -/
  | send (s : Side) (plaintext : Option Bytes)
  | receive (s : Side) (record : Bytes)
  | leak (n : Name)

/-- The message that a successful `complete` returns. -/
def sentBy (result : Result (Bytes × EstablishedSession Bytes)) : List Bytes :=
  (result.toOption.map Prod.fst).toList

namespace World

/-- The state of a new initiator session. -/
def startState (i : ℕ) (expected : Option Bytes) : InitiatorHandshakeState Bytes :=
  (initiatorStart expected (.name (.initiatorDh i)) (.name (.initiatorKem i))).1

/-- `initiator_start`. -/
def start (w : World) (expected : Option Bytes) : World :=
  { w with
    initiators := w.initiators ++ [⟨startState w.initiators.length expected, none⟩]
    net := frame (startState w.initiators.length expected).msg1 :: w.net }

/-- `complete` of an initiator session. -/
def complete (w : World) (i party : ℕ) (msg2 : Bytes) (session : InitiatorSession) : World :=
  let result := session.state.complete (identityKey party) msg2
  { w with
    initiators := w.initiators.set i { session with call := some ⟨party, msg2, result, w.leaked⟩ }
    net := sentBy result ++ w.net }

/-- `responder_respond`; a session begins when it succeeds. -/
def respond (w : World) (party : ℕ) (expected : Option Bytes) (msg1 : Bytes) : World :=
  match responderRespond (identityKey party) expected (.name (.responderDh w.responders.length))
      (.name (.responderKem w.responders.length)) msg1 with
  | .ok (state, msg2) => { w with
      responders := w.responders ++ [⟨party, msg1, msg2, state, none⟩]
      net := msg2 :: w.net }
  | .error _ => w

/-- `complete` of a responder session. -/
def finish (w : World) (j : ℕ) (msg3 : Bytes) (session : ResponderSession) : World :=
  { w with
    responders := w.responders.set j
      { session with call := some ⟨msg3, session.state.complete msg3, w.leaked⟩ } }

/-- The session of a side that completed. -/
def session (w : World) : Side → Option (EstablishedSession Bytes)
  | .initiator i => do
    let session ← w.initiators[i]?
    let call ← session.call
    let (_, est) ← call.result.toOption
    pure est
  | .responder j => do
    let session ← w.responders[j]?
    let call ← session.call
    call.result.toOption

/-- The transport of a side; it is new when the session is. -/
def endOf (w : World) (s : Side) : Option End := (w.ends s).or ((w.session s).map .new)

/-- `seal`, over the transport of a side. -/
def send (w : World) (s : Side) (e : End) (plaintext : Bytes) : World :=
  match e.sender.seal plaintext with
  | (.ok record, sender) => { w with
      ends := Function.update w.ends s (some { e with sender := sender })
      sealings := ⟨s, e.sender.nextSeq, plaintext⟩ :: w.sealings
      net := record :: w.net }
  | (.error _, sender) =>
    { w with ends := Function.update w.ends s (some { e with sender := sender }) }

/-- `open`, over the transport of a side. -/
def receive (w : World) (s : Side) (e : End) (record : Bytes) : World :=
  match e.receiver.openRecord record with
  | (.ok plaintext, receiver) => { w with
      ends := Function.update w.ends s (some { e with receiver := receiver })
      openings := ⟨s, DataPlane.seqOf record, plaintext, w.leaked⟩ :: w.openings }
  | (.error _, receiver) =>
    { w with ends := Function.update w.ends s (some { e with receiver := receiver }) }

/-- One step. -/
def step (w : World) : Action → Option World
  | .start expected => some (w.start expected)
  | .complete i party msg2 => do
    let session ← w.initiators[i]?
    if session.call.isSome then none else some (w.complete i party msg2 session)
  | .respond party expected msg1 => some (w.respond party expected msg1)
  | .finish j msg3 => do
    let session ← w.responders[j]?
    if session.call.isSome then none else some (w.finish j msg3 session)
  | .signElsewhere party label fields =>
    if label = "novachannel v1" then none
    else some { w with net := sign (identityKey party) (frame (.lit label :: fields)) :: w.net }
  | .send s plaintext => do
    let e ← w.endOf s
    some (w.send s e (plaintext.getD (.name (.payload s e.sender.nextSeq))))
  | .receive s record => do
    let e ← w.endOf s
    some (w.receive s e record)
  | .leak n => some { w with leaked := n :: w.leaked }

/-- What the adversary knows: the public identities, what leaked, and what was sent. -/
def knowledge (w : World) : Set Bytes :=
  {t | (∃ party, t = identityOf party) ∨ (∃ n ∈ w.leaked, t = .name n) ∨ t ∈ w.net}

end World

/-- The `i`-th initiator session. -/
def World.InitiatorAt (w : World) (i : ℕ) (a : InitiatorSession) : Prop := w.initiators[i]? = some a

/-- The `j`-th responder session. -/
def World.ResponderAt (w : World) (j : ℕ) (b : ResponderSession) : Prop := w.responders[j]? = some b

/-- What a call returned, if it returned. -/
theorem toOption_eq_some {α : Type} {x : Result α} {r : α} (h : x.toOption = some r) : x = .ok r := by
  cases x with
  | error e => cases h
  | ok r' => rw [Option.some.inj h]

section Sessions

variable {w : World} {i j : ℕ} {est : EstablishedSession Bytes}

theorem World.session_initiator : w.session (.initiator i) = some est ↔
    ∃ a c msg3, w.InitiatorAt i a ∧ a.call = some c ∧ c.result = .ok (msg3, est) := by
  constructor
  · intro h
    obtain ⟨a, ha, h⟩ := Option.bind_eq_some_iff.1 h
    obtain ⟨c, hc, h⟩ := Option.bind_eq_some_iff.1 h
    obtain ⟨⟨msg3, est'⟩, hr, h⟩ := Option.bind_eq_some_iff.1 h
    obtain rfl := Option.some.inj h
    exact ⟨a, c, msg3, ha, hc, toOption_eq_some hr⟩
  · rintro ⟨a, c, msg3, ha, hc, hr⟩
    refine Option.bind_eq_some_iff.2 ⟨a, ha, Option.bind_eq_some_iff.2 ⟨c, hc, ?_⟩⟩
    rw [hr]
    rfl

theorem World.session_responder : w.session (.responder j) = some est ↔
    ∃ b d, w.ResponderAt j b ∧ b.call = some d ∧ d.result = .ok est := by
  constructor
  · intro h
    obtain ⟨b, hb, h⟩ := Option.bind_eq_some_iff.1 h
    obtain ⟨d, hd, h⟩ := Option.bind_eq_some_iff.1 h
    exact ⟨b, d, hb, hd, toOption_eq_some h⟩
  · rintro ⟨b, d, hb, hd, hr⟩
    refine Option.bind_eq_some_iff.2 ⟨b, hb, Option.bind_eq_some_iff.2 ⟨d, hd, ?_⟩⟩
    rw [hr]
    rfl

end Sessions

/-- Runs from nothing. -/
def attackedMachine : Machine World Action where
  init w := w = ⟨[], [], [], [], fun _ => none, [], []⟩
  step := World.step

/-- The adversary delivers what it derives, and chooses messages that it derives. -/
def Possible (w : World) : Action → Prop
  | .complete _ _ msg2 => Derives w.knowledge msg2
  | .respond _ _ msg1 => Derives w.knowledge msg1
  | .finish _ msg3 => Derives w.knowledge msg3
  | .send _ plaintext => ∀ m ∈ plaintext, Derives w.knowledge m
  | .receive _ record => Derives w.knowledge record
  | _ => True

/-! ### The keys of a session -/

section Keys

variable {leaked : Name → Prop} {K : Set Bytes} {ss peer : Bytes} {T : List Bytes}

/-- The keys that a session holds. -/
def sessionKeys (est : EstablishedSession Bytes) : List Bytes :=
  [est.sender.key, est.receiver.key, est.ratchetRoot]

/-- Every key of a session is expanded from one secret, and maybe cut. -/
theorem sessionKeys_finalizeKeys (isInitiator : Bool) {key : Bytes}
    (h : key ∈ sessionKeys (finalizeKeys ss T isInitiator peer)) :
    ∃ n label, key = hkdfExpand n (sessionPrk ss T) (.lit label) ∨
      ∃ i j, key = slice i j (hkdfExpand n (sessionPrk ss T) (.lit label)) := by
  cases isInitiator <;>
    simp only [sessionKeys, finalizeKeys, Bool.false_eq_true, ↓reduceIte, List.mem_cons,
      List.not_mem_nil, or_false] at h <;>
    rcases h with rfl | rfl | rfl <;>
    first | exact ⟨_, _, .inr ⟨_, _, rfl⟩⟩ | exact ⟨_, _, .inl rfl⟩

theorem hybridSafe_of_expand {n : ℕ} {label : String}
    (h : (Policy.leakPolicy leaked).HybridSafe (hkdfExpand n (sessionPrk ss T) (.lit label))) :
    (Policy.leakPolicy leaked).HybridSafe ss := by
  have hprk := (((Policy.opaque_leakPolicy leaked).hybridSafe_fn rfl (by simp) (by simp)).1 h).1
  exact (((Policy.opaque_leakPolicy leaked).hybridSafe_fn rfl (by simp) (by simp)).1 hprk).2

/-- Whoever may have a key of a session may have its secret. -/
theorem hybridSafe_of_sessionKey (isInitiator : Bool) {key : Bytes}
    (hkey : key ∈ sessionKeys (finalizeKeys ss T isInitiator peer))
    (h : (Policy.leakPolicy leaked).HybridSafe key) : (Policy.leakPolicy leaked).HybridSafe ss := by
  obtain ⟨n, label, rfl | ⟨i, j, rfl⟩⟩ := sessionKeys_finalizeKeys isInitiator hkey
  · exact hybridSafe_of_expand h
  · exact hybridSafe_of_expand
      (((Policy.opaque_leakPolicy leaked).hybridSafe_fn rfl (by simp) (by simp)).1 h).1

/-- **A session's keys are derivable exactly when its shared secret is**, once its transcript is
public: a key that is derived is mixed from a secret that may be handed out. -/
theorem derives_sessionKey {P : Prop} (isInitiator : Bool)
    (hK : ∀ t ∈ K, (Policy.leakPolicy leaked).HybridSafe t) (hT : ∀ t ∈ T, Derives K t)
    (hsafe : (Policy.leakPolicy leaked).HybridSafe ss → P) (hderives : P → Derives K ss)
    {key : Bytes} (hkey : key ∈ sessionKeys (finalizeKeys ss T isInitiator peer)) :
    Derives K key ↔ P := by
  obtain ⟨n, label, hform⟩ := sessionKeys_finalizeKeys isInitiator hkey
  have hexpand : P → Derives K (hkdfExpand n (sessionPrk ss T) (.lit label)) := fun hP =>
    .fn rfl (.fn rfl (.fn rfl (.list hT) .nil) (hderives hP)) (.lit _)
  constructor
  · intro hd
    exact hsafe (hybridSafe_of_sessionKey isInitiator hkey (Policy.hybridSafe_of_derives hK hd))
  · intro hP
    rcases hform with rfl | ⟨i, j, rfl⟩
    · exact hexpand hP
    · exact .fn rfl (hexpand hP) .nil

end Keys

end Attacked

end HybridHandshake

end NovaChannel
