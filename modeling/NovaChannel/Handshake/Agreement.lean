import NovaChannel.Canonical
import NovaChannel.Handshake.Session
import NovaChannel.Lib.Machine

/-!
# Agreement on the handshake

Any number of sessions, interleaved in any way, over a network that supplies every message.  The
identities may sign for other purposes as well.  What is assumed of signatures is that a delivered
signature of an honest identity is one it made, on that message (`Unforged`).

* `World.Ok` : every signature made has its purpose and its session, as an invariant;
* `mutual_agreement` : **a session with a pinned honest peer has a partner**, which saw the same
  messages; both hold the same keys;
* `honest_run` : two sessions that the network connects complete.
-/

namespace NovaChannel

namespace Handshake

open Wire Transport

section Protocol

variable [WireKeys] [Primitives]

/-! ### Sessions -/

/-- A call of the initiator's `complete`. -/
structure InitiatorCall where
  identity : Identity
  msg2 : Bytes
  result : Result (Bytes × EstablishedSession)

/-- An initiator session; `complete` consumes its state. -/
structure InitiatorSession where
  state : InitiatorHandshakeState
  call : Option InitiatorCall

/-- A call of the responder's `complete`. -/
structure ResponderCall where
  msg3 : Bytes
  result : Result EstablishedSession

/-- A responder session: the message it received and the one it sent. -/
structure ResponderSession where
  identity : Identity
  msg1 : Bytes
  msg2 : Bytes
  state : ResponderHandshakeState
  call : Option ResponderCall

/-- A signature that an identity made. -/
structure Signing where
  identity : PublicIdentity
  message : Bytes
  signature : HybridSignature

/-- All sessions of all parties, and all signatures made. -/
structure World where
  initiators : List InitiatorSession
  responders : List ResponderSession
  signed : List Signing

/-- What the network or a party does next. -/
inductive Action
  /-- A party starts a session. -/
  | start (expected : Option PublicIdentity) (x25519Secret mlKemSecret : Bytes)
  /-- A second message is delivered to the `i`-th initiator session. -/
  | complete (i : ℕ) (identity : Identity) (random msg2 : Bytes)
  /-- A first message is delivered to a party. -/
  | respond (identity : Identity) (expected : Option PublicIdentity) (coins : ResponderCoins)
      (msg1 : Bytes)
  /-- A third message is delivered to the `j`-th responder session. -/
  | finish (j : ℕ) (msg3 : Bytes)
  /-- An identity signs for another purpose. -/
  | signElsewhere (identity : Identity) (random : Bytes) (content : SignedContent)

/-- The signature that `Identity::sign` makes. -/
def Identity.signing (identity : Identity) (random message : Bytes) : List Signing :=
  (Primitives.trySign identity.keys random message).toList.map fun sig =>
    ⟨identity.public, message, sig⟩

namespace World

/-- A new initiator session. -/
def start (w : World) (state : InitiatorHandshakeState) : World :=
  { w with initiators := w.initiators ++ [⟨state, none⟩] }

/-- More signatures are made. -/
def sign (w : World) (signings : List Signing) : World :=
  { w with signed := w.signed ++ signings }

/-- `complete` of an initiator session that was not completed before. -/
def complete (w : World) (i : ℕ) (identity : Identity) (random msg2 : Bytes)
    (session : InitiatorSession) : World where
  initiators := w.initiators.set i
    { session with call := some ⟨identity, msg2, session.state.complete identity random msg2⟩ }
  responders := w.responders
  signed := w.signed ++
    match session.state.accept identity msg2 with
    | .ok (_, _, transcript) => identity.signing random transcript
    | .error _ => []

/-- `responder_respond`; a session begins when it succeeds. -/
def respond (w : World) (identity : Identity) (expected : Option PublicIdentity)
    (coins : ResponderCoins) (msg1 : Bytes) : World where
  initiators := w.initiators
  responders := w.responders ++
    match responderRespond identity expected coins msg1 with
    | .ok (state, msg2) => [⟨identity, msg1, msg2, state, none⟩]
    | .error _ => []
  signed := w.signed ++
    match answer identity coins msg1 with
    | .ok (signed, _) => identity.signing coins.signing (transcript1 msg1 signed.write)
    | .error _ => []

/-- `complete` of a responder session that was not completed before. -/
def finish (w : World) (j : ℕ) (msg3 : Bytes) (session : ResponderSession) : World where
  initiators := w.initiators
  responders := w.responders.set j
    { session with call := some ⟨msg3, session.state.complete msg3⟩ }
  signed := w.signed

/-- One step. -/
def step (w : World) : Action → Option World
  | .start expected x25519Secret mlKemSecret =>
    some (w.start (initiatorStart expected x25519Secret mlKemSecret).1)
  | .complete i identity random msg2 => do
    let session ← w.initiators[i]?
    if session.call.isSome then none else some (w.complete i identity random msg2 session)
  | .respond identity expected coins msg1 => some (w.respond identity expected coins msg1)
  | .finish j msg3 => do
    let session ← w.responders[j]?
    if session.call.isSome then none
    else some (w.finish j msg3 session)
  | .signElsewhere identity random content =>
    match content.purpose with
    | .handshake => none
    | _ => some (w.sign (identity.signing random content.signedBytes))

end World

/-- Runs from nothing. -/
def handshakeMachine : Machine World Action where
  init w := w = ⟨[], [], []⟩
  step := World.step

/-- Nobody forges: where a delivered signature verifies under an honest identity, the identity made
it, on the very message it is verified on. -/
def Unforged (honest : PublicIdentity → Prop) (w : World) : Action → Prop
  | .complete i _ _ msg2 => ∀ session signed signedBytes sig, w.initiators[i]? = some session →
      readMsg2 msg2 = .ok (signed, signedBytes, sig) → honest signed.identity →
      signed.identity.verify (transcript1 session.state.msg1Bytes signedBytes) sig = .ok () →
      ⟨signed.identity, transcript1 session.state.msg1Bytes signedBytes, sig⟩ ∈ w.signed
  | .finish j msg3 => ∀ session identity signedBytes sig sigBytes,
      w.responders[j]? = some session →
      readMsg3 msg3 = .ok (identity, signedBytes, sig, sigBytes) → honest identity →
      identity.verify (transcript2 session.state.msg1Bytes session.state.msg2Full signedBytes) sig =
        .ok () →
      ⟨identity, transcript2 session.state.msg1Bytes session.state.msg2Full signedBytes, sig⟩ ∈
        w.signed
  | _ => True

/-! ### Where signatures come from -/

/-- An initiator session: how it was started, how it was completed, and that the signature of an
honest peer was made. -/
structure InitiatorSession.Ok (honest : PublicIdentity → Prop) (made : List Signing)
    (a : InitiatorSession) : Prop where
  started : ∃ expected x k, a.state = (initiatorStart expected x k).1
  called : ∀ c, a.call = some c → ∃ random, c.result = a.state.complete c.identity random c.msg2
  checked : ∀ c msg3 est, a.call = some c → c.result = .ok (msg3, est) → honest est.peer →
    ∃ signed sig, c.msg2 = Msg2Signed.write signed ++ HybridSignature.write sig ∧
      ⟨est.peer, transcript1 a.state.msg1Bytes signed.write, sig⟩ ∈ made

/-- A responder session: how it was answered, how it was completed, and that the signature of an
honest peer was made. -/
structure ResponderSession.Ok (honest : PublicIdentity → Prop) (made : List Signing)
    (b : ResponderSession) : Prop where
  answered : ∃ expected coins,
    responderRespond b.identity expected coins b.msg1 = .ok (b.state, b.msg2)
  called : ∀ c, b.call = some c → c.result = b.state.complete c.msg3
  checked : ∀ c est, b.call = some c → c.result = .ok est → honest est.peer →
    ∃ sig, c.msg3 = est.peer.write ++ HybridSignature.write sig ∧
      ⟨est.peer, transcript2 b.msg1 b.msg2 est.peer.write, sig⟩ ∈ made

/-- The session or the other purpose that a signature was made for. -/
inductive Signing.Origin (w : World) (e : Signing) : Prop
  | responder (b : ResponderSession) (mem : b ∈ w.responders) (signed : Msg2Signed)
      (identity : b.identity.public = e.identity)
      (message : e.message = transcript1 b.msg1 signed.write)
      (msg2 : b.msg2 = signed.write ++ e.signature.write)
  | initiator (a : InitiatorSession) (mem : a ∈ w.initiators) (c : InitiatorCall)
      (call : a.call = some c) (identity : c.identity.public = e.identity)
      (message : e.message = transcript2 a.state.msg1Bytes c.msg2 e.identity.write)
      (est : EstablishedSession)
      (result : c.result = .ok (e.identity.write ++ e.signature.write, est))
  | elsewhere (content : SignedContent) (purpose : content.purpose ≠ .handshake)
      (message : e.message = content.signedBytes)

/-- The invariant. -/
structure World.Ok (honest : PublicIdentity → Prop) (w : World) : Prop where
  initiators : ∀ a ∈ w.initiators, a.Ok honest w.signed
  responders : ∀ b ∈ w.responders, b.Ok honest w.signed
  signed : ∀ e ∈ w.signed, e.Origin w

section Invariant

variable {honest : PublicIdentity → Prop} {w w' : World}

theorem InitiatorSession.Ok.mono {made made' : List Signing} {a : InitiatorSession}
    (h : a.Ok honest made) (hsub : made ⊆ made') : a.Ok honest made' where
  started := h.started
  called := h.called
  checked c msg3 est hc hr hp := by
    obtain ⟨signed, sig, hmsg, hmem⟩ := h.checked c msg3 est hc hr hp
    exact ⟨signed, sig, hmsg, hsub hmem⟩

theorem ResponderSession.Ok.mono {made made' : List Signing} {b : ResponderSession}
    (h : b.Ok honest made) (hsub : made ⊆ made') : b.Ok honest made' where
  answered := h.answered
  called := h.called
  checked c est hc hr hp := by
    obtain ⟨sig, hmsg, hmem⟩ := h.checked c est hc hr hp
    exact ⟨sig, hmsg, hsub hmem⟩

/-- A signature's origin stays: responder sessions keep their messages, and completed initiator
sessions stay as they are. -/
theorem Signing.Origin.mono {e : Signing} (h : e.Origin w)
    (hr : ∀ b ∈ w.responders, ∃ b' ∈ w'.responders,
      b'.identity = b.identity ∧ b'.msg1 = b.msg1 ∧ b'.msg2 = b.msg2)
    (hi : ∀ a ∈ w.initiators, a.call.isSome → a ∈ w'.initiators) : e.Origin w' := by
  cases h with
  | responder b mem signed identity message msg2 =>
    obtain ⟨b', hmem, hid, h1, h2⟩ := hr b mem
    exact .responder b' hmem signed (by rw [hid, identity]) (by rw [h1, message])
      (by rw [h2, msg2])
  | initiator a mem c call identity message est result =>
    exact .initiator a (hi a mem (by rw [call, Option.isSome_some])) c call identity message est
      result
  | elsewhere content purpose message => exact .elsewhere content purpose message

theorem mem_signing {identity : Identity} {random message : Bytes} {e : Signing}
    (h : e ∈ identity.signing random message) :
    e.identity = identity.public ∧ e.message = message ∧
      Primitives.trySign identity.keys random message = some e.signature := by
  obtain ⟨sig, hsig, rfl⟩ := List.mem_map.1 h
  exact ⟨rfl, rfl, Option.mem_toList.1 hsig⟩

/-- A new initiator session. -/
theorem World.Ok.start (h : w.Ok honest) (expected : Option PublicIdentity) (x k : Bytes) :
    (w.start (initiatorStart expected x k).1).Ok honest where
  initiators a ha := by
    rcases List.mem_append.1 ha with ha | ha
    · exact h.initiators a ha
    · obtain rfl := List.mem_singleton.1 ha
      exact ⟨⟨expected, x, k, rfl⟩, fun c hc => (by cases hc), fun c _ _ hc => (by cases hc)⟩
  responders := h.responders
  signed e he := (h.signed e he).mono (fun b hb => ⟨b, hb, rfl, rfl, rfl⟩)
    fun a ha _ => List.mem_append_left _ ha

/-- A signature for another purpose. -/
theorem World.Ok.sign (h : w.Ok honest) {content : SignedContent}
    (hpurpose : content.purpose ≠ .handshake) (identity : Identity) (random : Bytes) :
    (w.sign (identity.signing random content.signedBytes)).Ok honest where
  initiators a ha := (h.initiators a ha).mono (List.subset_append_left _ _)
  responders b hb := (h.responders b hb).mono (List.subset_append_left _ _)
  signed e he := by
    rcases List.mem_append.1 he with he | he
    · exact (h.signed e he).mono (fun b hb => ⟨b, hb, rfl, rfl, rfl⟩) fun a ha _ => ha
    · exact .elsewhere content hpurpose (mem_signing he).2.1

/-- A first message is answered. -/
theorem World.Ok.respond (h : w.Ok honest) (identity : Identity)
    (expected : Option PublicIdentity) (coins : ResponderCoins) (msg1 : Bytes) :
    (w.respond identity expected coins msg1).Ok honest where
  initiators a ha := (h.initiators a ha).mono (List.subset_append_left _ _)
  responders b hb := by
    rcases List.mem_append.1 hb with hb | hb
    · exact (h.responders b hb).mono (List.subset_append_left _ _)
    · cases hres : responderRespond identity expected coins msg1 with
      | error e =>
        rw [hres] at hb
        cases hb
      | ok r =>
        rw [hres] at hb
        obtain rfl := List.mem_singleton.1 hb
        exact ⟨⟨expected, coins, hres⟩, fun c hc => (by cases hc), fun c _ hc => (by cases hc)⟩
  signed e he := by
    rcases List.mem_append.1 he with he | he
    · exact (h.signed e he).mono
        (fun b hb => ⟨b, List.mem_append_left _ hb, rfl, rfl, rfl⟩) fun a ha _ => ha
    · cases hanswer : answer identity coins msg1 with
      | error e =>
        rw [hanswer] at he
        cases he
      | ok r =>
        obtain ⟨signed, ss⟩ := r
        rw [hanswer] at he
        obtain ⟨hid, hmsg, hsign⟩ := mem_signing he
        -- what was signed was sent
        have hres : responderRespond identity expected coins msg1 =
            .ok (⟨msg1, signed.write ++ e.signature.write, ss, expected⟩,
              signed.write ++ e.signature.write) :=
          respond_eq_ok.2 ⟨signed, ss, e.signature, hanswer, hsign, rfl, rfl⟩
        refine .responder ⟨identity, msg1, signed.write ++ e.signature.write,
          ⟨msg1, signed.write ++ e.signature.write, ss, expected⟩, none⟩
          (List.mem_append_right _ ?_) signed hid.symm hmsg rfl
        rw [hres]
        exact List.mem_singleton_self _

omit [Primitives] in
/-- A session that is not the one replaced stays. -/
theorem mem_set_of_call {l : List InitiatorSession} {i : ℕ} {session session' a : InitiatorSession}
    (hget : l[i]? = some session) (hcall : session.call = none) (ha : a ∈ l)
    (hsome : a.call.isSome) : a ∈ l.set i session' := by
  obtain ⟨j, hj⟩ := List.mem_iff_getElem?.1 ha
  have hne : i ≠ j := by
    rintro rfl
    obtain rfl := Option.some.inj (hget.symm.trans hj)
    rw [hcall] at hsome
    cases hsome
  exact List.mem_iff_getElem?.2 ⟨j, by rw [List.getElem?_set_ne hne, hj]⟩

/-- A second message is delivered. -/
theorem World.Ok.complete (h : w.Ok honest) {i : ℕ} {identity : Identity} {random msg2 : Bytes}
    {session : InitiatorSession} (hget : w.initiators[i]? = some session)
    (hcall : session.call = none)
    (hunforged : Unforged honest w (.complete i identity random msg2)) :
    (w.complete i identity random msg2 session).Ok honest where
  initiators a ha := by
    have hsub : w.signed ⊆ (w.complete i identity random msg2 session).signed :=
      List.subset_append_left _ _
    rcases List.mem_or_eq_of_mem_set ha with ha | rfl
    · exact (h.initiators a ha).mono hsub
    · refine ⟨(h.initiators session (List.mem_of_getElem? hget)).started, ?_, ?_⟩
      · rintro c hc
        obtain rfl := Option.some.inj hc
        exact ⟨random, rfl⟩
      · rintro c msg3 est hc hr hp
        obtain rfl := Option.some.inj hc
        obtain ⟨peer, ss, transcript, sig3, haccept, -, -, rfl⟩ := complete_eq_ok.1 hr
        obtain ⟨signed, sig, hbytes, rfl, -, hverify, -⟩ := accept_eq_ok.1 haccept
        exact ⟨signed, sig, hbytes, hsub (hunforged session signed _ sig hget
          (readMsg2_eq_ok.2 ⟨hbytes, rfl⟩) hp hverify)⟩
  responders b hb := (h.responders b hb).mono (List.subset_append_left _ _)
  signed e he := by
    have hi : ∀ a ∈ w.initiators, a.call.isSome →
        a ∈ (w.complete i identity random msg2 session).initiators := fun a ha hsome =>
      mem_set_of_call hget hcall ha hsome
    rcases List.mem_append.1 he with he | he
    · exact (h.signed e he).mono (fun b hb => ⟨b, hb, rfl, rfl, rfl⟩) hi
    · cases haccept : session.state.accept identity msg2 with
      | error e =>
        rw [haccept] at he
        cases he
      | ok r =>
        obtain ⟨peer, ss, transcript⟩ := r
        rw [haccept] at he
        obtain ⟨hid, hmsg, hsign⟩ := mem_signing he
        obtain ⟨-, -, -, -, -, -, -, htranscript⟩ := accept_eq_ok.1 haccept
        -- the session that signed is complete
        have hres := complete_eq_ok.2 ⟨peer, ss, transcript, e.signature, haccept, hsign, rfl, rfl⟩
        refine .initiator _ (List.mem_iff_getElem?.2 ⟨i, List.getElem?_set_self
          (List.getElem?_eq_some_iff.1 hget).1⟩) _ rfl hid.symm ?_ _ (by rw [hid]; exact hres)
        rw [hmsg, htranscript, hid]

/-- A third message is delivered. -/
theorem World.Ok.finish (h : w.Ok honest) {j : ℕ} {msg3 : Bytes} {session : ResponderSession}
    (hget : w.responders[j]? = some session) (hunforged : Unforged honest w (.finish j msg3)) :
    (w.finish j msg3 session).Ok honest where
  initiators := h.initiators
  responders b hb := by
    have hsession := h.responders session (List.mem_of_getElem? hget)
    rcases List.mem_or_eq_of_mem_set hb with hb | rfl
    · exact h.responders b hb
    · refine ⟨hsession.answered, ?_, ?_⟩
      · rintro c hc
        obtain rfl := Option.some.inj hc
        rfl
      · rintro c est hc hr hp
        obtain rfl := Option.some.inj hc
        obtain ⟨identity, sig, hbytes, -, hverify, rfl⟩ := finish_eq_ok.1 hr
        obtain ⟨expected, coins, hrespond⟩ := hsession.answered
        obtain ⟨signed, ss, sig2, -, -, hmsg2, hstate⟩ := respond_eq_ok.1 hrespond
        have hmem := hunforged session identity _ sig _ hget
          (readMsg3_eq_ok.2 ⟨hbytes, rfl, rfl⟩) hp hverify
        rw [hstate] at hmem
        exact ⟨sig, hbytes, hmem⟩
  signed e he := (h.signed e he).mono (fun b hb => by
    obtain ⟨k, hk⟩ := List.mem_iff_getElem?.1 hb
    by_cases hjk : j = k
    · subst hjk
      obtain rfl := Option.some.inj (hget.symm.trans hk)
      exact ⟨_, List.mem_iff_getElem?.2 ⟨j, List.getElem?_set_self
        (List.getElem?_eq_some_iff.1 hget).1⟩, rfl, rfl, rfl⟩
    · exact ⟨b, List.mem_iff_getElem?.2 ⟨k, by rw [World.finish, List.getElem?_set_ne hjk, hk]⟩,
        rfl, rfl, rfl⟩) fun a ha _ => ha

/-- The invariant holds in every run. -/
theorem ok_of_reachable (hw : handshakeMachine.Reachable (Unforged honest) w) : w.Ok honest := by
  refine hw.invariant (fun w hinit => ?_) fun w w' act _ h hunforged hstep => ?_
  · obtain rfl : w = ⟨[], [], []⟩ := hinit
    exact ⟨fun a ha => (by cases ha), fun b hb => (by cases hb), fun e he => (by cases he)⟩
  · cases act with
    | start expected x k =>
      obtain rfl := Option.some.inj hstep
      exact h.start expected x k
    | complete i identity random msg2 =>
      obtain ⟨session, hget, hstep⟩ := Option.bind_eq_some_iff.1 hstep
      split_ifs at hstep with hcall
      obtain rfl := Option.some.inj hstep
      exact h.complete hget (by simpa using hcall) hunforged
    | respond identity expected coins msg1 =>
      obtain rfl := Option.some.inj hstep
      exact h.respond identity expected coins msg1
    | finish j msg3 =>
      obtain ⟨session, hget, hstep⟩ := Option.bind_eq_some_iff.1 hstep
      split_ifs at hstep with hcall
      obtain rfl := Option.some.inj hstep
      exact h.finish hget hunforged
    | signElsewhere identity random content =>
      change (match content.purpose with
        | .handshake => none
        | _ => some (w.sign (identity.signing random content.signedBytes))) = some w' at hstep
      split at hstep
      · cases hstep
      · rename_i hpurpose
        obtain rfl := Option.some.inj hstep
        exact h.sign hpurpose identity random

/-! ### Partners -/

omit [Primitives] in
theorem msg2_inj {n n' : Msg2} (h : n.write = n'.write) : n = n' :=
  PrefixFree.inj (.of_codec codec_msg2) trivial trivial h

omit [Primitives] in
/-- No other purpose signs a transcript. -/
theorem purpose_of_transcript {content : SignedContent} {bytes : Bytes}
    (h : handshakeContext ++ bytes = content.signedBytes) : content.purpose = .handshake := by
  rw [content.signedBytes_eq] at h
  exact (Purpose.context_append_inj (p := .handshake) h).1.symm

/-- An initiator session that completed has read a second message. -/
theorem InitiatorSession.Ok.msg2_eq {a : InitiatorSession} {c : InitiatorCall}
    {r : Bytes × EstablishedSession} (h : a.Ok honest w.signed) (hc : a.call = some c)
    (hr : c.result = .ok r) : ∃ n : Msg2, c.msg2 = n.write := by
  obtain ⟨random, hres⟩ := h.called c hc
  obtain ⟨peer, ss, transcript, sig3, haccept, -⟩ := complete_eq_ok.1 (hres.symm.trans hr)
  obtain ⟨signed, sig, hbytes, -⟩ := accept_eq_ok.1 haccept
  exact ⟨⟨signed, sig⟩, hbytes⟩

/-- A first transcript was signed by the responder session that it names. -/
theorem World.Ok.of_transcript1 (h : w.Ok honest) {e : Signing} (he : e ∈ w.signed) {m : Msg1}
    {n : Msg2Signed} (hmsg : e.message = transcript1 m.write n.write) :
    ∃ b ∈ w.responders, b.identity.public = e.identity ∧ b.msg1 = m.write ∧
      b.msg2 = n.write ++ e.signature.write := by
  cases h.signed e he with
  | responder b mem signed identity message msg2 =>
    obtain ⟨expected, coins, hrespond⟩ := (h.responders b mem).answered
    obtain ⟨signed', ss, sig, hanswer, -⟩ := respond_eq_ok.1 hrespond
    obtain ⟨msg1, hmsg1, -⟩ := answer_eq_ok.1 hanswer
    rw [hmsg, hmsg1] at message
    obtain ⟨rfl, rfl⟩ := SignedContent.transcript1_inj (List.append_cancel_left message)
    exact ⟨b, mem, identity, hmsg1, msg2⟩
  | initiator a mem c call identity message est result =>
    obtain ⟨expected, x, k, hstate⟩ := (h.initiators a mem).started
    obtain ⟨n', hn'⟩ := (h.initiators a mem).msg2_eq call result
    rw [hmsg, hn', hstate] at message
    exact absurd (List.append_cancel_left message) SignedContent.transcript1_ne_transcript2
  | elsewhere content purpose message =>
    exact absurd (purpose_of_transcript (hmsg.symm.trans message)) purpose

/-- A second transcript was signed by the initiator session that it names, when it completed. -/
theorem World.Ok.of_transcript2 (h : w.Ok honest) {e : Signing} (he : e ∈ w.signed) {m : Msg1}
    {n : Msg2} (hmsg : e.message = transcript2 m.write n.write e.identity.write) :
    ∃ a ∈ w.initiators, ∃ c est, a.call = some c ∧ c.identity.public = e.identity ∧
      a.state.msg1Bytes = m.write ∧ c.msg2 = n.write ∧
      c.result = .ok (e.identity.write ++ e.signature.write, est) := by
  cases h.signed e he with
  | responder b mem signed identity message msg2 =>
    obtain ⟨expected, coins, hrespond⟩ := (h.responders b mem).answered
    obtain ⟨signed', ss, sig, hanswer, -⟩ := respond_eq_ok.1 hrespond
    obtain ⟨msg1, hmsg1, -⟩ := answer_eq_ok.1 hanswer
    rw [hmsg, hmsg1] at message
    exact absurd (List.append_cancel_left message).symm SignedContent.transcript1_ne_transcript2
  | initiator a mem c call identity message est result =>
    obtain ⟨expected, x, k, hstate⟩ := (h.initiators a mem).started
    obtain ⟨n', hn'⟩ := (h.initiators a mem).msg2_eq call result
    have hm' : a.state.msg1Bytes = Msg1.write ⟨(InitiatorKex.generate x k).x25519Public,
        (InitiatorKex.generate x k).mlKemPublic⟩ := by
      rw [hstate]
      rfl
    rw [hmsg, hn', hm'] at message
    obtain ⟨rfl, rfl, -⟩ := SignedContent.transcript2_inj (List.append_cancel_left message)
    exact ⟨a, mem, c, est, call, identity, hm', hn', result⟩
  | elsewhere content purpose message =>
    exact absurd (purpose_of_transcript (hmsg.symm.trans message)) purpose

/-- Two sessions that saw the same messages hold the same keys. -/
theorem agree_of_messages [LawfulPrimitives] {a : InitiatorSession} {b : ResponderSession}
    {c : InitiatorCall} {d : ResponderCall} {est est' : EstablishedSession}
    (ha : a.Ok honest w.signed) (hb : b.Ok honest w.signed) (hc : a.call = some c)
    (hd : b.call = some d) (hr : c.result = .ok (d.msg3, est')) (hr' : d.result = .ok est)
    (h1 : a.state.msg1Bytes = b.msg1) (h2 : c.msg2 = b.msg2)
    (hid : c.identity.public = est.peer) :
    est'.peer = b.identity.public ∧ Agree est' est := by
  obtain ⟨expected, x, k, hstate⟩ := ha.started
  obtain ⟨random, hres⟩ := ha.called c hc
  obtain ⟨peer, ss, transcript, sig3, haccept, -, hmsg3, rfl⟩ :=
    complete_eq_ok.1 (hres.symm.trans hr)
  obtain ⟨signed, sig, hbytes, rfl, -, -, hfinish, rfl⟩ := accept_eq_ok.1 haccept
  obtain ⟨expected', coins, hrespond⟩ := hb.answered
  obtain ⟨signed', ss', sig', hanswer, -, hmsg2, hbstate⟩ := respond_eq_ok.1 hrespond
  obtain ⟨msg1, hmsg1, hexchange, hidentity⟩ := answer_eq_ok.1 hanswer
  obtain ⟨identity, sig'', hmsg3', -, -, rfl⟩ := finish_eq_ok.1 ((hb.called d hd).symm.trans hr')
  have hpeer : c.identity.public = identity := hid
  -- the second message has one reading
  have hsame : Msg2.write ⟨signed, sig⟩ = Msg2.write ⟨signed', sig'⟩ :=
    hbytes.symm.trans (h2.trans hmsg2)
  obtain ⟨rfl, rfl⟩ := Msg2.mk.inj (msg2_inj hsame)
  -- and so has the first
  have hm : Msg1.write ⟨(InitiatorKex.generate x k).x25519Public,
      (InitiatorKex.generate x k).mlKemPublic⟩ = Msg1.write msg1 := by
    rw [← hmsg1, ← h1, hstate]
    rfl
  obtain rfl := PrefixFree.inj (.of_codec codec_msg1) trivial trivial hm
  have hsecret := finish_responderExchange hexchange
  rw [hstate] at hfinish
  obtain rfl : ss = ss' := Except.ok.inj (hfinish.symm.trans hsecret)
  have hsig : sig3.write = sig''.write := by
    rw [hmsg3', hpeer] at hmsg3
    exact (List.append_cancel_left hmsg3).symm
  refine ⟨hidentity, ?_⟩
  rw [hbstate, h1, h2, hpeer, hsig]
  exact finalizeKeys_cross _ _ _ _

/-- **Mutual agreement.**  In every run of any number of sessions: a responder that completes with a
pinned honest initiator has a partner that completed on its second message and produced the third,
with crosswise equal keys; an initiator that completes with a pinned honest responder has a partner
that received its first message and sent the second. -/
theorem mutual_agreement [LawfulPrimitives]
    (hw : handshakeMachine.Reachable (Unforged honest) w) :
    (∀ b ∈ w.responders, ∀ d est initiator, b.call = some d → d.result = .ok est →
      b.state.expectedInitiator = some initiator → honest initiator →
      ∃ a ∈ w.initiators, ∃ c est', a.call = some c ∧ c.identity.public = initiator ∧
        a.state.msg1Bytes = b.msg1 ∧ c.msg2 = b.msg2 ∧ c.result = .ok (d.msg3, est') ∧
        est'.peer = b.identity.public ∧ est.peer = initiator ∧ Agree est' est) ∧
    ∀ a ∈ w.initiators, ∀ c msg3 est responder, a.call = some c → c.result = .ok (msg3, est) →
      a.state.expectedResponder = some responder → honest responder →
      ∃ b ∈ w.responders, b.identity.public = responder ∧ b.msg1 = a.state.msg1Bytes ∧
        b.msg2 = c.msg2 ∧ est.peer = responder := by
  have hok := ok_of_reachable hw
  constructor
  · intro b hb d est initiator hd hr hpinned hhonest
    have hbok := hok.responders b hb
    obtain ⟨expected, coins, hrespond⟩ := hbok.answered
    obtain ⟨signed, ss, sig2, hanswer, -, hmsg2, -⟩ := respond_eq_ok.1 hrespond
    obtain ⟨msg1, hmsg1, -⟩ := answer_eq_ok.1 hanswer
    obtain ⟨identity, sig, -, hpin, -, hest⟩ := finish_eq_ok.1 ((hbok.called d hd).symm.trans hr)
    rw [hpinned] at hpin
    obtain rfl := checkPinned_some.1 hpin
    have hpeer : est.peer = initiator := by
      rw [hest]
      rfl
    obtain ⟨sig', hmsg3, hmem⟩ := hbok.checked d est hd hr (by rwa [hpeer])
    obtain ⟨a, ha, c, est', hc, hid, h1, h2, hres⟩ := hok.of_transcript2 hmem
      (m := msg1) (n := ⟨signed, sig2⟩) (by rw [hmsg1, hmsg2]; rfl)
    rw [← hmsg3] at hres
    have h1' : a.state.msg1Bytes = b.msg1 := h1.trans hmsg1.symm
    have h2' : c.msg2 = b.msg2 := h2.trans hmsg2.symm
    obtain ⟨hpeer', hagree⟩ := agree_of_messages (hok.initiators a ha) hbok hc hd hres hr h1' h2' hid
    exact ⟨a, ha, c, est', hc, hid.trans hpeer, h1', h2', hres, hpeer', hpeer, hagree⟩
  · intro a ha c msg3 est responder hc hr hpinned hhonest
    have haok := hok.initiators a ha
    obtain ⟨random, hres⟩ := haok.called c hc
    obtain ⟨peer, ss, transcript, sig3, haccept, -, -, hest⟩ :=
      complete_eq_ok.1 (hres.symm.trans hr)
    obtain ⟨signed, sig, -, rfl, hpin, -⟩ := accept_eq_ok.1 haccept
    rw [hpinned] at hpin
    obtain rfl := checkPinned_some.1 hpin
    have hpeer : est.peer = signed.identity := by
      rw [hest]
      rfl
    obtain ⟨signed', sig', hmsg2, hmem⟩ := haok.checked c msg3 est hc hr (by rwa [hpeer])
    obtain ⟨expected, x, k, hstate⟩ := haok.started
    obtain ⟨b, hb, hid, h1, h2⟩ := hok.of_transcript1 hmem
      (m := ⟨(InitiatorKex.generate x k).x25519Public, (InitiatorKex.generate x k).mlKemPublic⟩)
      (n := signed') (by rw [hstate]; rfl)
    exact ⟨b, hb, hid.trans hpeer, h1.trans (by rw [hstate]; rfl), h2.trans hmsg2.symm, hpeer⟩

end Invariant

/-! ### A run -/

theorem step_complete {w : World} {i : ℕ} {session : InitiatorSession} {identity : Identity}
    {random msg2 : Bytes} (hget : w.initiators[i]? = some session) (hcall : session.call = none) :
    handshakeMachine.step w (.complete i identity random msg2) =
      some (w.complete i identity random msg2 session) := by
  simp [handshakeMachine, World.step, hget, hcall]

theorem step_finish {w : World} {j : ℕ} {session : ResponderSession} {msg3 : Bytes}
    (hget : w.responders[j]? = some session) (hcall : session.call = none) :
    handshakeMachine.step w (.finish j msg3) = some (w.finish j msg3 session) := by
  simp [handshakeMachine, World.step, hget, hcall]

/-- Two sessions that the network connects complete, when the exchange contributes and no signing
backend fails. -/
theorem honest_run [LawfulPrimitives] (honest : PublicIdentity → Prop) (alice bob : Identity)
    (coins : ResponderCoins) (x k random : Bytes)
    (hsign : ∀ r m, (Primitives.trySign alice.keys r m).isSome)
    (hsign' : ∀ r m, (Primitives.trySign bob.keys r m).isSome)
    (hdh : Primitives.wasContributory (Primitives.diffieHellman coins.x25519Secret
      (Primitives.x25519Public x)) = true) :
    ∃ w a b c d est est', handshakeMachine.Reachable (Unforged honest) w ∧ a ∈ w.initiators ∧
      b ∈ w.responders ∧ a.call = some c ∧ b.call = some d ∧ c.result = .ok (d.msg3, est') ∧
      d.result = .ok est ∧ a.state.expectedResponder = some bob.public ∧
      b.state.expectedInitiator = some alice.public := by
  have hself : ∀ identity : PublicIdentity, checkPinned (some identity) identity = .ok () :=
    fun identity => checkPinned_some.2 rfl
  -- the first message, and its answer
  let kex := InitiatorKex.generate x k
  let msg1 : Msg1 := ⟨kex.x25519Public, kex.mlKemPublic⟩
  let enc := Primitives.encapsulate kex.mlKemPublic coins.kemRandom
  let ss := Primitives.diffieHellman coins.x25519Secret kex.x25519Public ++ enc.2
  let n : Msg2Signed := ⟨Primitives.x25519Public coins.x25519Secret, enc.1, bob.public⟩
  have hexchange : responderExchange coins msg1 = .ok (n.x25519, n.mlKemCt, ss) := by
    have hdh' : Primitives.wasContributory
        (Primitives.diffieHellman coins.x25519Secret msg1.x25519) = true := hdh
    simp only [responderExchange, checkedDh, hdh', ↓reduceIte, Result.ok_bind]
    rfl
  have hanswer : answer bob coins msg1.write = .ok (n, ss) :=
    answer_eq_ok.2 ⟨msg1, rfl, hexchange, rfl⟩
  obtain ⟨sig2, hsig2⟩ := Option.isSome_iff_exists.1
    (hsign' coins.signing (transcript1 msg1.write n.write))
  let msg2 := n.write ++ sig2.write
  let state : ResponderHandshakeState := ⟨msg1.write, msg2, ss, some alice.public⟩
  have hrespond : responderRespond bob (some alice.public) coins msg1.write = .ok (state, msg2) :=
    respond_eq_ok.2 ⟨n, ss, sig2, hanswer, hsig2, rfl, rfl⟩
  -- the initiator completes
  let s := (initiatorStart (some bob.public) x k).1
  have haccept : s.accept alice msg2 = .ok (bob.public, ss,
      transcript2 msg1.write msg2 alice.public.write) :=
    accept_eq_ok.2 ⟨n, sig2, rfl, rfl, hself _, LawfulPrimitives.verify_trySign hsig2,
      finish_responderExchange hexchange, rfl⟩
  obtain ⟨sig3, hsig3⟩ := Option.isSome_iff_exists.1
    (hsign random (transcript2 msg1.write msg2 alice.public.write))
  let msg3 := alice.public.write ++ sig3.write
  have hcomplete := complete_eq_ok.2 ⟨bob.public, ss, _, sig3, haccept, hsig3, rfl, rfl⟩
  -- and so does the responder
  have hfinish := (finish_eq_ok (s := state)).2 ⟨alice.public, sig3, rfl, hself _,
    LawfulPrimitives.verify_trySign hsig3, rfl⟩
  let w1 : World := World.start ⟨[], [], []⟩ s
  let w2 := w1.respond bob (some alice.public) coins msg1.write
  have hw2 : w2 = ⟨[⟨s, none⟩], [⟨bob, msg1.write, msg2, state, none⟩],
      bob.signing coins.signing (transcript1 msg1.write n.write)⟩ := by
    simp only [w2, w1, World.respond, World.start, hrespond, hanswer, List.nil_append]
  have hmade2 : ⟨bob.public, transcript1 msg1.write n.write, sig2⟩ ∈ w2.signed := by
    rw [hw2]
    simp [Identity.signing, hsig2]
  have hr2 : handshakeMachine.Reachable (Unforged honest) w2 :=
    (((Machine.Reachable.init rfl).step (a := .start (some bob.public) x k) trivial rfl).step
      (a := .respond bob (some alice.public) coins msg1.write) trivial rfl)
  let w3 := w2.complete 0 alice random msg2 ⟨s, none⟩
  have hr3 : handshakeMachine.Reachable (Unforged honest) w3 := by
    refine hr2.step (a := .complete 0 alice random msg2) ?_ ?_
    · intro session signed signedBytes sig hget hread _ _
      obtain rfl : ⟨s, none⟩ = session := by
        rw [hw2] at hget
        exact Option.some.inj hget
      cases (readMsg2_eq_ok.2 ⟨rfl, rfl⟩ : readMsg2 msg2 = .ok (n, n.write, sig2)).symm.trans hread
      exact hmade2
    · exact step_complete (by rw [hw2]; rfl) rfl
  let w4 := w3.finish 0 msg3 ⟨bob, msg1.write, msg2, state, none⟩
  have hr4 : handshakeMachine.Reachable (Unforged honest) w4 := by
    refine hr3.step (a := .finish 0 msg3) ?_ ?_
    · intro session identity signedBytes sig sigBytes hget hread _ _
      have hget2 : w2.responders[0]? = some session := hget
      obtain rfl : ⟨bob, msg1.write, msg2, state, none⟩ = session := by
        rw [hw2] at hget2
        exact Option.some.inj hget2
      have hread' : readMsg3 msg3 =
          .ok (alice.public, alice.public.write, sig3, sig3.write) :=
        readMsg3_eq_ok.2 ⟨rfl, rfl, rfl⟩
      cases hread'.symm.trans hread
      refine List.mem_append_right _ ?_
      simp [haccept, Identity.signing, hsig3, state]
    · exact step_finish (by
        have hget2 : w2.responders[0]? = some ⟨bob, msg1.write, msg2, state, none⟩ := by
          rw [hw2]
          rfl
        exact hget2) rfl
  refine ⟨w4, ⟨s, some ⟨alice, msg2, s.complete alice random msg2⟩⟩,
    ⟨bob, msg1.write, msg2, state, some ⟨msg3, state.complete msg3⟩⟩, _, _, _, _, hr4, ?_, ?_, rfl,
    rfl, hcomplete, hfinish, rfl, rfl⟩
  · change _ ∈ w2.initiators.set 0 _
    rw [hw2]
    exact List.mem_singleton_self _
  · change _ ∈ w2.responders.set 0 _
    rw [hw2]
    exact List.mem_singleton_self _

end Protocol

/-! ### Primitives that a run can be computed with -/

section Sample

attribute [local instance] lengthKeys

/-- One byte, repeated. -/
def repeated {valid : Bytes → Bool} (n : ℕ) (hvalid : ∀ b, b.length = n → valid b = true)
    (b : UInt8) : Checked valid :=
  ⟨List.replicate n b, hvalid _ List.length_replicate⟩

/-- A commutative exchange and a key encapsulation on single bytes. -/
@[reducible] def samplePrimitives : Primitives where
  x25519Public sk := ⟨List.replicate 32 (sk.headD 0), List.length_replicate⟩
  diffieHellman sk pk := List.replicate 32 (sk.headD 0 * pk.1.headD 0)
  wasContributory shared := shared != List.replicate 32 0
  mlKemPublic sk := repeated 1568 (fun _ h => decide_eq_true h) (sk.headD 0)
  encapsulate pk r := (repeated 1568 (fun _ h => decide_eq_true h) (r.headD 0),
    List.replicate 32 (pk.1.headD 0 + r.headD 0))
  decapsulate sk ct := List.replicate 32 (sk.headD 0 + ct.1.headD 0)
  sha256 := checksum 32 []
  hkdfExtract := checksum 32
  hkdfExpand n prk info := checksum n prk info
  publicIdentity keys := ⟨repeated 32 (fun _ h => decide_eq_true h) (keys.headD 0),
    repeated 2592 (fun _ h => decide_eq_true h) (keys.headD 0)⟩
  trySign keys _ message := some
    ⟨⟨checksum 64 keys message, decide_eq_true List.length_replicate⟩,
      ⟨checksum 4627 keys message, decide_eq_true List.length_replicate⟩⟩

attribute [local instance] samplePrimitives

theorem headD_replicate (n : ℕ) (b : UInt8) : (List.replicate (n + 1) b).headD 0 = b := rfl

theorem samplePrimitives_lawful : LawfulPrimitives where
  diffieHellman_comm a b := by
    change List.replicate 32 (a.headD 0 * (List.replicate 32 (b.headD 0)).headD 0) =
      List.replicate 32 (b.headD 0 * (List.replicate 32 (a.headD 0)).headD 0)
    rw [headD_replicate 31, headD_replicate 31, UInt8.mul_comm]
  decapsulate_encapsulate sk r := by
    change List.replicate 32 (sk.headD 0 + (List.replicate 1568 (r.headD 0)).headD 0) =
      List.replicate 32 ((List.replicate 1568 (sk.headD 0)).headD 0 + r.headD 0)
    rw [headD_replicate 1567, headD_replicate 1567]
  verify_trySign {keys random message sig} h := by
    obtain rfl := Option.some.inj h
    have hed : checksum 64 keys message =
        checksum 64 (List.replicate 32 (keys.headD 0)) message := by
      rw [checksum, checksum, headD_replicate 31]
    have hml : checksum 4627 keys message =
        checksum 4627 (List.replicate 2592 (keys.headD 0)) message := by
      rw [checksum, checksum, headD_replicate 2591]
    refine (if_neg ?_).trans (if_neg ?_)
    · rw [Bool.not_eq_true', Bool.not_eq_false]
      exact decide_eq_true hed
    · rw [Bool.not_eq_true', Bool.not_eq_false]
      exact decide_eq_true hml

/-- The partner of the responder session of such a run. -/
theorem mutual_agreement_sample : ∃ w b d est,
    handshakeMachine.Reachable (Unforged fun _ => True) w ∧ b ∈ w.responders ∧ b.call = some d ∧
      d.result = .ok est ∧
      ∃ a ∈ w.initiators, ∃ c est', a.call = some c ∧ c.identity.public = Identity.public ⟨[1]⟩ ∧
        c.msg2 = b.msg2 ∧ c.result = .ok (d.msg3, est') ∧ Agree est' est := by
  have := samplePrimitives_lawful
  obtain ⟨w, a, b, c, d, est, est', hw, -, hb, -, hd, -, hr, -, hpinned⟩ :=
    honest_run (fun _ => True) ⟨[1]⟩ ⟨[3]⟩ ⟨[5], [7], []⟩ [9] [11] [] (fun _ _ => rfl)
      (fun _ _ => rfl) (by decide)
  obtain ⟨a', ha', c', est'', hc', hid, -, h2, hres, -, -, hagree⟩ :=
    (mutual_agreement hw).1 b hb d est _ hd hr hpinned trivial
  exact ⟨w, b, d, est, hw, hb, hd, hr, a', ha', c', est'', hc', hid, h2, hres, hagree⟩

end Sample

end Handshake

end NovaChannel
