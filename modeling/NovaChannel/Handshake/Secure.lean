import NovaChannel.Handshake.Attacked

/-!
# Agreement and secrecy of the handshake

* `World.Inv` : what was sent gives no secret away, and every signature and every record in it was
  made for its session, as an invariant of the runs;
* `InitiatorSession.Ok.partner`, `ResponderSession.Ok.partner` : a session that accepted a party
  whose signing key had not leaked has a partner;
* `handshake_secure` : **the partner is the only one, both hold the same keys, and the adversary
  derives them exactly when each of the two exchanges has lost a secret**, whatever leaks later.
-/

namespace NovaChannel

namespace HybridHandshake

namespace Attacked

open Crypto Term
open X3dh (EstablishedSession)

/-! ### Where signatures come from -/

/-- A signature that a party made: the key, and what it signed. -/
inductive Signed (w : World) : Bytes → Bytes → Prop
  | responder {j : ℕ} {b : ResponderSession} (h : w.ResponderAt j b) :
      Signed w (identityKey b.party) (frame (transcript1 b.state.msg1 b.state.msg2.signed))
  | initiator {i : ℕ} {a : InitiatorSession} {c : InitiatorCall} {msg2 : Msg2 Bytes}
      {est : EstablishedSession Bytes} (h : w.InitiatorAt i a) (hc : a.call = some c)
      (hm : c.msg2 = frame msg2.fields)
      (hr : c.result = .ok (frame [identityOf c.party, sign (identityKey c.party)
        (frame (transcript2 a.state.msg1 msg2.fields [identityOf c.party]))], est)) :
      Signed w (identityKey c.party)
        (frame (transcript2 a.state.msg1 msg2.fields [identityOf c.party]))
  | elsewhere {label : String} (party : ℕ) (fields : List Bytes) (h : label ≠ "novachannel v1") :
      Signed w (identityKey party) (frame (.lit label :: fields))

/-- A ciphertext that a side sealed: the key, the nonce, the associated data, and the message. -/
def Sealed (w : World) (k n a m : Bytes) : Prop :=
  ∃ e ∈ w.sealings, ∃ est, w.session e.side = some est ∧ k = est.sender.key ∧
    n = DataPlane.nonceFor est.sender e.seq ∧ a = num e.seq ∧ m = e.plaintext

/-- Names that may all be known: those that leaked, and the fresh messages of every side whose key
may be known. -/
structure World.Consistent (w : World) (L : Name → Prop) : Prop where
  leaked : ∀ n ∈ w.leaked, L n
  payload : ∀ s est, w.session s = some est → (Policy.leakPolicy L).HybridSafe est.sender.key →
    ∀ seq, L (.payload s seq)

/-- What may be sent: it gives no secret away, and every signature and every ciphertext in it is
the adversary's own or was made for its session. -/
structure World.Sendable (w : World) (t : Bytes) : Prop where
  safe : ∀ L, w.Consistent L → (Policy.leakPolicy L).HybridSafe t
  handed : Handed (fun k n a m => Derives w.knowledge k ∨ Sealed w k n a m)
    (fun f a b => f = .signature → Derives w.knowledge a ∨ Signed w a b) t

/-- The later world has the sessions of the earlier one, and what was completed stays. -/
structure World.Extends (w w' : World) : Prop where
  responders : ∀ j b, w.ResponderAt j b → ∃ b', w'.ResponderAt j b' ∧ b'.party = b.party ∧
    b'.msg1 = b.msg1 ∧ b'.msg2 = b.msg2 ∧ b'.state = b.state ∧ ∀ d, b.call = some d → b'.call = some d
  initiators : ∀ i a, w.InitiatorAt i a →
    ∃ a', w'.InitiatorAt i a' ∧ a'.state = a.state ∧ ∀ c, a.call = some c → a'.call = some c
  net : w.net ⊆ w'.net
  leaked : w.leaked ⊆ w'.leaked
  sealings : w.sealings ⊆ w'.sealings

/-- An initiator session: how it was started and completed, and its partner. -/
structure InitiatorSession.Ok (w : World) (i : ℕ) (a : InitiatorSession) : Prop where
  started : ∃ expected, a.state = World.startState i expected
  called : ∀ c, a.call = some c → c.result = a.state.complete (identityKey c.party) c.msg2
  partner : ∀ c msg3 est p, a.call = some c → c.result = .ok (msg3, est) →
    est.peer = identityOf p → .identity p ∉ c.leakedBefore →
    ∃ j b, w.ResponderAt j b ∧ b.party = p ∧ b.msg1 = frame a.state.msg1 ∧ b.msg2 = c.msg2

/-- A responder session: how it was answered and completed, and its partner. -/
structure ResponderSession.Ok (w : World) (j : ℕ) (b : ResponderSession) : Prop where
  answered : ∃ expected, responderRespond (identityKey b.party) expected (.name (.responderDh j))
    (.name (.responderKem j)) b.msg1 = .ok (b.state, b.msg2)
  called : ∀ d, b.call = some d → d.result = b.state.complete d.msg3
  partner : ∀ d est p, b.call = some d → d.result = .ok est → est.peer = identityOf p →
    .identity p ∉ d.leakedBefore →
    ∃ i a c est', w.InitiatorAt i a ∧ a.call = some c ∧ c.party = p ∧
      frame a.state.msg1 = b.msg1 ∧ c.msg2 = b.msg2 ∧ c.result = .ok (d.msg3, est')

/-- The invariant. -/
structure World.Inv (w : World) : Prop where
  initiators : ∀ i a, w.InitiatorAt i a → a.Ok w i
  responders : ∀ j b, w.ResponderAt j b → b.Ok w j
  sendable : ∀ t ∈ w.net, w.Sendable t
  ends : ∀ s e, w.ends s = some e →
    ∃ est, w.session s = some est ∧ e.sender.key = est.sender ∧ e.receiver.key = est.receiver
  msg1 : ∀ i a, w.InitiatorAt i a → frame a.state.msg1 ∈ w.net
  msg2 : ∀ j b, w.ResponderAt j b → b.msg2 ∈ w.net
  msg3 : ∀ i a c, w.InitiatorAt i a → a.call = some c → ∀ t ∈ sentBy c.result, t ∈ w.net

section Invariant

variable {w w' : World} {i j : ℕ} {a : InitiatorSession} {b : ResponderSession}

namespace World.Extends

/-- Only what was sent, leaked or exchanged is new. -/
theorem of_sessions (hi : w'.initiators = w.initiators) (hr : w'.responders = w.responders)
    (hnet : w.net ⊆ w'.net) (hleaked : w.leaked ⊆ w'.leaked) (hs : w.sealings ⊆ w'.sealings) :
    w.Extends w' where
  responders j b hb := ⟨b, (congrArg (·[j]?) hr).trans hb, rfl, rfl, rfl, rfl, fun _ hd => hd⟩
  initiators i a ha := ⟨a, (congrArg (·[i]?) hi).trans ha, rfl, fun _ hc => hc⟩
  net := hnet
  leaked := hleaked
  sealings := hs

theorem knowledge (hw : w.Extends w') : w.knowledge ⊆ w'.knowledge := by
  rintro t (ht | ⟨n, hn, rfl⟩ | ht)
  · exact .inl ht
  · exact .inr (.inl ⟨n, hw.leaked hn, rfl⟩)
  · exact .inr (.inr (hw.net ht))

theorem session (hw : w.Extends w') {s : Side} {est : EstablishedSession Bytes}
    (h : w.session s = some est) : w'.session s = some est := by
  cases s with
  | initiator i =>
    obtain ⟨a, c, msg3, ha, hc, hr⟩ := World.session_initiator.1 h
    obtain ⟨a', ha', -, hcall⟩ := hw.initiators i a ha
    exact World.session_initiator.2 ⟨a', c, msg3, ha', hcall c hc, hr⟩
  | responder j =>
    obtain ⟨b, d, hb, hd, hr⟩ := World.session_responder.1 h
    obtain ⟨b', hb', -, -, -, -, hcall⟩ := hw.responders j b hb
    exact World.session_responder.2 ⟨b', d, hb', hcall d hd, hr⟩

theorem signed (hw : w.Extends w') {k m : Bytes} (h : Signed w k m) : Signed w' k m := by
  cases h with
  | responder h =>
    obtain ⟨b', hb', hp, -, -, hs, -⟩ := hw.responders _ _ h
    rw [← hp, ← hs]
    exact .responder hb'
  | initiator h hc hm hr =>
    obtain ⟨a', ha', hs, hcall⟩ := hw.initiators _ _ h
    rw [← hs] at hr ⊢
    exact .initiator ha' (hcall _ hc) hm hr
  | elsewhere party fields h => exact .elsewhere party fields h

theorem consistent (hw : w.Extends w') {L : Name → Prop} (h : w'.Consistent L) :
    w.Consistent L where
  leaked n hn := h.leaked n (hw.leaked hn)
  payload s est hs := h.payload s est (hw.session hs)

theorem sendable (hw : w.Extends w') {t : Bytes} (h : w.Sendable t) : w'.Sendable t where
  safe L hL := h.safe L (hw.consistent hL)
  handed := by
    refine h.handed.mono (fun k n a m hk => ?_) fun f a b hf hsig => ?_
    · refine hk.imp (fun hk => hk.mono hw.knowledge) ?_
      rintro ⟨e, he, est, hs, h⟩
      exact ⟨e, hw.sealings he, est, hw.session hs, h⟩
    · exact (hf hsig).imp (fun ha => ha.mono hw.knowledge) hw.signed

theorem initiatorOk (hw : w.Extends w') (h : a.Ok w i) : a.Ok w' i where
  started := h.started
  called := h.called
  partner c msg3 est p hc hr hp hleak := by
    obtain ⟨j, b, hb, hparty, h1, h2⟩ := h.partner c msg3 est p hc hr hp hleak
    obtain ⟨b', hb', hp', h1', h2', -, -⟩ := hw.responders j b hb
    exact ⟨j, b', hb', hp'.trans hparty, h1'.trans h1, h2'.trans h2⟩

theorem responderOk (hw : w.Extends w') (h : b.Ok w j) : b.Ok w' j where
  answered := h.answered
  called := h.called
  partner d est p hd hr hp hleak := by
    obtain ⟨i, a, c, est', ha, hc, hparty, h1, h2, hres⟩ := h.partner d est p hd hr hp hleak
    obtain ⟨a', ha', hs, hcall⟩ := hw.initiators i a ha
    exact ⟨i, a', c, est', ha', hcall c hc, hparty, by rw [hs, h1], h2, hres⟩

end World.Extends

/-! ### What a session is made of -/

theorem identityKey_inj {p q : ℕ} (h : identityKey p = identityKey q) : p = q :=
  Name.identity.inj (Term.name.inj h)

/-- A signature that verifies under a party's identity is the party's. -/
theorem eq_sign_of_verify {p : ℕ} {m s : Bytes} (h : Crypto.verify (identityOf p) m s = true) :
    s = sign (identityKey p) m := of_decide_eq_true h

/-- What an answer consists of. -/
theorem ResponderSession.Ok.fields (h : b.Ok w j) : ∃ x k, b.msg1 = frame [x, k] ∧
    b.state.msg1 = [x, k] ∧ b.msg2 = frame b.state.msg2.fields ∧
    b.state.msg2.x25519 = x25519Public (.name (.responderDh j)) ∧
    b.state.msg2.mlKemCt = (Crypto.encapsulate k (.name (.responderKem j))).1 ∧
    b.state.msg2.identity = identityOf b.party ∧
    b.state.msg2.signature = sign (identityKey b.party)
      (frame (transcript1 b.state.msg1 b.state.msg2.signed)) ∧
    b.state.sharedSecret = frame [diffieHellman (.name (.responderDh j)) x,
      (Crypto.encapsulate k (.name (.responderKem j))).2] := by
  obtain ⟨expected, hrespond⟩ := h.answered
  obtain ⟨x, k, hread, -, hstate, hmsg2⟩ := respond_eq_ok hrespond
  refine ⟨x, k, eq_list_of_unlist hread, ?_, hmsg2, ?_⟩
  · rw [hstate]
  · rw [hstate]
    exact ⟨rfl, rfl, rfl, rfl, rfl⟩

/-- The first message of an initiator session. -/
theorem InitiatorSession.Ok.msg1_eq (h : a.Ok w i) :
    a.state.msg1 = [x25519Public (.name (.initiatorDh i)), mlKemPublic (.name (.initiatorKem i))] := by
  obtain ⟨expected, hstate⟩ := h.started
  rw [hstate]
  rfl

/-- What a successful completion consists of. -/
theorem InitiatorSession.Ok.complete_fields (h : a.Ok w i) {party : ℕ} {msg2Bytes msg3 : Bytes}
    {est : EstablishedSession Bytes}
    (hr : a.state.complete (identityKey party) msg2Bytes = .ok (msg3, est)) :
    ∃ msg2 : Msg2 Bytes, msg2Bytes = frame msg2.fields ∧ est.peer = msg2.identity ∧
      Crypto.verify msg2.identity (frame (transcript1 a.state.msg1 msg2.signed)) msg2.signature =
        true ∧
      let transcript := transcript2 a.state.msg1 msg2.fields [identityOf party]
      let sig3 := sign (identityKey party) (frame transcript)
      msg3 = frame [identityOf party, sig3] ∧
      est = finalizeKeys (frame [diffieHellman (.name (.initiatorDh i)) msg2.x25519,
        Crypto.decapsulate (.name (.initiatorKem i)) msg2.mlKemCt]) (transcript ++ [sig3]) true
        msg2.identity := by
  obtain ⟨expected, hstate⟩ := h.started
  obtain ⟨msg2, hread, hverify, hmsg3, hest⟩ := complete_eq_ok hr
  refine ⟨msg2, eq_list_of_unlist hread, ?_, hverify, hmsg3, ?_⟩
  · rw [hest]
    rfl
  · rw [hest, hstate]
    rfl

/-! ### What the adversary derives -/

namespace World.Inv

theorem safe_knowledge (h : w.Inv) {L : Name → Prop} (hL : w.Consistent L) :
    ∀ t ∈ w.knowledge, (Policy.leakPolicy L).HybridSafe t := by
  rintro t (⟨party, rfl⟩ | ⟨n, hn, rfl⟩ | ht)
  · exact Policy.hybridSafe_public rfl (by simp)
  · exact Policy.hybridSafe_leaked.2 (hL.leaked n hn)
  · exact (h.sendable t ht).safe L hL

/-- **What the adversary derives, it may send.** -/
theorem sendable_of_derives (h : w.Inv) {t : Bytes} (hd : Derives w.knowledge t) :
    w.Sendable t where
  safe L hL := Policy.hybridSafe_of_derives (h.safe_knowledge hL) hd
  handed := by
    have hknown : ∀ t ∈ w.knowledge,
        Handed (fun k n a m => Derives w.knowledge k ∨ Sealed w k n a m)
          (fun f a b => f = .signature → Derives w.knowledge a ∨ Signed w a b) t := by
      rintro t (⟨party, rfl⟩ | ⟨n, -, rfl⟩ | ht)
      · exact fun hf => (by cases hf)
      · trivial
      · exact (h.sendable t ht).handed
    refine (handed_of_derives hknown hd).mono (fun k n a m hk => hk.elim .inl id) ?_
    rintro f a b (hmade | hf) hsig
    · subst hsig
      exact .inl (hmade rfl).1
    · exact hf hsig

end World.Inv

/-- The names that leaked, and every fresh message. -/
def KnownBy (leaked : List Name) (n : Name) : Prop := n ∈ leaked ∨ ∃ s seq, n = .payload s seq

theorem World.consistent_knownBy (w : World) : w.Consistent (KnownBy w.leaked) where
  leaked _ := .inl
  payload s _ _ _ seq := .inr ⟨s, seq, rfl⟩

/-- **A signature that the adversary derives was made**, unless the key leaked. -/
theorem World.Inv.signed_of_derives (h : w.Inv) {p : ℕ} {m : Bytes} (hleak : .identity p ∉ w.leaked)
    (hd : Derives w.knowledge (sign (identityKey p) m)) : Signed w (identityKey p) m := by
  refine ((h.sendable_of_derives hd).handed rfl).resolve_left fun hkey => ?_
  have hknown := Policy.hybridSafe_leaked.1 ((h.sendable_of_derives hkey).safe _ w.consistent_knownBy)
  rcases hknown with hn | ⟨s, seq, hn⟩
  · exact hleak hn
  · cases hn

/-! ### Partners -/

/-- The fields of the second transcript, as a list. -/
theorem transcript2_eq (msg1 msg2 msg3Signed : List Bytes) :
    transcript2 msg1 msg2 msg3Signed = .lit "novachannel v1" :: (msg1 ++ (msg2 ++ msg3Signed)) :=
  rfl

/-- **Who signed a first transcript**: the responder session that answered this very message. -/
theorem World.Inv.of_transcript1 (h : w.Inv) {p : ℕ} {x k : Bytes} {m : Msg2 Bytes}
    (hs : Signed w (identityKey p) (frame (transcript1 [x, k] m.signed))) :
    ∃ j b, w.ResponderAt j b ∧ b.party = p ∧ b.msg1 = frame [x, k] ∧
      b.state.msg2.signed = m.signed ∧
      b.state.msg2.signature = sign (identityKey p) (frame (transcript1 [x, k] m.signed)) := by
  generalize hkey : identityKey p = key at hs
  generalize hmsg : frame (transcript1 [x, k] m.signed) = msg at hs
  cases hs with
  | @responder j b hb =>
    obtain ⟨x', k', h1, hst, -, -, -, -, hsig, -⟩ := (h.responders j b hb).fields
    obtain rfl := identityKey_inj hkey
    rw [hst] at hmsg
    have hlist := (List.cons.inj (list_injective hmsg)).2
    obtain ⟨hx, hrest⟩ := List.cons.inj hlist
    obtain ⟨hk, hsigned⟩ := List.cons.inj hrest
    refine ⟨j, b, hb, rfl, ?_, hsigned.symm, ?_⟩
    · rw [h1, hx, hk]
    · rw [hsig, hst]
  | @initiator i a c msg2 est ha hc hm hr =>
    -- a second transcript is longer
    have hlen := congrArg List.length (list_injective hmsg)
    rw [(h.initiators i a ha).msg1_eq] at hlen
    cases hlen
  | elsewhere party fields hlabel =>
    exact absurd (Term.lit.inj (List.cons.inj (list_injective hmsg)).1).symm hlabel

/-- **Who signed a second transcript**: the initiator session that completed on this very
message. -/
theorem World.Inv.of_transcript2 (h : w.Inv) {p : ℕ} {x k : Bytes} {m : Msg2 Bytes}
    (hs : Signed w (identityKey p) (frame (transcript2 [x, k] m.fields [identityOf p]))) :
    ∃ i a c est, w.InitiatorAt i a ∧ a.call = some c ∧ c.party = p ∧
      a.state.msg1 = [x, k] ∧ c.msg2 = frame m.fields ∧
      c.result = .ok (frame [identityOf p, sign (identityKey p)
        (frame (transcript2 [x, k] m.fields [identityOf p]))], est) := by
  generalize hkey : identityKey p = key at hs
  generalize hmsg : frame (transcript2 [x, k] m.fields [identityOf p]) = msg at hs
  cases hs with
  | @responder j b hb =>
    have hlen := congrArg List.length (list_injective hmsg)
    obtain ⟨x', k', -, hst, -⟩ := (h.responders j b hb).fields
    rw [hst] at hlen
    cases hlen
  | @initiator i a c msg2 est ha hc hm hr =>
    obtain rfl := identityKey_inj hkey
    have hm1 := (h.initiators i a ha).msg1_eq
    rw [hm1] at hmsg
    have hlist := (List.cons.inj (list_injective hmsg)).2
    obtain ⟨hx, hrest⟩ := List.cons.inj hlist
    obtain ⟨hk, hrest⟩ := List.cons.inj hrest
    have hrest' : m.fields ++ [identityOf c.party] = msg2.fields ++ [identityOf c.party] := hrest
    have hfields : m.fields = msg2.fields := List.append_cancel_right hrest'
    refine ⟨i, a, c, est, ha, hc, rfl, ?_, ?_, ?_⟩
    · rw [hm1, hx, hk]
    · rw [hm, hfields]
    · exact hr
  | elsewhere party fields hlabel =>
    exact absurd (Term.lit.inj (List.cons.inj (list_injective hmsg)).1).symm hlabel

/-- **An initiator that accepts a party whose key has not leaked has a partner**: the signature in
the second message was derived, so it was made, by the session that answered the first message. -/
theorem World.Inv.initiator_partner (h : w.Inv) (ha : w.InitiatorAt i a) {party p : ℕ}
    {msg2Bytes msg3 : Bytes} {est : EstablishedSession Bytes} (hd : Derives w.knowledge msg2Bytes)
    (hr : a.state.complete (identityKey party) msg2Bytes = .ok (msg3, est))
    (hp : est.peer = identityOf p) (hleak : .identity p ∉ w.leaked) :
    ∃ j b, w.ResponderAt j b ∧ b.party = p ∧ b.msg1 = frame a.state.msg1 ∧ b.msg2 = msg2Bytes := by
  obtain ⟨m, rfl, hpeer, hverify, -⟩ := (h.initiators i a ha).complete_fields hr
  have hid : m.identity = identityOf p := hpeer.symm.trans hp
  rw [hid] at hverify
  have hsig := eq_sign_of_verify hverify
  have hsigned : Signed w (identityKey p) (frame (transcript1 a.state.msg1 m.signed)) := by
    refine h.signed_of_derives hleak ?_
    rw [← hsig]
    exact hd.of_list (by simp [Msg2.fields])
  rw [(h.initiators i a ha).msg1_eq] at hsigned hsig ⊢
  obtain ⟨j, b, hb, hparty, h1, hfields, hsig'⟩ := h.of_transcript1 hsigned
  obtain ⟨-, -, -, -, h2, -⟩ := (h.responders j b hb).fields
  refine ⟨j, b, hb, hparty, h1, ?_⟩
  rw [h2, Msg2.fields, Msg2.fields, hfields, hsig', hsig]

/-- **A responder that accepts a party whose key has not leaked has a partner.** -/
theorem World.Inv.responder_partner (h : w.Inv) (hb : w.ResponderAt j b) {p : ℕ} {msg3 : Bytes}
    {est : EstablishedSession Bytes} (hd : Derives w.knowledge msg3)
    (hr : b.state.complete msg3 = .ok est) (hp : est.peer = identityOf p)
    (hleak : .identity p ∉ w.leaked) :
    ∃ i a c est', w.InitiatorAt i a ∧ a.call = some c ∧ c.party = p ∧
      frame a.state.msg1 = b.msg1 ∧ c.msg2 = b.msg2 ∧ c.result = .ok (msg3, est') := by
  obtain ⟨identity, sig, hread, hverify, hest⟩ := responderComplete_eq_ok hr
  obtain rfl := eq_list_of_unlist hread
  obtain rfl : identity = identityOf p := by
    rw [← hp, hest]
    rfl
  have hsig := eq_sign_of_verify hverify
  have hsigned : Signed w (identityKey p)
      (frame (transcript2 b.state.msg1 b.state.msg2.fields [identityOf p])) := by
    refine h.signed_of_derives hleak ?_
    rw [← hsig]
    exact hd.of_list (by simp)
  obtain ⟨x, k, h1, hst, h2, -⟩ := (h.responders j b hb).fields
  rw [hst] at hsigned hsig
  obtain ⟨i, a, c, est', ha, hc, hparty, h1', h2', hres⟩ := h.of_transcript2 hsigned
  exact ⟨i, a, c, est', ha, hc, hparty, by rw [h1', h1], by rw [h2', h2], by rw [hres, hsig]; rfl⟩

/-! ### Every step keeps the invariant -/

/-- It is enough to look at the sessions that changed and at what was sent. -/
theorem World.Inv.extend (h : w.Inv) (hw : w.Extends w')
    (hi : ∀ i a, w'.InitiatorAt i a → w.InitiatorAt i a ∨ a.Ok w' i ∧
      frame a.state.msg1 ∈ w'.net ∧ ∀ c, a.call = some c → ∀ t ∈ sentBy c.result, t ∈ w'.net)
    (hr : ∀ j b, w'.ResponderAt j b → w.ResponderAt j b ∨ b.Ok w' j ∧ b.msg2 ∈ w'.net)
    (he : ∀ s e, w'.ends s = some e → w.ends s = some e ∨ ∃ est, w.session s = some est ∧
      e.sender.key = est.sender ∧ e.receiver.key = est.receiver)
    (hnet : ∀ t ∈ w'.net, t ∈ w.net ∨ w'.Sendable t) : w'.Inv where
  initiators i a ha := (hi i a ha).elim (fun ha => hw.initiatorOk (h.initiators i a ha)) And.left
  responders j b hb := (hr j b hb).elim (fun hb => hw.responderOk (h.responders j b hb)) And.left
  sendable t ht := (hnet t ht).elim (fun ht => hw.sendable (h.sendable t ht)) id
  ends s e hs := by
    obtain ⟨est, hest, hkeys⟩ := (he s e hs).elim (h.ends s e) id
    exact ⟨est, hw.session hest, hkeys⟩
  msg1 i a ha := (hi i a ha).elim (fun ha => hw.net (h.msg1 i a ha)) fun hs => hs.2.1
  msg2 j b hb := (hr j b hb).elim (fun hb => hw.net (h.msg2 j b hb)) And.right
  msg3 i a c ha hc t ht :=
    (hi i a ha).elim (fun ha => hw.net (h.msg3 i a c ha hc t ht)) fun hs => hs.2.2 c hc t ht

/-- A value of a public function may be sent, if it is no signature. -/
theorem sendable_public {f : Fn} {x y : Bytes} (hf : f.isPublic = true) (hdh : f ≠ .dhShared)
    (hsig : f ≠ .signature) : w.Sendable (.fn f x y) :=
  ⟨fun _ _ => Policy.hybridSafe_public hf hdh, fun h => absurd h hsig⟩

/-- A signature may be sent when it was made. -/
theorem sendable_sign {k m : Bytes} (h : Signed w k m) : w.Sendable (sign k m) :=
  ⟨fun _ _ => Policy.hybridSafe_public rfl (by simp), fun _ => .inr h⟩

/-- A message may be sent when its fields may. -/
theorem sendable_frame {ts : List Bytes} (h : ∀ t ∈ ts, w.Sendable t) : w.Sendable (frame ts) :=
  ⟨fun L hL => Policy.hybridSafe_list.2 fun t ht => (h t ht).safe L hL,
    handed_list.2 fun t ht => (h t ht).handed⟩

/-- A session that is appended is the old ones or the new one. -/
theorem getElem?_concat {α : Type} {l : List α} {x y : α} {k : ℕ} (h : (l ++ [x])[k]? = some y) :
    l[k]? = some y ∨ k = l.length ∧ y = x := by
  by_cases hlt : k < l.length
  · exact .inl ((List.getElem?_append_left hlt).symm.trans h)
  · have hget : [x][k - l.length]? = some y :=
      (List.getElem?_append_right (by omega)).symm.trans h
    obtain ⟨hk, hy⟩ := List.getElem?_eq_some_iff.1 hget
    rw [List.length_singleton] at hk
    refine .inr ⟨by omega, ?_⟩
    rw [← hy]
    simp

namespace World.Extends

theorem start (w : World) (expected : Option Bytes) : w.Extends (w.start expected) where
  responders _ b hb := ⟨b, hb, rfl, rfl, rfl, rfl, fun _ hd => hd⟩
  initiators _ a ha :=
    ⟨a, (List.getElem?_append_left (List.getElem?_eq_some_iff.1 ha).1).trans ha, rfl, fun _ hc => hc⟩
  net := List.subset_cons_self _ _
  leaked := List.Subset.refl _
  sealings := List.Subset.refl _

theorem complete (ha : w.InitiatorAt i a) (hcall : a.call = none) (party : ℕ) (msg2 : Bytes) :
    w.Extends (w.complete i party msg2 a) where
  responders _ b hb := ⟨b, hb, rfl, rfl, rfl, rfl, fun _ hd => hd⟩
  initiators i' x hx := by
    by_cases hi : i' = i
    · subst hi
      obtain rfl : a = x := Option.some.inj (ha.symm.trans hx)
      exact ⟨_, List.getElem?_set_self (List.getElem?_eq_some_iff.1 ha).1, rfl,
        fun c hc => (by rw [hcall] at hc; cases hc)⟩
    · exact ⟨x, (List.getElem?_set_ne (Ne.symm hi)).trans hx, rfl, fun _ hc => hc⟩
  net := List.subset_append_right _ _
  leaked := List.Subset.refl _
  sealings := List.Subset.refl _

theorem respond (w : World) (party : ℕ) (expected : Option Bytes) (msg1 : Bytes) :
    w.Extends (w.respond party expected msg1) := by
  unfold World.respond
  split
  · refine ⟨fun _ b hb => ⟨b, ?_, rfl, rfl, rfl, rfl, fun _ hd => hd⟩,
      fun _ a ha => ⟨a, ha, rfl, fun _ hc => hc⟩, List.subset_cons_self _ _, List.Subset.refl _,
      List.Subset.refl _⟩
    exact (List.getElem?_append_left (List.getElem?_eq_some_iff.1 hb).1).trans hb
  · exact .of_sessions rfl rfl (List.Subset.refl _) (List.Subset.refl _) (List.Subset.refl _)

theorem finish (hb : w.ResponderAt j b) (hcall : b.call = none) (msg3 : Bytes) :
    w.Extends (w.finish j msg3 b) where
  responders j' x hx := by
    by_cases hj : j' = j
    · subst hj
      obtain rfl : b = x := Option.some.inj (hb.symm.trans hx)
      exact ⟨_, List.getElem?_set_self (List.getElem?_eq_some_iff.1 hb).1, rfl, rfl, rfl, rfl,
        fun d hd => (by rw [hcall] at hd; cases hd)⟩
    · exact ⟨x, (List.getElem?_set_ne (Ne.symm hj)).trans hx, rfl, rfl, rfl, rfl, fun _ hd => hd⟩
  initiators _ a ha := ⟨a, ha, rfl, fun _ hc => hc⟩
  net := List.Subset.refl _
  leaked := List.Subset.refl _
  sealings := List.Subset.refl _

end World.Extends

theorem World.Inv.start (h : w.Inv) (expected : Option Bytes) : (w.start expected).Inv := by
  refine h.extend (.start w expected) (fun i a ha => ?_) (fun j b hb => .inl hb)
    (fun s e he => .inl he) fun t ht => ?_
  · rcases getElem?_concat ha with ha | ⟨rfl, rfl⟩
    · exact .inl ha
    · exact .inr ⟨⟨⟨expected, rfl⟩, fun c hc => (by cases hc), fun c _ _ _ hc => (by cases hc)⟩,
        List.mem_cons_self, fun c hc => (by cases hc)⟩
  · rcases List.mem_cons.1 ht with rfl | ht
    · refine .inr (sendable_frame fun t ht => ?_)
      rcases List.mem_cons.1 ht with rfl | ht
      · exact sendable_public rfl (by simp) (by simp)
      · obtain rfl := List.mem_singleton.1 ht
        exact sendable_public rfl (by simp) (by simp)
    · exact .inl ht

theorem World.Inv.complete (h : w.Inv) (ha : w.InitiatorAt i a) (hcall : a.call = none)
    {party : ℕ} {msg2 : Bytes} (hd : Derives w.knowledge msg2) :
    (w.complete i party msg2 a).Inv := by
  let result := a.state.complete (identityKey party) msg2
  let a' : InitiatorSession := { a with call := some ⟨party, msg2, result, w.leaked⟩ }
  have hnew : (w.complete i party msg2 a).InitiatorAt i a' :=
    List.getElem?_set_self (List.getElem?_eq_some_iff.1 ha).1
  have hold : ∀ i', i' ≠ i → ∀ x, (w.complete i party msg2 a).InitiatorAt i' x ↔
      w.InitiatorAt i' x := by
    intro i' hne x
    exact Eq.congr_left (List.getElem?_set_ne (Ne.symm hne))
  refine h.extend (.complete ha hcall party msg2) (fun i' x hx => ?_) (fun j b hb => .inl hb)
    (fun s e he => .inl he) fun t ht => ?_
  · by_cases hi : i' = i
    · subst hi
      obtain rfl : a' = x := Option.some.inj (hnew.symm.trans hx)
      refine .inr ⟨⟨(h.initiators _ a ha).started, fun c hc => ?_, ?_⟩,
        List.mem_append_right _ (h.msg1 _ a ha), fun c hc t ht => ?_⟩
      · obtain rfl := Option.some.inj hc
        rfl
      · intro c msg3 est p hc hr hp hleak
        obtain rfl := Option.some.inj hc
        exact h.initiator_partner ha hd hr hp hleak
      · obtain rfl := Option.some.inj hc
        exact List.mem_append_left _ ht
    · exact .inl ((hold i' hi x).1 hx)
  · rcases List.mem_append.1 ht with ht | ht
    · -- the third message
      obtain ⟨⟨msg3, est⟩, hresult, rfl⟩ := Option.map_eq_some_iff.1 (Option.mem_toList.1 ht)
      have hok : result = .ok (msg3, est) := toOption_eq_some hresult
      obtain ⟨m, hm, -, -, hmsg3, -⟩ := (h.initiators _ a ha).complete_fields hok
      refine .inr ?_
      change World.Sendable _ msg3
      have hsigned := Signed.initiator hnew rfl hm (by rw [hok, hmsg3])
      rw [hmsg3]
      refine sendable_frame fun t ht => ?_
      rcases List.mem_cons.1 ht with rfl | ht
      · exact sendable_public rfl (by simp) (by simp)
      · obtain rfl := List.mem_singleton.1 ht
        exact sendable_sign hsigned
    · exact .inl ht

theorem World.Inv.respond (h : w.Inv) (party : ℕ) (expected : Option Bytes) (msg1 : Bytes) :
    (w.respond party expected msg1).Inv := by
  have hextends := World.Extends.respond w party expected msg1
  unfold World.respond at hextends ⊢
  split
  · rename_i state msg2 hrespond
    simp only [hrespond] at hextends
    let b' : ResponderSession := ⟨party, msg1, msg2, state, none⟩
    let w' : World := { w with responders := w.responders ++ [b'], net := msg2 :: w.net }
    have hnew : w'.ResponderAt w.responders.length b' := by
      show (w.responders ++ [b'])[w.responders.length]? = some b'
      simp
    have hok : b'.Ok w' w.responders.length :=
      ⟨⟨expected, hrespond⟩, fun d hd => (by cases hd), fun d _ _ hd => (by cases hd)⟩
    refine h.extend hextends (fun i a ha => .inl ha) (fun j b hb => ?_) (fun s e he => .inl he)
      fun t ht => ?_
    · rcases getElem?_concat hb with hb | ⟨rfl, rfl⟩
      · exact .inl hb
      · exact .inr ⟨hok, List.mem_cons_self⟩
    · rcases List.mem_cons.1 ht with rfl | ht
      · -- the second message
        obtain ⟨x, k, -, -, hmsg2, hx, hct, hid, hsig, -⟩ := hok.fields
        have hfields : ∀ t ∈ b'.state.msg2.fields, w'.Sendable t := by
          intro t ht
          simp only [Msg2.fields, Msg2.signed, List.cons_append, List.nil_append, List.mem_cons,
            List.not_mem_nil, or_false] at ht
          rcases ht with rfl | rfl | rfl | rfl
          · rw [hx]
            exact sendable_public rfl (by simp) (by simp)
          · rw [hct]
            change w'.Sendable (Term.encapsulate _ k).1
            unfold Term.encapsulate
            split
            · exact sendable_public rfl (by simp) (by simp)
            · exact sendable_public rfl (by simp) (by simp)
          · rw [hid]
            exact sendable_public rfl (by simp) (by simp)
          · rw [hsig]
            exact sendable_sign (.responder hnew)
        have hframe := sendable_frame hfields
        rw [← hmsg2] at hframe
        exact .inr hframe
      · exact .inl ht
  · exact h

theorem World.Inv.finish (h : w.Inv) (hb : w.ResponderAt j b) (hcall : b.call = none)
    {msg3 : Bytes} (hd : Derives w.knowledge msg3) : (w.finish j msg3 b).Inv := by
  let b' : ResponderSession :=
    { b with call := some ⟨msg3, b.state.complete msg3, w.leaked⟩ }
  have hnew : (w.finish j msg3 b).ResponderAt j b' :=
    List.getElem?_set_self (List.getElem?_eq_some_iff.1 hb).1
  have hold : ∀ j', j' ≠ j → ∀ x, (w.finish j msg3 b).ResponderAt j' x ↔ w.ResponderAt j' x := by
    intro j' hne x
    exact Eq.congr_left (List.getElem?_set_ne (Ne.symm hne))
  refine h.extend (.finish hb hcall msg3) (fun i a ha => .inl ha) (fun j' x hx => ?_)
    (fun s e he => .inl he) fun t ht => .inl ht
  by_cases hj : j' = j
  · subst hj
    obtain rfl : b' = x := Option.some.inj (hnew.symm.trans hx)
    refine .inr ⟨⟨(h.responders _ b hb).answered, fun d hd => ?_, ?_⟩, h.msg2 _ b hb⟩
    · obtain rfl := Option.some.inj hd
      rfl
    · intro d est p hcall hr hp hleak
      obtain rfl := Option.some.inj hcall
      exact h.responder_partner hb hd hr hp hleak
  · exact .inl ((hold j' hj x).1 hx)

/-- The keys of a transport are the session's. -/
theorem World.Inv.endOf (h : w.Inv) {s : Side} {e : End} (he : w.endOf s = some e) :
    ∃ est, w.session s = some est ∧ e.sender.key = est.sender ∧ e.receiver.key = est.receiver := by
  rcases Option.or_eq_some_iff.1 he with he | ⟨-, he⟩
  · exact h.ends s e he
  · obtain ⟨est, hest, rfl⟩ := Option.map_eq_some_iff.1 he
    exact ⟨est, hest, rfl, rfl⟩

/-- **A record may be sent**: whoever has its key may have a fresh message, and another message may
be sent itself. -/
theorem sendable_record {e : Sealing} (he : e ∈ w.sealings) {est : EstablishedSession Bytes}
    (hest : w.session e.side = some est)
    (hm : w.Sendable e.plaintext ∨ e.plaintext = .name (.payload e.side e.seq)) :
    w.Sendable (DataPlane.recordOf est.sender e.seq e.plaintext) := by
  refine sendable_frame fun t ht => ?_
  rcases List.mem_cons.1 ht with rfl | ht
  · exact ⟨fun _ _ => trivial, trivial⟩
  · obtain rfl := List.mem_singleton.1 ht
    refine ⟨fun L hL hkey => ?_, .inr ⟨e, he, est, hest, rfl, rfl, rfl, rfl⟩, ?_⟩
    · rcases hm with hm | hm
      · exact hm.safe L hL
      · rw [hm]
        exact Policy.hybridSafe_leaked.2 (hL.payload e.side est hest hkey e.seq)
    · rcases hm with hm | hm
      · exact hm.handed
      · rw [hm]
        trivial

/-- The transport of one side moves on. -/
theorem World.Inv.ends_update (h : w.Inv) {s : Side} {e e' : End} (he : w.endOf s = some e)
    (hsender : e'.sender.key = e.sender.key) (hreceiver : e'.receiver.key = e.receiver.key)
    (s' : Side) (x : End) (hx : Function.update w.ends s (some e') s' = some x) :
    w.ends s' = some x ∨ ∃ est, w.session s' = some est ∧ x.sender.key = est.sender ∧
      x.receiver.key = est.receiver := by
  by_cases hs : s' = s
  · subst hs
    rw [Function.update_self] at hx
    obtain rfl := Option.some.inj hx
    obtain ⟨est, hest, h1, h2⟩ := h.endOf he
    exact .inr ⟨est, hest, hsender.trans h1, hreceiver.trans h2⟩
  · rw [Function.update_of_ne hs] at hx
    exact .inl hx

theorem World.Inv.send (h : w.Inv) {s : Side} {e : End} {m : Bytes} (he : w.endOf s = some e)
    (hm : Derives w.knowledge m ∨ m = .name (.payload s e.sender.nextSeq)) :
    (w.send s e m).Inv := by
  unfold World.send
  split
  · rename_i record sender hseal
    obtain ⟨-, -, rfl, rfl⟩ := DataPlane.seal_ok hseal
    obtain ⟨est, hest, hsender, -⟩ := h.endOf he
    let w' : World := { w with
      ends := Function.update w.ends s
        (some { e with sender := { e.sender with nextSeq := e.sender.nextSeq + 1 } })
      sealings := ⟨s, e.sender.nextSeq, m⟩ :: w.sealings
      net := DataPlane.recordOf e.sender.key e.sender.nextSeq m :: w.net }
    have hextends : w.Extends w' := .of_sessions rfl rfl (List.subset_cons_self _ _)
      (List.Subset.refl _) (List.subset_cons_self _ _)
    refine h.extend hextends (fun i a ha => .inl ha) (fun j b hb => .inl hb)
      (h.ends_update he rfl rfl) fun t ht => ?_
    rcases List.mem_cons.1 ht with rfl | ht
    · have hin : (⟨s, e.sender.nextSeq, m⟩ : Sealing) ∈ w'.sealings := List.mem_cons_self
      have hrecord := sendable_record hin (hextends.session hest)
        (hm.imp (fun hd => hextends.sendable (h.sendable_of_derives hd)) id)
      rw [← hsender] at hrecord
      exact .inr hrecord
    · exact .inl ht
  · rename_i sender hseal
    obtain rfl := DataPlane.seal_error hseal
    exact h.extend (.of_sessions rfl rfl (List.Subset.refl _) (List.Subset.refl _)
      (List.Subset.refl _)) (fun i a ha => .inl ha) (fun j b hb => .inl hb)
      (h.ends_update he rfl rfl) fun t ht => .inl ht

theorem World.Inv.receive (h : w.Inv) {s : Side} {e : End} (he : w.endOf s = some e)
    (record : Bytes) : (w.receive s e record).Inv := by
  unfold World.receive
  split
  · rename_i plaintext receiver hopen
    obtain ⟨seq, -, -, -, -, -, rfl⟩ := DataPlane.openRecord_ok hopen
    exact h.extend (.of_sessions rfl rfl (List.Subset.refl _) (List.Subset.refl _)
      (List.Subset.refl _)) (fun i a ha => .inl ha) (fun j b hb => .inl hb)
      (h.ends_update he rfl rfl) fun t ht => .inl ht
  · rename_i receiver hopen
    obtain rfl := DataPlane.openRecord_error hopen
    exact h.extend (.of_sessions rfl rfl (List.Subset.refl _) (List.Subset.refl _)
      (List.Subset.refl _)) (fun i a ha => .inl ha) (fun j b hb => .inl hb)
      (h.ends_update he rfl rfl) fun t ht => .inl ht

theorem World.Inv.step (h : w.Inv) {x : Action} (hx : Possible w x) (hs : w.step x = some w') :
    w'.Inv := by
  cases x with
  | start expected =>
    obtain rfl := Option.some.inj hs
    exact h.start expected
  | complete i party msg2 =>
    obtain ⟨a, ha, hs⟩ := Option.bind_eq_some_iff.1 hs
    split at hs
    · cases hs
    · rename_i hcall
      obtain rfl := Option.some.inj hs
      exact h.complete ha (by simpa using hcall) hx
  | respond party expected msg1 =>
    obtain rfl := Option.some.inj hs
    exact h.respond party expected msg1
  | finish j msg3 =>
    obtain ⟨b, hb, hs⟩ := Option.bind_eq_some_iff.1 hs
    split at hs
    · cases hs
    · rename_i hcall
      obtain rfl := Option.some.inj hs
      exact h.finish hb (by simpa using hcall) hx
  | signElsewhere party label fields =>
    have hs' : (if label = "novachannel v1" then none else some { w with
        net := sign (identityKey party) (frame (.lit label :: fields)) :: w.net }) = some w' := hs
    split_ifs at hs' with hlabel
    obtain rfl := Option.some.inj hs'
    refine h.extend (.of_sessions rfl rfl (List.subset_cons_self _ _) (List.Subset.refl _)
      (List.Subset.refl _)) (fun i a ha => .inl ha) (fun j b hb => .inl hb)
      (fun s e he => .inl he) fun t ht => ?_
    rcases List.mem_cons.1 ht with rfl | ht
    · exact .inr (sendable_sign (.elsewhere party fields hlabel))
    · exact .inl ht
  | send s plaintext =>
    obtain ⟨e, he, hs⟩ := Option.bind_eq_some_iff.1 hs
    obtain rfl := Option.some.inj hs
    cases plaintext with
    | none => exact h.send he (.inr rfl)
    | some m => exact h.send he (.inl (hx m rfl))
  | receive s record =>
    obtain ⟨e, he, hs⟩ := Option.bind_eq_some_iff.1 hs
    obtain rfl := Option.some.inj hs
    exact h.receive he record
  | leak n =>
    obtain rfl := Option.some.inj hs
    exact h.extend (.of_sessions rfl rfl (List.Subset.refl _) (List.subset_cons_self _ _)
      (List.Subset.refl _)) (fun i a ha => .inl ha) (fun j b hb => .inl hb)
      (fun s e he => .inl he) fun t ht => .inl ht

/-- The invariant holds in every run. -/
theorem World.Inv.of_reachable (h : attackedMachine.Reachable Possible w) : w.Inv := by
  refine h.invariant (fun w hw => ?_) fun w w' x _ hinv hx hs => hinv.step hx hs
  obtain rfl := hw
  exact ⟨fun _ _ ha => (by cases ha), fun _ _ hb => (by cases hb), fun _ ht => (by cases ht),
    fun _ _ he => (by cases he), fun _ _ ha => (by cases ha), fun _ _ hb => (by cases hb),
    fun _ _ _ ha => (by cases ha)⟩

/-! ### Partners hold one secret -/

/-- The exchanges of the `i`-th initiator session and the `j`-th responder session have each lost
one of the two secrets behind them. -/
def BrokenBy (leaked : List Name) (i j : ℕ) : Prop :=
  (.initiatorDh i ∈ leaked ∨ .responderDh j ∈ leaked) ∧
    (.initiatorKem i ∈ leaked ∨ .responderKem j ∈ leaked)

/-- They have by now. -/
def World.Broken (w : World) (i j : ℕ) : Prop := BrokenBy w.leaked i j

/-- The secret that the two sessions share. -/
def sharedOf (i j : ℕ) : Bytes :=
  frame [dhShared (.name (.initiatorDh i)) (.name (.responderDh j)),
    .fn .kemShared (.name (.initiatorKem i)) (.name (.responderKem j))]

/-- Two sessions that saw the same first and second message, and no other session saw them. -/
structure Partners (w : World) (i : ℕ) (a : InitiatorSession) (c : InitiatorCall) (j : ℕ)
    (b : ResponderSession) : Prop where
  initiator : w.InitiatorAt i a
  responder : w.ResponderAt j b
  msg1 : b.msg1 = frame a.state.msg1
  msg2 : b.msg2 = c.msg2
  only_responder : ∀ j' b', w.ResponderAt j' b' → b'.msg2 = c.msg2 → j' = j
  only_initiator : ∀ i' a' c' r, w.InitiatorAt i' a' → a'.call = some c' → c'.result = .ok r →
    c'.msg2 = c.msg2 → i' = i

theorem fields_inj {m m' : Msg2 Bytes} (h : frame m.fields = frame m'.fields) : m = m' := by
  obtain ⟨m1, m2, m3, m4⟩ := m
  obtain ⟨n1, n2, n3, n4⟩ := m'
  have hlist := list_injective h
  simp only [Msg2.fields, Msg2.signed, List.cons_append, List.nil_append, List.cons.injEq,
    and_true] at hlist
  obtain ⟨rfl, rfl, rfl, rfl⟩ := hlist
  rfl

namespace World.Inv

/-- The ephemeral key of a second message is of one session. -/
theorem responder_unique (h : w.Inv) {j' : ℕ} {b' : ResponderSession} (hb : w.ResponderAt j b)
    (hb' : w.ResponderAt j' b') (h2 : b'.msg2 = b.msg2) : j' = j := by
  obtain ⟨-, -, -, -, hm, hx, -⟩ := (h.responders j b hb).fields
  obtain ⟨-, -, -, -, hm', hx', -⟩ := (h.responders j' b' hb').fields
  have heq := fields_inj (hm'.symm.trans (h2.trans hm))
  rw [heq, hx] at hx'
  exact (Name.responderDh.inj (Term.name.inj (Term.fn.inj hx').2.1)).symm

/-- The ephemeral key of a first message is of one session. -/
theorem initiator_unique (h : w.Inv) {i' : ℕ} {a' : InitiatorSession} (ha : w.InitiatorAt i a)
    (ha' : w.InitiatorAt i' a') (h1 : a'.state.msg1 = a.state.msg1) : i' = i := by
  rw [(h.initiators i a ha).msg1_eq, (h.initiators i' a' ha').msg1_eq] at h1
  exact Name.initiatorDh.inj (Term.name.inj (Term.fn.inj (List.cons.inj h1).1).2.1)

/-- **A second message is accepted by one initiator session at most**: its signature names the
first message. -/
theorem accepted_once (h : w.Inv) (ha : w.InitiatorAt i a) (hb : w.ResponderAt j b)
    (h1 : b.msg1 = frame a.state.msg1) {i' : ℕ} {a' : InitiatorSession} {c' : InitiatorCall}
    {r : Bytes × EstablishedSession Bytes} (ha' : w.InitiatorAt i' a') (hc' : a'.call = some c')
    (hr : c'.result = .ok r) (h2 : c'.msg2 = b.msg2) : i' = i := by
  obtain ⟨m, hm, -, hverify, -⟩ :=
    (h.initiators i' a' ha').complete_fields (((h.initiators i' a' ha').called c' hc').symm.trans hr)
  obtain ⟨x, k, hb1, hst, hb2, -, -, hid, hsig, -⟩ := (h.responders j b hb).fields
  obtain rfl := fields_inj (hm.symm.trans (h2.trans hb2))
  rw [hid] at hverify
  -- one signature, so one transcript
  have hsame := (Term.fn.inj ((eq_sign_of_verify hverify).symm.trans hsig)).2.2
  have hlist := (List.cons.inj (list_injective hsame)).2
  have hmsg1 : a'.state.msg1 = b.state.msg1 := List.append_cancel_right hlist
  refine h.initiator_unique ha ha' (hmsg1.trans ?_)
  rw [hst]
  exact list_injective (hb1.symm.trans h1)

/-- What partners compute from the second message is the secret they share. -/
theorem shared_eq (h : w.Inv) (ha : w.InitiatorAt i a) (hb : w.ResponderAt j b)
    (h1 : b.msg1 = frame a.state.msg1) :
    frame [diffieHellman (.name (.initiatorDh i)) b.state.msg2.x25519,
        Crypto.decapsulate (.name (.initiatorKem i)) b.state.msg2.mlKemCt] = sharedOf i j ∧
      b.state.sharedSecret = sharedOf i j := by
  obtain ⟨x, k, hb1, -, -, hx, hct, -, -, hss⟩ := (h.responders j b hb).fields
  have hlist := list_injective (hb1.symm.trans h1)
  rw [(h.initiators i a ha).msg1_eq] at hlist
  obtain ⟨rfl, htail⟩ := List.cons.inj hlist
  obtain ⟨rfl, -⟩ := List.cons.inj htail
  rw [hx, hct, hss]
  constructor
  · have hkem := LawfulCrypto.decapsulate_encapsulate (Term.name (Name.initiatorKem i))
      (Term.name (Name.responderKem j))
    rw [hkem]
    rfl
  · rw [LawfulCrypto.diffieHellman_comm]
    rfl

/-- What partners share is known only when both exchanges lost a secret. -/
theorem broken_of_hybridSafe {leaked : List Name} {L : Name → Prop}
    (hL : ∀ n, L n → KnownBy leaked n) (h : (Policy.leakPolicy L).HybridSafe (sharedOf i j)) :
    BrokenBy leaked i j := by
  have hname : ∀ n, (∀ s seq, n ≠ .payload s seq) → L n → n ∈ leaked := fun n hn hLn =>
    (hL n hLn).resolve_right fun ⟨s, seq, heq⟩ => hn s seq heq
  have hfields := Policy.hybridSafe_list.1 h
  constructor
  · exact (Policy.hybridSafe_dh.1 (hfields _ List.mem_cons_self)).imp
      (hname _ fun _ _ => by simp) (hname _ fun _ _ => by simp)
  · exact (Policy.hybridSafe_kem.1 (hfields _ (List.mem_cons_of_mem _ List.mem_cons_self))).imp
      (hname _ fun _ _ => by simp) (hname _ fun _ _ => by simp)

/-- Whoever has one secret of each exchange computes what partners share. -/
theorem derives_shared (h : w.Inv) (ha : w.InitiatorAt i a) (hb : w.ResponderAt j b)
    (h1 : b.msg1 = frame a.state.msg1) (hbroken : w.Broken i j) :
    Derives w.knowledge (sharedOf i j) := by
  have hleaked : ∀ {n n' : Name}, n ∈ w.leaked ∨ n' ∈ w.leaked →
      Derives w.knowledge (.name n) ∨ Derives w.knowledge (.name n') := fun hn =>
    hn.imp (fun hn => .known (.inr (.inl ⟨_, hn, rfl⟩))) fun hn => .known (.inr (.inl ⟨_, hn, rfl⟩))
  have hmsg1 : Derives w.knowledge (frame a.state.msg1) := .known (.inr (.inr (h.msg1 i a ha)))
  have hmsg2 : Derives w.knowledge b.msg2 := .known (.inr (.inr (h.msg2 j b hb)))
  obtain ⟨x, k, hb1, -, hm2, hx, hct, -⟩ := (h.responders j b hb).fields
  have hlist := list_injective (hb1.symm.trans h1)
  rw [(h.initiators i a ha).msg1_eq] at hlist hmsg1
  obtain ⟨-, hlist⟩ := List.cons.inj hlist
  obtain ⟨rfl, -⟩ := List.cons.inj hlist
  rw [hm2] at hmsg2
  have heph : Derives w.knowledge (dhPublic (.name (.responderDh j))) := by
    have hd := hmsg2.of_list (t := b.state.msg2.x25519) (by simp [Msg2.fields, Msg2.signed])
    rwa [hx] at hd
  have hkem : Derives w.knowledge
      (.fn .kemCiphertext (.name (.initiatorKem i)) (.name (.responderKem j))) := by
    have hd := hmsg2.of_list (t := b.state.msg2.mlKemCt) (by simp [Msg2.fields, Msg2.signed])
    rwa [hct] at hd
  refine .list fun t ht => ?_
  rcases List.mem_cons.1 ht with rfl | ht
  · exact .dhShared_of_either (hleaked hbroken.1) (hmsg1.of_list List.mem_cons_self) heph
  · obtain rfl := List.mem_singleton.1 ht
    exact .kemShared_of_either (hleaked hbroken.2)
      (hmsg1.of_list (List.mem_cons_of_mem _ List.mem_cons_self)) hkem

end World.Inv

/-! ### The result -/

/-- A transcript that was sent in parts is public. -/
theorem derives_transcript {K : Set Bytes} {msg1 msg2 : List Bytes} {identity sig : Bytes}
    (h1 : Derives K (frame msg1)) (h2 : Derives K (frame msg2))
    (h3 : Derives K (frame [identity, sig])) :
    ∀ t ∈ transcript2 msg1 msg2 [identity] ++ [sig], Derives K t := by
  intro t ht
  rw [transcript2_eq] at ht
  simp only [List.cons_append, List.append_assoc, List.nil_append, List.mem_cons,
    List.mem_append, List.not_mem_nil, or_false] at ht
  rcases ht with rfl | ht | ht | rfl | rfl
  · exact .lit _
  · exact h1.of_list ht
  · exact h2.of_list ht
  · exact h3.of_list List.mem_cons_self
  · exact h3.of_list (List.mem_cons_of_mem _ List.mem_cons_self)

/-- The messages that a side hashed: they start with the ephemeral keys, one of which is its own. -/
def Side.Ran : Side → List Bytes → Prop
  | .initiator i, T => ∃ rest, T = context :: x25519Public (.name (.initiatorDh i)) :: rest
  | .responder j, T =>
    ∃ x k rest, T = context :: x :: k :: x25519Public (.name (.responderDh j)) :: rest

/-- The session's keys are expanded from the secret that both sides share, over what they sent. -/
def World.Shares (w : World) (i j : ℕ) (isInitiator : Bool) (est : EstablishedSession Bytes) :
    Prop :=
  ∃ T, est = finalizeKeys (sharedOf i j) T isInitiator est.peer ∧ (Side.initiator i).Ran T ∧
    (Side.responder j).Ran T ∧ ∀ t ∈ T, Derives w.knowledge t

/-- Who derives such a key broke both exchanges. -/
theorem World.Inv.derives_iff (h : w.Inv) {c : InitiatorCall} (hp : Partners w i a c j b)
    {isInitiator : Bool} {est : EstablishedSession Bytes} (hs : w.Shares i j isInitiator est) :
    ∀ key ∈ sessionKeys est, Derives w.knowledge key ↔ w.Broken i j := by
  intro key hkey
  obtain ⟨T, hest, -, -, hT⟩ := hs
  rw [hest] at hkey
  exact derives_sessionKey isInitiator (h.safe_knowledge w.consistent_knownBy) hT
    (broken_of_hybridSafe fun _ => id) (h.derives_shared hp.initiator hp.responder hp.msg1) hkey

theorem ran_initiator (k : Bytes) (msg2 msg3Signed final : List Bytes) : (Side.initiator i).Ran
    (transcript2 [x25519Public (.name (.initiatorDh i)), k] msg2 msg3Signed ++ final) :=
  ⟨_, rfl⟩

theorem ran_responder {x k : Bytes} {m : Msg2 Bytes}
    (hm : m.x25519 = x25519Public (.name (.responderDh j))) (msg3Signed final : List Bytes) :
    (Side.responder j).Ran (transcript2 [x, k] m.fields msg3Signed ++ final) := by
  refine ⟨x, k, [m.mlKemCt, m.identity, m.signature] ++ msg3Signed ++ final, ?_⟩
  rw [← hm]
  rfl

/-- What partners hashed. -/
theorem World.Inv.ran_transcript (h : w.Inv) (ha : w.InitiatorAt i a) (hb : w.ResponderAt j b)
    (msg3Signed final : List Bytes) :
    (Side.initiator i).Ran (transcript2 a.state.msg1 b.state.msg2.fields msg3Signed ++ final) ∧
      (Side.responder j).Ran (transcript2 a.state.msg1 b.state.msg2.fields msg3Signed ++ final) := by
  obtain ⟨-, -, -, -, -, hx, -⟩ := (h.responders j b hb).fields
  rw [(h.initiators i a ha).msg1_eq]
  exact ⟨ran_initiator _ _ _ _, ran_responder hx _ _⟩

/-- The initiator's half: a session that accepted a party has that party's session as a partner. -/
theorem World.Inv.initiator_secure (h : w.Inv) {c : InitiatorCall} {msg3 : Bytes}
    {est : EstablishedSession Bytes} {p : ℕ} (ha : w.InitiatorAt i a) (hc : a.call = some c)
    (hr : c.result = .ok (msg3, est)) (hp : est.peer = identityOf p)
    (hleak : .identity p ∉ c.leakedBefore) :
    ∃ j b, Partners w i a c j b ∧ b.party = p ∧ w.Shares i j true est := by
  have haok := h.initiators i a ha
  obtain ⟨j, b, hb, hparty, h1, h2⟩ := haok.partner c msg3 est p hc hr hp hleak
  have hpartners : Partners w i a c j b :=
    ⟨ha, hb, h1, h2, fun j' b' hb' h2' => h.responder_unique hb hb' (h2'.trans h2.symm),
      fun i' a' c' r ha' hc' hr' h2' => h.accepted_once ha hb h1 ha' hc' hr' (h2'.trans h2.symm)⟩
  obtain ⟨m, hm, -, -, hmsg3, hest⟩ := haok.complete_fields ((haok.called c hc).symm.trans hr)
  obtain ⟨x, k, hb1, -, hb2, -⟩ := (h.responders j b hb).fields
  obtain rfl := fields_inj (hm.symm.trans (h2.symm.trans hb2))
  obtain ⟨hshared, -⟩ := h.shared_eq ha hb h1
  rw [hshared] at hest
  -- the whole transcript was sent
  have hnet1 : Derives w.knowledge (frame a.state.msg1) := .known (.inr (.inr (h.msg1 i a ha)))
  have hnet2 : Derives w.knowledge (frame b.state.msg2.fields) := by
    rw [← hb2]
    exact .known (.inr (.inr (h.msg2 j b hb)))
  have hnet3 : Derives w.knowledge msg3 :=
    .known (.inr (.inr (h.msg3 i a c ha hc msg3 (by rw [hr]; exact List.mem_singleton_self _))))
  rw [hmsg3] at hnet3
  obtain ⟨hran, hran'⟩ := h.ran_transcript ha hb [identityOf c.party] [sign (identityKey c.party)
    (frame (transcript2 a.state.msg1 b.state.msg2.fields [identityOf c.party]))]
  refine ⟨j, b, hpartners, hparty, _, ?_, hran, hran', derives_transcript hnet1 hnet2 hnet3⟩
  rw [hest]
  rfl

/-- The responder's half: a session that accepted a party has that party's session as a partner, and
both hold the same keys. -/
theorem World.Inv.responder_secure (h : w.Inv) {d : ResponderCall}
    {est : EstablishedSession Bytes} {p : ℕ} (hb : w.ResponderAt j b) (hd : b.call = some d)
    (hr : d.result = .ok est) (hp : est.peer = identityOf p)
    (hleak : .identity p ∉ d.leakedBefore) :
    ∃ i a c est', Partners w i a c j b ∧ a.call = some c ∧ c.party = p ∧
      c.result = .ok (d.msg3, est') ∧ est'.peer = identityOf b.party ∧
      est'.sender = est.receiver ∧ est'.receiver = est.sender ∧
      est'.ratchetRoot = est.ratchetRoot ∧ w.Shares i j false est := by
  have hbok := h.responders j b hb
  obtain ⟨i, a, c, est', ha, hc, hparty, h1, h2, hres⟩ := hbok.partner d est p hd hr hp hleak
  have haok := h.initiators i a ha
  have hpartners : Partners w i a c j b :=
    ⟨ha, hb, h1.symm, h2.symm, fun j' b' hb' h2' => h.responder_unique hb hb' (h2'.trans h2),
      fun i' a' c' r ha' hc' hr' h2' =>
        h.accepted_once ha hb h1.symm ha' hc' hr' (h2'.trans h2)⟩
  obtain ⟨m, hm, hpeer, -, hmsg3, hest'⟩ :=
    haok.complete_fields ((haok.called c hc).symm.trans hres)
  obtain ⟨x, k, hb1, hst, hb2, -, -, hid, -⟩ := hbok.fields
  obtain rfl := fields_inj (hm.symm.trans (h2.trans hb2))
  obtain ⟨hshared, hshared'⟩ := h.shared_eq ha hb h1.symm
  obtain ⟨identity, sig, hread, -, hest⟩ :=
    responderComplete_eq_ok ((hbok.called d hd).symm.trans hr)
  -- both sides hashed the same messages
  have hmsg1 : b.state.msg1 = a.state.msg1 := by
    rw [hst]
    exact list_injective (hb1.symm.trans h1.symm)
  have hfinal := list_injective ((eq_list_of_unlist hread).symm.trans hmsg3)
  obtain ⟨rfl, htail⟩ := List.cons.inj hfinal
  obtain ⟨rfl, -⟩ := List.cons.inj htail
  rw [hshared', hmsg1] at hest
  rw [hshared] at hest'
  refine ⟨i, a, c, est', hpartners, hc, hparty, hres, hpeer.trans hid, ?_, ?_, ?_, ?_⟩
  · rw [hest, hest']
    rfl
  · rw [hest, hest']
    rfl
  · rw [hest, hest']
    rfl
  · have hnet1 : Derives w.knowledge (frame a.state.msg1) := .known (.inr (.inr (h.msg1 i a ha)))
    have hnet2 : Derives w.knowledge (frame b.state.msg2.fields) := by
      rw [← hb2]
      exact .known (.inr (.inr (h.msg2 j b hb)))
    have hnet3 : Derives w.knowledge d.msg3 :=
      .known (.inr (.inr (h.msg3 i a c ha hc _ (by rw [hres]; exact List.mem_singleton_self _))))
    rw [hmsg3] at hnet3
    obtain ⟨hran, hran'⟩ := h.ran_transcript ha hb [identityOf c.party]
      [sign (identityKey c.party)
        (frame (transcript2 a.state.msg1 b.state.msg2.fields [identityOf c.party]))]
    refine ⟨_, ?_, hran, hran', derives_transcript hnet1 hnet2 hnet3⟩
    rw [hest]
    rfl

/-- **The handshake is secure.**  In every run, whoever delivers the messages and whatever leaks:

* an initiator session that accepted a party whose signing key had not leaked by then has a partner,
  a responder session of that party that saw the same two messages, and nobody else did;
* a responder session that accepted such a party has a partner that completed, with the same keys;
* and now, or at any later time, the adversary derives a key of theirs exactly when the
  Diffie-Hellman exchange and the encapsulation have each lost one of their ephemeral secrets.

The signing keys may leak afterwards, and every other session may be broken. -/
theorem handshake_secure (h : attackedMachine.Reachable Possible w) :
    (∀ i a c msg3 est p, w.InitiatorAt i a → a.call = some c → c.result = .ok (msg3, est) →
      est.peer = identityOf p → .identity p ∉ c.leakedBefore →
      ∃ j b, Partners w i a c j b ∧ b.party = p ∧
        ∀ key ∈ sessionKeys est, Derives w.knowledge key ↔ w.Broken i j) ∧
    ∀ j b d est p, w.ResponderAt j b → b.call = some d → d.result = .ok est →
      est.peer = identityOf p → .identity p ∉ d.leakedBefore →
      ∃ i a c est', Partners w i a c j b ∧ a.call = some c ∧ c.party = p ∧
        c.result = .ok (d.msg3, est') ∧ est'.peer = identityOf b.party ∧
        est'.sender = est.receiver ∧ est'.receiver = est.sender ∧
        est'.ratchetRoot = est.ratchetRoot ∧
        ∀ key ∈ sessionKeys est, Derives w.knowledge key ↔ w.Broken i j := by
  have hinv := World.Inv.of_reachable h
  constructor
  · intro i a c msg3 est p ha hc hr hp hleak
    obtain ⟨j, b, hpartners, hparty, hs⟩ := hinv.initiator_secure ha hc hr hp hleak
    exact ⟨j, b, hpartners, hparty, hinv.derives_iff hpartners hs⟩
  · intro j b d est p hb hd hr hp hleak
    obtain ⟨i, a, c, est', hpartners, hc, hparty, hres, hpeer, h1, h2, h3, hs⟩ :=
      hinv.responder_secure hb hd hr hp hleak
    exact ⟨i, a, c, est', hpartners, hc, hparty, hres, hpeer, h1, h2, h3,
      hinv.derives_iff hpartners hs⟩

end Invariant

/-! ### A run -/

section Sample

/-- The first message of party `0`, which expects party `1`. -/
def sampleState : InitiatorHandshakeState Bytes := World.startState 0 (some (identityOf 1))

/-- What party `1`, which expects party `0`, answers. -/
def sampleAnswer : Msg2 Bytes :=
  let ct := (Crypto.encapsulate (mlKemPublic (.name (.initiatorKem 0))) (.name (.responderKem 0))).1
  let x25519 : Bytes := x25519Public (.name (.responderDh 0))
  ⟨x25519, ct, identityOf 1,
    sign (identityKey 1) (frame (transcript1 sampleState.msg1 [x25519, ct, identityOf 1]))⟩

/-- The state of party `1`. -/
def sampleResponder : ResponderHandshakeState Bytes :=
  ⟨sampleState.msg1, sampleAnswer, frame [diffieHellman (.name (.responderDh 0))
    (x25519Public (.name (.initiatorDh 0))), (Crypto.encapsulate
      (mlKemPublic (.name (.initiatorKem 0))) (.name (.responderKem 0))).2], some (identityOf 0)⟩

/-- What party `0` signs. -/
def sampleTranscript : List Bytes :=
  transcript2 sampleState.msg1 sampleAnswer.fields [identityOf 0]

/-- The third message. -/
def sampleMsg3 : Bytes := frame [identityOf 0, sign (identityKey 0) (frame sampleTranscript)]

/-- The session of party `0`. -/
def sampleSession : EstablishedSession Bytes :=
  finalizeKeys (frame [diffieHellman (.name (.initiatorDh 0)) sampleAnswer.x25519,
    Crypto.decapsulate (.name (.initiatorKem 0)) sampleAnswer.mlKemCt])
    (sampleTranscript ++ [sign (identityKey 0) (frame sampleTranscript)]) true (identityOf 1)

theorem sample_complete : sampleState.complete (identityKey 0) (frame sampleAnswer.fields) =
    .ok (sampleMsg3, sampleSession) := by
  decide +kernel

/-- The session of party `1`. -/
def sampleSession' : EstablishedSession Bytes :=
  finalizeKeys sampleResponder.sharedSecret
    (sampleTranscript ++ [sign (identityKey 0) (frame sampleTranscript)]) false (identityOf 0)

theorem sample_finish : sampleResponder.complete sampleMsg3 = .ok sampleSession' := by
  decide +kernel

/-- Both parties completed, and then some names leaked. -/
def sampleWorld (leaked : List Name) : World where
  initiators := [⟨sampleState, some ⟨0, frame sampleAnswer.fields, .ok (sampleMsg3, sampleSession),
    []⟩⟩]
  responders := [⟨1, frame sampleState.msg1, frame sampleAnswer.fields, sampleResponder,
    some ⟨sampleMsg3, .ok sampleSession', []⟩⟩]
  net := [sampleMsg3, frame sampleAnswer.fields, frame sampleState.msg1]
  leaked := leaked
  ends _ := none
  sealings := []
  openings := []

theorem reachable_sampleWorld (leaked : List Name) :
    attackedMachine.Reachable Possible (sampleWorld leaked) := by
  induction leaked with
  | cons n leaked ih => exact ih.step (a := .leak n) trivial rfl
  | nil =>
    let w1 : World := ⟨[⟨sampleState, none⟩], [], [frame sampleState.msg1], [], fun _ => none, [], []⟩
    let w2 : World := ⟨[⟨sampleState, none⟩],
      [⟨1, frame sampleState.msg1, frame sampleAnswer.fields, sampleResponder, none⟩],
      [frame sampleAnswer.fields, frame sampleState.msg1], [], fun _ => none, [], []⟩
    let w3 : World := ⟨[⟨sampleState, some ⟨0, frame sampleAnswer.fields,
        .ok (sampleMsg3, sampleSession), []⟩⟩],
      [⟨1, frame sampleState.msg1, frame sampleAnswer.fields, sampleResponder, none⟩],
      [sampleMsg3, frame sampleAnswer.fields, frame sampleState.msg1], [], fun _ => none, [], []⟩
    have h1 : attackedMachine.Reachable Possible w1 :=
      (Machine.Reachable.init rfl).step (a := .start (some (identityOf 1))) trivial rfl
    have h2 : attackedMachine.Reachable Possible w2 :=
      h1.step (a := .respond 1 (some (identityOf 0)) (frame sampleState.msg1))
        (.known (.inr (.inr List.mem_cons_self))) rfl
    have h3 : attackedMachine.Reachable Possible w3 := by
      refine h2.step (a := .complete 0 0 (frame sampleAnswer.fields))
        (.known (.inr (.inr List.mem_cons_self))) ?_
      change some (World.complete w2 0 0 (frame sampleAnswer.fields) ⟨sampleState, none⟩) = some w3
      rw [World.complete]
      simp only [sample_complete]
      rfl
    refine h3.step (a := .finish 0 sampleMsg3) (.known (.inr (.inr List.mem_cons_self))) ?_
    change some (World.finish w3 0 sampleMsg3 _) = some (sampleWorld [])
    rw [World.finish, sample_finish]
    rfl

/-- The keys of this handshake stay secret when both signing keys and one ephemeral secret leak
after it, and are lost with one secret of each exchange. -/
theorem handshake_secure_sample :
    (∀ key ∈ sessionKeys sampleSession,
      ¬ Derives (sampleWorld [.identity 0, .identity 1, .initiatorDh 0]).knowledge key) ∧
    ∀ key ∈ sessionKeys sampleSession',
      Derives (sampleWorld [.responderKem 0, .initiatorDh 0]).knowledge key := by
  have honly : ∀ {leaked j b}, (sampleWorld leaked).ResponderAt j b → j = 0 := by
    intro leaked j b hb
    have hlt := (List.getElem?_eq_some_iff.1 hb).1
    exact Nat.lt_one_iff.1 hlt
  have honly' : ∀ {leaked i a}, (sampleWorld leaked).InitiatorAt i a → i = 0 := by
    intro leaked i a ha
    have hlt := (List.getElem?_eq_some_iff.1 ha).1
    exact Nat.lt_one_iff.1 hlt
  constructor
  · intro key hkey hd
    obtain ⟨hinitiator, -⟩ := handshake_secure
      (reachable_sampleWorld [.identity 0, .identity 1, .initiatorDh 0])
    obtain ⟨j, b, hpartners, -, hkeys⟩ := hinitiator 0 _ _ _ _ 1 rfl rfl rfl rfl (by simp)
    obtain rfl := honly hpartners.responder
    obtain ⟨-, hkem⟩ := (hkeys key hkey).1 hd
    simp [sampleWorld] at hkem
  · intro key hkey
    obtain ⟨-, hresponder⟩ := handshake_secure
      (reachable_sampleWorld [.responderKem 0, .initiatorDh 0])
    obtain ⟨i, a, c, est', hpartners, -, -, -, -, -, -, -, hkeys⟩ :=
      hresponder 0 _ _ _ 0 rfl rfl rfl rfl (by simp)
    obtain rfl := honly' hpartners.initiator
    exact (hkeys key hkey).2 ⟨.inl (by simp [sampleWorld]), .inr (by simp [sampleWorld])⟩

end Sample

end Attacked

end HybridHandshake

end NovaChannel
