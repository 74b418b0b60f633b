import NovaChannel.Handshake.Secure

/-!
# The channel

Records over the sessions of the handshake, in the same runs.

* `World.ChannelInv` : where every record that was opened comes from, and that the filters and
  counters of the transports agree with what happened, as an invariant;
* `secure_channel` : **what a side opens was sealed by its partner, each number opens once, and a
  fresh message stays between the two**, until each exchange has lost a secret;
* `nonces_unique` : **no nonce is used twice with a key**, whatever leaks;
* `opens_iff` : a record of the other side opens exactly when its number is fresh.
-/

namespace NovaChannel

namespace HybridHandshake

namespace Attacked

open Crypto Term
open X3dh (EstablishedSession)

/-! ### Keys of different sides -/

/-- The role of a side. -/
def Side.isInitiator : Side → Bool
  | .initiator _ => true
  | .responder _ => false

section Keys

variable {w : World} {s s' : Side} {est est' : EstablishedSession Bytes} {ss ss' peer peer' : Bytes}
  {T T' : List Bytes} {r r' : Bool}

/-- The ephemeral keys in a transcript are of one session in each role. -/
theorem Side.Ran.unique (h : s.Ran T) (h' : s'.Ran T) (hrole : s.isInitiator = s'.isInitiator) :
    s = s' := by
  cases s with
  | initiator i =>
    cases s' with
    | initiator i' =>
      obtain ⟨rest, rfl⟩ := h
      obtain ⟨rest', hT⟩ := h'
      have hkey := (List.cons.inj (List.cons.inj hT).2).1
      rw [Name.initiatorDh.inj (Term.name.inj (Term.fn.inj hkey).2.1)]
    | responder j' => cases hrole
  | responder j =>
    cases s' with
    | initiator i' => cases hrole
    | responder j' =>
      obtain ⟨x, k, rest, rfl⟩ := h
      obtain ⟨x', k', rest', hT⟩ := h'
      have hkey := (List.cons.inj (List.cons.inj (List.cons.inj (List.cons.inj hT).2).2).2).1
      rw [Name.responderDh.inj (Term.name.inj (Term.fn.inj hkey).2.1)]

/-- What one role receives with is what the other sends with. -/
theorem receiver_finalizeKeys (peer' : Bytes) :
    (finalizeKeys ss T r peer).receiver = (finalizeKeys ss T (!r) peer').sender := by
  cases r <;> rfl

/-- A key names its role, its secret and its transcript. -/
theorem sender_inj
    (h : (finalizeKeys ss T r peer).sender.key = (finalizeKeys ss' T' r' peer').sender.key) :
    r = r' ∧ ss = ss' ∧ T = T' := by
  have hform : ∀ (ss : Bytes) (T : List Bytes) (r : Bool) (peer : Bytes),
      (finalizeKeys ss T r peer).sender.key = slice 0 32 (hkdfExpand 44 (sessionPrk ss T)
        (.lit (if r then "novachannel v1 initiator->responder"
          else "novachannel v1 responder->initiator"))) := by
    intro ss T r peer
    cases r <;> rfl
  rw [hform, hform] at h
  obtain ⟨-, hprk, hlabel⟩ := Term.fn.inj (Term.fn.inj h).2.1
  obtain ⟨-, hsalt, hss⟩ := Term.fn.inj hprk
  refine ⟨?_, hss, list_injective (Term.fn.inj hsalt).2.1⟩
  have hlit := Term.lit.inj hlabel
  cases r <;> cases r' <;> simp_all

/-- A session's keys come from a transcript with the side's own ephemeral key. -/
theorem World.Inv.session_form (h : w.Inv) (hs : w.session s = some est) :
    ∃ ss T, est = finalizeKeys ss T s.isInitiator est.peer ∧ s.Ran T := by
  cases s with
  | initiator i =>
    obtain ⟨a, c, msg3, ha, hc, hr⟩ := World.session_initiator.1 hs
    have haok := h.initiators i a ha
    obtain ⟨m, -, -, -, -, hest⟩ := haok.complete_fields ((haok.called c hc).symm.trans hr)
    rw [haok.msg1_eq] at hest
    subst hest
    exact ⟨_, _, rfl, ran_initiator _ _ _ _⟩
  | responder j =>
    obtain ⟨b, d, hb, hd, hr⟩ := World.session_responder.1 hs
    have hbok := h.responders j b hb
    obtain ⟨x, k, -, hst, -, hx, -⟩ := hbok.fields
    obtain ⟨identity, sig, -, -, hest⟩ :=
      responderComplete_eq_ok ((hbok.called d hd).symm.trans hr)
    rw [hst] at hest
    subst hest
    exact ⟨_, _, rfl, ran_responder hx _ _⟩

/-- **Every side sends with its own key.** -/
theorem World.Inv.side_unique (h : w.Inv) (hs : w.session s = some est)
    (hs' : w.session s' = some est') (hkey : est.sender.key = est'.sender.key) : s = s' := by
  obtain ⟨ss, T, hest, hran⟩ := h.session_form hs
  obtain ⟨ss', T', hest', hran'⟩ := h.session_form hs'
  rw [hest, hest'] at hkey
  obtain ⟨hrole, -, rfl⟩ := sender_inj hkey
  exact hran.unique hran' hrole

end Keys

/-! ### What the transports did -/

/-- The numbers of the records that a side opened. -/
def World.opened (w : World) (s : Side) : Set ℕ :=
  {seq | ∃ o ∈ w.openings, o.side = s ∧ o.seq = seq}

/-- A message that was sealed was sent. -/
def Sealing.Sent (w : World) (x : Sealing) : Prop :=
  x.seq < 2 ^ 64 ∧ ByteString.len x.plaintext ≤ Transport.maxPlaintextLen ∧
    ∃ est, w.session x.side = some est ∧
      DataPlane.recordOf est.sender x.seq x.plaintext ∈ w.net

/-- A message that was opened: the key might have been known before, or a side sealed it. -/
def Opening.Sound (w : World) (o : Opening) : Prop :=
  ∃ est, w.session o.side = some est ∧
    ((Policy.leakPolicy (KnownBy o.leakedBefore)).HybridSafe est.receiver.key ∨
      ∃ x ∈ w.sealings, ∃ est', w.session x.side = some est' ∧
        est.receiver.key = est'.sender.key ∧ x.seq = o.seq ∧ x.plaintext = o.plaintext)

/-- The invariant of the transports. -/
structure World.ChannelInv (w : World) : Prop where
  ends : ∀ s e, w.endOf s = some e → e.receiver.filter.Tracks (w.opened s) ∧
    ∀ x ∈ w.sealings, x.side = s → x.seq < e.sender.nextSeq
  sent : ∀ x ∈ w.sealings, x.Sent w
  sealings : w.sealings.Pairwise fun x y => x.side = y.side → x.seq ≠ y.seq
  sound : ∀ o ∈ w.openings, o.Sound w
  openings : w.openings.Pairwise fun o o' => o.side = o'.side → o.seq ≠ o'.seq

section Invariant

variable {w w' : World} {s s' : Side} {e e' : End} {est est' : EstablishedSession Bytes}

theorem World.Extends.sent (hw : w.Extends w') {x : Sealing} (h : x.Sent w) : x.Sent w' := by
  obtain ⟨hseq, hlen, est, hest, hnet⟩ := h
  exact ⟨hseq, hlen, est, hw.session hest, hw.net hnet⟩

theorem World.Extends.sound (hw : w.Extends w') {o : Opening} (h : o.Sound w) : o.Sound w' := by
  obtain ⟨est, hest, horigin⟩ := h
  refine ⟨est, hw.session hest, horigin.imp id ?_⟩
  rintro ⟨x, hx, est', hest', hx'⟩
  exact ⟨x, hw.sealings hx, est', hw.session hest', hx'⟩

/-- The transport of one side moved on, and no other. -/
theorem endOf_update {net : List Bytes} {sealings : List Sealing} {openings : List Opening}
    (h : World.endOf ⟨w.initiators, w.responders, net, w.leaked,
      Function.update w.ends s (some e), sealings, openings⟩ s' = some e') :
    s' = s ∧ e' = e ∨ s' ≠ s ∧ w.endOf s' = some e' := by
  change (Function.update w.ends s (some e) s').or ((w.session s').map .new) = some e' at h
  by_cases hs : s' = s
  · subst hs
    rw [Function.update_self] at h
    exact .inl ⟨rfl, (Option.some.inj h).symm⟩
  · rw [Function.update_of_ne hs] at h
    exact .inr ⟨hs, h⟩

namespace World.ChannelInv

/-- Steps of the handshake leave the transports alone, and a new session has a new transport. -/
theorem of_extends (h : w.ChannelInv) (hw : w.Extends w') (he : w'.ends = w.ends)
    (hs : w'.sealings = w.sealings) (ho : w'.openings = w.openings) : w'.ChannelInv where
  ends s e hend := by
    have hopened : w'.opened s = w.opened s := by
      unfold World.opened
      rw [ho]
    rw [hopened, hs]
    rw [World.endOf, he] at hend
    rcases Option.or_eq_some_iff.1 hend with hend | ⟨hnone, hend⟩
    · exact h.ends s e (Option.or_eq_some_iff.2 (.inl hend))
    · obtain ⟨est, hest, rfl⟩ := Option.map_eq_some_iff.1 hend
      cases hold : w.session s with
      | some est' =>
        obtain rfl : est' = est := Option.some.inj ((hw.session hold).symm.trans hest)
        refine h.ends s _ ?_
        rw [World.endOf, hnone, hold]
        rfl
      | none =>
        -- nothing was sealed or opened without a session
        have hempty : w.opened s = ∅ := by
          refine Set.eq_empty_iff_forall_notMem.2 ?_
          rintro seq ⟨o, hmem, rfl, -⟩
          obtain ⟨est', hest', -⟩ := h.sound o hmem
          rw [hold] at hest'
          cases hest'
        rw [hempty]
        refine ⟨Transport.Receiver.tracks_new _, fun x hx hside => ?_⟩
        obtain ⟨-, -, est', hest', -⟩ := h.sent x hx
        rw [hside, hold] at hest'
        cases hest'
  sent x hx := hw.sent (h.sent x (hs ▸ hx))
  sealings := by
    rw [hs]
    exact h.sealings
  sound o hmem := hw.sound (h.sound o (ho ▸ hmem))
  openings := by
    rw [ho]
    exact h.openings

/-- A call that fails leaves a transport as it was. -/
theorem idle (h : w.ChannelInv) (he : w.endOf s = some e) :
    ({ w with ends := Function.update w.ends s (some e) } : World).ChannelInv where
  ends s' e' he' := by
    rcases endOf_update he' with ⟨rfl, rfl⟩ | ⟨-, hend⟩
    · exact h.ends s' e' he
    · exact h.ends s' e' hend
  sent := h.sent
  sealings := h.sealings
  sound := h.sound
  openings := h.openings

theorem send (h : w.ChannelInv) (hinv : w.Inv) (he : w.endOf s = some e) (m : Bytes) :
    (w.send s e m).ChannelInv := by
  unfold World.send
  split
  · rename_i record sender hseal
    obtain ⟨hlt, hlen, rfl, rfl⟩ := DataPlane.seal_ok hseal
    obtain ⟨est, hest, hsender, -⟩ := hinv.endOf he
    obtain ⟨htracks, hbelow⟩ := h.ends s e he
    let w' : World := { w with
      ends := Function.update w.ends s
        (some { e with sender := { e.sender with nextSeq := e.sender.nextSeq + 1 } })
      sealings := ⟨s, e.sender.nextSeq, m⟩ :: w.sealings
      net := DataPlane.recordOf e.sender.key e.sender.nextSeq m :: w.net }
    have hextends : w.Extends w' := .of_sessions rfl rfl (List.subset_cons_self _ _)
      (List.Subset.refl _) (List.subset_cons_self _ _)
    refine ⟨fun s' e' he' => ?_, fun x hx => ?_, ?_, fun o ho => hextends.sound (h.sound o ho),
      h.openings⟩
    · rcases endOf_update he' with ⟨rfl, rfl⟩ | ⟨hne, hend⟩
      · refine ⟨htracks, fun x hx hside => ?_⟩
        rcases List.mem_cons.1 hx with rfl | hx
        · exact Nat.lt_succ_self _
        · exact Nat.lt_succ_of_lt (hbelow x hx hside)
      · obtain ⟨htracks', hbelow'⟩ := h.ends s' e' hend
        refine ⟨htracks', fun x hx hside => ?_⟩
        rcases List.mem_cons.1 hx with rfl | hx
        · exact absurd hside.symm hne
        · exact hbelow' x hx hside
    · rcases List.mem_cons.1 hx with rfl | hx
      · refine ⟨Nat.lt_of_succ_lt hlt, hlen, est, hest, ?_⟩
        rw [hsender]
        exact List.mem_cons_self
      · exact hextends.sent (h.sent x hx)
    · refine List.pairwise_cons.2 ⟨fun x hx hside => ?_, h.sealings⟩
      exact Nat.ne_of_gt (hbelow x hx hside.symm)
  · rename_i sender hseal
    obtain rfl := DataPlane.seal_error hseal
    exact h.idle he

end World.ChannelInv

/-- **Where a record that opens comes from**: the adversary derived it, so it has the key or handed
on what a side sealed. -/
theorem World.Inv.sound_of_open (hinv : w.Inv) (he : w.endOf s = some e) {record m : Bytes}
    {receiver : DataPlane.Receiver Bytes} (hd : Derives w.knowledge record)
    (hopen : e.receiver.openRecord record = (.ok m, receiver)) :
    Opening.Sound w ⟨s, DataPlane.seqOf record, m, w.leaked⟩ := by
  obtain ⟨est, hest, -, hreceiver⟩ := hinv.endOf he
  obtain ⟨seq, seqBytes, ct, hread, -, hdec, -⟩ := DataPlane.openRecord_ok hopen
  have hseqOf : DataPlane.seqOf record = seq := by
    rw [DataPlane.seqOf, hread]
    rfl
  obtain ⟨rfl, rfl⟩ := DataPlane.readRecord_eq hread
  have hct : ct = .aead e.receiver.key.key (DataPlane.nonceFor e.receiver.key seq) (.num seq) m :=
    aeadOpen_eq_some.1 hdec
  have hdct : Derives w.knowledge ct := hd.of_list (by simp)
  rw [hct, hreceiver] at hdct
  refine ⟨est, hest, ?_⟩
  rcases (hinv.sendable_of_derives hdct).handed.1 with hkey | ⟨x, hx, est', hest', hk, -, hseq, hm⟩
  · exact .inl ((hinv.sendable_of_derives hkey).safe _ w.consistent_knownBy)
  · refine .inr ⟨x, hx, est', hest', hk, ?_, hm.symm⟩
    exact (Term.num.inj hseq).symm.trans hseqOf.symm

namespace World.ChannelInv

theorem receive (h : w.ChannelInv) (hinv : w.Inv) (he : w.endOf s = some e) {record : Bytes}
    (hd : Derives w.knowledge record) : (w.receive s e record).ChannelInv := by
  unfold World.receive
  split
  · rename_i m receiver hopen
    have hsound := hinv.sound_of_open he hd hopen
    obtain ⟨seq, seqBytes, ct, hread, hreplay, -, rfl⟩ := DataPlane.openRecord_ok hopen
    have hseq : DataPlane.seqOf record = seq := by
      rw [DataPlane.seqOf, hread]
      rfl
    rw [hseq] at hsound ⊢
    obtain ⟨htracks, hbelow⟩ := h.ends s e he
    have hfresh := (Transport.Receiver.checkReplay_ok_iff htracks).1 hreplay
    refine ⟨fun s' e' he' => ?_, h.sent, h.sealings, fun o ho => ?_, ?_⟩
    · rcases endOf_update he' with ⟨rfl, rfl⟩ | ⟨hne, hend⟩
      · refine ⟨?_, hbelow⟩
        have hopened : insert seq (w.opened s') = {n | ∃ o ∈ (⟨s', seq, m, w.leaked⟩ : Opening) ::
            w.openings, o.side = s' ∧ o.seq = n} := by
          ext n
          simp [World.opened, eq_comm]
        have hseen := Transport.Receiver.recordSeen_tracks htracks hfresh
        rw [hopened, ← DataPlane.filter_recordSeen] at hseen
        exact hseen
      · obtain ⟨htracks', hbelow'⟩ := h.ends s' e' hend
        refine ⟨?_, hbelow'⟩
        have hopened : w.opened s' = {n | ∃ o ∈ (⟨s, seq, m, w.leaked⟩ : Opening) ::
            w.openings, o.side = s' ∧ o.seq = n} := by
          ext n
          simp [World.opened, Ne.symm hne]
        rw [hopened] at htracks'
        exact htracks'
    · rcases List.mem_cons.1 ho with rfl | ho
      · exact hsound
      · exact h.sound o ho
    · refine List.pairwise_cons.2 ⟨fun o ho hside heq => ?_, h.openings⟩
      exact hfresh.1 ⟨o, ho, hside.symm, heq.symm⟩
  · rename_i receiver hopen
    obtain rfl := DataPlane.openRecord_error hopen
    exact h.idle he

theorem step (h : w.ChannelInv) (hinv : w.Inv) {x : Action} (hx : Possible w x)
    (hs : w.step x = some w') : w'.ChannelInv := by
  cases x with
  | start expected =>
    obtain rfl := Option.some.inj hs
    exact h.of_extends (.start w expected) rfl rfl rfl
  | complete i party msg2 =>
    obtain ⟨a, ha, hs⟩ := Option.bind_eq_some_iff.1 hs
    split at hs
    · cases hs
    · rename_i hcall
      obtain rfl := Option.some.inj hs
      exact h.of_extends (.complete ha (by simpa using hcall) party msg2) rfl rfl rfl
  | respond party expected msg1 =>
    obtain rfl := Option.some.inj hs
    have hsame : (w.respond party expected msg1).ends = w.ends ∧
        (w.respond party expected msg1).sealings = w.sealings ∧
        (w.respond party expected msg1).openings = w.openings := by
      unfold World.respond
      split <;> exact ⟨rfl, rfl, rfl⟩
    exact h.of_extends (.respond w party expected msg1) hsame.1 hsame.2.1 hsame.2.2
  | finish j msg3 =>
    obtain ⟨b, hb, hs⟩ := Option.bind_eq_some_iff.1 hs
    split at hs
    · cases hs
    · rename_i hcall
      obtain rfl := Option.some.inj hs
      exact h.of_extends (.finish hb (by simpa using hcall) msg3) rfl rfl rfl
  | signElsewhere party label fields =>
    have hs' : (if label = "novachannel v1" then none else some { w with
        net := sign (identityKey party) (frame (.lit label :: fields)) :: w.net }) = some w' := hs
    split_ifs at hs' with hlabel
    obtain rfl := Option.some.inj hs'
    exact h.of_extends (.of_sessions rfl rfl (List.subset_cons_self _ _) (List.Subset.refl _)
      (List.Subset.refl _)) rfl rfl rfl
  | send s plaintext =>
    obtain ⟨e, he, hs⟩ := Option.bind_eq_some_iff.1 hs
    obtain rfl := Option.some.inj hs
    exact h.send hinv he _
  | receive s record =>
    obtain ⟨e, he, hs⟩ := Option.bind_eq_some_iff.1 hs
    obtain rfl := Option.some.inj hs
    exact h.receive hinv he hx
  | leak n =>
    obtain rfl := Option.some.inj hs
    exact h.of_extends (.of_sessions rfl rfl (List.Subset.refl _) (List.subset_cons_self _ _)
      (List.Subset.refl _)) rfl rfl rfl

/-- The invariant holds in every run. -/
theorem of_reachable (h : attackedMachine.Reachable Possible w) : w.ChannelInv := by
  refine h.invariant (fun w hw => ?_) fun w w' x hw hinv hx hs =>
    hinv.step (World.Inv.of_reachable hw) hx hs
  obtain rfl := hw
  refine ⟨fun s e he => ?_, fun _ hx => (by cases hx), .nil, fun _ ho => (by cases ho), .nil⟩
  cases s <;> cases he

end World.ChannelInv

/-! ### The two sides of a session -/

/-- A session that completed and accepted the party `p`, whose signing key had not leaked before. -/
def World.Accepted (w : World) (p : ℕ) (est : EstablishedSession Bytes) : Side → Prop
  | .initiator i => ∃ a c msg3, w.InitiatorAt i a ∧ a.call = some c ∧ c.result = .ok (msg3, est) ∧
      est.peer = identityOf p ∧ .identity p ∉ c.leakedBefore
  | .responder j => ∃ b d, w.ResponderAt j b ∧ b.call = some d ∧ d.result = .ok est ∧
      est.peer = identityOf p ∧ .identity p ∉ d.leakedBefore

/-- The side is one of the party's. -/
def World.IsOf (w : World) (p : ℕ) : Side → Prop
  | .initiator i => ∃ a c, w.InitiatorAt i a ∧ a.call = some c ∧ c.party = p
  | .responder j => ∃ b, w.ResponderAt j b ∧ b.party = p

/-- The exchanges between the two sides have each lost a secret. -/
def BrokenBetween (leaked : List Name) : Side → Side → Prop
  | .initiator i, .responder j => BrokenBy leaked i j
  | .responder j, .initiator i => BrokenBy leaked i j
  | _, _ => False

/-- The session of a side with another side: whose keys they are, and when they are known. -/
structure World.SharedWith (w : World) (s s' : Side) (est : EstablishedSession Bytes) (ss : Bytes)
    (T : List Bytes) : Prop where
  keys : est = finalizeKeys ss T s.isInitiator est.peer
  role : s'.isInitiator = !s.isInitiator
  ran : s'.Ran T
  broken : ∀ {leaked L}, (∀ n, L n → KnownBy leaked n) → (Policy.leakPolicy L).HybridSafe ss →
    BrokenBetween leaked s s'
  derives : BrokenBetween w.leaked s s' → ∀ key ∈ sessionKeys est, Derives w.knowledge key

/-- **A session that accepted a party is shared with one side of that party.** -/
theorem World.Inv.shared_of_accepted (hinv : w.Inv) {p : ℕ} (hs : w.Accepted p est s) :
    w.session s = some est ∧ ∃ s' ss T, w.IsOf p s' ∧ w.SharedWith s s' est ss T := by
  cases s with
  | initiator i =>
    obtain ⟨a, c, msg3, ha, hc, hr, hp, hleak⟩ := hs
    obtain ⟨j, b, hpartners, hparty, hshares⟩ := hinv.initiator_secure ha hc hr hp hleak
    have hiff := hinv.derives_iff hpartners hshares
    obtain ⟨T, hest, -, hran, -⟩ := hshares
    exact ⟨World.session_initiator.2 ⟨a, c, msg3, ha, hc, hr⟩, .responder j, sharedOf i j, T,
      ⟨b, hpartners.responder, hparty⟩, hest, rfl, hran,
      fun hL h => World.Inv.broken_of_hybridSafe hL h, fun hb key hkey => (hiff key hkey).2 hb⟩
  | responder j =>
    obtain ⟨b, d, hb, hd, hr, hp, hleak⟩ := hs
    obtain ⟨i, a, c, est', hpartners, hc, hparty, -, -, -, -, -, hshares⟩ :=
      hinv.responder_secure hb hd hr hp hleak
    have hiff := hinv.derives_iff hpartners hshares
    obtain ⟨T, hest, hran, -, -⟩ := hshares
    exact ⟨World.session_responder.2 ⟨b, d, hb, hd, hr⟩, .initiator i, sharedOf i j, T,
      ⟨a, c, hpartners.initiator, hc, hparty⟩, hest, rfl, hran,
      fun hL h => World.Inv.broken_of_hybridSafe hL h, fun hb key hkey => (hiff key hkey).2 hb⟩

namespace World.SharedWith

variable {ss : Bytes} {T : List Bytes}

/-- Who may have a key of the session broke it. -/
theorem broken_of_key (h : w.SharedWith s s' est ss T) {leaked : List Name} {L : Name → Prop}
    (hL : ∀ n, L n → KnownBy leaked n) {key : Bytes} (hkey : key ∈ sessionKeys est)
    (hsafe : (Policy.leakPolicy L).HybridSafe key) : BrokenBetween leaked s s' := by
  rw [h.keys] at hkey
  exact h.broken hL (hybridSafe_of_sessionKey _ hkey hsafe)

/-- **Only the other side sends with the key that this side receives with.** -/
theorem eq_of_receiver (h : w.SharedWith s s' est ss T) (hinv : w.Inv) {s'' : Side}
    (hs : w.session s'' = some est') (hkey : est.receiver.key = est'.sender.key) : s'' = s' := by
  obtain ⟨ss', T', hest', hran'⟩ := hinv.session_form hs
  rw [h.keys, receiver_finalizeKeys est.peer, hest'] at hkey
  obtain ⟨hrole, -, rfl⟩ := sender_inj hkey
  exact hran'.unique h.ran (hrole.symm.trans h.role.symm)

/-- **What this side opened was sealed by the other**, if the session was not broken by then. -/
theorem sealed_of_opened (h : w.SharedWith s s' est ss T) (hinv : w.Inv) (hch : w.ChannelInv)
    (hs : w.session s = some est) {o : Opening} (ho : o ∈ w.openings) (hside : o.side = s)
    (hbroken : ¬ BrokenBetween o.leakedBefore s s') :
    (⟨s', o.seq, o.plaintext⟩ : Sealing) ∈ w.sealings := by
  obtain ⟨est', hest', horigin⟩ := hch.sound o ho
  rw [hside, hs] at hest'
  obtain rfl := Option.some.inj hest'
  rcases horigin with hsafe | ⟨x, hx, est'', hest'', hkey, hseq, hm⟩
  · exact absurd (h.broken_of_key (fun _ => id) (by simp [sessionKeys]) hsafe) hbroken
  · obtain rfl := h.eq_of_receiver hinv hest'' hkey
    rw [← hseq, ← hm]
    exact hx

/-- **A fresh message is known when it leaked or its session was broken**, and only then. -/
theorem derives_payload_iff (h : w.SharedWith s s' est ss T) (hinv : w.Inv) (hch : w.ChannelInv)
    (hs : w.session s = some est) {seq : ℕ}
    (hx : (⟨s, seq, .name (.payload s seq)⟩ : Sealing) ∈ w.sealings) :
    Derives w.knowledge (.name (.payload s seq)) ↔
      .payload s seq ∈ w.leaked ∨ BrokenBetween w.leaked s s' := by
  constructor
  · intro hd
    by_contra hnot
    obtain ⟨hleak, hbroken⟩ := not_or.1 hnot
    -- everything that leaked, and the fresh messages of all other sides
    let L : Name → Prop := fun n => n ∈ w.leaked ∨ ∃ s'' seq, n = .payload s'' seq ∧ s'' ≠ s
    have hL : ∀ n, L n → KnownBy w.leaked n := fun n hn =>
      hn.imp id fun ⟨s'', seq, heq, _⟩ => ⟨s'', seq, heq⟩
    have hcons : w.Consistent L := by
      refine ⟨fun _ => .inl, fun s'' est' hest' hkey seq => ?_⟩
      by_cases hside : s'' = s
      · subst hside
        obtain rfl : est = est' := Option.some.inj (hs.symm.trans hest')
        exact absurd (h.broken_of_key hL (by simp [sessionKeys]) hkey) hbroken
      · exact .inr ⟨s'', seq, rfl, hside⟩
    rcases Policy.hybridSafe_leaked.1 ((hinv.sendable_of_derives hd).safe L hcons) with
      hn | ⟨s'', seq', heq, hside⟩
    · exact hleak hn
    · exact hside (Name.payload.inj heq).1.symm
  · rintro (hn | hbroken)
    · exact .known (.inr (.inl ⟨_, hn, rfl⟩))
    · obtain ⟨-, -, est', hest', hnet⟩ := hch.sent _ hx
      obtain rfl : est = est' := Option.some.inj (hs.symm.trans hest')
      have hkey := h.derives hbroken est.sender.key (by simp [sessionKeys])
      have hrecord : Derives w.knowledge (.aead est.sender.key (DataPlane.nonceFor est.sender seq)
          (.num seq) (.name (.payload s seq))) :=
        (Derives.known (.inr (.inr hnet))).of_list
          (List.mem_cons_of_mem _ List.mem_cons_self)
      exact .aeadOpen hkey hrecord

end World.SharedWith

/-! ### The results -/

/-- **The channel is secure.**  In every run, whoever delivers the records and whatever leaks, a side
whose session accepted a party, the signing key of which had not leaked by then, has one side of that
party in the other role, such that

* whatever it opened was sealed by that side under the same number, if by then the two exchanges
  between them had not each lost a secret;
* it opens every number once;
* a fresh message that it sends is derivable, now or later, exactly when it leaked itself or the two
  exchanges have each lost a secret by now. -/
theorem secure_channel (h : attackedMachine.Reachable Possible w) {p : ℕ}
    (hs : w.Accepted p est s) :
    ∃ s', s'.isInitiator = !s.isInitiator ∧ w.IsOf p s' ∧
      (∀ o ∈ w.openings, o.side = s → ¬ BrokenBetween o.leakedBefore s s' →
        (⟨s', o.seq, o.plaintext⟩ : Sealing) ∈ w.sealings) ∧
      ((w.openings.filter fun o => o.side = s).map Opening.seq).Nodup ∧
      ∀ seq, (⟨s, seq, .name (.payload s seq)⟩ : Sealing) ∈ w.sealings →
        (Derives w.knowledge (.name (.payload s seq)) ↔
          .payload s seq ∈ w.leaked ∨ BrokenBetween w.leaked s s') := by
  have hinv := World.Inv.of_reachable h
  have hch := World.ChannelInv.of_reachable h
  obtain ⟨hsession, s', ss, T, hparty, hshared⟩ := hinv.shared_of_accepted hs
  refine ⟨s', hshared.role, hparty, fun o ho hside hbroken => ?_, ?_, fun seq hx => ?_⟩
  · exact hshared.sealed_of_opened hinv hch hsession ho hside hbroken
  · refine List.pairwise_map.2 (List.pairwise_filter.2 ?_)
    refine hch.openings.imp fun {o o'} hne ho ho' => hne ?_
    exact (of_decide_eq_true ho).trans (of_decide_eq_true ho').symm
  · exact hshared.derives_payload_iff hinv hch hsession hx

/-- **No nonce is used twice with a key.**  In every run, whatever leaks and whatever the parties
send, the records that were sealed, in all sessions of all parties, differ in the key or in the
nonce. -/
theorem nonces_unique (h : attackedMachine.Reachable Possible w) :
    w.sealings.Pairwise fun x y => ∀ est est', w.session x.side = some est →
      w.session y.side = some est' → est.sender.key = est'.sender.key →
      DataPlane.nonceFor est.sender x.seq ≠ DataPlane.nonceFor est'.sender y.seq := by
  have hinv := World.Inv.of_reachable h
  refine (World.ChannelInv.of_reachable h).sealings.imp fun {x y} hne est est' hx hy hkey => ?_
  have hside := hinv.side_unique hx hy hkey
  rw [hside, hy] at hx
  obtain rfl := Option.some.inj hx
  intro hnonce
  obtain ⟨ss, T, hest, -⟩ := hinv.session_form hy
  have hform : ∃ okm, est'.sender = .ofOkm okm := by
    rw [hest]
    cases y.side.isInitiator <;> exact ⟨_, rfl⟩
  obtain ⟨okm, hokm⟩ := hform
  rw [hokm] at hnonce
  exact hne hside (DataPlane.nonceFor_inj hnonce)

/-- **A record of the other side opens exactly when its number is fresh.**  In every run, when a side
receives with what another sends with, every message that the other sealed is in a record that was
sent, and this record, however late it arrives, opens to the message if its number was not opened
before and is in the window, and is rejected as a replay otherwise. -/
theorem opens_iff (h : attackedMachine.Reachable Possible w) (hs : w.session s = some est)
    (he : w.endOf s = some e) {x : Sealing} (hx : x ∈ w.sealings)
    (hs' : w.session x.side = some est') (hkeys : est'.sender = est.receiver) :
    ∃ record ∈ w.net,
      (Transport.Receiver.Fresh (w.opened s) x.seq →
        (e.receiver.openRecord record).1 = .ok x.plaintext) ∧
      (¬ Transport.Receiver.Fresh (w.opened s) x.seq →
        (e.receiver.openRecord record).1 = .err .replay) := by
  have hch := World.ChannelInv.of_reachable h
  obtain ⟨htracks, -⟩ := hch.ends s e he
  obtain ⟨hseq, hlen, est₁, hest₁, hnet⟩ := hch.sent x hx
  obtain rfl := Option.some.inj (hs'.symm.trans hest₁)
  obtain ⟨est₂, hest₂, -, hreceiver⟩ := (World.Inv.of_reachable h).endOf he
  obtain rfl := Option.some.inj (hs.symm.trans hest₂)
  refine ⟨_, hnet, ?_⟩
  rw [hkeys, ← hreceiver, DataPlane.openRecord_recordOf hseq hlen,
    ← Transport.Receiver.checkReplay_ok_iff htracks]
  constructor
  · intro hfresh
    rw [hfresh]
  · intro hreplay
    cases hcheck : e.receiver.filter.checkReplay x.seq with
    | ok u => exact absurd hcheck hreplay
    | error f => rw [DataPlane.checkReplay_error hcheck]

end Invariant

/-! ### A run -/

section Sample

/-- The messages that party `0` sends. -/
def sampleMessage (seq : ℕ) : Bytes := .name (.payload (.initiator 0) seq)

/-- And their records. -/
def sampleRecord (seq : ℕ) : Bytes :=
  DataPlane.recordOf sampleSession.sender seq (sampleMessage seq)

/-- Party `0` sent one message. -/
def sampleSent : World := { sampleWorld [] with
  ends := Function.update (fun _ => none) (.initiator 0)
    (some ⟨⟨sampleSession.sender, 1⟩, .new sampleSession.receiver⟩)
  sealings := [⟨.initiator 0, 0, sampleMessage 0⟩]
  net := sampleRecord 0 :: (sampleWorld []).net }

/-- It sent another one. -/
def sampleSent' : World := { sampleSent with
  ends := Function.update sampleSent.ends (.initiator 0)
    (some ⟨⟨sampleSession.sender, 2⟩, .new sampleSession.receiver⟩)
  sealings := ⟨.initiator 0, 1, sampleMessage 1⟩ :: sampleSent.sealings
  net := sampleRecord 1 :: sampleSent.net }

/-- The transport of party `1` after the first record. -/
def sampleEnd : End :=
  ⟨.new sampleSession'.sender, (DataPlane.Receiver.new sampleSession'.receiver).recordSeen 0⟩

/-- Party `1` opened the first record, and then some names leaked. -/
def sampleChannel (leaked : List Name) : World := { sampleSent' with
  ends := Function.update sampleSent'.ends (.responder 0) (some sampleEnd)
  openings := [⟨.responder 0, 0, sampleMessage 0, []⟩]
  leaked := leaked }

theorem sample_keys : sampleSession.sender = sampleSession'.receiver := by
  decide +kernel

theorem reachable_sampleChannel (leaked : List Name) :
    attackedMachine.Reachable Possible (sampleChannel leaked) := by
  induction leaked with
  | cons n leaked ih => exact ih.step (a := .leak n) trivial rfl
  | nil =>
    have hlen : ∀ seq, ByteString.len (sampleMessage seq) ≤ Transport.maxPlaintextLen := fun _ =>
      (by decide : 32 ≤ Transport.maxPlaintextLen)
    have h1 : attackedMachine.Reachable Possible sampleSent := by
      refine (reachable_sampleWorld []).step (a := .send (.initiator 0) none)
        (fun _ hm => (by cases hm)) ?_
      change some ((sampleWorld []).send (.initiator 0) (.new sampleSession) (sampleMessage 0)) = _
      rw [World.send]
      simp only [End.new, DataPlane.Sender.new,
        DataPlane.seal_eq (s := ⟨sampleSession.sender, 0⟩) (by decide) (hlen 0)]
      rfl
    have h2 : attackedMachine.Reachable Possible sampleSent' := by
      refine h1.step (a := .send (.initiator 0) none) (fun _ hm => (by cases hm)) ?_
      change some (sampleSent.send (.initiator 0)
        ⟨⟨sampleSession.sender, 1⟩, .new sampleSession.receiver⟩ (sampleMessage 1)) = _
      rw [World.send]
      simp only [DataPlane.seal_eq (s := ⟨sampleSession.sender, 1⟩) (by decide) (hlen 1)]
      rfl
    refine h2.step (a := .receive (.responder 0) (sampleRecord 0))
      (.known (.inr (.inr (List.mem_cons_of_mem _ List.mem_cons_self)))) ?_
    have hopen : (DataPlane.Receiver.new sampleSession'.receiver).openRecord
        (DataPlane.recordOf sampleSession'.receiver 0 (sampleMessage 0)) =
          (.ok (sampleMessage 0), (DataPlane.Receiver.new sampleSession'.receiver).recordSeen 0) :=
      (DataPlane.openRecord_recordOf (by decide) (hlen 0)).trans rfl
    have hseq : DataPlane.seqOf (DataPlane.recordOf sampleSession'.receiver 0 (sampleMessage 0)) =
        0 := rfl
    change some (sampleSent'.receive (.responder 0) (.new sampleSession') (sampleRecord 0)) = _
    rw [World.receive, sampleRecord, sample_keys]
    simp only [End.new, hopen, hseq]
    rfl

/-- The messages stay secret when both signing keys and one ephemeral secret leak, and are lost with
one secret of each exchange; what party `1` opened was sealed by party `0`. -/
theorem secure_channel_sample :
    ¬ Derives (sampleChannel [.identity 0, .identity 1, .initiatorDh 0]).knowledge
        (sampleMessage 0) ∧
    Derives (sampleChannel [.responderKem 0, .initiatorDh 0]).knowledge (sampleMessage 1) ∧
    ∀ leaked, ∃ s', (⟨s', 0, sampleMessage 0⟩ : Sealing) ∈ (sampleChannel leaked).sealings := by
  have honly : ∀ {leaked s'}, s'.isInitiator = false → (sampleChannel leaked).IsOf 1 s' →
      s' = .responder 0 := by
    rintro leaked (i | j) hrole hparty
    · cases hrole
    · obtain ⟨b, hb, -⟩ := hparty
      have hlt := (List.getElem?_eq_some_iff.1 hb).1
      rw [Nat.lt_one_iff.1 hlt]
  have haccepted : ∀ leaked, (sampleChannel leaked).Accepted 1 sampleSession (.initiator 0) :=
    fun _ => ⟨_, _, _, rfl, rfl, rfl, rfl, by simp⟩
  refine ⟨fun hd => ?_, ?_, fun leaked => ?_⟩
  · obtain ⟨s', hrole, hparty, -, -, hsecret⟩ := secure_channel
      (reachable_sampleChannel [.identity 0, .identity 1, .initiatorDh 0]) (haccepted _)
    obtain rfl := honly hrole hparty
    rcases (hsecret 0 (List.mem_cons_of_mem _ List.mem_cons_self)).1 hd with hleak | ⟨-, hkem⟩
    · simp [sampleChannel] at hleak
    · simp [sampleChannel] at hkem
  · obtain ⟨s', hrole, hparty, -, -, hsecret⟩ := secure_channel
      (reachable_sampleChannel [.responderKem 0, .initiatorDh 0]) (haccepted _)
    obtain rfl := honly hrole hparty
    exact (hsecret 1 List.mem_cons_self).2
      (.inr ⟨.inl (by simp [sampleChannel]), .inr (by simp [sampleChannel])⟩)
  · obtain ⟨s', hrole, -, hsealed, -, -⟩ := secure_channel (reachable_sampleChannel leaked)
      (s := .responder 0) (p := 0) ⟨_, _, rfl, rfl, rfl, rfl, by simp⟩
    refine ⟨s', hsealed ⟨.responder 0, 0, sampleMessage 0, []⟩ List.mem_cons_self rfl ?_⟩
    -- nothing had leaked when party `1` opened it
    cases s' with
    | initiator i => exact fun hbroken => by simp [BrokenBetween, BrokenBy] at hbroken
    | responder j => cases hrole

/-- The two records have two nonces. -/
theorem nonces_unique_sample :
    DataPlane.nonceFor sampleSession.sender 1 ≠ DataPlane.nonceFor sampleSession.sender 0 := by
  have hpairs := nonces_unique (reachable_sampleChannel [])
  exact (List.pairwise_cons.1 hpairs).1 _ List.mem_cons_self _ _ rfl rfl rfl

/-- Party `1` can open the second record now. -/
theorem opens_iff_sample : ∃ record ∈ (sampleChannel []).net,
    (sampleEnd.receiver.openRecord record).1 = .ok (sampleMessage 1) := by
  obtain ⟨record, hnet, hopens, -⟩ := opens_iff (reachable_sampleChannel []) (s := .responder 0)
    (e := sampleEnd) rfl rfl (x := ⟨.initiator 0, 1, sampleMessage 1⟩) List.mem_cons_self rfl
    sample_keys
  have hopened : (sampleChannel []).opened (.responder 0) = {0} := by
    ext n
    simp [World.opened, sampleChannel, eq_comm]
  refine ⟨record, hnet, hopens ?_⟩
  rw [hopened]
  exact ⟨by simp, .inr (.inl (by simp))⟩

end Sample

end Attacked

end HybridHandshake

end NovaChannel
