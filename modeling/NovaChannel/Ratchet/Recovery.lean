import NovaChannel.Ratchet.Undisturbed

/-!
# When a ratchet step is blocked for good

`Pair.Recoverable` : from here on, calls and deliveries of new messages can bring both sessions
into a further epoch with equal keys.  A pending step is never given up and blocks every other
step, so a state is recoverable exactly when no step is pending on either side and there is an
epoch left (`recoverable_iff`).
-/

namespace NovaChannel

namespace Ratchet

open Crypto Kex RatchetedSession

/-- The action makes a call, or delivers to the other side a message sent after the first `n`. -/
def PairAction.Follows (n : ℕ) (w : Pair) : PairAction → Prop
  | .openRecord p i => n ≤ i ∧ ∀ m, w.net[i]? = some m → m.sender = p.peer
  | .openRatchetChunk p i => n ≤ i ∧ ∀ m, w.net[i]? = some m → m.sender = p.peer
  | _ => True

/-- Each side opens what the other seals. -/
def Pair.Talks (w : Pair) : Prop :=
  ∀ p plaintext k, ∃ s record s', (w.session p).sealRecord plaintext = .ok (s, record) ∧
    (w.session p.peer).openRecord (responderCoins k) record = (s', .ok (.application plaintext))

/-- Both sessions can still complete a further epoch step together. -/
def Pair.Recoverable [ReedSolomon Bytes] (w : Pair) : Prop :=
  ∃ w', (pairMachine.startAt w).Reachable (PairAction.Follows w.net.length) w' ∧
    (∀ p, (w.session p).sendEpoch < (w'.session p).sendEpoch ∧
      (w'.session p).sendEpoch = (w'.session p.peer).sendEpoch ∧
      (w'.session p).rootKey = (w'.session p.peer).rootKey) ∧ w'.Talks

/-! ### A pending step blocks -/

section Blocked

/-- The bytes are a record of a message type. -/
def IsRecord (msgType : ℕ) (b : Bytes) : Prop :=
  ∃ e n key body, b = frame [headerBytes e n,
    aeadEncrypt key zeroNonce (headerBytes e n) (typed msgType body)]

/-- The bytes are a chunk of a message type. -/
def IsChunk (msgType : ℕ) (b : Bytes) : Prop :=
  ∃ h key shard, b = chunkRecord key h shard ∧ h.msgType = msgType

/-- Application data, or a step 1 of the peer while a step is pending. -/
def Ignorable (s : RatchetedSession Bytes) (b : Bytes) : Prop :=
  IsRecord msgApplication b ∨
    s.pending.isSome ∧ (IsRecord msgRatchetStep1 b ∨ IsChunk msgRatchetStep1Chunk b)

/-- A call that sends nothing and neither starts nor ends a step. -/
structure Still (s : RatchetedSession Bytes) (o : Outcome) : Prop where
  pending : o.session.pending = s.pending
  epoch : o.session.sendEpoch = s.sendEpoch
  silent : o.records ++ o.chunks = []

theorem still_nothing {s s' : RatchetedSession Bytes} (hp : s'.pending = s.pending)
    (he : s'.sendEpoch = s.sendEpoch) : Still s (.nothing s') := ⟨hp, he, rfl⟩

theorem headerBytes_ne_write {e n : ℕ} {h : ChunkHeader Bytes} : headerBytes e n ≠ h.write := by
  intro heq
  have hlen := congrArg List.length (Term.list_inj.1 heq)
  simp at hlen

/-- What opens on a receive chain was sealed under some message key. -/
theorem openOn_eq_ok {recv recv' : RecvChain Bytes} {seq : ℕ} {aad ct m : Bytes}
    (h : recv.openOn seq aad ct = (recv', .ok m)) :
    ∃ key, ct = aeadEncrypt key zeroNonce aad m := by
  rcases openOn_cases h with ⟨-, e, he⟩ | ⟨key, -, -, -, hopen⟩ | hp | ⟨m', -, -, -, hopen, hm⟩
  · cases he
  · exact ⟨key, Term.aeadOpen_eq_some.1 (openAead_eq_ok.1 hopen.symm)⟩
  · cases hp
  · obtain rfl := Except.ok.inj hm
    exact ⟨_, Term.aeadOpen_eq_some.1 (openAead_eq_ok.1 hopen)⟩

theorem IsRecord.opened {t e n : ℕ} {b aad ct key plaintext : Bytes} (h : IsRecord t b)
    (hread : readRecord b = some (e, n, aad, ct))
    (hct : ct = aeadEncrypt key zeroNonce aad plaintext) : ∃ body, plaintext = typed t body := by
  obtain ⟨e', n', key', body, rfl⟩ := h
  have hframe := Term.list_inj.1 (readRecord_eq_some hread).1
  rw [hct] at hframe
  exact ⟨body, (Term.aead.inj (List.cons.inj (List.cons.inj hframe).2).1).2.2.2.symm⟩

theorem IsChunk.readRecord_eq {t : ℕ} {b : Bytes} (h : IsChunk t b) : readRecord b = none := by
  obtain ⟨ch, key, shard, rfl, -⟩ := h
  by_contra hne
  obtain ⟨⟨e, n, aad, ct⟩, hread⟩ := Option.ne_none_iff_exists'.1 hne
  obtain ⟨hframe, rfl⟩ := readRecord_eq_some hread
  exact headerBytes_ne_write (List.cons.inj (Term.list_inj.1 hframe)).1.symm

/-- What opens as a chunk of a message type was made as one. -/
theorem opened_chunk {s : RatchetedSession Bytes} {b label : Bytes} {t t' : ℕ}
    {ch : ChunkHeader Bytes} (h : ChunkOpens s b label t ch) :
    ¬ IsRecord t' b ∧ (IsChunk t' b → t' = t) := by
  obtain ⟨header, ct, shard, hu, hread, -⟩ := h.opens
  refine ⟨?_, ?_⟩
  · rintro ⟨e, n, key, body, rfl⟩
    rw [LawfulCrypto.unframe_frame] at hu
    obtain ⟨rfl, -⟩ := List.cons.inj (Option.some.inj hu)
    simp [ChunkHeader.read, headerBytes, LawfulCrypto.unframe_frame] at hread
  · rintro ⟨ch', key, sh, rfl, rfl⟩
    rw [chunkRecord, LawfulCrypto.unframe_frame] at hu
    obtain ⟨rfl, -⟩ := List.cons.inj (Option.some.inj hu)
    rw [← h.msgType_eq, eq_of_read_write hread]

variable [ReedSolomon Bytes] {s : RatchetedSession Bytes} {k : ℕ} {o : Outcome} {b : Bytes}

theorem still_openRecord (hc : s.perform k (.openRecord b) = some o) (hb : Ignorable s b) :
    Still s o := by
  obtain ⟨r, hr, hpanic, ho⟩ := perform_openRecord hc
  rcases openRecord_cases hr with ⟨hs, e, rfl⟩ |
      ⟨slot, recv, seq, aad, ct, recv', opened, hread, hslot, hon, hh⟩
  · obtain ⟨-, ho⟩ | ⟨x, hx, -⟩ := ho
    · rw [ho, hs]
      exact still_nothing rfl rfl
    · cases hx
  · have hset : ((s.setRecv recv' slot).pending = s.pending) ∧
        (s.setRecv recv' slot).sendEpoch = s.sendEpoch := by cases slot <;> exact ⟨rfl, rfl⟩
    rcases handleOpened_cases hh with ⟨hs, e, rfl⟩ | rfl | ⟨plaintext, body, rfl, hcase⟩
    · obtain ⟨-, ho⟩ | ⟨x, hx, -⟩ := ho
      · rw [ho, hs]
        exact still_nothing hset.1 hset.2
      · cases hx
    · exact absurd rfl hpanic
    · obtain ⟨key, hct⟩ := openOn_eq_ok hon
      have htype : (∃ body, plaintext = typed msgApplication body) ∨
          s.pending.isSome ∧ ∃ body, plaintext = typed msgRatchetStep1 body := by
        rcases hb with hb | ⟨hp, hb | hb⟩
        · exact .inl (hb.opened hread hct)
        · exact .inr ⟨hp, hb.opened hread hct⟩
        · cases hb.readRecord_eq.symm.trans hread
      rcases hcase with ⟨-, hs, rfl⟩ | ⟨ht, reply, h1, -⟩ | ⟨ht, -⟩
      · obtain ⟨⟨e, he⟩, -⟩ | ⟨x, hx, ho⟩ := ho
        · cases he
        · obtain rfl := Except.ok.inj hx
          rw [ho, hs]
          exact ⟨hset.1, hset.2, rfl⟩
      · rcases htype with ⟨body', rfl⟩ | ⟨hp, -⟩
        · cases (hasType_typed ht).1
        · rcases handleStep1_cases h1 with ⟨-, e, he⟩ | he | ⟨_, _, _, hidle, -⟩
          · cases he
          · cases he
          · rw [← hset.1, hidle] at hp
            cases hp
      · rcases htype with ⟨body', rfl⟩ | ⟨-, body', rfl⟩
        · cases (hasType_typed ht).1
        · cases (hasType_typed ht).1

theorem still_openRatchetChunk (hc : s.perform k (.openRatchetChunk b) = some o)
    (hb : Ignorable s b) : Still s o := by
  obtain ⟨r, hr, hpanic, ho⟩ := perform_openRatchetChunk hc
  rcases openRatchetChunk_cases hr with ⟨a, b', hs, hr'⟩ | rfl |
      ⟨ch, a, x, y, out, payload, records, hidle, hopens, -⟩ |
      ⟨ch, a, kex, payload, x, ct, -, hopens, -⟩
  · have hsilent : o.records ++ o.chunks = [] := by
      rcases hr' with ⟨e, rfl⟩ | rfl
      · obtain ⟨-, ho⟩ | ⟨x, hx, -⟩ := ho
        · rw [ho]
          rfl
        · cases hx
      · obtain ⟨⟨e, he⟩, -⟩ | ⟨x, hx, ho⟩ := ho
        · cases he
        · rw [ho, ← Except.ok.inj hx]
          rfl
    exact ⟨by rw [hs]; rfl, by rw [hs]; rfl, hsilent⟩
  · exact absurd rfl hpanic
  · rcases hb with hb | ⟨hp, -⟩
    · exact absurd hb (opened_chunk hopens).1
    · rw [hidle] at hp
      cases hp
  · rcases hb with hb | ⟨-, hb | hb⟩
    · exact absurd hb (opened_chunk hopens).1
    · exact absurd hb (opened_chunk hopens).1
    · cases (opened_chunk hopens).2 hb

/-- A call that takes no message, or one it can ignore. -/
def Call.Harmless (s : RatchetedSession Bytes) : Call → Prop
  | .openRecord b => Ignorable s b
  | .openRatchetChunk b => Ignorable s b
  | _ => True

/-- Without the right message a session answers nothing and ends no step; it starts one only when
none is pending. -/
theorem harmless_perform {c : Call} (hc : s.perform k c = some o) (hh : c.Harmless s) :
    (∀ b ∈ o.records ++ o.chunks, IsRecord msgApplication b ∨
      s.pending = none ∧ (IsRecord msgRatchetStep1 b ∨ IsChunk msgRatchetStep1Chunk b)) ∧
    (s.pending.isSome → o.session.pending.isSome ∧ o.session.sendEpoch = s.sendEpoch) := by
  have hstill : Still s o → (∀ b ∈ o.records ++ o.chunks, IsRecord msgApplication b ∨
      s.pending = none ∧ (IsRecord msgRatchetStep1 b ∨ IsChunk msgRatchetStep1Chunk b)) ∧
      (s.pending.isSome → o.session.pending.isSome ∧ o.session.sendEpoch = s.sendEpoch) := by
    intro h
    refine ⟨fun b hb => ?_, fun hp => ⟨by rwa [h.pending], h.epoch⟩⟩
    rw [h.silent] at hb
    cases hb
  cases c with
  | openRecord b => exact hstill (still_openRecord hc hh)
  | openRatchetChunk b => exact hstill (still_openRatchetChunk hc hh)
  | sealRecord plaintext =>
    rcases perform_sealRecord hc with rfl | ⟨s', record, hs, rfl⟩
    · exact hstill (still_nothing rfl rfl)
    · obtain ⟨-, rfl, rfl⟩ := sealPayload_eq_ok hs
      refine ⟨fun b hb => ?_, fun hp => ⟨hp, rfl⟩⟩
      obtain rfl := List.mem_singleton.1 hb
      exact .inl ⟨_, _, _, _, rfl⟩
  | initiateRatchet =>
    rcases perform_initiateRatchet hc with rfl | ⟨s', record, hs, rfl⟩
    · exact hstill (still_nothing rfl rfl)
    · obtain ⟨hidle, -, rfl, rfl⟩ := initiateRatchet_eq_ok hs
      refine ⟨fun b hb => ?_, fun hp => by rw [hidle] at hp; cases hp⟩
      obtain rfl := List.mem_singleton.1 hb
      exact .inr ⟨hidle, .inl ⟨_, _, _, _, rfl⟩⟩
  | initiateIncrementalRatchet d n =>
    rcases perform_initiateIncrementalRatchet hc with rfl | ⟨s', records, hs, rfl⟩
    · exact hstill (still_nothing rfl rfl)
    · obtain ⟨hidle, rfl, hb⟩ := initiateIncrementalRatchet_eq_ok hs
      obtain ⟨shards, -, rfl⟩ := buildChunkRecords_eq_ok hb
      refine ⟨fun b hb => ?_, fun hp => by rw [hidle] at hp; cases hp⟩
      obtain ⟨x, -, rfl⟩ := List.mem_map.1 hb
      exact .inr ⟨hidle, .inr ⟨_, _, _, rfl, rfl⟩⟩

/-- Side `q` waits, and since the messages `old` it has sent only application data, and its peer
no answer. -/
structure Waiting (q : Party) (old : List Message) (epoch : ℕ) (w : Pair) : Prop where
  pending : (w.session q).pending.isSome
  epoch_eq : (w.session q).sendEpoch = epoch
  net : ∃ new, w.net = old ++ new ∧ ∀ m ∈ new,
    (m.sender = q → IsRecord msgApplication m.bytes) ∧
    (IsRecord msgApplication m.bytes ∨ IsRecord msgRatchetStep1 m.bytes ∨
      IsChunk msgRatchetStep1Chunk m.bytes)

/-- **A side that waits goes on waiting** for as long as only new messages arrive. -/
theorem Waiting.step {q : Party} {old : List Message} {e : ℕ} {w w' : Pair} {a : PairAction}
    (h : Waiting q old e w) (ha : a.Follows old.length w) (hs : w.step a = some w') :
    Waiting q old e w' := by
  obtain ⟨c, hc, hs⟩ := Option.bind_eq_some_iff.1 hs
  obtain ⟨o, ho, hs⟩ := Option.bind_eq_some_iff.1 hs
  obtain rfl := Option.some.inj hs
  obtain ⟨new, hnet, hnew⟩ := h.net
  have hdelivered : ∀ {p : Party} {i : ℕ} {m : Message}, old.length ≤ i → w.net[i]? = some m →
      (∀ m, w.net[i]? = some m → m.sender = p.peer) → Ignorable (w.session p) m.bytes := by
    intro p i m hi hm hsender
    have hmem : m ∈ new := by
      rw [hnet, List.getElem?_append_right hi] at hm
      exact List.mem_of_getElem? hm
    obtain ⟨hown, hany⟩ := hnew m hmem
    have hp := hsender m hm
    rcases Party.eq_or_eq_peer q p with rfl | rfl
    · rcases hany with happ | hstep
      · exact .inl happ
      · exact .inr ⟨h.pending, hstep⟩
    · rw [Party.peer_peer] at hp
      exact .inl (hown hp)
  have hharm : c.Harmless (w.session a.party) := by
    cases a with
    | sealRecord p plaintext =>
      obtain rfl := Option.some.inj hc
      trivial
    | initiateRatchet p =>
      obtain rfl := Option.some.inj hc
      trivial
    | initiateIncrementalRatchet p d n =>
      obtain rfl := Option.some.inj hc
      trivial
    | openRecord p i =>
      obtain ⟨m, hm, rfl⟩ := Option.map_eq_some_iff.1 hc
      exact hdelivered ha.1 hm ha.2
    | openRatchetChunk p i =>
      obtain ⟨m, hm, rfl⟩ := Option.map_eq_some_iff.1 hc
      exact hdelivered ha.1 hm ha.2
  obtain ⟨hsent, hwait⟩ := harmless_perform ho hharm
  have hnet' : (w.after a.party c o).net =
      old ++ (new ++ (o.records ++ o.chunks).map (⟨a.party, ·⟩)) := by
    rw [← List.append_assoc, ← hnet]
    rfl
  by_cases hq : q = a.party
  · subst hq
    obtain ⟨hp, he⟩ := hwait h.pending
    refine ⟨by rwa [Pair.session_after_self], by rw [Pair.session_after_self, he, h.epoch_eq], _,
      hnet', fun m hm => ?_⟩
    rcases List.mem_append.1 hm with hm | hm
    · exact hnew m hm
    · obtain ⟨b, hb, rfl⟩ := List.mem_map.1 hm
      have happ : IsRecord msgApplication b := by
        rcases hsent b hb with happ | ⟨hidle, -⟩
        · exact happ
        · have hpend := h.pending
          rw [hidle] at hpend
          cases hpend
      exact ⟨fun _ => happ, .inl happ⟩
  · refine ⟨by rw [Pair.session_after_of_ne hq]; exact h.pending,
      by rw [Pair.session_after_of_ne hq, h.epoch_eq], _, hnet', fun m hm => ?_⟩
    rcases List.mem_append.1 hm with hm | hm
    · exact hnew m hm
    · obtain ⟨b, hb, rfl⟩ := List.mem_map.1 hm
      refine ⟨fun heq => absurd heq.symm hq, ?_⟩
      rcases hsent b hb with happ | ⟨-, hstep⟩
      · exact .inl happ
      · exact .inr hstep

/-- **Blocked for good**: with a step pending on either side, no continuation recovers. -/
theorem not_recoverable_of_pending {w : Pair} {q : Party} (hq : (w.session q).pending.isSome) :
    ¬ w.Recoverable := by
  rintro ⟨w', hr, hadv, -⟩
  have hwait : Waiting q w.net (w.session q).sendEpoch w' := by
    refine Machine.Reachable.invariant (I := Waiting q w.net (w.session q).sendEpoch)
      (fun u hu => ?_) (fun u u' a _ hu ha hs => hu.step ha hs) hr
    obtain rfl : u = w := hu
    exact ⟨hq, rfl, [], (List.append_nil _).symm, fun m hm => by cases hm⟩
  have hlt := (hadv q).1
  rw [hwait.epoch_eq] at hlt
  exact lt_irrefl _ hlt

end Blocked

/-! ### There are finitely many epochs -/

section Epochs

variable [ReedSolomon Bytes] {s : RatchetedSession Bytes} {k : ℕ} {o : Outcome}
  {allowed : Pair → PairAction → Prop}

omit [ReedSolomon Bytes] in
theorem epoch_lt_handleOpened {s s' : RatchetedSession Bytes} {coins : ResponderCoins Bytes}
    {e : ℕ} {opened : Result Bytes} {r : Result (Opened Bytes)}
    (h : s.handleOpened coins e opened = (s', r)) (hr : r ≠ .error .panic)
    (hs : s.sendEpoch < 2 ^ 32) : s'.sendEpoch < 2 ^ 32 := by
  rcases handleOpened_cases h with ⟨rfl, -⟩ | rfl | ⟨plaintext, body, -, hcase⟩
  · exact hs
  · exact absurd rfl hr
  · rcases hcase with ⟨-, rfl, -⟩ | ⟨-, reply, h1, -⟩ | ⟨-, done, h2, hdone⟩
    · exact hs
    · rcases handleStep1_cases h1 with ⟨rfl, -⟩ | he | ⟨_, _, _, -, -, -, -, -, hlt, rfl, -⟩
      · exact hs
      · cases he
      · exact hlt
    · rcases handleStep2_cases h2 with ⟨rfl, -⟩ | rfl | ⟨kex, -, -, hcase⟩
      · exact hs
      · rcases hdone with ⟨he, -⟩ | ⟨e', he, rfl⟩
        · cases he
        · exact absurd (congrArg _ (Except.error.inj he).symm) hr
      · rcases hcase with ⟨rfl, -⟩ | ⟨_, _, _, -, -, hlt, rfl, -⟩
        · exact hs
        · exact hlt

theorem epoch_lt_perform {c : Call} (hc : s.perform k c = some o) (hs : s.sendEpoch < 2 ^ 32) :
    o.session.sendEpoch < 2 ^ 32 := by
  cases c with
  | sealRecord plaintext =>
    rcases perform_sealRecord hc with rfl | ⟨s', record, h, rfl⟩
    · exact hs
    · obtain ⟨-, rfl, -⟩ := sealPayload_eq_ok h
      exact hs
  | initiateRatchet =>
    rcases perform_initiateRatchet hc with rfl | ⟨s', record, h, rfl⟩
    · exact hs
    · obtain ⟨-, -, rfl, -⟩ := initiateRatchet_eq_ok h
      exact hs
  | initiateIncrementalRatchet d n =>
    rcases perform_initiateIncrementalRatchet hc with rfl | ⟨s', records, h, rfl⟩
    · exact hs
    · obtain ⟨-, rfl, -⟩ := initiateIncrementalRatchet_eq_ok h
      exact hs
  | openRecord b =>
    obtain ⟨r, hr, hpanic, -⟩ := perform_openRecord hc
    rcases openRecord_cases hr with ⟨hs', -⟩ | ⟨slot, recv, seq, aad, ct, recv', opened, -, -, -, hh⟩
    · rwa [hs']
    · exact epoch_lt_handleOpened hh hpanic (by cases slot <;> exact hs)
  | openRatchetChunk b =>
    obtain ⟨r, hr, hpanic, -⟩ := perform_openRatchetChunk hc
    rcases openRatchetChunk_cases hr with ⟨a, b', hs', -⟩ | hp |
        ⟨ch, a, x, y, out, payload, records, -, -, -, -, -, -, hlt, hs', -⟩ |
        ⟨ch, a, kex, payload, x, ct, -, -, -, -, ⟨_, -, hs', -⟩ | ⟨ss, -, hlt, hs', -⟩⟩
    · rwa [hs']
    · exact absurd hp hpanic
    · rw [hs']
      exact hlt
    · rwa [hs']
    · rw [hs']
      exact hlt

/-- Every epoch of a run has a 32-bit number. -/
def Pair.EpochsFit (w : Pair) : Prop := ∀ p, (w.session p).sendEpoch < 2 ^ 32

theorem Pair.EpochsFit.step {w w' : Pair} {a : PairAction} (h : w.EpochsFit)
    (hs : w.step a = some w') : w'.EpochsFit := by
  obtain ⟨c, -, hs⟩ := Option.bind_eq_some_iff.1 hs
  obtain ⟨o, ho, hs⟩ := Option.bind_eq_some_iff.1 hs
  obtain rfl := Option.some.inj hs
  intro p
  by_cases hp : p = a.party
  · rw [hp, Pair.session_after_self]
    exact epoch_lt_perform ho (h a.party)
  · rw [Pair.session_after_of_ne hp]
    exact h p

theorem Pair.EpochsFit.run {w : Pair} (h : pairMachine.Reachable allowed w) : w.EpochsFit := by
  refine Machine.Reachable.invariant (I := Pair.EpochsFit) (fun w hw => ?_)
    (fun w w' a _ hw _ hs => hw.step hs) h
  obtain ⟨th, rfl⟩ := hw
  exact fun p => Nat.two_pow_pos 32

/-- In the last epoch there is no further step. -/
theorem not_recoverable_of_last {w : Pair} (hw : w.EpochsFit) {p : Party}
    (hp : 2 ^ 32 ≤ (w.session p).sendEpoch + 1) : ¬ w.Recoverable := by
  rintro ⟨w', hr, hadv, -⟩
  have hfit : w'.EpochsFit := by
    refine Machine.Reachable.invariant (I := Pair.EpochsFit) (fun u hu => ?_)
      (fun u u' a _ hu _ hs => hu.step hs) hr
    obtain rfl : u = w := hu
    exact hw
  have h1 := (hadv p).1
  have h2 := hfit p
  omega

end Epochs

/-! ### Nothing pending, and an epoch left -/

section Idle

theorem exists_fresh (o : Option Bytes) :
    ∃ n, ∀ k, n ≤ k → ∀ t, o = some t → t ≠ .name (.attemptNonce k) := by
  by_cases h : ∃ a, o = some (.name (.attemptNonce a))
  · obtain ⟨a, rfl⟩ := h
    refine ⟨a + 1, fun k hk t ht heq => ?_⟩
    rw [← Option.some.inj ht] at heq
    cases heq
    exact absurd hk (Nat.not_succ_le_self _)
  · refine ⟨0, fun k _ t ht heq => h ⟨k, ?_⟩⟩
    rw [ht, heq]

/-- Later calls draw attempt nonces the session has not seen. -/
theorem exists_unseen (s : RatchetedSession Bytes) :
    ∃ n, ∀ k, n ≤ k → s.Unseen (.name (.attemptNonce k)) := by
  obtain ⟨n₁, h₁⟩ := exists_fresh (s.incomingStep1Chunks.map (·.attemptNonce))
  obtain ⟨n₂, h₂⟩ := exists_fresh (s.incomingStep2Chunks.map (·.attemptNonce))
  obtain ⟨n₃, h₃⟩ := exists_fresh s.lastCompletedStep1Attempt
  obtain ⟨n₄, h₄⟩ := exists_fresh s.lastCompletedStep2Attempt
  refine ⟨n₁ + n₂ + n₃ + n₄, fun k hk => ⟨fun acc ha => ?_, fun acc ha => ?_, fun ha => ?_,
    fun ha => ?_⟩⟩
  · exact h₁ k (by omega) _ (by rw [ha]; rfl)
  · exact h₂ k (by omega) _ (by rw [ha]; rfl)
  · exact h₃ k (by omega) _ ha rfl
  · exact h₄ k (by omega) _ ha rfl

variable [ReedSolomon Bytes] {w w' : Pair} {p : Party} {n : ℕ}

/-- One more call of a run that continues `w`, and what it leaves. -/
theorem continue_step {u : Pair} {s : RatchetedSession Bytes} {a : PairAction} {c : Call}
    {o : Outcome} {k : ℕ}
    (h : (pairMachine.startAt w).Reachable (PairAction.Follows n) u) (ha : a.Follows n u)
    (hp : a.party = p) (hc : a.call u.net = some c) (hs : u.session p = s) (hk : u.calls = k)
    (ho : s.perform k c = some o) :
    ∃ u', (pairMachine.startAt w).Reachable (PairAction.Follows n) u' ∧
      u' = u.after p c o ∧ u'.session p = o.session ∧ u'.session p.peer = u.session p.peer ∧
      u'.calls = k + 1 ∧ u'.net = u.net ++ (o.records ++ o.chunks).map (⟨p, ·⟩) := by
  subst hp hs hk
  refine ⟨_, h.step ha ?_, rfl, Pair.session_after_self, Pair.session_after_peer, rfl, rfl⟩
  show u.step a = _
  rw [Pair.step, hc, Option.bind_eq_bind, Option.bind_some, ho]
  rfl

/-- A refused call changes nothing but the number of calls. -/
theorem reachable_later (hidle : (w.session p).pending = none) (m : ℕ) :
    (pairMachine.startAt w).Reachable (PairAction.Follows n) { w with calls := w.calls + m } := by
  induction m with
  | zero => exact .init rfl
  | succ m ih =>
    obtain ⟨u, hu, hue, -⟩ := continue_step (a := .initiateIncrementalRatchet p 0 0) ih trivial rfl
      rfl rfl rfl (perform_initiate_zero hidle)
    have hafter : Pair.after { w with calls := w.calls + m } p (.initiateIncrementalRatchet 0 0)
        (.nothing (w.session p)) = { w with calls := w.calls + (m + 1) } := by
      simp [Pair.after, Outcome.nothing, Call.sealedBy, Call.deliveredBy, Nat.add_assoc]
    exact (hue.trans hafter) ▸ hu

variable [LawfulReedSolomon Bytes]

/-- **The way out**: idle sessions with an epoch left complete an incremental step. -/
theorem recoverable_of_idle {th : Bytes} {xs : List Exchange} (h : w.Inv th xs)
    (hidle : ∀ p, (w.session p).pending = none)
    (hlt : ∀ p, (w.session p).sendEpoch + 1 < 2 ^ 32) : w.Recoverable := by
  have hepoch : ∀ p, (w.session p).sendEpoch = xs.length := fun p =>
    (h.newest_of_idle (hidle p)).symm
  have hroot : (w.session .responder).rootKey = (w.session .initiator).rootKey := by
    rw [(h.session _).root, (h.session _).root, hepoch, hepoch]
  obtain ⟨n₁, hunseen₁⟩ := exists_unseen (w.session .initiator)
  obtain ⟨n₂, hunseen₂⟩ := exists_unseen (w.session .responder)
  -- the call that initiates, with an attempt nonce of its own
  obtain ⟨c, hc⟩ : ∃ c, c = w.calls + (n₁ + n₂) := ⟨_, rfl⟩
  have hr₁ := reachable_later (n := w.net.length) (hidle .initiator) (n₁ + n₂)
  rw [← hc] at hr₁
  obtain ⟨rest₁, ho₁⟩ := perform_initiate_one (k := c) (hidle .initiator)
  obtain ⟨w₂, hr₂, -, hi₂, hs₂, hk₂, hn₂⟩ := continue_step (p := .initiator)
    (a := .initiateIncrementalRatchet .initiator 1 1) hr₁ trivial rfl rfl rfl rfl ho₁
  have hm₂ : w₂.net[w.net.length]? =
      some ⟨.initiator, step1Chunk (w.session .initiator).rootKey c⟩ := by
    rw [hn₂]
    simp
  -- the responder answers its first chunk
  obtain ⟨rest₂, ho₂⟩ := perform_step1Chunk (hidle .responder)
    (hunseen₂ c (by omega)) (hlt _) (c + 1)
  rw [hroot] at ho₂
  obtain ⟨w₃, hr₃, -, hi₃, hs₃, hk₃, hn₃⟩ := continue_step (p := .responder)
    (a := .openRatchetChunk .responder w.net.length) hr₂
    ⟨le_rfl, fun m hm => by rw [hm₂] at hm; rw [← Option.some.inj hm]; rfl⟩ rfl
    (by rw [PairAction.call, hm₂]; rfl) hs₂ hk₂ ho₂
  have hm₃ : w₃.net[w₂.net.length]? =
      some ⟨.responder, step2Chunk (w.session .initiator).rootKey c (c + 1)⟩ := by
    rw [hn₃]
    simp
  -- the initiator takes the first chunk of the answer
  have hunseen : ((w.session .initiator).awaiting (kexOf c)).Unseen
      (.name (.attemptNonce (c + 1))) :=
    ⟨(hunseen₁ _ (by omega)).slot1, (hunseen₁ _ (by omega)).slot2, (hunseen₁ _ (by omega)).last1,
      (hunseen₁ _ (by omega)).last2⟩
  have ho₃ := perform_step2Chunk (s := (w.session .initiator).awaiting (kexOf c)) rfl hunseen
    (hlt _) (c + 1 + 1)
  obtain ⟨w₄, hr₄, -, hi₄, hs₄, hk₄, hn₄⟩ := continue_step (p := .initiator)
    (a := .openRatchetChunk .initiator w₂.net.length) hr₃
    ⟨by rw [hn₂]; simp, fun m hm => by rw [hm₃] at hm; rw [← Option.some.inj hm]; rfl⟩ rfl
    (by rw [PairAction.call, hm₃]; rfl) (hs₃.trans hi₂) hk₃ ho₃
  have hinit : w₄.session .initiator =
      ((w.session .initiator).awaiting (kexOf c)).finished c (c + 1) := hi₄
  have hresp : w₄.session .responder = (w.session .responder).answered c (c + 1) := hs₄.trans hi₃
  have hsame : (w.session .responder).sendEpoch = (w.session .initiator).sendEpoch := by
    rw [hepoch, hepoch]
  refine ⟨w₄, hr₄, fun p => ?_, fun p plaintext k => ?_⟩
  · cases p <;> simp only [Party.peer, hinit, hresp]
    · exact ⟨Nat.lt_succ_self _, congrArg (· + 1) hsame.symm, by
        simp only [answered, finished, completed, advanced, usedUp, withChunks, awaiting, hroot]
        rfl⟩
    · exact ⟨Nat.lt_succ_self _, congrArg (· + 1) hsame, by
        simp only [answered, finished, completed, advanced, usedUp, withChunks, awaiting, hroot]
        rfl⟩
  · cases p <;> simp only [Party.peer, hinit, hresp]
    · refine open_sealed (congrArg (· + 1) hsame) ?_ rfl (hlt .initiator)
        (show 0 + 1 < 2 ^ 64 by decide) plaintext k
      simp only [answered, finished, completed, advanced, usedUp, withChunks, awaiting, hroot]
      rfl
    · refine open_sealed (congrArg (· + 1) hsame.symm) ?_ rfl (hlt .responder)
        (show 0 + 1 < 2 ^ 64 by decide) plaintext k
      simp only [answered, finished, completed, advanced, usedUp, withChunks, awaiting, hroot]
      rfl

end Idle

/-! ### The exact condition -/

section Exact

variable [ReedSolomon Bytes] [LawfulReedSolomon Bytes] {allowed : Pair → PairAction → Prop}
  {w : Pair}

/-- **A step can be blocked for good**: exactly when one is pending, or no epoch is left. -/
theorem recoverable_iff (h : pairMachine.Reachable allowed w) : w.Recoverable ↔
    ∀ p, (w.session p).pending = none ∧ (w.session p).sendEpoch + 1 < 2 ^ 32 := by
  constructor
  · intro hrec p
    constructor
    · by_contra hpending
      exact not_recoverable_of_pending (Option.isSome_iff_ne_none.2 hpending) hrec
    · by_contra hlast
      exact not_recoverable_of_last (Pair.EpochsFit.run h) (not_lt.1 hlast) hrec
  · intro hcond
    obtain ⟨th, xs, hinv⟩ := Pair.Inv.run h
    exact recoverable_of_idle hinv (fun p => (hcond p).1) fun p => (hcond p).2

end Exact

/-! ### Two runs -/

section Sample

attribute [local instance] symbolicCode

theorem symbolicCode_lawful : LawfulReedSolomon Bytes := ⟨fun _ _ _ _ _ _ _ => rfl⟩

/-- After a lost record and a completed step the way is open. -/
def openRun : List PairAction :=
  [.sealRecord .responder (.lit "lost"), .initiateRatchet .initiator, .openRecord .responder 1,
    .openRecord .initiator 2]

theorem recoverable_iff_openRun : ∃ w, pairRun openRun = some w ∧
    (w.session .initiator).sendEpoch = 1 ∧ w.Recoverable := by
  have hrun : (pairRun openRun).map (fun w => (fun s : RatchetedSession Bytes =>
      (s.sendEpoch, s.pending.isSome)) <$> [w.session .initiator, w.session .responder]) =
      some [(1, false), (1, false)] := by decide +kernel
  obtain ⟨w, hw, hp⟩ := Option.map_eq_some_iff.1 hrun
  simp only [List.map_eq_map, List.map_cons, List.map_nil, List.cons.injEq, Prod.mk.injEq,
    Option.isSome_eq_false_iff, Option.isNone_iff_eq_none, and_true] at hp
  obtain ⟨⟨h1, h2⟩, h3, h4⟩ := hp
  have hr : pairMachine.Reachable (fun _ _ => True) w :=
    Machine.Reachable.of_run (.init ⟨.nil, rfl⟩) (fun _ _ _ => trivial) hw
  have := symbolicCode_lawful
  refine ⟨w, hw, h1, (recoverable_iff hr).2 fun p => ?_⟩
  cases p
  · exact ⟨h2, by omega⟩
  · exact ⟨h4, by omega⟩

/-- **Both sides initiate at once**, and neither completes a step again. -/
theorem not_recoverable_bothInitiate : ∃ w,
    pairRun [.initiateRatchet .initiator, .initiateRatchet .responder] = some w ∧
    pairMachine.Reachable (fun _ _ => True) w ∧ ¬ w.Recoverable := by
  have hrun : (pairRun [.initiateRatchet .initiator, .initiateRatchet .responder]).map
      (fun w => (w.session .initiator).pending.isSome) = some true := by decide +kernel
  obtain ⟨w, hw, hp⟩ := Option.map_eq_some_iff.1 hrun
  have hr : pairMachine.Reachable (fun _ _ => True) w :=
    Machine.Reachable.of_run (.init ⟨.nil, rfl⟩) (fun _ _ _ => trivial) hw
  exact ⟨w, hw, hr, not_recoverable_of_pending hp⟩

end Sample

end Ratchet

end NovaChannel
