import NovaChannel.Wire

/-!
# The transport's replay window

Records of one direction of the channel: an explicit sequence number, a sliding window of the 64
numbers below the highest one accepted.

* `Receiver.Tracks` : the window holds exactly the numbers accepted within it;
* `Receiver.openRecord_ok_iff` : which records one delivery accepts;
* `Receiver.deliver_tracks` : the numbers accepted over a run are those the window tracks;
* `window_exact` : **exactly the records that authenticate, were not accepted before and are not
  too old are accepted**, over whole runs.
-/

namespace NovaChannel

namespace Transport

open Wire

/-- ChaCha20-Poly1305: key, nonce, associated data, message. -/
structure Aead where
  encrypt : Bytes → Bytes → Bytes → Bytes → Option Bytes
  decrypt : Bytes → Bytes → Bytes → Bytes → Option Bytes

/-- `MAX_PLAINTEXT_LEN`. -/
def maxPlaintextLen : ℕ := 16 * 1024
/-- `TAG_LEN`. -/
def tagLen : ℕ := 16
/-- `SEQ_LEN`. -/
def seqLen : ℕ := 8
/-- `REPLAY_WINDOW`. -/
def replayWindow : ℕ := 64

/-- `DirectionalKey`. -/
structure DirectionalKey where
  cipher : Bytes
  baseIv : Bytes

/-- `nonce_for`: the number is XORed into the last eight bytes of the base IV. -/
def DirectionalKey.nonceFor (key : DirectionalKey) (seq : ℕ) : Bytes :=
  key.baseIv.take 4 ++ List.zipWith (· ^^^ ·) (key.baseIv.drop 4) (beBytes seqLen seq)

/-! ### Sending -/

/-- `Sender`. -/
structure Sender where
  key : DirectionalKey
  nextSeq : ℕ

/-- `Sender::new`. -/
def Sender.new (key : DirectionalKey) : Sender := ⟨key, 0⟩

/-- `Sender::seal`, with the state it leaves. -/
def Sender.seal (aead : Aead) (s : Sender) (plaintext : Bytes) : Result Bytes × Sender :=
  if plaintext.length > maxPlaintextLen then (Result.err .tooLarge, s)
  else
    let seq := s.nextSeq
    match checkedAdd64 s.nextSeq 1 with
    | none => (Result.err .sequenceExhausted, s)
    | some next =>
      let s := { s with nextSeq := next }
      let seqBytes := beBytes seqLen seq
      match aead.encrypt s.key.cipher (s.key.nonceFor seq) seqBytes plaintext with
      | none => (Result.err .decrypt, s)
      | some ciphertext => (.ok (seqBytes ++ ciphertext), s)

/-! ### Receiving -/

/-- `Receiver`: bit `i` of the window says that `highest_seq - i - 1` was seen. -/
structure Receiver where
  key : DirectionalKey
  highestSeq : Option ℕ
  window : BitVec 64

namespace Receiver

/-- `Receiver::new`. -/
def new (key : DirectionalKey) : Receiver := ⟨key, none, 0⟩

/-- `check_replay`. -/
def checkReplay (r : Receiver) (seq : ℕ) : Result Unit :=
  match r.highestSeq with
  | none => .ok ()
  | some highest =>
    if seq > highest then .ok ()
    else if seq = highest then Result.err .replay
    else
      let age := highest - seq
      if age > replayWindow ∨ r.window &&& (1#64 <<< (age - 1)) ≠ 0 then Result.err .replay
      else .ok ()

/-- `record_seen`. -/
def recordSeen (r : Receiver) (seq : ℕ) : Receiver :=
  match r.highestSeq with
  | none => { r with highestSeq := some seq, window := 0 }
  | some highest =>
    if seq > highest then
      let shift := seq - highest
      let window :=
        if shift > replayWindow then 0
        else if shift = replayWindow then 1#64 <<< (replayWindow - 1)
        else r.window <<< shift ||| 1#64 <<< (shift - 1)
      { r with highestSeq := some seq, window := window }
    else
      let age := highest - seq
      { r with window := r.window ||| 1#64 <<< (age - 1) }

/-- The sequence number of a record. -/
def seqOf (record : Bytes) : ℕ := fromBe (record.take seqLen)

/-- The length of a record is admissible. -/
def Admissible (record : Bytes) : Prop :=
  seqLen + tagLen ≤ record.length ∧ record.length ≤ seqLen + tagLen + maxPlaintextLen

/-- What a record opens to under a key. -/
def authenticate (aead : Aead) (key : DirectionalKey) (record : Bytes) : Option Bytes :=
  aead.decrypt key.cipher (key.nonceFor (seqOf record)) (record.take seqLen) (record.drop seqLen)

/-- `Receiver::open`, with the state it leaves. -/
def openRecord (aead : Aead) (r : Receiver) (record : Bytes) : Result Bytes × Receiver :=
  if record.length < seqLen + tagLen then
    (Result.err (.malformed "record shorter than header + tag"), r)
  else if record.length > seqLen + tagLen + maxPlaintextLen then (Result.err .tooLarge, r)
  else
    let seq := seqOf record
    match r.checkReplay seq with
    | .error e => (.error e, r)
    | .ok () =>
      match authenticate aead r.key record with
      | none => (Result.err .decrypt, r)
      | some plaintext => (.ok plaintext, r.recordSeen seq)

/-! ### Runs -/

/-- A run: every delivered record, and those accepted. -/
def deliver (aead : Aead) (r : Receiver) : List Bytes → Receiver × List Bytes
  | [] => (r, [])
  | record :: records =>
    match r.openRecord aead record with
    | (.error _, r') => deliver aead r' records
    | (.ok _, r') =>
      let (r'', accepted) := deliver aead r' records
      (r'', record :: accepted)

/-- The highest number accepted and the window are those of the numbers accepted. -/
def Tracks (r : Receiver) (accepted : Set ℕ) : Prop :=
  match r.highestSeq with
  | none => accepted = ∅
  | some highest => highest ∈ accepted ∧ (∀ seq ∈ accepted, seq ≤ highest) ∧
      ∀ age, 1 ≤ age → age ≤ replayWindow →
        (r.window.getLsbD (age - 1) ↔ age ≤ highest ∧ highest - age ∈ accepted)

/-- A number is acceptable after the numbers accepted so far. -/
def Fresh (accepted : Set ℕ) (seq : ℕ) : Prop :=
  seq ∉ accepted ∧ (accepted = ∅ ∨ (∀ a ∈ accepted, a < seq) ∨
    ∃ highest ∈ accepted, (∀ a ∈ accepted, a ≤ highest) ∧ seq ≤ highest ∧
      highest - seq ≤ replayWindow)

/-! ### The window -/

/-- One bit. -/
theorem getLsbD_bit {k i : ℕ} (hk : k < 64) (hi : i < 64) :
    (1#64 <<< k).getLsbD i = decide (i = k) := by
  rw [BitVec.getLsbD_shiftLeft, BitVec.getLsbD_one]
  simp only [hi, decide_true, Bool.true_and]
  by_cases h : i < k
  · simp [h, h.ne]
  · have hiff : i - k = 0 ↔ i = k := by omega
    simp [h, hiff]

/-- Testing a bit with a mask. -/
theorem and_bit_ne_zero (window : BitVec 64) {k : ℕ} (hk : k < 64) :
    window &&& (1#64 <<< k) ≠ 0 ↔ window.getLsbD k := by
  constructor
  · intro hne
    by_contra hbit
    refine hne (BitVec.eq_of_getLsbD_eq fun i hi => ?_)
    rw [BitVec.getLsbD_and, getLsbD_bit hk hi]
    by_cases h : i = k
    · rw [h, Bool.eq_false_iff.2 hbit, Bool.false_and, BitVec.ofNat_eq_ofNat, BitVec.getLsbD_zero]
    · simp [h]
  · intro hbit hzero
    have h := congrArg (·.getLsbD k) hzero
    simp [BitVec.getLsbD_and, getLsbD_bit hk hk, hbit] at h

variable {r : Receiver} {accepted : Set ℕ} {seq : ℕ}

theorem tracks_new (key : DirectionalKey) : (new key).Tracks ∅ := rfl

/-- **The check lets exactly the fresh numbers through.** -/
theorem checkReplay_ok_iff (h : r.Tracks accepted) :
    r.checkReplay seq = .ok () ↔ Fresh accepted seq := by
  unfold Tracks at h
  unfold checkReplay Fresh
  cases hhighest : r.highestSeq with
  | none =>
    rw [hhighest] at h
    subst h
    simp
  | some highest =>
    rw [hhighest] at h
    obtain ⟨hmem, hle, hwindow⟩ := h
    have hne : accepted ≠ ∅ := fun he => by simp [he] at hmem
    -- the highest number is the only one that all others are below
    have hbest : (∃ top ∈ accepted, (∀ a ∈ accepted, a ≤ top) ∧ seq ≤ top ∧
        top - seq ≤ replayWindow) ↔ seq ≤ highest ∧ highest - seq ≤ replayWindow := by
      constructor
      · rintro ⟨top, htop, hmax, h1, h2⟩
        obtain rfl : top = highest := le_antisymm (hle top htop) (hmax highest hmem)
        exact ⟨h1, h2⟩
      · exact fun ⟨h1, h2⟩ => ⟨highest, hmem, hle, h1, h2⟩
    rw [hbest]
    dsimp only
    rcases Nat.lt_trichotomy highest seq with hlt | rfl | hlt
    · have hfresh : seq ∉ accepted := fun hs => absurd (hle seq hs) (by omega)
      rw [if_pos hlt]
      exact iff_of_true rfl ⟨hfresh, .inr (.inl fun a ha => lt_of_le_of_lt (hle a ha) hlt)⟩
    · rw [if_neg (lt_irrefl _), if_pos rfl]
      exact iff_of_false (by simp) fun hf => hf.1 hmem
    · have hage1 : 1 ≤ highest - seq := by omega
      rw [if_neg (by omega), if_neg (by omega)]
      by_cases hold : highest - seq > replayWindow
      · rw [if_pos (.inl hold)]
        refine iff_of_false (by simp) fun hf => ?_
        rcases hf.2 with he | habove | ⟨-, hage⟩
        · exact hne he
        · exact absurd (habove highest hmem) (by omega)
        · exact absurd hage (by omega)
      · have hage : highest - seq ≤ replayWindow := by omega
        have hbit := hwindow (highest - seq) hage1 hage
        rw [show highest - (highest - seq) = seq by omega] at hbit
        have hk : highest - seq - 1 < 64 := by
          unfold replayWindow at hage
          omega
        rw [← and_bit_ne_zero _ hk] at hbit
        by_cases hseen : seq ∈ accepted
        · rw [if_pos (.inr (hbit.2 ⟨by omega, hseen⟩))]
          exact iff_of_false (by simp) fun hf => hf.1 hseen
        · rw [if_neg (by
            rintro (h | h)
            · exact hold h
            · exact hseen (hbit.1 h).2)]
          exact iff_of_true rfl ⟨hseen, .inr (.inr ⟨hlt.le, hage⟩)⟩

/-- **Recording a fresh number keeps track of it.** -/
theorem recordSeen_tracks (h : r.Tracks accepted) (hfresh : Fresh accepted seq) :
    (r.recordSeen seq).Tracks (insert seq accepted) := by
  unfold Tracks at h
  cases hhighest : r.highestSeq with
  | none =>
    rw [hhighest] at h
    subst h
    simp only [recordSeen, hhighest, Tracks]
    refine ⟨by simp, by simp, fun age hage _ => ?_⟩
    simp only [BitVec.ofNat_eq_ofNat, BitVec.getLsbD_zero, Bool.false_eq_true, false_iff]
    rintro ⟨hle, hmem⟩
    simp only [insert_empty_eq, Set.mem_singleton_iff] at hmem
    omega
  | some highest =>
    rw [hhighest] at h
    obtain ⟨hmem, hle, hwindow⟩ := h
    by_cases hgt : seq > highest
    · simp only [recordSeen, hhighest, Tracks, if_pos hgt]
      refine ⟨Set.mem_insert _ _, ?_, fun age hage1 hage => ?_⟩
      · rintro a (rfl | ha)
        · exact le_refl _
        · exact (hle a ha).trans hgt.le
      -- the ages grow by the shift
      have hmemIff : seq - age ∈ insert seq accepted ∧ age ≤ seq ↔
          age ≤ seq ∧ (seq - age = highest ∨
            (seq - highest < age ∧ age - (seq - highest) ≤ highest ∧
              highest - (age - (seq - highest)) ∈ accepted)) := by
        constructor
        · rintro ⟨hin, hle'⟩
          rcases hin with heq | hin
          · omega
          · refine ⟨hle', ?_⟩
            have := hle _ hin
            rcases Nat.lt_or_ge (seq - age) highest with hlt | hge
            · refine .inr ⟨by omega, by omega, ?_⟩
              rwa [show highest - (age - (seq - highest)) = seq - age by omega]
            · exact .inl (by omega)
        · rintro ⟨hle', heq | ⟨h1, h2, h3⟩⟩
          · exact ⟨.inr (heq ▸ hmem), hle'⟩
          · rw [show highest - (age - (seq - highest)) = seq - age by omega] at h3
            exact ⟨.inr h3, hle'⟩
      rw [and_comm, hmemIff]
      unfold replayWindow at hage
      split_ifs with hfar hedge
      · simp only [BitVec.ofNat_eq_ofNat, BitVec.getLsbD_zero, Bool.false_eq_true, false_iff]
        unfold replayWindow at hfar
        omega
      · unfold replayWindow at hedge ⊢
        rw [getLsbD_bit (by omega) (by omega), decide_eq_true_eq]
        omega
      · have hshift : seq - highest < 64 := by
          unfold replayWindow at hfar hedge
          omega
        rw [BitVec.getLsbD_or, BitVec.getLsbD_shiftLeft, getLsbD_bit (by omega) (by omega)]
        simp only [Bool.or_eq_true, Bool.and_eq_true, decide_eq_true_eq, Bool.not_eq_true',
          decide_eq_false_iff_not]
        have hprev := hwindow (age - (seq - highest))
        rcases Nat.lt_trichotomy age (seq - highest) with hlt | heq | hlt
        · omega
        · refine iff_of_true (.inr (by omega)) ⟨by omega, .inl (by omega)⟩
        · have hbit := hprev (by omega) (by unfold replayWindow; omega)
          rw [show age - (seq - highest) - 1 = age - 1 - (seq - highest) by omega] at hbit
          rw [hbit]
          constructor
          · rintro (⟨-, h1, h2⟩ | h1)
            · exact ⟨by omega, .inr ⟨hlt, h1, h2⟩⟩
            · omega
          · rintro ⟨h0, h1 | ⟨h1, h2, h3⟩⟩
            · omega
            · exact .inl ⟨⟨by omega, by omega⟩, h2, h3⟩
    · -- a number inside the window
      have hlt : seq < highest := by
        rcases Nat.lt_trichotomy highest seq with h | rfl | h
        · exact absurd h hgt
        · exact absurd hmem hfresh.1
        · exact h
      simp only [recordSeen, hhighest, Tracks, if_neg hgt]
      refine ⟨.inr hmem, ?_, fun age hage1 hage => ?_⟩
      · rintro a (rfl | ha)
        · exact hlt.le
        · exact hle a ha
      have hwin : highest - seq ≤ replayWindow := by
        rcases hfresh.2 with he | habove | ⟨top, htop, hmax, h1, h2⟩
        · simp [he] at hmem
        · exact absurd (habove highest hmem) (by omega)
        · obtain rfl : top = highest := le_antisymm (hle top htop) (hmax highest hmem)
          exact h2
      unfold replayWindow at hwin hage
      rw [BitVec.getLsbD_or, getLsbD_bit (by omega) (by omega), Bool.or_eq_true,
        decide_eq_true_eq, hwindow age hage1 hage, Set.mem_insert_iff]
      constructor
      · rintro (⟨h1, h2⟩ | h)
        · exact ⟨h1, .inr h2⟩
        · exact ⟨by omega, .inl (by omega)⟩
      · rintro ⟨h1, h2 | h2⟩
        · exact .inr (by omega)
        · exact .inl ⟨h1, h2⟩

/-! ### One delivery -/

@[simp] theorem recordSeen_key (r : Receiver) (seq : ℕ) : (r.recordSeen seq).key = r.key := by
  unfold recordSeen
  split
  · rfl
  · dsimp only
    split_ifs <;> rfl

/-- What an accepted delivery says and does. -/
theorem openRecord_ok {aead : Aead} {record plaintext : Bytes} {r' : Receiver}
    (h : r.openRecord aead record = (.ok plaintext, r')) :
    Admissible record ∧ r.checkReplay (seqOf record) = .ok () ∧
      authenticate aead r.key record = some plaintext ∧ r' = r.recordSeen (seqOf record) := by
  unfold openRecord at h
  split_ifs at h with h1 h2
  · cases h
  · cases h
  · dsimp only at h
    cases hcheck : r.checkReplay (seqOf record) with
    | error e =>
      rw [hcheck] at h
      cases h
    | ok u =>
      rw [hcheck] at h
      cases hauth : authenticate aead r.key record with
      | none =>
        rw [hauth] at h
        cases h
      | some p =>
        rw [hauth] at h
        cases h
        exact ⟨⟨by omega, by omega⟩, rfl, rfl, rfl⟩

/-- A rejected record leaves the state unchanged. -/
theorem openRecord_error {aead : Aead} {record : Bytes} {e : Fault} {r' : Receiver}
    (h : r.openRecord aead record = (.error e, r')) : r' = r := by
  unfold openRecord at h
  split_ifs at h with h1 h2
  · cases h
    rfl
  · cases h
    rfl
  · dsimp only at h
    cases hcheck : r.checkReplay (seqOf record) with
    | error e =>
      rw [hcheck] at h
      cases h
      rfl
    | ok u =>
      rw [hcheck] at h
      cases hauth : authenticate aead r.key record with
      | none =>
        rw [hauth] at h
        cases h
        rfl
      | some p =>
        rw [hauth] at h
        cases h

/-- **Which records are accepted.** -/
theorem openRecord_ok_iff {aead : Aead} {record : Bytes} (h : r.Tracks accepted) :
    (∃ plaintext, (r.openRecord aead record).1 = .ok plaintext) ↔
      Admissible record ∧ (authenticate aead r.key record).isSome ∧
        Fresh accepted (seqOf record) := by
  constructor
  · rintro ⟨plaintext, hok⟩
    have hopen : r.openRecord aead record = (.ok plaintext, (r.openRecord aead record).2) :=
      Prod.ext hok rfl
    obtain ⟨hlen, hcheck, hauth, -⟩ := openRecord_ok hopen
    exact ⟨hlen, by rw [hauth]; rfl, (checkReplay_ok_iff h).1 hcheck⟩
  · rintro ⟨⟨h1, h2⟩, hauth, hfresh⟩
    obtain ⟨plaintext, hauth⟩ := Option.isSome_iff_exists.1 hauth
    refine ⟨plaintext, ?_⟩
    rw [openRecord, if_neg (by omega), if_neg (by omega)]
    simp only [(checkReplay_ok_iff h).2 hfresh, hauth]

/-! ### Runs of deliveries -/

/-- The sequence numbers of some records. -/
def seqs (records : List Bytes) : Set ℕ := {seq | ∃ record ∈ records, seqOf record = seq}

/-- **The run lemma**: the state tracks the numbers accepted, and no number is accepted twice. -/
theorem deliver_tracks (aead : Aead) (records : List Bytes) (h : r.Tracks accepted) :
    (deliver aead r records).1.Tracks (accepted ∪ seqs (deliver aead r records).2) ∧
      (deliver aead r records).1.key = r.key ∧
      ((deliver aead r records).2.map seqOf).Nodup ∧
      ∀ record ∈ (deliver aead r records).2, seqOf record ∉ accepted := by
  induction records generalizing r accepted with
  | nil => simpa [deliver, seqs] using h
  | cons record records ih =>
    rcases hopen : r.openRecord aead record with ⟨e | plaintext, r'⟩
    · obtain rfl := openRecord_error hopen
      simp only [deliver, hopen]
      exact ih h
    · obtain ⟨-, hcheck, -, rfl⟩ := openRecord_ok hopen
      have hfresh := (checkReplay_ok_iff h).1 hcheck
      obtain ⟨htracks, hkey, hnodup, hnew⟩ := ih (recordSeen_tracks h hfresh)
      simp only [deliver, hopen]
      refine ⟨?_, hkey.trans (recordSeen_key _ _), ?_, ?_⟩
      · have hset : insert (seqOf record) accepted ∪
            seqs (deliver aead (r.recordSeen (seqOf record)) records).2 =
            accepted ∪ seqs (record :: (deliver aead (r.recordSeen (seqOf record)) records).2) := by
          ext seq
          simp only [seqs, Set.mem_union, Set.mem_insert_iff, Set.mem_ofPred_eq, List.mem_cons,
            exists_eq_or_imp, eq_comm (a := seq)]
          tauto
        rwa [hset] at htracks
      · rw [List.map_cons, List.nodup_cons]
        refine ⟨fun hin => ?_, hnodup⟩
        obtain ⟨record', hmem, heq⟩ := List.mem_map.1 hin
        exact hnew record' hmem (.inl heq)
      · intro record' hmem
        rcases List.mem_cons.1 hmem with rfl | hmem
        · exact hfresh.1
        · exact fun hin => hnew record' hmem (.inr hin)

end Receiver

/-! ### Runs of sealing -/

namespace Sender

/-- A run: every plaintext, and the records sealed. -/
def sealAll (aead : Aead) (s : Sender) : List Bytes → Sender × List Bytes
  | [] => (s, [])
  | plaintext :: plaintexts =>
    match s.seal aead plaintext with
    | (.error _, s') => sealAll aead s' plaintexts
    | (.ok record, s') =>
      let (s'', records) := sealAll aead s' plaintexts
      (s'', record :: records)

variable {aead : Aead} {s s' : Sender}

/-- A record carries the next number, and the next number grows. -/
theorem seal_ok {plaintext record : Bytes} (h : s.seal aead plaintext = (.ok record, s')) :
    Receiver.seqOf record = s.nextSeq ∧ s'.nextSeq = s.nextSeq + 1 := by
  unfold Sender.seal at h
  split_ifs at h
  · cases h
  · dsimp only at h
    cases hadd : checkedAdd64 s.nextSeq 1 with
    | none =>
      rw [hadd] at h
      cases h
    | some next =>
      obtain ⟨hlt, rfl⟩ := checkedAdd64_eq_some.1 hadd
      rw [hadd] at h
      dsimp only at h
      split at h
      · cases h
      · cases h
        refine ⟨?_, rfl⟩
        rw [Receiver.seqOf, List.take_left' (length_beBytes _ _), fromBe_beBytes]
        exact lt_of_lt_of_le (Nat.lt_of_succ_lt hlt) (by decide)

theorem nextSeq_le_of_error {plaintext : Bytes} {e : Fault}
    (h : s.seal aead plaintext = (.error e, s')) : s.nextSeq ≤ s'.nextSeq := by
  unfold Sender.seal at h
  split_ifs at h
  · cases h
    exact le_refl _
  · dsimp only at h
    cases hadd : checkedAdd64 s.nextSeq 1 with
    | none =>
      rw [hadd] at h
      cases h
      exact le_refl _
    | some next =>
      obtain ⟨-, rfl⟩ := checkedAdd64_eq_some.1 hadd
      rw [hadd] at h
      dsimp only at h
      split at h
      · cases h
        exact Nat.le_succ _
      · cases h

/-- The numbers of the records of a run increase. -/
theorem sealAll_sorted (aead : Aead) (s : Sender) (plaintexts : List Bytes) :
    ((s.sealAll aead plaintexts).2.map Receiver.seqOf).Pairwise (· < ·) ∧
      ∀ record ∈ (s.sealAll aead plaintexts).2, s.nextSeq ≤ Receiver.seqOf record := by
  induction plaintexts generalizing s with
  | nil => simp [sealAll]
  | cons plaintext plaintexts ih =>
    rcases hseal : s.seal aead plaintext with ⟨e | record, s'⟩
    · have hle := nextSeq_le_of_error hseal
      obtain ⟨hsorted, hge⟩ := ih s'
      simp only [sealAll, hseal]
      exact ⟨hsorted, fun record hmem => hle.trans (hge record hmem)⟩
    · obtain ⟨hseq, hnext⟩ := seal_ok hseal
      obtain ⟨hsorted, hge⟩ := ih s'
      simp only [sealAll, hseal, List.map_cons, List.pairwise_cons, List.mem_map,
        List.mem_cons]
      refine ⟨⟨?_, hsorted⟩, ?_⟩
      · rintro _ ⟨record', hmem, rfl⟩
        have := hge record' hmem
        omega
      · rintro record' (rfl | hmem)
        · exact hseq.ge
        · have := hge record' hmem
          omega

end Sender

/-- **The replay window is exact.**  After any records whatever were delivered: a record is accepted
exactly if its length is admissible, it authenticates, and its number was not accepted before and
is the first, or above the highest accepted, or at most 64 below it; a rejected record changes
nothing; no number was accepted twice, so no record was delivered twice; and a sender never uses a
number for two records. -/
theorem window_exact (aead : Aead) (key senderKey : DirectionalKey)
    (records plaintexts : List Bytes) :
    let run := Receiver.deliver aead (Receiver.new key) records
    (∀ record, (∃ plaintext, (run.1.openRecord aead record).1 = .ok plaintext) ↔
      Receiver.Admissible record ∧ (Receiver.authenticate aead key record).isSome ∧
        Receiver.Fresh (Receiver.seqs run.2) (Receiver.seqOf record)) ∧
    (∀ record e, (run.1.openRecord aead record).1 = .error e →
      (run.1.openRecord aead record).2 = run.1) ∧
    (run.2.map Receiver.seqOf).Nodup ∧ run.2.Nodup ∧
    (((Sender.new senderKey).sealAll aead plaintexts).2.map Receiver.seqOf).Nodup := by
  obtain ⟨htracks, hkey, hnodup, -⟩ :=
    Receiver.deliver_tracks aead records (Receiver.tracks_new key)
  rw [Set.empty_union] at htracks
  refine ⟨fun record => ?_, fun record e he => ?_, hnodup, .of_map _ hnodup, ?_⟩
  · rw [Receiver.openRecord_ok_iff htracks, hkey]
    rfl
  · exact Receiver.openRecord_error (Prod.ext he rfl)
  · exact (Sender.sealAll_sorted aead _ plaintexts).1.imp fun h => h.ne

end Transport

end NovaChannel
