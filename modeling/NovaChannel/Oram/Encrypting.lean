import NovaChannel.Oram.Verified
import NovaChannel.Transport

/-!
# The encrypting server

`EncryptingServerStorage` seals every block before it reaches the inner server, and pads every
bucket with dummies.  The inner server is any `VerifiableServerStorage` of byte strings: it answers
what it likes.

* `sealOramBlock`, `openOramBlock`, `encryptingServer` : the source;
* `Sound` : **every block that was ever sealed has a position and a value that fits**;
* `EncryptedReached` : the clients of all runs, if the server returns no forged ciphertext;
* `isSome_verifiedAccess_iff` : **when an access panics**.
-/

namespace NovaChannel

namespace Oram

open Transport (Aead)
open Wire (beBytes fromBe putU64)

/-! ### Sealed blocks -/

/-- `ORAM_NONCE_LEN`. -/
def oramNonceLen : ℕ := 12
/-- `ORAM_ID_LEN`. -/
def oramIdLen : ℕ := 8
/-- `ORAM_TAG_LEN`. -/
def oramTagLen : ℕ := 1
/-- `ORAM_VALUE_LEN_LEN`. -/
def oramValueLenLen : ℕ := 4
/-- `ORAM_TAG_REAL`. -/
def oramTagReal : UInt8 := 1
/-- `ORAM_TAG_DUMMY`. -/
def oramTagDummy : UInt8 := 0

/-- The bytes before a value. -/
def oramHeaderLen : ℕ := oramTagLen + oramIdLen + oramValueLenLen

/-- `Vec::resize` with zeros. -/
def resize (bytes : Bytes) (n : ℕ) : Bytes := (bytes ++ List.replicate n 0).take n

/-- What `seal_oram_block` encrypts. -/
def blockPlaintext (tag : UInt8) (b : Block Bytes) (blockValueLen : ℕ) : Bytes :=
  resize (tag :: (putU64 b.id ++ (beBytes 4 b.value.length ++ b.value)))
    (oramHeaderLen + blockValueLen)

/-- `seal_oram_block`; `none` is a failed assertion. -/
def sealOramBlock (A : Aead) (key nonce : Bytes) (tag : UInt8) (b : Block Bytes)
    (blockValueLen : ℕ) : Option Bytes :=
  if b.value.length ≤ blockValueLen then
    (A.encrypt key nonce [] (blockPlaintext tag b blockValueLen)).map (nonce ++ ·)
  else none

/-- The second half of `open_oram_block`: a decrypted block, unless it is malformed or a dummy. -/
def parseBlock (plaintext : Bytes) : Option (Block Bytes) :=
  if plaintext.length < oramHeaderLen ∨ plaintext.head? ≠ some oramTagReal then none
  else
    let id := UInt64.ofNat (fromBe ((plaintext.drop oramTagLen).take oramIdLen))
    let valueLen := fromBe ((plaintext.drop (oramTagLen + oramIdLen)).take oramValueLenLen)
    if oramHeaderLen + valueLen > plaintext.length then none
    else some ⟨id, (plaintext.drop oramHeaderLen).take valueLen⟩

/-- `open_oram_block`. -/
def openOramBlock (A : Aead) (key sealed : Bytes) : Option (Block Bytes) :=
  if sealed.length < oramNonceLen then none
  else (A.decrypt key (sealed.take oramNonceLen) [] (sealed.drop oramNonceLen)).bind parseBlock

/-- `EncryptingServerStorage`, with the messages it has sealed so far under their nonces. -/
structure EncryptingServerStorage (σ : Type) where
  inner : σ
  nonceCounter : ℕ
  sealed : List (Bytes × Bytes)

section Definitions

variable {σ : Type} (A : Aead) (key : Bytes) (blockValueLen : ℕ)

/-- `next_nonce`; `none` is the exhausted counter. -/
def nextNonce (s : EncryptingServerStorage σ) : Option (Bytes × EncryptingServerStorage σ) :=
  if s.nonceCounter + 1 < 2 ^ 64 then
    some (List.replicate 4 0 ++ beBytes 8 s.nonceCounter,
      { s with nonceCounter := s.nonceCounter + 1 })
  else none

/-- The loops of `write`: blocks sealed one after the other, with their tags. -/
def sealAll : List (UInt8 × Block Bytes) → EncryptingServerStorage σ →
    Option (List (Block Bytes) × EncryptingServerStorage σ)
  | [], s => some ([], s)
  | (tag, b) :: blocks, s => do
    let (nonce, s) ← nextNonce s
    let sealed ← sealOramBlock A key nonce tag b blockValueLen
    let s := { s with sealed := s.sealed ++ [(nonce, blockPlaintext tag b blockValueLen)] }
    let (rest, s) ← sealAll blocks s
    some (⟨0, sealed⟩ :: rest, s)

/-- `EncryptingServerStorage` as a `ServerStorage`. -/
def encryptingStorage (inner : ServerStorage σ Bytes) :
    ServerStorage (EncryptingServerStorage σ) Bytes where
  readAndClear s node :=
    let (blocks, innerState) := inner.readAndClear s.inner node
    (blocks.filterMap fun sealed => openOramBlock A key sealed.value, { s with inner := innerState })
  write s node blocks :=
    if blocks.length ≤ inner.bucketCapacity then do
      let (sealed, s) ← sealAll A key blockValueLen (blocks.map fun b => (oramTagReal, b)) s
      let (padding, s) ← sealAll A key blockValueLen
        (List.replicate (inner.bucketCapacity - blocks.length) (oramTagDummy, ⟨0, []⟩)) s
      let innerState ← inner.write s.inner node (sealed ++ padding)
      some { s with inner := innerState }
    else none
  bucketCapacity := inner.bucketCapacity

/-- `EncryptingServerStorage` as a `VerifiableServerStorage`. -/
def encryptingServer (inner : VerifiableServerStorage σ Bytes) (A : Aead) (key : Bytes)
    (blockValueLen : ℕ) : VerifiableServerStorage (EncryptingServerStorage σ) Bytes where
  toServerStorage := encryptingStorage A key blockValueLen inner.toServerStorage
  nodeHash s node :=
    let (hash, innerState) := inner.nodeHash s.inner node
    (hash, { s with inner := innerState })
  setNodeHash s node hash := { s with inner := inner.setNodeHash s.inner node hash }

end Definitions

/-- A padded message, field by field. -/
theorem blockPlaintext_eq {tag : UInt8} {b : Block Bytes} {blockValueLen : ℕ}
    (hb : b.value.length ≤ blockValueLen) :
    blockPlaintext tag b blockValueLen =
      tag :: (putU64 b.id ++ (beBytes 4 b.value.length ++
        (b.value ++ List.replicate (blockValueLen - b.value.length) 0))) := by
  have hlen : (tag :: (putU64 b.id ++ (beBytes 4 b.value.length ++ b.value))).length =
      oramHeaderLen + b.value.length := by
    simp [oramHeaderLen, oramTagLen, oramIdLen, oramValueLenLen]
    omega
  rw [blockPlaintext, resize, List.take_append, hlen, List.take_of_length_le (by omega),
    List.take_replicate, Nat.add_sub_add_left, Nat.min_eq_left (by omega)]
  simp

theorem length_blockPlaintext (tag : UInt8) {b : Block Bytes} {blockValueLen : ℕ}
    (hb : b.value.length ≤ blockValueLen) :
    (blockPlaintext tag b blockValueLen).length = oramHeaderLen + blockValueLen := by
  rw [blockPlaintext_eq hb]
  simp [oramHeaderLen, oramTagLen, oramIdLen, oramValueLenLen]
  omega

/-- A sealed block opens to what was sealed, and a dummy to nothing. -/
theorem parseBlock_eq {tag : UInt8} {b : Block Bytes} {blockValueLen : ℕ}
    (hlen : blockValueLen < 2 ^ 32) (hb : b.value.length ≤ blockValueLen) :
    parseBlock (blockPlaintext tag b blockValueLen) =
      if tag = oramTagReal then some b else none := by
  have h8 : (putU64 b.id).length = 8 := Wire.length_putU64 _
  have h4 : (beBytes 4 b.value.length).length = 4 := Wire.length_beBytes _ _
  have hid : ((blockPlaintext tag b blockValueLen).drop oramTagLen).take oramIdLen =
      putU64 b.id := by
    rw [blockPlaintext_eq hb]
    exact List.take_left' h8
  have hvalueLen : ((blockPlaintext tag b blockValueLen).drop (oramTagLen + oramIdLen)).take
      oramValueLenLen = beBytes 4 b.value.length := by
    rw [blockPlaintext_eq hb, Nat.add_comm, oramTagLen, List.drop_succ_cons,
      List.drop_left' (show (putU64 b.id).length = oramIdLen from h8)]
    exact List.take_left' h4
  have hvalue : (blockPlaintext tag b blockValueLen).drop oramHeaderLen =
      b.value ++ List.replicate (blockValueLen - b.value.length) 0 := by
    have h12 : (putU64 b.id ++ beBytes 4 b.value.length).length = 12 := by
      rw [List.length_append, h8, h4]
    rw [blockPlaintext_eq hb, ← List.append_assoc (putU64 b.id)]
    exact List.drop_left' h12
  have hhead : (blockPlaintext tag b blockValueLen).head? = some tag := by
    rw [blockPlaintext_eq hb]
    rfl
  have hlength := length_blockPlaintext tag hb
  rw [parseBlock, hid, hvalueLen, hvalue, hhead, putU64,
    Wire.fromBe_beBytes (show b.id.toNat < 256 ^ 8 from b.id.toNat_lt),
    Wire.fromBe_beBytes (show b.value.length < 256 ^ 4 by omega), UInt64.ofNat_toNat]
  by_cases htag : tag = oramTagReal
  · rw [if_neg (not_or.2 ⟨by omega, fun h => h (congrArg some htag)⟩), if_neg (by omega),
      if_pos htag, List.take_left]
  · rw [if_pos (.inr fun h => htag (Option.some.inj h)), if_neg htag]

/-! ### What a write seals -/

section Sealing

variable {σ : Type} {inner : VerifiableServerStorage σ Bytes} {A : Aead} {key : Bytes}
  {blockValueLen : ℕ}

/-- From one state to a later one so many blocks were sealed, all of them from a list. -/
structure Grows (blockValueLen n : ℕ) (blocks : List (UInt8 × Block Bytes))
    (s s' : EncryptingServerStorage σ) : Prop where
  counter : s'.nonceCounter = s.nonceCounter + n
  sealed : ∀ e ∈ s'.sealed, e ∈ s.sealed ∨
    ∃ x ∈ blocks, e.2 = blockPlaintext x.1 x.2 blockValueLen
  room : 0 < n → s'.nonceCounter < 2 ^ 64

theorem Grows.trans {n n' : ℕ} {blocks blocks' : List (UInt8 × Block Bytes)}
    {s s' s'' : EncryptingServerStorage σ} (h : Grows blockValueLen n blocks s s')
    (h' : Grows blockValueLen n' blocks' s' s'') :
    Grows blockValueLen (n + n') (blocks ++ blocks') s s'' where
  counter := by rw [h'.counter, h.counter, Nat.add_assoc]
  sealed e he := by
    rcases h'.sealed e he with he | ⟨x, hx, he⟩
    · rcases h.sealed e he with he | ⟨x, hx, he⟩
      · exact .inl he
      · exact .inr ⟨x, List.mem_append_left _ hx, he⟩
    · exact .inr ⟨x, List.mem_append_right _ hx, he⟩
  room hn := by
    by_cases h0 : 0 < n'
    · exact h'.room h0
    · rw [h'.counter]
      have := h.room (by omega)
      omega

theorem Grows.counter_lt {n : ℕ} {blocks : List (UInt8 × Block Bytes)}
    {s s' : EncryptingServerStorage σ} (h : Grows blockValueLen n blocks s s')
    (hs : s.nonceCounter < 2 ^ 64) : s.nonceCounter + n < 2 ^ 64 := by
  by_cases h0 : 0 < n
  · exact h.counter ▸ h.room h0
  · omega

theorem Grows.refl (s : EncryptingServerStorage σ) : Grows blockValueLen 0 [] s s where
  counter := rfl
  sealed e he := .inl he
  room h := absurd h (Nat.lt_irrefl 0)

/-- A state that only its inner server tells from the one before. -/
theorem Grows.withInner {n : ℕ} {blocks : List (UInt8 × Block Bytes)}
    {s s' : EncryptingServerStorage σ} (h : Grows blockValueLen n blocks s s') (state state' : σ) :
    Grows blockValueLen n blocks { s with inner := state } { s' with inner := state' } :=
  ⟨h.counter, h.sealed, h.room⟩

theorem sealAll_grows {blocks : List (UInt8 × Block Bytes)} {s s' : EncryptingServerStorage σ}
    {sealed : List (Block Bytes)} (h : sealAll A key blockValueLen blocks s = some (sealed, s')) :
    Grows blockValueLen blocks.length blocks s s' ∧ sealed.length = blocks.length ∧
      ∀ x ∈ blocks, x.2.value.length ≤ blockValueLen := by
  induction blocks generalizing s sealed with
  | nil =>
    simp only [sealAll, Option.some.injEq, Prod.mk.injEq] at h
    obtain ⟨rfl, rfl⟩ := h
    exact ⟨.refl s, rfl, fun x hx => (by cases hx)⟩
  | cons x blocks ih =>
    obtain ⟨tag, b⟩ := x
    simp only [sealAll, nextNonce, sealOramBlock, Option.bind_eq_bind,
      Option.bind_eq_some_iff] at h
    obtain ⟨⟨nonce, s₁⟩, hnonce, ciphertext, hcipher, ⟨rest, s₂⟩, hrec, h⟩ := h
    split_ifs at hnonce hcipher with hcount hlen
    simp only [Option.some.injEq, Prod.mk.injEq] at hnonce h
    obtain ⟨rfl, rfl⟩ := hnonce
    obtain ⟨rfl, rfl⟩ := h
    obtain ⟨hgrows, hlength, hall⟩ := ih hrec
    have hcounter : s₂.nonceCounter = s.nonceCounter + 1 + blocks.length := hgrows.counter
    refine ⟨?_, by simp [hlength], fun x hx => ?_⟩
    · refine ⟨by rw [hcounter, List.length_cons]; omega, fun e he => ?_, fun _ => ?_⟩
      · rcases hgrows.sealed e he with he | ⟨x, hx, he⟩
        · rcases List.mem_append.1 he with he | he
          · exact .inl he
          · obtain rfl := List.mem_singleton.1 he
            exact .inr ⟨_, List.mem_cons_self, rfl⟩
        · exact .inr ⟨x, List.mem_cons_of_mem _ hx, he⟩
      · by_cases h0 : 0 < blocks.length
        · exact hgrows.room h0
        · omega
    · rcases List.mem_cons.1 hx with rfl | hx
      · exact hlen
      · exact hall x hx

/-- Encryption does not fail on messages within the cipher's limit. -/
def AcceptsBounded (A : Aead) (key : Bytes) : Prop :=
  ∀ nonce message, message.length < 64 * (2 ^ 32 - 1) → (A.encrypt key nonce [] message).isSome

theorem isSome_sealAll (hA : AcceptsBounded A key) (hL : blockValueLen < 2 ^ 32)
    {blocks : List (UInt8 × Block Bytes)} {s : EncryptingServerStorage σ}
    (hfits : ∀ x ∈ blocks, x.2.value.length ≤ blockValueLen)
    (hroom : s.nonceCounter + blocks.length < 2 ^ 64) :
    ∃ sealed s', sealAll A key blockValueLen blocks s = some (sealed, s') := by
  induction blocks generalizing s with
  | nil => exact ⟨[], s, rfl⟩
  | cons x blocks ih =>
    obtain ⟨tag, b⟩ := x
    have hcount : s.nonceCounter + 1 < 2 ^ 64 := by
      rw [List.length_cons] at hroom
      omega
    have hb : b.value.length ≤ blockValueLen := hfits _ List.mem_cons_self
    have hbounded : (blockPlaintext tag b blockValueLen).length < 64 * (2 ^ 32 - 1) := by
      rw [length_blockPlaintext tag hb]
      have hheader : oramHeaderLen = 13 := rfl
      omega
    obtain ⟨ciphertext, hcipher⟩ := Option.isSome_iff_exists.1
      (hA (List.replicate 4 0 ++ beBytes 8 s.nonceCounter) _ hbounded)
    obtain ⟨sealed, s', hrec⟩ := @ih
      { s with
        nonceCounter := s.nonceCounter + 1
        sealed := s.sealed ++ [(List.replicate 4 0 ++ beBytes 8 s.nonceCounter,
          blockPlaintext tag b blockValueLen)] }
      (fun x hx => hfits x (List.mem_cons_of_mem _ hx))
      (by rw [List.length_cons] at hroom; simp only; omega)
    have hnonce : nextNonce s = some (List.replicate 4 0 ++ beBytes 8 s.nonceCounter,
        { s with nonceCounter := s.nonceCounter + 1 }) := if_pos hcount
    refine ⟨⟨0, List.replicate 4 0 ++ beBytes 8 s.nonceCounter ++ ciphertext⟩ :: sealed, s', ?_⟩
    simp only [sealAll, hnonce, sealOramBlock, if_pos hb, hcipher, hrec, Option.bind_eq_bind,
      Option.bind_some, Option.map_some]

/-- Blocks sealed in two goes. -/
theorem sealAll_append (xs ys : List (UInt8 × Block Bytes)) (s : EncryptingServerStorage σ) :
    sealAll A key blockValueLen (xs ++ ys) s =
      (sealAll A key blockValueLen xs s).bind fun p =>
        (sealAll A key blockValueLen ys p.2).map fun q => (p.1 ++ q.1, q.2) := by
  induction xs generalizing s with
  | nil => simp [sealAll]
  | cons x xs ih =>
    obtain ⟨tag, b⟩ := x
    simp only [List.cons_append, sealAll, Option.bind_eq_bind, ih, Option.bind_assoc,
      Option.bind_some, Option.map_eq_bind, Function.comp_def]

/-- What a bucket is sealed from. -/
def padded (capacity : ℕ) (blocks : List (Block Bytes)) : List (UInt8 × Block Bytes) :=
  (blocks.map fun b => (oramTagReal, b)) ++
    List.replicate (capacity - blocks.length) (oramTagDummy, ⟨0, []⟩)

theorem length_padded {capacity : ℕ} {blocks : List (Block Bytes)}
    (h : blocks.length ≤ capacity) : (padded capacity blocks).length = capacity := by
  rw [padded, List.length_append, List.length_map, List.length_replicate, Nat.add_sub_of_le h]

theorem fits_padded {capacity : ℕ} {blocks : List (Block Bytes)}
    (hfits : ∀ b ∈ blocks, b.value.length ≤ blockValueLen) :
    ∀ x ∈ padded capacity blocks, x.2.value.length ≤ blockValueLen := by
  intro x hx
  rcases List.mem_append.1 hx with hx | hx
  · obtain ⟨b, hb, rfl⟩ := List.mem_map.1 hx
    exact hfits b hb
  · obtain rfl := List.eq_of_mem_replicate hx
    exact Nat.zero_le _

/-- **A write in one equation**: the inner server gets a full bucket. -/
theorem write_encrypting (storage : ServerStorage σ Bytes) (s : EncryptingServerStorage σ)
    (node : ℕ) (blocks : List (Block Bytes)) :
    (encryptingStorage A key blockValueLen storage).write s node blocks =
      if blocks.length ≤ storage.bucketCapacity then
        (sealAll A key blockValueLen (padded storage.bucketCapacity blocks) s).bind fun p =>
          (storage.write p.2.inner node p.1).map fun innerState =>
            { p.2 with inner := innerState }
      else none := by
  simp only [encryptingStorage, padded, sealAll_append, Option.bind_eq_bind, Option.bind_assoc,
    Option.map_eq_bind, Option.bind_some, Function.comp_def]

theorem write_grows {s s' : EncryptingServerStorage σ} {node : ℕ} {blocks : List (Block Bytes)}
    (h : (encryptingServer inner A key blockValueLen).write s node blocks = some s') :
    Grows blockValueLen inner.bucketCapacity (padded inner.bucketCapacity blocks) s s' ∧
      blocks.length ≤ inner.bucketCapacity := by
  rw [encryptingServer, write_encrypting] at h
  split_ifs at h with hlen
  obtain ⟨⟨sealed, s₁⟩, hsealed, h⟩ := Option.bind_eq_some_iff.1 h
  obtain ⟨innerState, -, rfl⟩ := Option.map_eq_some_iff.1 h
  obtain ⟨hgrows, -, -⟩ := sealAll_grows hsealed
  rw [length_padded hlen] at hgrows
  exact ⟨hgrows.withInner s.inner innerState, hlen⟩

/-- The inner server stores a full bucket. -/
def Stores (inner : VerifiableServerStorage σ Bytes) : Prop :=
  ∀ s node blocks, blocks.length = inner.bucketCapacity → (inner.write s node blocks).isSome

/-- **When a write does not panic.** -/
theorem isSome_write_iff (hA : AcceptsBounded A key) (hinner : Stores inner)
    (hL : blockValueLen < 2 ^ 32) {s : EncryptingServerStorage σ} (hs : s.nonceCounter < 2 ^ 64)
    (node : ℕ) {blocks : List (Block Bytes)}
    (hfits : ∀ b ∈ blocks, b.value.length ≤ blockValueLen) :
    ((encryptingServer inner A key blockValueLen).write s node blocks).isSome = true ↔
      blocks.length ≤ inner.bucketCapacity ∧
        s.nonceCounter + inner.bucketCapacity < 2 ^ 64 := by
  constructor
  · intro h
    obtain ⟨s', hs'⟩ := Option.isSome_iff_exists.1 h
    obtain ⟨hgrows, hlen⟩ := write_grows hs'
    exact ⟨hlen, hgrows.counter_lt hs⟩
  · rintro ⟨hlen, hroom⟩
    obtain ⟨sealed, s₁, hsealed⟩ := isSome_sealAll hA hL (fits_padded hfits)
      (by rw [length_padded hlen]; exact hroom)
    obtain ⟨-, hlength, -⟩ := sealAll_grows hsealed
    obtain ⟨innerState, hwritten⟩ := Option.isSome_iff_exists.1
      (hinner s₁.inner node sealed (hlength.trans (length_padded hlen)))
    rw [encryptingServer, write_encrypting, if_pos hlen, hsealed, Option.bind_some, hwritten]
    rfl

/-- What a list of buckets is sealed from. -/
def paddedAll (capacity : ℕ) (contents : List (ℕ × List (Block Bytes))) :
    List (UInt8 × Block Bytes) :=
  contents.flatMap fun e => padded capacity e.2

theorem putBack_grows {contents : List (ℕ × List (Block Bytes))}
    {s s' : EncryptingServerStorage σ}
    (h : putBack (encryptingServer inner A key blockValueLen) contents s = some s') :
    Grows blockValueLen (contents.length * inner.bucketCapacity)
      (paddedAll inner.bucketCapacity contents) s s' ∧
      ∀ e ∈ contents, e.2.length ≤ inner.bucketCapacity := by
  induction contents generalizing s with
  | nil =>
    obtain rfl := Option.some.inj h
    rw [List.length_nil, Nat.zero_mul]
    exact ⟨.refl s, fun e he => (by cases he)⟩
  | cons e contents ih =>
    obtain ⟨node, blocks⟩ := e
    simp only [putBack, Option.bind_eq_bind, Option.bind_eq_some_iff] at h
    obtain ⟨s₁, hwrite, h⟩ := h
    obtain ⟨hgrows, hlen⟩ := write_grows hwrite
    obtain ⟨hgrows', hall⟩ := ih h
    have hboth := hgrows.trans hgrows'
    rw [List.length_cons, Nat.succ_mul, Nat.add_comm]
    refine ⟨hboth, fun e he => ?_⟩
    rcases List.mem_cons.1 he with rfl | he
    · exact hlen
    · exact hall e he

theorem isSome_putBack (hA : AcceptsBounded A key) (hinner : Stores inner)
    (hL : blockValueLen < 2 ^ 32) {contents : List (ℕ × List (Block Bytes))}
    {s : EncryptingServerStorage σ} (hs : s.nonceCounter < 2 ^ 64)
    (hfits : ∀ e ∈ contents, ∀ b ∈ e.2, b.value.length ≤ blockValueLen)
    (hlen : ∀ e ∈ contents, e.2.length ≤ inner.bucketCapacity)
    (hroom : s.nonceCounter + contents.length * inner.bucketCapacity < 2 ^ 64) :
    ∃ s', putBack (encryptingServer inner A key blockValueLen) contents s = some s' := by
  induction contents generalizing s with
  | nil => exact ⟨s, rfl⟩
  | cons e contents ih =>
    obtain ⟨node, blocks⟩ := e
    rw [List.length_cons, Nat.succ_mul] at hroom
    obtain ⟨s₁, hwrite⟩ := Option.isSome_iff_exists.1
      ((isSome_write_iff hA hinner hL hs node (hfits _ List.mem_cons_self)).2
        ⟨hlen _ List.mem_cons_self, by omega⟩)
    have hcounter := (write_grows hwrite).1.counter
    obtain ⟨s', hrest⟩ := ih (s := s₁) (by omega) (fun e he => hfits e (List.mem_cons_of_mem _ he))
      (fun e he => hlen e (List.mem_cons_of_mem _ he)) (by omega)
    exact ⟨s', by simp [putBack, hwrite, hrest]⟩

theorem writeBack_grows {newCombinedHashes : List (ℕ × Digest)}
    {chosenPerNode : List (ℕ × List (Block Bytes))} {s s' : EncryptingServerStorage σ}
    (h : writeBack (encryptingServer inner A key blockValueLen) newCombinedHashes chosenPerNode s =
      some s') :
    Grows blockValueLen (chosenPerNode.length * inner.bucketCapacity)
      (paddedAll inner.bucketCapacity chosenPerNode) s s' := by
  induction chosenPerNode generalizing s with
  | nil =>
    obtain rfl := Option.some.inj h
    rw [List.length_nil, Nat.zero_mul]
    exact .refl s
  | cons e chosenPerNode ih =>
    obtain ⟨node, chosen⟩ := e
    simp only [writeBack, Option.bind_eq_bind, Option.bind_eq_some_iff] at h
    obtain ⟨hash, -, s₁, hwrite, h⟩ := h
    have hboth := ((write_grows hwrite).1.withInner s.inner _).trans (ih h)
    rw [List.length_cons, Nat.succ_mul, Nat.add_comm]
    exact hboth

theorem isSome_writeBack (hA : AcceptsBounded A key) (hinner : Stores inner)
    (hL : blockValueLen < 2 ^ 32) {newCombinedHashes : List (ℕ × Digest)}
    {chosenPerNode : List (ℕ × List (Block Bytes))} {s : EncryptingServerStorage σ}
    (hs : s.nonceCounter < 2 ^ 64)
    (hhashes : ∀ e ∈ chosenPerNode, (newCombinedHashes.lookup e.1).isSome = true)
    (hfits : ∀ e ∈ chosenPerNode, ∀ b ∈ e.2, b.value.length ≤ blockValueLen)
    (hlen : ∀ e ∈ chosenPerNode, e.2.length ≤ inner.bucketCapacity)
    (hroom : s.nonceCounter + chosenPerNode.length * inner.bucketCapacity < 2 ^ 64) :
    ∃ s', writeBack (encryptingServer inner A key blockValueLen) newCombinedHashes chosenPerNode s =
      some s' := by
  induction chosenPerNode generalizing s with
  | nil => exact ⟨s, rfl⟩
  | cons e chosenPerNode ih =>
    obtain ⟨node, chosen⟩ := e
    rw [List.length_cons, Nat.succ_mul] at hroom
    obtain ⟨hash, hhash⟩ := Option.isSome_iff_exists.1 (hhashes _ List.mem_cons_self)
    obtain ⟨s₁, hwrite⟩ := Option.isSome_iff_exists.1
      ((isSome_write_iff hA hinner hL hs node (hfits _ List.mem_cons_self)).2
        ⟨hlen _ List.mem_cons_self, by omega⟩)
    have hcounter : ((encryptingServer inner A key blockValueLen).setNodeHash s₁ node
        hash).nonceCounter = s.nonceCounter + inner.bucketCapacity :=
      (write_grows hwrite).1.counter
    obtain ⟨s', hrest⟩ := ih (s := (encryptingServer inner A key blockValueLen).setNodeHash s₁ node
      hash) (by omega) (fun e he => hhashes e (List.mem_cons_of_mem _ he))
      (fun e he => hfits e (List.mem_cons_of_mem _ he))
      (fun e he => hlen e (List.mem_cons_of_mem _ he)) (by omega)
    exact ⟨s', by simp [writeBack, hhash, hwrite, hrest]⟩

/-! ### What a read returns -/

/-- The blocks of a sealed bucket that open. -/
def openAll (A : Aead) (key : Bytes) (bucket : List (Block Bytes)) : List (Block Bytes) :=
  bucket.filterMap fun sealed => openOramBlock A key sealed.value

theorem readContents_encrypting (path : List ℕ) (s : EncryptingServerStorage σ) :
    readContents (encryptingServer inner A key blockValueLen) path s =
      ((readContents inner path s.inner).1.map fun e => (e.1, openAll A key e.2),
        { s with inner := (readContents inner path s.inner).2 }) := by
  induction path generalizing s with
  | nil => rfl
  | cons node path ih =>
    simp only [readContents]
    rw [ih]
    rfl

theorem siblingAnswers_encrypting (prev : ℕ) (path : List ℕ) (s : EncryptingServerStorage σ) :
    siblingAnswers (encryptingServer inner A key blockValueLen) prev path s =
      ((siblingAnswers inner prev path s.inner).1,
        { s with inner := (siblingAnswers inner prev path s.inner).2 }) := by
  induction path generalizing prev s with
  | nil => rfl
  | cons node path ih =>
    simp only [siblingAnswers]
    rw [ih]
    rfl

end Sealing

/-! ### The client -/

section Encrypted

variable {σ : Type} (inner : VerifiableServerStorage σ Bytes) (A : Aead) (key : Bytes)
  (blockValueLen : ℕ) (H : Hashing Bytes)

/-- A block of an id that has a position, with a value that fits. -/
def Known (positionMap : BlockId → Option ℕ) (blockValueLen : ℕ) (b : Block Bytes) : Prop :=
  (positionMap b.id).isSome = true ∧ b.value.length ≤ blockValueLen

/-- **Every block there is or ever was sealed has a position and a value that fits.** -/
structure Sound (c : Client (EncryptingServerStorage σ) Bytes) : Prop where
  stash : ∀ b ∈ c.stash, Known c.positionMap blockValueLen b
  sealed : ∀ e ∈ c.server.sealed, ∀ b, parseBlock e.2 = some b →
    Known c.positionMap blockValueLen b
  leaf_lt : ∀ id leaf, c.positionMap id = some leaf → leaf < numLeaves c.depth
  counter : c.server.nonceCounter < 2 ^ 64

/-- No bucket on a path holds a ciphertext that opens and was not sealed. -/
def Unforged (s : EncryptingServerStorage σ) (path : List ℕ) : Prop :=
  ∀ e ∈ (readContents inner path s.inner).1, ∀ sealed ∈ e.2, ∀ plaintext ∈
    A.decrypt key (sealed.value.take oramNonceLen) [] (sealed.value.drop oramNonceLen),
    (sealed.value.take oramNonceLen, plaintext) ∈ s.sealed

instance (s : EncryptingServerStorage σ) (path : List ℕ) :
    Decidable (Unforged inner A key s path) :=
  inferInstanceAs (Decidable (∀ e ∈ (readContents inner path s.inner).1, ∀ sealed ∈ e.2,
    ∀ plaintext ∈
      A.decrypt key (sealed.value.take oramNonceLen) [] (sealed.value.drop oramNonceLen),
      (sealed.value.take oramNonceLen, plaintext) ∈ s.sealed))

/-- The blocks an access reads. -/
def opened (c : Client (EncryptingServerStorage σ) Bytes) (leaf : ℕ) :
    List (ℕ × List (Block Bytes)) :=
  (readContents inner (pathNodes c.depth leaf) c.server.inner).1.map fun e =>
    (e.1, openAll A key e.2)

/-- The server's answers for the siblings. -/
def siblingsRead (c : Client (EncryptingServerStorage σ) Bytes) (leaf : ℕ) : List Digest × σ :=
  pathAnswers inner c.depth leaf
    (readContents inner (pathNodes c.depth leaf) c.server.inner).2

/-- The check of an access passes. -/
def ChecksOut (c : Client (EncryptingServerStorage σ) Bytes) (leaf : ℕ) : Prop :=
  pathRoot H (fun node => hashBucket H (blocksAt (opened inner A key c leaf) node)) c.depth leaf
    (siblingsRead inner c leaf).1 = c.root

variable {inner A key blockValueLen}

theorem Known.update {positionMap : BlockId → Option ℕ} {b : Block Bytes}
    (h : Known positionMap blockValueLen b) (id : BlockId) (leaf : ℕ) :
    Known (Function.update positionMap id (some leaf)) blockValueLen b := by
  refine ⟨?_, h.2⟩
  by_cases hb : b.id = id
  · simp [hb]
  · rw [Function.update_of_ne hb]
    exact h.1

/-- What opens was sealed. -/
theorem Sound.known_opened {c : Client (EncryptingServerStorage σ) Bytes}
    (h : Sound blockValueLen c) {leaf : ℕ}
    (hunforged : Unforged inner A key c.server (pathNodes c.depth leaf)) :
    ∀ e ∈ opened inner A key c leaf, ∀ b ∈ e.2, Known c.positionMap blockValueLen b := by
  intro e he b hb
  obtain ⟨e', he', rfl⟩ := List.mem_map.1 he
  obtain ⟨sealed, hsealed, hopen⟩ := List.mem_filterMap.1 hb
  rw [openOramBlock] at hopen
  split_ifs at hopen
  obtain ⟨plaintext, hplain, hparse⟩ := Option.bind_eq_some_iff.1 hopen
  exact h.sealed _ (hunforged e' he' sealed hsealed plaintext hplain) b hparse

/-- What is sealed is known afterwards, if it was before. -/
theorem Grows.known (hL : blockValueLen < 2 ^ 32) {positionMap : BlockId → Option ℕ}
    {capacity n : ℕ} {contents : List (ℕ × List (Block Bytes))}
    {s s' : EncryptingServerStorage σ} (h : Grows blockValueLen n (paddedAll capacity contents) s s')
    (hold : ∀ e ∈ s.sealed, ∀ b, parseBlock e.2 = some b → Known positionMap blockValueLen b)
    (hcontents : ∀ e ∈ contents, ∀ b ∈ e.2, Known positionMap blockValueLen b) :
    ∀ e ∈ s'.sealed, ∀ b, parseBlock e.2 = some b → Known positionMap blockValueLen b := by
  intro e he b hparse
  rcases h.sealed e he with he | ⟨x, hx, heq⟩
  · exact hold e he b hparse
  rw [heq] at hparse
  obtain ⟨e', he', hx⟩ := List.mem_flatMap.1 hx
  rcases List.mem_append.1 hx with hx | hx
  · obtain ⟨b', hb', rfl⟩ := List.mem_map.1 hx
    have hknown := hcontents e' he' b' hb'
    rw [parseBlock_eq hL hknown.2, if_pos rfl] at hparse
    exact Option.some.inj hparse ▸ hknown
  · obtain rfl := List.eq_of_mem_replicate hx
    rw [parseBlock_eq hL (Nat.zero_le _), if_neg (by decide)] at hparse
    cases hparse

/-- The blocks of an updated stash. -/
theorem mem_of_mem_update {V : Type} {id : BlockId} {newValue : Option V} {stash : List (Block V)}
    {b : Block V} (h : b ∈ update id newValue stash) :
    b ∈ stash ∨ b.id = id ∧ newValue = some b.value := by
  cases newValue with
  | none => exact .inl (by rwa [update_none] at h)
  | some v =>
    induction stash with
    | nil =>
      obtain rfl : b = ⟨id, v⟩ := by simpa [update] using h
      exact .inr ⟨rfl, rfl⟩
    | cons x stash ih =>
      rw [update_some_cons] at h
      split_ifs at h
      · rcases List.mem_cons.1 h with rfl | h
        · exact .inr ⟨rfl, rfl⟩
        · exact .inl (List.mem_cons_of_mem _ h)
      · rcases List.mem_cons.1 h with rfl | h
        · exact .inl List.mem_cons_self
        · exact (ih h).imp (List.mem_cons_of_mem _) fun h => h

theorem length_pathNodes {depth leaf : ℕ} (hleaf : leaf < numLeaves depth) :
    (pathNodes depth leaf).length = depth + 1 := by
  rw [pathNodes_eq, List.length_cons, length_upperPath hleaf]

/-- An access over the encrypting server, in terms of the inner one. -/
theorem verifiedAccessAt_encrypting (c : Client (EncryptingServerStorage σ) Bytes) (id : BlockId)
    (newValue : Option Bytes) {oldLeaf : ℕ} (newLeaf : ℕ) (hlt : oldLeaf < numLeaves c.depth) :
    (¬ ChecksOut inner A key H c oldLeaf →
      verifiedAccessAt (encryptingServer inner A key blockValueLen) H c id newValue oldLeaf
        newLeaf = (putBack (encryptingServer inner A key blockValueLen)
          (opened inner A key c oldLeaf)
          { c.server with inner := (siblingsRead inner c oldLeaf).2 }).map fun server =>
            ({ c with
                positionMap := Function.update c.positionMap id (some newLeaf)
                server := server }, .error .integrityError)) ∧
    (ChecksOut inner A key H c oldLeaf →
      verifiedAccessAt (encryptingServer inner A key blockValueLen) H c id newValue oldLeaf
        newLeaf = updateAndEvict (encryptingServer inner A key blockValueLen) H
          { c with
            positionMap := Function.update c.positionMap id (some newLeaf)
            server := { c.server with inner := (siblingsRead inner c oldLeaf).2 } }
          id newValue (pathNodes c.depth oldLeaf) (opened inner A key c oldLeaf)) := by
  have h := verifiedAccessAt_eq (encryptingServer inner A key blockValueLen) H c id newValue newLeaf
    hlt
  rw [readContents_encrypting] at h
  simp only [pathAnswers, siblingAnswers_encrypting] at h
  constructor
  · intro hcheck
    exact h.trans (if_pos hcheck)
  · intro hcheck
    exact h.trans (if_neg (not_not.2 hcheck))

/-- The second half of an access over the encrypting server, in terms of the inner one. -/
theorem updateAndEvict_encrypting (c : Client (EncryptingServerStorage σ) Bytes) (id : BlockId)
    (newValue : Option Bytes) {leaf : ℕ} (hleaf : leaf < numLeaves c.depth)
    (contents : List (ℕ × List (Block Bytes))) :
    updateAndEvict (encryptingServer inner A key blockValueLen) H c id newValue
        (pathNodes c.depth leaf) contents = (do
      let (chosenPerNode, stash) ← evictChoose c.depth c.positionMap inner.bucketCapacity
        (pathNodes c.depth leaf) (update id newValue (c.stash ++ contents.flatMap Prod.snd))
      let answers := pathAnswers inner c.depth leaf c.server.inner
      let bucketHash := fun node => hashBucket H (blocksAt chosenPerNode node)
      let server ← writeBack (encryptingServer inner A key blockValueLen)
        (pathHashes H bucketHash c.depth leaf answers.1) chosenPerNode
        { c.server with inner := answers.2 }
      some ({ c with
          stash := stash, root := pathRoot H bucketHash c.depth leaf answers.1, server := server },
        .ok (lookup id (c.stash ++ contents.flatMap Prod.snd)))) := by
  rw [updateAndEvict_eq (encryptingServer inner A key blockValueLen) H c id newValue hleaf contents]
  simp only [pathAnswers, siblingAnswers_encrypting]
  rfl

/-- A new position and whatever the inner server did keep the client sound. -/
theorem Sound.remap {c : Client (EncryptingServerStorage σ) Bytes} (h : Sound blockValueLen c)
    (id : BlockId) {leaf : ℕ} (hleaf : leaf < numLeaves c.depth) (state : σ) :
    Sound blockValueLen { c with
      positionMap := Function.update c.positionMap id (some leaf)
      server := { c.server with inner := state } } where
  stash b hb := (h.stash b hb).update id leaf
  sealed e he b hb := (h.sealed e he b hb).update id leaf
  leaf_lt i l hi := by
    by_cases he : i = id
    · simp only [he, Function.update_self, Option.some.injEq] at hi
      exact hi ▸ hleaf
    · simp only [Function.update_of_ne he] at hi
      exact h.leaf_lt i l hi
  counter := h.counter

/-- The second half of an access: it panics only when the nonces are used up. -/
theorem Sound.updateAndEvict (hA : AcceptsBounded A key) (hinner : Stores inner)
    (hL : blockValueLen < 2 ^ 32) {c : Client (EncryptingServerStorage σ) Bytes}
    (h : Sound blockValueLen c) {id : BlockId} {newValue : Option Bytes}
    (hid : (c.positionMap id).isSome = true)
    (hvalue : ∀ v, newValue = some v → v.length ≤ blockValueLen) {leaf : ℕ}
    (hlt : leaf < numLeaves c.depth) {contents : List (ℕ × List (Block Bytes))}
    (hknown : ∀ e ∈ contents, ∀ b ∈ e.2, Known c.positionMap blockValueLen b) :
    ((Oram.updateAndEvict (encryptingServer inner A key blockValueLen) H c id newValue
        (pathNodes c.depth leaf) contents).isSome = true ↔
      c.server.nonceCounter + (c.depth + 1) * inner.bucketCapacity < 2 ^ 64) ∧
    ∀ c' answer, Oram.updateAndEvict (encryptingServer inner A key blockValueLen) H c id newValue
        (pathNodes c.depth leaf) contents = some (c', answer) →
      Sound blockValueLen c' ∧ c'.depth = c.depth := by
  have hstash : ∀ b ∈ update id newValue (c.stash ++ contents.flatMap Prod.snd),
      Known c.positionMap blockValueLen b := by
    intro b hb
    rcases mem_of_mem_update hb with hb | ⟨he, hv⟩
    · rcases List.mem_append.1 hb with hb | hb
      · exact h.stash b hb
      · obtain ⟨e, he, hb⟩ := List.mem_flatMap.1 hb
        exact hknown e he b hb
    · exact ⟨he ▸ hid, hvalue _ hv⟩
  obtain ⟨chosenPerNode, rest, hev⟩ := @evictChoose_isSome Bytes c.depth inner.bucketCapacity _
    (pathNodes c.depth leaf) _ fun b hb => (hstash b hb).1
  obtain ⟨hkeys, hperm, hall⟩ := evictChoose_eq_some hev
  have hchosen : ∀ e ∈ chosenPerNode, ∀ b ∈ e.2, Known c.positionMap blockValueLen b :=
    fun e he b hb => hstash b (hperm.subset (List.mem_append_left _
      (List.mem_flatMap.2 ⟨e, he, hb⟩)))
  have hlength : chosenPerNode.length = c.depth + 1 := by
    rw [← length_pathNodes hlt, ← hkeys, List.length_map]
  -- every node of the path has a new hash
  have hhashes : ∀ e ∈ chosenPerNode, ((pathHashes H
      (fun node => hashBucket H (blocksAt chosenPerNode node)) c.depth leaf
      (pathAnswers inner c.depth leaf c.server.inner).1).lookup e.1).isSome = true := by
    intro e he
    have hmem : e.1 ∈ pathNodes c.depth leaf := hkeys ▸ List.mem_map_of_mem he
    rw [← keys_pathHashes H (fun node => hashBucket H (blocksAt chosenPerNode node))
      (length_siblingAnswers inner _ _ c.server.inner)] at hmem
    obtain ⟨p, hp, hpe⟩ := List.mem_map.1 hmem
    exact List.lookup_isSome_iff.2 ⟨p, hp, by simp [hpe]⟩
  rw [updateAndEvict_encrypting H c id newValue hlt contents, hev, Option.bind_eq_bind,
    Option.bind_some]
  refine ⟨⟨fun hsome => ?_, fun hroom => ?_⟩, fun c' answer hok => ?_⟩
  · obtain ⟨r, hr⟩ := Option.isSome_iff_exists.1 hsome
    obtain ⟨s', hs', -⟩ := Option.bind_eq_some_iff.1 hr
    have hroom := (writeBack_grows hs').counter_lt h.counter
    rwa [hlength] at hroom
  · obtain ⟨s', hs'⟩ := isSome_writeBack hA hinner hL
      (s := { c.server with inner := (pathAnswers inner c.depth leaf c.server.inner).2 })
      h.counter hhashes (fun e he b hb => (hchosen e he b hb).2) (fun e he => (hall e he).1)
      (by rw [hlength]; exact hroom)
    simp only [hs', Option.bind_eq_bind, Option.bind_some, Option.isSome_some]
  · obtain ⟨s', hs', heq⟩ := Option.bind_eq_some_iff.1 hok
    obtain ⟨rfl, -⟩ := Prod.mk.inj (Option.some.inj heq)
    have hgrows := writeBack_grows hs'
    refine ⟨⟨fun b hb => hstash b (hperm.subset (List.mem_append_right _ hb)),
      hgrows.known hL h.sealed hchosen, h.leaf_lt, ?_⟩, rfl⟩
    exact hgrows.counter.trans_lt (hgrows.counter_lt h.counter)

/-- **One access over a hostile server**: when it panics, and that what comes after is sound. -/
theorem Sound.accessAt (hA : AcceptsBounded A key) (hinner : Stores inner)
    (hL : blockValueLen < 2 ^ 32) {c : Client (EncryptingServerStorage σ) Bytes}
    (h : Sound blockValueLen c) {id : BlockId} {newValue : Option Bytes}
    (hvalue : ∀ v, newValue = some v → v.length ≤ blockValueLen) {oldLeaf newLeaf : ℕ}
    (hlt : oldLeaf < numLeaves c.depth) (hnew : newLeaf < numLeaves c.depth)
    (hunforged : Unforged inner A key c.server (pathNodes c.depth oldLeaf)) :
    ((verifiedAccessAt (encryptingServer inner A key blockValueLen) H c id newValue oldLeaf
        newLeaf).isSome = true ↔
      ((∀ e ∈ opened inner A key c oldLeaf, e.2.length ≤ inner.bucketCapacity) ∨
        ChecksOut inner A key H c oldLeaf) ∧
      c.server.nonceCounter + (c.depth + 1) * inner.bucketCapacity < 2 ^ 64) ∧
    ∀ c' answer, verifiedAccessAt (encryptingServer inner A key blockValueLen) H c id newValue
        oldLeaf newLeaf = some (c', answer) → Sound blockValueLen c' ∧ c'.depth = c.depth := by
  obtain ⟨hfail, hpass⟩ := @verifiedAccessAt_encrypting σ inner A key blockValueLen H c id newValue
    oldLeaf newLeaf hlt
  have hremap := h.remap id hnew (siblingsRead inner c oldLeaf).2
  have hknown : ∀ e ∈ opened inner A key c oldLeaf, ∀ b ∈ e.2,
      Known (Function.update c.positionMap id (some newLeaf)) blockValueLen b :=
    fun e he b hb => (h.known_opened hunforged e he b hb).update id newLeaf
  by_cases hcheck : ChecksOut inner A key H c oldLeaf
  · have hid : (Function.update c.positionMap id (some newLeaf) id).isSome = true := by simp
    obtain ⟨hiff, hsound⟩ := hremap.updateAndEvict H hA hinner hL hid hvalue hlt hknown
    rw [hpass hcheck]
    exact ⟨hiff.trans (and_iff_right (.inr hcheck)).symm, hsound⟩
  · have hlength : (opened inner A key c oldLeaf).length = c.depth + 1 := by
      rw [opened, List.length_map, ← length_pathNodes hlt, ← List.length_map Prod.fst,
        keys_readContents]
    rw [hfail hcheck]
    refine ⟨⟨fun hsome => ?_, fun ⟨hlen, hroom⟩ => ?_⟩, fun c' answer hok => ?_⟩
    · obtain ⟨s', hs'⟩ := Option.isSome_iff_exists.1 (by simpa using hsome)
      obtain ⟨hgrows, hlen⟩ := putBack_grows hs'
      have hroom := hgrows.counter_lt h.counter
      rw [hlength] at hroom
      exact ⟨.inl hlen, hroom⟩
    · obtain ⟨s', hs'⟩ := isSome_putBack hA hinner hL
        (s := { c.server with inner := (siblingsRead inner c oldLeaf).2 }) h.counter
        (fun e he b hb => (hknown e he b hb).2) (hlen.resolve_right hcheck)
        (by rw [hlength]; exact hroom)
      rw [hs']
      rfl
    · obtain ⟨s', hs', heq⟩ := Option.map_eq_some_iff.1 hok
      obtain ⟨rfl, -⟩ := Prod.mk.inj heq
      obtain ⟨hgrows, -⟩ := putBack_grows hs'
      refine ⟨⟨hremap.stash, hgrows.known hL hremap.sealed hknown, hremap.leaf_lt, ?_⟩, rfl⟩
      exact hgrows.counter.trans_lt (hgrows.counter_lt h.counter)

/-! ### Runs -/

/-- What `init_empty_root` leaves alone. -/
theorem Sound.initEmptyRoot {c : Client (EncryptingServerStorage σ) Bytes}
    (h : Sound blockValueLen c) :
    Sound blockValueLen
      (Oram.initEmptyRoot (encryptingServer inner A key blockValueLen) H c) := by
  have hkeeps : ∀ (f : EncryptingServerStorage σ → ℕ → EncryptingServerStorage σ),
      (∀ s node, (f s node).nonceCounter = s.nonceCounter ∧ (f s node).sealed = s.sealed) →
      ∀ (l : List ℕ) s, (l.foldl f s).nonceCounter = s.nonceCounter ∧
        (l.foldl f s).sealed = s.sealed := by
    intro f hf l
    induction l with
    | nil => exact fun s => ⟨rfl, rfl⟩
    | cons node l ih =>
      intro s
      rw [List.foldl_cons, (ih _).1, (ih _).2]
      exact hf s node
  let hash := hashBucket H ([] : List (Block Bytes))
  have hleaves := hkeeps (fun s node => (encryptingServer inner A key blockValueLen).setNodeHash s
    node (hashNode H hash emptyChild emptyChild)) (fun s node => ⟨rfl, rfl⟩)
    (List.range' (numLeaves c.depth) (numLeaves c.depth)) c.server
  have hinner := hkeeps (fun s node =>
    let (left, s) := (encryptingServer inner A key blockValueLen).nodeHash s (2 * node)
    let (right, s) := (encryptingServer inner A key blockValueLen).nodeHash s (2 * node + 1)
    (encryptingServer inner A key blockValueLen).setNodeHash s node (hashNode H hash left right))
    (fun s node => ⟨rfl, rfl⟩) (List.range' 1 (numLeaves c.depth - 1)).reverse
  exact ⟨h.stash, fun e he => h.sealed e (by rw [← hleaves.2, ← (hinner _).2]; exact he), h.leaf_lt,
    (Eq.trans (hinner _).1 hleaves.1).trans_lt h.counter⟩

variable (inner A key blockValueLen)

/-- The clients of all runs over the encrypting server, whatever the inner one answers, as long as
it forges no ciphertext. -/
inductive EncryptedReached (depth : ℕ) : Client (EncryptingServerStorage σ) Bytes → Prop
  | fresh (state : σ) : EncryptedReached depth
      (initEmptyRoot (encryptingServer inner A key blockValueLen) H
        (Client.withServer depth ⟨state, 0, []⟩))
  | access {c c' : Client (EncryptingServerStorage σ) Bytes} {id : BlockId}
      {newValue : Option Bytes} {tape rest : List ℕ}
      {answer : Except IntegrityError (Option Bytes)} (h : EncryptedReached depth c)
      (htape : ∀ leaf ∈ tape, leaf < numLeaves depth)
      (hvalue : ∀ v, newValue = some v → v.length ≤ blockValueLen)
      (hunforged : Unforged inner A key c.server (pathNodes depth (drawLeaves c id tape).1))
      (hok : verifiedAccess (encryptingServer inner A key blockValueLen) H c id newValue tape =
        some (c', answer, rest)) :
      EncryptedReached depth c'

variable {inner A key blockValueLen}

theorem EncryptedReached.sound (hA : AcceptsBounded A key) (hinner : Stores inner)
    (hL : blockValueLen < 2 ^ 32) {depth : ℕ} {c : Client (EncryptingServerStorage σ) Bytes}
    (h : EncryptedReached inner A key blockValueLen H depth c) :
    Sound blockValueLen c ∧ c.depth = depth := by
  induction h with
  | fresh state =>
    refine ⟨Sound.initEmptyRoot H ⟨fun b hb => ?_, fun e he => ?_, fun id leaf hl => ?_, ?_⟩, rfl⟩
    · cases hb
    · cases he
    · cases hl
    · exact Nat.two_pow_pos 64
  | @access c c' id newValue tape rest answer _ htape hvalue hunforged hok ih =>
    obtain ⟨hs, rfl⟩ := ih
    obtain ⟨hlt, hnew⟩ := drawLeaves_lt (hs.leaf_lt id) htape
    simp only [verifiedAccess, Option.bind_eq_bind, Option.bind_eq_some_iff] at hok
    obtain ⟨⟨c₁, answer₁⟩, haccess, hok⟩ := hok
    obtain ⟨rfl, -⟩ := Prod.mk.inj (Option.some.inj hok)
    exact (hs.accessAt H hA hinner hL hvalue hlt hnew hunforged).2 _ _ haccess

/-- **When an access panics**: a reached client's verified access over a hostile inner server
returns exactly if every bucket it reads holds at most as many blocks as it may or the check
passes, and there are nonces left for a path of buckets. -/
theorem isSome_verifiedAccess_iff (hA : AcceptsBounded A key) (hinner : Stores inner)
    (hL : blockValueLen < 2 ^ 32) {depth : ℕ} {c : Client (EncryptingServerStorage σ) Bytes}
    (h : EncryptedReached inner A key blockValueLen H depth c) {id : BlockId}
    {newValue : Option Bytes} {tape : List ℕ} (htape : ∀ leaf ∈ tape, leaf < numLeaves depth)
    (hvalue : ∀ v, newValue = some v → v.length ≤ blockValueLen)
    (hunforged : Unforged inner A key c.server (pathNodes depth (drawLeaves c id tape).1)) :
    (verifiedAccess (encryptingServer inner A key blockValueLen) H c id newValue tape).isSome =
        true ↔
      ((∀ e ∈ opened inner A key c (drawLeaves c id tape).1,
          e.2.length ≤ inner.bucketCapacity) ∨
        ChecksOut inner A key H c (drawLeaves c id tape).1) ∧
      c.server.nonceCounter + (depth + 1) * inner.bucketCapacity < 2 ^ 64 := by
  obtain ⟨hs, rfl⟩ := h.sound H hA hinner hL
  obtain ⟨hlt, hnew⟩ := drawLeaves_lt (hs.leaf_lt id) htape
  rw [← (hs.accessAt H hA hinner hL hvalue hlt hnew hunforged).1]
  simp only [verifiedAccess, Option.bind_eq_bind]
  cases verifiedAccessAt (encryptingServer inner A key blockValueLen) H c id newValue
    (drawLeaves c id tape).1 (drawLeaves c id tape).2.1 <;> rfl

end Encrypted

/-! ### A replayed block -/

/-- A cipher that only appends a tag. -/
def taggingAead : Aead where
  encrypt _ _ _ message := some (message ++ [0x5a])
  decrypt _ _ _ ciphertext :=
    if ciphertext.getLast? = some 0x5a then some ciphertext.dropLast else none

/-- A server of one bucket with room for one block, which returns every block twice. -/
def replaying : VerifiableServerStorage (List (Block Bytes) × Digest) Bytes where
  readAndClear s _ := (s.1 ++ s.1, s)
  write s _ blocks := some (blocks, s.2)
  bucketCapacity := 1
  nodeHash s _ := (s.2, s)
  setNodeHash s _ hash := (s.1, hash)

/-- A hashing of byte strings for small runs. -/
def byteSum : Hashing Bytes where
  sha256 := sumDigest
  asRef := id

/-- One block is written and read again while the server returns it twice. -/
theorem exists_replayed : ∃ c, EncryptedReached replaying taggingAead [] 4 byteSum 0 c ∧
    Unforged replaying taggingAead [] c.server (pathNodes 0 (drawLeaves c 7 [0]).1) ∧
    verifiedAccess (encryptingServer replaying taggingAead [] 4) byteSum c 7 none [0] = none := by
  have hrun : (verifiedAccess (encryptingServer replaying taggingAead [] 4) byteSum
      (initEmptyRoot (encryptingServer replaying taggingAead [] 4) byteSum
        (Client.withServer 0 ⟨([], emptyChild), 0, []⟩)) 7 (some [1]) [0, 0]).map (fun r =>
        (decide (Unforged replaying taggingAead [] r.1.server
            (pathNodes 0 (drawLeaves r.1 7 [0]).1)),
          (verifiedAccess (encryptingServer replaying taggingAead [] 4) byteSum r.1 7 none
            [0]).isNone)) = some (true, true) := by
    decide +kernel
  obtain ⟨⟨c, answer, rest⟩, hok, hread⟩ := Option.map_eq_some_iff.1 hrun
  obtain ⟨hunforged, hpanic⟩ := Prod.mk.inj hread
  refine ⟨c, (EncryptedReached.fresh _).access (by decide) (fun v hv => ?_) (by decide +kernel) hok,
    of_decide_eq_true hunforged, Option.isNone_iff_eq_none.1 hpanic⟩
  obtain rfl := Option.some.inj hv
  decide

theorem acceptsBounded_taggingAead (key : Bytes) : AcceptsBounded taggingAead key :=
  fun _ _ _ => rfl

theorem stores_replaying : Stores replaying := fun _ _ _ _ => rfl

/-- The read that is answered twice; and the write before it, which returns. -/
theorem isSome_verifiedAccess_iff_replayed :
    (∃ c, EncryptedReached replaying taggingAead [] 4 byteSum 0 c ∧
      ((verifiedAccess (encryptingServer replaying taggingAead [] 4) byteSum c 7 none
          [0]).isSome = true ↔
        ((∀ e ∈ opened replaying taggingAead [] c (drawLeaves c 7 [0]).1, e.2.length ≤ 1) ∨
          ChecksOut replaying taggingAead [] byteSum c (drawLeaves c 7 [0]).1) ∧
        c.server.nonceCounter + (0 + 1) * 1 < 2 ^ 64)) ∧
    ∃ c, EncryptedReached replaying taggingAead [] 4 byteSum 0 c ∧
      (verifiedAccess (encryptingServer replaying taggingAead [] 4) byteSum c 7 (some [1])
        [0, 0]).isSome = true := by
  constructor
  · obtain ⟨c, hreached, hunforged, -⟩ := exists_replayed
    exact ⟨c, hreached, isSome_verifiedAccess_iff byteSum (acceptsBounded_taggingAead [])
      stores_replaying (by decide) hreached (by decide) (fun v hv => (by cases hv)) hunforged⟩
  · have hreached : EncryptedReached replaying taggingAead [] 4 byteSum 0 _ :=
      .fresh ([], emptyChild)
    refine ⟨_, hreached, (isSome_verifiedAccess_iff byteSum (acceptsBounded_taggingAead [])
      stores_replaying (by decide) hreached (by decide) (fun v hv => ?_) (by decide +kernel)).2
      ⟨.inl (by decide +kernel), by decide +kernel⟩⟩
    obtain rfl := Option.some.inj hv
    decide

/-- The put-back of two blocks into a bucket for one panics. -/
theorem not_isSome_verifiedAccess_replayed :
    ¬ ∀ (c : Client (EncryptingServerStorage (List (Block Bytes) × Digest)) Bytes) (id : BlockId)
      (newValue : Option Bytes) (tape : List ℕ),
      EncryptedReached replaying taggingAead [] 4 byteSum 0 c →
      (∀ leaf ∈ tape, leaf < numLeaves 0) → (∀ v, newValue = some v → v.length ≤ 4) →
      Unforged replaying taggingAead [] c.server (pathNodes 0 (drawLeaves c id tape).1) →
      (verifiedAccess (encryptingServer replaying taggingAead [] 4) byteSum c id newValue
        tape).isSome = true := by
  intro h
  obtain ⟨c, hreached, hunforged, hpanic⟩ := exists_replayed
  have hsome := h c 7 none [0] hreached (by decide) (fun v hv => (by cases hv)) hunforged
  rw [hpanic] at hsome
  cases hsome

end Oram

end NovaChannel
