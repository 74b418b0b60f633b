import NovaChannel.Oram.Encrypting
import NovaChannel.Oram.Oblivious

/-!
# The encrypting layer is transparent

A client over `EncryptingServerStorage` and one over the storage below it, with the same leaves,
are in step: the same answers, the same position map, the same stash.

* `recording` : a server that keeps the buckets it was given;
* `Transparent` : **what the inner server holds opens to what the plain one holds**, every bucket
  it was ever given looks the same, and every nonce was used once;
* `Mirrors` : the two clients, kept by every access (`Mirrors.accessAt`);
* `run_encrypting` : whole runs, and when they run out of nonces.
-/

namespace NovaChannel

namespace Oram

open Transport (Aead tagLen)
open Wire (beBytes)

/-- A server that records the buckets it is given. -/
def recording {σ V : Type} (S : ServerStorage σ V) :
    ServerStorage (σ × List (ℕ × List (Block V))) V where
  readAndClear s node :=
    let (blocks, state) := S.readAndClear s.1 node
    (blocks, (state, s.2))
  write s node blocks :=
    (S.write s.1 node blocks).map fun state => (state, s.2 ++ [(node, blocks)])
  bucketCapacity := S.bucketCapacity

/-- What AEAD promises of one key: decryption undoes encryption, and a ciphertext is a tag longer
than its message. -/
def Correct (A : Aead) (key : Bytes) : Prop :=
  ∀ nonce message ciphertext, A.encrypt key nonce [] message = some ciphertext →
    A.decrypt key nonce [] ciphertext = some message ∧
      ciphertext.length = message.length + tagLen

/-- The nonce a counter stands for. -/
def nonceOf (n : ℕ) : Bytes := List.replicate 4 0 ++ beBytes 8 n

theorem length_nonceOf (n : ℕ) : (nonceOf n).length = oramNonceLen := by
  simp [nonceOf, oramNonceLen]

theorem nonceOf_inj {n m : ℕ} (hn : n < 2 ^ 64) (hm : m < 2 ^ 64) (h : nonceOf n = nonceOf m) :
    n = m := by
  have hbytes : beBytes 8 n = beBytes 8 m := List.append_cancel_left h
  rw [← Wire.fromBe_beBytes (show n < 256 ^ 8 from hn), hbytes,
    Wire.fromBe_beBytes (show m < 256 ^ 8 from hm)]

/-- The length of every sealed block. -/
def sealedLen (blockValueLen : ℕ) : ℕ :=
  oramNonceLen + (oramHeaderLen + blockValueLen + tagLen)

section Transparency

variable {A : Aead} {key : Bytes} {blockValueLen capacity : ℕ}

/-- A sealed block opens: a real one to itself, a dummy to nothing. -/
theorem openOramBlock_sealed (hA : Correct A key) (hL : blockValueLen < 2 ^ 32) {nonce : Bytes}
    (hnonce : nonce.length = oramNonceLen) {tag : UInt8} {b : Block Bytes} {sealed : Bytes}
    (h : sealOramBlock A key nonce tag b blockValueLen = some sealed) :
    openOramBlock A key sealed = (if tag = oramTagReal then some b else none) ∧
      sealed.length = sealedLen blockValueLen := by
  rw [sealOramBlock] at h
  split_ifs at h with hb
  obtain ⟨ciphertext, hcipher, rfl⟩ := Option.map_eq_some_iff.1 h
  obtain ⟨hdecrypt, hlength⟩ := hA _ _ _ hcipher
  constructor
  · rw [openOramBlock, List.take_left' hnonce, List.drop_left' hnonce, hdecrypt,
      Option.bind_some, parseBlock_eq hL hb, if_neg]
    rw [List.length_append, hnonce]
    omega
  · rw [List.length_append, hnonce, hlength, length_blockPlaintext tag hb, sealedLen]

/-- The blocks that were tagged as real. -/
def realBlocks (blocks : List (UInt8 × Block Bytes)) : List (Block Bytes) :=
  blocks.filterMap fun x => if x.1 = oramTagReal then some x.2 else none

theorem realBlocks_padded (blocks : List (Block Bytes)) :
    realBlocks (padded capacity blocks) = blocks := by
  have hreal : (blocks.map fun b => (oramTagReal, b)).filterMap
      (fun x : UInt8 × Block Bytes => if x.1 = oramTagReal then some x.2 else none) = blocks := by
    rw [List.filterMap_map]
    exact List.filterMap_some
  have hdummies : (List.replicate (capacity - blocks.length) (oramTagDummy, ⟨0, []⟩)).filterMap
      (fun x : UInt8 × Block Bytes => if x.1 = oramTagReal then some x.2 else none) = [] := by
    rw [List.filterMap_eq_nil_iff]
    intro x hx
    obtain rfl := List.eq_of_mem_replicate hx
    rfl
  rw [realBlocks, padded, List.filterMap_append, hreal, hdummies, List.append_nil]

/-- What a bucket looks like from outside. -/
def Uniform (blockValueLen : ℕ) (bucket : List (Block Bytes)) : Prop :=
  ∀ b ∈ bucket, b.id = 0 ∧ b.value.length = sealedLen blockValueLen

/-- **What sealing a list of blocks does**: they open again, they look alike, and each took the
next nonce. -/
theorem sealAll_opens {σ : Type} (hA : Correct A key) (hL : blockValueLen < 2 ^ 32)
    {blocks : List (UInt8 × Block Bytes)} {s s' : EncryptingServerStorage σ}
    {sealed : List (Block Bytes)}
    (h : sealAll A key blockValueLen blocks s = some (sealed, s')) :
    openAll A key sealed = realBlocks blocks ∧ Uniform blockValueLen sealed ∧
      s'.inner = s.inner ∧ s'.sealed.map Prod.fst = s.sealed.map Prod.fst ++
        (List.range' s.nonceCounter blocks.length).map nonceOf := by
  induction blocks generalizing s sealed with
  | nil =>
    simp only [sealAll, Option.some.injEq, Prod.mk.injEq] at h
    obtain ⟨rfl, rfl⟩ := h
    exact ⟨rfl, fun b hb => (by cases hb), rfl, by simp⟩
  | cons x blocks ih =>
    obtain ⟨tag, b⟩ := x
    simp only [sealAll, nextNonce, Option.bind_eq_bind, Option.bind_eq_some_iff] at h
    obtain ⟨⟨nonce, s₁⟩, hnonce, ciphertext, hcipher, ⟨rest, s₂⟩, hrec, h⟩ := h
    split_ifs at hnonce with hcount
    simp only [Option.some.injEq, Prod.mk.injEq] at hnonce h
    obtain ⟨rfl, rfl⟩ := hnonce
    obtain ⟨rfl, rfl⟩ := h
    obtain ⟨hopens, huniform, hinner, hnonces⟩ := ih hrec
    obtain ⟨hopen, hlength⟩ := openOramBlock_sealed hA hL (length_nonceOf s.nonceCounter) hcipher
    refine ⟨?_, fun b' hb' => ?_, hinner, ?_⟩
    · rw [openAll, realBlocks, List.filterMap_cons, List.filterMap_cons, hopen]
      rw [openAll, realBlocks] at hopens
      rw [hopens]
    · rcases List.mem_cons.1 hb' with rfl | hb'
      · exact ⟨rfl, hlength⟩
      · exact huniform b' hb'
    · rw [hnonces, List.length_cons, List.range'_succ, List.map_append, List.append_assoc]
      rfl

/-- The buckets of an inner server, and those it was given. -/
abbrev Recorded := Buckets Bytes × List (ℕ × List (Block Bytes))

variable (A key blockValueLen capacity) in
/-- The storage below a client: in memory, recorded and encrypted. -/
def encryptedStorage : ServerStorage (EncryptingServerStorage Recorded) Bytes :=
  encryptingStorage A key blockValueLen (recording (inMemoryServer Bytes capacity))

variable (A key blockValueLen capacity) in
/-- **The encrypted buckets stand for the plain ones**, and `n` blocks have been sealed. -/
structure Transparent (n : ℕ) (s : EncryptingServerStorage Recorded) (buckets : Buckets Bytes) :
    Prop where
  opens : ∀ node, openAll A key (s.inner.1 node) = buckets node
  fits : ∀ node, ∀ b ∈ buckets node, b.value.length ≤ blockValueLen
  uniform : ∀ w ∈ s.inner.2, w.2.length = capacity ∧ Uniform blockValueLen w.2
  nonces : s.sealed.map Prod.fst = (List.range n).map nonceOf
  counter : s.nonceCounter = n
  room : n < 2 ^ 64

theorem Transparent.readAndClear {n : ℕ} {s : EncryptingServerStorage Recorded}
    {buckets : Buckets Bytes} (h : Transparent A key blockValueLen capacity n s buckets)
    (node : ℕ) :
    ((encryptedStorage A key blockValueLen capacity).readAndClear s node).1 = buckets node ∧
      Transparent A key blockValueLen capacity n
        ((encryptedStorage A key blockValueLen capacity).readAndClear s node).2
        (Function.update buckets node []) := by
  refine ⟨h.opens node, fun i => ?_, fun i b hb => ?_, h.uniform, h.nonces, h.counter, h.room⟩
  · change openAll A key (Function.update s.inner.1 node [] i) = _
    by_cases hi : i = node
    · rw [hi, Function.update_self, Function.update_self]
      rfl
    · rw [Function.update_of_ne hi, Function.update_of_ne hi, h.opens i]
  · by_cases hi : i = node
    · rw [hi, Function.update_self] at hb
      cases hb
    · rw [Function.update_of_ne hi] at hb
      exact h.fits i b hb

/-- A bucket that is not too full is sealed, stored and recorded. -/
theorem write_encrypted (s : EncryptingServerStorage Recorded) (node : ℕ)
    {blocks : List (Block Bytes)} (hlen : blocks.length ≤ capacity) :
    (encryptedStorage A key blockValueLen capacity).write s node blocks =
      (sealAll A key blockValueLen (padded capacity blocks) s).map fun p =>
        { p.2 with inner :=
            (Function.update p.2.inner.1 node p.1, p.2.inner.2 ++ [(node, p.1)]) } := by
  have hlen' : blocks.length ≤ (recording (inMemoryServer Bytes capacity)).bucketCapacity := hlen
  rw [encryptedStorage, write_encrypting, if_pos hlen', Option.map_eq_bind]
  rfl

/-- **A write**: it panics only when the nonces are used up. -/
theorem Transparent.write (hbounded : AcceptsBounded A key) (hA : Correct A key)
    (hL : blockValueLen < 2 ^ 32) {n : ℕ} {s : EncryptingServerStorage Recorded}
    {buckets : Buckets Bytes} (h : Transparent A key blockValueLen capacity n s buckets)
    (node : ℕ) {blocks : List (Block Bytes)} (hlen : blocks.length ≤ capacity)
    (hfits : ∀ b ∈ blocks, b.value.length ≤ blockValueLen) :
    (((encryptedStorage A key blockValueLen capacity).write s node blocks).isSome = true ↔
      n + capacity < 2 ^ 64) ∧
    ∀ s', (encryptedStorage A key blockValueLen capacity).write s node blocks = some s' →
      Transparent A key blockValueLen capacity (n + capacity) s'
        (Function.update buckets node blocks) := by
  rw [write_encrypted s node hlen]
  have hcapacity : (padded capacity blocks).length = capacity := length_padded hlen
  refine ⟨⟨fun hsome => ?_, fun hroom => ?_⟩, fun s' hs' => ?_⟩
  · rw [Option.isSome_map] at hsome
    obtain ⟨⟨sealed, s₁⟩, hsealed⟩ := Option.isSome_iff_exists.1 hsome
    have hcounter := (sealAll_grows hsealed).1.counter_lt (h.counter ▸ h.room)
    rwa [hcapacity, h.counter] at hcounter
  · obtain ⟨sealed, s₁, hsealed⟩ := @isSome_sealAll _ A key blockValueLen hbounded hL
      (padded capacity blocks) s (fits_padded hfits) (by rw [hcapacity, h.counter]; exact hroom)
    rw [hsealed]
    rfl
  · obtain ⟨⟨sealed, s₁⟩, hsealed, rfl⟩ := Option.map_eq_some_iff.1 hs'
    obtain ⟨hgrows, hlength, -⟩ := sealAll_grows hsealed
    obtain ⟨hopens, huniform, hsame, hnonces⟩ := sealAll_opens hA hL hsealed
    have hroom := hgrows.counter_lt (h.counter ▸ h.room)
    rw [hcapacity] at hlength hnonces hroom
    rw [realBlocks_padded] at hopens
    refine ⟨fun i => ?_, fun i b hb => ?_, fun w hw => ?_, ?_, ?_, h.counter ▸ hroom⟩
    · change openAll A key (Function.update s₁.inner.1 node sealed i) = _
      by_cases hi : i = node
      · rw [hi, Function.update_self, Function.update_self, hopens]
      · rw [Function.update_of_ne hi, Function.update_of_ne hi, hsame, h.opens i]
    · by_cases hi : i = node
      · rw [hi, Function.update_self] at hb
        exact hfits b hb
      · rw [Function.update_of_ne hi] at hb
        exact h.fits i b hb
    · rcases List.mem_append.1 hw with hw | hw
      · exact h.uniform w (hsame ▸ hw)
      · obtain rfl := List.mem_singleton.1 hw
        exact ⟨hlength, huniform⟩
    · simp only [hnonces, h.nonces, h.counter]
      have hsplit := @List.range'_append_1 0 n capacity
      rw [Nat.zero_add] at hsplit
      rw [List.range_eq_range', List.range_eq_range', ← List.map_append, hsplit]
    · exact hgrows.counter.trans (by rw [hcapacity, h.counter])

/-! ### The two clients -/

variable (A key blockValueLen capacity) in
/-- **The client over the encrypting storage mirrors the other one.** -/
structure Mirrors (n : ℕ) (c' : Client (EncryptingServerStorage Recorded) Bytes)
    (c : Client (Buckets Bytes) Bytes) : Prop where
  depth : c'.depth = c.depth
  positionMap : c'.positionMap = c.positionMap
  stash : c'.stash = c.stash
  fits : ∀ b ∈ c.stash, b.value.length ≤ blockValueLen
  server : Transparent A key blockValueLen capacity n c'.server c.server

theorem Mirrors.withServer (depth : ℕ) :
    Mirrors A key blockValueLen capacity 0
      (Client.withServer depth ⟨(fun _ => [], []), 0, []⟩)
      (Client.withServer depth fun _ => []) where
  depth := rfl
  positionMap := rfl
  stash := rfl
  fits b hb := by cases hb
  server := {
    opens := fun node => rfl
    fits := fun node b hb => by cases hb
    uniform := fun w hw => by cases hw
    nonces := rfl
    counter := rfl
    room := Nat.two_pow_pos 64 }

/-- Both clients read the same path. -/
theorem Mirrors.readPath {n : ℕ} {c' : Client (EncryptingServerStorage Recorded) Bytes}
    {c : Client (Buckets Bytes) Bytes} (h : Mirrors A key blockValueLen capacity n c' c)
    (path : List ℕ) :
    Mirrors A key blockValueLen capacity n
      (path.foldl (fun c node =>
        let (blocks, server) :=
          (encryptedStorage A key blockValueLen capacity).readAndClear c.server node
        { c with stash := c.stash ++ blocks, server := server }) c')
      (path.foldl (fun c node =>
        let (blocks, server) := (inMemoryServer Bytes capacity).readAndClear c.server node
        { c with stash := c.stash ++ blocks, server := server }) c) := by
  induction path generalizing c' c with
  | nil => exact h
  | cons node path ih =>
    obtain ⟨hblocks, hserver⟩ := h.server.readAndClear node
    refine ih ⟨h.depth, h.positionMap, ?_, fun b hb => ?_, hserver⟩
    · exact congrArg₂ (· ++ ·) h.stash hblocks
    · rcases List.mem_append.1 hb with hb | hb
      · exact h.fits b hb
      · exact h.server.fits node b hb

/-- **Both clients evict the same path.** -/
theorem Mirrors.evictPath (hbounded : AcceptsBounded A key) (hA : Correct A key)
    (hL : blockValueLen < 2 ^ 32) {n : ℕ}
    {c' : Client (EncryptingServerStorage Recorded) Bytes} {c c₁ : Client (Buckets Bytes) Bytes}
    (h : Mirrors A key blockValueLen capacity n c' c) {path : List ℕ}
    (hplain : Oram.evictPath (inMemoryServer Bytes capacity) c path = some c₁) :
    ((Oram.evictPath (encryptedStorage A key blockValueLen capacity) c' path).isSome = true ↔
      n + path.length * capacity < 2 ^ 64) ∧
    ∀ c₁', Oram.evictPath (encryptedStorage A key blockValueLen capacity) c' path = some c₁' →
      Mirrors A key blockValueLen capacity (n + path.length * capacity) c₁' c₁ := by
  induction path generalizing n c' c with
  | nil =>
    obtain rfl := Option.some.inj hplain
    rw [List.length_nil, Nat.zero_mul, Nat.add_zero]
    refine ⟨⟨fun _ => h.server.room, fun _ => rfl⟩, fun c₁' hc₁' => ?_⟩
    obtain rfl := Option.some.inj hc₁'
    exact h
  | cons node path ih =>
    simp only [Oram.evictPath, Option.bind_eq_bind, Option.bind_eq_some_iff] at hplain
    obtain ⟨⟨chosen, stash⟩, hchoose, buckets, hwrite, hplain⟩ := hplain
    obtain rfl := Option.some.inj hwrite
    obtain ⟨hperm, hlen, -⟩ := choose_eq_some hchoose
    have hfits : ∀ b ∈ chosen ++ stash, b.value.length ≤ blockValueLen :=
      fun b hb => h.fits b (hperm.subset hb)
    obtain ⟨hroom, hserver⟩ := h.server.write hbounded hA hL node hlen
      fun b hb => hfits b (List.mem_append_left _ hb)
    have hstep : Oram.evictPath (encryptedStorage A key blockValueLen capacity) c' (node :: path) =
        ((encryptedStorage A key blockValueLen capacity).write c'.server node chosen).bind
          fun server => Oram.evictPath (encryptedStorage A key blockValueLen capacity)
            { c' with stash := stash, server := server } path := by
      have hchoose' : Oram.choose c'.depth c'.positionMap node
          (encryptedStorage A key blockValueLen capacity).bucketCapacity c'.stash =
            some (chosen, stash) := by
        rw [h.depth, h.positionMap, h.stash]
        exact hchoose
      simp only [Oram.evictPath, hchoose', Option.bind_eq_bind, Option.bind_some]
    have hnext : ∀ server, (encryptedStorage A key blockValueLen capacity).write c'.server node
        chosen = some server → Mirrors A key blockValueLen capacity (n + capacity)
          { c' with stash := stash, server := server }
          { c with stash := stash, server := Function.update c.server node chosen } :=
      fun server hs => ⟨h.depth, h.positionMap, rfl,
        fun b hb => hfits b (List.mem_append_right _ hb), hserver server hs⟩
    have hcount : n + (node :: path).length * capacity =
        n + capacity + path.length * capacity := by
      rw [List.length_cons, Nat.succ_mul]
      omega
    rw [hstep, hcount]
    refine ⟨⟨fun hsome => ?_, fun hlt => ?_⟩, fun c₁' hc₁' => ?_⟩
    · obtain ⟨c₁', hc₁'⟩ := Option.isSome_iff_exists.1 hsome
      obtain ⟨server, hs, hrest⟩ := Option.bind_eq_some_iff.1 hc₁'
      exact (ih (hnext server hs) hplain).1.1 (by rw [hrest]; rfl)
    · obtain ⟨server, hs⟩ := Option.isSome_iff_exists.1 (hroom.2 (by omega))
      rw [hs, Option.bind_some]
      exact (ih (hnext server hs) hplain).1.2 hlt
    · obtain ⟨server, hs, hrest⟩ := Option.bind_eq_some_iff.1 hc₁'
      exact (ih (hnext server hs) hplain).2 c₁' hrest

/-- What an access writes fits, if the stash and the new value do. -/
theorem fits_update {id : BlockId} {newValue : Option Bytes} {stash : List (Block Bytes)}
    (hstash : ∀ b ∈ stash, b.value.length ≤ blockValueLen)
    (hvalue : ∀ v, newValue = some v → v.length ≤ blockValueLen) :
    ∀ b ∈ update id newValue stash, b.value.length ≤ blockValueLen := by
  intro b hb
  rcases mem_of_mem_update hb with hb | ⟨-, hv⟩
  · exact hstash b hb
  · exact hvalue _ hv

/-- **One access of both clients.** -/
theorem Mirrors.accessAt (hbounded : AcceptsBounded A key) (hA : Correct A key)
    (hL : blockValueLen < 2 ^ 32) {n : ℕ}
    {c' : Client (EncryptingServerStorage Recorded) Bytes} {c c₁ : Client (Buckets Bytes) Bytes}
    (h : Mirrors A key blockValueLen capacity n c' c) {id : BlockId} {newValue answer : Option Bytes}
    (hvalue : ∀ v, newValue = some v → v.length ≤ blockValueLen) {oldLeaf newLeaf : ℕ}
    (hlt : oldLeaf < numLeaves c.depth)
    (hplain : Oram.accessAt (inMemoryServer Bytes capacity) c id newValue oldLeaf newLeaf =
      some (c₁, answer)) :
    ((Oram.accessAt (encryptedStorage A key blockValueLen capacity) c' id newValue oldLeaf
        newLeaf).isSome = true ↔ n + (c.depth + 1) * capacity < 2 ^ 64) ∧
    ∀ c₁' answer', Oram.accessAt (encryptedStorage A key blockValueLen capacity) c' id newValue
        oldLeaf newLeaf = some (c₁', answer') →
      answer' = answer ∧
        Mirrors A key blockValueLen capacity (n + (c.depth + 1) * capacity) c₁' c₁ := by
  have hremapped : Mirrors A key blockValueLen capacity n
      { c' with positionMap := Function.update c'.positionMap id (some newLeaf) }
      { c with positionMap := Function.update c.positionMap id (some newLeaf) } :=
    ⟨h.depth, by rw [h.positionMap], h.stash, h.fits, h.server⟩
  have hread : Mirrors A key blockValueLen capacity n
      (readFor (encryptedStorage A key blockValueLen capacity) c' id oldLeaf newLeaf)
      (readFor (inMemoryServer Bytes capacity) c id oldLeaf newLeaf) := by
    have hnodes : pathNodes c'.depth oldLeaf = pathNodes c.depth oldLeaf := by rw [h.depth]
    change Mirrors A key blockValueLen capacity n
      ((pathNodes c'.depth oldLeaf).foldl _ _) ((pathNodes c.depth oldLeaf).foldl _ _)
    rw [hnodes]
    exact hremapped.readPath (pathNodes c.depth oldLeaf)
  have hupdated : Mirrors A key blockValueLen capacity n
      { readFor (encryptedStorage A key blockValueLen capacity) c' id oldLeaf newLeaf with
        stash := update id newValue (readFor (encryptedStorage A key blockValueLen capacity) c' id
          oldLeaf newLeaf).stash }
      { readFor (inMemoryServer Bytes capacity) c id oldLeaf newLeaf with
        stash := update id newValue (readFor (inMemoryServer Bytes capacity) c id oldLeaf
          newLeaf).stash } :=
    ⟨hread.depth, hread.positionMap, by rw [hread.stash], fits_update hread.fits hvalue,
      hread.server⟩
  rw [accessAt_eq] at hplain
  obtain ⟨c₂, hev, heq⟩ := Option.map_eq_some_iff.1 hplain
  obtain ⟨rfl, rfl⟩ := Prod.mk.inj heq
  obtain ⟨hroom, hmirrors⟩ := hupdated.evictPath hbounded hA hL hev
  rw [length_pathNodes hlt] at hroom hmirrors
  rw [accessAt_eq, h.depth]
  refine ⟨?_, fun c₁' answer' hok => ?_⟩
  · rw [Option.isSome_map]
    exact hroom
  · obtain ⟨c₂', hev', heq'⟩ := Option.map_eq_some_iff.1 hok
    obtain ⟨rfl, rfl⟩ := Prod.mk.inj heq'
    exact ⟨by rw [hread.stash], hmirrors c₂' hev'⟩

/-- An access is one with the leaves it draws. -/
theorem access_eq {σ V : Type} (S : ServerStorage σ V) (c : Client σ V) (id : BlockId)
    (newValue : Option V) (tape : List ℕ) :
    access S c id newValue tape =
      (Oram.accessAt S c id newValue (drawLeaves c id tape).1 (drawLeaves c id tape).2.1).map
        fun r => (r.1, r.2, (drawLeaves c id tape).2.2) := by
  rw [access, Option.map_eq_bind]
  rfl

/-- **Both clients over a run**: the encrypting one panics only when the nonces are used up. -/
theorem Mirrors.run (hbounded : AcceptsBounded A key) (hA : Correct A key)
    (hL : blockValueLen < 2 ^ 32) {n : ℕ} {m : BlockId → Option Bytes}
    {c' : Client (EncryptingServerStorage Recorded) Bytes} {c : Client (Buckets Bytes) Bytes}
    (h : Mirrors A key blockValueLen capacity n c' c) (hinv : Inv capacity m c)
    {ops : List (Operation Bytes)}
    (hvalues : ∀ op ∈ ops, ∀ v, op.2 = some v → v.length ≤ blockValueLen) {tape : List ℕ}
    (htape : ∀ leaf ∈ tape, leaf < numLeaves c.depth) :
    ((Oram.run (encryptedStorage A key blockValueLen capacity) c' ops tape).isSome = true ↔
      n + ops.length * ((c.depth + 1) * capacity) < 2 ^ 64) ∧
    ∀ c₁' answers, Oram.run (encryptedStorage A key blockValueLen capacity) c' ops tape =
        some (c₁', answers) →
      ∃ c₁, Oram.run (inMemoryServer Bytes capacity) c ops tape = some (c₁, answers) ∧
        Mirrors A key blockValueLen capacity (n + ops.length * ((c.depth + 1) * capacity)) c₁' c₁ := by
  induction ops generalizing n m c' c tape with
  | nil =>
    rw [List.length_nil, Nat.zero_mul, Nat.add_zero]
    refine ⟨⟨fun _ => h.server.room, fun _ => rfl⟩, fun c₁' answers hrun => ?_⟩
    obtain ⟨rfl, rfl⟩ := Prod.mk.inj (Option.some.inj hrun)
    exact ⟨c, rfl, h⟩
  | cons op ops ih =>
    obtain ⟨id, newValue⟩ := op
    obtain ⟨c₁, tape₁, hplain, hinv₁, hdepth, htape₁⟩ := hinv.access id newValue htape
    have hvalue : ∀ v, newValue = some v → v.length ≤ blockValueLen :=
      hvalues _ List.mem_cons_self
    have hvalues' : ∀ op ∈ ops, ∀ v, op.2 = some v → v.length ≤ blockValueLen :=
      fun op hop => hvalues op (List.mem_cons_of_mem _ hop)
    have hdrawn : drawLeaves c' id tape = drawLeaves c id tape := by
      rw [drawLeaves, drawLeaves, h.positionMap]
    have hplain' := hplain
    rw [access_eq] at hplain'
    obtain ⟨⟨c₂, answer⟩, hat, heq⟩ := Option.map_eq_some_iff.1 hplain'
    simp only [Prod.mk.injEq] at heq
    obtain ⟨rfl, rfl, rfl⟩ := heq
    obtain ⟨hroom, hstep⟩ := h.accessAt hbounded hA hL hvalue
      (drawLeaves_lt (hinv.leaf_lt id) htape).1 hat
    -- the rest of the run starts from clients that still mirror each other
    have hrest : ∀ c₁', Mirrors A key blockValueLen capacity (n + (c.depth + 1) * capacity) c₁' c₂ →
        _ := fun c₁' hmirrors => ih hmirrors hinv₁ hvalues' htape₁
    have hcount : n + ((id, newValue) :: ops).length * ((c.depth + 1) * capacity) =
        n + (c.depth + 1) * capacity + ops.length * ((c₂.depth + 1) * capacity) := by
      rw [List.length_cons, Nat.succ_mul, hdepth]
      omega
    have hunfold : Oram.run (encryptedStorage A key blockValueLen capacity) c'
        ((id, newValue) :: ops) tape =
        (Oram.accessAt (encryptedStorage A key blockValueLen capacity) c' id newValue
          (drawLeaves c id tape).1 (drawLeaves c id tape).2.1).bind fun r =>
          (Oram.run (encryptedStorage A key blockValueLen capacity) r.1 ops
            (drawLeaves c id tape).2.2).map fun r' => (r'.1, r.2 :: r'.2) := by
      rw [Oram.run, access_eq, hdrawn]
      simp only [Option.bind_eq_bind, Option.bind_assoc, Option.bind_some, Option.map_eq_bind,
        Function.comp_def]
    rw [hunfold, hcount]
    refine ⟨⟨fun hsome => ?_, fun hlt => ?_⟩, fun c₁' answers hrun => ?_⟩
    · obtain ⟨r', hr'⟩ := Option.isSome_iff_exists.1 hsome
      obtain ⟨⟨c₂', answer'⟩, hat', hr'⟩ := Option.bind_eq_some_iff.1 hr'
      obtain ⟨r, hrun, -⟩ := Option.map_eq_some_iff.1 hr'
      exact (hrest c₂' (hstep _ _ hat').2).1.1 (by rw [hrun]; rfl)
    · obtain ⟨⟨c₂', answer'⟩, hat'⟩ := Option.isSome_iff_exists.1 (hroom.2 (by omega))
      rw [hat', Option.bind_some, Option.isSome_map]
      exact (hrest c₂' (hstep _ _ hat').2).1.2 hlt
    · obtain ⟨⟨c₂', answer'⟩, hat', hr'⟩ := Option.bind_eq_some_iff.1 hrun
      obtain ⟨⟨c₃', answers'⟩, hrun', heq⟩ := Option.map_eq_some_iff.1 hr'
      obtain ⟨rfl, rfl⟩ := Prod.mk.inj heq
      obtain ⟨rfl, hmirrors⟩ := hstep _ _ hat'
      obtain ⟨c₃, hrun₃, hmirrors₃⟩ := (hrest c₂' hmirrors).2 _ _ hrun'
      refine ⟨c₃, ?_, hmirrors₃⟩
      simp only [Oram.run, hplain, hrun₃, Option.bind_eq_bind, Option.bind_some]

/-- A fresh client over the encrypting storage. -/
def freshEncrypted (depth : ℕ) : Client (EncryptingServerStorage Recorded) Bytes :=
  Client.withServer depth ⟨(fun _ => [], []), 0, []⟩

/-- **The encrypting layer is transparent and uniform**: over every list of operations and every
tape the client over it returns exactly if the nonces suffice; then it has answered as the one over
the plain storage, with the same position map and stash, every bucket it has written is full of
ciphertexts of one length under the id 0, and no nonce was used twice. -/
theorem run_encrypting (hbounded : AcceptsBounded A key) (hA : Correct A key)
    (hL : blockValueLen < 2 ^ 32) (depth : ℕ) {ops : List (Operation Bytes)}
    (hvalues : ∀ op ∈ ops, ∀ v, op.2 = some v → v.length ≤ blockValueLen) {tape : List ℕ}
    (htape : ∀ leaf ∈ tape, leaf < numLeaves depth) :
    ((run (encryptedStorage A key blockValueLen capacity) (freshEncrypted depth) ops tape).isSome =
        true ↔ ops.length * ((depth + 1) * capacity) < 2 ^ 64) ∧
    ∀ c' answers, run (encryptedStorage A key blockValueLen capacity) (freshEncrypted depth) ops
        tape = some (c', answers) →
      ∃ c, run (inMemoryServer Bytes capacity) (Client.withServer depth fun _ => []) ops tape =
          some (c, answers) ∧
        c'.positionMap = c.positionMap ∧ c'.stash = c.stash ∧
        (∀ w ∈ c'.server.inner.2, w.2.length = capacity ∧
          ∀ b ∈ w.2, b.id = 0 ∧ b.value.length = sealedLen blockValueLen) ∧
        (c'.server.sealed.map Prod.fst).Nodup := by
  have hfresh : Mirrors A key blockValueLen capacity 0 (freshEncrypted depth)
      (Client.withServer depth fun _ => []) := .withServer depth
  obtain ⟨hroom, hmirrors⟩ := hfresh.run hbounded hA hL (Inv.withServer depth capacity) hvalues htape
  rw [Nat.zero_add] at hroom hmirrors
  refine ⟨hroom, fun c' answers hrun => ?_⟩
  obtain ⟨c, hplain, h⟩ := hmirrors c' answers hrun
  refine ⟨c, hplain, h.positionMap, h.stash, h.server.uniform, ?_⟩
  rw [h.server.nonces]
  refine (List.nodup_map_iff_inj_on List.nodup_range).2 fun n hn m hm heq => ?_
  have hlt := h.server.room
  exact nonceOf_inj ((List.mem_range.1 hn).trans hlt) ((List.mem_range.1 hm).trans hlt) heq

end Transparency

/-! ### A small cipher -/

/-- A cipher that appends a tag of sixteen bytes. -/
def paddingAead : Aead where
  encrypt _ _ _ message := some (message ++ List.replicate tagLen 0x5a)
  decrypt _ _ _ ciphertext :=
    if ciphertext.drop (ciphertext.length - tagLen) = List.replicate tagLen 0x5a then
      some (ciphertext.take (ciphertext.length - tagLen))
    else none

theorem acceptsBounded_paddingAead (key : Bytes) : AcceptsBounded paddingAead key :=
  fun _ _ _ => rfl

theorem correct_paddingAead (key : Bytes) : Correct paddingAead key := by
  intro nonce message ciphertext h
  obtain rfl := Option.some.inj h
  simp [paddingAead]

/-- A write and a read over two leaves. -/
theorem run_encrypting_two :
    (run (encryptedStorage paddingAead [] 4 2) (freshEncrypted 1) [(7, some [1, 2]), (7, none)]
      [1, 0, 1]).isSome = true ∧
    ∀ c' answers, run (encryptedStorage paddingAead [] 4 2) (freshEncrypted 1)
        [(7, some [1, 2]), (7, none)] [1, 0, 1] = some (c', answers) →
      (c'.server.sealed.map Prod.fst).Nodup := by
  obtain ⟨hiff, hrun⟩ := @run_encrypting paddingAead [] 4 2 (acceptsBounded_paddingAead [])
    (correct_paddingAead []) (by decide) 1 [(7, some [1, 2]), (7, none)] (by decide) [1, 0, 1]
    (by decide)
  refine ⟨hiff.2 (by decide), fun c' answers hok => ?_⟩
  obtain ⟨c, -, -, -, -, hnonces⟩ := hrun c' answers hok
  exact hnonces

/-- So many reads use the nonces up, where the plain client answers. -/
theorem not_transparent_exhausted :
    ¬ ∀ (ops : List (Operation Bytes)) (tape : List ℕ),
      (∀ op ∈ ops, ∀ v, op.2 = some v → v.length ≤ 4) → (∀ leaf ∈ tape, leaf < numLeaves 0) →
      (run (encryptedStorage paddingAead [] 4 1) (freshEncrypted 0) ops tape).map Prod.snd =
        (run (inMemoryServer Bytes 1) (Client.withServer 0 fun _ => []) ops tape).map Prod.snd := by
  intro h
  obtain ⟨k, hk⟩ : ∃ k, k = 2 ^ 64 := ⟨_, rfl⟩
  have hvalues : ∀ op ∈ List.replicate k ((7, none) : Operation Bytes), ∀ v,
      op.2 = some v → v.length ≤ 4 := by
    intro op hop v hv
    obtain rfl := List.eq_of_mem_replicate hop
    cases hv
  have htape : ∀ leaf ∈ ([] : List ℕ), leaf < numLeaves 0 := fun leaf hl => by cases hl
  have hsame := h _ [] hvalues htape
  obtain ⟨c, hplain, -⟩ := run_refines 0 1 (List.replicate k ((7, none) : Operation Bytes)) htape
  obtain ⟨hroom, -⟩ := (Mirrors.withServer 0).run (acceptsBounded_paddingAead [])
    (correct_paddingAead []) (by decide) (Inv.withServer 0 1) hvalues htape
  rw [hplain, Option.map_some] at hsame
  obtain ⟨r, hr, -⟩ := Option.map_eq_some_iff.1 hsame
  have hlt := hroom.1 (Option.isSome_iff_exists.2 ⟨r, hr⟩)
  rw [List.length_replicate, hk] at hlt
  simp [Client.withServer] at hlt

end Oram

end NovaChannel
