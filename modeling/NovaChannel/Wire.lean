import Mathlib
import NovaChannel.Crypto

/-!
# Byte strings on the wire

Byte strings as lists of bytes, big-endian numbers, and the crate's `Writer` and `Reader`.  A
writer is the byte string it has written; `put_fixed` appends.

* `beBytes`, `fromBe` : fixed-width numbers, inverse to each other;
* `Parser` : a reader, on what is left unread;
* `Codec` : **a reader and a writer belong together**: the reader reads back what was written, what
  it accepts is the encoding of what it returns, and it never panics;
* `Codec.many`, `Codec.counted` : lists, with their count in front.
-/

namespace NovaChannel

/-- A byte string. -/
abbrev Bytes : Type := List UInt8

namespace Wire

/-! ### Numbers -/

/-- `to_be_bytes` of a number of `w` bytes. -/
def beBytes : ℕ → ℕ → Bytes
  | 0, _ => []
  | w + 1, n => beBytes w (n / 256) ++ [UInt8.ofNat (n % 256)]

/-- `from_be_bytes`. -/
def fromBe (bytes : Bytes) : ℕ := bytes.foldl (fun acc b => acc * 256 + b.toNat) 0

@[simp] theorem length_beBytes (w n : ℕ) : (beBytes w n).length = w := by
  induction w generalizing n with
  | zero => rfl
  | succ w ih => simp [beBytes, ih]

@[simp] theorem fromBe_nil : fromBe [] = 0 := rfl

theorem fromBe_concat (bytes : Bytes) (b : UInt8) :
    fromBe (bytes ++ [b]) = fromBe bytes * 256 + b.toNat := by
  simp [fromBe]

theorem fromBe_beBytes {w n : ℕ} (hn : n < 256 ^ w) : fromBe (beBytes w n) = n := by
  induction w generalizing n with
  | zero =>
    rw [pow_zero, Nat.lt_one_iff] at hn
    simp [beBytes, hn]
  | succ w ih =>
    have hlt : n % 256 < 256 := Nat.mod_lt _ (by decide)
    rw [beBytes, fromBe_concat, ih (by rw [pow_succ] at hn; omega), UInt8.toNat_ofNat',
      Nat.mod_eq_of_lt hlt]
    omega

theorem fromBe_lt (bytes : Bytes) : fromBe bytes < 256 ^ bytes.length := by
  induction bytes using List.reverseRecOn with
  | nil => simp
  | append_singleton bytes b ih =>
    have hb := b.toNat_lt
    rw [fromBe_concat, List.length_append, List.length_singleton, pow_succ]
    omega

theorem beBytes_fromBe (bytes : Bytes) : beBytes bytes.length (fromBe bytes) = bytes := by
  induction bytes using List.reverseRecOn with
  | nil => rfl
  | append_singleton bytes b ih =>
    have hb := b.toNat_lt
    have hdiv : (fromBe bytes * 256 + b.toNat) / 256 = fromBe bytes := by omega
    have hmod : (fromBe bytes * 256 + b.toNat) % 256 = b.toNat := by omega
    rw [List.length_append, List.length_singleton, beBytes, fromBe_concat, hdiv, hmod, ih,
      UInt8.ofNat_toNat]

theorem beBytes_fromBe_of_length {w : ℕ} {bytes : Bytes} (h : bytes.length = w) :
    beBytes w (fromBe bytes) = bytes := by
  rw [← h, beBytes_fromBe]

theorem beBytes_inj {w m n : ℕ} (hm : m < 256 ^ w) (hn : n < 256 ^ w)
    (h : beBytes w m = beBytes w n) : m = n := by
  rw [← fromBe_beBytes hm, h, fromBe_beBytes hn]

/-! ### Writers -/

/-- A byte string of a fixed length, `[u8; n]`. -/
abbrev FixedBytes (n : ℕ) : Type := {bytes : Bytes // bytes.length = n}

/-- `put_var`: the length in front. -/
def putVar (bytes : Bytes) : Bytes := beBytes 8 bytes.length ++ bytes

/-- A `u32` in big-endian order. -/
def putU32 (n : UInt32) : Bytes := beBytes 4 n.toNat

/-- A `u64` in big-endian order. -/
def putU64 (n : UInt64) : Bytes := beBytes 8 n.toNat

@[simp] theorem length_putU32 (n : UInt32) : (putU32 n).length = 4 := length_beBytes _ _

@[simp] theorem length_putU64 (n : UInt64) : (putU64 n).length = 8 := length_beBytes _ _

/-! ### Readers -/

/-- A reader: what is read and what is left, or why it failed. -/
abbrev Parser (α : Type) : Type := StateT Bytes Result α

/-- `get_fixed`. -/
def getFixed (n : ℕ) : Parser Bytes := fun bytes =>
  if bytes.length < n then Result.err (.malformed "unexpected end of message")
  else .ok (bytes.take n, bytes.drop n)

/-- `get_fixed`, turned into an array that the length was guaranteed for. -/
def getArray (n : ℕ) : Parser (FixedBytes n) := do
  let bytes ← getFixed n
  if h : bytes.length = n then pure ⟨bytes, h⟩ else throw .panic

/-- `get_fixed(1)?[0]`. -/
def getByte : Parser UInt8 := do
  let bytes ← getFixed 1
  match bytes[0]? with
  | some b => pure b
  | none => throw .panic

/-- A `u32` in big-endian order. -/
def getU32 : Parser UInt32 := do
  let array ← getArray 4
  pure (UInt32.ofNat (fromBe array.1))

/-- A `u64` in big-endian order. -/
def getU64 : Parser UInt64 := do
  let array ← getArray 8
  pure (UInt64.ofNat (fromBe array.1))

/-- `get_var`, where a `usize` has 64 bits. -/
def getVar : Parser Bytes := do
  let len ← getU64
  getFixed len.toNat

/-- `remaining`. -/
def remaining : Parser ℕ := fun bytes => .ok (bytes.length, bytes)

/-- `Vec::with_capacity(n)`.  To reserve more than a message may cause is a failure of its own kind,
which aborts the process. -/
def reserve (n limit : ℕ) : Parser Unit := if n ≤ limit then pure () else throw .panic

/-- `n` values one after the other. -/
def readMany {α : Type} (read : Parser α) : ℕ → Parser (List α)
  | 0 => pure []
  | n + 1 => do
    let a ← read
    let as ← readMany read n
    pure (a :: as)

/-- A list with its `u32` count in front; a count larger than what is left is refused before
anything is reserved. -/
def readCounted {α : Type} (tooMany : String) (read : Parser α) : Parser (List α) := do
  let count ← getU32
  let left ← remaining
  if count.toNat > left then throw (.error (.malformed tooMany))
  else do
    reserve count.toNat left
    readMany read count.toNat

/-- A reader that has to read its message to the end. -/
def readAll {α : Type} (trailing : String) (read : Parser α) (bytes : Bytes) : Result α := do
  let (a, rest) ← read bytes
  if rest.isEmpty then .ok a else Result.err (.malformed trailing)

/-- A computation between two fields, which reads nothing. -/
def ofResult {α : Type} (result : Result α) : Parser α := fun bytes => do
  let a ← result
  .ok (a, bytes)

/-- A list with its count in front. -/
def putCounted {α : Type} (write : α → Bytes) (as : List α) : Bytes :=
  putU32 (UInt32.ofNat as.length) ++ as.flatMap write

/-! ### Sequences of readers -/

section Sequence

variable {α γ : Type} {p : Parser α} {f : α → Parser γ} {bytes rest : Bytes} {a : α} {c : γ}

theorem bind_of_ok (h : p bytes = .ok (a, rest)) : (p >>= f) bytes = f a rest := by
  change (p bytes >>= fun x => f x.1 x.2) = _
  rw [h]
  rfl

theorem bind_eq_ok :
    (p >>= f) bytes = .ok (c, rest) ↔ ∃ a mid, p bytes = .ok (a, mid) ∧ f a mid = .ok (c, rest) := by
  change (p bytes >>= fun x => f x.1 x.2) = _ ↔ _
  rw [Result.bind_eq_ok]
  exact ⟨fun ⟨x, h1, h2⟩ => ⟨x.1, x.2, h1, h2⟩, fun ⟨a, mid, h1, h2⟩ => ⟨(a, mid), h1, h2⟩⟩

theorem bind_ne_panic (hp : p bytes ≠ .error .panic)
    (hf : ∀ a mid, p bytes = .ok (a, mid) → f a mid ≠ .error .panic) :
    (p >>= f) bytes ≠ .error .panic := by
  change (p bytes >>= fun x => f x.1 x.2) ≠ _
  cases h : p bytes with
  | error e =>
    rw [h] at hp
    rwa [Result.error_bind, ne_eq, Except.error.injEq] at *
  | ok x => exact hf x.1 x.2 h

@[simp] theorem pure_apply : (pure a : Parser α) bytes = .ok (a, bytes) := rfl

@[simp] theorem throw_apply (e : Fault) : (throw e : Parser α) bytes = .error e := rfl

end Sequence

theorem ofResult_eq_ok {α : Type} {result : Result α} {bytes rest : Bytes} {a : α} :
    ofResult result bytes = .ok (a, rest) ↔ result = .ok a ∧ bytes = rest := by
  unfold ofResult
  cases result with
  | error e => simp
  | ok b => simp

theorem ofResult_ne_panic {α : Type} {result : Result α} (hsafe : result ≠ .error .panic)
    (bytes : Bytes) : ofResult result bytes ≠ .error .panic := by
  unfold ofResult
  cases result with
  | error e => simpa using hsafe
  | ok b => simp

/-! ### Codecs -/

/-- A reader and a writer of the values with a property belong together. -/
structure Codec {α : Type} (P : α → Prop) (write : α → Bytes) (read : Parser α) : Prop where
  /-- What was written is read back. -/
  back : ∀ a rest, P a → read (write a ++ rest) = .ok (a, rest)
  /-- What is read is what would be written. -/
  canonical : ∀ bytes a rest, read bytes = .ok (a, rest) → P a ∧ bytes = write a ++ rest
  /-- Nothing makes it panic. -/
  safe : ∀ bytes, read bytes ≠ .error .panic

theorem getFixed_append {n : ℕ} {a : Bytes} (ha : a.length = n) (rest : Bytes) :
    getFixed n (a ++ rest) = .ok (a, rest) := by
  have hlt : ¬ (a ++ rest).length < n := by
    rw [List.length_append]
    omega
  rw [getFixed, if_neg hlt, List.take_left' ha, List.drop_left' ha]

theorem getFixed_eq_ok {n : ℕ} {bytes a rest : Bytes} (h : getFixed n bytes = .ok (a, rest)) :
    a.length = n ∧ bytes = a ++ rest := by
  unfold getFixed at h
  split_ifs at h with hlt
  cases h
  exact ⟨by rw [List.length_take]; omega, (List.take_append_drop _ _).symm⟩

theorem getFixed_ne_panic (n : ℕ) (bytes : Bytes) : getFixed n bytes ≠ .error .panic := by
  unfold getFixed
  split_ifs <;> simp

theorem codec_getArray (n : ℕ) :
    Codec (fun _ => True) (fun a : FixedBytes n => a.1) (getArray n) where
  back a rest _ := by
    rw [getArray, bind_of_ok (getFixed_append a.2 rest), dif_pos a.2]
    rfl
  canonical bytes a rest h := by
    obtain ⟨b, mid, hb, hcont⟩ := bind_eq_ok.1 h
    obtain ⟨hlen, hbytes⟩ := getFixed_eq_ok hb
    rw [dif_pos hlen] at hcont
    cases hcont
    exact ⟨trivial, hbytes⟩
  safe bytes := by
    refine bind_ne_panic (getFixed_ne_panic n bytes) fun b mid hb => ?_
    rw [dif_pos (getFixed_eq_ok hb).1]
    simp

theorem codec_getByte : Codec (fun _ => True) (fun b : UInt8 => [b]) getByte where
  back b rest _ := by
    have hfixed : getFixed 1 ([b] ++ rest) = .ok ([b], rest) := getFixed_append rfl rest
    rw [getByte, bind_of_ok hfixed]
    rfl
  canonical bytes b rest h := by
    obtain ⟨a, mid, ha, hcont⟩ := bind_eq_ok.1 h
    obtain ⟨hlen, hbytes⟩ := getFixed_eq_ok ha
    obtain ⟨c, rfl⟩ := List.length_eq_one_iff.1 hlen
    cases hcont
    exact ⟨trivial, hbytes⟩
  safe bytes := by
    refine bind_ne_panic (getFixed_ne_panic 1 bytes) fun a mid ha => ?_
    obtain ⟨c, rfl⟩ := List.length_eq_one_iff.1 (getFixed_eq_ok ha).1
    simp

/-- A codec through a bijection. -/
theorem Codec.map {α γ : Type} {P : α → Prop} {write : α → Bytes} {read : Parser α}
    (h : Codec P write read) (f : α → γ) (g : γ → α) (hfg : ∀ c, f (g c) = c)
    (hgf : ∀ a, P a → g (f a) = a) :
    Codec (fun c => P (g c)) (fun c => write (g c)) (do let a ← read; pure (f a)) where
  back c rest hc := by
    rw [bind_of_ok (h.back (g c) rest hc), hfg]
    rfl
  canonical bytes c rest hread := by
    obtain ⟨a, mid, ha, hpure⟩ := bind_eq_ok.1 hread
    cases hpure
    obtain ⟨hP, rfl⟩ := h.canonical _ _ _ ha
    rw [hgf a hP]
    exact ⟨hP, rfl⟩
  safe bytes := bind_ne_panic (h.safe bytes) fun a mid _ => by simp

/-- A value that was read already. -/
theorem codec_pure {γ : Type} {P : γ → Prop} {x : γ} (h : ∀ c, P c ↔ c = x) :
    Codec P (fun _ => []) (pure x) where
  back c rest hc := by
    rw [(h c).1 hc]
    rfl
  canonical bytes c rest hread := by
    cases hread
    exact ⟨(h x).2 rfl, rfl⟩
  safe bytes := by simp

/-- One field after the other: `proj` is the field that is read first. -/
theorem Codec.bind {α γ : Type} {Pa : α → Prop} {wa : α → Bytes} {ra : Parser α}
    (ha : Codec Pa wa ra) {P : γ → Prop} (proj : γ → α) {w : γ → Bytes} {rb : α → Parser γ}
    (hP : ∀ c, P c → Pa (proj c))
    (hb : ∀ a, Pa a → Codec (fun c => P c ∧ proj c = a) w (rb a)) :
    Codec P (fun c => wa (proj c) ++ w c) (ra >>= rb) where
  back c rest hc := by
    rw [List.append_assoc, bind_of_ok (ha.back _ _ (hP c hc))]
    exact (hb _ (hP c hc)).back c rest ⟨hc, rfl⟩
  canonical bytes c rest hread := by
    obtain ⟨a, mid, hra, hrest⟩ := bind_eq_ok.1 hread
    obtain ⟨hPa, rfl⟩ := ha.canonical _ _ _ hra
    obtain ⟨⟨hPc, rfl⟩, rfl⟩ := (hb a hPa).canonical _ _ _ hrest
    exact ⟨hPc, by rw [List.append_assoc]⟩
  safe bytes := bind_ne_panic (ha.safe bytes) fun a mid hra =>
    (hb a (ha.canonical _ _ _ hra).1).safe mid

/-- The same codec, written differently. -/
theorem Codec.congr {α : Type} {P : α → Prop} {w w' : α → Bytes} {read : Parser α}
    (h : Codec P w read) (hw : ∀ a, w' a = w a) : Codec P w' read := by
  rwa [funext hw]

/-- A check in the middle of a reader. -/
theorem Codec.check {γ : Type} {P : γ → Prop} {w : γ → Bytes} {rb : Parser γ}
    {result : Result Unit} (hsafe : result ≠ .error .panic) (hP : ∀ c, P c → result = .ok ())
    (hb : result = .ok () → Codec P w rb) : Codec P w (do ofResult result; rb) where
  back c rest hc := by
    rw [bind_of_ok (ofResult_eq_ok.2 ⟨hP c hc, rfl⟩)]
    exact (hb (hP c hc)).back c rest hc
  canonical bytes c rest hread := by
    obtain ⟨u, mid, hu, hrest⟩ := bind_eq_ok.1 hread
    obtain ⟨hok, rfl⟩ := ofResult_eq_ok.1 hu
    exact (hb hok).canonical _ _ _ hrest
  safe bytes := by
    refine bind_ne_panic (ofResult_ne_panic hsafe bytes) fun u mid hu => ?_
    obtain ⟨hok, rfl⟩ := ofResult_eq_ok.1 hu
    exact (hb hok).safe _

/-- A check that ends a reader. -/
theorem codec_check {γ : Type} {P : γ → Prop} {x : γ} {result : Result Unit}
    (hsafe : result ≠ .error .panic) (h : ∀ c, P c ↔ result = .ok () ∧ c = x) :
    Codec P (fun _ => []) (do ofResult result; pure x) where
  back c rest hc := by
    obtain ⟨hok, rfl⟩ := (h c).1 hc
    rw [List.nil_append, bind_of_ok (ofResult_eq_ok.2 ⟨hok, rfl⟩)]
    rfl
  canonical bytes c rest hread := by
    obtain ⟨u, mid, hu, hpure⟩ := bind_eq_ok.1 hread
    obtain ⟨hok, rfl⟩ := ofResult_eq_ok.1 hu
    cases hpure
    exact ⟨(h x).2 ⟨hok, rfl⟩, rfl⟩
  safe bytes := bind_ne_panic (ofResult_ne_panic hsafe bytes) fun u mid _ => by simp

theorem codec_getU32 : Codec (fun _ => True) putU32 getU32 :=
  (codec_getArray 4).map (fun a => UInt32.ofNat (fromBe a.1))
    (fun n => ⟨beBytes 4 n.toNat, length_beBytes 4 _⟩)
    (fun n => by
      have hn : n.toNat < 256 ^ 4 := n.toNat_lt
      rw [fromBe_beBytes hn, UInt32.ofNat_toNat])
    fun a _ => Subtype.ext (by
      have hlt := fromBe_lt a.1
      rw [a.2] at hlt
      have hmod : fromBe a.1 % 2 ^ 32 = fromBe a.1 := Nat.mod_eq_of_lt hlt
      change beBytes 4 (UInt32.ofNat (fromBe a.1)).toNat = a.1
      rw [UInt32.toNat_ofNat', hmod, beBytes_fromBe_of_length a.2])

theorem codec_getU64 : Codec (fun _ => True) putU64 getU64 :=
  (codec_getArray 8).map (fun a => UInt64.ofNat (fromBe a.1))
    (fun n => ⟨beBytes 8 n.toNat, length_beBytes 8 _⟩)
    (fun n => by
      have hn : n.toNat < 256 ^ 8 := n.toNat_lt
      rw [fromBe_beBytes hn, UInt64.ofNat_toNat])
    fun a _ => Subtype.ext (by
      have hlt := fromBe_lt a.1
      rw [a.2] at hlt
      have hmod : fromBe a.1 % 2 ^ 64 = fromBe a.1 := Nat.mod_eq_of_lt hlt
      change beBytes 8 (UInt64.ofNat (fromBe a.1)).toNat = a.1
      rw [UInt64.toNat_ofNat', hmod, beBytes_fromBe_of_length a.2])

/-- Variable fields, of a length that an address space holds. -/
theorem codec_getVar : Codec (fun bytes => bytes.length < 2 ^ 64) putVar getVar where
  back a rest ha := by
    have hlen : (UInt64.ofNat a.length).toNat = a.length := by
      rw [UInt64.toNat_ofNat', Nat.mod_eq_of_lt ha]
    have hput : putVar a = putU64 (UInt64.ofNat a.length) ++ a := by
      rw [putVar, putU64, hlen]
    rw [hput, List.append_assoc, getVar, bind_of_ok (codec_getU64.back _ _ trivial), hlen,
      getFixed_append rfl]
  canonical bytes a rest h := by
    obtain ⟨n, mid, hn, hcont⟩ := bind_eq_ok.1 h
    obtain ⟨-, hbytes⟩ := codec_getU64.canonical _ _ _ hn
    obtain ⟨hlen, rfl⟩ := getFixed_eq_ok hcont
    refine ⟨by rw [hlen]; exact n.toNat_lt, ?_⟩
    rw [hbytes, putVar, putU64, hlen, List.append_assoc]
  safe bytes := bind_ne_panic (codec_getU64.safe bytes) fun n mid _ => getFixed_ne_panic _ _

section Lists

variable {α : Type} {P : α → Prop} {write : α → Bytes} {read : Parser α}

/-- Lists of a known length. -/
theorem Codec.many (h : Codec P write read) (n : ℕ) :
    Codec (fun as => as.length = n ∧ ∀ a ∈ as, P a) (fun as => as.flatMap write)
      (readMany read n) where
  back as rest hP := by
    obtain ⟨rfl, hP⟩ := hP
    induction as generalizing rest with
    | nil => rfl
    | cons a as ih =>
      rw [List.flatMap_cons, List.append_assoc, List.length_cons, readMany,
        bind_of_ok (h.back a _ (hP a List.mem_cons_self)),
        bind_of_ok (ih rest fun b hb => hP b (List.mem_cons_of_mem _ hb))]
      rfl
  canonical bytes as rest hread := by
    induction n generalizing bytes as with
    | zero =>
      cases hread
      exact ⟨⟨rfl, fun a ha => (by cases ha)⟩, rfl⟩
    | succ n ih =>
      obtain ⟨a, mid, ha, hread⟩ := bind_eq_ok.1 hread
      obtain ⟨as', mid', has, hpure⟩ := bind_eq_ok.1 hread
      cases hpure
      obtain ⟨hPa, rfl⟩ := h.canonical _ _ _ ha
      obtain ⟨⟨hlen, hPas⟩, rfl⟩ := ih _ _ has
      refine ⟨⟨by rw [List.length_cons, hlen], ?_⟩, by rw [List.flatMap_cons, List.append_assoc]⟩
      intro b hb
      rcases List.mem_cons.1 hb with rfl | hb
      exacts [hPa, hPas b hb]
  safe bytes := by
    induction n generalizing bytes with
    | zero => simp [readMany]
    | succ n ih =>
      refine bind_ne_panic (h.safe bytes) fun a mid _ => ?_
      exact bind_ne_panic (ih mid) fun as mid' _ => by simp

theorem length_le_flatMap (hpos : ∀ a, 0 < (write a).length) (as : List α) :
    as.length ≤ (as.flatMap write).length := by
  induction as with
  | nil => simp
  | cons a as ih =>
    have := hpos a
    rw [List.flatMap_cons, List.length_cons, List.length_append]
    omega

/-- Lists with their count in front, of values that take at least a byte each. -/
theorem Codec.counted (h : Codec P write read) (hpos : ∀ a, 0 < (write a).length)
    (tooMany : String) :
    Codec (fun as => as.length < 2 ^ 32 ∧ ∀ a ∈ as, P a) (putCounted write)
      (readCounted tooMany read) where
  back as rest hP := by
    have hlen : (UInt32.ofNat as.length).toNat = as.length := by
      rw [UInt32.toNat_ofNat', Nat.mod_eq_of_lt hP.1]
    have hle := length_le_flatMap hpos as
    rw [putCounted, List.append_assoc, readCounted, bind_of_ok (codec_getU32.back _ _ trivial)]
    rw [bind_of_ok (show remaining (as.flatMap write ++ rest) = .ok (_, _) from rfl), hlen]
    have hnot : ¬ as.length > (as.flatMap write ++ rest).length := by
      rw [List.length_append]
      omega
    rw [if_neg hnot, reserve, if_pos (not_lt.1 hnot),
      bind_of_ok (show (pure () : Parser Unit) _ = .ok (_, _) from rfl)]
    exact (h.many as.length).back as rest ⟨rfl, hP.2⟩
  canonical bytes as rest hread := by
    obtain ⟨count, mid, hcount, hrest⟩ := bind_eq_ok.1 hread
    obtain ⟨-, hbytes⟩ := codec_getU32.canonical _ _ _ hcount
    obtain ⟨left, mid', hleft, hrest⟩ := bind_eq_ok.1 hrest
    cases hleft
    split_ifs at hrest with hgt
    · cases hrest
    · rw [reserve, if_pos (not_lt.1 hgt),
        bind_of_ok (show (pure () : Parser Unit) _ = .ok (_, _) from rfl)] at hrest
      obtain ⟨⟨hlen, hP⟩, rfl⟩ := (h.many _).canonical _ _ _ hrest
      refine ⟨⟨by rw [hlen]; exact count.toNat_lt, hP⟩, ?_⟩
      rw [hbytes, putCounted, hlen, UInt32.ofNat_toNat, List.append_assoc]
  safe bytes := by
    refine bind_ne_panic (codec_getU32.safe bytes) fun count mid _ => ?_
    refine bind_ne_panic (by simp [remaining]) fun left mid' hleft => ?_
    cases hleft
    split_ifs with hgt
    · simp
    · rw [reserve, if_pos (not_lt.1 hgt)]
      exact bind_ne_panic (by simp) fun u mid' _ => (h.many _).safe _

theorem readAll_eq_ok {trailing : String} {bytes : Bytes} {a : α} :
    readAll trailing read bytes = .ok a ↔ read bytes = .ok (a, []) := by
  unfold readAll
  cases hread : read bytes with
  | error e => simp
  | ok x =>
    obtain ⟨b, rest⟩ := x
    rw [Result.ok_bind]
    cases rest <;> simp [Result.err]

/-- A reader that reads to the end. -/
theorem Codec.readAll_back (h : Codec P write read) (trailing : String) {a : α} (ha : P a) :
    readAll trailing read (write a) = .ok a := by
  have hback := h.back a [] ha
  rw [List.append_nil] at hback
  exact readAll_eq_ok.2 hback

theorem Codec.readAll_canonical (h : Codec P write read) {trailing : String} {bytes : Bytes}
    {a : α} (hread : readAll trailing read bytes = .ok a) : P a ∧ write a = bytes := by
  obtain ⟨hP, rfl⟩ := h.canonical _ _ _ (readAll_eq_ok.1 hread)
  exact ⟨hP, (List.append_nil _).symm⟩

theorem readAll_ne_panic {trailing : String} {bytes : Bytes}
    (hsafe : read bytes ≠ .error .panic) : readAll trailing read bytes ≠ .error .panic := by
  unfold readAll
  cases hread : read bytes with
  | error e =>
    rw [hread] at hsafe
    rwa [Result.error_bind, ne_eq, Except.error.injEq] at *
  | ok x =>
    obtain ⟨a, rest⟩ := x
    simp only [Result.ok_bind]
    split_ifs <;> simp

end Lists

end Wire

end NovaChannel
