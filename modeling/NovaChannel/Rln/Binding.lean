import NovaChannel.Rln.Message
import NovaChannel.Wire

/-!
# Message hashing binds

`bytes_to_field` absorbs the length of a byte string and then its chunks of seven bytes.

* `absorbed_injective` : the absorbed elements determine the bytes;
* `coincides_of_eq` : equal outputs come with a coincidence among the compressions;
* `recoverSecret_messages` : **two messages of one epoch reveal the key**, or a coincidence.
-/

namespace NovaChannel

namespace Rln

open Merkle

/-- `BYTES_PER_ELEMENT`. -/
def bytesPerElement : ℕ := 7

/-- `u64::from_le_bytes`. -/
def fromLe : Bytes → ℕ
  | [] => 0
  | b :: bytes => b.toNat + 256 * fromLe bytes

/-- The element a chunk is packed into, in a zero-padded buffer of eight bytes. -/
def packChunk (chunk : Bytes) : BaseElement :=
  (fromLe (chunk ++ List.replicate (8 - chunk.length) 0) : ℕ)

/-- The chunks of a byte string, at most `fuel` of them. -/
def chunksFrom : ℕ → Bytes → List Bytes
  | 0, _ => []
  | fuel + 1, bytes =>
    if bytes = [] then []
    else bytes.take bytesPerElement :: chunksFrom fuel (bytes.drop bytesPerElement)

/-- `bytes.chunks(BYTES_PER_ELEMENT)`. -/
def chunks (bytes : Bytes) : List Bytes := chunksFrom bytes.length bytes

/-- What `bytes_to_field` absorbs: the length and the packed chunks. -/
def absorbed (bytes : Bytes) : BaseElement × List BaseElement :=
  ((bytes.length : ℕ), (chunks bytes).map packChunk)

/-- The loop of `bytes_to_field`. -/
def absorb (acc : BaseElement) (elements : List BaseElement) : BaseElement :=
  elements.foldl compress acc

/-- `bytes_to_field`. -/
def bytesToField (bytes : Bytes) : BaseElement := absorb (absorbed bytes).1 (absorbed bytes).2

/-- `recover_secret`. -/
def recoverSecret (a b : Share) : Option BaseElement :=
  if a.nullifier ≠ b.nullifier then none
  else if a.x = b.x then none
  else
    let a1 := (a.y - b.y) / (a.x - b.x)
    some (a.y - a1 * a.x)

/-- The share of a message: what `prove_message` computes for the message's `x`. -/
def shareOf (sk epoch : BaseElement) (message : Bytes) : Share :=
  let a1 := compress sk epoch
  let x := bytesToField message
  ⟨a1, x, sk + a1 * x⟩

/-! ### The packing -/

theorem fromLe_append_zeros (bytes : Bytes) (n : ℕ) :
    fromLe (bytes ++ List.replicate n 0) = fromLe bytes := by
  have hzeros : fromLe (List.replicate n 0) = 0 := by
    induction n with
    | zero => rfl
    | succ n ih => simp [List.replicate_succ, fromLe, ih]
  induction bytes with
  | nil => exact hzeros
  | cons b bytes ih => rw [List.cons_append, fromLe, fromLe, ih]

theorem fromLe_lt (bytes : Bytes) : fromLe bytes < 256 ^ bytes.length := by
  induction bytes with
  | nil => exact Nat.one_pos
  | cons b bytes ih =>
    have hb := b.toNat_lt
    rw [fromLe, List.length_cons, pow_succ]
    omega

theorem eq_of_fromLe_eq : ∀ {a b : Bytes}, a.length = b.length → fromLe a = fromLe b → a = b := by
  intro a
  induction a with
  | nil => exact fun hlen _ => (List.length_eq_zero_iff.1 hlen.symm).symm
  | cons x a ih =>
    intro b hlen heq
    cases b with
    | nil => cases hlen
    | cons y b =>
      have hx := x.toNat_lt
      have hy := y.toNat_lt
      rw [fromLe, fromLe] at heq
      have hhead : x = y := UInt8.toNat_inj.1 (by omega)
      rw [hhead, ih (Nat.succ.inj hlen) (by omega)]

/-- Chunks of at most seven bytes are below the modulus, so equal elements are equal chunks. -/
theorem eq_of_packChunk_eq {a b : Bytes} (ha : a.length ≤ bytesPerElement)
    (hlen : a.length = b.length) (heq : packChunk a = packChunk b) : a = b := by
  have hbound : ∀ c : Bytes, c.length ≤ bytesPerElement → fromLe c < modulus := fun c hc =>
    ((fromLe_lt c).trans_le (Nat.pow_le_pow_right (by decide) hc)).trans (by decide)
  rw [packChunk, packChunk, fromLe_append_zeros, fromLe_append_zeros] at heq
  refine eq_of_fromLe_eq hlen ?_
  have hmod := (ZMod.natCast_eq_natCast_iff' _ _ _).1 heq
  rwa [Nat.mod_eq_of_lt (hbound a ha), Nat.mod_eq_of_lt (hbound b (hlen ▸ ha))] at hmod

theorem eq_of_chunksFrom_eq : ∀ {fuel : ℕ} {a b : Bytes}, a.length ≤ fuel →
    a.length = b.length →
    (chunksFrom fuel a).map packChunk = (chunksFrom fuel b).map packChunk → a = b := by
  intro fuel
  induction fuel with
  | zero =>
    intro a b ha hlen _
    obtain rfl := List.length_eq_zero_iff.1 (Nat.le_zero.1 ha)
    exact (List.length_eq_zero_iff.1 hlen.symm).symm
  | succ fuel ih =>
    intro a b ha hlen heq
    by_cases h0 : a = []
    · subst h0
      exact (List.length_eq_zero_iff.1 hlen.symm).symm
    have h0' : b ≠ [] := fun h => h0 (List.length_eq_zero_iff.1 (by rw [hlen, h]; rfl))
    rw [chunksFrom, chunksFrom, if_neg h0, if_neg h0', List.map_cons, List.map_cons] at heq
    obtain ⟨hhead, htail⟩ := List.cons.inj heq
    have hpos := List.length_pos_iff.2 h0
    have htake := eq_of_packChunk_eq (List.length_take_le _ _)
      (by rw [List.length_take, List.length_take, hlen]) hhead
    have hdrop := ih (by rw [List.length_drop, bytesPerElement]; omega)
      (by rw [List.length_drop, List.length_drop, hlen]) htail
    rw [← List.take_append_drop bytesPerElement a, htake, hdrop, List.take_append_drop]

/-- **The absorbed elements determine the bytes.** -/
theorem absorbed_injective {a b : Bytes} (ha : a.length < modulus) (hb : b.length < modulus)
    (h : absorbed a = absorbed b) : a = b := by
  obtain ⟨hlength, hchunks⟩ := Prod.mk.inj h
  have hmod := (ZMod.natCast_eq_natCast_iff' _ _ _).1 hlength
  rw [Nat.mod_eq_of_lt ha, Nat.mod_eq_of_lt hb] at hmod
  refine eq_of_chunksFrom_eq (Nat.le_refl _) hmod ?_
  rw [chunks, chunks, ← hmod] at hchunks
  exact hchunks

/-! ### Coincidences -/

/-- The pairs that are compressed. -/
def absorbInputs : BaseElement → List BaseElement → List (BaseElement × BaseElement)
  | _, [] => []
  | acc, v :: elements => (acc, v) :: absorbInputs (compress acc v) elements

/-- The pairs `bytes_to_field` compresses. -/
def hashInputs (bytes : Bytes) : List (BaseElement × BaseElement) :=
  absorbInputs (absorbed bytes).1 (absorbed bytes).2

/-- A coincidence between two messages: two distinct inputs with one output, or an output that is
one of the lengths. -/
def Coincides (a b : Bytes) : Prop :=
  Collides compress {p | p ∈ hashInputs a ++ hashInputs b} ∨
    ∃ p ∈ hashInputs a ++ hashInputs b,
      compress p.1 p.2 = (a.length : ℕ) ∨ compress p.1 p.2 = (b.length : ℕ)

theorem absorb_concat (acc : BaseElement) (elements : List BaseElement) (v : BaseElement) :
    absorb acc (elements ++ [v]) = compress (absorb acc elements) v := by
  simp only [absorb, List.foldl_append, List.foldl_cons, List.foldl_nil]

theorem absorbInputs_concat (acc : BaseElement) (elements : List BaseElement) (v : BaseElement) :
    absorbInputs acc (elements ++ [v]) = absorbInputs acc elements ++ [(absorb acc elements, v)] := by
  induction elements generalizing acc with
  | nil => rfl
  | cons x elements ih =>
    simp only [List.cons_append, absorbInputs, ih, absorb, List.foldl_cons]

/-- What has equal ends has equal elements, or a coincidence: from the end, one compression at a
time. -/
theorem eq_or_coincidence {S : Set (BaseElement × BaseElement)} {acc acc' : BaseElement} :
    ∀ {elements elements' : List BaseElement},
    (∀ p ∈ absorbInputs acc elements, p ∈ S) → (∀ p ∈ absorbInputs acc' elements', p ∈ S) →
    absorb acc elements = absorb acc' elements' →
    (acc = acc' ∧ elements = elements') ∨ Collides compress S ∨
      ∃ p ∈ S, compress p.1 p.2 = acc ∨ compress p.1 p.2 = acc' := by
  intro elements
  induction elements using List.reverseRecOn with
  | nil =>
    intro elements' _ hS' heq
    rcases List.eq_nil_or_concat' elements' with rfl | ⟨init, v, rfl⟩
    · exact .inl ⟨heq, rfl⟩
    · rw [absorb_concat] at heq
      rw [absorbInputs_concat] at hS'
      exact .inr (.inr ⟨_, hS' _ (List.mem_append_right _ List.mem_cons_self), .inl heq.symm⟩)
  | append_singleton init v ih =>
    intro elements' hS hS' heq
    rw [absorb_concat] at heq
    rw [absorbInputs_concat] at hS
    have hlast := hS _ (List.mem_append_right _ List.mem_cons_self)
    rcases List.eq_nil_or_concat' elements' with rfl | ⟨init', v', rfl⟩
    · exact .inr (.inr ⟨_, hlast, .inr heq⟩)
    · rw [absorb_concat] at heq
      rw [absorbInputs_concat] at hS'
      have hlast' := hS' _ (List.mem_append_right _ List.mem_cons_self)
      rcases eq_or_collides compress hlast hlast' heq with hpair | hcollides
      · obtain ⟨hinit, rfl⟩ := Prod.mk.inj hpair
        rcases ih (fun p hp => hS p (List.mem_append_left _ hp))
          (fun p hp => hS' p (List.mem_append_left _ hp)) hinit with ⟨rfl, rfl⟩ | h
        · exact .inl ⟨rfl, rfl⟩
        · exact .inr h
      · exact .inr (.inl hcollides)

theorem coincides_of_eq {a b : Bytes} (ha : a.length < modulus) (hb : b.length < modulus)
    (hne : a ≠ b) (heq : bytesToField a = bytesToField b) : Coincides a b := by
  rcases eq_or_coincidence (S := {p | p ∈ hashInputs a ++ hashInputs b})
    (fun p hp => List.mem_append_left _ hp) (fun p hp => List.mem_append_right _ hp) heq with
    ⟨h1, h2⟩ | h
  · exact absurd (absorbed_injective ha hb (Prod.ext h1 h2)) hne
  · exact h

/-! ### The key -/

/-- Two points on one line give its intercept. -/
theorem recoverSecret_line {sk a1 x x' : BaseElement} (hx : x ≠ x') :
    recoverSecret ⟨a1, x, sk + a1 * x⟩ ⟨a1, x', sk + a1 * x'⟩ = some sk := by
  have hsub : x - x' ≠ 0 := sub_ne_zero.2 hx
  have hslope : (sk + a1 * x - (sk + a1 * x')) / (x - x') = a1 := by
    rw [div_eq_iff hsub]
    ring
  simp only [recoverSecret, ne_eq, not_true_eq_false, if_false, hx, hslope]
  congr 1
  ring

/-- **Message hashing binds**: distinct messages absorb distinct elements; if they hash alike there
is a coincidence; and without one, the two shares of an epoch reveal exactly the key. -/
theorem recoverSecret_messages {a b : Bytes} (ha : a.length < modulus) (hb : b.length < modulus)
    (hne : a ≠ b) :
    absorbed a ≠ absorbed b ∧ (bytesToField a = bytesToField b → Coincides a b) ∧
      ∀ sk epoch, recoverSecret (shareOf sk epoch a) (shareOf sk epoch b) = some sk ∨
        Coincides a b := by
  refine ⟨fun h => hne (absorbed_injective ha hb h), coincides_of_eq ha hb hne,
    fun sk epoch => ?_⟩
  by_cases heq : bytesToField a = bytesToField b
  · exact .inr (coincides_of_eq ha hb hne heq)
  · exact .inl (recoverSecret_line heq)

theorem recoverSecret_messages_trailing : absorbed [97] ≠ absorbed [97, 0] ∧
    ∀ sk epoch, recoverSecret (shareOf sk epoch [97]) (shareOf sk epoch [97, 0]) = some sk ∨
      Coincides [97] [97, 0] := by
  obtain ⟨h, -, h'⟩ := @recoverSecret_messages [97] [97, 0] (by decide) (by decide) (by decide)
  exact ⟨h, h'⟩

end Rln

end NovaChannel
