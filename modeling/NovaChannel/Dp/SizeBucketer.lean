import Mathlib
import NovaChannel.Wire

/-!
# Padding to size buckets

`SizeBucketer` pads a plaintext to the least of a fixed set of sizes, with its length in front, so
that the length of a ciphertext shows the bucket and nothing else.  A size is a `usize` of 64 bits,
and a `Vec` of bytes holds at most `isize::MAX`.

* `SizeBucketer.mem_buckets` : whatever the order and the repetitions of the given sizes, the
  buckets are those that hold a length prefix, in increasing order;
* `powerOfTwoBuckets_isSome` : when the conventional sizes can be used;
* `pad_eq_ok`, `unpad_eq_ok` : what `pad` returns, and exactly what `unpad` accepts;
* `pad_hides` : when padding succeeds and when it panics, that `unpad` undoes it, and that **two
  padded lengths differ exactly when a bucket separates the two plaintexts**.
-/

namespace NovaChannel

namespace Dp

open Wire

/-- The length prefix. -/
def lengthPrefixLen : ℕ := 4

inductive PaddingError
  | messageTooLargeForAnyBucket
  | malformed
  deriving DecidableEq, Repr

/-- A `usize` of 64 bits. -/
abbrev Usize := Fin (2 ^ 64)

/-- `isize::MAX`: the largest capacity of a `Vec` of bytes. -/
def isizeMax : ℕ := 2 ^ 63 - 1

/-- `checked_add` on a `usize`. -/
def checkedAdd (a b : ℕ) : Option ℕ := if a + b < 2 ^ 64 then some (a + b) else none

/-- The bucket sizes: at least one, each holds a length prefix, and they increase. -/
structure SizeBucketer where
  buckets : List Usize
  nonempty : buckets ≠ []
  holdsPrefix : ∀ b ∈ buckets, lengthPrefixLen ≤ b.val
  increasing : buckets.Pairwise (· < ·)

namespace SizeBucketer

/-- The sizes that `new` keeps: those that hold a prefix, sorted, without repetitions. -/
def usable (bucketSizes : List Usize) : List Usize :=
  ((bucketSizes.filter (lengthPrefixLen ≤ ·.val)).mergeSort (· ≤ ·)).destutter (· ≠ ·)

theorem pairwise_sorted (bucketSizes : List Usize) :
    ((bucketSizes.filter (lengthPrefixLen ≤ ·.val)).mergeSort (· ≤ ·)).Pairwise (· ≤ ·) := by
  have h := @List.pairwise_mergeSort _ (fun a b : Usize => decide (a ≤ b))
    (fun a b c hab hbc => by
      rw [decide_eq_true_iff] at hab hbc ⊢
      exact hab.trans hbc)
    (fun a b => by
      rw [Bool.or_eq_true, decide_eq_true_iff, decide_eq_true_iff]
      exact le_total a b)
    (bucketSizes.filter (lengthPrefixLen ≤ ·.val))
  simpa using h

theorem mem_usable {bucketSizes : List Usize} {b : Usize} :
    b ∈ usable bucketSizes ↔ b ∈ bucketSizes ∧ lengthPrefixLen ≤ b.val := by
  rw [usable, (pairwise_sorted bucketSizes).destutter_eq_dedup, List.mem_dedup, List.mem_mergeSort,
    List.mem_filter, decide_eq_true_iff]

theorem pairwise_usable (bucketSizes : List Usize) : (usable bucketSizes).Pairwise (· < ·) := by
  have hsorted := pairwise_sorted bucketSizes
  have hle : (usable bucketSizes).Pairwise (· ≤ ·) :=
    hsorted.sublist (List.destutter_sublist _ _)
  have hne : (usable bucketSizes).Pairwise (· ≠ ·) := by
    rw [usable, hsorted.destutter_eq_dedup]
    exact List.nodup_dedup _
  exact hle.imp₂ (fun _ _ hab hne => lt_of_le_of_ne hab hne) hne

/-- `none` where the source panics: no usable bucket remains. -/
def new (bucketSizes : List Usize) : Option SizeBucketer :=
  if h : usable bucketSizes = [] then none
  else some
    { buckets := usable bucketSizes
      nonempty := h
      holdsPrefix := fun _ hb => (mem_usable.1 hb).2
      increasing := pairwise_usable bucketSizes }

/-- `1usize << k`.  `none` where the shift overflows. -/
def shl (k : ℕ) : Option Usize :=
  if h : k < 64 then some ⟨2 ^ k, Nat.pow_lt_pow_right (by decide) h⟩ else none

/-- `none` where the source panics: no size is given, or one is too large for a `usize`. -/
def powerOfTwoBuckets (minLog2 maxLog2 : ℕ) : Option SizeBucketer :=
  if minLog2 ≤ maxLog2 then
    ((List.range' minLog2 (maxLog2 + 1 - minLog2)).mapM shl).bind new
  else none

/-- The padded plaintext: its length, itself, and zeros up to the bucket. -/
def fill (bucket : ℕ) (plaintext : Bytes) : Bytes :=
  (beBytes lengthPrefixLen plaintext.length ++ plaintext).rightpad bucket 0

/-- `pad`.  `none` where `Vec::with_capacity` panics. -/
def pad (s : SizeBucketer) (plaintext : Bytes) : Option (Except PaddingError Bytes) :=
  if 2 ^ 32 - 1 < plaintext.length then some (.error .messageTooLargeForAnyBucket)
  else
    match checkedAdd plaintext.length lengthPrefixLen with
    | none => some (.error .messageTooLargeForAnyBucket)
    | some needed =>
      match s.buckets.find? (needed ≤ ·.val) with
      | none => some (.error .messageTooLargeForAnyBucket)
      | some bucket =>
        if bucket.val ≤ isizeMax then some (.ok (fill bucket plaintext)) else none

/-- `unpad`: it does not look at the buckets. -/
def unpad (_ : SizeBucketer) (padded : Bytes) : Except PaddingError Bytes :=
  if padded.length < lengthPrefixLen then .error .malformed
  else
    match checkedAdd lengthPrefixLen (fromBe (padded.take lengthPrefixLen)) with
    | none => .error .malformed
    | some stop =>
      if padded.length < stop then .error .malformed
      else .ok ((padded.take stop).drop lengthPrefixLen)

/-- The bucket of a length: the least that holds it and its prefix. -/
def bucketOf (s : SizeBucketer) (length : ℕ) : Option Usize :=
  s.buckets.find? (length + lengthPrefixLen ≤ ·.val)

theorem new_eq_some {bucketSizes : List Usize} {s : SizeBucketer} (h : new bucketSizes = some s) :
    s.buckets = usable bucketSizes := by
  unfold new at h
  split at h
  · cases h
  · cases h
    rfl

/-- `new` returns exactly when some size holds a length prefix. -/
theorem new_isSome {bucketSizes : List Usize} :
    (new bucketSizes).isSome ↔ ∃ b ∈ bucketSizes, lengthPrefixLen ≤ b.val := by
  unfold new
  split
  · rename_i hempty
    simp only [Option.isSome_none, Bool.false_eq_true, false_iff]
    rintro ⟨b, hb⟩
    have hmem : b ∈ usable bucketSizes := mem_usable.2 hb
    rw [hempty] at hmem
    cases hmem
  · rename_i hne
    obtain ⟨b, hb⟩ := List.exists_mem_of_ne_nil _ hne
    exact iff_of_true rfl ⟨b, mem_usable.1 hb⟩

/-- **The buckets are the given sizes that hold a length prefix.** -/
theorem mem_buckets {bucketSizes : List Usize} {s : SizeBucketer} (h : new bucketSizes = some s)
    {b : Usize} : b ∈ s.buckets ↔ b ∈ bucketSizes ∧ lengthPrefixLen ≤ b.val := by
  rw [new_eq_some h, mem_usable]

/-- In an increasing list, the first number that is large enough is the least one. -/
theorem find?_eq_some_least {sizes : List Usize} (h : sizes.Pairwise (· < ·)) {n : ℕ} {b : Usize} :
    sizes.find? (n ≤ ·.val) = some b ↔
      b ∈ sizes ∧ n ≤ b.val ∧ ∀ b' ∈ sizes, n ≤ b'.val → b ≤ b' := by
  induction sizes with
  | nil => simp
  | cons a sizes ih =>
    obtain ⟨ha, htail⟩ := List.pairwise_cons.1 h
    by_cases hn : n ≤ a.val
    · rw [List.find?_cons_of_pos (by simpa using hn), Option.some.injEq]
      constructor
      · rintro rfl
        refine ⟨List.mem_cons_self, hn, fun b' hb' _ => ?_⟩
        rcases List.mem_cons.1 hb' with rfl | hb'
        · exact le_rfl
        · exact (ha b' hb').le
      · rintro ⟨hb, -, hleast⟩
        have hle := hleast a List.mem_cons_self hn
        rcases List.mem_cons.1 hb with rfl | hb
        · rfl
        · exact absurd (ha b hb) (not_lt.2 hle)
    · rw [List.find?_cons_of_neg (by simpa using hn), ih htail]
      simp only [List.mem_cons, forall_eq_or_imp, hn, false_implies, true_and]
      constructor
      · rintro ⟨hb, hfits, hleast⟩
        exact ⟨.inr hb, hfits, hleast⟩
      · rintro ⟨rfl | hb, hfits, hleast⟩
        · exact absurd hfits hn
        · exact ⟨hb, hfits, hleast⟩

/-- The shifts that do not overflow are the powers of two. -/
theorem mapM_shl {ks : List ℕ} {sizes : List Usize} :
    ks.mapM shl = some sizes ↔ sizes.map Fin.val = ks.map (2 ^ ·) := by
  induction ks generalizing sizes with
  | nil => cases sizes <;> simp
  | cons k ks ih =>
    have hshl : ∀ b : Usize, shl k = some b ↔ b.val = 2 ^ k := by
      intro b
      unfold shl
      split
      · rw [Option.some.injEq, Fin.ext_iff, eq_comm]
      · rename_i hk
        have hle : 2 ^ 64 ≤ 2 ^ k := Nat.pow_le_pow_right (by decide) (not_lt.1 hk)
        simp only [reduceCtorEq, false_iff]
        exact fun heq => absurd b.isLt (by omega)
    cases sizes with
    | nil => simp [Option.bind_eq_some_iff]
    | cons b sizes =>
      simp only [List.mapM_cons, bind, Option.bind_eq_some_iff, hshl, ih, pure, Option.some.injEq,
        List.cons.injEq, List.map_cons]
      constructor
      · rintro ⟨b', hb', sizes', hsizes', rfl, rfl⟩
        exact ⟨hb', hsizes'⟩
      · rintro ⟨hb, hsizes⟩
        exact ⟨b, hb, sizes, hsizes, rfl, rfl⟩

/-- `power_of_two_buckets` returns exactly when its range is not empty and reaches `2 ^ 2`, smaller
powers hold no length prefix, and no more than `2 ^ 63`. -/
theorem powerOfTwoBuckets_isSome {minLog2 maxLog2 : ℕ} :
    (powerOfTwoBuckets minLog2 maxLog2).isSome ↔
      minLog2 ≤ maxLog2 ∧ 2 ≤ maxLog2 ∧ maxLog2 < 64 := by
  have hpow : ∀ k, lengthPrefixLen ≤ 2 ^ k ↔ 2 ≤ k := fun k =>
    Nat.pow_le_pow_iff_right (a := 2) (n := 2) (by decide)
  unfold powerOfTwoBuckets
  by_cases hle : minLog2 ≤ maxLog2
  · rw [if_pos hle]
    constructor
    · intro h
      obtain ⟨s, hs⟩ := Option.isSome_iff_exists.1 h
      obtain ⟨sizes, hmap, hnew⟩ := Option.bind_eq_some_iff.1 hs
      have hsizes : ∀ n, (∃ b ∈ sizes, b.val = n) ↔
          ∃ k, (minLog2 ≤ k ∧ k ≤ maxLog2) ∧ 2 ^ k = n := by
        intro n
        rw [← List.mem_map, mapM_shl.1 hmap]
        simp only [List.mem_map, List.mem_range'_1]
        exact exists_congr fun k => and_congr_left fun _ => by omega
      obtain ⟨b, hb, hfits⟩ := new_isSome.1 (Option.isSome_iff_exists.2 ⟨s, hnew⟩)
      obtain ⟨k, hk, hbk⟩ := (hsizes _).1 ⟨b, hb, rfl⟩
      rw [← hbk, hpow] at hfits
      obtain ⟨c, -, hc⟩ := (hsizes (2 ^ maxLog2)).2 ⟨maxLog2, ⟨hle, le_rfl⟩, rfl⟩
      have hlt : 2 ^ maxLog2 < 2 ^ 64 := hc ▸ c.isLt
      exact ⟨hle, by omega, (Nat.pow_lt_pow_iff_right (by decide)).1 hlt⟩
    · rintro ⟨-, htwo, hmax⟩
      -- every power of the range is a size
      let sizes := (List.range' minLog2 (maxLog2 + 1 - minLog2)).map fun k =>
        Fin.ofNat (2 ^ 64) (2 ^ k)
      have hval : ∀ k, k ≤ maxLog2 → (Fin.ofNat (2 ^ 64) (2 ^ k)).val = 2 ^ k := fun k hk =>
        Nat.mod_eq_of_lt (Nat.pow_lt_pow_right (by decide) (by omega))
      have hmap : (List.range' minLog2 (maxLog2 + 1 - minLog2)).mapM shl = some sizes := by
        rw [mapM_shl, List.map_map]
        refine List.map_congr_left fun k hk => hval k ?_
        rw [List.mem_range'_1] at hk
        omega
      rw [hmap, Option.bind_some, new_isSome]
      refine ⟨_, List.mem_map.2 ⟨maxLog2, ?_, rfl⟩, ?_⟩
      · rw [List.mem_range'_1]
        omega
      · rw [hval maxLog2 le_rfl, hpow]
        exact htwo
  · rw [if_neg hle]
    simp [hle]

/-- The bucket of a length is the least one that fits. -/
theorem bucketOf_eq_some {s : SizeBucketer} {length : ℕ} {b : Usize} :
    s.bucketOf length = some b ↔
      b ∈ s.buckets ∧ length + lengthPrefixLen ≤ b.val ∧
        ∀ b' ∈ s.buckets, length + lengthPrefixLen ≤ b'.val → b ≤ b' :=
  find?_eq_some_least s.increasing

theorem length_fill {bucket : ℕ} {plaintext : Bytes}
    (h : plaintext.length + lengthPrefixLen ≤ bucket) :
    (fill bucket plaintext).length = bucket := by
  rw [fill, List.length_rightpad, List.length_append, length_beBytes]
  omega

/-- The additions of `pad` and `unpad` do not overflow. -/
theorem checkedAdd_eq {length : ℕ} (h : length < 2 ^ 32) :
    checkedAdd lengthPrefixLen length = some (lengthPrefixLen + length) := by
  unfold checkedAdd lengthPrefixLen
  exact if_pos (by omega)

/-- What `pad` does: the addition of the prefix never overflows. -/
theorem pad_eq (s : SizeBucketer) (plaintext : Bytes) :
    s.pad plaintext =
      if 2 ^ 32 ≤ plaintext.length then some (.error .messageTooLargeForAnyBucket)
      else
        match s.bucketOf plaintext.length with
        | none => some (.error .messageTooLargeForAnyBucket)
        | some bucket =>
          if bucket.val ≤ isizeMax then some (.ok (fill bucket plaintext)) else none := by
  unfold pad bucketOf
  by_cases hlong : 2 ^ 32 ≤ plaintext.length
  · rw [if_pos hlong, if_pos (by omega)]
  · have hadd : checkedAdd plaintext.length lengthPrefixLen =
        some (plaintext.length + lengthPrefixLen) := by
      rw [← Nat.add_comm lengthPrefixLen, ← checkedAdd_eq (not_le.1 hlong), checkedAdd, checkedAdd,
        Nat.add_comm]
    rw [if_neg hlong, if_neg (by omega), hadd]

/-- What `pad` returns. -/
theorem pad_eq_ok {s : SizeBucketer} {plaintext padded : Bytes} :
    s.pad plaintext = some (.ok padded) ↔
      plaintext.length < 2 ^ 32 ∧ ∃ bucket, s.bucketOf plaintext.length = some bucket ∧
        bucket.val ≤ isizeMax ∧ padded = fill bucket plaintext := by
  rw [pad_eq]
  by_cases hlong : 2 ^ 32 ≤ plaintext.length
  · rw [if_pos hlong]
    exact iff_of_false (by simp) fun h => absurd h.1 (not_lt.2 hlong)
  · rw [if_neg hlong]
    cases hbucket : s.bucketOf plaintext.length with
    | none => simp
    | some bucket =>
      simp only [Option.some.injEq, exists_eq_left', not_le.1 hlong, true_and]
      split
      · rename_i hcapacity
        simp [hcapacity, eq_comm]
      · rename_i hcapacity
        simp [hcapacity]

/-- When `pad` panics. -/
theorem pad_eq_none {s : SizeBucketer} {plaintext : Bytes} :
    s.pad plaintext = none ↔
      plaintext.length < 2 ^ 32 ∧
        ∃ bucket, s.bucketOf plaintext.length = some bucket ∧ isizeMax < bucket.val := by
  rw [pad_eq]
  by_cases hlong : 2 ^ 32 ≤ plaintext.length
  · rw [if_pos hlong]
    exact iff_of_false (by simp) fun h => absurd h.1 (not_lt.2 hlong)
  · rw [if_neg hlong]
    cases hbucket : s.bucketOf plaintext.length with
    | none => simp
    | some bucket =>
      simp only [Option.some.injEq, exists_eq_left', not_le.1 hlong, true_and]
      split
      · rename_i hcapacity
        simp [hcapacity]
      · rename_i hcapacity
        simp [not_le.1 hcapacity]

/-- A list is its first `m` elements, the next `n`, and the rest. -/
theorem take_append_slice_append_drop (bytes : Bytes) (m n : ℕ) :
    bytes.take m ++ (bytes.take (m + n)).drop m ++ bytes.drop (m + n) = bytes := by
  have htake : bytes.take m = (bytes.take (m + n)).take m := by
    rw [List.take_take, Nat.min_eq_left (Nat.le_add_right m n)]
  rw [htake, List.take_append_drop, List.take_append_drop]

/-- **What `unpad` accepts**: a length, that many bytes, and then anything. -/
theorem unpad_eq_ok {s : SizeBucketer} {padded plaintext : Bytes} :
    s.unpad padded = .ok plaintext ↔
      plaintext.length < 2 ^ 32 ∧
        ∃ rest, padded = beBytes lengthPrefixLen plaintext.length ++ plaintext ++ rest := by
  unfold unpad
  constructor
  · intro h
    split at h
    · cases h
    · rename_i hlong
      have htake : (padded.take lengthPrefixLen).length = lengthPrefixLen := by
        rw [List.length_take]
        omega
      have hlt : fromBe (padded.take lengthPrefixLen) < 2 ^ 32 := by
        have hlt := fromBe_lt (padded.take lengthPrefixLen)
        rw [htake] at hlt
        exact hlt
      have hadd := checkedAdd_eq hlt
      rw [hadd] at h
      simp only at h
      split at h
      · cases h
      · rename_i hstop
        obtain rfl := Except.ok.inj h
        have hlen : ((padded.take (lengthPrefixLen + fromBe (padded.take lengthPrefixLen))).drop
            lengthPrefixLen).length = fromBe (padded.take lengthPrefixLen) := by
          rw [List.length_drop, List.length_take]
          omega
        refine ⟨by rwa [hlen], padded.drop (lengthPrefixLen + fromBe (padded.take lengthPrefixLen)),
          ?_⟩
        rw [hlen, beBytes_fromBe_of_length htake]
        exact (take_append_slice_append_drop padded _ _).symm
  · rintro ⟨hshort, rest, rfl⟩
    have hprefix : (beBytes lengthPrefixLen plaintext.length ++ plaintext ++ rest).take
        lengthPrefixLen = beBytes lengthPrefixLen plaintext.length := by
      rw [List.append_assoc]
      exact List.take_left' (length_beBytes _ _)
    have hfrom : fromBe (beBytes lengthPrefixLen plaintext.length) = plaintext.length :=
      fromBe_beBytes hshort
    have hlen : (beBytes lengthPrefixLen plaintext.length ++ plaintext ++ rest).length =
        lengthPrefixLen + plaintext.length + rest.length := by
      simp only [List.length_append, length_beBytes]
    have hstop : (beBytes lengthPrefixLen plaintext.length ++ plaintext).length =
        lengthPrefixLen + plaintext.length := by
      rw [List.length_append, length_beBytes]
    rw [if_neg (by omega), hprefix, hfrom, checkedAdd_eq hshort]
    simp only
    rw [if_neg (by omega), List.take_left' hstop, List.drop_left' (length_beBytes _ _)]

/-- The bucket of a length is the least of the given sizes that fits. -/
theorem bucketOf_eq_some_iff {bucketSizes : List Usize} {s : SizeBucketer}
    (hnew : new bucketSizes = some s) {length : ℕ} {b : Usize} :
    s.bucketOf length = some b ↔
      b ∈ bucketSizes ∧ length + lengthPrefixLen ≤ b.val ∧
        ∀ b' ∈ bucketSizes, length + lengthPrefixLen ≤ b'.val → b ≤ b' := by
  have hmem : ∀ b : Usize, length + lengthPrefixLen ≤ b.val →
      (b ∈ s.buckets ↔ b ∈ bucketSizes) := fun b hfits =>
    (mem_buckets hnew).trans (and_iff_left ((Nat.le_add_left _ _).trans hfits))
  rw [bucketOf_eq_some]
  constructor
  · rintro ⟨hb, hfits, hleast⟩
    exact ⟨(hmem b hfits).1 hb, hfits, fun b' hb' hfits' =>
      hleast b' ((hmem b' hfits').2 hb') hfits'⟩
  · rintro ⟨hb, hfits, hleast⟩
    exact ⟨(hmem b hfits).2 hb, hfits, fun b' hb' hfits' =>
      hleast b' ((hmem b' hfits').1 hb') hfits'⟩

/-- A length has a bucket exactly when some given size fits. -/
theorem exists_bucketOf {bucketSizes : List Usize} {s : SizeBucketer}
    (hnew : new bucketSizes = some s) {length : ℕ} :
    (∃ b, s.bucketOf length = some b) ↔
      ∃ b ∈ bucketSizes, length + lengthPrefixLen ≤ b.val := by
  constructor
  · rintro ⟨b, hb⟩
    obtain ⟨hmem, hfits, -⟩ := (bucketOf_eq_some_iff hnew).1 hb
    exact ⟨b, hmem, hfits⟩
  · rintro ⟨b, hb, hfits⟩
    have hmem : b ∈ s.buckets := (mem_buckets hnew).2 ⟨hb, (Nat.le_add_left _ _).trans hfits⟩
    cases hbucket : s.bucketOf length with
    | none => exact absurd hfits (by simpa using List.find?_eq_none.1 hbucket b hmem)
    | some bucket => exact ⟨bucket, rfl⟩

/-- What a padded plaintext is: its length is the least of the given sizes that fits. -/
theorem length_padded {bucketSizes : List Usize} {s : SizeBucketer}
    (hnew : new bucketSizes = some s) {m padded : Bytes} (h : s.pad m = some (.ok padded)) :
    ∃ b ∈ bucketSizes, padded.length = b.val ∧ m.length + lengthPrefixLen ≤ b.val ∧
      b.val ≤ isizeMax ∧ ∀ b' ∈ bucketSizes, m.length + lengthPrefixLen ≤ b'.val → b ≤ b' := by
  obtain ⟨-, b, hbucket, hcapacity, rfl⟩ := pad_eq_ok.1 h
  obtain ⟨hmem, hfits, hleast⟩ := (bucketOf_eq_some_iff hnew).1 hbucket
  exact ⟨b, hmem, length_fill hfits, hfits, hcapacity, hleast⟩

theorem unpad_pad {s : SizeBucketer} {m padded : Bytes} (h : s.pad m = some (.ok padded)) :
    s.unpad padded = .ok m := by
  obtain ⟨hshort, bucket, -, -, rfl⟩ := pad_eq_ok.1 h
  exact unpad_eq_ok.2 ⟨hshort, _, rfl⟩

/-- `pad` succeeds exactly when the length fits in 32 bits and some size that a `Vec` can have holds
it and its prefix. -/
theorem exists_pad {bucketSizes : List Usize} {s : SizeBucketer} (hnew : new bucketSizes = some s)
    {m : Bytes} :
    (∃ padded, s.pad m = some (.ok padded)) ↔
      m.length < 2 ^ 32 ∧
        ∃ b ∈ bucketSizes, m.length + lengthPrefixLen ≤ b.val ∧ b.val ≤ isizeMax := by
  constructor
  · rintro ⟨padded, h⟩
    obtain ⟨b, hmem, -, hfits, hcapacity, -⟩ := length_padded hnew h
    exact ⟨(pad_eq_ok.1 h).1, b, hmem, hfits, hcapacity⟩
  · rintro ⟨hshort, b, hb, hfits, hcapacity⟩
    obtain ⟨bucket, hbucket⟩ := (exists_bucketOf hnew).2 ⟨b, hb, hfits⟩
    -- the least size that fits is no larger
    have hle := ((bucketOf_eq_some_iff hnew).1 hbucket).2.2 b hb hfits
    exact ⟨_, pad_eq_ok.2 ⟨hshort, bucket, hbucket, hcapacity.trans' hle, rfl⟩⟩

/-- `pad` panics exactly when some size fits, and none that a `Vec` can have. -/
theorem pad_eq_none_iff {bucketSizes : List Usize} {s : SizeBucketer}
    (hnew : new bucketSizes = some s) {m : Bytes} :
    s.pad m = none ↔
      m.length < 2 ^ 32 ∧ (∃ b ∈ bucketSizes, m.length + lengthPrefixLen ≤ b.val) ∧
        ∀ b ∈ bucketSizes, m.length + lengthPrefixLen ≤ b.val → isizeMax < b.val := by
  rw [pad_eq_none]
  refine and_congr_right fun _ => ?_
  constructor
  · rintro ⟨bucket, hbucket, hcapacity⟩
    refine ⟨(exists_bucketOf hnew).1 ⟨bucket, hbucket⟩, fun b hb hfits => ?_⟩
    exact hcapacity.trans_le (((bucketOf_eq_some_iff hnew).1 hbucket).2.2 b hb hfits)
  · rintro ⟨hfits, hlarge⟩
    obtain ⟨bucket, hbucket⟩ := (exists_bucketOf hnew).2 hfits
    obtain ⟨hmem, hbfits, -⟩ := (bucketOf_eq_some_iff hnew).1 hbucket
    exact ⟨bucket, hbucket, hlarge bucket hmem hbfits⟩

/-- **Padding, for any given sizes and any two plaintexts**: it succeeds exactly when the length
fits in 32 bits and some size of at most `isize::MAX` holds it and its prefix, and panics exactly
when only larger sizes do; the result has the least size that fits and `unpad` undoes it; and two padded
lengths are equal exactly when no size tells the plaintexts apart. -/
theorem pad_hides {bucketSizes : List Usize} {s : SizeBucketer} (hnew : new bucketSizes = some s)
    (m m' : Bytes) :
    ((∃ padded, s.pad m = some (.ok padded)) ↔ m.length < 2 ^ 32 ∧
        ∃ b ∈ bucketSizes, m.length + lengthPrefixLen ≤ b.val ∧ b.val ≤ isizeMax) ∧
      (s.pad m = none ↔ m.length < 2 ^ 32 ∧
        (∃ b ∈ bucketSizes, m.length + lengthPrefixLen ≤ b.val) ∧
        ∀ b ∈ bucketSizes, m.length + lengthPrefixLen ≤ b.val → isizeMax < b.val) ∧
      (∀ padded, s.pad m = some (.ok padded) → s.unpad padded = .ok m ∧
        ∃ b ∈ bucketSizes, padded.length = b.val ∧ m.length + lengthPrefixLen ≤ b.val ∧
          b.val ≤ isizeMax ∧ ∀ b' ∈ bucketSizes, m.length + lengthPrefixLen ≤ b'.val → b ≤ b') ∧
      (∀ padded padded', s.pad m = some (.ok padded) → s.pad m' = some (.ok padded') →
        (padded.length = padded'.length ↔ ∀ b ∈ bucketSizes,
          (m.length + lengthPrefixLen ≤ b.val ↔ m'.length + lengthPrefixLen ≤ b.val))) := by
  refine ⟨exists_pad hnew, pad_eq_none_iff hnew,
    fun padded h => ⟨unpad_pad h, length_padded hnew h⟩, ?_⟩
  intro padded padded' h h'
  obtain ⟨c, hmem, hlen, hfits, -, hleast⟩ := length_padded hnew h
  obtain ⟨c', hmem', hlen', hfits', -, hleast'⟩ := length_padded hnew h'
  rw [hlen, hlen']
  constructor
  · intro heq b hb
    constructor
    · intro hb'
      exact hfits'.trans (heq ▸ hleast b hb hb')
    · intro hb'
      exact hfits.trans (heq ▸ hleast' b hb hb')
  · intro hsame
    have hle : c ≤ c' := hleast _ hmem' ((hsame _ hmem').2 hfits')
    have hge : c' ≤ c := hleast' _ hmem ((hsame _ hmem).1 hfits)
    exact congrArg Fin.val (le_antisymm hle hge)

/-- The sizes 64, 16, 2, 16 and `2 ^ 63`: three bytes and twelve take the bucket of 16, thirteen the
one of 64, and with sixty-one `pad` panics. -/
theorem pad_hides_sample :
    ∃ s, new [64, 16, 2, 16, 9223372036854775808] = some s ∧
      (∃ p p', s.pad [1, 2, 3] = some (.ok p) ∧ s.pad (List.replicate 12 7) = some (.ok p') ∧
        p.length = p'.length ∧ s.unpad p = .ok [1, 2, 3]) ∧
      (∀ p p', s.pad (List.replicate 12 7) = some (.ok p) →
        s.pad (List.replicate 13 7) = some (.ok p') → p.length ≠ p'.length) ∧
      s.pad (List.replicate 61 7) = none := by
  have hnew : (new [64, 16, 2, 16, 9223372036854775808]).isSome :=
    new_isSome.2 ⟨64, by decide, by decide⟩
  obtain ⟨s, hnew⟩ := Option.isSome_iff_exists.1 hnew
  refine ⟨s, hnew, ?_, ?_, ?_⟩
  · obtain ⟨hfits, -, hround, hsame⟩ := pad_hides hnew [1, 2, 3] (List.replicate 12 7)
    obtain ⟨hfits', -⟩ := pad_hides hnew (List.replicate 12 7) []
    obtain ⟨p, hp⟩ := hfits.2 ⟨by decide, 64, by decide, by decide, by decide⟩
    obtain ⟨p', hp'⟩ := hfits'.2 ⟨by decide, 64, by decide, by decide, by decide⟩
    exact ⟨p, p', hp, hp', (hsame p p' hp hp').2 (by simp [lengthPrefixLen]), (hround p hp).1⟩
  · intro p p' hp hp' hlen
    obtain ⟨-, -, -, hsame⟩ := pad_hides hnew (List.replicate 12 7) (List.replicate 13 7)
    have hapart := (hsame p p' hp hp').1 hlen 16 (by decide)
    exact absurd hapart (by decide)
  · refine (pad_hides hnew (List.replicate 61 7) []).2.1.2 ⟨by decide, ?_, ?_⟩
    · exact ⟨9223372036854775808, by decide, by decide⟩
    · simp [lengthPrefixLen, isizeMax]

end SizeBucketer

end Dp

end NovaChannel
