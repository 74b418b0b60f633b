import Mathlib
import NovaChannel.Ratchet.Chunks
import NovaChannel.SymbolicBytes

/-!
# Enough shards

`Erasure.decode` gives back what `Erasure.encode` cut up, whichever shards arrived, as long as
there are enough of them (`Erasure.decode_arrived`), and cut to its length that is the payload
(`Erasure.take_concat_dataShards`).

`LawfulByteString` says what byte strings are for this: windows put together again.  Lists of
bytes have these laws (`LawfulByteString.ofBytes`), and so have terms.
-/

namespace NovaChannel

open ByteString

/-- Byte strings are sequences of bytes: a window has its length, lengths add up, and the
consecutive windows of a string, put together again, begin with the string. -/
class LawfulByteString (β : Type) [ByteString β] : Prop where
  len_window (start n : ℕ) (b : β) : len (window start n b) = n
  len_concat (bs : List β) : len (concat bs) = (bs.map len).sum
  take_concat_window {n count : ℕ} (b : β) : 0 < count → len b ≤ count * n →
    take (len b) (concat ((List.range count).map fun i => window (i * n) n b)) = b

/-- What the third-party code documents: recovery shards as long as the data shards, and any
`originalCount` of all the shards restore the missing data shards. -/
class RestoringReedSolomon (β : Type) [ByteString β] [ReedSolomon β] : Prop
    extends LawfulReedSolomon β where
  encode_shape {originalCount recoveryCount n : ℕ} {data parity : List β} :
    ReedSolomon.encode originalCount recoveryCount data = some parity →
    0 < originalCount → data.length = originalCount → (∀ shard ∈ data, len shard = n) →
    parity.length = recoveryCount ∧ ∀ shard ∈ parity, len shard = n
  decode_restores {originalCount recoveryCount n : ℕ} {data parity : List β}
      {original recovery : List (ℕ × β)} :
    ReedSolomon.encode originalCount recoveryCount data = some parity →
    0 < originalCount → data.length = originalCount → (∀ shard ∈ data, len shard = n) →
    (original.map Prod.fst).Nodup → (recovery.map Prod.fst).Nodup →
    (∀ e ∈ original, data[e.1]? = some e.2) → (∀ e ∈ recovery, parity[e.1]? = some e.2) →
    original.length < originalCount → originalCount ≤ original.length + recovery.length →
    ∃ restored, ReedSolomon.decode originalCount recoveryCount original recovery = some restored ∧
      ∀ i < originalCount, i ∉ original.map Prod.fst → restored.lookup i = data[i]?

/-! ### Bytes -/

/-- Lists of bytes, with some check of ML-KEM keys and ciphertexts. -/
@[reducible] def ByteString.ofBytes (isMlKemPublic isMlKemCiphertext : List UInt8 → Bool) :
    ByteString (List UInt8) where
  len := List.length
  window start n b := (b.drop start).take n ++ List.replicate (n - (b.drop start).length) 0
  concat := List.flatten
  take := List.take
  isMlKemPublic := isMlKemPublic
  isMlKemCiphertext := isMlKemCiphertext

namespace ByteString

variable (p c : List UInt8 → Bool)

theorem ofBytes_len_window (start n : ℕ) (b : List UInt8) :
    ((ofBytes p c).window start n b).length = n := by
  show (List.take n (b.drop start) ++ List.replicate _ 0).length = n
  simp only [List.length_append, List.length_take, List.length_replicate]
  omega

/-- A byte of a window is the string's, and zero past its end. -/
theorem ofBytes_getElem?_window (start n i : ℕ) (b : List UInt8) (hi : i < n) :
    ((ofBytes p c).window start n b)[i]? = some (b[start + i]?.getD 0) := by
  show (List.take n (b.drop start) ++ List.replicate _ 0)[i]? = _
  simp only [List.getElem?_append, List.length_take, List.length_drop, List.getElem?_take, hi,
    ↓reduceIte, List.getElem?_drop, List.getElem?_replicate]
  by_cases hlt : start + i < b.length
  · rw [if_pos (by omega), List.getElem?_eq_getElem hlt, Option.getD_some]
  · rw [if_neg (by omega), if_pos (by omega), List.getElem?_eq_none (by omega), Option.getD_none]

/-- Two windows side by side are one window. -/
theorem ofBytes_window_append (start m n : ℕ) (b : List UInt8) :
    (ofBytes p c).window start m b ++ (ofBytes p c).window (start + m) n b =
      (ofBytes p c).window start (m + n) b := by
  refine List.ext_getElem? fun i => ?_
  rw [List.getElem?_append, ofBytes_len_window]
  by_cases him : i < m
  · rw [if_pos him, ofBytes_getElem?_window p c _ _ _ _ him,
      ofBytes_getElem?_window p c _ _ _ _ (by omega)]
  · rw [if_neg him]
    by_cases hin : i - m < n
    · rw [ofBytes_getElem?_window p c _ _ _ _ hin, ofBytes_getElem?_window p c _ _ _ _ (by omega),
        show start + m + (i - m) = start + i by omega]
    · rw [List.getElem?_eq_none (by rw [ofBytes_len_window]; omega),
        List.getElem?_eq_none (by rw [ofBytes_len_window]; omega)]

/-- Consecutive windows from the start make up one window. -/
theorem ofBytes_flatten_window (n count : ℕ) (b : List UInt8) :
    ((List.range count).map fun i => (ofBytes p c).window (i * n) n b).flatten =
      (ofBytes p c).window 0 (count * n) b := by
  induction count with
  | zero =>
    rw [Nat.zero_mul]
    exact (List.length_eq_zero_iff.1 (ofBytes_len_window p c 0 0 b)).symm
  | succ count ih =>
    rw [List.range_succ, List.map_append, List.flatten_append, ih, List.map_singleton,
      List.flatten_singleton, Nat.succ_mul]
    simpa using ofBytes_window_append p c 0 (count * n) n b

end ByteString

/-- The laws hold of bytes. -/
theorem LawfulByteString.ofBytes (p c : List UInt8 → Bool) :
    @LawfulByteString (List UInt8) (ByteString.ofBytes p c) := by
  let _ := ByteString.ofBytes p c
  exact
    { len_window := ByteString.ofBytes_len_window p c
      len_concat := fun bs => List.length_flatten
      take_concat_window := by
        intro n count b _ hlen
        have hcat := ByteString.ofBytes_flatten_window p c n count b
        have hle : b.length ≤ count * n := hlen
        show (List.flatten _).take b.length = b
        rw [hcat]
        refine List.ext_getElem? fun i => ?_
        rw [List.getElem?_take]
        split_ifs with hi
        · rw [ByteString.ofBytes_getElem?_window p c _ _ _ _ (by omega), Nat.zero_add,
            List.getElem?_eq_getElem hi, Option.getD_some]
        · rw [List.getElem?_eq_none (by omega)] }

namespace Term

variable {ν : Type} [DecidableEq ν]

omit [DecidableEq ν] in
theorem len_list (ts : List (Term ν)) : len (list ts) = (ts.map len).sum := by
  induction ts with
  | nil => rfl
  | cons t ts ih => rw [list, len, ih, List.map_cons, List.sum_cons]

/-- The laws hold of terms. -/
instance : LawfulByteString (Term ν) where
  len_window := len_window
  len_concat ts := by
    show len (concat ts) = (ts.map len).sum
    unfold concat
    split
    · rename_i n p rest
      split_ifs with hw
      · rw [hw]
        simp [windows, len, window, fnLen, Function.comp_def]
      · exact len_list _
    · exact len_list _
  take_concat_window {n count} t hcount _ := by
    show take (len t) (concat (windows t n count)) = t
    rw [concat_windows t n hcount, take_pad]

end Term

/-! ### What arrived -/

namespace Erasure

variable {β : Type}

/-- The slots of the shards, with those filled whose numbers have arrived. -/
def arrived (shards : List β) (numbers : Finset ℕ) : List (Option β) :=
  (List.range shards.length).map fun i => if i ∈ numbers then shards[i]? else none

variable {shards : List β} {numbers : Finset ℕ}

@[simp] theorem length_arrived : (arrived shards numbers).length = shards.length := by
  simp [arrived]

theorem getElem?_arrived {i : ℕ} (hi : i < shards.length) :
    (arrived shards numbers)[i]? = some (if i ∈ numbers then shards[i]? else none) := by
  simp [arrived, hi]

theorem arrived_empty (shards : List β) :
    arrived shards ∅ = List.replicate shards.length none := by
  simp [arrived]

/-- One more shard is filed. -/
theorem set_arrived {i : ℕ} (hi : i < shards.length) :
    (arrived shards numbers).set i (some shards[i]) = arrived shards (insert i numbers) := by
  refine List.ext_getElem? fun j => ?_
  rw [List.getElem?_set, length_arrived]
  by_cases hij : i = j
  · subst hij
    rw [if_pos rfl, if_pos hi, getElem?_arrived hi, if_pos (Finset.mem_insert_self i _),
      List.getElem?_eq_getElem hi]
  · rw [if_neg hij]
    by_cases hj : j < shards.length
    · rw [getElem?_arrived hj, getElem?_arrived hj]
      simp only [Finset.mem_insert, Ne.symm hij, false_or]
    · rw [List.getElem?_eq_none (by simpa using hj), List.getElem?_eq_none (by simpa using hj)]

/-- As many slots are filled as different numbers have arrived. -/
theorem count_arrived (hsub : numbers ⊆ Finset.range shards.length) :
    ((arrived shards numbers).filter Option.isSome).length = numbers.card := by
  have hfilled : ∀ i ∈ List.range shards.length,
      (Option.isSome ∘ fun i => if i ∈ numbers then shards[i]? else none) i =
        decide (i ∈ numbers) := by
    intro i hi
    have hlt : i < shards.length := List.mem_range.1 hi
    by_cases hmem : i ∈ numbers <;> simp [hmem, hlt]
  have hset : ((List.range shards.length).filter fun i => i ∈ numbers).toFinset = numbers := by
    ext i
    simp only [List.mem_toFinset, List.mem_filter, List.mem_range, decide_eq_true_eq]
    exact ⟨fun h => h.2, fun h => ⟨Finset.mem_range.1 (hsub h), h⟩⟩
  calc ((arrived shards numbers).filter Option.isSome).length
      = ((List.range shards.length).filter fun i => i ∈ numbers).length := by
        rw [arrived, List.filter_map, List.length_map, List.filter_congr hfilled]
    _ = ((List.range shards.length).filter fun i => i ∈ numbers).toFinset.card :=
        (List.toFinset_card_of_nodup (List.nodup_range.filter _)).symm
    _ = numbers.card := by rw [hset]

/-- What is in a slot is the shard of its number. -/
theorem eq_of_getElem?_arrived {i : ℕ} {shard : β}
    (h : (arrived shards numbers)[i]? = some (some shard)) :
    i < shards.length ∧ i ∈ numbers ∧ shards[i]? = some shard := by
  have hi : i < shards.length := by
    obtain ⟨hlt, -⟩ := List.getElem?_eq_some_iff.1 h
    rwa [length_arrived] at hlt
  rw [getElem?_arrived hi] at h
  split_ifs at h with hmem
  · exact ⟨hi, hmem, Option.some.inj h⟩
  · cases Option.some.inj h

/-! ### What is given to the code -/

theorem mem_present {slots : List (Option β)} {e : ℕ × β} :
    e ∈ present slots ↔ slots[e.1]? = some (some e.2) := by
  obtain ⟨i, shard⟩ := e
  simp only [present, List.mem_filterMap, Option.map_eq_some_iff, Prod.mk.injEq]
  constructor
  · rintro ⟨⟨slot, j⟩, hmem, shard', rfl, rfl, rfl⟩
    exact List.mem_zipIdx_iff_getElem?.1 hmem
  · intro h
    exact ⟨(some shard, i), List.mem_zipIdx_iff_getElem?.2 h, shard, rfl, rfl, rfl⟩

theorem map_fst_present (slots : List (Option β)) :
    (present slots).map Prod.fst = (slots.zipIdx.filter (·.1.isSome)).map Prod.snd := by
  rw [present]
  generalize slots.zipIdx = l
  induction l with
  | nil => rfl
  | cons e l ih =>
    obtain ⟨_ | shard, i⟩ := e
    · simpa using ih
    · simpa using ih

/-- Every number is given once. -/
theorem nodup_present (slots : List (Option β)) : ((present slots).map Prod.fst).Nodup := by
  rw [map_fst_present]
  refine List.Nodup.sublist (List.filter_sublist.map Prod.snd) ?_
  rw [List.zipIdx_map_snd]
  exact List.nodup_range'

theorem length_present (slots : List (Option β)) :
    (present slots).length = (slots.filter Option.isSome).length := by
  have hfst : ∀ (l : List (Option β)) n, (l.zipIdx n |>.filter (·.1.isSome)).length =
      (l.filter Option.isSome).length := by
    intro l
    induction l with
    | nil => exact fun _ => rfl
    | cons slot l ih =>
      intro n
      cases slot with
      | none => simpa using ih (n + 1)
      | some shard => simpa using ih (n + 1)
  rw [← List.length_map Prod.fst, map_fst_present, List.length_map, hfst]

/-- The missing shards come from what was restored, the others from their slots. -/
theorem fill_eq_ok {slots : List (Option β)} {restored : List (ℕ × β)} {data : List β}
    (hlen : slots.length = data.length)
    (hfilled : ∀ (i : ℕ) (shard : β), slots[i]? = some (some shard) → data[i]? = some shard)
    (hmissing : ∀ i : ℕ, slots[i]? = some none → restored.lookup i = data[i]?) :
    fill slots restored = .ok data := by
  have hmap : ∀ (l : List (Option β × ℕ)) (f : Option β × ℕ → Result β) (ds : List β),
      l.length = ds.length → (∀ j (h : j < l.length) (h' : j < ds.length), f l[j] = .ok ds[j]) →
      l.mapM f = .ok ds := by
    intro l f
    induction l with
    | nil =>
      intro ds hl _
      rw [List.length_eq_zero_iff.1 hl.symm, List.mapM_nil]
      rfl
    | cons e l ih =>
      intro ds hl hf
      cases ds with
      | nil => cases hl
      | cons d ds =>
        have hhead : f e = .ok d := hf 0 (by simp) (by simp)
        have htail := ih ds (by simpa using hl) fun j h h' =>
          hf (j + 1) (by simpa using h) (by simpa using h')
        rw [List.mapM_cons, hhead, Result.ok_bind, htail]
        rfl
  refine hmap _ _ _ (by simpa using hlen) fun j h h' => ?_
  have hj : j < slots.length := by simpa using h
  rw [List.getElem_zipIdx, Nat.zero_add]
  have hslot : slots[j]? = some slots[j] := List.getElem?_eq_getElem hj
  have hdata : data[j]? = some data[j] := List.getElem?_eq_getElem h'
  cases hcase : slots[j] with
  | some shard =>
    rw [hcase] at hslot
    have heq := (hfilled j shard hslot).symm.trans hdata
    exact congrArg _ (Option.some.inj heq)
  | none =>
    rw [hcase] at hslot
    simp only [hmissing j hslot, hdata]

/-! ### Encoding and decoding -/

theorem checkShardCounts_eq_ok {d p : ℕ} :
    checkShardCounts d p = .ok () ↔ 0 < d ∧ 0 < p ∧ d + p ≤ 255 := by
  unfold checkShardCounts
  split_ifs with hzero
  · constructor
    · intro h
      cases h
    · rintro ⟨hd, hp, -⟩
      omega
  · by_cases hsum : d + p < 2 ^ 64
    · rw [show checkedAdd64 d p = some (d + p) from if_pos hsum]
      dsimp only
      split_ifs with hmax
      · constructor
        · intro h
          cases h
        · rintro ⟨-, -, hle⟩
          omega
      · exact ⟨fun _ => by omega, fun _ => rfl⟩
    · rw [show checkedAdd64 d p = none from if_neg hsum]
      constructor
      · intro h
        cases h
      · rintro ⟨-, -, hle⟩
        omega

/-- The shards hold the payload. -/
theorem le_mul_shardLen {n count : ℕ} (h : 0 < count) : n ≤ count * shardLen n count := by
  have hdiv : n ≤ count * ((n + count - 1) / count) := by
    have hmod := Nat.div_add_mod (n + count - 1) count
    have hlt := Nat.mod_lt (n + count - 1) h
    omega
  have hle : (n + count - 1) / count ≤ shardLen n count := by
    simp only [shardLen]
    split <;> omega
  exact hdiv.trans (Nat.mul_le_mul_left count hle)

variable [ByteString β] {payload : β} {d p : ℕ}

@[simp] theorem length_dataShards : (dataShards payload d).length = d := by
  simp [dataShards]

section Lengths

variable [LawfulByteString β]

theorem len_of_mem_dataShards {shard : β} (h : shard ∈ dataShards payload d) :
    len shard = shardLen (len payload) d := by
  obtain ⟨i, -, rfl⟩ := List.mem_map.1 h
  exact LawfulByteString.len_window _ _ _

/-- The data shards in order, cut to the payload's length, are the payload. -/
theorem take_concat_dataShards (hd : 0 < d) :
    take (len payload) (concat (dataShards payload d)) = payload :=
  LawfulByteString.take_concat_window payload hd (le_mul_shardLen hd)

theorem le_len_concat_dataShards (hd : 0 < d) :
    len payload ≤ len (concat (dataShards payload d)) := by
  have hconst : (dataShards payload d).map len =
      List.replicate d (shardLen (len payload) d) := by
    refine List.eq_replicate_iff.2 ⟨by simp, fun n hn => ?_⟩
    obtain ⟨shard, hshard, rfl⟩ := List.mem_map.1 hn
    exact len_of_mem_dataShards hshard
  rw [LawfulByteString.len_concat, hconst, List.sum_replicate_nat]
  exact le_mul_shardLen hd

end Lengths

variable [ReedSolomon β]

theorem encode_eq_ok {shards : List β × ℕ} (h : encode payload d p = .ok shards) :
    0 < d ∧ 0 < p ∧ d + p ≤ 255 ∧ ∃ parity,
      ReedSolomon.encode d p (dataShards payload d) = some parity ∧
      shards.1 = dataShards payload d ++ parity := by
  obtain ⟨_, hcheck, h⟩ := Result.bind_eq_ok.1 h
  obtain ⟨hd, hp, hmax⟩ := checkShardCounts_eq_ok.1 hcheck
  dsimp only at h
  split at h
  · cases h
  · rename_i parity hparity
    exact ⟨hd, hp, hmax, parity, hparity, by rw [← Except.ok.inj h]⟩

variable [LawfulByteString β] [RestoringReedSolomon β] {shards : List β × ℕ}

/-- All shards have one length. -/
theorem encode_shape (h : encode payload d p = .ok shards) :
    shards.1.length = d + p ∧ ∀ shard ∈ shards.1, len shard = shardLen (len payload) d := by
  obtain ⟨hd, -, -, parity, hparity, hshards⟩ := encode_eq_ok h
  obtain ⟨hlen, hlens⟩ := RestoringReedSolomon.encode_shape hparity hd length_dataShards
    fun _ => len_of_mem_dataShards
  rw [hshards]
  refine ⟨by rw [List.length_append, length_dataShards, hlen], fun shard hshard => ?_⟩
  rcases List.mem_append.1 hshard with hdata | hrec
  · exact len_of_mem_dataShards hdata
  · exact hlens shard hrec

/-- The missing data shards are restored from any shards that are enough. -/
theorem restore_arrived (h : encode payload d p = .ok shards)
    (hsub : numbers ⊆ Finset.range shards.1.length) (hcard : d ≤ numbers.card)
    (hlost : ¬ ((arrived shards.1 numbers).take d).all Option.isSome = true) :
    restore (arrived shards.1 numbers) d p = .ok (concat (dataShards payload d)) := by
  obtain ⟨hd, -, -, parity, hparity, hshards⟩ := encode_eq_ok h
  have hlength := (encode_shape h).1
  have hdata : ∀ i < d, shards.1[i]? = (dataShards payload d)[i]? := fun i hi => by
    rw [hshards, List.getElem?_append_left (by simpa using hi)]
  have htake : ∀ (i : ℕ) (slot : Option β), ((arrived shards.1 numbers).take d)[i]? = some slot →
      i < d ∧ (arrived shards.1 numbers)[i]? = some slot := by
    intro i slot hslot
    rw [List.getElem?_take] at hslot
    split_ifs at hslot with hi
    exact ⟨hi, hslot⟩
  have horiginal : ∀ e ∈ present ((arrived shards.1 numbers).take d),
      (dataShards payload d)[e.1]? = some e.2 := by
    intro e he
    obtain ⟨hi, hslot⟩ := htake _ _ (mem_present.1 he)
    rw [← hdata e.1 hi]
    exact (eq_of_getElem?_arrived hslot).2.2
  have hrecovery : ∀ e ∈ present ((arrived shards.1 numbers).drop d), parity[e.1]? = some e.2 := by
    intro e he
    have hslot := mem_present.1 he
    rw [List.getElem?_drop] at hslot
    have hshard := (eq_of_getElem?_arrived hslot).2.2
    rwa [hshards, List.getElem?_append_right (by simp), length_dataShards,
      Nat.add_sub_cancel_left] at hshard
  have henough : d ≤ (present ((arrived shards.1 numbers).take d)).length +
      (present ((arrived shards.1 numbers).drop d)).length := by
    rw [length_present, length_present, ← List.length_append, ← List.filter_append,
      List.take_append_drop, count_arrived hsub]
    exact hcard
  have hfew : (present ((arrived shards.1 numbers).take d)).length < d := by
    have htaken : ((arrived shards.1 numbers).take d).length = d := by
      rw [List.length_take, length_arrived, hlength]
      omega
    have hlt : ((arrived shards.1 numbers).take d |>.filter Option.isSome).length <
        ((arrived shards.1 numbers).take d).length := by
      rw [List.length_filter_lt_length_iff_exists]
      simpa using hlost
    rw [length_present]
    omega
  obtain ⟨restored, hdecode, hrestored⟩ := RestoringReedSolomon.decode_restores hparity hd
    length_dataShards (fun _ => len_of_mem_dataShards) (nodup_present _) (nodup_present _)
    horiginal hrecovery hfew henough
  have hfill : fill ((arrived shards.1 numbers).take d) restored =
      .ok (dataShards payload d) := by
    refine fill_eq_ok (by simp [hlength]) (fun i shard hslot => ?_) fun i hslot => ?_
    · exact horiginal (i, shard) (mem_present.2 hslot)
    · refine hrestored i (htake i _ hslot).1 fun hmem => ?_
      obtain ⟨⟨j, shard⟩, hshard, rfl⟩ := List.mem_map.1 hmem
      cases (mem_present.1 hshard).symm.trans hslot
  rw [restore, hdecode]
  dsimp only
  rw [hfill]
  rfl

/-- Where no data shard is missing, they are all there. -/
theorem filterMap_take_arrived (h : encode payload d p = .ok shards)
    (hall : ((arrived shards.1 numbers).take d).all Option.isSome = true) :
    ((arrived shards.1 numbers).take d).filterMap id = dataShards payload d := by
  obtain ⟨-, -, -, parity, -, hshards⟩ := encode_eq_ok h
  have hlength := (encode_shape h).1
  have hmap : (arrived shards.1 numbers).take d = (dataShards payload d).map some := by
    refine List.ext_getElem? fun i => ?_
    rw [List.getElem?_take, List.getElem?_map]
    split_ifs with hi
    · have hin : i < ((arrived shards.1 numbers).take d).length := by
        rw [List.length_take, length_arrived]
        omega
      have hsome := List.all_eq_true.1 hall _ (List.getElem_mem hin)
      obtain ⟨shard, hshard⟩ := Option.isSome_iff_exists.1 hsome
      have hslot : (arrived shards.1 numbers)[i]? = some (some shard) := by
        rw [List.getElem_take] at hshard
        rw [← hshard]
        exact List.getElem?_eq_getElem _
      rw [hslot, ← (eq_of_getElem?_arrived hslot).2.2, hshards,
        List.getElem?_append_left (by simpa using hi),
        List.getElem?_eq_getElem (by simpa using hi)]
      rfl
    · rw [List.getElem?_eq_none (by simpa using hi)]
      rfl
  rw [hmap]
  simp

/-- Any shards that are enough decode to the data shards. -/
theorem decode_arrived (h : encode payload d p = .ok shards)
    (hsub : numbers ⊆ Finset.range shards.1.length) (hcard : d ≤ numbers.card) :
    decode (arrived shards.1 numbers) d p = .ok (concat (dataShards payload d)) := by
  obtain ⟨hd, hp, hmax, parity, hparity, hshards⟩ := encode_eq_ok h
  obtain ⟨hlength, hlens⟩ := encode_shape h
  have hlenOf : ∀ shard ∈ (arrived shards.1 numbers).filterMap id,
      len shard = shardLen (len payload) d := by
    intro shard hshard
    obtain ⟨slot, hmem, rfl⟩ := List.mem_filterMap.1 hshard
    obtain ⟨i, hi⟩ := List.mem_iff_getElem?.1 hmem
    exact hlens shard (List.mem_of_getElem? (eq_of_getElem?_arrived hi).2.2)
  have hcount : ((arrived shards.1 numbers).filterMap id).length = numbers.card := by
    rw [← count_arrived hsub]
    generalize arrived shards.1 numbers = slots
    induction slots with
    | nil => rfl
    | cons slot slots ih => cases slot <;> simpa using ih
  rw [decode, checkShardCounts_eq_ok.2 ⟨hd, hp, hmax⟩, Result.ok_bind,
    if_neg (by rw [length_arrived, hlength]; simp), if_neg (by rw [count_arrived hsub]; omega)]
  split
  · rename_i hnone
    rw [hnone, List.length_nil] at hcount
    omega
  · rename_i first others hpresent
    rw [hpresent] at hlenOf
    have hfirst := hlenOf first List.mem_cons_self
    have hsame : ¬ (others.any fun shard => len shard ≠ len first) = true := by
      simp only [List.any_eq_true, decide_eq_true_eq, not_exists, not_and, not_not]
      intro shard hshard
      rw [hlenOf shard (List.mem_cons_of_mem _ hshard), hfirst]
    have heven : ¬ len first % 2 ≠ 0 := by
      rw [hfirst]
      simpa using shardLen_even (len payload) d
    rw [if_neg hsame, if_neg heven]
    split_ifs with hall
    · rw [filterMap_take_arrived h hall]
      rfl
    · exact restore_arrived h hsub hcard hall

end Erasure

end NovaChannel
