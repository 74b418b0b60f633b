import NovaChannel.Kex
import NovaChannel.Symbolic

/-!
# Lengths of symbolic byte strings

Terms as sequences of bytes: every term has a length, a part of a term is a `slice`, and the
consecutive parts of a term, put together again, are the term padded to their common length.
-/

namespace NovaChannel

namespace Term

variable {ν : Type}

/-- The length of a primitive's value. -/
def fnLen : Fn → ℕ
  | .expand n => n
  | .slice i j => j - i
  | .kemPublic | .kemCiphertext | .kemOtherCiphertext => 1568
  | .identity => 1984
  | .signature => 3373
  | _ => 32

/-- The length of a term. -/
def len : Term ν → ℕ
  | name _ => 32
  | lit s => s.utf8ByteSize
  | num _ => 8
  | nil => 0
  | cons a b => len a + len b
  | fn f _ _ => fnLen f
  | aead _ _ _ m => len m + 16

/-- The `n` bytes of a term from `start` on. -/
def window (start n : ℕ) (t : Term ν) : Term ν := fn (.slice start (start + n)) t nil

/-- The consecutive windows of a term. -/
def windows (t : Term ν) (n count : ℕ) : List (Term ν) :=
  (List.range count).map fun i => window (i * n) n t

/-- The first `n` bytes of a term. -/
def take (n : ℕ) (t : Term ν) : Term ν :=
  match t with
  -- a padded term
  | fn (.slice 0 m) p nil => if len p = n then p else fn (.slice 0 (min n m)) p nil
  | t => if len t = n then t else fn (.slice 0 n) t nil

/-- Cut to the term's length, the padded term is the term. -/
theorem take_pad (t : Term ν) (n : ℕ) : take (len t) (fn (.slice 0 n) t nil) = t := by
  simp [take]

variable [DecidableEq ν]

/-- One term after the other; consecutive windows of a term make up the term again. -/
def concat (ts : List (Term ν)) : Term ν :=
  match ts with
  | fn (.slice 0 n) p nil :: _ =>
    if ts = windows p n ts.length then fn (.slice 0 (ts.length * n)) p nil else list ts
  | ts => list ts

instance : ByteString (Term ν) where
  len := len
  window := window
  concat := concat
  take := take
  isMlKemPublic t := decide (len t = 1568)
  isMlKemCiphertext t := decide (len t = 1568)

/-- Every encapsulation gives a ciphertext of the right length. -/
theorem isMlKemCiphertext_encapsulate [Named ν] (pk r : Term ν) :
    ByteString.isMlKemCiphertext (Crypto.encapsulate pk r).1 = true := by
  have hlen : len (encapsulate r pk).1 = 1568 := by
    unfold encapsulate
    split <;> rfl
  exact decide_eq_true hlen

@[simp] theorem len_window (start n : ℕ) (t : Term ν) : ByteString.len (window start n t) = n := by
  simp [ByteString.len, window, len, fnLen]

/-- The windows of a term make up the term, padded. -/
theorem concat_windows (t : Term ν) (n : ℕ) {count : ℕ} (h : 0 < count) :
    concat (windows t n count) = fn (.slice 0 (count * n)) t nil := by
  obtain ⟨count, rfl⟩ : ∃ m, count = m + 1 := ⟨count - 1, by omega⟩
  obtain ⟨rest, hcons⟩ : ∃ rest, windows t n (count + 1) = fn (.slice 0 n) t nil :: rest := by
    refine ⟨(List.range count).map fun i => window ((i + 1) * n) n t, ?_⟩
    simp [windows, List.range_succ_eq_map, window, Function.comp_def]
  have hlen : (fn (.slice 0 n) t nil :: rest).length = count + 1 := by
    rw [← hcons, windows, List.length_map, List.length_range]
  rw [hcons]
  unfold concat
  simp only [hlen, hcons, ↓reduceIte]

end Term

end NovaChannel
