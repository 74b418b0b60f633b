import Mathlib.NumberTheory.LucasPrimality
import Mathlib.Data.List.Prime

/-!
# Lucas's test with a factorization

`lucas_primality` asks for a power at every prime divisor of `p - 1`; with a factorization at hand
these are finitely many.
-/

namespace NovaChannel

/-- **Lucas's test**, for the prime factors of `p - 1` with their exponents. -/
theorem prime_of_lucas {p : ℕ} (a : ZMod p) (factors : List (ℕ × ℕ))
    (hprime : ∀ f ∈ factors, f.1.Prime)
    (hprod : (factors.map fun f => f.1 ^ f.2).prod = p - 1) (hpow : a ^ (p - 1) = 1)
    (hne : ∀ f ∈ factors, a ^ ((p - 1) / f.1) ≠ 1) : p.Prime := by
  refine lucas_primality p a hpow fun q hq hdvd => ?_
  rw [← hprod] at hdvd
  obtain ⟨_, hmem, hdvd⟩ := (hq.prime.dvd_prod_iff).1 hdvd
  obtain ⟨f, hf, rfl⟩ := List.mem_map.1 hmem
  have heq : q = f.1 :=
    (Nat.prime_dvd_prime_iff_eq hq (hprime f hf)).1 (hq.dvd_of_dvd_pow hdvd)
  exact heq ▸ hne f hf

end NovaChannel
