import Mathlib.Tactic.Ring
import Mathlib.Data.Int.Init

/-!
# Loops that count with an `int`

C++ loops compare a signed counter with an unsigned size. An `int` has 32 bits and must
not overflow, a `size_t` has 64 bits and wraps; values are plain integers, with the
conversions written out.

* `int_natCast`, `toSize_natCast`, `ofSize_of_lt`, `subSize_of_le`: small values keep
  their value.
* `loop_total`: the invariant rule of `for (int i = a; cond; i += step)`.
-/

namespace IntLoop

/-- An `int` result. Signed overflow is undefined. -/
def int (z : ℤ) : Option ℤ := if -2 ^ 31 ≤ z ∧ z < 2 ^ 31 then some z else none

/-- An `int` converted to `size_t`. -/
def toSize (z : ℤ) : ℕ := (z % 2 ^ 64).toNat

/-- A `size_t` converted to `int`. -/
def ofSize (n : ℕ) : ℤ := Int.bmod n (2 ^ 32)

/-- The difference of two `size_t`. -/
def subSize (a b : ℕ) : ℕ := (a + (2 ^ 64 - b)) % 2 ^ 64

theorem int_natCast {n : ℕ} (hn : n < 2 ^ 31) : int (n : ℤ) = some (n : ℤ) := by
  unfold int
  rw [if_pos]
  omega

theorem toSize_natCast {n : ℕ} (hn : n < 2 ^ 64) : toSize (n : ℤ) = n := by
  unfold toSize
  omega

theorem ofSize_of_lt {n : ℕ} (hn : n < 2 ^ 31) : ofSize n = (n : ℤ) := by
  unfold ofSize
  rw [Int.bmod_def]
  omega

theorem subSize_of_le {a b : ℕ} (ha : a < 2 ^ 64) (hb : b ≤ a) : subSize a b = a - b := by
  unfold subSize
  omega

variable {σ : Type*}

/-- `for (int i = …; cond; i += step) body`, with fuel. The result is `none` when the fuel
runs out, a body goes wrong or the counter overflows. -/
def loop (cond : ℤ → Bool) (step : ℤ) (body : σ → ℤ → Option σ) : ℕ → ℤ → σ → Option σ
  | 0, _, _ => none
  | fuel + 1, i, s =>
    if cond i then (body s i).bind fun s => (int (i + step)).bind fun i => loop cond step body fuel i s
    else some s

/-- **Invariant rule.** `I k` holds before round `k`, and the loop makes `n` of them. -/
theorem loop_total {cond : ℤ → Bool} {step : ℕ} {body : σ → ℤ → Option σ} (I : ℕ → σ → Prop) {n : ℕ} {a : ℕ}
    (hcond : ∀ k < n, cond ((a + k * step : ℕ) : ℤ) = true) (hstop : cond ((a + n * step : ℕ) : ℤ) = false)
    (hfit : ∀ k < n, a + k * step + step < 2 ^ 31)
    (hbody : ∀ k < n, ∀ s, I k s → ∃ s', body s ((a + k * step : ℕ) : ℤ) = some s' ∧ I (k + 1) s')
    {fuel : ℕ} (hf : n < fuel) {s : σ} (hs : I 0 s) :
    ∃ s', loop cond step body fuel a s = some s' ∧ I n s' := by
  induction n generalizing a fuel s I with
  | zero =>
    obtain ⟨fuel, rfl⟩ : ∃ m, fuel = m + 1 := ⟨fuel - 1, by omega⟩
    rw [Nat.zero_mul, Nat.add_zero] at hstop
    refine ⟨s, ?_, hs⟩
    unfold loop
    rw [if_neg (by rw [hstop]; simp)]
  | succ n ih =>
    obtain ⟨fuel, rfl⟩ : ∃ m, fuel = m + 1 := ⟨fuel - 1, by omega⟩
    -- the first round, then the rule for the others with a shifted invariant
    obtain ⟨s₁, hs₁, hI₁⟩ := hbody 0 (Nat.succ_pos n) s hs
    have h0 := hcond 0 (Nat.succ_pos n)
    have hfit0 := hfit 0 (Nat.succ_pos n)
    rw [Nat.zero_mul, Nat.add_zero] at hs₁ h0 hfit0
    have hshift : ∀ k, a + step + k * step = a + (k + 1) * step := by
      intro k
      ring
    obtain ⟨s', hs', hI'⟩ := ih (fun k => I (k + 1)) (a := a + step)
      (fun k hk => by rw [hshift]; exact hcond (k + 1) (by omega)) (by rw [hshift]; exact hstop)
      (fun k hk => by rw [hshift]; exact hfit (k + 1) (by omega))
      (fun k hk => by rw [hshift]; exact hbody (k + 1) (by omega)) (show n < fuel by omega) hI₁
    refine ⟨s', ?_, hI'⟩
    unfold loop
    rw [if_pos h0, hs₁, Option.bind_some, ← Nat.cast_add, int_natCast hfit0, Option.bind_some]
    exact hs'

end IntLoop
