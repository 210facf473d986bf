import Graphize.Spec.RedisRun
import Mathlib.Algebra.Order.Floor.Div

/-!
# The batches of a fetch info

`batch_count` and `step` are ceilings. The loop `i = 0, step, 2 * step, …` makes
`batch_count` rounds (`rounds_zero`).
-/

namespace Graphize

/-! ## The numbers -/

theorem batchCount_eq (n : ℕ) {b : ℕ} (hb : 0 < b) : batchCount n b = n ⌈/⌉ b := by
  rw [Nat.ceilDiv_eq_add_pred_div]
  unfold batchCount
  have hmod := Nat.mod_lt n hb
  have hdiv := Nat.div_add_mod n b
  by_cases h0 : n % b = 0
  · have hsplit : n + b - 1 = b * (n / b) + (b - 1) := by omega
    have hrest : (b - 1) / b = 0 := Nat.div_eq_of_lt (by omega)
    rw [if_neg (not_not.2 h0), hsplit, Nat.mul_add_div hb, hrest, Nat.add_zero]
  · have hsucc : b * (n / b + 1) = b * (n / b) + b := Nat.mul_succ _ _
    have hsplit : n + b - 1 = b * (n / b + 1) + (n % b - 1) := by omega
    have hrest : (n % b - 1) / b = 0 := Nat.div_eq_of_lt (by omega)
    rw [if_pos h0, hsplit, Nat.mul_add_div hb, hrest, Nat.add_zero]

theorem stepOf_eq (n : ℕ) {c : ℕ} (hc : 0 < c) : stepOf n c = n ⌈/⌉ c := batchCount_eq n hc

theorem batchCount_le_iff {n b k : ℕ} (hb : 0 < b) : batchCount n b ≤ k ↔ n ≤ b * k := by
  rw [batchCount_eq n hb]
  exact ceilDiv_le_iff_le_mul hb

theorem batchCount_pos {n b : ℕ} (hn : 0 < n) (hb : 0 < b) : 0 < batchCount n b := by
  by_contra h
  have := (batchCount_le_iff hb).1 (Nat.le_of_not_lt h)
  omega

theorem batchCount_le_self {n b : ℕ} (hb : 0 < b) : batchCount n b ≤ n :=
  (batchCount_le_iff hb).2 (Nat.le_mul_of_pos_left n hb)

/-- `step` is at most `batch_size`. -/
theorem stepOf_le {n b : ℕ} (hn : 0 < n) (hb : 0 < b) : stepOf n (batchCount n b) ≤ b := by
  refine (batchCount_le_iff (batchCount_pos hn hb)).2 ?_
  rw [Nat.mul_comm]
  exact (batchCount_le_iff hb).1 le_rfl

/-- How many rounds the loop still makes from `i` on. -/
def rounds (n i step : ℕ) : ℕ := batchCount (n - i) step

theorem rounds_eq_zero {n i step : ℕ} (hs : 0 < step) (hi : n ≤ i) : rounds n i step = 0 := by
  have : rounds n i step ≤ 0 := (batchCount_le_iff hs).2 (by omega)
  omega

theorem rounds_succ {n i step : ℕ} (hs : 0 < step) (hi : i < n) :
    rounds n i step = rounds n (i + step) step + 1 := by
  have key : ∀ k, rounds n i step ≤ k ↔ rounds n (i + step) step + 1 ≤ k := by
    intro k
    unfold rounds
    rw [batchCount_le_iff hs]
    cases k with
    | zero => omega
    | succ k =>
      rw [Nat.add_le_add_iff_right, batchCount_le_iff hs, Nat.mul_succ]
      omega
  exact le_antisymm ((key _).2 le_rfl) ((key _).1 le_rfl)

/-- The rounds are those that start within the keys. -/
theorem lt_rounds_iff {n step k : ℕ} (hs : 0 < step) : k < rounds n 0 step ↔ k * step < n := by
  unfold rounds
  rw [← not_le, ← not_le, Nat.mul_comm, Nat.sub_zero, batchCount_le_iff hs]

/-- **The loop makes `batch_count` rounds.** -/
theorem rounds_zero {n b : ℕ} (hn : 0 < n) (hb : 0 < b) :
    rounds n 0 (stepOf n (batchCount n b)) = batchCount n b := by
  have hc := batchCount_pos hn hb
  have hs : 0 < stepOf n (batchCount n b) := batchCount_pos hn hc
  unfold rounds
  rw [Nat.sub_zero]
  apply le_antisymm
  · rw [batchCount_le_iff hs, Nat.mul_comm]
    exact (batchCount_le_iff hc).1 le_rfl
  · by_contra hlt
    have h1 := (batchCount_le_iff hs).1 (Nat.le_refl (batchCount n (stepOf n (batchCount n b))))
    have h2 : n ≤ b * batchCount n (stepOf n (batchCount n b)) :=
      le_trans h1 (Nat.mul_le_mul_right _ (stepOf_le hn hb))
    have := (batchCount_le_iff hb).2 h2
    omega

/-! ## The settings of a fetch info -/

section Settings

variable {ρ : Type*} (env : RedisEnv ρ) (info : FetchInfo)

/-- The number of batches and of result items. -/
def FetchInfo.batches : ℕ :=
  if env.enableMultiGet then batchCount info.keys.length env.batchSize else info.keys.length

/-- The keys of a batch, the last one apart. -/
def FetchInfo.step : ℕ := if env.enableMultiGet then stepOf info.keys.length (info.batches env) else 1

/-- Rpcs are made for this fetch info. -/
structure FetchInfo.Active : Prop where
  client : env.hasClient info.redisClientId = true
  keys : info.keys ≠ []

/-- `batch_size >= 1`, where it is used. -/
def RedisEnv.BatchSizeOK : Prop := env.enableMultiGet = true → 0 < env.batchSize

variable {env info}

theorem FetchInfo.batches_pos (hb : env.BatchSizeOK) (hk : info.keys ≠ []) : 0 < info.batches env := by
  have hn : 0 < info.keys.length := List.length_pos_iff.2 hk
  unfold FetchInfo.batches
  split
  · rename_i h; exact batchCount_pos hn (hb h)
  · exact hn

theorem FetchInfo.step_pos (hb : env.BatchSizeOK) (hk : info.keys ≠ []) : 0 < info.step env := by
  have hc := info.batches_pos hb hk
  unfold FetchInfo.step
  split
  · exact batchCount_pos (List.length_pos_iff.2 hk) hc
  · exact Nat.one_pos

theorem FetchInfo.rounds_step (hb : env.BatchSizeOK) (hk : info.keys ≠ []) :
    rounds info.keys.length 0 (info.step env) = info.batches env := by
  unfold FetchInfo.step FetchInfo.batches
  split
  · rename_i h; exact rounds_zero (List.length_pos_iff.2 hk) (hb h)
  · have h1 : ∀ k, batchCount info.keys.length 1 ≤ k ↔ info.keys.length ≤ k := fun k => by
      rw [batchCount_le_iff Nat.one_pos, Nat.one_mul]
    exact le_antisymm ((h1 _).2 le_rfl) ((h1 _).1 le_rfl)

/-- The batch that starts at `m * step` has the place `m`. -/
theorem FetchInfo.lt_batches_iff (hb : env.BatchSizeOK) (hk : info.keys ≠ []) {m : ℕ} :
    m < info.batches env ↔ m * info.step env < info.keys.length := by
  rw [← info.rounds_step hb hk]
  exact lt_rounds_iff (info.step_pos hb hk)

end Settings

end Graphize
