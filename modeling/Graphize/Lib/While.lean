import Mathlib.Data.Nat.Init
import Mathlib.Tactic.Ring

/-!
# While loops with fuel

A loop is given by its body: `body s = none` when the loop condition is false in
`s`, and `body s = some s'` when one round takes `s` to `s'`. `run body n s` plays
at most `n` tests of the condition; it is `none` when the fuel runs out.

* `run_spec`: a loop that ends does so in a state where the condition is false,
  with every invariant of the body.
* `run_total`: a loop whose body decreases a measure ends, whatever the fuel from
  the measure on.
* `run_mono`: more fuel does not change the result.
* `run_map`: a loop that follows another one gives its result.
* `run_diverges`: a loop whose body always has another round does not end.
* `foldlM_mono`, `foldlM_each`: a fold of loops ends only if each of them does.
-/

namespace While

variable {σ : Type*}

/-- `while (cond) body`, with fuel. -/
def run (body : σ → Option σ) : ℕ → σ → Option σ
  | 0, _ => none
  | n + 1, s =>
    match body s with
    | none => some s
    | some s' => run body n s'

variable {body : σ → Option σ}

/-- **Invariant rule.** -/
theorem run_spec (I : σ → Prop) (hI : ∀ s s', I s → body s = some s' → I s') :
    ∀ n s t, I s → run body n s = some t → I t ∧ body t = none := by
  intro n
  induction n with
  | zero => intro s t _ h; simp [run] at h
  | succ n ih =>
    intro s t hs h
    unfold run at h
    cases hb : body s with
    | none =>
      rw [hb] at h
      simp only [Option.some.injEq] at h
      subst h; exact ⟨hs, hb⟩
    | some s' =>
      rw [hb] at h
      exact ih s' t (hI s s' hs hb) h

/-- **Termination rule.** A body that decreases `μ` under the invariant ends within
`μ s + 1` tests. -/
theorem run_total (I : σ → Prop) (μ : σ → ℕ) (hI : ∀ s s', I s → body s = some s' → I s')
    (hμ : ∀ s s', I s → body s = some s' → μ s' < μ s) :
    ∀ n s, I s → μ s < n → ∃ t, run body n s = some t := by
  intro n
  induction n with
  | zero => intro s _ h; omega
  | succ n ih =>
    intro s hs hn
    unfold run
    cases hb : body s with
    | none => exact ⟨s, rfl⟩
    | some s' =>
      have hlt := hμ s s' hs hb
      exact ih s' (hI s s' hs hb) (by omega)

/-- More fuel gives the same result. -/
theorem run_mono : ∀ {n m : ℕ} {s t : σ}, n ≤ m → run body n s = some t → run body m s = some t := by
  intro n
  induction n with
  | zero => intro m s t _ h; simp [run] at h
  | succ n ih =>
    intro m s t hnm h
    obtain ⟨k, rfl⟩ : ∃ k, m = k + 1 := ⟨m - 1, by omega⟩
    unfold run at h ⊢
    cases hb : body s with
    | none => rw [hb] at h; exact h
    | some s' => rw [hb] at h; exact ih (by omega) h

/-- **Simulation rule.** A loop whose rounds follow those of another one. -/
theorem run_map {τ : Type*} {body' : τ → Option τ} (f : σ → τ) (h : ∀ s, body' (f s) = (body s).map f) :
    ∀ n s, run body' n (f s) = (run body n s).map f := by
  intro n
  induction n with
  | zero => intro s; rfl
  | succ n ih =>
    intro s
    unfold run
    rw [h]
    cases body s with
    | none => rfl
    | some s' => exact ih s'

/-- **Divergence rule.** -/
theorem run_diverges (I : σ → Prop) (hI : ∀ s, I s → ∃ s', body s = some s' ∧ I s') : ∀ n s, I s → run body n s = none := by
  intro n
  induction n with
  | zero => intro s _; rfl
  | succ n ih =>
    intro s hs
    obtain ⟨s', hb, hs'⟩ := hI s hs
    unfold run
    rw [hb]
    exact ih s' hs'

section Folds

variable {α β : Type*} {f g : β → α → Option β}

/-- A fold whose steps only gain results. -/
theorem foldlM_mono (h : ∀ b a c, f b a = some c → g b a = some c) :
    ∀ {l : List α} {b c : β}, l.foldlM f b = some c → l.foldlM g b = some c := by
  intro l
  induction l with
  | nil => intro b c hl; exact hl
  | cons a l ih =>
    intro b c hl
    rw [List.foldlM_cons] at hl ⊢
    obtain ⟨b', hb, hl⟩ := Option.bind_eq_some_iff.1 hl
    exact Option.bind_eq_some_iff.2 ⟨b', h _ _ _ hb, ih hl⟩

/-- A fold that ends has taken a step at every element. -/
theorem foldlM_each : ∀ {l : List α} {b c : β}, l.foldlM f b = some c → ∀ a ∈ l, ∃ b' c', f b' a = some c' := by
  intro l
  induction l with
  | nil => intro b c _ a ha; exact absurd ha (by simp)
  | cons a l ih =>
    intro b c hl a' ha
    rw [List.foldlM_cons] at hl
    obtain ⟨b', hb, hl⟩ := Option.bind_eq_some_iff.1 hl
    rcases List.mem_cons.1 ha with rfl | ha
    · exact ⟨b, b', hb⟩
    · exact ih hl a' ha

end Folds

end While
