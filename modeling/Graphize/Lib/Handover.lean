import Graphize.Lib.Machine

/-!
# Services that hand over

A service is a machine that works next to others on a shared state and hands over to its
user at some of its steps. `alone` is the service by itself when others may change the
shared state before each of its steps, so its runs are what any surroundings let it do.

* `Promises`: a service that moves a bounded number of times, never fails and hands over
  at most once; `promises_of_inv` gets this from an invariant.
* `Started`: a service that has been started next to others, with the choices it has
  taken; `Started.step` is one step of it, `Started.calls_step` what it does to the user.
-/

namespace Handover

variable {γ σ α κ : Type*}

/-- `step` sees the shared state and may change it. `calls` is how often the service has
handed over. -/
structure Service (γ σ α : Type*) where
  step : γ → σ → α → Option (γ × σ)
  calls : σ → ℕ
  failed : σ → Bool

/-- A service whose surroundings choose the shared state at each step. -/
def Service.alone (P : Service γ σ α) (s : σ) (c : γ × α) : Option σ := (P.step c.1 s c.2).map Prod.snd

variable {P : Service γ σ α} {s s' s₀ : σ} {N : ℕ}

theorem Service.alone_of_step {g g' : γ} {a : α} (h : P.step g s a = some (g', s')) :
    P.alone s (g, a) = some s' := by
  unfold Service.alone
  rw [h]
  rfl

/-- **From `s₀` on the service hands over at most once**, in at most `N` steps. -/
structure Promises (P : Service γ σ α) (N : ℕ) (s₀ : σ) : Prop where
  calls : P.calls s₀ = 0
  run : ∀ cs s, Machine.run P.alone s₀ cs = some s → cs.length ≤ N ∧ P.calls s ≤ 1 ∧ P.failed s = false
  mono : ∀ cs s c s', Machine.run P.alone s₀ cs = some s → P.alone s c = some s' → P.calls s ≤ P.calls s'

/-- What is kept and used up step by step makes a promise. -/
theorem promises_of_inv (I : σ → Prop) (μ : σ → ℕ) (h0 : I s₀) (hcalls : P.calls s₀ = 0)
    (hstep : ∀ s c s', I s → P.alone s c = some s' → I s' ∧ P.calls s ≤ P.calls s' ∧ μ s' < μ s)
    (hI : ∀ s, I s → P.calls s ≤ 1 ∧ P.failed s = false) : Promises P (μ s₀) s₀ := by
  have hrun : ∀ cs s t, I s → Machine.run P.alone s cs = some t → I t ∧ cs.length + μ t ≤ μ s := by
    intro cs
    induction cs with
    | nil =>
      intro s t hs h
      rw [Machine.run_nil, Option.some.injEq] at h
      subst h
      exact ⟨hs, by simp⟩
    | cons c cs ih =>
      intro s t hs h
      obtain ⟨u, h1, h2⟩ := Machine.run_cons_iff.1 h
      obtain ⟨hu, -, hlt⟩ := hstep s c u hs h1
      obtain ⟨ht, hle⟩ := ih u t hu h2
      exact ⟨ht, by rw [List.length_cons]; omega⟩
  refine ⟨hcalls, fun cs s h => ?_, fun cs s c s' h hc => ?_⟩
  · obtain ⟨hs, hle⟩ := hrun cs s₀ s h0 h
    exact ⟨by omega, hI s hs⟩
  · exact (hstep s c s' (hrun cs s₀ s h0 h).1 hc).2.1

/-! ## Services that have been started -/

/-- The service of `k` has come to `p.2` by the choices `cs`. -/
def Started (P : Service γ σ α) (start : κ → γ → σ) (p : κ × σ) (cs : List (γ × α)) : Prop :=
  ∃ g, Machine.run P.alone (start p.1 g) cs = some p.2

variable {start : κ → γ → σ} {p : κ × σ} {cs : List (γ × α)}

theorem started_start (P : Service γ σ α) (start : κ → γ → σ) (k : κ) (g : γ) :
    Started P start (k, start k g) [] := ⟨g, rfl⟩

theorem Started.step (h : Started P start p cs) {g g' : γ} {a : α} (hs : P.step g p.2 a = some (g', s')) :
    Started P start (p.1, s') (cs ++ [(g, a)]) := by
  obtain ⟨g₀, h⟩ := h
  exact ⟨g₀, Machine.run_append_iff.2 ⟨p.2, h,
    Machine.run_cons_iff.2 ⟨s', Service.alone_of_step hs, rfl⟩⟩⟩

/-- One service goes on, next to others. -/
theorem started_set {l : List (κ × σ)} {cs : List (List (γ × α))} (h : List.Forall₂ (Started P start) l cs)
    {j : ℕ} {p : κ × σ} {c : List (γ × α)} (hp : Started P start p c) :
    List.Forall₂ (Started P start) (l.set j p) (cs.set j c) := by
  induction h generalizing j with
  | nil => exact .nil
  | cons h1 h2 ih =>
    cases j with
    | zero => exact .cons hp h2
    | succ j => exact .cons h1 ih

section Promised

variable (hP : ∀ g, Promises P N (start p.1 g))
include hP

theorem Started.length_le (h : Started P start p cs) : cs.length ≤ N := by
  obtain ⟨g, h⟩ := h
  exact ((hP g).run cs p.2 h).1

theorem Started.calls_le (h : Started P start p cs) : P.calls p.2 ≤ 1 := by
  obtain ⟨g, h⟩ := h
  exact ((hP g).run cs p.2 h).2.1

theorem Started.failed (h : Started P start p cs) : P.failed p.2 = false := by
  obtain ⟨g, h⟩ := h
  exact ((hP g).run cs p.2 h).2.2

/-- **One step of a service**: nothing for the user, or the one time it hands over. -/
theorem Started.calls_step (h : Started P start p cs) {g g' : γ} {a : α}
    (hs : P.step g p.2 a = some (g', s')) :
    P.calls s' = P.calls p.2 ∨ (P.calls p.2 = 0 ∧ P.calls s' = 1) := by
  have hle := (h.step hs).calls_le (p := (p.1, s')) hP
  obtain ⟨g₀, h⟩ := h
  have hmono := (hP g₀).mono cs p.2 (g, a) s' h (Service.alone_of_step hs)
  have := ((hP g₀).run cs p.2 h).2.1
  dsimp only at hle
  omega

end Promised

end Handover
