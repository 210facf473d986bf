import Mathlib.Data.Nat.Init
import Mathlib.Tactic.Ring

/-!
# Machines driven by a scheduler

A machine is a partial step `step : σ → α → Option σ`: in state `s` the scheduler
chooses `a`, and `step s a = none` when `a` is not enabled. A run is a list of
choices, so a statement about every list of choices is a statement about every
interleaving.

* `run_inv`: what every step preserves, every run preserves.
* `run_ghost`: if every step decreases a measure, no run is longer than it; `run_budget`: or
  than it and what the choices bring in.
* `exists_stuck`, `exists_stuck_wf`, `exists_stuck_of_length`: such a machine can always be
  run until nothing is enabled.
* `Always.after`, `Always.before`: the two parts of a run.
* `Always Q`, `Along P`: every state the run visits satisfies `Q`, every step it takes
  satisfies `P`; `run_along`, `always_of_along` and `along_of_always` go from one to the
  other through an invariant.
-/

namespace Machine

variable {σ α : Type*}

/-- Playing a list of scheduler choices. -/
def run (step : σ → α → Option σ) : σ → List α → Option σ
  | s, [] => some s
  | s, a :: as => (step s a).bind fun s' => run step s' as

/-- Nothing is enabled. -/
def Stuck (step : σ → α → Option σ) (s : σ) : Prop := ∀ a, step s a = none

variable {step : σ → α → Option σ}

@[simp] theorem run_nil (s : σ) : run step s [] = some s := rfl

theorem run_cons_iff {s t : σ} {a : α} {as : List α} :
    run step s (a :: as) = some t ↔ ∃ s', step s a = some s' ∧ run step s' as = some t := by
  simp [run, Option.bind_eq_some_iff]

theorem run_append_iff {s t : σ} {as bs : List α} :
    run step s (as ++ bs) = some t ↔ ∃ u, run step s as = some u ∧ run step u bs = some t := by
  induction as generalizing s with
  | nil => simp
  | cons a as ih =>
    simp only [List.cons_append, run_cons_iff, ih]
    constructor
    · rintro ⟨s', h1, u, h2, h3⟩; exact ⟨u, ⟨s', h1, h2⟩, h3⟩
    · rintro ⟨u, ⟨s', h1, h2⟩, h3⟩; exact ⟨s', h1, u, h2, h3⟩

/-- **Invariants over whole runs.** -/
theorem run_inv (I : σ → Prop) (hI : ∀ s a s', I s → step s a = some s' → I s') :
    ∀ as s t, I s → run step s as = some t → I t := by
  intro as
  induction as with
  | nil => intro s t hs h; simp only [run_nil, Option.some.injEq] at h; subst h; exact hs
  | cons a as ih =>
    intro s t hs h
    obtain ⟨s', h1, h2⟩ := run_cons_iff.1 h
    exact ih s' t (hI s a s' hs h1) h2

/-- **Invariants with a ghost**: a state of another system behind each state, whose
measure every step decreases. No run is longer than the measure. -/
theorem run_ghost {γ : Type*} (I : σ → γ → Prop) (μ : γ → ℕ)
    (hI : ∀ s a s' c, I s c → step s a = some s' → ∃ c', I s' c' ∧ μ c' < μ c) :
    ∀ as s t c, I s c → run step s as = some t → ∃ c', I t c' ∧ as.length + μ c' ≤ μ c := by
  intro as
  induction as with
  | nil => intro s t c hs h; simp only [run_nil, Option.some.injEq] at h; subst h; exact ⟨c, hs, by simp⟩
  | cons a as ih =>
    intro s t c hs h
    obtain ⟨s', h1, h2⟩ := run_cons_iff.1 h
    obtain ⟨c', hs', hlt⟩ := hI s a s' c hs h1
    obtain ⟨d, hd, hle⟩ := ih s' t c' hs' h2
    exact ⟨d, hd, by simp only [List.length_cons]; omega⟩

/-- **Runs that are paid for**: each step uses up some of the measure, but for what its
choice brings in. -/
theorem run_budget (I : σ → Prop) (μ : σ → ℕ) (cost : α → ℕ) (hI : ∀ s a s', I s → step s a = some s' → I s')
    (hμ : ∀ s a s', I s → step s a = some s' → μ s' + 1 ≤ μ s + cost a) :
    ∀ as s t, I s → run step s as = some t → as.length + μ t ≤ μ s + (as.map cost).sum := by
  intro as
  induction as with
  | nil => intro s t hs h; simp only [run_nil, Option.some.injEq] at h; subst h; simp
  | cons a as ih =>
    intro s t hs h
    obtain ⟨s', h1, h2⟩ := run_cons_iff.1 h
    have hstep := hμ s a s' hs h1
    have hrun := ih s' t (hI s a s' hs h1) h2
    simp only [List.length_cons, List.map_cons, List.sum_cons]
    omega

/-- Such a machine can be run until nothing is enabled. -/
theorem exists_stuck (I : σ → Prop) (μ : σ → ℕ) (hI : ∀ s a s', I s → step s a = some s' → I s')
    (hμ : ∀ s a s', I s → step s a = some s' → μ s' < μ s) :
    ∀ n s, I s → μ s ≤ n → ∃ as t, run step s as = some t ∧ Stuck step t := by
  intro n
  induction n with
  | zero =>
    intro s hs hn
    refine ⟨[], s, rfl, fun a => ?_⟩
    cases h : step s a with
    | none => rfl
    | some s' => have := hμ s a s' hs h; omega
  | succ n ih =>
    intro s hs hn
    by_cases hst : Stuck step s
    · exact ⟨[], s, rfl, hst⟩
    · unfold Stuck at hst
      push Not at hst
      obtain ⟨a, ha⟩ := hst
      obtain ⟨s', h⟩ := Option.ne_none_iff_exists'.1 ha
      have hlt := hμ s a s' hs h
      obtain ⟨as, t, hr, ht⟩ := ih s' (hI s a s' hs h) (by omega)
      exact ⟨a :: as, t, run_cons_iff.2 ⟨s', h, hr⟩, ht⟩

/-- So can one whose steps go down a well-founded relation. -/
theorem exists_stuck_wf {r : σ → σ → Prop} (hwf : WellFounded r) (hr : ∀ s a s', step s a = some s' → r s' s) (s : σ) :
    ∃ as t, run step s as = some t ∧ Stuck step t := by
  induction s using hwf.induction with
  | h s ih =>
    by_cases hst : Stuck step s
    · exact ⟨[], s, rfl, hst⟩
    · unfold Stuck at hst
      push Not at hst
      obtain ⟨a, ha⟩ := hst
      obtain ⟨s', h⟩ := Option.ne_none_iff_exists'.1 ha
      obtain ⟨as, t, hrun, ht⟩ := ih s' (hr s a s' h)
      exact ⟨a :: as, t, run_cons_iff.2 ⟨s', h, hrun⟩, ht⟩

/-- So can one whose runs are no longer than `N`. -/
theorem exists_stuck_of_length {N : ℕ} {s : σ} (hN : ∀ as t, run step s as = some t → as.length ≤ N) :
    ∃ as t, run step s as = some t ∧ Stuck step t := by
  by_contra hno
  push Not at hno
  have hlong : ∀ n, ∃ as t, run step s as = some t ∧ as.length = n := by
    intro n
    induction n with
    | zero => exact ⟨[], s, rfl, rfl⟩
    | succ n ih =>
      obtain ⟨as, t, hrun, hlen⟩ := ih
      have hmove := hno as t hrun
      unfold Stuck at hmove
      push Not at hmove
      obtain ⟨a, ha⟩ := hmove
      obtain ⟨t', h⟩ := Option.ne_none_iff_exists'.1 ha
      refine ⟨as ++ [a], t', run_append_iff.2 ⟨t, hrun, run_cons_iff.2 ⟨t', h, rfl⟩⟩, ?_⟩
      rw [List.length_append, List.length_singleton, hlen]
  obtain ⟨as, t, hrun, hlen⟩ := hlong (N + 1)
  have hle := hN as t hrun
  omega

/-- Every state that the choices lead through satisfies `Q`. -/
def Always (step : σ → α → Option σ) (Q : σ → Prop) : σ → List α → Prop
  | s, [] => Q s
  | s, a :: as => Q s ∧ ∀ s', step s a = some s' → Always step Q s' as

/-- Every step that the choices take satisfies `P`, a relation between the state before it
and the choice. -/
def Along (step : σ → α → Option σ) (P : σ → α → Prop) : σ → List α → Prop
  | _, [] => True
  | s, a :: as => ∀ s', step s a = some s' → P s a ∧ Along step P s' as

theorem Always.head {Q : σ → Prop} {s : σ} {as : List α} (h : Always step Q s as) : Q s := by
  cases as with
  | nil => exact h
  | cons a as => exact h.1

/-- What every state satisfies, those after some of the choices satisfy. -/
theorem Always.after {Q : σ → Prop} : ∀ {as bs : List α} {s t : σ}, Always step Q s (as ++ bs) → run step s as = some t →
    Always step Q t bs
  | [], _, s, t, h, hr => by
    rw [run_nil, Option.some.injEq] at hr
    rw [← hr]
    exact h
  | _ :: _, _, _, _, h, hr => by
    obtain ⟨s', hs, hr⟩ := run_cons_iff.1 hr
    exact (h.2 s' hs).after hr

theorem Always.before {Q : σ → Prop} : ∀ {as bs : List α} {s : σ}, Always step Q s (as ++ bs) → Always step Q s as
  | [], _, _, h => h.head
  | _ :: _, _, _, h => ⟨h.1, fun s' hs => (h.2 s' hs).before⟩

theorem Always.along {Q : σ → Prop} :
    ∀ {as : List α} {s : σ}, Always step Q s as → Along step (fun s _ => Q s) s as
  | [], _, _ => trivial
  | _ :: _, _, h => fun s' hs => ⟨h.1, (h.2 s' hs).along⟩

/-- **Invariants of the runs whose steps all satisfy a condition.** -/
theorem run_along {P : σ → α → Prop} (I : σ → Prop)
    (hI : ∀ s a s', I s → P s a → step s a = some s' → I s') :
    ∀ as s t, I s → Along step P s as → run step s as = some t → I t := by
  intro as
  induction as with
  | nil => intro s t hs _ h; simp only [run_nil, Option.some.injEq] at h; subst h; exact hs
  | cons a as ih =>
    intro s t hs hP h
    obtain ⟨s', h1, h2⟩ := run_cons_iff.1 h
    obtain ⟨ha, has⟩ := hP s' h1
    exact ih s' t (hI s a s' hs ha h1) has h2

theorem along_append {P : σ → α → Prop} : ∀ {as bs : List α} {s : σ}, Along step P s as →
    (∀ t, run step s as = some t → Along step P t bs) → Along step P s (as ++ bs)
  | [], _, s, _, h => h s rfl
  | _ :: _, _, _, hP, h => fun s' hs => ⟨(hP s' hs).1,
      along_append (hP s' hs).2 fun t ht => h t (run_cons_iff.2 ⟨s', hs, ht⟩)⟩

/-- Choices that satisfy `P` in every state. -/
theorem along_of_forall {P : σ → α → Prop} : ∀ {as : List α} {s : σ}, (∀ a ∈ as, ∀ s, P s a) → Along step P s as
  | [], _, _ => trivial
  | a :: _, s, h => fun _ _ => ⟨h a List.mem_cons_self s,
      along_of_forall fun b hb => h b (List.mem_cons_of_mem _ hb)⟩

theorem Along.and {P Q : σ → α → Prop} : ∀ {as : List α} {s : σ}, Along step P s as → Along step Q s as →
    Along step (fun s a => P s a ∧ Q s a) s as
  | [], _, _, _ => trivial
  | _ :: _, _, hP, hQ => fun s' h => ⟨⟨(hP s' h).1, (hQ s' h).1⟩, (hP s' h).2.and (hQ s' h).2⟩

instance decidableAlong {P : σ → α → Prop} [∀ s a, Decidable (P s a)] : ∀ s as, Decidable (Along step P s as)
  | _, [] => .isTrue trivial
  | s, a :: as => @Option.decidableForallMem _ _ (fun s' => @instDecidableAnd _ _ _ (decidableAlong s' as)) (step s a)

theorem always_of_along {P : σ → α → Prop} {Q : σ → Prop} (I : σ → Prop) (hQ : ∀ s, I s → Q s)
    (hI : ∀ s a s', I s → P s a → step s a = some s' → I s') :
    ∀ as s, I s → Along step P s as → Always step Q s as := by
  intro as
  induction as with
  | nil => intro s hs _; exact hQ s hs
  | cons a as ih =>
    intro s hs hP
    refine ⟨hQ s hs, fun s' h => ?_⟩
    obtain ⟨ha, has⟩ := hP s' h
    exact ih s' (hI s a s' hs ha h) has

theorem along_of_always {P : σ → α → Prop} {Q : σ → Prop} (I : σ → Prop)
    (hI : ∀ s a s', I s → step s a = some s' → I s')
    (hP : ∀ s a s', I s → step s a = some s' → Q s' → P s a) :
    ∀ as s, I s → Always step Q s as → Along step P s as := by
  intro as
  induction as with
  | nil => intro s _ _; trivial
  | cons a as ih =>
    intro s hs hQ s' h
    have hs' := hQ.2 s' h
    exact ⟨hP s a s' hs h hs'.head, ih s' (hI s a s' hs h) hs'⟩

end Machine
