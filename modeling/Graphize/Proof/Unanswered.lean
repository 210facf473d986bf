import Graphize.Spec.Echo
import Graphize.Proof.Runs
import Mathlib.Data.Prod.Lex

/-!
# Requests of `Echo` are not answered

`Echo` hands `done` to `Graph::run` and releases its guard; the context does not keep the
closure.

* `step_cost`: every step of a run lowers the positive counters or, these left alone, the
  work at hand, whatever the graph. So every call of `Echo` can be completed.
* `echo_never_answers`: no state of any run of a call has run a closure.
-/

namespace Graphize

variable {ρ σ C D : Type*}

/-! ## Every run ends -/

section Ends

variable {h : Heap} {B : Behaviour ρ C} {req : ρ} {s s' : RunState C}

/-- What is left to do for a node that has started `run`. -/
def nodeWork (h : Heap) (B : Behaviour ρ C) (req : ρ) (n : NodePtr) : ℕ :=
  (B.doService n req).length + (h n).outNodes.length + 4

/-- What is left to do of a task. -/
def Task.work (h : Heap) (B : Behaviour ρ C) (req : ρ) : Task → ℕ
  | .run n => nodeWork h B req n
  | .service n k => (B.doService n req).length - k + (h n).outNodes.length + 3
  | .callback n => (h n).outNodes.length + 2
  | .output n i last => (h n).outNodes.length - i + 1 + last.elim 0 (nodeWork h B req)

/-- The counters that are not used up. -/
def GraphContext.pending (c : GraphContext C) : ℕ := c.nodeInputNumMap.countP fun x => decide (0 < x.getD 0)

/-- The work at hand. -/
def RunState.work (h : Heap) (B : Behaviour ρ C) (req : ρ) (s : RunState C) : ℕ :=
  (s.tasks.map (Task.work h B req)).sum

theorem work_spawn (last : Option NodePtr) :
    ((spawn last).map (Task.work h B req)).sum = last.elim 0 (nodeWork h B req) := by
  cases last with
  | none => rfl
  | some m => simp [spawn, Task.work]

@[simp] theorem write_pending (s : RunState C) (id : ℕ) (c : Option C) : (s.write id c).ctx.pending = s.ctx.pending := by
  unfold RunState.write
  cases c with
  | none => rfl
  | some c =>
    simp only
    split <;> rfl

/-- **One notification** uses a counter up exactly when it makes its node ready. -/
theorem notify_pending {c c' : GraphContext C} {id : ℕ} {ready : Bool} (hn : c.notify id = .ok (some (ready, c'))) :
    c'.pending + ready.toNat = c.pending := by
  unfold GraphContext.notify at hn
  cases hx : c.nodeInputNumMap[id]? with
  | none => rw [hx] at hn; simp at hn
  | some x =>
    rw [hx] at hn
    cases x with
    | none => simp at hn
    | some v =>
      simp only [Except.ok.injEq, Option.some.injEq, Prod.mk.injEq] at hn
      obtain ⟨rfl, rfl⟩ := hn
      obtain ⟨hlt, hget⟩ := List.getElem?_eq_some_iff.1 hx
      have hmem : c.nodeInputNumMap[id] ∈ c.nodeInputNumMap := List.getElem_mem hlt
      unfold GraphContext.pending
      rw [List.countP_set hlt, hget]
      rw [hget] at hmem
      -- a counter that is up is counted, so taking it off the count does not truncate
      have hpos : 0 < v → 0 < c.nodeInputNumMap.countP fun x => decide (0 < x.getD 0) := fun hv =>
        List.countP_pos_iff.2 ⟨some v, hmem, by simpa using hv⟩
      simp only [Option.getD_some, decide_eq_true_eq]
      by_cases h1 : v = 1
      · have hused := hpos (by omega)
        rw [if_pos (by omega), if_neg (by omega), decide_eq_true h1]
        simp only [Bool.toNat_true]
        omega
      · rw [decide_eq_false h1]
        by_cases hv : 0 < v
        · have hleft := hpos hv
          rw [if_pos hv, if_pos (by omega)]
          simp only [Bool.toNat_false]
          omega
        · rw [if_neg hv, if_neg (by omega)]
          simp only [Bool.toNat_false]
          omega

theorem sum_work_append (ts : List Task) (t : Task) : ((ts ++ [t]).map (Task.work h B req)).sum =
    (ts.map (Task.work h B req)).sum + t.work h B req := by
  rw [List.map_append, List.sum_append, List.map_singleton, List.sum_singleton]

/-- **One step of a task**, taken out of the list. -/
theorem exec_cost (s : RunState C) (t : Task) :
    (t.exec h B req s).ctx.pending < s.ctx.pending ∨
      (t.exec h B req s).ctx.pending = s.ctx.pending ∧ (t.exec h B req s).work h B req < s.work h B req + t.work h B req := by
  unfold RunState.work
  cases t with
  | run n =>
    unfold Task.exec
    simp only
    split
    · refine Or.inr ⟨write_pending _ _ _, ?_⟩
      simp only [sum_work_append, tasks_write, Task.work, nodeWork, Option.elim_none]
      omega
    · refine Or.inr ⟨write_pending _ _ _, ?_⟩
      simp only [sum_work_append, tasks_write, Task.work, nodeWork]
      omega
  | service n k =>
    unfold Task.exec
    simp only
    split
    · rename_i f hf
      have hk := (List.getElem?_eq_some_iff.1 hf).1
      refine Or.inr ⟨write_pending _ _ _, ?_⟩
      simp only [sum_work_append, tasks_write, Task.work]
      omega
    · split
      · refine Or.inr ⟨rfl, ?_⟩
        simp only [sum_work_append, Task.work, Option.elim_none]
        omega
      · refine Or.inr ⟨rfl, ?_⟩
        simp only [sum_work_append, Task.work]
        omega
  | callback n =>
    unfold Task.exec
    refine Or.inr ⟨rfl, ?_⟩
    simp only [sum_work_append, Task.work, Option.elim_none]
    omega
  | output n i last =>
    unfold Task.exec
    simp only
    split
    · refine Or.inr ⟨rfl, ?_⟩
      simp only [List.map_append, List.sum_append, work_spawn, Task.work]
      omega
    · rename_i outputNode ho
      have hi := (List.getElem?_eq_some_iff.1 ho).1
      split
      · refine Or.inr ⟨rfl, ?_⟩
        simp only [Task.work]
        omega
      · refine Or.inr ⟨rfl, ?_⟩
        simp only [sum_work_append, Task.work]
        omega
      · rename_i ready ctx hn
        have hpending := notify_pending hn
        cases ready with
        | true =>
          -- the work of the node that is ready may be anything
          left
          rw [Bool.toNat_true] at hpending
          simp only [if_true]
          omega
        | false =>
          rw [Bool.toNat_false, Nat.add_zero] at hpending
          refine Or.inr ⟨hpending, ?_⟩
          simp only [Bool.false_eq_true, if_false, sum_work_append, Task.work]
          omega

/-- **Every step of a run** lowers the pending counters or, these left alone, the work. -/
theorem step_cost {k : ℕ} (hstep : s.step h B req k = some s') :
    toLex (s'.ctx.pending, s'.work h B req) < toLex (s.ctx.pending, s.work h B req) := by
  unfold RunState.step at hstep
  split at hstep
  · exact absurd hstep (by simp)
  · cases ht : s.tasks[k]? with
    | none =>
      rw [ht] at hstep
      exact absurd hstep (by simp)
    | some t =>
      rw [ht] at hstep
      obtain rfl := Option.some.inj hstep
      obtain ⟨hk, rfl⟩ := List.getElem?_eq_some_iff.1 ht
      have hsum : (s.tasks[k] :: s.tasks.eraseIdx k).Perm s.tasks := List.getElem_cons_eraseIdx_perm hk
      have hwork : s.work h B req =
          RunState.work h B req { s with tasks := s.tasks.eraseIdx k } + s.tasks[k].work h B req := by
        unfold RunState.work
        rw [← (hsum.map _).sum_eq, List.map_cons, List.sum_cons, Nat.add_comm]
      rw [Prod.Lex.toLex_lt_toLex, hwork]
      exact exec_cost { s with tasks := s.tasks.eraseIdx k } s.tasks[k]

end Ends

/-! ## The closure -/

/-- What the constructor keeps is no closure. -/
theorem closures_eq (c : Context ρ σ) : (c.closures : List D) = [] := rfl

namespace EchoCall

variable {h : Heap} {B : Behaviour ρ C} {closes : Task → List ℕ} {s s' : EchoCall ρ σ C D}

/-- What is left to do of a call: the run of its graph, then its own return. -/
def cost (h : Heap) (B : Behaviour ρ C) (s : EchoCall ρ σ C D) : ℕ ×ₗ ℕ :=
  toLex (s.run.ctx.pending, s.run.work h B s.context.request + (!s.returned).toNat)

/-- What a step of a call is: a step of its run, or the return. -/
theorem step_cases {c : EchoChoice} (hstep : s.step h B closes c = some s') :
    (∃ k t run, c = .exec k ∧ s.run.tasks[k]? = some t ∧ s.run.step h B s.context.request k = some run ∧
      s' = { s with run := run }) ∨
    c = .back ∧ s.returned = false ∧ s' = { s with doneGuard := ⟨none⟩, returned := true } := by
  cases c with
  | exec k =>
    unfold EchoCall.step at hstep
    simp only at hstep
    cases ht : s.run.tasks[k]? with
    | none =>
      rw [ht] at hstep
      exact absurd hstep (by simp)
    | some t =>
      cases hrun : s.run.step h B s.context.request k with
      | none =>
        rw [ht, hrun] at hstep
        exact absurd hstep (by simp)
      | some run =>
        rw [ht, hrun] at hstep
        -- no member of the context leads to a closure, whatever `closes` picks
        have hclosed : (closes t).filterMap (fun i => (s.context.closures : List D)[i]?) = [] := by
          rw [closures_eq]
          simp
        simp only [hclosed, List.map_nil, List.append_nil] at hstep
        exact Or.inl ⟨k, t, run, rfl, ht, hrun, (Option.some.inj hstep).symm⟩
  | back =>
    unfold EchoCall.step at hstep
    simp only at hstep
    split at hstep
    · exact absurd hstep (by simp)
    · rename_i hcond
      rw [Bool.or_eq_true, not_or, Bool.not_eq_true] at hcond
      -- the guard was released before the return, so it destroys a null pointer
      refine Or.inr ⟨rfl, hcond.1, ?_⟩
      rw [← Option.some.inj hstep]
      simp [ClosureGuard.release, ClosureGuard.destroy]

theorem cost_lt {c : EchoChoice} (hstep : s.step h B closes c = some s') : s'.cost h B < s.cost h B := by
  unfold cost
  rcases step_cases hstep with ⟨k, t, run, -, -, hrun, rfl⟩ | ⟨-, hret, rfl⟩
  · have hlt := step_cost hrun
    rw [Prod.Lex.toLex_lt_toLex] at hlt ⊢
    rcases hlt with hlt | ⟨heq, hlt⟩
    · exact Or.inl hlt
    · exact Or.inr ⟨heq, Nat.add_lt_add_right hlt _⟩
  · rw [Prod.Lex.toLex_lt_toLex, hret]
    exact Or.inr ⟨rfl, by simp⟩

/-- Every call can be completed. -/
theorem exists_complete (h : Heap) (B : Behaviour ρ C) (closes : Task → List ℕ) (s : EchoCall ρ σ C D) :
    ∃ cs t, Machine.run (EchoCall.step h B closes) s cs = some t ∧ Machine.Stuck (EchoCall.step h B closes) t :=
  Machine.exists_stuck_wf (InvImage.wf (cost h B) wellFounded_lt) (fun _ _ _ hstep => cost_lt hstep) s

/-- **No step runs a closure**: the context leads to none, and the guard has let go of its
own. -/
theorem ran_run {cs : List EchoChoice} (hrun : Machine.run (EchoCall.step h B closes) s cs = some s')
    (hs : s.ran = []) : s'.ran = [] := by
  refine Machine.run_inv (fun s : EchoCall ρ σ C D => s.ran = []) (fun s c s' hs hstep => ?_) cs s s' hs hrun
  rcases step_cases hstep with ⟨k, t, run, -, -, -, rfl⟩ | ⟨-, -, rfl⟩
  · exact hs
  · exact hs

/-- Every complete run of the call has run `done` once, after each node had finished. -/
def AnswersOnce (g : Graph) (h : Heap) (B : Behaviour ρ C) (closes : Task → List ℕ) (done : D)
    (s : EchoCall ρ σ C D) : Prop :=
  ∀ cs t, Machine.run (EchoCall.step h B closes) s cs = some t → Machine.Stuck (EchoCall.step h B closes) t →
    ∃ log, t.ran = [(done, log)] ∧ ∀ v ∈ g.allNodes, .skipped v ∈ log ∨ .served v ∈ log

theorem not_answersOnce (g : Graph) {done : D} (hs : s.ran = []) : ¬s.AnswersOnce g h B closes done := by
  intro hall
  obtain ⟨cs, t, hrun, hst⟩ := exists_complete h B closes s
  obtain ⟨log, hran, -⟩ := hall cs t hrun hst
  rw [ran_run hrun hs] at hran
  exact absurd hran (by simp)

end EchoCall

/-- `Echo` starts the graph that is registered. -/
theorem echo_starts {m : GraphMap} {g : Graph} {h : Heap} (hg : m.getGraph "graph1".toList = some (g, h))
    (B : Behaviour ρ C) (request : ρ) (response : σ) (done : D) :
    ∃ s, EchoServiceImpl.echo m B request response done = .ok s ∧ s.ran = [] := by
  unfold EchoServiceImpl.echo
  simp only [hg]
  split
  · exact ⟨_, rfl, rfl⟩
  · exact ⟨_, rfl, rfl⟩

/-- **No request is answered.** Whatever the graph, its nodes and the schedule, no closure is
ever run, although every call can be completed. -/
theorem echo_never_answers {m : GraphMap} {g : Graph} {h : Heap} (hg : m.getGraph "graph1".toList = some (g, h))
    (B : Behaviour ρ C) (closes : Task → List ℕ) (request : ρ) (response : σ) (done : D) :
    ∃ s, EchoServiceImpl.echo m B request response done = .ok s ∧ ¬s.AnswersOnce g h B closes done ∧
      ∀ cs t, Machine.run (EchoCall.step h B closes) s cs = some t → t.ran = [] := by
  obtain ⟨s, hecho, hran⟩ := echo_starts hg B request response done
  exact ⟨s, hecho, EchoCall.not_answersOnce g hran, fun cs t hrun => EchoCall.ran_run hrun hran⟩

/-- The diamond, registered. -/
theorem echo_never_answers_diamond : ∃ g h, 3 ∈ g.allNodes ∧ ∃ s,
    EchoServiceImpl.echo [("graph1".toList, g, h)] echo () () () = .ok s ∧
      ¬s.AnswersOnce g h echo (fun _ => [0]) () ∧
      ∀ cs t, Machine.run (EchoCall.step h echo fun _ => [0]) s cs = some t → t.ran = [] := by
  obtain ⟨g, h, -, -, h3, -⟩ := diamond_runs
  exact ⟨g, h, h3, echo_never_answers rfl echo (fun _ => [0]) () () ()⟩

/-- A request for the diamond stays without a response. -/
theorem echo_unanswered : ¬∀ (m : GraphMap) (g : Graph) (h : Heap) (s : EchoCall Unit Unit NodePtr Unit),
    m.getGraph "graph1".toList = some (g, h) → EchoServiceImpl.echo m echo () () () = .ok s →
      s.AnswersOnce g h echo (fun _ => []) () := by
  intro hall
  obtain ⟨g, h, -⟩ := diamond_runs
  obtain ⟨s, hecho, hran⟩ := echo_starts (m := [("graph1".toList, g, h)]) rfl echo () () ()
  exact EchoCall.not_answersOnce g hran (hall _ g h s rfl hecho)

end Graphize
