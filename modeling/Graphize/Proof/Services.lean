import Graphize.Spec.Services
import Graphize.Lib.Threads

/-!
# A graph of services is a run of the graph

* `exec_beside`: what a task does depends on the contexts only, and it adds its tasks at the end.
* `ShownBy`: the run of `Spec/Run` behind a system: the same contexts and log, and a task
  `callback` for each service that has not handed over.
* `shownBy_step`, `shownBy_run`: a step of the system is a step of that run, or none, if the
  services hand over at most once. The steps of a system are those of the run behind it, one for
  each service called, and the steps of the services.
-/

namespace Graphize

open Handover Threads

variable {ρ C γ σ : Type*} {h : Heap} {B : Behaviour ρ C} {req : ρ} {S : Services ρ γ σ}

/-! ## Tasks -/

/-- The state with other tasks before its own. -/
def RunState.beside (s : RunState C) (ts : List Task) : RunState C := { s with tasks := ts ++ s.tasks }

section Beside

variable (s : RunState C) (ts : List Task)

@[simp] theorem beside_ctx : (s.beside ts).ctx = s.ctx := rfl
@[simp] theorem beside_log : (s.beside ts).log = s.log := rfl
@[simp] theorem beside_fault : (s.beside ts).fault = s.fault := rfl
@[simp] theorem beside_tasks : (s.beside ts).tasks = ts ++ s.tasks := rfl

@[simp] theorem write_beside (id : ℕ) (c : Option C) : (s.beside ts).write id c = (s.write id c).beside ts := by
  cases c with
  | none => rfl
  | some c =>
    unfold RunState.write RunState.beside
    dsimp only
    rcases s.ctx.nodeServiceContextVec[id]? with _ | _ | c' <;> rfl

/-- **A task does not look at the other tasks**, and adds its own at the end. -/
theorem exec_beside (t : Task) : t.exec h B req (s.beside ts) = (t.exec h B req s).beside ts := by
  cases t with
  | run n =>
    unfold Task.exec
    simp only [beside_ctx, write_beside]
    cases (B.skip n req s.ctx.nodeServiceContextVec).1 <;> simp [RunState.beside]
  | service n k =>
    unfold Task.exec
    simp only [beside_ctx, write_beside]
    cases (B.doService n req)[k]? with
    | some f => simp [RunState.beside]
    | none => cases (h n).type <;> simp [RunState.beside]
  | callback n => simp [Task.exec, RunState.beside]
  | output n i last =>
    unfold Task.exec
    simp only [beside_ctx]
    cases (h n).outNodes[i]? with
    | none => simp [RunState.beside]
    | some v =>
      dsimp only
      rcases s.ctx.notify (h v).id with f | _ | ⟨ready, ctx⟩
      · rfl
      · simp [RunState.beside]
      · cases ready <;> simp [RunState.beside]

end Beside

/-- What the other tasks are does not matter. -/
theorem exec_tasks (s : RunState C) (t : Task) :
    t.exec h B req s = (t.exec h B req { s with tasks := [] }).beside s.tasks := by
  rw [← exec_beside]
  unfold RunState.beside
  rw [List.append_nil]

/-! ## The run behind a system -/

/-- The tasks of the services that have not handed over. -/
def pending (S : Services ρ γ σ) (services : List (NodePtr × σ)) : List Task :=
  services.flatMap fun p => if S.calls p.2 = 0 then [.callback p.1] else []

theorem pending_append (l l' : List (NodePtr × σ)) : pending S (l ++ l') = pending S l ++ pending S l' :=
  List.flatMap_append

/-- The service of `n` at `j` has come from `x` to `x'`. -/
theorem pending_set {l : List (NodePtr × σ)} {j : ℕ} {n : NodePtr} {x : σ} (hj : l[j]? = some (n, x)) (x' : σ) :
    ∃ rest, (pending S l).Perm ((if S.calls x = 0 then [.callback n] else []) ++ rest) ∧
      (pending S (l.set j (n, x'))).Perm ((if S.calls x' = 0 then [.callback n] else []) ++ rest) := by
  obtain ⟨rest, hrest, hset⟩ := flatMap_set (fun p => if S.calls p.2 = 0 then [Task.callback p.1] else []) hj
  exact ⟨rest, hrest, hset (n, x')⟩

/-- **The run `a` of the graph behind the system `s`**, whose services have taken the
choices `cs`. -/
structure ShownBy (S : Services ρ γ σ) (req : ρ) (s : System C γ σ) (a : RunState C)
    (cs : List (List (γ × ℕ))) : Prop where
  ctx : a.ctx = s.run.ctx
  log : a.log = s.run.log
  fault : a.fault = s.run.fault
  tasks : a.tasks.Perm (s.run.tasks ++ pending S s.services)
  started : List.Forall₂ (Started S.toService (S.doService req)) s.services cs

/-- The service at `j`, with the choices it has taken. -/
theorem ShownBy.service {s : System C γ σ} {a : RunState C} {cs : List (List (γ × ℕ))} (hs : ShownBy S req s a cs)
    {j : ℕ} {p : NodePtr × σ} (hj : s.services[j]? = some p) :
    ∃ c, cs[j]? = some c ∧ Started S.toService (S.doService req) p c := by
  obtain ⟨hlt, hget⟩ := List.getElem?_eq_some_iff.1 hj
  have hlt' : j < cs.length := hs.started.length_eq ▸ hlt
  refine ⟨cs[j], List.getElem?_eq_getElem hlt', ?_⟩
  rw [← hget]
  exact hs.started.get hlt hlt'

/-- The task at `k`, among tasks in another order. -/
theorem perm_eraseIdx {ts us : List Task} {t : Task} {k : ℕ} (hp : ts.Perm us) (hk : us[k]? = some t) :
    ∃ k', ts[k']? = some t ∧ (ts.eraseIdx k').Perm (us.eraseIdx k) := by
  obtain ⟨hlt, hget⟩ := List.getElem?_eq_some_iff.1 hk
  obtain ⟨k', hk'⟩ := List.getElem?_of_mem (hp.mem_iff.2 (List.mem_of_getElem? hk))
  obtain ⟨hlt', hget'⟩ := List.getElem?_eq_some_iff.1 hk'
  refine ⟨k', hk', (List.perm_cons t).1 ?_⟩
  have h1 : (t :: ts.eraseIdx k').Perm ts := hget' ▸ List.getElem_cons_eraseIdx_perm hlt'
  have h2 : (t :: us.eraseIdx k).Perm us := hget ▸ List.getElem_cons_eraseIdx_perm hlt
  exact h1.trans (hp.trans h2.symm)

/-- **The run behind a system does the same task.** -/
theorem exec_behind (h : Heap) (B : Behaviour ρ C) (req : ρ) {s a : RunState C} {ts : List Task}
    (hctx : a.ctx = s.ctx) (hlog : a.log = s.log) (hfault : a.fault = s.fault) (hs : s.fault = none)
    (hp : a.tasks.Perm (s.tasks ++ ts)) {k : ℕ} {t : Task} (hk : s.tasks[k]? = some t) :
    ∃ k' a', a.step h B req k' = some a' ∧
      a'.ctx = (t.exec h B req { s with tasks := s.tasks.eraseIdx k }).ctx ∧
      a'.log = (t.exec h B req { s with tasks := s.tasks.eraseIdx k }).log ∧
      a'.fault = (t.exec h B req { s with tasks := s.tasks.eraseIdx k }).fault ∧
      a'.tasks.Perm ((t.exec h B req { s with tasks := s.tasks.eraseIdx k }).tasks ++ ts) := by
  have hlt : k < s.tasks.length := (List.getElem?_eq_some_iff.1 hk).1
  obtain ⟨k', hk', hperm⟩ := perm_eraseIdx hp (t := t) (k := k) (by rwa [List.getElem?_append_left hlt])
  rw [List.eraseIdx_append_of_lt_length hlt] at hperm
  refine ⟨k', t.exec h B req { a with tasks := a.tasks.eraseIdx k' }, ?_, ?_⟩
  · unfold RunState.step
    rw [hfault, hs, hk']
    rfl
  · rw [exec_tasks { a with tasks := a.tasks.eraseIdx k' }, exec_tasks { s with tasks := s.tasks.eraseIdx k }]
    dsimp only
    rw [hctx, hlog, hfault]
    refine ⟨rfl, rfl, rfl, ?_⟩
    show (a.tasks.eraseIdx k' ++ _).Perm ((s.tasks.eraseIdx k ++ _) ++ ts)
    refine (hperm.append_right _).trans ?_
    rw [List.append_assoc, List.append_assoc]
    exact List.perm_append_comm.append_left _

/-! ## One step -/

def Task.isCallback : Task → Bool
  | .callback _ => true
  | _ => false

/-- A task adds at most one call of `do_service`. -/
theorem countP_exec (h : Heap) (B : Behaviour ρ C) (req : ρ) (s : RunState C) (t : Task) :
    (t.exec h B req s).tasks.countP Task.isCallback ≤ s.tasks.countP Task.isCallback + 1 := by
  have hspawn : ∀ last, (spawn last).countP Task.isCallback = 0 := by
    intro last
    cases last <;> rfl
  cases t with
  | run n =>
    unfold Task.exec
    dsimp only
    cases (B.skip n req s.ctx.nodeServiceContextVec).1 <;> simp [Task.isCallback]
  | service n k =>
    unfold Task.exec
    cases hk : (B.doService n req)[k]? with
    | some f => simp [hk, Task.isCallback]
    | none => cases ht : (h n).type <;> simp [hk, ht, Task.isCallback]
  | callback n => simp [Task.exec, Task.isCallback]
  | output n i last =>
    unfold Task.exec
    cases hout : (h n).outNodes[i]? with
    | none => simp [hout, hspawn]
    | some v =>
      rcases hn : s.ctx.notify (h v).id with f | _ | ⟨ready, ctx⟩
      · simp [hout, hn]
      · simp [hout, hn, Task.isCallback]
      · cases ready <;> simp [hout, hn, hspawn, Task.isCallback]

/-- **One step of a system.** The run behind it does the same task, or a service hands over
and the run does the callback, or the run does nothing. -/
theorem shownBy_step {N : NodePtr → ℕ} (hP : ∀ n g, Promises S.toService (N n) (S.doService req n g))
    {s s' : System C γ σ} {a : RunState C} {cs : List (List (γ × ℕ))} (hs : ShownBy S req s a cs)
    {choice : SystemChoice} (hstep : s.step h B S req choice = some s') :
    ∃ bs a' cs', Machine.run (RunState.step h B req) a bs = some a' ∧ ShownBy S req s' a' cs' ∧
      s'.run.tasks.countP Task.isCallback + s'.services.length ≤
        s.run.tasks.countP Task.isCallback + s.services.length + bs.length ∧
      s.services.length + total (fun _ => 1) cs + 1 ≤
        s'.services.length + total (fun _ => 1) cs' + bs.length := by
  unfold System.step at hstep
  split at hstep
  · cases hstep
  rename_i hok
  have hfault : s.run.fault = none := by
    cases hf : s.run.fault with
    | none => rfl
    | some f => exact absurd (Or.inl (by rw [hf]; rfl)) hok
  cases choice with
  | task k =>
    dsimp only at hstep
    split at hstep
    · -- `do_service` is called: nothing has been handed over yet
      rename_i n hk
      simp only [Option.some.injEq] at hstep
      subst hstep
      obtain ⟨hlt, hget⟩ := List.getElem?_eq_some_iff.1 hk
      have hperm : (.callback n :: s.run.tasks.eraseIdx k).Perm s.run.tasks :=
        hget ▸ List.getElem_cons_eraseIdx_perm hlt
      have hcount := hperm.countP_eq Task.isCallback
      rw [List.countP_cons_of_pos (by rfl)] at hcount
      refine ⟨[], a, cs ++ [[]], rfl, ⟨hs.ctx, hs.log, hs.fault, ?_, ?_⟩, ?_, ?_⟩
      · refine hs.tasks.trans ?_
        rw [pending_append]
        show (s.run.tasks ++ _).Perm (s.run.tasks.eraseIdx k ++ (_ ++ pending S [(n, _)]))
        have hone : pending S [(n, S.doService req n s.shared)] = [.callback n] := by
          unfold pending
          rw [List.flatMap_singleton, if_pos (hP n s.shared).calls]
        rw [hone, ← List.append_assoc]
        refine (hperm.symm.append_right _).trans ?_
        exact (List.perm_append_singleton (Task.callback n) _).symm
      · exact List.rel_append hs.started (.cons (started_start _ _ n s.shared) .nil)
      · simp only [List.length_append, List.length_singleton, List.length_nil]
        omega
      · simp only [List.length_append, List.length_singleton, List.length_nil, total_append, total_cons,
          total_nil, weight_nil]
        omega
    · -- any other task
      rename_i hne
      obtain ⟨run, hrun, rfl⟩ := Option.map_eq_some_iff.1 hstep
      unfold RunState.step at hrun
      rw [if_neg (by rw [hfault]; simp)] at hrun
      cases hk : s.run.tasks[k]? with
      | none => rw [hk] at hrun; cases hrun
      | some t =>
        rw [hk] at hrun
        simp only [Option.some.injEq] at hrun
        subst hrun
        obtain ⟨k', a', ha, hctx, hlog, hf, htasks⟩ :=
          exec_behind h B req hs.ctx hs.log hs.fault hfault hs.tasks hk
        refine ⟨[k'], a', cs, Machine.run_cons_iff.2 ⟨a', ha, rfl⟩, ⟨hctx, hlog, hf, htasks, hs.started⟩, ?_, ?_⟩
        · have := countP_exec h B req { s.run with tasks := s.run.tasks.eraseIdx k } t
          have hle := (List.eraseIdx_sublist s.run.tasks k).countP_le (p := Task.isCallback)
          simp only [List.length_singleton]
          dsimp only at this ⊢
          omega
        · simp only [List.length_singleton]
          omega
  | service j t =>
    dsimp only at hstep
    split at hstep
    · cases hstep
    rename_i n x hj
    obtain ⟨⟨shared, x'⟩, hx, rfl⟩ := Option.map_eq_some_iff.1 hstep
    obtain ⟨c, hc, hst⟩ := hs.service hj
    have hst' := hst.step hx
    have hstarted := started_set (j := j) hs.started hst'
    have htotal := total_set (w := fun _ => 1) hc (c ++ [(s.shared, t)])
    rw [weight_append, weight_cons, weight_nil] at htotal
    obtain ⟨rest, hp, hp'⟩ := pending_set (S := S) hj x'
    rcases hst.calls_step (hP n) hx with heq | ⟨h0, h1⟩
    · -- the service goes on by itself
      refine ⟨[], a, cs.set j (c ++ [(s.shared, t)]), rfl, ⟨?_, ?_, ?_, ?_, hstarted⟩, ?_, ?_⟩
      · exact hs.ctx
      · rw [hs.log, heq]
        simp [RunState.runOutputNodes]
      · exact hs.fault
      · rw [heq] at hp' ⊢
        simp only [RunState.runOutputNodes, Nat.sub_self, List.replicate_zero, List.append_nil]
        exact hs.tasks.trans ((hp.trans hp'.symm).append_left _)
      · rw [heq]
        simp [RunState.runOutputNodes]
      · simp only [List.length_set, List.length_nil]
        omega
    · -- the service hands over: the run behind does the callback
      rw [if_pos h0] at hp
      rw [if_neg (by omega)] at hp'
      have hperm : a.tasks.Perm (.callback n :: (s.run.tasks ++ rest)) :=
        hs.tasks.trans ((hp.append_left _).trans List.perm_middle)
      obtain ⟨k', hk', herase⟩ := perm_eraseIdx (k := 0) hperm rfl
      rw [List.eraseIdx_zero, List.tail_cons] at herase
      refine ⟨[k'], { a with
        tasks := a.tasks.eraseIdx k' ++ [.output n 0 none], log := a.log ++ [.served n] },
        cs.set j (c ++ [(s.shared, t)]), Machine.run_cons_iff.2 ⟨_, ?_, rfl⟩,
        ⟨hs.ctx, ?_, hs.fault, ?_, hstarted⟩, ?_, ?_⟩
      · unfold RunState.step
        rw [if_neg (by rw [hs.fault, hfault]; simp), hk']
        rfl
      · rw [hs.log, h0, h1]
        rfl
      · rw [h0, h1]
        show (a.tasks.eraseIdx k' ++ [Task.output n 0 none]).Perm
          ((s.run.tasks ++ [.output n 0 none]) ++ pending S (s.services.set j (n, x')))
        rw [List.append_assoc]
        refine (herase.append_right _).trans ?_
        rw [List.append_assoc]
        exact (List.perm_append_comm.trans (hp'.symm.append_left _)).append_left _
      · rw [h0, h1]
        simp [RunState.runOutputNodes, Task.isCallback]
      · simp only [List.length_set, List.length_singleton]
        omega

/-! ## Runs -/

/-- **Every state of a system** has a run of the graph behind it. -/
theorem shownBy_run {N : NodePtr → ℕ} (hP : ∀ n g, Promises S.toService (N n) (S.doService req n g))
    {a₀ : RunState C} : ∀ as (s s' : System C γ σ) a cs bs, Machine.run (RunState.step h B req) a₀ bs = some a →
      ShownBy S req s a cs → Machine.run (System.step h B S req) s as = some s' →
      ∃ bs' a' cs', Machine.run (RunState.step h B req) a₀ bs' = some a' ∧ ShownBy S req s' a' cs' ∧
        s'.run.tasks.countP Task.isCallback + s'.services.length + bs.length ≤
          s.run.tasks.countP Task.isCallback + s.services.length + bs'.length ∧
        as.length + s.services.length + total (fun _ => 1) cs + bs.length ≤
          s'.services.length + total (fun _ => 1) cs' + bs'.length := by
  intro as
  induction as with
  | nil =>
    intro s s' a cs bs ha hs h
    rw [Machine.run_nil, Option.some.injEq] at h
    subst h
    exact ⟨bs, a, cs, ha, hs, by omega, by simp only [List.length_nil]; omega⟩
  | cons choice as ih =>
    intro s s' a cs bs ha hs h
    obtain ⟨u, hstep, hrun⟩ := Machine.run_cons_iff.1 h
    obtain ⟨bs₁, a₁, cs₁, ha₁, hs₁, h1, h2⟩ := shownBy_step hP hs hstep
    obtain ⟨bs', a', cs', ha', hs', h3, h4⟩ := ih u s' a₁ cs₁ (bs ++ bs₁)
      (Machine.run_append_iff.2 ⟨a, ha, ha₁⟩) hs₁ hrun
    rw [List.length_append] at h3 h4
    exact ⟨bs', a', cs', ha', hs', by omega, by rw [List.length_cons]; omega⟩

theorem shownBy_init (S : Services ρ γ σ) (req : ρ) (s₀ : RunState C) (shared : γ) :
    ShownBy S req { run := s₀, shared := shared } s₀ [] :=
  ⟨rfl, rfl, rfl, by simp [pending], .nil⟩

end Graphize
