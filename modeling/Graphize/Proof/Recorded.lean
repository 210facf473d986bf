import Graphize.Spec.Deployment
import Graphize.Proof.RedisAttribution

/-!
# A deployment is a service with a backend

`do_service` learns from the clients only whether a batch is accepted and what its callback
is given, and it asks for each batch once. So what has been recorded at the end could have
been there from the beginning.

* `run_setBackend`: a run does not depend on what is said of a batch that it has not sent.
* `Unsent`: no batch is sent that has been sent before.
* `deployment_refines`: every run of a deployment is a run of `Spec/RedisRun`.
-/

namespace Graphize

open Threads

universe u

section

variable {ρ : Type*} {env : RedisEnv ρ}

/-! ## What an operation reads of the backend -/

/-- Where an operation reads the backend of `s`, it finds the same in `b`. -/
def SameFor (b : Backend) (s : Serving) : Op → Prop
  | .issue j i _ => ∀ info key, s.node.fetchInfoVec[j]? = some info → info.keys[i]? = some key →
      b.accepts j i = s.request.backend.accepts j i
  | .callback j i _ _ => b.reply j i = s.request.backend.reply j i
  | _ => True

def Outcome.setBackend (b : Backend) : Outcome → Outcome
  | .next s push => .next (s.setBackend b) push
  | .throw s => .throw (s.setBackend b)
  | .fault s f => .fault (s.setBackend b) f

variable {s s' : Serving} {b : Backend} {t : ℕ} {op : Op}

theorem issue_setBackend {j i step : ℕ} (h : SameFor b s (.issue j i step)) :
    execIssue (s.setBackend b) j i step = (execIssue s j i step).setBackend b := by
  unfold execIssue
  simp only [Serving.setBackend_node, Serving.setBackend_request_backend]
  cases hinfo : s.node.fetchInfoVec[j]? with
  | none => rfl
  | some info =>
    cases hkey : info.keys[i]? with
    | none =>
      simp only [hkey]
      rfl
    | some key =>
      simp only [hkey, h info key hinfo hkey]
      by_cases hacc : s.request.backend.accepts j i = true
      · rw [if_pos hacc, if_pos hacc]
        rfl
      · rw [if_neg hacc, if_neg hacc]
        rfl

theorem callback_setBackend {j i step : ℕ} {key : Bytes} (h : SameFor b s (.callback j i step key)) :
    execCallback env (s.setBackend b) j i step key = (execCallback env s j i step key).setBackend b := by
  have hreply : b.reply j i = s.request.backend.reply j i := h
  unfold execCallback
  simp only [Serving.addLog_node, Serving.addLog_request_resultMap, Serving.addLog_request_backend,
    Serving.setBackend_node, Serving.setBackend_request_resultMap, Serving.setBackend_request_backend, hreply]
  cases s.node.fetchInfoVec[j]? with
  | none => rfl
  | some info =>
    cases s.request.resultMap[j]? with
    | none => rfl
    | some items =>
      cases hitem : items[i / step]? with
      | none =>
        simp only [hitem]
        rfl
      | some item =>
        cases hfill : fillItem info j i step key (s.request.backend.reply j i) item with
        | error f =>
          simp only [hitem, hfill]
          rfl
        | ok item' =>
          simp only [hitem, hfill]
          by_cases hp : env.enableParalParse = true
          · rw [if_pos hp, if_pos hp]
            simp only [Serving.setItems_request_log, Serving.addLog_request_log, Serving.setBackend_request_log]
            split <;> rfl
          · rw [if_neg hp, if_neg hp]
            rfl

theorem merge_setBackend : execMerge env (s.setBackend b) = (execMerge env s).setBackend b := by
  unfold execMerge
  simp only [Serving.setBackend_node, Serving.setBackend_request_resultMap, Serving.setBackend_request_log]
  rcases mergeMap s.node.fetchInfoVec s.request.resultMap
    (env.resultOrder (List.range s.request.resultMap.length)) (s.node.cache, s.request.log) with ⟨⟨cache, log⟩, e⟩
  cases e <;> rfl

theorem parseCached_setBackend : execParseCached env (s.setBackend b) = (execParseCached env s).setBackend b := by
  unfold execParseCached
  simp only [Serving.setBackend_node, Serving.setBackend_request_cacheDataVec, Serving.setBackend_request_log]
  rcases callAll env (cachedCalls env s.node.fetchInfoVec s.request.cacheDataVec) s.request.log with ⟨log, threw⟩
  cases threw with
  | true => rfl
  | false =>
    simp only [Serving.setLog, Serving.setBackend_request_promise]
    cases s.request.promise <;> rfl

theorem fetchInfo_setBackend (j : ℕ) : execFetchInfo env (s.setBackend b) j = (execFetchInfo env s j).setBackend b := by
  unfold execFetchInfo
  simp only [Serving.setBackend_node]
  cases s.node.fetchInfoVec[j]? with
  | none => rfl
  | some info =>
    simp only
    split_ifs <;> rfl

/-- **An operation** does the same with a backend that says the same where it is read. -/
theorem exec_setBackend (h : SameFor b s op) : op.exec env (s.setBackend b) = (op.exec env s).setBackend b := by
  cases op with
  | fetchInfo j => exact fetchInfo_setBackend j
  | issue j i step => exact issue_setBackend h
  | callback j i step key => exact callback_setBackend h
  | mergeCacheData => exact merge_setBackend
  | parseCachedData => exact parseCached_setBackend
  | processResponse =>
    unfold Op.exec
    simp only [Serving.setBackend_request_log]
    split_ifs <;> rfl
  | _ => rfl

theorem finish_setBackend (o : Outcome) (ops : List Op) :
    (o.setBackend b).finish t ops = (o.finish t ops).setBackend b := by
  cases o with
  | next s push => rfl
  | throw s =>
    unfold Outcome.setBackend Outcome.finish
    simp only
    cases unwind ops <;> rfl
  | fault s f => rfl

theorem step_setBackend (h : ∀ op rest, s.request.threads[t]? = some (op :: rest) → SameFor b s op) :
    (s.setBackend b).step env t = (s.step env t).map fun s => s.setBackend b := by
  unfold Serving.step
  simp only [Serving.setBackend_request_crash, Serving.setBackend_request_threads, Serving.setBackend_request_promise]
  by_cases hcrash : s.request.crash.isSome
  · rw [if_pos hcrash, if_pos hcrash]
    rfl
  · rw [if_neg hcrash, if_neg hcrash]
    cases ht : s.request.threads[t]? with
    | none => rfl
    | some ops =>
      cases ops with
      | nil => rfl
      | cons op rest =>
        simp only
        split
        · rfl
        · rw [exec_setBackend (h op rest ht), finish_setBackend]
          rfl

/-! ## What has been sent -/

/-- Only a round of the loop over the batches sends one. -/
theorem Emits.of_issue {j i : ℕ} {ks : List Bytes} {accepted : Bool} (h : Emits env s op (.issue j i ks accepted)) :
    ∃ step info, op = .issue j i step ∧ s.node.fetchInfoVec[j]? = some info ∧ i < info.keys.length ∧
      ks = (info.keys.drop i).take step ∧ accepted = s.request.backend.accepts j i := by
  generalize hev : RedisEvent.issue j i ks accepted = ev at h
  cases h with
  | @issue j' i' step info key hinfo hkey =>
    cases hev
    exact ⟨step, info, rfl, hinfo, (List.getElem?_eq_some_iff.1 hkey).1, rfl, rfl⟩
  | parse hpar hinfo hitems hitem hfill he' => cases he' with | parse hkey hval => cases hev
  | write hw =>
    obtain ⟨-, -, -, -, -, -, item, -, hw⟩ := hw
    cases hw with | set hptr hkey hval hlen => cases hev
  | _ => cases hev

/-- Only a callback is called back. -/
theorem Emits.of_called {j i : ℕ} (h : Emits env s op (.called j i)) : ∃ step key, op = .callback j i step key := by
  generalize hev : RedisEvent.called j i = ev at h
  cases h with
  | @called j' i' step key =>
    cases hev
    exact ⟨step, key, rfl⟩
  | parse hpar hinfo hitems hitem hfill he' => cases he' with | parse hkey hval => cases hev
  | write hw =>
    obtain ⟨-, -, -, -, -, -, item, -, hw⟩ := hw
    cases hw with | set hptr hkey hval hlen => cases hev
  | _ => cases hev

/-- Where the backend has been read, this is in the log. -/
theorem read_logged (h : s.step env t = some s') {rest : List Op} (ht : s.request.threads[t]? = some (op :: rest)) :
    (∀ j i step info key, op = .issue j i step → s.node.fetchInfoVec[j]? = some info → info.keys[i]? = some key →
        ∃ ks accepted, .issue j i ks accepted ∈ s'.request.log) ∧
      ∀ j i step key, op = .callback j i step key → .called j i ∈ s'.request.log := by
  have hlog : s'.request.log = (op.exec env s).state.request.log := by
    unfold Serving.step at h
    split at h
    · cases h
    · simp only [ht, Option.ite_none_left_eq_some, Option.some.injEq] at h
      rw [← h.2, finish_log]
  rw [hlog]
  constructor
  · rintro j i step info key rfl hinfo hkey
    refine ⟨(info.keys.drop i).take step, s.request.backend.accepts j i, ?_⟩
    unfold Op.exec execIssue
    simp only [hinfo, hkey]
    split <;> exact List.mem_append_right _ List.mem_cons_self
  · rintro j i step key rfl
    have hends := callback_ends env s j i step key
    have hexec : (Op.callback j i step key).exec env s = execCallback env s j i step key := rfl
    rw [hexec]
    generalize execCallback env s j i step key = o at hends
    cases hends with
    | filled hinfo hitems hitem hfill hevs hall ho =>
      rcases ho with rfl | rfl <;> exact List.mem_append_right _ List.mem_cons_self
    | _ => exact List.mem_append_right _ List.mem_cons_self

/-- **A run does not depend on what is said of a batch that it has not sent.** -/
theorem run_setBackend {j i : ℕ} : ∀ (ts : List ℕ) (s : Serving), Machine.run (Serving.step env) s ts = some s' →
    (∀ ks accepted, .issue j i ks accepted ∉ s'.request.log) → .called j i ∉ s'.request.log →
    (∀ j' i', ¬(j' = j ∧ i' = i) → b.accepts j' i' = s.request.backend.accepts j' i' ∧
      b.reply j' i' = s.request.backend.reply j' i') →
    Machine.run (Serving.step env) (s.setBackend b) ts = some (s'.setBackend b) := by
  intro ts
  induction ts with
  | nil =>
    intro s h _ _ _
    simp only [Machine.run_nil, Option.some.injEq] at h
    subst h
    rfl
  | cons t ts ih =>
    intro s h hissue hcalled hb
    obtain ⟨u, hu, hrun⟩ := Machine.run_cons_iff.1 h
    have hstep : (s.setBackend b).step env t = (s.step env t).map fun s => s.setBackend b := by
      refine step_setBackend fun op rest ht => ?_
      obtain ⟨hsent, hcall⟩ := read_logged hu ht
      cases op with
      | issue j' i' step =>
        intro info key hinfo hkey
        refine (hb j' i' ?_).1
        rintro ⟨rfl, rfl⟩
        obtain ⟨ks, accepted, hmem⟩ := hsent j' i' step info key rfl hinfo hkey
        exact hissue ks accepted (mem_log_run ts u s' hrun hmem)
      | callback j' i' step key =>
        refine (hb j' i' ?_).2
        rintro ⟨rfl, rfl⟩
        exact hcalled (mem_log_run ts u s' hrun (hcall j' i' step key rfl))
      | _ => trivial
    have hbackend : u.request.backend = s.request.backend := (step_opEffect hu).1.backend
    refine Machine.run_cons_iff.2 ⟨u.setBackend b, by rw [hstep, hu]; rfl, ih u hrun hissue hcalled ?_⟩
    rw [hbackend]
    exact hb

variable (env) in
/-- The loop over the batches of a fetch info takes its steps, and no batch that has been
sent is still ahead. -/
structure Unsent (s : Serving) : Prop where
  steps : ∀ ops ∈ s.request.threads, ∀ j i step, .issue j i step ∈ ops →
    ∃ info, s.node.fetchInfoVec[j]? = some info ∧ info.Active env ∧ step = info.step env
  single : ∀ j i, total (aheadW j i) s.request.threads ≤ 1
  sent : ∀ j i ks accepted, .issue j i ks accepted ∈ s.request.log → total (aheadW j i) s.request.threads = 0
  called : ∀ j i, .called j i ∈ s.request.log → ∃ ks accepted, .issue j i ks accepted ∈ s.request.log

theorem aheadW_plain {j i : ℕ} (hop : op.isPlain = true) : aheadW j i op = 0 := by
  cases op <;> first | rfl | simp [Op.isPlain] at hop

theorem weight_aheadW_plain {j i : ℕ} {push : List Op} (hpush : ∀ op ∈ push, op.isPlain = true) :
    weight (aheadW j i) push = 0 := weight_eq_zero fun op hop => aheadW_plain (hpush op hop)

/-- What an operation hands on is ahead of it, and no more than that. -/
theorem OpEffect.aheadW_le {push : List Op} {new : List (List Op)} {rm : List (List RedisResultItem)} {j i : ℕ}
    (h : OpEffect s op push new rm) : weight (aheadW j i) push + total (aheadW j i) new ≤ aheadW j i op := by
  cases h with
  | opened => simp [aheadW]
  | @accepted j' i' step =>
    simp only [weight_cons, weight_nil, total_cons, total_nil, aheadW]
    split_ifs <;> omega
  | @refused j' i' step =>
    simp only [weight_cons, weight_nil, total_nil, aheadW]
    split_ifs <;> omega
  | filled => simp
  | @finished sendRpc =>
    rw [weight_finishOps]
    simp [aheadW]
  | plain hpush =>
    rw [weight_aheadW_plain hpush]
    simp

/-- A batch that is sent is not ahead any more. -/
theorem OpEffect.aheadW_sent {push : List Op} {new : List (List Op)} {rm : List (List RedisResultItem)} {j i step : ℕ}
    (h : OpEffect s (.issue j i step) push new rm) (hstep : 0 < step) :
    weight (aheadW j i) push + total (aheadW j i) new = 0 := by
  cases h with
  | accepted => simp [aheadW, Nat.pos_iff_ne_zero.1 hstep]
  | refused => simp [aheadW, Nat.pos_iff_ne_zero.1 hstep]
  | plain hpush =>
    rw [weight_aheadW_plain hpush]
    simp

/-- The rounds that a fetch info begins with. -/
theorem opened_step {j : ℕ} {rest : List Op} (h : s.step env t = some s') (hc : s'.request.crash = none)
    (ht : s.request.threads[t]? = some (.fetchInfo j :: rest)) {ops : List Op} (hops : ops ∈ s'.request.threads)
    {j' i step : ℕ} (hop : .issue j' i step ∈ ops) : (∃ ops ∈ s.request.threads, .issue j' i step ∈ ops) ∨
      ∃ info, s.node.fetchInfoVec[j']? = some info ∧ info.Active env ∧ step = info.step env := by
  unfold Serving.step at h
  split at h
  · cases h
  · simp only [ht, Option.ite_none_left_eq_some, Option.some.injEq] at h
    obtain ⟨-, h⟩ := h
    have hends := fetchInfo_ends env s j
    have hexec : (Op.fetchInfo j).exec env s = execFetchInfo env s j := rfl
    rw [hexec] at h
    generalize execFetchInfo env s j = o at hends h
    have hrest : ∀ push, (ops ∈ s.request.threads.set t (push ++ rest)) → .issue j' i step ∉ push →
        ∃ ops ∈ s.request.threads, .issue j' i step ∈ ops := by
      intro push hops hpush
      rcases List.mem_or_eq_of_mem_set hops with hops | rfl
      · exact ⟨ops, hops, hop⟩
      · exact ⟨_, List.mem_of_getElem? ht, List.mem_cons_of_mem _ ((List.mem_append.1 hop).resolve_left hpush)⟩
    cases hends with
    | outOfRange =>
      subst h
      cases hc
    | skipped hinfo hact =>
      subst h
      exact Or.inl (hrest [.condDone false] hops (by simp))
    | divByZero =>
      subst h
      cases hc
    | @opened info hinfo hact hb =>
      subst h
      by_cases hpush : .issue j' i step ∈ [Op.issue j 0 (info.step env)]
      · simp only [List.mem_singleton, Op.issue.injEq] at hpush
        obtain ⟨rfl, -, rfl⟩ := hpush
        exact Or.inr ⟨info, hinfo, hact, rfl⟩
      · exact Or.inl (hrest _ hops hpush)

theorem Unsent.step (hU : Unsent env s) (hT : Tied env s.node.fetchInfoVec s.request) (h : s.step env t = some s')
    (hc : s'.request.crash = none) : Unsent env s' := by
  obtain ⟨hk, op, rest, ht, heffect⟩ := step_opEffect h
  obtain ⟨push, new, front, back, he, hfront, hback, hths⟩ := heffect hc
  obtain ⟨op', rest', evs, ht', hlog, hevs⟩ := step_log h
  obtain ⟨rfl, rfl⟩ : op = op' ∧ rest = rest' := by
    rw [ht, Option.some.injEq, List.cons.injEq] at ht'
    exact ht'
  have hmem := List.mem_of_getElem? ht
  have htotal : ∀ j i, total (aheadW j i) s'.request.threads + aheadW j i op ≤
      total (aheadW j i) s.request.threads + (weight (aheadW j i) push + total (aheadW j i) new) :=
    fun j i => total_step (fun _ => aheadW_plain) ht hfront hback hths
  have hless : ∀ j i, total (aheadW j i) s'.request.threads ≤ total (aheadW j i) s.request.threads := by
    intro j i
    have h1 := htotal j i
    have h2 := he.aheadW_le (j := j) (i := i)
    omega
  refine ⟨fun ops hops j i step hop => ?_, fun j i => (hless j i).trans (hU.single j i),
    fun j i ks accepted hsent => ?_, fun j i hcalled => ?_⟩
  · rw [hk.vec]
    have hround : ∀ i', .issue j i' step = op → _ := fun i' heq => hU.steps _ hmem j i' step (heq ▸ List.mem_cons_self)
    rcases mem_step ht hfront hback hths hops hop with ⟨ops', hops', hop'⟩ | hpush | hplain | ⟨ops', hops', hop'⟩
    · exact hU.steps ops' hops' j i step hop'
    · generalize s'.request.resultMap = rm at he
      cases he with
      | opened =>
        rcases opened_step h hc ht hops hop with ⟨ops', hops', hop'⟩ | hinfo
        · exact hU.steps ops' hops' j i step hop'
        · exact hinfo
      | @accepted j' i' step' =>
        simp only [List.mem_singleton, Op.issue.injEq] at hpush
        obtain ⟨rfl, -, rfl⟩ := hpush
        exact hround i' rfl
      | @refused j' i' step' =>
        simp only [List.mem_cons, List.not_mem_nil, or_false, reduceCtorEq, false_or, Op.issue.injEq] at hpush
        obtain ⟨rfl, -, rfl⟩ := hpush
        exact hround i' rfl
      | finished => simp [finishOps] at hpush
      | filled => simp at hpush
      | plain hplain => exact absurd (hplain _ hpush) (by simp [Op.isPlain])
    · simp [Op.isPlain] at hplain
    · generalize s'.request.resultMap = rm at he
      cases he with
      | accepted =>
        rw [List.mem_singleton.1 hops'] at hop'
        simp at hop'
      | _ => simp at hops'
  · rw [hlog] at hsent
    rcases List.mem_append.1 hsent with hsent | hsent
    · have h1 := hU.sent j i ks accepted hsent
      have h2 := hless j i
      omega
    · obtain ⟨step, info, rfl, -⟩ := (hevs _ hsent).of_issue
      have h1 := htotal j i
      have h2 := he.aheadW_sent (hT.steps _ hmem j i step List.mem_cons_self)
      have h3 := hU.single j i
      have h4 : aheadW j i (.issue j i step) = 1 := by simp [aheadW]
      omega
  · have hold : (∃ ks accepted, .issue j i ks accepted ∈ s.request.log) →
        ∃ ks accepted, .issue j i ks accepted ∈ s'.request.log := by
      rintro ⟨ks, accepted, hsent⟩
      exact ⟨ks, accepted, mem_log_step h hsent⟩
    rw [hlog] at hcalled
    rcases List.mem_append.1 hcalled with hcalled | hcalled
    · exact hold (hU.called j i hcalled)
    · obtain ⟨step, key, rfl⟩ := (hevs _ hcalled).of_called
      obtain ⟨ks, -, hsent, -⟩ := hT.pending j i ⟨_, hmem, step, key, List.mem_cons_self⟩
      exact hold ⟨ks, true, hsent⟩

variable {node : RedisNode} {req : ρ}

theorem unsent_doService : Unsent env (node.doService env req b) := by
  have hlog : (node.doService env req b).request.log = [] := doService_log
  refine ⟨fun ops hops j i step hop => ?_, fun j i => ?_, by simp [hlog], by simp [hlog]⟩ <;>
    rcases doService_cases env node req b with ⟨-, heq⟩ | ⟨vec, data, -, -, heq⟩
  · rw [heq] at hops
    rw [List.mem_singleton.1 hops] at hop
    simp at hop
  · rw [heq] at hops
    rw [List.mem_singleton.1 hops] at hop
    simp [loopOps] at hop
  · rw [heq]
    simp [aheadW]
  · rw [heq]
    simp only [total_cons, total_nil, weight_aheadW_loopOps]
    split_ifs <;> omega

/-- **Along a run of the service**, until it ends the process. -/
theorem unsent_run {ts : List ℕ} (h : Machine.run (Serving.step env) (node.doService env req b) ts = some s)
    (hc : s.request.crash = none) : Unsent env s ∧ Tied env s.node.fetchInfoVec s.request := by
  refine Machine.run_inv (fun s => s.request.crash = none → Unsent env s ∧ Tied env s.node.fetchInfoVec s.request)
    (fun s t s' hI hstep hc => ?_) ts _ s (fun _ => ⟨unsent_doService, tied_doService⟩) h hc
  have hcrash : s.request.crash = none := by
    by_contra hsome
    unfold Serving.step at hstep
    rw [if_pos (Option.isSome_iff_ne_none.2 hsome)] at hstep
    cases hstep
  obtain ⟨hU, hT⟩ := hI hcrash
  refine ⟨hU.step hT hstep hc, ?_⟩
  have hvec : s'.node.fetchInfoVec = s.node.fetchInfoVec := (step_opEffect hstep).1.vec
  rw [hvec]
  exact hT.step hstep hc

end

/-! ## Deployments -/

/-- Nothing has been recorded. -/
def Backend.unasked : Backend where
  accepts _ _ := true
  reply _ _ := {}

section

variable {ρ : Type*} {Conn : Type u} {env : DeploymentEnv ρ Conn} {d d' : Deployment Conn} {node : RedisNode} {req : ρ}

/-- The turns of the request itself. -/
def threadTurns (turns : List DeploymentTurn) : List ℕ :=
  turns.filterMap fun turn =>
    match turn with
    | .thread t => some t
    | _ => none

theorem Deployment.crash_of_step {turn : DeploymentTurn} (h : d.step env turn = some d') :
    d.serving.request.crash = none := by
  by_contra hsome
  have hcrash := Option.isSome_iff_ne_none.2 hsome
  cases turn <;>
  · unfold Deployment.step at h
    simp only [hcrash, if_true] at h
    cases h

/-- What a step of a deployment is that does not end the process: a step of the service, once
the answer to the batch that is sent has been recorded; or nothing that the request sees. -/
inductive StepKind (env : DeploymentEnv ρ Conn) (d d' : Deployment Conn) : DeploymentTurn → Prop
  | plain {t} (hnext : d.serving.nextIssue t = none) (hstep : d.serving.step env.service t = some d'.serving)
      (hclients : d'.clients = d.clients) : StepKind env d d' (.thread t)
  | issue {t j i step fetchInfo c accepted reply c'} (hnext : d.serving.nextIssue t = some (j, i, step, fetchInfo))
      (hclient : d.clients fetchInfo.redisClientId = some c)
      (hsend : sendBatch env c fetchInfo.keys i step = .ok (accepted, reply, c'))
      (hstep : (d.serving.setBackend (d.serving.request.backend.record j i accepted reply)).step env.service t =
        some d'.serving)
      (hclients : d'.clients = Function.update d.clients fetchInfo.redisClientId (some c')) :
      StepKind env d d' (.thread t)
  | use {id key c ret c'} (hclient : d.clients id = some c) (hcall : c.request key = some (ret, c'))
      (hserving : d'.serving = d.serving) (hclients : d'.clients = Function.update d.clients id (some c')) :
      StepKind env d d' (.use id key)
  | refresh {id reply c c'} (hclient : d.clients id = some c)
      (hupdate : c.updateChannelPool env.fuel env.client reply = some (.ok c')) (hserving : d'.serving = d.serving)
      (hclients : d'.clients = Function.update d.clients id (some c')) : StepKind env d d' (.refresh id reply)

/-- How a client ends the process: it is not there, or a call on it does not return. -/
inductive StepFails (env : DeploymentEnv ρ Conn) (d : Deployment Conn) : DeploymentTurn → Prop
  | missing {t j i step fetchInfo} (hnext : d.serving.nextIssue t = some (j, i, step, fetchInfo))
      (hclient : d.clients fetchInfo.redisClientId = none) : StepFails env d (.thread t)
  | send {t j i step fetchInfo c crash} (hnext : d.serving.nextIssue t = some (j, i, step, fetchInfo))
      (hclient : d.clients fetchInfo.redisClientId = some c)
      (hsend : sendBatch env c fetchInfo.keys i step = .error crash) : StepFails env d (.thread t)
  | use {id key c} (hclient : d.clients id = some c) (hcall : c.request key = none) : StepFails env d (.use id key)
  | refresh {id reply c e} (hclient : d.clients id = some c)
      (hupdate : c.updateChannelPool env.fuel env.client reply = some (.error e)) : StepFails env d (.refresh id reply)

/-- **Inversion of a step.** -/
theorem Deployment.step_kind {turn : DeploymentTurn} (h : d.step env turn = some d') :
    StepKind env d d' turn ∨ (StepFails env d turn ∧ ∃ crash, d' = d.crashed crash) := by
  have hcrash := Deployment.crash_of_step h
  cases turn with
  | thread t =>
    unfold Deployment.step at h
    simp only [hcrash, Option.isSome_none, Bool.false_eq_true, if_false] at h
    cases hnext : d.serving.nextIssue t with
    | none =>
      simp only [hnext] at h
      obtain ⟨s, hs, rfl⟩ := Option.map_eq_some_iff.1 h
      exact Or.inl (.plain hnext hs rfl)
    | some place =>
      obtain ⟨j, i, step, fetchInfo⟩ := place
      simp only [hnext] at h
      unfold Deployment.issue at h
      cases hclient : d.clients fetchInfo.redisClientId with
      | none =>
        simp only [hclient, Option.some.injEq] at h
        exact Or.inr ⟨.missing hnext hclient, _, h.symm⟩
      | some c =>
        simp only [hclient] at h
        cases hsend : sendBatch env c fetchInfo.keys i step with
        | error crash =>
          simp only [hsend, Option.some.injEq] at h
          exact Or.inr ⟨.send hnext hclient hsend, _, h.symm⟩
        | ok answer =>
          obtain ⟨accepted, reply, c'⟩ := answer
          simp only [hsend] at h
          obtain ⟨s, hs, rfl⟩ := Option.map_eq_some_iff.1 h
          exact Or.inl (.issue hnext hclient hsend hs rfl)
  | use id key =>
    unfold Deployment.step at h
    simp only [hcrash, Option.isSome_none, Bool.false_eq_true, if_false] at h
    cases hclient : d.clients id with
    | none =>
      simp only [hclient] at h
      cases h
    | some c =>
      simp only [hclient] at h
      cases hcall : c.request key with
      | none =>
        simp only [hcall, Option.some.injEq] at h
        exact Or.inr ⟨.use hclient hcall, _, h.symm⟩
      | some r =>
        obtain ⟨ret, c'⟩ := r
        simp only [hcall, Option.some.injEq] at h
        subst h
        exact Or.inl (.use hclient hcall rfl rfl)
  | refresh id reply =>
    unfold Deployment.step at h
    simp only [hcrash, Option.isSome_none, Bool.false_eq_true, if_false] at h
    cases hclient : d.clients id with
    | none =>
      simp only [hclient] at h
      cases h
    | some c =>
      simp only [hclient] at h
      cases hupdate : c.updateChannelPool env.fuel env.client reply with
      | none =>
        simp only [hupdate] at h
        cases h
      | some r =>
        cases r with
        | error e =>
          simp only [hupdate, Option.some.injEq] at h
          exact Or.inr ⟨.refresh hclient hupdate, _, h.symm⟩
        | ok c' =>
          simp only [hupdate, Option.some.injEq] at h
          subst h
          exact Or.inl (.refresh hclient hupdate rfl rfl)

theorem nextIssue_iff {s : Serving} {t j i step : ℕ} {fetchInfo : FetchInfo} :
    s.nextIssue t = some (j, i, step, fetchInfo) ↔ (∃ rest, s.request.threads[t]? = some (.issue j i step :: rest)) ∧
      s.node.fetchInfoVec[j]? = some fetchInfo ∧ i < fetchInfo.keys.length := by
  constructor
  · intro h
    unfold Serving.nextIssue at h
    split at h
    · rename_i j' i' step' rest ht
      split at h
      · rename_i info hinfo
        rw [Option.ite_none_right_eq_some, Option.some.injEq, Prod.mk.injEq, Prod.mk.injEq, Prod.mk.injEq] at h
        obtain ⟨hlt, rfl, rfl, rfl, rfl⟩ := h
        exact ⟨⟨rest, ht⟩, hinfo, hlt⟩
      · cases h
    · cases h
  · rintro ⟨⟨rest, ht⟩, hinfo, hlt⟩
    unfold Serving.nextIssue
    simp only [ht, hinfo, if_pos hlt]

theorem doService_setBackend (node : RedisNode) (req : ρ) (b b' : Backend) :
    (node.doService env.service req b).setBackend b' = node.doService env.service req b' := by
  unfold RedisNode.doService
  by_cases hvec : node.fetchInfoVec = []
  · rw [if_pos hvec, if_pos hvec]
    rfl
  · rw [if_neg hvec, if_neg hvec]
    rfl

/-- The batches that a step sends. -/
theorem sent_of_step {s s' : Serving} {t j i : ℕ} {ks : List Bytes} {accepted : Bool}
    (h : s.step env.service t = some s') (hsent : .issue j i ks accepted ∈ s'.request.log) :
    .issue j i ks accepted ∈ s.request.log ∨ ∃ step fetchInfo, s.nextIssue t = some (j, i, step, fetchInfo) ∧
      ks = (fetchInfo.keys.drop i).take step ∧ accepted = s.request.backend.accepts j i := by
  obtain ⟨op, rest, evs, ht, hlog, hevs⟩ := step_log h
  rw [hlog] at hsent
  rcases List.mem_append.1 hsent with hsent | hsent
  · exact Or.inl hsent
  · obtain ⟨step, info, rfl, hinfo, hi, hks, haccepted⟩ := (hevs _ hsent).of_issue
    exact Or.inr ⟨step, info, nextIssue_iff.2 ⟨⟨rest, ht⟩, hinfo, hi⟩, hks, haccepted⟩

/-- What requests, with any keys, and refreshes of `turns` keep of the clients. -/
structure KeptBy (env : DeploymentEnv ρ Conn) (turns : List DeploymentTurn) (P : Str → RedisClient Conn → Prop) : Prop where
  request : ∀ id c key ret c', P id c → c.request key = some (ret, c') → P id c'
  refresh : ∀ id reply, .refresh id reply ∈ turns → ∀ c c', P id c →
    c.updateChannelPool env.fuel env.client reply = some (.ok c') → P id c'

/-- What is recorded of each batch in the log has become of it at a client that satisfies `P`. -/
def Recorded (env : DeploymentEnv ρ Conn) (P : Str → RedisClient Conn → Prop) (s : Serving) : Prop :=
  ∀ j i ks accepted, .issue j i ks accepted ∈ s.request.log → accepted = s.request.backend.accepts j i ∧
    ∃ fetchInfo c c', s.node.fetchInfoVec[j]? = some fetchInfo ∧ ks = fetchInfo.batch env.service i ∧
      P fetchInfo.redisClientId c ∧
      sendBatch env c fetchInfo.keys i (fetchInfo.step env.service) = .ok (accepted, s.request.backend.reply j i, c')

theorem sendBatch_request {c c' : RedisClient Conn} {keys : List Bytes} {i step : ℕ} {accepted : Bool} {reply : RpcReply}
    (h : sendBatch env c keys i step = .ok (accepted, reply, c')) : ∃ key ret, c.request key = some (ret, c') := by
  have hcall : ∃ ret, callOf env c keys i step = some (ret, c') := by
    unfold sendBatch at h
    split at h
    · rename_i command ret c'' hcommand hcall
      simp only [Except.ok.injEq, Prod.mk.injEq] at h
      obtain ⟨-, -, rfl⟩ := h
      exact ⟨_, hcall⟩
    · cases h
    · cases h
  obtain ⟨ret, hcall⟩ := hcall
  unfold callOf at hcall
  split at hcall
  · unfold RedisClient.multiFetch at hcall
    split at hcall
    · cases hcall
    · split at hcall
      · exact ⟨_, _, hcall⟩
      · cases hcall
  · obtain ⟨key, -, hcall⟩ := Option.bind_eq_some_iff.1 hcall
    exact ⟨key, _, hcall⟩

theorem record_other {b : Backend} {j i j' i' : ℕ} (accepted : Bool) (reply : RpcReply) (h : ¬(j' = j ∧ i' = i)) :
    (b.record j i accepted reply).accepts j' i' = b.accepts j' i' ∧
      (b.record j i accepted reply).reply j' i' = b.reply j' i' :=
  ⟨if_neg h, if_neg h⟩

theorem record_self (b : Backend) (j i : ℕ) (accepted : Bool) (reply : RpcReply) :
    (b.record j i accepted reply).accepts j i = accepted ∧ (b.record j i accepted reply).reply j i = reply :=
  ⟨if_pos ⟨rfl, rfl⟩, if_pos ⟨rfl, rfl⟩⟩

/-- What is known of a deployment that no client has ended. -/
structure Replayed (env : DeploymentEnv ρ Conn) (P : Str → RedisClient Conn → Prop) (node : RedisNode) (req : ρ)
    (b : Backend) (d : Deployment Conn) (ts : List ℕ) : Prop where
  run : Machine.run (Serving.step env.service) (node.doService env.service req d.serving.request.backend) ts = some d.serving
  clients : ∀ id c, d.clients id = some c → P id c
  recorded : Recorded env P d.serving
  untouched : ∀ j i, (∀ ks accepted, .issue j i ks accepted ∉ d.serving.request.log) →
    d.serving.request.backend.accepts j i = b.accepts j i ∧ d.serving.request.backend.reply j i = b.reply j i

theorem kept_update {P : Str → RedisClient Conn → Prop} {clients : Str → Option (RedisClient Conn)} {id : Str}
    {c' : RedisClient Conn} (h : ∀ id c, clients id = some c → P id c) (hc : P id c') :
    ∀ id' c, Function.update clients id (some c') id' = some c → P id' c := by
  intro id' c hid
  by_cases heq : id' = id
  · subst heq
    rw [Function.update_self, Option.some.injEq] at hid
    rw [← hid]
    exact hc
  · rw [Function.update_of_ne heq] at hid
    exact h id' c hid

/-- A step of the service, with the backend as it is after the step. -/
theorem run_concat {ts : List ℕ} {t : ℕ} {s s' : Serving}
    (hrun : Machine.run (Serving.step env.service) (node.doService env.service req s.request.backend) ts = some s)
    (hstep : s.step env.service t = some s') :
    Machine.run (Serving.step env.service) (node.doService env.service req s'.request.backend) (ts ++ [t]) = some s' := by
  have hbackend : s'.request.backend = s.request.backend := (step_opEffect hstep).1.backend
  rw [hbackend]
  exact Machine.run_append_iff.2 ⟨s, hrun, Machine.run_cons_iff.2 ⟨_, hstep, rfl⟩⟩

variable {P : Str → RedisClient Conn → Prop} {turns : List DeploymentTurn} {ts : List ℕ} {b : Backend}

/-- The batch that a thread is about to send has not been sent, and not been called back. -/
theorem Replayed.fresh (hR : Replayed env P node req b d ts) (hc : d.serving.request.crash = none) {t j i step : ℕ}
    {fetchInfo : FetchInfo} (hnext : d.serving.nextIssue t = some (j, i, step, fetchInfo)) :
    (fetchInfo.Active env.service ∧ step = fetchInfo.step env.service) ∧
      (∀ ks accepted, .issue j i ks accepted ∉ d.serving.request.log) ∧ .called j i ∉ d.serving.request.log := by
  obtain ⟨hU, -⟩ := unsent_run hR.run hc
  obtain ⟨⟨rest, ht⟩, hinfo, -⟩ := nextIssue_iff.1 hnext
  have hmem := List.mem_of_getElem? ht
  have hahead : aheadW j i (.issue j i step) ≤ total (aheadW j i) d.serving.request.threads :=
    op_le_total hmem List.mem_cons_self
  have hone : aheadW j i (.issue j i step) = 1 := by simp [aheadW]
  have hsent : ∀ ks accepted, .issue j i ks accepted ∉ d.serving.request.log := by
    intro ks accepted hmem
    have hzero := hU.sent j i ks accepted hmem
    omega
  refine ⟨?_, hsent, fun hcalled => ?_⟩
  · obtain ⟨info, hinfo', hactive, hstep⟩ := hU.steps _ hmem j i step List.mem_cons_self
    rw [hinfo, Option.some.injEq] at hinfo'
    subst hinfo'
    exact ⟨hactive, hstep⟩
  · obtain ⟨ks, accepted, hmem⟩ := hU.called j i hcalled
    exact hsent ks accepted hmem

/-- **A step of the deployment.** The answer that a step records could have been there from
the start, since the batch has not been sent before. -/
theorem Replayed.step (hR : Replayed env P node req b d ts) (hP : KeptBy env turns P) {turn : DeploymentTurn}
    (hturn : turn ∈ turns) (hc : d.serving.request.crash = none) (h : StepKind env d d' turn) :
    Replayed env P node req b d' (ts ++ threadTurns [turn]) := by
  cases h with
  | @plain t hnext hstep hclients =>
    have hframe := (step_opEffect hstep).1
    refine ⟨run_concat hR.run hstep, by rw [hclients]; exact hR.clients, fun j i ks accepted hsent => ?_,
      fun j i hno => ?_⟩
    · rw [hframe.vec, hframe.backend]
      rcases sent_of_step hstep hsent with hsent | ⟨step, fetchInfo, hnext', -⟩
      · exact hR.recorded j i ks accepted hsent
      · rw [hnext] at hnext'
        cases hnext'
    · rw [hframe.backend]
      exact hR.untouched j i fun ks accepted hsent => hno ks accepted (mem_log_step hstep hsent)
  | @issue t j i step fetchInfo c accepted reply c' hnext hclient hsend hstep hclients =>
    obtain ⟨⟨-, rfl⟩, hsent, hcalled⟩ := hR.fresh hc hnext
    obtain ⟨⟨rest, ht⟩, hinfo, hlt⟩ := nextIssue_iff.1 hnext
    have hframe := (step_opEffect hstep).1
    have hreplay := run_setBackend (b := d.serving.request.backend.record j i accepted reply) ts _ hR.run hsent hcalled
      fun j' i' hne => by
        rw [doService_backend]
        exact record_other accepted reply hne
    rw [doService_setBackend] at hreplay
    refine ⟨run_concat hreplay hstep, ?_, fun j' i' ks accepted' hmem => ?_, fun j' i' hno => ?_⟩
    · obtain ⟨key, ret, hcall⟩ := sendBatch_request hsend
      rw [hclients]
      exact kept_update hR.clients (hP.request _ c key ret c' (hR.clients _ c hclient) hcall)
    · rw [hframe.vec, hframe.backend]
      rcases sent_of_step hstep hmem with hmem | ⟨step', fetchInfo', hnext', rfl, rfl⟩
      · have hne : ¬(j' = j ∧ i' = i) := by
          rintro ⟨rfl, rfl⟩
          exact hsent _ _ hmem
        obtain ⟨haccepts, hreply⟩ := record_other (b := d.serving.request.backend) accepted reply hne
        have hold := hR.recorded j' i' ks accepted' hmem
        rw [Serving.setBackend_request_backend, haccepts, hreply]
        exact hold
      · have hsame : d.serving.nextIssue t = some (j', i', step', fetchInfo') := hnext'
        rw [hnext, Option.some.injEq, Prod.mk.injEq, Prod.mk.injEq, Prod.mk.injEq] at hsame
        obtain ⟨rfl, rfl, rfl, rfl⟩ := hsame
        obtain ⟨haccepts, hreply⟩ := record_self d.serving.request.backend j i accepted reply
        rw [Serving.setBackend_request_backend, haccepts, hreply]
        exact ⟨rfl, fetchInfo, c, c', hinfo, rfl, hR.clients _ c hclient, hsend⟩
    · -- the batch of this step is in the log
      obtain ⟨key, hkey⟩ : ∃ key, fetchInfo.keys[i]? = some key := ⟨_, List.getElem?_eq_getElem hlt⟩
      have hne : ¬(j' = j ∧ i' = i) := by
        rintro ⟨rfl, rfl⟩
        obtain ⟨ks, accepted', hmem⟩ := (read_logged hstep ht).1 j' i' _ fetchInfo key rfl hinfo hkey
        exact hno ks accepted' hmem
      obtain ⟨haccepts, hreply⟩ := record_other (b := d.serving.request.backend) accepted reply hne
      rw [hframe.backend, Serving.setBackend_request_backend, haccepts, hreply]
      exact hR.untouched j' i' fun ks accepted' hmem => hno ks accepted' (mem_log_step hstep hmem)
  | @use id key c ret c' hclient hcall hserving hclients =>
    rw [show threadTurns [.use id key] = [] from rfl, List.append_nil]
    refine ⟨by rw [hserving]; exact hR.run, ?_, by rw [hserving]; exact hR.recorded, by rw [hserving]; exact hR.untouched⟩
    rw [hclients]
    exact kept_update hR.clients (hP.request id c key ret c' (hR.clients id c hclient) hcall)
  | @refresh id reply c c' hclient hupdate hserving hclients =>
    rw [show threadTurns [.refresh id reply] = [] from rfl, List.append_nil]
    refine ⟨by rw [hserving]; exact hR.run, ?_, by rw [hserving]; exact hR.recorded, by rw [hserving]; exact hR.untouched⟩
    rw [hclients]
    exact kept_update hR.clients (hP.refresh id reply hturn c c' (hR.clients id c hclient) hupdate)

theorem threadTurns_cons (turn : DeploymentTurn) (rest : List DeploymentTurn) :
    threadTurns (turn :: rest) = threadTurns [turn] ++ threadTurns rest := List.filterMap_append (l := [turn])

/-- **A run of the deployment**, from any state. -/
theorem Replayed.run_step (hP : KeptBy env turns P) : ∀ (rest : List DeploymentTurn) (ts : List ℕ) (d : Deployment Conn),
    (∀ turn ∈ rest, turn ∈ turns) → Replayed env P node req b d ts →
    Machine.run (Deployment.step env) d rest = some d' → d'.serving.request.crash = none →
    Replayed env P node req b d' (ts ++ threadTurns rest) := by
  intro rest
  induction rest with
  | nil =>
    intro ts d _ hR h _
    simp only [Machine.run_nil, Option.some.injEq] at h
    subst h
    rw [show threadTurns [] = [] from rfl, List.append_nil]
    exact hR
  | cons turn rest ih =>
    intro ts d hturns hR h hc
    obtain ⟨u, hu, hrun⟩ := Machine.run_cons_iff.1 h
    have hcrash : u.serving.request.crash = none := by
      cases rest with
      | nil =>
        simp only [Machine.run_nil, Option.some.injEq] at hrun
        rw [hrun]
        exact hc
      | cons turn' rest =>
        obtain ⟨v, hv, -⟩ := Machine.run_cons_iff.1 hrun
        exact Deployment.crash_of_step hv
    have hkind : StepKind env d u turn := by
      refine (Deployment.step_kind hu).resolve_right ?_
      rintro ⟨-, crash, rfl⟩
      cases hcrash
    rw [threadTurns_cons, ← List.append_assoc]
    exact ih _ u (fun turn' h' => hturns turn' (List.mem_cons_of_mem _ h'))
      (hR.step hP (hturns turn List.mem_cons_self) (Deployment.crash_of_step hu) hkind) hrun hc

theorem replayed_start {clients : Str → Option (RedisClient Conn)} (hclients : ∀ id c, clients id = some c → P id c) :
    Replayed env P node req b ⟨clients, node.doService env.service req b⟩ [] := by
  refine ⟨?_, hclients, fun j i ks accepted hsent => ?_, fun j i _ => ?_⟩
  · simp only [doService_backend, Machine.run_nil]
  · rw [doService_log] at hsent
    cases hsent
  · simp only [doService_backend, and_self]

/-- **A deployment refines the service.** Whatever else the clients are used for and however
they are refreshed, a run of a deployment that nothing has ended is a run of the service,
with a backend that has said from the start what was recorded; and what was recorded of a
batch that was sent has become of it at its client, in a state with every property that
requests and the refreshes of the run keep. -/
theorem deployment_refines (clients : Str → Option (RedisClient Conn)) (node : RedisNode) (req : ρ) (b : Backend)
    (hclients : ∀ id c, clients id = some c → P id c) (hP : KeptBy env turns P)
    (h : Machine.run (Deployment.step env) ⟨clients, node.doService env.service req b⟩ turns = some d)
    (hc : d.serving.request.crash = none) :
    Machine.run (Serving.step env.service) (node.doService env.service req d.serving.request.backend) (threadTurns turns) =
        some d.serving ∧
      (∀ id c, d.clients id = some c → P id c) ∧ Recorded env P d.serving := by
  have hR := Replayed.run_step hP turns [] _ (fun _ h => h) (replayed_start (b := b) hclients) h hc
  exact ⟨hR.run, hR.clients, hR.recorded⟩

end

theorem request_poolIndex {Conn : Type*} {c c' : RedisClient Conn} {key : Bytes} {ret : Except Str Int32}
    (h : c.request key = some (ret, c')) : c'.poolIndex = c.poolIndex := by
  unfold RedisClient.request at h
  simp only at h
  split at h
  · cases h
  · simp only [Option.some.injEq, Prod.mk.injEq] at h
    rw [← h.2]
    rfl
  · simp only [Option.some.injEq, Prod.mk.injEq] at h
    rw [← h.2]
    rfl
  · split at h
    · cases h
    · simp only [Option.some.injEq, Prod.mk.injEq] at h
      rw [← h.2]
      rfl

/-- One server, which answers each key with the key itself. -/
def echoing : DeploymentEnv Unit Unit where
  service := sampleEnv
  client := ⟨1, fun _ _ => some ()⟩
  fuel := 16385
  shares _ := true
  serve _ command := { response := some [.array (command.tail.map some)] }

/-- A client of this server. -/
def echoClient : RedisClient Unit where
  channelPoolVec _ := { mChannelList := [some ⟨"a".toList, { buildConnection := fun _ => .ok (some ()) }⟩] }
  poolIndex := ⟨0, Nat.two_pos⟩

def echoClients (id : Str) : Option (RedisClient Unit) := if id = "client".toList then some echoClient else none

def echoNode : RedisNode := ⟨[sampleInfo], fun _ => none⟩

/-- Between the two batches of the request, another one uses the client. -/
def echoTurns : List DeploymentTurn :=
  [.thread 0, .thread 0, .use "client".toList [5], .thread 1, .thread 0, .thread 2]

theorem deployment_refines_echo : ∃ d, Machine.run (Deployment.step echoing)
      ⟨echoClients, echoNode.doService sampleEnv () Backend.unasked⟩ echoTurns = some d ∧
    d.serving.request.log = [.issue 0 0 [[97]] true, .called 0 0, .parse ⟨[97], some [97], 0, 2, 0, false⟩ (some (0, 0)),
      .issue 0 1 [[9]] true, .called 0 1, .parse ⟨[9], some [9], 1, 2, 0, false⟩ (some (1, 0))] ∧
    Machine.run (Serving.step sampleEnv)
      (echoNode.doService sampleEnv () d.serving.request.backend) [0, 0, 1, 0, 2] =
        some d.serving ∧ Recorded echoing (fun _ c => c.poolIndex = 0) d.serving := by
  have hend : (Machine.run (Deployment.step echoing)
      ⟨echoClients, echoNode.doService sampleEnv () Backend.unasked⟩ echoTurns).map (fun d =>
        (d.serving.request.log, d.serving.request.crash)) =
      some ([.issue 0 0 [[97]] true, .called 0 0, .parse ⟨[97], some [97], 0, 2, 0, false⟩ (some (0, 0)),
        .issue 0 1 [[9]] true, .called 0 1, .parse ⟨[9], some [9], 1, 2, 0, false⟩ (some (1, 0))], none) := by
    decide
  obtain ⟨d, hrun, hend⟩ := Option.map_eq_some_iff.1 hend
  rw [Prod.mk.injEq] at hend
  have hclients : ∀ id c, echoClients id = some c → c.poolIndex = 0 := by
    intro id c h
    unfold echoClients at h
    rw [Option.ite_none_right_eq_some, Option.some.injEq] at h
    rw [← h.2]
    rfl
  have hP : KeptBy echoing echoTurns fun _ c => c.poolIndex = 0 :=
    ⟨fun _ _ _ _ _ hc h => (request_poolIndex h).trans hc, fun _ _ h => by simp [echoTurns] at h⟩
  obtain ⟨hrun', -, hrec⟩ := deployment_refines echoClients _ () Backend.unasked hclients hP hrun hend.2
  exact ⟨d, hrun, hend.1, hrun', hrec⟩

end Graphize
