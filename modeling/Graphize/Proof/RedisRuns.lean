import Graphize.Proof.RedisEvents
import Graphize.Proof.RedisFinish
import Graphize.Proof.RedisMakeUp

/-!
# Runs of one request

`act_run`: what every act keeps holds in every state that a request on its own reaches.
`request_finishes`: every run is finite, and the request then has called
`process_response` and `run_output_nodes_if_ready` once, after everything else.
-/

namespace Graphize

open Threads

section

variable {ρ : Type*} {env : RedisEnv ρ} {node : RedisNode} {req : ρ} {backend : Backend}

/-! ## The first state -/

theorem weight_isW (o : Op) (ops : List Op) : weight (isW o) ops = ops.count o := by
  induction ops with
  | nil => rfl
  | cons op ops ih =>
    rw [weight_cons, ih, List.count_cons, isW]
    simp only [beq_iff_eq]
    omega

/-- The thread of `do_service` before its loop. -/
def loopOps (n : ℕ) : List Op := (List.range n).map Op.fetchInfo ++ [.cachedTail]

theorem count_loopOps (n j : ℕ) : (loopOps n).count (.fetchInfo j) = if j < n then 1 else 0 := by
  have hinj : Function.Injective Op.fetchInfo := fun a b h => by injection h
  unfold loopOps
  rw [List.count_append, List.count_map_of_injective _ _ hinj]
  have htail : [Op.cachedTail].count (.fetchInfo j) = 0 := List.count_eq_zero.2 (by simp)
  rw [htail, Nat.add_zero]
  by_cases hj : j < n
  · rw [if_pos hj, List.count_eq_one_of_mem List.nodup_range (List.mem_range.2 hj)]
  · rw [if_neg hj, List.count_eq_zero.2 fun h => hj (List.mem_range.1 h)]

theorem weight_condW_loopOps (n : ℕ) : weight condW (loopOps n) = n := by
  unfold loopOps weight
  simp [Function.comp_def, condW]

theorem weight_loopOps_eq_zero {w : Op → ℕ} (n : ℕ) (hw : ∀ j, w (.fetchInfo j) = 0) (ht : w .cachedTail = 0) :
    weight w (loopOps n) = 0 := by
  refine weight_eq_zero fun op hop => ?_
  rcases List.mem_append.1 hop with hop | hop
  · obtain ⟨j, -, rfl⟩ := List.mem_map.1 hop
    exact hw j
  · rw [List.mem_singleton.1 hop]
    exact ht

/-- The two forms of the first state. -/
theorem doService_cases (env : RedisEnv ρ) (node : RedisNode) (req : ρ) (backend : Backend) :
    (node.fetchInfoVec = [] ∧ node.doService env req backend =
      ⟨node, { backend := backend, cacheDataVec := [], promise := none, resultMap := [], cond := 0,
               itemSizeCond := fun _ => 0, threads := [[.mergeCacheData, .processResponse, .runOutputNodes]],
               log := [], crash := none }⟩) ∨
    ∃ vec cacheDataVec, makeUpFetchInfoVec env node.cache req node.fetchInfoVec = (vec, cacheDataVec) ∧
      vec ≠ [] ∧ node.doService env req backend =
      ⟨{ node with fetchInfoVec := vec },
       { backend := backend, cacheDataVec := cacheDataVec
         promise := if cacheDataVec = [] then none else some false
         resultMap := List.replicate vec.length [], cond := vec.length, itemSizeCond := fun _ => 0
         threads := [loopOps vec.length], log := [], crash := none }⟩ := by
  unfold RedisNode.doService
  by_cases h : node.fetchInfoVec = []
  · rw [if_pos h]
    exact Or.inl ⟨h, rfl⟩
  · rw [if_neg h]
    refine Or.inr ⟨_, _, rfl, fun hvec => h ?_, rfl⟩
    have hlen := congrArg List.length hvec
    simp only [List.length_map, List.length_zipIdx, List.length_append, List.length_nil] at hlen
    exact List.length_eq_zero_iff.1 (by omega)

theorem doService_backend : (node.doService env req backend).request.backend = backend := by
  rcases doService_cases env node req backend with ⟨-, h⟩ | ⟨vec, cacheDataVec, -, -, h⟩ <;> rw [h]

theorem doService_log : (node.doService env req backend).request.log = [] := by
  rcases doService_cases env node req backend with ⟨-, h⟩ | ⟨vec, cacheDataVec, -, -, h⟩ <;> rw [h]

theorem mem_loopOps {n : ℕ} {op : Op} (h : op ∈ loopOps n) : (∃ j < n, op = .fetchInfo j) ∨ op = .cachedTail := by
  rcases List.mem_append.1 h with h | h
  · obtain ⟨j, hj, rfl⟩ := List.mem_map.1 h
    exact Or.inl ⟨j, List.mem_range.1 hj, rfl⟩
  · exact Or.inr (List.mem_singleton.1 h)

theorem weight_aheadW_loopOps (n j i : ℕ) : weight (aheadW j i) (loopOps n) = if j < n then 1 else 0 := by
  rw [← count_loopOps, ← weight_isW]
  unfold weight
  congr 1
  refine List.map_congr_left fun op hop => ?_
  rcases mem_loopOps hop with ⟨j', -, rfl⟩ | rfl <;> simp [aheadW, isW]

theorem shape_doService (node : RedisNode) (req : ρ) (backend : Backend) :
    Shape env (node.doService env req backend) := by
  rcases doService_cases env node req backend with ⟨hvec, h⟩ | ⟨vec, cacheDataVec, -, hne, h⟩ <;> rw [h]
  · refine ⟨rfl, by simp [hvec], ?_, ?_, by simp⟩
    · intro ops hops op hop
      obtain rfl := List.mem_singleton.1 hops
      simp only [List.mem_cons, List.not_mem_nil, or_false] at hop
      rcases hop with rfl | rfl | rfl <;> trivial
    · intro ops hops
      obtain rfl := List.mem_singleton.1 hops
      exact callbackFirst_of_forall (by simp [Op.isCallback])
  · refine ⟨rfl, by simp, ?_, ?_, by by_cases hc : cacheDataVec = [] <;> simp [hc]⟩
    · intro ops hops op hop
      obtain rfl := List.mem_singleton.1 hops
      rcases mem_loopOps hop with ⟨j, hj, rfl⟩ | rfl
      · exact hj
      · trivial
    · intro ops hops
      obtain rfl := List.mem_singleton.1 hops
      refine callbackFirst_of_forall fun op hop => ?_
      rcases mem_loopOps hop with ⟨j, hj, rfl⟩ | rfl <;> rfl

theorem threaded_doService (node : RedisNode) (req : ρ) (backend : Backend) :
    Threaded (node.doService env req backend) := by
  rcases doService_cases env node req backend with ⟨hvec, h⟩ | ⟨vec, cacheDataVec, -, hne, h⟩ <;> rw [h]
  · refine ⟨⟨_, rfl, ?_⟩, by simp, by simp⟩
    exact .loop (f := finishOps none false) (m := []) (e := []) (finishing_finishOps (Or.inr (by simp)))
      (by simp) (Or.inr ⟨rfl, by simp⟩)
  · refine ⟨⟨_, rfl, ?_⟩, by by_cases hc : cacheDataVec = [] <;> simp [hc], by simp⟩
    exact .loop (f := []) (finishing_nil _ _) (by simp [Op.isMain]) (Or.inl rfl)

theorem counts_doService (node : RedisNode) (req : ρ) (backend : Backend) :
    Counts (node.doService env req backend) := by
  rcases doService_cases env node req backend with ⟨hvec, h⟩ | ⟨vec, cacheDataVec, -, hne, h⟩ <;> rw [h]
  · refine ⟨fun j => rfl, fun j => by simp [isW], by simp [openInfos, condW], ?_⟩
    rintro op ev ⟨⟩ <;> rfl
  · have hn : 0 < vec.length := List.length_pos_iff.2 hne
    refine ⟨fun j => ?_, fun j => ?_, ?_, ?_⟩
    · simp [weight_loopOps_eq_zero (w := itemW vec j) _ (fun _ => rfl) rfl]
    · simp [weight_isW, count_loopOps]
      split <;> omega
    · simp [weight_condW_loopOps, openInfos]
    · intro o ev ho
      have h0 : weight (isW o) (loopOps vec.length) = 0 :=
        weight_loopOps_eq_zero _ (by cases ho <;> simp [isW]) (by cases ho <;> rfl)
      simp [h0, hn]

theorem batches_doService (node : RedisNode) (req : ρ) (backend : Backend) :
    Batches env (node.doService env req backend) := by
  rcases doService_cases env node req backend with ⟨hvec, h⟩ | ⟨vec, cacheDataVec, -, hne, h⟩ <;> rw [h]
  · refine ⟨fun j i info hi => ?_, fun j i => rfl, by simp⟩
    have := hi.1
    simp [hvec] at this
  · refine ⟨fun j i info hi => ?_, fun j i => ?_, by simp⟩
    · have hj : j < vec.length := (List.getElem?_eq_some_iff.1 hi.1).1
      simp [weight_aheadW_loopOps, hj]
    · simp [weight_loopOps_eq_zero (w := callbackW j i) _ (fun _ => rfl) rfl]

/-- **The invariant holds at the start.** -/
theorem inv_doService (node : RedisNode) (req : ρ) (backend : Backend) :
    Inv env (node.doService env req backend) (node.doService env req backend) := by
  have hlog : (node.doService env req backend).request.log = [] := doService_log
  have hprom : (node.doService env req backend).request.promise ≠ some true := by
    rcases doService_cases env node req backend with ⟨-, h⟩ | ⟨vec, cacheDataVec, -, -, h⟩ <;> rw [h]
    · simp
    · by_cases hc : cacheDataVec = [] <;> simp [hc]
  exact {
    vec := rfl
    backend := rfl
    shape := shape_doService node req backend
    threaded := threaded_doService node req backend
    counts := counts_doService node req backend
    batches := batches_doService node req backend
    none := by
      rcases doService_cases env node req backend with ⟨-, h⟩ | ⟨vec, cacheDataVec, -, -, h⟩ <;> rw [h]
      · simp
      · simp
    unparsed := fun _ => ⟨rfl, by rw [hlog]; rfl⟩
    parsed := fun h => absurd h hprom
    after := by simp [hlog]
    past := by simp [hlog]
    order := by simp [hlog] }

/-! ## The end of a run -/

/-- `batch_count` of the fetch info at place `j`. -/
def batchesAt (env : RedisEnv ρ) (vec : List FetchInfo) (j : ℕ) : ℕ :=
  (vec[j]?.map fun info => info.batches env).getD 0

/-- The steps that an operation and all that follows from it can take. -/
def cost (env : RedisEnv ρ) (vec : List FetchInfo) : Op → ℕ
  | .fetchInfo j => 8 + 10 * batchesAt env vec j
  | .issue j i step => 1 + 10 * rounds (keysAt vec j) i step
  | .itemDone _ _ => 7
  | .condDone _ => 6
  | .cachedTail => 2
  | _ => 1

variable {s₀ s s' : Serving} {t : ℕ} {op : Op} {rest : List Op}

/-- **Every step uses up some of the cost.** -/
theorem Act.cost (hs : Shape env s) (hb : env.BatchSizeOK) (ht : s.request.threads[t]? = some (op :: rest))
    (hact : Act env s t rest op s') :
    total (Graphize.cost env s.node.fetchInfoVec) s'.request.threads <
      total (Graphize.cost env s.node.fetchInfoVec) s.request.threads := by
  have hmem := List.mem_of_getElem? ht
  have hle := le_total (w := Graphize.cost env s.node.fetchInfoVec) hmem
  have hf := hs.fits _ hmem op List.mem_cons_self
  rw [weight_cons] at hle
  have hround : ∀ {j i step info key}, Op.Fits env s (.issue j i step) → s.node.fetchInfoVec[j]? = some info →
      info.keys[i]? = some key → rounds (keysAt s.node.fetchInfoVec j) i step =
        rounds (keysAt s.node.fetchInfoVec j) (i + step) step + 1 := by
    rintro j i step info key ⟨info', hinfo', hact', rfl, -⟩ hinfo hkey
    obtain rfl : info = info' := Option.some.inj (hinfo.symm.trans hinfo')
    rw [keysAt_eq hinfo, rounds_succ (info.step_pos hb hact'.keys) (List.getElem?_eq_some_iff.1 hkey).1]
  cases hact with
  | @openInfo j info hinfo hact =>
    have h1 : batchesAt env s.node.fetchInfoVec j = info.batches env := by unfold batchesAt; rw [hinfo]; rfl
    have h2 := info.rounds_step hb hact.keys
    simp [total_after ht, Graphize.cost, keysAt_eq hinfo] at hle ⊢
    omega
  | accept hinfo hkey =>
    have := hround hf hinfo hkey
    simp [total_after ht, Graphize.cost] at hle ⊢
    omega
  | refuse hinfo hkey =>
    have := hround hf hinfo hkey
    simp [total_after ht, Graphize.cost] at hle ⊢
    omega
  | callback hinfo hitems hitem hfill hrest htail =>
    subst hrest
    simp [total_after ht, Graphize.cost, weight_endTry _ htail] at hle ⊢
    split <;> omega
  | lastCondDone => 
    simp [total_after ht, Graphize.cost, weight_finishOps] at hle ⊢
    split_ifs <;> omega
  | cachedTail =>
    simp [total_after ht, Graphize.cost, weight_ite] at hle ⊢
    split_ifs <;> omega
  | _ => simp [total_after ht, Graphize.cost] at hle ⊢; omega

theorem mem_log_run {e : RedisEvent} : ∀ ts s s', Machine.run (Serving.step env) s ts = some s' →
    e ∈ s.request.log → e ∈ s'.request.log := fun ts s s' h he =>
  Machine.run_inv (fun s => e ∈ s.request.log) (fun _ _ _ he hstep => mem_log_step hstep he) ts s s' he h

/-- The operations that a run executes, each with its thread. -/
def executed (env : RedisEnv ρ) : Serving → List ℕ → List (ℕ × Op)
  | _, [] => []
  | s, t :: ts =>
    match s.step env t, s.request.threads[t]? with
    | some s', some (op :: _) => (t, op) :: executed env s' ts
    | _, _ => []

/-- **Runs** in which nothing throws but parse functions for values of replies. The
invariant, and whatever else every act keeps, holds in every state that is reached, and the
number of steps is bounded. -/
theorem act_run (hb : env.BatchSizeOK) (hr : s₀.request.backend.Replies) (P : List (ℕ × Op) → Serving → Prop)
    (hP : ∀ done s t op rest s', Inv env s₀ s → P done s → s.request.threads[t]? = some (op :: rest) →
      Act env s t rest op s' → P (done ++ [(t, op)]) s') :
    ∀ ts done s s', Inv env s₀ s → P done s →
      Machine.Along (Serving.step env) (Serving.Returns env) s ts →
      Machine.run (Serving.step env) s ts = some s' → Inv env s₀ s' ∧ P (done ++ executed env s ts) s' ∧
        ts.length + total (cost env s₀.node.fetchInfoVec) s'.request.threads ≤
          total (cost env s₀.node.fetchInfoVec) s.request.threads := by
  intro ts
  induction ts with
  | nil =>
    intro done s s' hI hs _ h
    simp only [Machine.run_nil, Option.some.injEq] at h
    subst h
    exact ⟨hI, by rwa [executed, List.append_nil], by simp⟩
  | cons t ts ih =>
    intro done s s' hI hs hret h
    obtain ⟨u, hstep, hrun⟩ := Machine.run_cons_iff.1 h
    obtain ⟨hret, hrets⟩ := hret u hstep
    obtain ⟨op, rest, ht, hact⟩ := step_act (hI.backend ▸ hr) hb hI.shape hret hstep
    obtain ⟨h1, h2, h3⟩ := ih _ u s' (hI.step hb ht hact) (hP _ _ _ _ _ _ hI hs ht hact) hrets hrun
    have hcost := hact.cost hI.shape hb ht
    rw [hI.vec] at hcost
    refine ⟨h1, ?_, by rw [List.length_cons]; omega⟩
    unfold executed
    rw [hstep, ht]
    rwa [List.append_assoc, List.singleton_append] at h2

/-- Runs in which only parse functions for values of replies may throw. -/
theorem along_returns (hn : env.CachedNoThrow) : ∀ ts s s', Machine.run (Serving.step env) s ts = some s' →
    .mergeFailed ∉ s'.request.log → Machine.Along (Serving.step env) (Serving.Returns env) s ts := by
  intro ts
  induction ts with
  | nil => intro s s' _ _; trivial
  | cons t ts ih =>
    intro s s' h hm u hstep
    obtain ⟨u', hstep', hrun⟩ := Machine.run_cons_iff.1 h
    obtain rfl := Option.some.inj (hstep'.symm.trans hstep)
    have hu : .mergeFailed ∉ u'.request.log := fun h' => hm (mem_log_run ts u' s' hrun h')
    exact ⟨returns_of_noThrow hn hstep hu, ih u' s' hrun hm⟩

/-! ## When nothing can move -/

theorem step_isSome (hs : Shape env s) (ht : s.request.threads[t]? = some (op :: rest))
    (hw : op = .wait → s.request.promise ≠ some false) : (s.step env t).isSome := by
  unfold Serving.step
  rw [hs.crash]
  simp only [Option.isSome_none, Bool.false_eq_true, if_false, ht]
  rw [if_neg fun h => hw h.1 h.2]
  rfl

/-- **As long as the promise is not set**, thread `0` will set it and is not held up. -/
theorem Inv.setter (hI : Inv env s₀ s) (hp : s.request.promise = some false) :
    ∃ ops, s.request.threads[0]? = some ops ∧ (.parseCachedData ∈ ops ∨ .cachedTail ∈ ops) ∧
      (s.step env 0).isSome := by
  obtain ⟨ops, h0, hmain⟩ := hI.threaded.main
  rw [hp] at hmain
  have hmem : .parseCachedData ∈ ops ∨ .cachedTail ∈ ops := by
    cases hmain with
    | tail => exact Or.inl (by simp)
    | loop hf hm he =>
      rcases he with rfl | ⟨-, h⟩
      · exact Or.inr (by simp)
      · exact absurd rfl h
  refine ⟨ops, h0, hmem, ?_⟩
  cases ops with
  | nil => simp at hmem
  | cons op rest =>
    refine step_isSome hI.shape h0 ?_
    rintro rfl
    exfalso
    rcases hmain.cons with ⟨h, -⟩ | ⟨f, m, e, -, -, ⟨-, h, -⟩ | ⟨-, h, -⟩ | ⟨hf, -⟩⟩
    · cases h
    · simp [Op.isMain] at h
    · cases h
    · rcases hf.cons with ⟨h, -⟩ | ⟨h, -⟩ | ⟨-, rfl⟩ | ⟨h, -⟩ | ⟨h, -⟩
      any_goals cases h
      rcases hf.waits rfl with h | h <;> simp [waitOp] at h

/-- **A request that cannot move is finished.** -/
theorem Inv.finished (hI : Inv env s₀ s) (hst : Machine.Stuck (Serving.step env) s) :
    (∀ ops ∈ s.request.threads, ops = []) ∧ ∀ o ev, Token o ev → s.request.log.count ev = 1 := by
  have hp : s.request.promise ≠ some false := by
    intro hp
    obtain ⟨ops, -, -, hsome⟩ := hI.setter hp
    rw [hst 0] at hsome
    simp at hsome
  have hnil : ∀ ops ∈ s.request.threads, ops = [] := by
    intro ops hops
    obtain ⟨t, ht⟩ := List.getElem?_of_mem hops
    cases ops with
    | nil => rfl
    | cons op rest =>
      have := step_isSome hI.shape ht fun _ => hp
      rw [hst t] at this
      simp at this
  have hzero : ∀ w : Op → ℕ, total w s.request.threads = 0 := fun _ => total_eq_zero hnil
  have hcond : s.request.cond ≤ 0 := by
    rw [hI.counts.cond, hzero]
    have : openInfos s.node.fetchInfoVec.length s.request.itemSizeCond = 0 := by
      unfold openInfos
      refine Finset.sum_eq_zero fun j _ => ?_
      rw [hI.counts.items j, hzero]
      simp
    omega
  refine ⟨hnil, fun o ev ho => ?_⟩
  have := hI.counts.tokens o ev ho
  rw [hzero, if_neg (by omega)] at this
  omega

/-! ## A request on its own -/

/-- The calls that parsing the values of `item` once means. -/
def CacheDataItem.calls (env : RedisEnv ρ) (vec : List FetchInfo) (item : CacheDataItem) : List ParseCall :=
  item.dataMap.map fun e =>
    ⟨e.1, parseValue env (vec.getD item.fetchInfoPtr {}) (some e.2), 0, 1, item.fetchInfoPtr, true⟩

theorem cachedCalls_perm (node : RedisNode) (req : ρ) (backend : Backend) :
    (cachedCalls env (node.doService env req backend).node.fetchInfoVec
      (node.doService env req backend).request.cacheDataVec).Perm
      ((node.doService env req backend).request.cacheDataVec.flatMap
        (CacheDataItem.calls env (node.doService env req backend).node.fetchInfoVec)) := by
  refine List.Perm.flatMap_left _ fun item hitem => ?_
  obtain ⟨info, hinfo, huse⟩ : ∃ info, (node.doService env req backend).node.fetchInfoVec[item.fetchInfoPtr]? =
      some info ∧ info.useCache = true := by
    rcases doService_cases env node req backend with ⟨-, h⟩ | ⟨vec, cacheDataVec, hm, -, h⟩ <;> rw [h] at hitem ⊢
    · simp at hitem
    · exact makeUp_data hm hitem
  unfold CacheDataItem.calls
  have hget : (node.doService env req backend).node.fetchInfoVec.getD item.fetchInfoPtr {} = info := by
    rw [List.getD_eq_getElem?_getD, hinfo]
    rfl
  rw [hinfo, hget]
  simp only [if_pos huse]
  exact (env.dataOrder_perm _).map _

/-- No run of a request is longer. -/
def RedisNode.bound (env : RedisEnv ρ) (node : RedisNode) (req : ρ) (backend : Backend) : ℕ :=
  total (cost env (node.doService env req backend).node.fetchInfoVec)
    (node.doService env req backend).request.threads

/-- What can be said of every state of a request that starts in `s₀`. -/
structure Finishes (env : RedisEnv ρ) (s₀ s : Serving) : Prop where
  crash : s.request.crash = none
  process : s.request.log.count .process ≤ 1
  output : s.request.log.count .output ≤ 1
  /-- `process_response` comes after every batch and every cached value. -/
  before : ∀ l l', s.request.log = l ++ .process :: l' →
    (∀ j i info, IsBatch env s₀.node.fetchInfoVec j i info →
      .issue j i (info.batch env i) false ∈ l ∨ (.issue j i (info.batch env i) true ∈ l ∧ .called j i ∈ l)) ∧
    (cachedLog l).Perm (s₀.request.cacheDataVec.flatMap (CacheDataItem.calls env s₀.node.fetchInfoVec)) ∧
    ∀ e ∈ l', e = .output
  /-- `run_output_nodes_if_ready` comes after `process_response`. -/
  order : ∀ l l', s.request.log = l ++ .output :: l' → .process ∈ l
  /-- Whoever waits for the promise, thread `0` sets it and can go on. -/
  waiting : ∀ (t : ℕ) rest, s.request.threads[t]? = some (Op.wait :: rest) → s.request.promise = some false →
    ∃ ops, s.request.threads[0]? = some ops ∧
      (Op.parseCachedData ∈ ops ∨ (Op.cachedTail ∈ ops ∧ s.request.cacheDataVec ≠ [])) ∧ (s.step env 0).isSome
  /-- When nothing can move everything has been done. -/
  done : Machine.Stuck (Serving.step env) s → (∀ ops ∈ s.request.threads, ops = []) ∧
    s.request.log.count .process = 1 ∧ s.request.log.count .output = 1

/-- **A request finishes** in every run in which nothing throws but parse functions for
values of replies. -/
theorem finishes_of_returns (hb : env.BatchSizeOK) (hr : backend.Replies) {ts : List ℕ}
    (hret : Machine.Along (Serving.step env) (Serving.Returns env) (node.doService env req backend) ts)
    (h : Machine.run (Serving.step env) (node.doService env req backend) ts = some s) :
    ts.length ≤ node.bound env req backend ∧ Finishes env (node.doService env req backend) s := by
  obtain ⟨hI, -, hlen⟩ := act_run hb (by rwa [doService_backend]) (fun _ _ => True)
    (fun _ _ _ _ _ _ _ _ _ _ => trivial) ts [] _ s (inv_doService node req backend) trivial hret h
  refine ⟨by unfold RedisNode.bound; omega, ?_⟩
  exact {
    crash := hI.shape.crash
    process := hI.counts.token_le .process
    output := hI.counts.token_le .output
    before := fun l l' hl => by
      obtain ⟨hdue, hafter⟩ := hI.past l l' hl
      exact ⟨hdue.batches, hdue.cached ▸ cachedCalls_perm node req backend, hafter⟩
    order := hI.order
    waiting := fun t rest _ hp => by
      obtain ⟨ops, h0, hops, hsome⟩ := hI.setter hp
      exact ⟨ops, h0, hops.imp id fun h => ⟨h, hI.shape.promise.1 hp⟩, hsome⟩
    done := fun hst => by
      obtain ⟨hnil, htok⟩ := hI.finished hst
      exact ⟨hnil, htok _ _ .process, htok _ _ .output⟩ }

/-- **A request on its own finishes**, and finishes once: whatever the client refuses and
in whatever order the callbacks come, every run is finite, `process_response` and
`run_output_nodes_if_ready` are called once when it ends, after every batch and every
cached value, and nobody waits in vain. -/
theorem request_finishes (hn : env.NoThrow) (hb : env.BatchSizeOK) (hr : backend.Replies) {ts : List ℕ}
    (h : Machine.run (Serving.step env) (node.doService env req backend) ts = some s)
    (hm : .mergeFailed ∉ s.request.log) :
    ts.length ≤ node.bound env req backend ∧ Finishes env (node.doService env req backend) s :=
  finishes_of_returns hb hr (along_returns hn.cachedNoThrow ts _ s h hm) h

end

/-- A service with one generator, one client and batches of one key. -/
def sampleEnv : RedisEnv Unit where
  keyFuncMap name :=
    if name = "gen".toList then some fun _ keys keyPrefix _ => keys ++ [ascii keyPrefix, [9]] else none
  hasClient id := id = "client".toList
  slot _ := 0
  slotOrder l := l
  slotOrder_perm l := .refl l
  dataOrder l := l
  dataOrder_perm l := .refl l
  resultOrder l := l
  resultOrder_perm l := .refl l
  uncompress data := data
  enableParalParse := true
  enableMultiGet := true
  batchSize := 1
  parseThrows _ _ := false
  processThrows _ := false

def sampleInfo : FetchInfo :=
  { keyGenFunc := "gen".toList, redisClientId := "client".toList, keyPrefix := "a".toList, useCache := true
    expireTime := 60 }

/-- Key `"a"` is cached, and the second fetch info has no client. -/
def sampleNode : RedisNode where
  fetchInfoVec := [sampleInfo, { sampleInfo with redisClientId := [], keyPrefix := "b".toList }]
  cache := Function.update (fun _ => none) [97] (some [5])

def sampleBackend : Backend where
  accepts _ _ := true
  reply _ _ := { response := some [.array [some [7]]] }

theorem sampleEnv_noThrow : sampleEnv.NoThrow := ⟨fun _ _ => rfl, fun _ => rfl⟩

theorem sampleEnv_batchSize : sampleEnv.BatchSizeOK := fun _ => Nat.one_pos

/-- The callback comes before the cached value has been parsed, and waits for it. -/
theorem request_finishes_sample : ∃ s, Machine.run (Serving.step sampleEnv)
      (sampleNode.doService sampleEnv () sampleBackend) [0, 0, 0, 0, 0, 1, 1, 1, 1, 0, 0, 1, 1, 1] = some s ∧
    .output ∈ s.request.log ∧ Finishes sampleEnv (sampleNode.doService sampleEnv () sampleBackend) s := by
  have hlog : (Machine.run (Serving.step sampleEnv) (sampleNode.doService sampleEnv () sampleBackend)
      [0, 0, 0, 0, 0, 1, 1, 1, 1, 0, 0, 1, 1, 1]).map (fun s => s.request.log) =
      some [.issue 0 0 [[9]] true, .called 0 0, .parse ⟨[9], some [7], 0, 1, 0, false⟩ (some (0, 0)),
        .cacheSet [9] [7] 0 0 0, .merged, .parse ⟨[97], some [5], 0, 1, 0, true⟩ none, .process, .output] := by
    decide
  obtain ⟨s, hs, hlog⟩ := Option.map_eq_some_iff.1 hlog
  refine ⟨s, hs, by rw [hlog]; decide, ?_⟩
  exact (request_finishes sampleEnv_noThrow sampleEnv_batchSize (fun _ _ _ => by simp [sampleBackend]) hs
    (by rw [hlog]; decide)).2

end Graphize
