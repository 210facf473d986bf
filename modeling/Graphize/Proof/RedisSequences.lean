import Graphize.Proof.RedisParses

/-!
# Requests one after the other

`make_up_fetch_info_vec` works on the fetch infos of the node, so a request leaves them
changed for the next one.

* `sent_perm`: the keys that a finished request has handed to the clients.
* `exact_of_clean`: one request handles the generated keys if it finds the fetch infos
  without keys, and leaves the configured ones if no keys are split by slot.
* `requests_exact`: any sequence of such requests.
-/

namespace Graphize

open Threads

section

variable {ρ : Type*} {env : RedisEnv ρ}

/-- A request, what becomes of its batches, and the order of its steps. -/
structure Visit (ρ : Type*) where
  req : ρ
  backend : Backend
  replies : backend.Replies
  choices : List ℕ

/-- The last state of a request that is served to its end: `merge_cache_data` has
returned, and no thread has anything left to do. -/
def RedisNode.served (env : RedisEnv ρ) (node : RedisNode) (v : Visit ρ) : Option Serving :=
  match Machine.run (Serving.step env) (node.doService env v.req v.backend) v.choices with
  | some s => if (∀ ops ∈ s.request.threads, ops = []) ∧ .mergeFailed ∉ s.request.log then some s else none
  | none => none

/-- The node after it. -/
def RedisNode.visit (env : RedisEnv ρ) (node : RedisNode) (v : Visit ρ) : Option RedisNode :=
  (node.served env v).map Serving.node

/-- The keys that an event hands to a client. -/
def sentKeys : RedisEvent → List Bytes
  | .issue _ _ ks _ => ks
  | _ => []

/-- The keys that a request handles: the recorded hits, and what it hands to the clients. -/
def handled (cacheDataVec : List CacheDataItem) (log : List RedisEvent) : List Bytes :=
  (cacheDataVec.flatMap fun item => item.dataMap.map fun e => e.1) ++ log.flatMap sentKeys

/-- The keys that the generator of a configured fetch info produces, given no others. -/
def produced (env : RedisEnv ρ) (req : ρ) (info : FetchInfo) : List Bytes := generated env req { info with keys := [] }

/-- A request handles exactly the keys that are produced for it over the configured fetch
infos, and leaves as many fetch infos. -/
structure Exact (env : RedisEnv ρ) (configured : List FetchInfo) (node : RedisNode) (v : Visit ρ) (s : Serving) : Prop where
  keys : (handled (node.doService env v.req v.backend).request.cacheDataVec s.request.log).Perm
    (configured.flatMap (produced env v.req))
  infos : s.node.fetchInfoVec.length = configured.length

/-- A fetch info before a request: it holds no keys, the keys generated for it that are
cached are distinct, and the others have one slot and a client. -/
structure FetchInfo.Clean (env : RedisEnv ρ) (c : Cache) (req : ρ) (info : FetchInfo) : Prop where
  noKeys : info.keys = []
  distinct : HitsDistinct env c req info
  oneSlot : ∀ k ∈ missed env c req info, ∀ k' ∈ missed env c req info, env.slot k = env.slot k'
  client : missed env c req info ≠ [] → env.hasClient info.redisClientId = true

/-- All fetch infos are clean before the request. -/
def RedisNode.Clean (env : RedisEnv ρ) (node : RedisNode) (v : Visit ρ) : Prop :=
  ∀ info ∈ node.fetchInfoVec, info.Clean env node.cache v.req

/-! ## The keys sent -/

/-- The batch that is handed to a client. -/
def issuedBatch : RedisEvent → Option (ℕ × ℕ)
  | .issue j i _ _ => some (j, i)
  | _ => none

/-- The keys of a batch. -/
def batchKeys (env : RedisEnv ρ) (vec : List FetchInfo) (b : ℕ × ℕ) : List Bytes :=
  match vec[b.1]? with
  | none => []
  | some info => info.batch env b.2

variable {s₀ s : Serving}

theorem Batches.sentKeys_eq (hB : Batches env s) : s.request.log.flatMap sentKeys =
    (s.request.log.filterMap issuedBatch).flatMap (batchKeys env s.node.fetchInfoVec) := by
  have hissued := hB.issued
  generalize s.request.log = log at hissued ⊢
  induction log with
  | nil => rfl
  | cons e log ih =>
    have htail := ih fun j i ks accepted he => hissued j i ks accepted (List.mem_cons_of_mem _ he)
    rw [List.flatMap_cons, htail]
    cases e with
    | issue j i ks accepted =>
      obtain ⟨info, hbatch, hks, -⟩ := hissued j i ks accepted List.mem_cons_self
      have hkeys : batchKeys env s.node.fetchInfoVec (j, i) = ks := by
        unfold batchKeys
        simp only [hbatch.1, hks]
      rw [List.filterMap_cons_some (f := issuedBatch) rfl, List.flatMap_cons, hkeys]
      rfl
    | _ => rfl

/-- **Every batch is handed to its client once.** -/
theorem issued_perm (hI : Inv env s₀ s) (hb : env.BatchSizeOK) (hdone : ∀ ops ∈ s.request.threads, ops = []) :
    (s.request.log.filterMap issuedBatch).Perm (allBatches env s.node.fetchInfoVec) := by
  have hcount : ∀ j i, (s.request.log.filterMap issuedBatch).count (j, i) = s.request.log.countP (isIssue j i) := by
    intro j i
    rw [List.count_filterMap]
    refine List.countP_congr fun e _ => ?_
    cases e <;> simp [issuedBatch, isIssue]
  refine perm_allBatches hb (fun j i hx => ?_) fun j i info hbatch => ?_
  · obtain ⟨e, he, heq⟩ := List.mem_filterMap.1 hx
    cases e with
    | issue j' i' ks accepted =>
      obtain ⟨rfl, rfl⟩ := Prod.mk.inj (Option.some.inj heq)
      obtain ⟨info, hbatch, -, -⟩ := hI.batches.issued _ _ _ _ he
      exact ⟨info, hbatch⟩
    | _ => exact absurd heq (by simp [issuedBatch])
  · have honce := hI.batches.once j i info hbatch
    rw [total_eq_zero hdone] at honce
    rw [hcount]
    omega

/-- **The keys that a finished request has sent** are those it asks for. -/
theorem sent_perm (hI : Inv env s₀ s) (hb : env.BatchSizeOK) (hdone : ∀ ops ∈ s.request.threads, ops = []) :
    (s.request.log.flatMap sentKeys).Perm ((s.node.fetchInfoVec.flatMap (asked env)).map fun e => e.2) := by
  rw [hI.batches.sentKeys_eq]
  refine ((issued_perm hI hb hdone).flatMap_right _).trans (.of_eq ?_)
  refine flatMap_allBatches hb (fun _ key => key) fun j i info hbatch => ?_
  unfold batchKeys
  simp only [hbatch.1, List.map_id']

/-! ## One request -/

variable {c : Cache} {req : ρ} {info : FetchInfo}

theorem FetchInfo.Same.trans {a b d : FetchInfo} (h : a.Same b) (h' : b.Same d) : a.Same d where
  keyGenFunc := h'.keyGenFunc.trans h.keyGenFunc
  keyPrefix := h'.keyPrefix.trans h.keyPrefix
  keyPostfix := h'.keyPostfix.trans h.keyPostfix
  compress := h'.compress.trans h.compress
  redisClientId := h'.redisClientId.trans h.redisClientId
  useCache := h'.useCache.trans h.useCache
  expireTime := h'.expireTime.trans h.expireTime

/-- Keys of one slot are not split. -/
theorem groupBySlot_added {keys : List Bytes} (h : ∀ k ∈ keys, ∀ k' ∈ keys, env.slot k = env.slot k') :
    (groupBySlot env info keys).2 = [] := by
  unfold groupBySlot
  split
  · cases hslots : slotsOf env keys with
    | nil => rfl
    | cons slot rest =>
      have hnodup : (slotsOf env keys).Nodup := slotsOf_nodup keys
      have hkey : ∀ x ∈ slotsOf env keys, ∃ k ∈ keys, env.slot k = x := fun x hx =>
        List.mem_map.1 (Numbering.mem_firsts.1 ((env.slotOrder_perm _).mem_iff.1 hx))
      rw [hslots] at hnodup hkey
      have hrest : rest = [] := by
        refine List.eq_nil_iff_forall_not_mem.2 fun x hx => (List.nodup_cons.1 hnodup).1 ?_
        obtain ⟨k, hk, rfl⟩ := hkey slot List.mem_cons_self
        obtain ⟨k', hk', rfl⟩ := hkey x (List.mem_cons_of_mem _ hx)
        rwa [h k hk k' hk']
      rw [hrest]
      rfl
  · rfl

theorem FetchInfo.Clean.added (h : info.Clean env c req) (i : ℕ) : (makeUpFetchInfo env c req i info).2.1 = [] := by
  cases hf : env.keyFuncMap info.keyGenFunc with
  | none => rw [makeUpFetchInfo_none hf]
  | some keyFunc =>
    rw [makeUpFetchInfo_eq hf, lookedUp_fst]
    exact groupBySlot_added h.oneSlot

/-- What a clean fetch info finds and what it asks for are the keys generated. -/
theorem FetchInfo.Clean.keys_perm (h : info.Clean env c req) :
    ((generated env req info).filter (fun key => (hit c info key).isSome) ++
      (asked env { info with keys := missed env c req info }).map fun e => e.2).Perm (generated env req info) := by
  have hasked : (asked env { info with keys := missed env c req info }).map (fun e => e.2) = missed env c req info := by
    unfold asked
    by_cases hm : missed env c req info = []
    · rw [hm]
      split <;> rfl
    · rw [if_pos (h.client hm), List.map_map]
      exact List.map_id' _
  rw [hasked]
  exact missed_perm env c req info

variable {node : RedisNode} {v : Visit ρ} {configured : List FetchInfo}

/-- The fetch infos of the node are the configured ones, with other keys. -/
structure Configured (configured vec : List FetchInfo) : Prop where
  length : vec.length = configured.length
  same : ∀ (i : ℕ) a b, configured[i]? = some a → vec[i]? = some b → a.Same b

theorem Configured.refl (vec : List FetchInfo) : Configured vec vec := by
  refine ⟨rfl, fun i a b ha hb => ?_⟩
  obtain rfl := Option.some.inj (ha.symm.trans hb)
  exact a.same_refl

theorem RedisNode.Clean.ready (hc : node.Clean env v) : ∀ info ∈ node.fetchInfoVec, Ready env info :=
  fun info hinfo => Or.inr (hc info hinfo).noKeys

/-- **The fetch infos after a clean request** are the configured ones. -/
theorem Configured.doService (h : Configured configured node.fetchInfoVec) (hc : node.Clean env v) :
    Configured configured (node.doService env v.req v.backend).node.fetchInfoVec := by
  rcases doService_cases env node v.req v.backend with ⟨hnil, heq⟩ | ⟨vec, data, hm, -, heq⟩ <;> rw [heq]
  · exact h
  · have hlength : vec.length = node.fetchInfoVec.length := by
      obtain ⟨rfl, -⟩ := makeUp_parts hm
      have hadded : ((made env node.cache v.req node.fetchInfoVec).flatMap fun e => e.2.1) = [] := by
        refine List.flatMap_eq_nil_iff.2 fun e he => ?_
        obtain ⟨i, info, hinfo, rfl⟩ := mem_made he
        exact (hc info (List.mem_of_getElem? hinfo)).added i
      unfold madeVec
      rw [hadded, List.append_nil]
      unfold made
      simp
    refine ⟨hlength.trans h.length, fun i a b ha hb => ?_⟩
    obtain ⟨info, hinfo⟩ : ∃ info, node.fetchInfoVec[i]? = some info := by
      have hlt := (List.getElem?_eq_some_iff.1 hb).1
      exact ⟨_, List.getElem?_eq_getElem (by rw [← hlength]; exact hlt)⟩
    obtain ⟨info', hinfo', hsame, -⟩ := makeUp_getElem? hm hinfo
    obtain rfl : b = info' := Option.some.inj (hb.symm.trans hinfo')
    exact (h.same i a info ha hinfo).trans hsame

/-- A clean node generates what is produced for the configured fetch infos. -/
theorem Configured.generated (h : Configured configured node.fetchInfoVec) (hc : node.Clean env v) :
    node.fetchInfoVec.flatMap (Graphize.generated env v.req) = configured.flatMap (produced env v.req) := by
  have hmap : node.fetchInfoVec.map (Graphize.generated env v.req) = configured.map (produced env v.req) := by
    refine List.ext_getElem? fun i => ?_
    rw [List.getElem?_map, List.getElem?_map]
    by_cases hi : i < configured.length
    · have hi' : i < node.fetchInfoVec.length := by
        rw [h.length]
        exact hi
      have hconf := List.getElem?_eq_getElem hi
      have hinfo := List.getElem?_eq_getElem hi'
      have hsame := h.same i _ _ hconf hinfo
      have hk := (hc _ (List.mem_of_getElem? hinfo)).noKeys
      rw [hinfo, hconf, Option.map_some, Option.map_some]
      unfold produced Graphize.generated
      rw [hsame.keyGenFunc, hsame.keyPrefix, hsame.keyPostfix, hk]
    · have hi' : node.fetchInfoVec.length ≤ i := by
        rw [h.length]
        exact Nat.not_lt.1 hi
      rw [List.getElem?_eq_none hi', List.getElem?_eq_none (Nat.not_lt.1 hi)]
      rfl
  rw [List.flatMap_def, List.flatMap_def, hmap]

/-- The keys of the hits that are recorded. -/
theorem hits_recorded (hc : node.Clean env v) :
    ((node.doService env v.req v.backend).request.cacheDataVec.flatMap fun item => item.dataMap.map fun e => e.1) =
      node.fetchInfoVec.flatMap fun info =>
        (Graphize.generated env v.req info).filter fun key => (hit node.cache info key).isSome := by
  have hkeys : ∀ data : List CacheDataItem, (data.flatMap fun item => item.dataMap.map fun e => e.1) =
      (data.flatMap fun item => item.dataMap.map fun e => (item.fetchInfoPtr, e)).map fun x => x.2.1 := by
    intro data
    rw [List.map_flatMap]
    refine List.flatMap_congr fun item _ => ?_
    rw [List.map_map]
    rfl
  have hplaces : (node.fetchInfoVec.flatMap fun info =>
      (Graphize.generated env v.req info).filter fun key => (hit node.cache info key).isSome) =
      node.fetchInfoVec.zipIdx.flatMap fun e =>
        (Graphize.generated env v.req e.1).filter fun key => (hit node.cache e.1 key).isSome := by
    conv_lhs => rw [← List.zipIdx_map_fst 0 node.fetchInfoVec, List.flatMap_map]
  rw [doService_data, hkeys, made_hits hc.ready fun info hinfo => (hc info hinfo).distinct, hplaces, List.map_flatMap]
  refine List.flatMap_congr fun e _ => ?_
  rw [List.map_filterMap, ← List.filterMap_eq_filter]
  refine List.filterMap_congr fun key _ => ?_
  cases hkey : hit node.cache e.1 key <;> simp [Option.guard, hkey]

/-- **A clean request** handles exactly the keys that are produced. -/
theorem exact_of_clean (hn : env.CachedNoThrow) (hb : env.BatchSizeOK)
    (h : Configured configured node.fetchInfoVec) (hc : node.Clean env v) (hs : node.served env v = some s) :
    Exact env configured node v s ∧ Configured configured s.node.fetchInfoVec := by
  unfold RedisNode.served at hs
  split at hs
  · rename_i s' hrun
    split at hs
    · rename_i hdone
      obtain rfl := Option.some.inj hs
      obtain ⟨hI, -, -⟩ := act_run hb (by rw [doService_backend]; exact v.replies) (fun _ _ => True)
        (fun _ _ _ _ _ _ _ _ _ _ => trivial) v.choices [] _ _ (inv_doService node v.req v.backend) trivial
        (along_returns hn v.choices _ _ hrun hdone.2) hrun
      have hvec : Configured configured s'.node.fetchInfoVec := by
        rw [hI.vec]
        exact h.doService hc
      refine ⟨⟨?_, hvec.length⟩, hvec⟩
      -- the keys sent are the missed ones
      have hsent := sent_perm hI hb hdone.1
      rw [hI.vec, doService_asked] at hsent
      have hmissed := hsent.trans ((madeVec_asked (c := node.cache) hc.ready).map fun e => e.2)
      rw [List.map_flatMap] at hmissed
      unfold handled
      rw [hits_recorded hc, ← h.generated hc]
      refine (hmissed.append_left _).trans ((List.flatMap_append_perm _ _ _).trans ?_)
      exact List.Perm.flatMap_left _ fun info hinfo => (hc info hinfo).keys_perm
    · exact absurd hs (by simp)
  · exact absurd hs (by simp)

/-! ## Any number of requests -/

/-- **Every request handles its own keys**: in a sequence of requests that each find clean
fetch infos, each handles exactly the keys that are produced for it, over the fetch infos
that were configured. -/
theorem requests_exact (hn : env.CachedNoThrow) (hb : env.BatchSizeOK) (node : RedisNode) (visits : List (Visit ρ))
    (v : Visit ρ) (node' : RedisNode) (s : Serving)
    (hclean : Machine.Along (RedisNode.visit env) (RedisNode.Clean env) node (visits ++ [v]))
    (hrun : Machine.run (RedisNode.visit env) node visits = some node') (hs : node'.served env v = some s) :
    Exact env node.fetchInfoVec node' v s := by
  suffices h : ∀ (configured : List FetchInfo) (visits : List (Visit ρ)) (node : RedisNode),
      Configured configured node.fetchInfoVec →
      Machine.Along (RedisNode.visit env) (RedisNode.Clean env) node (visits ++ [v]) →
      Machine.run (RedisNode.visit env) node visits = some node' → Exact env configured node' v s by
    exact h node.fetchInfoVec visits node (.refl _) hclean hrun
  intro configured visits
  induction visits with
  | nil =>
    intro node h hclean hrun
    obtain rfl : node = node' := by simpa using hrun
    have hv : node.visit env v = some s.node := by
      unfold RedisNode.visit
      rw [hs]
      rfl
    exact (exact_of_clean hn hb h (hclean s.node hv).1 hs).1
  | cons w visits ih =>
    intro node h hclean hrun
    obtain ⟨node₁, hw, hrun⟩ := Machine.run_cons_iff.1 hrun
    obtain ⟨hc, hclean⟩ := hclean node₁ hw
    obtain ⟨s₁, hs₁, rfl⟩ := Option.map_eq_some_iff.1 hw
    exact ih s₁.node (exact_of_clean hn hb h hc hs₁).2 hclean hrun

end

def sampleVisit (choices : List ℕ) : Visit Unit where
  req := ()
  backend := sampleBackend
  replies _ _ := by simp [sampleBackend]
  choices

/-- Both keys are cached. -/
def cachedNode : RedisNode where
  fetchInfoVec := [sampleInfo]
  cache key := if key = [97] ∨ key = [9] then some [5] else none

/-- Two requests that find all their keys in the cache. -/
theorem requests_exact_cached : ∃ node s,
    Machine.run (RedisNode.visit sampleEnv) cachedNode [sampleVisit [0, 0, 0, 0, 0, 0, 0, 0]] = some node ∧
      node.served sampleEnv (sampleVisit [0, 0, 0, 0, 0, 0, 0, 0]) = some s ∧
      Exact sampleEnv [sampleInfo] node (sampleVisit [0, 0, 0, 0, 0, 0, 0, 0]) s := by
  set v := sampleVisit [0, 0, 0, 0, 0, 0, 0, 0] with hv
  have hclean : ∀ (node : RedisNode) (id : Str), node.fetchInfoVec = [{ sampleInfo with id := id }] →
      node.cache [97] = some [5] → node.cache [9] = some [5] → node.Clean sampleEnv v := by
    intro node id hvec ha hb info hinfo
    rw [hvec, List.mem_singleton] at hinfo
    subst hinfo
    have hnone : missed sampleEnv node.cache v.req { sampleInfo with id := id } = [] := by
      simp [missed, generated, sampleEnv, sampleInfo, hit, Cache.get, ascii, ha, hb]
    refine ⟨rfl, ?_, by simp [hnone], fun h => absurd hnone h⟩
    simp [HitsDistinct, generated, sampleEnv, sampleInfo, hit, Cache.get, ascii, ha, hb]
  have hboth : ((cachedNode.served sampleEnv v).bind fun s₁ => (s₁.node.served sampleEnv v).map fun _ =>
      (s₁.node.fetchInfoVec, s₁.node.cache [97], s₁.node.cache [9])) =
      some ([{ sampleInfo with id := "0".toList }], some [5], some [5]) := by
    decide
  obtain ⟨s₁, hs₁, hsecond⟩ := Option.bind_eq_some_iff.1 hboth
  obtain ⟨s, hs, hfirst⟩ := Option.map_eq_some_iff.1 hsecond
  obtain ⟨hvec, ha, hb⟩ := Prod.mk.inj hfirst |>.imp_right Prod.mk.inj
  have hvisit : cachedNode.visit sampleEnv v = some s₁.node := by
    unfold RedisNode.visit
    rw [hs₁]
    rfl
  have hrun : Machine.run (RedisNode.visit sampleEnv) cachedNode [v] = some s₁.node :=
    Machine.run_cons_iff.2 ⟨s₁.node, hvisit, rfl⟩
  refine ⟨s₁.node, s, hrun, hs, ?_⟩
  refine requests_exact ⟨fun _ _ _ => rfl, fun _ => rfl⟩ (fun _ => Nat.one_pos) cachedNode [v] v s₁.node s ?_ hrun hs
  intro node₁ h₁
  obtain rfl := Option.some.inj (hvisit.symm.trans h₁)
  exact ⟨hclean cachedNode [] rfl rfl rfl, fun _ _ => ⟨hclean _ _ hvec ha hb, trivial⟩⟩

/-- The two keys of a request have different slots. -/
def splitEnv : RedisEnv Unit := { sampleEnv with slot := fun key => (key.headD 0).toNat }

/-- One fetch info that does not look into the cache. -/
def uncachedNode : RedisNode where
  fetchInfoVec := [{ sampleInfo with useCache := false }]
  cache _ := none

def firstVisit : Visit Unit := sampleVisit [0, 0, 0, 0, 0, 0, 0, 1, 1, 1, 1, 2, 2, 2, 2, 2, 2, 2]

def secondVisit : Visit Unit :=
  sampleVisit [0, 0, 0, 0, 0, 0, 0, 0, 0, 0, 0, 0, 0, 0, 0, 1, 1, 1, 2, 2, 2, 2, 3, 3, 3, 4, 4, 4, 4, 5, 5, 5, 5, 6, 6, 6,
    6, 6, 6, 6]

/-- Two keys are produced for the second request. It sends six, and leaves four fetch infos
where one was configured. -/
theorem requests_not_exact : ∃ node s,
    Machine.run (RedisNode.visit splitEnv) uncachedNode [firstVisit] = some node ∧
      node.served splitEnv secondVisit = some s ∧
      (handled (node.doService splitEnv () sampleBackend).request.cacheDataVec s.request.log).length = 6 ∧
      s.node.fetchInfoVec.length = 4 ∧ ¬ Exact splitEnv uncachedNode.fetchInfoVec node secondVisit s := by
  have hboth : ((uncachedNode.served splitEnv firstVisit).bind fun s₁ => (s₁.node.served splitEnv secondVisit).map fun s =>
      ((handled (s₁.node.doService splitEnv () sampleBackend).request.cacheDataVec s.request.log).length,
        s.node.fetchInfoVec.length)) = some (6, 4) := by
    decide
  obtain ⟨s₁, hs₁, hsecond⟩ := Option.bind_eq_some_iff.1 hboth
  obtain ⟨s, hs, hcounts⟩ := Option.map_eq_some_iff.1 hsecond
  obtain ⟨hhandled, hinfos⟩ := Prod.mk.inj hcounts
  have hvisit : uncachedNode.visit splitEnv firstVisit = some s₁.node := by
    unfold RedisNode.visit
    rw [hs₁]
    rfl
  refine ⟨s₁.node, s, Machine.run_cons_iff.2 ⟨s₁.node, hvisit, rfl⟩, hs, hhandled, hinfos, fun h => ?_⟩
  have hlength := h.infos
  rw [hinfos] at hlength
  exact absurd hlength (by decide)

end Graphize
