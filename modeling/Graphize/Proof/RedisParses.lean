import Graphize.Proof.RedisRefusals
import Graphize.Proof.RedisKeys

/-!
# What the parse functions are given

When the clients accept every batch and the servers answer every key, the values that
arrive are matched with the keys they were asked for, through the cache, the regrouping by
slot and the cutting into batches.

* `batchCalls_parsed`: the callback of one batch.
* `called_perm`: the callbacks that have run before `process_response`.
* `request_parses`: the parse function is called once for each key.
-/

namespace Graphize

open Regroup

/-! ## The calls -/

/-- A call of a parse function: its key, its value and whether it comes from the cache. -/
abbrev Parsed := Bytes × Option Bytes × Bool

def ParseCall.parsed (call : ParseCall) : Parsed := (call.key, call.value, call.isCached)

/-- The call that an event is. -/
def parsedCall : RedisEvent → Option Parsed
  | .parse call _ => some call.parsed
  | _ => none

/-- The calls of the parse functions so far. -/
def parsedLog (log : List RedisEvent) : List Parsed := log.filterMap parsedCall

/-- The calls for values of replies, and those for values of the cache. -/
theorem parsedLog_perm (log : List RedisEvent) :
    (parsedLog log).Perm ((log.filterMap rpcCall).map ParseCall.parsed ++ (cachedLog log).map ParseCall.parsed) := by
  have hor : parsedLog log =
      log.filterMap fun e => ((rpcCall e).map ParseCall.parsed).or ((cachedCall e).map ParseCall.parsed) := by
    refine List.filterMap_congr fun e _ => ?_
    cases e with
    | parse call el => cases el <;> rfl
    | _ => rfl
  unfold cachedLog
  rw [hor, List.map_filterMap, List.map_filterMap]
  refine filterMap_or_perm (fun e => ?_) log
  cases e with
  | parse call el =>
    cases el with
    | none => exact Or.inl rfl
    | some el => exact Or.inr rfl
  | _ => exact Or.inl rfl

section

variable {ρ : Type*} {env : RedisEnv ρ}

/-! ## One batch -/

/-- The answer of a server that holds `value` to `fetch` or `multi_fetch`. -/
def answer (env : RedisEnv ρ) (value : Bytes → Option Bytes) (keys : List Bytes) : List RedisReply :=
  if env.enableMultiGet then [.array (keys.map value)]
  else
    keys.map fun key =>
      match value key with
      | some data => .str data
      | none => .nil

/-- The clients accept every batch, and the servers behind client `id` answer with what
they hold, `value id`. -/
structure Backend.Answers (b : Backend) (env : RedisEnv ρ) (vec : List FetchInfo) (value : Str → Bytes → Option Bytes) :
    Prop where
  accepts : ∀ j i info, IsBatch env vec j i info → b.accepts j i = true
  succeeds : ∀ j i info, IsBatch env vec j i info → (b.reply j i).failed = false
  response : ∀ j i info, IsBatch env vec j i info →
    (b.reply j i).response = some (answer env (value info.redisClientId) (info.batch env i))

variable {b : Backend} {vec : List FetchInfo} {value : Str → Bytes → Option Bytes} {info : FetchInfo} {i j : ℕ}

theorem Backend.Answers.values (h : b.Answers env vec value) (hbatch : IsBatch env vec j i info) :
    (b.reply j i).values = (info.batch env i).map (value info.redisClientId) := by
  unfold RpcReply.values
  rw [h.succeeds j i info hbatch, h.response j i info hbatch, if_neg Bool.false_ne_true]
  unfold answer
  by_cases hm : env.enableMultiGet = true
  · rw [if_pos hm]
  · -- a batch of `fetch` is one key
    obtain ⟨key, hkey⟩ : ∃ key, info.batch env i = [key] := by
      have hstep : info.step env = 1 := by
        unfold FetchInfo.step
        rw [if_neg hm]
      unfold FetchInfo.batch
      rw [hstep, List.drop_eq_getElem_cons hbatch.2.2.2]
      exact ⟨_, rfl⟩
    rw [if_neg hm, hkey, List.map_singleton, List.map_singleton]
    cases value info.redisClientId key <;> rfl

theorem Backend.Answers.fits (h : b.Answers env vec value) : b.Fits env vec := by
  intro j i info hbatch
  rw [h.values hbatch, List.length_map]

theorem Backend.Answers.served (h : b.Answers env vec value) : Served env vec b := by
  intro j info hinfo ha
  exact h.accepts j 0 info ⟨hinfo, ha, ⟨0, (Nat.zero_mul _).symm⟩, List.length_pos_iff.2 ha.keys⟩

/-- The values of a reply meet their keys. -/
theorem parseEvents_parsed (hs : info.compress ≠ "snappy".toList) (j start sliceIndex sliceSize : ℕ)
    (f : Bytes → Option Bytes) : ∀ (ks : List Bytes) (k : ℕ), ks <+: info.keys.drop (start + k) →
    ((parseEvents env info j start sliceIndex sliceSize (ks.map f) k).filterMap rpcCall).map ParseCall.parsed =
      ks.map fun key => (key, f key, false) := by
  intro ks
  induction ks with
  | nil => intro k _; rfl
  | cons key ks ih =>
    intro k h
    obtain ⟨more, hmore⟩ := h
    have hkey : info.keys[start + k]? = some key := by
      have h0 : (info.keys.drop (start + k))[0]? = some key := by rw [← hmore]; rfl
      rwa [List.getElem?_drop, Nat.add_zero] at h0
    have hnext : ks <+: info.keys.drop (start + (k + 1)) := by
      rw [← Nat.add_assoc, ← List.drop_drop, ← hmore]
      exact ⟨more, rfl⟩
    have hvalue : parseValue env info (f key) = f key := if_neg hs
    rw [List.map_cons]
    unfold parseEvents
    rw [hkey]
    simp only
    rw [List.filterMap_cons_some (f := rpcCall) rfl, List.map_cons, ih (k + 1) hnext, List.map_cons, hvalue]
    rfl

/-- **One batch**: each of its keys is given what the server holds for it. -/
theorem batchCalls_parsed (hpar : env.enableParalParse = true) (hr : b.Replies) (h : b.Answers env vec value)
    (hs : info.compress ≠ "snappy".toList) (hbatch : IsBatch env vec j i info) :
    (batchCalls env vec b (j, i)).map ParseCall.parsed =
      (info.batch env i).map fun key => (key, value info.redisClientId key, false) := by
  obtain ⟨item, hitem⟩ := fillItem_ok (hr j i) info j i (info.step env) (info.keys.getD i []) {}
  obtain ⟨-, hstart, hvalues, -⟩ := fillItem_values hitem
  unfold batchCalls FetchInfo.item
  simp only [hbatch.1, hitem]
  unfold itemParses
  rw [if_pos hpar, hstart, hvalues, h.values hbatch]
  exact parseEvents_parsed hs j i _ _ _ _ 0 (List.take_prefix _ _)

/-! ## All batches -/

/-- The starts of the batches of all fetch infos. -/
def allBatches (env : RedisEnv ρ) (vec : List FetchInfo) : List (ℕ × ℕ) :=
  vec.zipIdx.flatMap fun e =>
    if env.hasClient e.1.redisClientId then (List.range (e.1.batches env)).map fun m => (e.2, m * e.1.step env) else []

theorem keys_of_batches (hpos : 0 < info.batches env) : info.keys ≠ [] := by
  intro hnil
  unfold FetchInfo.batches batchCount at hpos
  rw [hnil] at hpos
  simp at hpos

theorem mem_allBatches (hb : env.BatchSizeOK) : (j, i) ∈ allBatches env vec ↔ ∃ info, IsBatch env vec j i info := by
  unfold allBatches
  rw [List.mem_flatMap]
  constructor
  · rintro ⟨e, he, h⟩
    have hinfo := List.mem_zipIdx_iff_getElem?.1 he
    by_cases hc : env.hasClient e.1.redisClientId = true
    · rw [if_pos hc] at h
      obtain ⟨m, hm, heq⟩ := List.mem_map.1 h
      obtain ⟨rfl, rfl⟩ := Prod.mk.inj heq
      have hlt := List.mem_range.1 hm
      have hk := keys_of_batches (Nat.zero_lt_of_lt hlt)
      exact ⟨e.1, hinfo, ⟨hc, hk⟩, ⟨m, rfl⟩, (e.1.lt_batches_iff hb hk).1 hlt⟩
    · rw [if_neg hc] at h
      exact absurd h (by simp)
  · rintro ⟨info, hinfo, ha, ⟨m, rfl⟩, hlt⟩
    refine ⟨(info, j), List.mem_zipIdx_iff_getElem?.2 hinfo, ?_⟩
    rw [if_pos ha.client]
    exact List.mem_map.2 ⟨m, List.mem_range.2 ((info.lt_batches_iff hb ha.keys).2 hlt), rfl⟩

theorem nodup_allBatches (hb : env.BatchSizeOK) : (allBatches env vec).Nodup := by
  unfold allBatches
  refine List.nodup_flatMap.2 ⟨fun e _ => ?_, ?_⟩
  · by_cases hc : env.hasClient e.1.redisClientId = true
    · rw [if_pos hc]
      refine List.Nodup.map_on (fun m hm m' _ heq => ?_) List.nodup_range
      have hk := keys_of_batches (Nat.zero_lt_of_lt (List.mem_range.1 hm))
      exact Nat.eq_of_mul_eq_mul_right (e.1.step_pos hb hk) (Prod.mk.inj heq).2
    · rw [if_neg hc]
      exact List.nodup_nil
  · -- the batches of different fetch infos
    have hplaces : (vec.zipIdx.map Prod.snd).Nodup := by
      rw [List.zipIdx_map_snd]
      exact List.nodup_range'
    refine (List.pairwise_map.1 hplaces).imp fun {e e'} hne => ?_
    rw [Function.onFun, List.disjoint_left]
    rintro ⟨j, i⟩ h h'
    have hfst : ∀ x : FetchInfo × ℕ, (j, i) ∈ (if env.hasClient x.1.redisClientId then
        (List.range (x.1.batches env)).map fun m => (x.2, m * x.1.step env) else []) → j = x.2 := by
      intro x hx
      split at hx
      · obtain ⟨m, -, heq⟩ := List.mem_map.1 hx
        exact (Prod.mk.inj heq).1.symm
      · exact absurd hx (by simp)
    exact hne ((hfst e h).symm.trans (hfst e' h'))

/-- A list that names every batch once, and nothing else. -/
theorem perm_allBatches (hb : env.BatchSizeOK) {l : List (ℕ × ℕ)}
    (hbatch : ∀ j i, (j, i) ∈ l → ∃ info, IsBatch env vec j i info)
    (hone : ∀ j i info, IsBatch env vec j i info → l.count (j, i) = 1) : l.Perm (allBatches env vec) := by
  have hnodup : l.Nodup := by
    refine List.nodup_iff_count_le_one.2 fun x => ?_
    by_cases hx : x ∈ l
    · obtain ⟨info, hinfo⟩ := hbatch x.1 x.2 hx
      exact (hone x.1 x.2 info hinfo).le
    · rw [List.count_eq_zero.2 hx]
      exact Nat.zero_le 1
  refine (List.perm_ext_iff_of_nodup hnodup (nodup_allBatches hb)).2 fun x => ?_
  obtain ⟨j, i⟩ := x
  rw [mem_allBatches hb]
  refine ⟨hbatch j i, ?_⟩
  rintro ⟨info, hinfo⟩
  refine List.count_pos_iff.1 ?_
  rw [hone j i info hinfo]
  exact Nat.one_pos

/-- **The batches of a fetch info** make up its keys. -/
theorem flatMap_batch (hb : env.BatchSizeOK) (info : FetchInfo) :
    ((List.range (info.batches env)).flatMap fun m => info.batch env (m * info.step env)) = info.keys := by
  by_cases hk : info.keys = []
  · have hnil : ∀ m, info.batch env (m * info.step env) = [] := by
      intro m
      unfold FetchInfo.batch
      rw [hk, List.drop_nil, List.take_nil]
    rw [List.flatMap_congr fun m _ => hnil m, hk]
    simp
  · refine flatMap_chunks (info.step env) (info.batches env) info.keys ?_
    by_contra hlt
    exact lt_irrefl _ ((info.lt_batches_iff hb hk).2 (by omega))

/-- What is done for each key of each batch is done for each key that is asked for. -/
theorem flatMap_allBatches {β : Type*} (hb : env.BatchSizeOK) (f : Str → Bytes → β) {g : ℕ × ℕ → List β}
    (hg : ∀ j i info, IsBatch env vec j i info → g (j, i) = (info.batch env i).map (f info.redisClientId)) :
    (allBatches env vec).flatMap g = (vec.flatMap (asked env)).map fun e => f e.1 e.2 := by
  have hfst : vec.flatMap (asked env) = vec.zipIdx.flatMap fun e => asked env e.1 := by
    conv_lhs => rw [← List.zipIdx_map_fst 0 vec, List.flatMap_map]
  unfold allBatches
  rw [hfst, List.flatMap_assoc, List.map_flatMap]
  refine List.flatMap_congr fun e he => ?_
  have hinfo := List.mem_zipIdx_iff_getElem?.1 he
  unfold asked
  by_cases hc : env.hasClient e.1.redisClientId = true
  · rw [if_pos hc, if_pos hc, List.flatMap_map, List.map_map, ← flatMap_batch hb e.1, List.map_flatMap]
    refine List.flatMap_congr fun m hm => ?_
    have hlt := List.mem_range.1 hm
    have hk := keys_of_batches (Nat.zero_lt_of_lt hlt)
    exact hg e.2 _ e.1 ⟨hinfo, ⟨hc, hk⟩, ⟨m, rfl⟩, (e.1.lt_batches_iff hb hk).1 hlt⟩
  · rw [if_neg hc, if_neg hc]
    rfl

/-- **The values of all batches** meet the keys that were asked for. -/
theorem allBatches_parsed (hb : env.BatchSizeOK) (hpar : env.enableParalParse = true) (hr : b.Replies)
    (h : b.Answers env vec value) (hs : ∀ info ∈ vec, info.compress ≠ "snappy".toList) :
    ((allBatches env vec).flatMap (batchCalls env vec b)).map ParseCall.parsed =
      (vec.flatMap (asked env)).map fun e => (e.2, value e.1 e.2, false) := by
  rw [List.map_flatMap]
  refine flatMap_allBatches hb (fun id key => (key, value id key, false)) fun j i info hbatch => ?_
  exact batchCalls_parsed hpar hr h (hs info (List.mem_of_getElem? hbatch.1)) hbatch

/-! ## Before `process_response` -/

variable {s₀ s : Serving} {l l' : List RedisEvent}

theorem Batches.count_called_le (hB : Batches env s) (j i : ℕ) : s.request.log.count (.called j i) ≤ 1 := by
  by_cases hcalled : .called j i ∈ s.request.log
  · obtain ⟨info, hbatch, -, -⟩ := hB.accepted_of_called hcalled
    have h1 := hB.once j i info hbatch
    have h2 := hB.called j i
    have h3 : s.request.log.countP (isAccepted j i) ≤ s.request.log.countP (isIssue j i) := by
      refine List.countP_mono_left fun e _ he => ?_
      cases e <;> simp_all [isAccepted, isIssue]
    omega
  · rw [List.count_eq_zero.2 hcalled]
    exact Nat.zero_le 1

/-- **The callback of every batch has run once.** -/
theorem called_perm (hI : Inv env s₀ s) (hb : env.BatchSizeOK)
    (hacc : ∀ j i info, IsBatch env s.node.fetchInfoVec j i info → s.request.backend.accepts j i = true)
    (hl : s.request.log = l ++ .process :: l') :
    (s.request.log.filterMap calledBatch).Perm (allBatches env s.node.fetchInfoVec) := by
  have hcount : ∀ j i, (s.request.log.filterMap calledBatch).count (j, i) = s.request.log.count (.called j i) := by
    intro j i
    rw [List.count_filterMap, List.count_eq_countP]
    refine List.countP_congr fun e _ => ?_
    cases e <;> simp [calledBatch]
  refine perm_allBatches hb (fun j i hx => ?_) fun j i info hbatch => ?_
  · rw [← List.count_pos_iff, hcount, List.count_pos_iff] at hx
    obtain ⟨info, hbatch, -, -⟩ := hI.batches.accepted_of_called hx
    exact ⟨info, hbatch⟩
  · have hmem : .called j i ∈ s.request.log := by
      rcases (hI.past l l' hl).1.batches j i info (hI.vec ▸ hbatch) with hissue | ⟨-, hcalled⟩
      · have hmem : .issue j i (info.batch env i) false ∈ s.request.log := by
          rw [hl]
          exact List.mem_append_left _ hissue
        obtain ⟨-, -, -, hrefused⟩ := hI.batches.issued _ _ _ _ hmem
        rw [hacc j i info hbatch] at hrefused
        exact absurd hrefused (by simp)
      · rw [hl]
        exact List.mem_append_left _ hcalled
    rw [hcount]
    exact Nat.le_antisymm (hI.batches.count_called_le j i) (List.count_pos_iff.2 hmem)

/-- The values of all replies have been parsed. -/
theorem replies_parsed (hn : env.NoThrow) (hI : Inv env s₀ s) (hT : Items env s) (hb : env.BatchSizeOK)
    (hpar : env.enableParalParse = true) (hr : s.request.backend.Replies)
    (h : s.request.backend.Answers env s.node.fetchInfoVec value)
    (hs : ∀ info ∈ s.node.fetchInfoVec, info.compress ≠ "snappy".toList) (hl : s.request.log = l ++ .process :: l') :
    ((l.filterMap rpcCall).map ParseCall.parsed).Perm
      ((s.node.fetchInfoVec.flatMap (asked env)).map fun e => (e.2, value e.1 e.2, false)) := by
  have hlog : l.filterMap rpcCall = s.request.log.filterMap rpcCall := by
    have hnone : l'.filterMap rpcCall = [] := by
      refine List.filterMap_eq_nil_iff.2 fun e he => ?_
      rw [(hI.past l l' hl).2 e he]
      rfl
    rw [hl, List.filterMap_append, List.filterMap_cons_none rfl, hnone, List.append_nil]
  rw [hlog, hT.calls hn, ← allBatches_parsed hb hpar hr h hs]
  exact ((called_perm hI hb h.accepts hl).flatMap_right _).map _

/-! ## The keys that were generated -/

variable {node : RedisNode} {req : ρ} {backend : Backend}

/-- The parse function is to be called once for a generated key: with the value that the
cache holds, or with the one that the server holds if there is a client. -/
def planned (env : RedisEnv ρ) (c : Cache) (req : ρ) (value : Str → Bytes → Option Bytes) (info : FetchInfo) :
    List Parsed :=
  (generated env req info).filterMap fun key =>
    match hit c info key with
    | some data => some (key, some data, true)
    | none => if env.hasClient info.redisClientId then some (key, value info.redisClientId key, false) else none

/-- The missed keys and the hits of one fetch info. -/
theorem planned_perm (c : Cache) (info : FetchInfo) :
    (((asked env { info with keys := missed env c req info }).map fun e => (e.2, value e.1 e.2, false)) ++
      (generated env req info).filterMap fun key => (hit c info key).map fun data => (key, some data, true)).Perm
      (planned env c req value info) := by
  have hasked : ((asked env { info with keys := missed env c req info }).map fun e => (e.2, value e.1 e.2, false)) =
      (generated env req info).filterMap fun key =>
        if hit c info key = none ∧ env.hasClient info.redisClientId = true then
          some (key, value info.redisClientId key, false) else none := by
    unfold asked missed
    by_cases hc : env.hasClient info.redisClientId = true
    · simp only [hc, if_true, List.map_map, and_true]
      rw [← List.filterMap_eq_map, List.filterMap_filter]
      refine List.filterMap_congr fun key _ => ?_
      by_cases hk : hit c info key = none <;> simp [hk]
    · simp [hc]
  have hplanned : planned env c req value info = (generated env req info).filterMap fun key =>
      (if hit c info key = none ∧ env.hasClient info.redisClientId = true then
        some (key, value info.redisClientId key, false) else none).or
        ((hit c info key).map fun data => (key, some data, true)) := by
    unfold planned
    refine List.filterMap_congr fun key _ => ?_
    cases hit c info key with
    | none => by_cases hc : env.hasClient info.redisClientId = true <;> simp [hc]
    | some data => simp
  rw [hasked, hplanned]
  refine (filterMap_or_perm (fun key => ?_) _).symm
  cases hit c info key with
  | none => exact Or.inr rfl
  | some data => exact Or.inl (by simp)

theorem doService_asked : (node.doService env req backend).node.fetchInfoVec.flatMap (asked env) =
    (madeVec env node.cache req node.fetchInfoVec).flatMap (asked env) := by
  rcases doService_cases env node req backend with ⟨hnil, h⟩ | ⟨vec, data, hm, -, h⟩ <;> rw [h]
  · rw [hnil]
    rfl
  · obtain ⟨rfl, -⟩ := makeUp_parts hm
    rw [List.flatMap_map]
    conv_rhs => rw [← List.zipIdx_map_fst 0 (madeVec env node.cache req node.fetchInfoVec), List.flatMap_map]
    rfl

theorem doService_data : (node.doService env req backend).request.cacheDataVec =
    (made env node.cache req node.fetchInfoVec).flatMap fun e => e.2.2 := by
  rcases doService_cases env node req backend with ⟨hnil, h⟩ | ⟨vec, data, hm, -, h⟩ <;> rw [h]
  · rw [hnil]
    rfl
  · exact (makeUp_parts hm).2

/-- The settings of the fetch infos are those that were configured. -/
theorem doService_same {info : FetchInfo} (h : info ∈ (node.doService env req backend).node.fetchInfoVec) :
    ∃ info₀ ∈ node.fetchInfoVec, info₀.compress = info.compress := by
  rcases doService_cases env node req backend with ⟨hnil, h'⟩ | ⟨vec, data, hm, -, h'⟩ <;> rw [h'] at h
  · exact ⟨info, h, rfl⟩
  · obtain ⟨rfl, -⟩ := makeUp_parts hm
    obtain ⟨e, he, rfl⟩ := List.mem_map.1 h
    have hmade := List.mem_of_getElem? (List.mem_zipIdx_iff_getElem?.1 he)
    unfold madeVec at hmade
    rcases List.mem_append.1 hmade with hmade | hmade
    · obtain ⟨x, hx, heq⟩ := List.mem_map.1 hmade
      obtain ⟨i, info₀, hinfo₀, rfl⟩ := mem_made hx
      exact ⟨info₀, List.mem_of_getElem? hinfo₀, by rw [← heq]; exact (makeUpFetchInfo_same i info₀).1.compress.symm⟩
    · obtain ⟨x, hx, hmem⟩ := List.mem_flatMap.1 hmade
      obtain ⟨i, info₀, hinfo₀, rfl⟩ := mem_made hx
      exact ⟨info₀, List.mem_of_getElem? hinfo₀, ((makeUpFetchInfo_same i info₀).2 _ hmem).compress.symm⟩

/-- The values of all hits have been parsed. -/
theorem hits_parsed (hgen : ∀ info ∈ node.fetchInfoVec, Ready env info)
    (hnd : ∀ info ∈ node.fetchInfoVec, HitsDistinct env node.cache req info)
    (hs : ∀ info ∈ node.fetchInfoVec, info.compress ≠ "snappy".toList)
    (hdue : Due env (node.doService env req backend) l) :
    ((cachedLog l).map ParseCall.parsed).Perm (node.fetchInfoVec.flatMap fun info =>
      (generated env req info).filterMap fun key => (hit node.cache info key).map fun data => (key, some data, true)) := by
  set s₀ := node.doService env req backend with hs₀
  have hcomp : ∀ i, (s₀.node.fetchInfoVec.getD i {}).compress ≠ "snappy".toList := by
    intro i
    rw [List.getD_eq_getElem?_getD]
    cases hi : s₀.node.fetchInfoVec[i]? with
    | none => simp
    | some info =>
      obtain ⟨info₀, hmem, heq⟩ := doService_same (List.mem_of_getElem? hi)
      rw [Option.getD_some, ← heq]
      exact hs info₀ hmem
  have hcalls : (s₀.request.cacheDataVec.flatMap (CacheDataItem.calls env s₀.node.fetchInfoVec)).map ParseCall.parsed =
      (s₀.request.cacheDataVec.flatMap fun item => item.dataMap.map fun e => (item.fetchInfoPtr, e)).map
        fun x => (x.2.1, some x.2.2, true) := by
    rw [List.map_flatMap, List.map_flatMap]
    refine List.flatMap_congr fun item _ => ?_
    unfold CacheDataItem.calls
    rw [List.map_map, List.map_map]
    refine List.map_congr_left fun e _ => ?_
    have hvalue : parseValue env (s₀.node.fetchInfoVec.getD item.fetchInfoPtr {}) (some e.2) = some e.2 :=
      if_neg (hcomp item.fetchInfoPtr)
    simp only [Function.comp_apply, ParseCall.parsed, hvalue]
  have hplaces : (node.fetchInfoVec.flatMap fun info => (generated env req info).filterMap fun key =>
      (hit node.cache info key).map fun data => (key, some data, true)) =
      node.fetchInfoVec.zipIdx.flatMap fun e => (generated env req e.1).filterMap fun key =>
        (hit node.cache e.1 key).map fun data => (key, some data, true) := by
    conv_lhs => rw [← List.zipIdx_map_fst 0 node.fetchInfoVec, List.flatMap_map]
  rw [hdue.cached, hplaces]
  refine ((cachedCalls_perm node req backend).map _).trans (.of_eq ?_)
  rw [hcalls, doService_data, made_hits hgen hnd, List.map_flatMap]
  refine List.flatMap_congr fun e _ => ?_
  rw [List.map_filterMap]
  refine List.filterMap_congr fun key _ => ?_
  rw [Option.map_map]
  rfl

theorem planned_keys (c : Cache) (info : FetchInfo) :
    ((planned env c req value info).map fun p => p.1).Sublist (generated env req info) := by
  unfold planned
  rw [List.map_filterMap]
  induction generated env req info with
  | nil => exact .slnil
  | cons key keys ih =>
    rw [List.filterMap_cons]
    cases hit c info key with
    | some data => exact ih.cons_cons key
    | none =>
      by_cases hc : env.hasClient info.redisClientId = true
      · rw [if_pos hc, Option.map_some]
        exact ih.cons_cons key
      · rw [if_neg hc, Option.map_none]
        exact ih.cons key

/-- **Every key meets its value**: when `process_response` is called, the parse function
has been called once for each generated key that the cache knows, with what the cache holds,
once for each other one whose client is registered, with what the server holds, and for no
other key. -/
theorem request_parses (hn : env.NoThrow) (hb : env.BatchSizeOK) (hpar : env.enableParalParse = true)
    (hr : backend.Replies) (hgen : ∀ info ∈ node.fetchInfoVec, (env.keyFuncMap info.keyGenFunc).isSome)
    (hs : ∀ info ∈ node.fetchInfoVec, info.compress ≠ "snappy".toList)
    (hnd : (node.fetchInfoVec.flatMap (generated env req)).Nodup)
    (hans : backend.Answers env (node.doService env req backend).node.fetchInfoVec value) {ts : List ℕ}
    (h : Machine.run (Serving.step env) (node.doService env req backend) ts = some s)
    (hl : s.request.log = l ++ .process :: l') :
    (parsedLog l).Perm (node.fetchInfoVec.flatMap (planned env node.cache req value)) ∧
      ((parsedLog l).map fun p => p.1).Nodup := by
  have hret := along_of_served hn.cachedNoThrow hb hr hans.fits hans.served ts _
    (inv_doService node req backend) items_doService
  obtain ⟨hI, hT, -⟩ := act_run hb (by rwa [doService_backend]) (fun _ => Items env)
    (fun _ s t op rest s' hI hT ht hact => hT.step hI hb ht hact) ts [] _ s (inv_doService node req backend)
    items_doService hret h
  have hbackend : s.request.backend = backend := hI.backend.trans doService_backend
  have hready : ∀ info ∈ node.fetchInfoVec, Ready env info := fun info hinfo => Or.inl (hgen info hinfo)
  have hnd' : ∀ info ∈ node.fetchInfoVec, HitsDistinct env node.cache req info :=
    fun info hinfo => ((List.nodup_flatMap.1 hnd).1 info hinfo).filter _
  have hcomp : ∀ info ∈ s.node.fetchInfoVec, info.compress ≠ "snappy".toList := by
    intro info hinfo
    rw [hI.vec] at hinfo
    obtain ⟨info₀, hmem, heq⟩ := doService_same hinfo
    rw [← heq]
    exact hs info₀ hmem
  -- the replies: the keys asked for are the missed ones
  have hreplies := replies_parsed hn hI hT hb hpar (by rwa [hbackend]) (by rwa [hbackend, hI.vec]) hcomp hl
  rw [hI.vec, doService_asked] at hreplies
  have hmissed := hreplies.trans ((madeVec_asked (c := node.cache) hready).map _)
  have hhits := hits_parsed hready hnd' hs (hI.past l l' hl).1
  have hperm : (parsedLog l).Perm (node.fetchInfoVec.flatMap (planned env node.cache req value)) := by
    refine (parsedLog_perm l).trans ((hmissed.append hhits).trans ?_)
    rw [List.map_flatMap]
    refine (List.flatMap_append_perm _ _ _).trans ?_
    exact List.Perm.flatMap_left _ fun info _ => planned_perm node.cache info
  refine ⟨hperm, (hperm.map fun p => p.1).nodup_iff.2 ?_⟩
  rw [List.map_flatMap]
  refine hnd.sublist ?_
  induction node.fetchInfoVec with
  | nil => exact .slnil
  | cons info infos ih =>
    rw [List.flatMap_cons, List.flatMap_cons]
    exact (planned_keys node.cache info).append ih

end

/-- The generator makes keys that begin with the prefix; a batch has two of them. -/
def prefixEnv : RedisEnv Unit :=
  { sampleEnv with
    batchSize := 2
    keyFuncMap := fun name =>
      if name = "gen".toList then some fun _ keys keyPrefix _ =>
        keys ++ [ascii keyPrefix, ascii keyPrefix ++ [9], ascii keyPrefix ++ [10], ascii keyPrefix ++ [11]]
      else none }

/-- What the servers hold. -/
def heldBy : Str → Bytes → Option Bytes := fun _ key =>
  if key = [97, 9] then some [1] else if key = [97, 11] then some [2] else none

/-- The batches start at 0 and at 2. -/
def heldBackend : Backend where
  accepts _ _ := true
  reply _ i := { response := some [.array (if i = 0 then [some [1], none] else [some [2]])] }

theorem heldBackend_answers :
    heldBackend.Answers prefixEnv (sampleNode.doService prefixEnv () heldBackend).node.fetchInfoVec heldBy := by
  have hvec : (sampleNode.doService prefixEnv () heldBackend).node.fetchInfoVec.map (fun x => (x.redisClientId, x.keys)) =
      [("client".toList, [[97, 9], [97, 10], [97, 11]]), ([], [[98], [98, 9], [98, 10], [98, 11]])] := by
    decide
  refine ⟨fun _ _ _ _ => rfl, fun _ _ _ _ => rfl, fun j i info hbatch => ?_⟩
  obtain ⟨hinfo, hact, ⟨m, hm⟩, hi⟩ := hbatch
  -- only the first fetch info has a client
  have hj := congrArg (fun l => l[j]?) hvec
  simp only [List.getElem?_map, hinfo, Option.map_some] at hj
  rcases j with _ | _ | j
  · obtain ⟨-, hkeys⟩ := Prod.mk.inj (Option.some.inj hj)
    have hstep : info.step prefixEnv = 2 := by
      unfold FetchInfo.step FetchInfo.batches
      rw [hkeys]
      rfl
    rw [hkeys] at hi
    rw [hstep] at hm
    have hstart : i = 0 ∨ i = 2 := by
      simp only [List.length_cons, List.length_nil] at hi
      omega
    unfold FetchInfo.batch
    rw [hkeys, hstep]
    rcases hstart with rfl | rfl <;> rfl
  · obtain ⟨hid, -⟩ := Prod.mk.inj (Option.some.inj hj)
    have hclient := hact.client
    rw [hid] at hclient
    exact absurd hclient (by decide)
  · cases hj

/-- One key is cached, three are not, in two batches, and the second fetch info has no client. -/
theorem request_parses_sample : ∃ s l l', Machine.run (Serving.step prefixEnv)
      (sampleNode.doService prefixEnv () heldBackend) [0, 0, 0, 2, 2, 2, 0, 0, 0, 0, 0, 1, 1, 1, 1, 1, 1, 1, 1] = some s ∧
    s.request.log = l ++ .process :: l' ∧
    (parsedLog l).Perm [([97], some [5], true), ([97, 9], some [1], false), ([97, 10], none, false),
      ([97, 11], some [2], false)] := by
  have hlog : (Machine.run (Serving.step prefixEnv) (sampleNode.doService prefixEnv () heldBackend)
      [0, 0, 0, 2, 2, 2, 0, 0, 0, 0, 0, 1, 1, 1, 1, 1, 1, 1, 1]).map (fun s => s.request.log) =
      some ([.issue 0 0 [[97, 9], [97, 10]] true, .issue 0 2 [[97, 11]] true, .called 0 2,
        .parse ⟨[97, 11], some [2], 1, 2, 0, false⟩ (some (2, 0)), .parse ⟨[97], some [5], 0, 1, 0, true⟩ none,
        .called 0 0, .parse ⟨[97, 9], some [1], 0, 2, 0, false⟩ (some (0, 0)),
        .parse ⟨[97, 10], none, 0, 2, 0, false⟩ (some (0, 1)), .cacheSet [97, 9] [1] 0 0 0,
        .cacheSet [97, 10] [32] 0 0 1, .cacheSet [97, 11] [2] 0 2 0, .merged] ++ .process ::
          [.output]) := by
    decide
  obtain ⟨s, hs, hlog⟩ := Option.map_eq_some_iff.1 hlog
  refine ⟨s, _, _, hs, hlog, ?_⟩
  exact (request_parses ⟨fun _ _ => rfl, fun _ => rfl⟩ (fun _ => Nat.two_pos) rfl
    (fun _ _ _ => by simp [heldBackend]) (by decide) (by decide) (by decide) heldBackend_answers hs hlog).1

end Graphize
