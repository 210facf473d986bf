import Graphize.Proof.RedisParses

/-!
# When some servers do not answer

A server that is down, or that does not own the keys that it is asked for, answers a batch
with an error. Then nothing is parsed for the keys of this batch, and all others meet their
values.

* `batchCalls_partly`: the callback of one batch.
* `request_parses_partly`: the parse function is called once for each key that is answered.
-/

namespace Graphize

open Regroup

section

variable {ρ : Type*} {env : RedisEnv ρ}

/-- The clients accept every batch, and each is answered for all of its keys or for none.
`answered id key` is what the servers behind client `id` answer for `key`, if they do. -/
structure Backend.Partly (b : Backend) (env : RedisEnv ρ) (vec : List FetchInfo)
    (answered : Str → Bytes → Option (Option Bytes)) : Prop where
  accepts : ∀ j i info, IsBatch env vec j i info → b.accepts j i = true
  values : ∀ j i info, IsBatch env vec j i info →
    (b.reply j i).values = (info.batch env i).filterMap (answered info.redisClientId)
  whole : ∀ j i info, IsBatch env vec j i info →
    (∀ key ∈ info.batch env i, (answered info.redisClientId key).isSome) ∨
      ∀ key ∈ info.batch env i, answered info.redisClientId key = none

variable {b : Backend} {vec : List FetchInfo} {answered : Str → Bytes → Option (Option Bytes)} {info : FetchInfo} {i j : ℕ}

theorem Backend.Partly.fits (h : b.Partly env vec answered) : b.Fits env vec := by
  intro j i info hbatch
  rw [h.values j i info hbatch]
  exact List.length_filterMap_le _ _

theorem Backend.Partly.served (h : b.Partly env vec answered) : Served env vec b := by
  intro j info hinfo ha
  exact h.accepts j 0 info ⟨hinfo, ha, ⟨0, (Nat.zero_mul _).symm⟩, List.length_pos_iff.2 ha.keys⟩

/-- **One batch**: each of its keys is given what is answered for it, or none is. -/
theorem batchCalls_partly (hpar : env.enableParalParse = true) (hr : b.Replies) (h : b.Partly env vec answered)
    (hs : info.compress ≠ "snappy".toList) (hbatch : IsBatch env vec j i info) :
    (batchCalls env vec b (j, i)).map ParseCall.parsed =
      (info.batch env i).filterMap fun key => (answered info.redisClientId key).map fun value => (key, value, false) := by
  obtain ⟨item, hitem⟩ := fillItem_ok (hr j i) info j i (info.step env) (info.keys.getD i []) {}
  obtain ⟨-, hstart, hvalues, -⟩ := fillItem_values hitem
  unfold batchCalls FetchInfo.item
  simp only [hbatch.1, hitem]
  unfold itemParses
  rw [if_pos hpar, hstart, hvalues, h.values j i info hbatch]
  rcases h.whole j i info hbatch with hall | hnone
  · -- the answered keys are all keys
    have hsome : ∀ key ∈ info.batch env i, answered info.redisClientId key =
        some ((answered info.redisClientId key).getD none) := by
      intro key hkey
      obtain ⟨value, hvalue⟩ := Option.isSome_iff_exists.1 (hall key hkey)
      rw [hvalue]
      rfl
    have hmap : ∀ {β : Type} (f : Bytes → Option Bytes → β),
        ((info.batch env i).filterMap fun key => (answered info.redisClientId key).map (f key)) =
          (info.batch env i).map fun key => f key ((answered info.redisClientId key).getD none) := by
      intro β f
      rw [← List.filterMap_eq_map]
      refine List.filterMap_congr fun key hkey => ?_
      rw [hsome key hkey]
      rfl
    have hid := hmap fun _ value => value
    simp only [Option.map_id'] at hid
    rw [hid, hmap]
    exact parseEvents_parsed hs j i _ _ _ _ 0 (List.take_prefix _ _)
  · have hnil : (info.batch env i).filterMap (answered info.redisClientId) = [] :=
      List.filterMap_eq_nil_iff.2 hnone
    have hnil' : ((info.batch env i).filterMap fun key =>
        (answered info.redisClientId key).map fun value => (key, value, false)) = [] := by
      refine List.filterMap_eq_nil_iff.2 fun key hkey => ?_
      rw [hnone key hkey]
      rfl
    rw [hnil, hnil']
    rfl

/-- What is done for the answered keys of each batch is done for those that are asked for. -/
theorem filterMap_allBatches {β : Type*} (hb : env.BatchSizeOK) (f : Str → Bytes → Option β) {g : ℕ × ℕ → List β}
    (hg : ∀ j i info, IsBatch env vec j i info → g (j, i) = (info.batch env i).filterMap (f info.redisClientId)) :
    (allBatches env vec).flatMap g = (vec.flatMap (asked env)).filterMap fun e => f e.1 e.2 := by
  have hlists : ((allBatches env vec).flatMap fun x => vec[x.1]?.toList.flatMap fun info =>
      (info.batch env x.2).map fun key => (f info.redisClientId key).toList) =
        (vec.flatMap (asked env)).map fun e => (f e.1 e.2).toList := by
    refine flatMap_allBatches hb (fun id key => (f id key).toList) fun j i info hbatch => ?_
    simp only [hbatch.1, Option.toList_some, List.flatMap_singleton]
  rw [List.filterMap_eq_flatMap_toList]
  conv_rhs => rw [List.flatMap_def, ← hlists, ← List.flatMap_id, List.flatMap_assoc]
  refine List.flatMap_congr fun x hx => ?_
  obtain ⟨info, hbatch⟩ := (mem_allBatches hb).1 hx
  rw [hg _ _ info hbatch, hbatch.1, Option.toList_some, List.flatMap_singleton, List.filterMap_eq_flatMap_toList,
    List.flatMap_def, List.flatMap_id]

/-- The parse function is to be called once for a generated key: with the value that the
cache holds, or with the one that is answered for it. -/
def plannedPartly (env : RedisEnv ρ) (c : Cache) (req : ρ) (answered : Str → Bytes → Option (Option Bytes))
    (info : FetchInfo) : List Parsed :=
  (generated env req info).filterMap fun key =>
    match hit c info key with
    | some data => some (key, some data, true)
    | none => if env.hasClient info.redisClientId then
        (answered info.redisClientId key).map fun value => (key, value, false) else none

variable {c : Cache} {req : ρ}

/-- The missed keys and the hits of one fetch info. -/
theorem plannedPartly_perm (c : Cache) (info : FetchInfo) :
    (((asked env { info with keys := missed env c req info }).filterMap fun e =>
        (answered e.1 e.2).map fun value => (e.2, value, false)) ++
      (generated env req info).filterMap fun key => (hit c info key).map fun data => (key, some data, true)).Perm
      (plannedPartly env c req answered info) := by
  have hasked : ((asked env { info with keys := missed env c req info }).filterMap fun e =>
      (answered e.1 e.2).map fun value => (e.2, value, false)) = (generated env req info).filterMap fun key =>
        if hit c info key = none ∧ env.hasClient info.redisClientId = true then
          (answered info.redisClientId key).map fun value => (key, value, false) else none := by
    unfold asked missed
    by_cases hc : env.hasClient info.redisClientId = true
    · simp only [hc, if_true, and_true, List.filterMap_map, List.filterMap_filter]
      refine List.filterMap_congr fun key _ => ?_
      by_cases hk : hit c info key = none <;> simp [hk]
    · simp [hc]
  have hplanned : plannedPartly env c req answered info = (generated env req info).filterMap fun key =>
      (if hit c info key = none ∧ env.hasClient info.redisClientId = true then
        (answered info.redisClientId key).map fun value => (key, value, false) else none).or
        ((hit c info key).map fun data => (key, some data, true)) := by
    unfold plannedPartly
    refine List.filterMap_congr fun key _ => ?_
    cases hit c info key with
    | none => by_cases hc : env.hasClient info.redisClientId = true <;> simp [hc]
    | some data => simp
  rw [hasked, hplanned]
  refine (filterMap_or_perm (fun key => ?_) _).symm
  cases hit c info key with
  | none => exact Or.inr rfl
  | some data => exact Or.inl (by simp)

theorem plannedPartly_keys (c : Cache) (info : FetchInfo) :
    ((plannedPartly env c req answered info).map fun p => p.1).Sublist (generated env req info) := by
  unfold plannedPartly
  rw [List.map_filterMap]
  induction generated env req info with
  | nil => exact .slnil
  | cons key keys ih =>
    rw [List.filterMap_cons]
    cases hit c info key with
    | some data => exact ih.cons_cons key
    | none =>
      by_cases hc : env.hasClient info.redisClientId = true
      · rw [if_pos hc]
        cases answered info.redisClientId key with
        | none => exact ih.cons key
        | some value => exact ih.cons_cons key
      · rw [if_neg hc, Option.map_none]
        exact ih.cons key

variable {node : RedisNode} {backend : Backend} {s : Serving} {l l' : List RedisEvent}

/-- **Every answered key meets its value**: when `process_response` is called, the parse
function has been called once for each generated key that the cache knows, with what the
cache holds, once for each other one whose client is registered and that is answered, with
the answer, and for no other key. -/
theorem request_parses_partly (hn : env.NoThrow) (hb : env.BatchSizeOK) (hpar : env.enableParalParse = true)
    (hr : backend.Replies) (hgen : ∀ info ∈ node.fetchInfoVec, Ready env info)
    (hs : ∀ info ∈ node.fetchInfoVec, info.compress ≠ "snappy".toList)
    (hnd : (node.fetchInfoVec.flatMap (generated env req)).Nodup)
    (hpart : backend.Partly env (node.doService env req backend).node.fetchInfoVec answered) {ts : List ℕ}
    (h : Machine.run (Serving.step env) (node.doService env req backend) ts = some s)
    (hl : s.request.log = l ++ .process :: l') :
    (parsedLog l).Perm (node.fetchInfoVec.flatMap (plannedPartly env node.cache req answered)) ∧
      ((parsedLog l).map fun p => p.1).Nodup := by
  have hret := along_of_served hn.cachedNoThrow hb hr hpart.fits hpart.served ts _
    (inv_doService node req backend) items_doService
  obtain ⟨hI, hT, -⟩ := act_run hb (by rwa [doService_backend]) (fun _ => Items env)
    (fun _ s t op rest s' hI hT ht hact => hT.step hI hb ht hact) ts [] _ s (inv_doService node req backend)
    items_doService hret h
  have hbackend : s.request.backend = backend := hI.backend.trans doService_backend
  have hcomp : ∀ info ∈ s.node.fetchInfoVec, info.compress ≠ "snappy".toList := by
    intro info hinfo
    rw [hI.vec] at hinfo
    obtain ⟨info₀, hmem, heq⟩ := doService_same hinfo
    rw [← heq]
    exact hs info₀ hmem
  have hlog : l.filterMap rpcCall = s.request.log.filterMap rpcCall := by
    have hnone : l'.filterMap rpcCall = [] := by
      refine List.filterMap_eq_nil_iff.2 fun e he => ?_
      rw [(hI.past l l' hl).2 e he]
      rfl
    rw [hl, List.filterMap_append, List.filterMap_cons_none rfl, hnone, List.append_nil]
  -- the replies: the keys asked for are the missed ones
  have hpart' : s.request.backend.Partly env s.node.fetchInfoVec answered := by rwa [hbackend, hI.vec]
  have hreplies : ((l.filterMap rpcCall).map ParseCall.parsed).Perm ((s.node.fetchInfoVec.flatMap (asked env)).filterMap
      fun e => (answered e.1 e.2).map fun value => (e.2, value, false)) := by
    have hbatches : ((allBatches env s.node.fetchInfoVec).flatMap fun x =>
        (batchCalls env s.node.fetchInfoVec s.request.backend x).map ParseCall.parsed) =
          (s.node.fetchInfoVec.flatMap (asked env)).filterMap fun e =>
            (answered e.1 e.2).map fun value => (e.2, value, false) :=
      filterMap_allBatches hb (fun id key => (answered id key).map fun value => (key, value, false))
        fun j i info hbatch => batchCalls_partly hpar (by rwa [hbackend]) hpart'
          (hcomp info (List.mem_of_getElem? hbatch.1)) hbatch
    rw [hlog, hT.calls hn, ← hbatches, ← List.map_flatMap]
    exact ((called_perm hI hb hpart'.accepts hl).flatMap_right _).map _
  rw [hI.vec, doService_asked] at hreplies
  have hmissed := hreplies.trans ((madeVec_asked (c := node.cache) hgen).filterMap _)
  have hhits := hits_parsed hgen (fun info hinfo => ((List.nodup_flatMap.1 hnd).1 info hinfo).filter _) hs
    (hI.past l l' hl).1
  have hperm : (parsedLog l).Perm (node.fetchInfoVec.flatMap (plannedPartly env node.cache req answered)) := by
    refine (parsedLog_perm l).trans ((hmissed.append hhits).trans ?_)
    rw [List.filterMap_flatMap]
    refine (List.flatMap_append_perm _ _ _).trans ?_
    exact List.Perm.flatMap_left _ fun info _ => plannedPartly_perm node.cache info
  refine ⟨hperm, (hperm.map fun p => p.1).nodup_iff.2 ?_⟩
  rw [List.map_flatMap]
  refine hnd.sublist ?_
  induction node.fetchInfoVec with
  | nil => exact .slnil
  | cons info infos ih =>
    rw [List.flatMap_cons, List.flatMap_cons]
    exact (plannedPartly_keys node.cache info).append ih

end

end Graphize
