import Graphize.Proof.RedisMakeUp
import Graphize.Proof.RedisCache
import Graphize.Lib.Regroup

/-!
# The keys of a request

What `make_up_fetch_info_vec` makes of the generated keys: those that the cache knows are
recorded as hits, the others are asked for, regrouped by slot.

* `lookedUp_fst`, `lookedUp_snd`: the missed keys and the recorded hits of one fetch info.
* `groupBySlot_keys`: regrouping by slot keeps the keys.
* `madeVec_asked`: the keys asked for are the missed ones, up to their order.
* `made_hits`: the recorded hits.
-/

namespace Graphize

open Regroup

section

variable {ρ : Type*} {env : RedisEnv ρ} {c : Cache} {req : ρ} {info : FetchInfo}

/-- What `get_from_cache` reads for a key of a fetch info. -/
def hit (c : Cache) (info : FetchInfo) (key : Bytes) : Option Bytes :=
  if info.useCache then (c.get key).map cachedData else none

/-- The generated keys that the cache does not know. -/
def missed (env : RedisEnv ρ) (c : Cache) (req : ρ) (info : FetchInfo) : List Bytes :=
  (generated env req info).filter fun key => hit c info key = none

/-- The keys that a request asks the servers for, each with the client. -/
def asked (env : RedisEnv ρ) (info : FetchInfo) : List (Str × Bytes) :=
  if env.hasClient info.redisClientId then info.keys.map fun key => (info.redisClientId, key) else []

/-- The generated keys that the cache knows are distinct. -/
def HitsDistinct (env : RedisEnv ρ) (c : Cache) (req : ρ) (info : FetchInfo) : Prop :=
  ((generated env req info).filter fun key => (hit c info key).isSome).Nodup

/-! ## Looking keys up -/

theorem foldl_getFromCache (c : Cache) : ∀ (keys : List Bytes) (s : List Bytes × List (Bytes × Bytes)),
    (keys.filter fun key => (c.get key).isSome).Nodup →
    (∀ key ∈ keys, (c.get key).isSome → ∀ e ∈ s.2, e.1 ≠ key) →
    keys.foldl (getFromCacheStep c) s = (s.1 ++ keys.filter (fun key => c.get key = none),
      s.2 ++ keys.filterMap fun key => (c.get key).map fun value => (key, cachedData value)) := by
  intro keys
  induction keys with
  | nil => intro s _ _; simp
  | cons key keys ih =>
    intro s hnd hs
    obtain ⟨hfresh, hs⟩ := List.forall_mem_cons.1 hs
    rw [List.foldl_cons]
    cases hget : c.get key with
    | none =>
      have hstep : getFromCacheStep c s key = (s.1 ++ [key], s.2) := by
        unfold getFromCacheStep
        rw [hget]
      rw [List.filter_cons_of_neg (by simp [hget])] at hnd
      rw [hstep, ih (s.1 ++ [key], s.2) hnd hs]
      simp [hget]
    | some value =>
      rw [List.filter_cons_of_pos (by simp [hget])] at hnd
      obtain ⟨hkey, hnd⟩ := List.nodup_cons.1 hnd
      -- a second hit of one key would overwrite the first: the hits are distinct
      have hlookup : s.2.lookup key = none := by
        rw [List.lookup_eq_none_iff]
        intro e he
        simpa using (hfresh (by rw [hget]; rfl) e he).symm
      have hstep : getFromCacheStep c s key = (s.1, s.2 ++ [(key, cachedData value)]) := by
        unfold getFromCacheStep dataMapSet
        simp only [hget]
        rw [if_neg (by rw [hlookup]; simp)]
        rfl
      have hs' : ∀ key' ∈ keys, (c.get key').isSome → ∀ e ∈ s.2 ++ [(key, cachedData value)], e.1 ≠ key' := by
        intro key' hkey' hsome e he
        rcases List.mem_append.1 he with he | he
        · exact hs key' hkey' hsome e he
        · rw [List.mem_singleton.1 he]
          rintro rfl
          exact hkey (List.mem_filter.2 ⟨hkey', hsome⟩)
      rw [hstep, ih (s.1, s.2 ++ [(key, cachedData value)]) hnd hs']
      simp [hget]

theorem foldl_getFromCache_fst (c : Cache) : ∀ (keys : List Bytes) (s : List Bytes × List (Bytes × Bytes)),
    (keys.foldl (getFromCacheStep c) s).1 = s.1 ++ keys.filter fun key => c.get key = none := by
  intro keys
  induction keys with
  | nil => intro s; simp
  | cons key keys ih =>
    intro s
    rw [List.foldl_cons, ih]
    unfold getFromCacheStep
    cases hget : c.get key <;> simp [hget]

/-- The missed keys. -/
theorem lookedUp_fst (i : ℕ) : (lookedUp c i info (generated env req info)).1 = missed env c req info := by
  unfold lookedUp missed hit
  by_cases hu : info.useCache = true
  · simp only [if_pos hu, Option.map_eq_none_iff]
    unfold getFromCache
    exact (foldl_getFromCache_fst c _ _).trans (List.nil_append _)
  · simp [hu]

/-- The recorded hits. -/
theorem lookedUp_snd (i : ℕ) (hnd : HitsDistinct env c req info) :
    (lookedUp c i info (generated env req info)).2.flatMap
        (fun item => item.dataMap.map fun e => (item.fetchInfoPtr, e)) =
      (generated env req info).filterMap fun key => (hit c info key).map fun value => (i, key, value) := by
  unfold HitsDistinct at hnd
  unfold lookedUp hit at *
  by_cases hu : info.useCache = true
  · simp only [if_pos hu, Option.isSome_map] at hnd ⊢
    unfold getFromCache
    rw [foldl_getFromCache c _ ([], []) hnd (by simp)]
    simp only [List.nil_append]
    have hmap : ((generated env req info).filterMap fun key =>
          (c.get key).map fun value => (key, cachedData value)).map (fun e => (i, e)) =
        (generated env req info).filterMap fun key => ((c.get key).map cachedData).map fun value => (i, key, value) := by
      rw [List.map_filterMap]
      simp [Option.map_map, Function.comp_def]
    by_cases hnil : ((generated env req info).filterMap fun key =>
        (c.get key).map fun value => (key, cachedData value)) = []
    · rw [if_pos hnil, ← hmap, hnil]
      rfl
    · rw [if_neg hnil, ← hmap, List.flatMap_singleton]
  · simp [hu]

/-- The generated keys are the cached ones and the missed ones. -/
theorem missed_perm (env : RedisEnv ρ) (c : Cache) (req : ρ) (info : FetchInfo) :
    ((generated env req info).filter (fun key => (hit c info key).isSome) ++ missed env c req info).Perm
      (generated env req info) := by
  have hmissed : missed env c req info = (generated env req info).filter fun key => !(hit c info key).isSome := by
    unfold missed
    refine List.filter_congr fun key _ => ?_
    cases hit c info key <;> rfl
  rw [hmissed]
  exact List.filter_append_perm _ _

/-! ## Regrouping by slot -/

theorem slotsOf_nodup (keys : List Bytes) : (slotsOf env keys).Nodup :=
  (env.slotOrder_perm _).nodup_iff.2 (Numbering.firsts_nodup _)

theorem mem_slotsOf {keys : List Bytes} {key : Bytes} (h : key ∈ keys) : env.slot key ∈ slotsOf env keys :=
  (env.slotOrder_perm _).mem_iff.2 (Numbering.mem_firsts.2 (List.mem_map_of_mem h))

/-- **The keys of all slots** are the keys. -/
theorem slotKeys_perm (keys : List Bytes) : ((slotsOf env keys).flatMap (slotKeys env keys)).Perm keys :=
  flatMap_filter_perm env.slot _ keys (slotsOf_nodup keys) fun _ h => mem_slotsOf h

/-- **Regrouping keeps the keys.** -/
theorem groupBySlot_keys (info : FetchInfo) (keys : List Bytes) :
    ((groupBySlot env info keys).1.keys ++ (groupBySlot env info keys).2.flatMap FetchInfo.keys).Perm keys := by
  unfold groupBySlot
  by_cases hc : env.hasClient info.redisClientId = true
  · rw [if_pos hc]
    have hperm : ((slotsOf env keys).flatMap (slotKeys env keys)).Perm keys := slotKeys_perm keys
    cases hslots : slotsOf env keys with
    | nil => simp
    | cons s rest =>
      rw [hslots, List.flatMap_cons] at hperm
      simp only [List.flatMap_map]
      exact hperm
  · rw [if_neg hc]
    simp

/-! ## All fetch infos -/

/-- The generator of a fetch info is registered, or there is nothing to look up. -/
def Ready (env : RedisEnv ρ) (info : FetchInfo) : Prop := (env.keyFuncMap info.keyGenFunc).isSome ∨ info.keys = []

theorem makeUpFetchInfo_keys (hgen : Ready env info) (i : ℕ) :
    ((makeUpFetchInfo env c req i info).1.keys ++ (makeUpFetchInfo env c req i info).2.1.flatMap FetchInfo.keys).Perm
      (missed env c req info) := by
  cases hf : env.keyFuncMap info.keyGenFunc with
  | some keyFunc =>
    rw [makeUpFetchInfo_eq hf, lookedUp_fst]
    exact groupBySlot_keys info _
  | none =>
    have hk : info.keys = [] := hgen.resolve_left (by rw [hf]; simp)
    have hm : missed env c req info = [] := by
      unfold missed generated
      rw [hf, hk]
      rfl
    rw [makeUpFetchInfo_none hf, hm]
    simp [hk]

/-- What is asked for a fetch info that has the client of another. -/
theorem asked_of_same {a b : FetchInfo} (h : a.Same b) :
    asked env b = asked env { a with keys := b.keys } := by
  unfold asked
  simp only [h.redisClientId]

theorem asked_append (info : FetchInfo) (keys keys' : List Bytes) :
    asked env { info with keys := keys ++ keys' } =
      asked env { info with keys := keys } ++ asked env { info with keys := keys' } := by
  unfold asked
  split <;> simp

theorem asked_flatMap (info : FetchInfo) (xs : List FetchInfo) (h : ∀ x ∈ xs, info.Same x) :
    xs.flatMap (asked env) = asked env { info with keys := xs.flatMap FetchInfo.keys } := by
  induction xs with
  | nil =>
    unfold asked
    simp
  | cons x xs ih =>
    obtain ⟨hx, hxs⟩ := List.forall_mem_cons.1 h
    rw [List.flatMap_cons, List.flatMap_cons, asked_append, ih hxs, asked_of_same hx]

theorem asked_perm (info : FetchInfo) {keys keys' : List Bytes} (h : keys.Perm keys') :
    (asked env { info with keys := keys }).Perm (asked env { info with keys := keys' }) := by
  unfold asked
  split
  · exact h.map _
  · exact .refl _

theorem makeUpFetchInfo_asked (hgen : Ready env info) (i : ℕ) :
    (asked env (makeUpFetchInfo env c req i info).1 ++ (makeUpFetchInfo env c req i info).2.1.flatMap (asked env)).Perm
      (asked env { info with keys := missed env c req info }) := by
  obtain ⟨hfst, hsnd⟩ := @makeUpFetchInfo_same _ env c req i info
  rw [asked_of_same hfst, asked_flatMap info _ hsnd, ← asked_append]
  exact asked_perm info (makeUpFetchInfo_keys hgen i)

theorem makeUpFetchInfo_hits (hgen : Ready env info) (hnd : HitsDistinct env c req info) (i : ℕ) :
    (makeUpFetchInfo env c req i info).2.2.flatMap (fun item => item.dataMap.map fun e => (item.fetchInfoPtr, e)) =
      (generated env req info).filterMap fun key => (hit c info key).map fun value => (i, key, value) := by
  cases hf : env.keyFuncMap info.keyGenFunc with
  | some keyFunc =>
    rw [makeUpFetchInfo_eq hf]
    exact lookedUp_snd i hnd
  | none =>
    have hk : info.keys = [] := hgen.resolve_left (by rw [hf]; simp)
    have hg : generated env req info = [] := by
      unfold generated
      rw [hf, hk]
    rw [makeUpFetchInfo_none hf, hg]
    rfl

variable {infos : List FetchInfo}

/-- **The keys asked for** are the missed ones. -/
theorem madeVec_asked (hgen : ∀ info ∈ infos, Ready env info) :
    ((madeVec env c req infos).flatMap (asked env)).Perm
      (infos.flatMap fun info => asked env { info with keys := missed env c req info }) := by
  unfold madeVec
  rw [List.flatMap_append, List.flatMap_map, List.flatMap_assoc]
  refine (List.flatMap_append_perm _ _ _).trans ?_
  unfold made
  rw [List.flatMap_map]
  have hfst : (infos.flatMap fun info => asked env { info with keys := missed env c req info }) =
      infos.zipIdx.flatMap fun e => asked env { e.1 with keys := missed env c req e.1 } := by
    conv_lhs => rw [← List.zipIdx_map_fst 0 infos, List.flatMap_map]
  rw [hfst]
  refine List.Perm.flatMap_left _ fun e he => ?_
  have hmem : e.1 ∈ infos := List.mem_of_getElem? (List.mem_zipIdx_iff_getElem?.1 he)
  exact makeUpFetchInfo_asked (hgen e.1 hmem) e.2

/-- **The recorded hits.** -/
theorem made_hits (hgen : ∀ info ∈ infos, Ready env info) (hnd : ∀ info ∈ infos, HitsDistinct env c req info) :
    ((made env c req infos).flatMap fun e => e.2.2).flatMap
        (fun item => item.dataMap.map fun e => (item.fetchInfoPtr, e)) =
      infos.zipIdx.flatMap fun e => (generated env req e.1).filterMap fun key =>
        (hit c e.1 key).map fun value => (e.2, key, value) := by
  unfold made
  rw [List.flatMap_map, List.flatMap_assoc]
  refine List.flatMap_congr fun e he => ?_
  have hmem : e.1 ∈ infos := List.mem_of_getElem? (List.mem_zipIdx_iff_getElem?.1 he)
  exact makeUpFetchInfo_hits (hgen e.1 hmem) (hnd e.1 hmem) e.2

end

end Graphize
