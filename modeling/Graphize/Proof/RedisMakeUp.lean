import Graphize.Spec.Redis

/-!
# `make_up_fetch_info_vec`

What becomes of the fetch infos of a node at the start of a request: the ones it had
stay in place with other keys, the ones split off by slot follow, and every recorded
cache hit belongs to a fetch info that uses the cache.
-/

namespace Graphize

section

variable {ρ : Type*} {env : RedisEnv ρ} {c : Cache} {req : ρ}

/-- `b` is `a` but for its keys and its id. -/
structure FetchInfo.Same (a b : FetchInfo) : Prop where
  keyGenFunc : b.keyGenFunc = a.keyGenFunc
  keyPrefix : b.keyPrefix = a.keyPrefix
  keyPostfix : b.keyPostfix = a.keyPostfix
  compress : b.compress = a.compress
  redisClientId : b.redisClientId = a.redisClientId
  useCache : b.useCache = a.useCache
  expireTime : b.expireTime = a.expireTime

theorem FetchInfo.same_refl (a : FetchInfo) : a.Same a := ⟨rfl, rfl, rfl, rfl, rfl, rfl, rfl⟩

/-- `b` has all settings of `a`, those that are never read included. -/
def FetchInfo.Copies (a b : FetchInfo) : Prop := b = { a with keys := b.keys, id := b.id }

theorem FetchInfo.Copies.same {a b : FetchInfo} (h : a.Copies b) : a.Same b := by
  unfold Copies at h
  rw [h]
  exact ⟨rfl, rfl, rfl, rfl, rfl, rfl, rfl⟩

/-! ## Grouping by slot -/

theorem slotsOf_nil : slotsOf env [] = [] := (env.slotOrder_perm _).eq_nil

theorem groupBySlot_nil (info : FetchInfo) : groupBySlot env info [] = ({ info with keys := [] }, []) := by
  unfold groupBySlot
  rw [slotsOf_nil]
  split <;> rfl

theorem groupBySlot_copies (info : FetchInfo) (keys : List Bytes) :
    info.Copies (groupBySlot env info keys).1 ∧ ∀ x ∈ (groupBySlot env info keys).2, info.Copies x := by
  unfold groupBySlot
  split
  · split
    · exact ⟨rfl, by simp⟩
    · refine ⟨rfl, fun x hx => ?_⟩
      obtain ⟨s, -, rfl⟩ := List.mem_map.1 hx
      rfl
  · exact ⟨rfl, by simp⟩

/-! ## One fetch info -/

/-- The keys that the generator of a fetch info makes. -/
def generated (env : RedisEnv ρ) (req : ρ) (info : FetchInfo) : List Bytes :=
  match env.keyFuncMap info.keyGenFunc with
  | none => info.keys
  | some keyFunc => keyFunc req info.keys info.keyPrefix info.keyPostfix

/-- The missed keys among `keys` and the recorded hits. -/
def lookedUp (c : Cache) (i : ℕ) (info : FetchInfo) (keys : List Bytes) : List Bytes × List CacheDataItem :=
  if info.useCache then getFromCache c keys i else (keys, [])

/-- **What the loop makes of a fetch info whose generator is registered.** -/
theorem makeUpFetchInfo_eq {info : FetchInfo} {keyFunc} (h : env.keyFuncMap info.keyGenFunc = some keyFunc) (i : ℕ) :
    makeUpFetchInfo env c req i info =
      ((groupBySlot env info (lookedUp c i info (generated env req info)).1).1,
        (groupBySlot env info (lookedUp c i info (generated env req info)).1).2,
        (lookedUp c i info (generated env req info)).2) := by
  unfold makeUpFetchInfo generated
  simp only [h]
  by_cases hk : keyFunc req info.keys info.keyPrefix info.keyPostfix = []
  · rw [hk, if_pos rfl]
    have hl : lookedUp c i info [] = ([], []) := by unfold lookedUp; split <;> rfl
    rw [hl, groupBySlot_nil]
  · rw [if_neg hk]
    have hl : (if info.useCache = true then getFromCache c (keyFunc req info.keys info.keyPrefix info.keyPostfix) i
        else (keyFunc req info.keys info.keyPrefix info.keyPostfix, [])) =
        lookedUp c i info (keyFunc req info.keys info.keyPrefix info.keyPostfix) := rfl
    rw [hl]
    rcases lookedUp c i info (keyFunc req info.keys info.keyPrefix info.keyPostfix) with ⟨keys, data⟩
    by_cases hm : keys = []
    · subst hm
      simp only [if_pos]
      rw [groupBySlot_nil]
    · simp only [if_neg hm]

theorem makeUpFetchInfo_none {info : FetchInfo} (h : env.keyFuncMap info.keyGenFunc = none) (i : ℕ) :
    makeUpFetchInfo env c req i info = (info, [], []) := by
  unfold makeUpFetchInfo
  rw [h]

theorem makeUpFetchInfo_copies (i : ℕ) (info : FetchInfo) : info.Copies (makeUpFetchInfo env c req i info).1 ∧
    ∀ x ∈ (makeUpFetchInfo env c req i info).2.1, info.Copies x := by
  cases h : env.keyFuncMap info.keyGenFunc with
  | none => rw [makeUpFetchInfo_none h]; exact ⟨rfl, by simp⟩
  | some keyFunc => rw [makeUpFetchInfo_eq h]; exact groupBySlot_copies info _

theorem makeUpFetchInfo_same (i : ℕ) (info : FetchInfo) : info.Same (makeUpFetchInfo env c req i info).1 ∧
    ∀ x ∈ (makeUpFetchInfo env c req i info).2.1, info.Same x :=
  ⟨(makeUpFetchInfo_copies i info).1.same, fun x hx => ((makeUpFetchInfo_copies i info).2 x hx).same⟩

/-- A cache hit is recorded for its fetch info, which uses the cache. -/
theorem makeUpFetchInfo_data {i : ℕ} {info : FetchInfo} {item : CacheDataItem}
    (h : item ∈ (makeUpFetchInfo env c req i info).2.2) : item.fetchInfoPtr = i ∧ info.useCache = true := by
  cases hf : env.keyFuncMap info.keyGenFunc with
  | none => rw [makeUpFetchInfo_none hf] at h; simp at h
  | some keyFunc =>
    rw [makeUpFetchInfo_eq hf] at h
    unfold lookedUp getFromCache at h
    split at h
    · rename_i hu
      refine ⟨?_, hu⟩
      simp only at h
      split at h
      · simp at h
      · rw [List.mem_singleton.1 h]
    · simp at h

/-! ## All fetch infos -/

/-- What the first loop makes of every fetch info. -/
def made (env : RedisEnv ρ) (c : Cache) (req : ρ) (infos : List FetchInfo) :
    List (FetchInfo × List FetchInfo × List CacheDataItem) :=
  infos.zipIdx.map fun e => makeUpFetchInfo env c req e.2 e.1

theorem made_getElem? (infos : List FetchInfo) (i : ℕ) :
    (made env c req infos)[i]? = infos[i]?.map (makeUpFetchInfo env c req i) := by
  unfold made
  rw [List.getElem?_map, List.getElem?_zipIdx]
  cases infos[i]? with
  | none => rfl
  | some info => simp

theorem mem_made {infos : List FetchInfo} {x : FetchInfo × List FetchInfo × List CacheDataItem}
    (h : x ∈ made env c req infos) : ∃ i info, infos[i]? = some info ∧ x = makeUpFetchInfo env c req i info := by
  obtain ⟨e, he, rfl⟩ := List.mem_map.1 h
  exact ⟨e.2, e.1, List.mem_zipIdx_iff_getElem?.1 he, rfl⟩

/-- The fetch infos afterwards, with their old ids. -/
def madeVec (env : RedisEnv ρ) (c : Cache) (req : ρ) (infos : List FetchInfo) : List FetchInfo :=
  (made env c req infos).map (fun e => e.1) ++ (made env c req infos).flatMap fun e => e.2.1

theorem makeUpFetchInfoVec_eq (infos : List FetchInfo) : makeUpFetchInfoVec env c req infos =
    ((madeVec env c req infos).zipIdx.map fun e => { e.1 with id := toStr e.2 },
      (made env c req infos).flatMap fun e => e.2.2) := rfl

/-- The two results of `make_up_fetch_info_vec`. -/
theorem makeUp_parts {infos vec : List FetchInfo} {data : List CacheDataItem}
    (h : makeUpFetchInfoVec env c req infos = (vec, data)) :
    vec = (madeVec env c req infos).zipIdx.map (fun e => { e.1 with id := toStr e.2 }) ∧
      data = (made env c req infos).flatMap fun e => e.2.2 := by
  rw [makeUpFetchInfoVec_eq, Prod.mk.injEq] at h
  exact ⟨h.1.symm, h.2.symm⟩

/-- A configured fetch info keeps its place. -/
theorem makeUp_getElem? {infos vec : List FetchInfo} {data : List CacheDataItem}
    (h : makeUpFetchInfoVec env c req infos = (vec, data)) {i : ℕ} {info : FetchInfo} (hi : infos[i]? = some info) :
    ∃ info', vec[i]? = some info' ∧ info.Same info' ∧ info'.keys = (makeUpFetchInfo env c req i info).1.keys := by
  obtain ⟨rfl, -⟩ := makeUp_parts h
  have hm : (madeVec env c req infos)[i]? = some (makeUpFetchInfo env c req i info).1 := by
    unfold madeVec
    have hlt : i < ((made env c req infos).map fun e => e.1).length := by
      rw [List.length_map]
      unfold made
      rw [List.length_map, List.length_zipIdx]
      exact (List.getElem?_eq_some_iff.1 hi).1
    rw [List.getElem?_append_left hlt, List.getElem?_map, made_getElem?, hi]
    rfl
  refine ⟨{ (makeUpFetchInfo env c req i info).1 with id := toStr i }, ?_, ?_, rfl⟩
  · rw [List.getElem?_map, List.getElem?_zipIdx, hm]
    simp
  · have hsame : info.Same (makeUpFetchInfo env c req i info).1 := (makeUpFetchInfo_same i info).1
    exact { hsame with }

/-- **Every recorded cache hit belongs to a fetch info that uses the cache.** -/
theorem makeUp_data {infos vec : List FetchInfo} {data : List CacheDataItem}
    (h : makeUpFetchInfoVec env c req infos = (vec, data)) {item : CacheDataItem} (hi : item ∈ data) :
    ∃ info, vec[item.fetchInfoPtr]? = some info ∧ info.useCache = true := by
  obtain ⟨-, hdata⟩ := makeUp_parts h
  rw [hdata] at hi
  obtain ⟨x, hx, hmem⟩ := List.mem_flatMap.1 hi
  obtain ⟨i, info, hinfo, rfl⟩ := mem_made hx
  obtain ⟨hptr, huse⟩ := makeUpFetchInfo_data hmem
  obtain ⟨info', hvec, hsame, -⟩ := makeUp_getElem? h hinfo
  exact ⟨info', by rw [hptr]; exact hvec, hsame.useCache.trans huse⟩

end

end Graphize
