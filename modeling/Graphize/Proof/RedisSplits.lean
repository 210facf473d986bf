import Graphize.Proof.RedisKeys
import Graphize.Proof.RedisRuns
import Graphize.Proof.SlotTable

/-!
# How `make_up_fetch_info_vec` splits the fetch infos

The fetch infos of a request, each with the configured one that it comes from.

* `makeUpFetchInfo_part`: what one fetch info becomes.
* `splitUp_made`: the whole vector: for each configured fetch info, the keys of its parts
  and its cache hits are the keys generated for it.
* `makeUp_splits`: and a batch of keys of one part has one slot and one node.
-/

namespace Graphize

universe u

open Regroup

section

variable {ρ : Type*} {env : RedisEnv ρ} {c : Cache} {req : ρ}

/-- `toStr` keeps numbers apart. -/
theorem toStr_injective : Function.Injective toStr := by
  intro m n h
  unfold toStr at h
  rw [Nat.toList_repr, Nat.toList_repr] at h
  have hback := congrArg (fun s => Nat.ofDigitChars 10 s 0) h
  simpa only [Nat.ofDigitChars_toDigits (show 1 < 10 by decide) (show 10 ≤ 10 by decide)] using hback

/-- The hits recorded for the fetch info at place `i`. -/
def hitKeys (data : List CacheDataItem) (i : ℕ) : List Bytes :=
  (data.filter fun item => item.fetchInfoPtr = i).flatMap fun item => item.dataMap.map Prod.fst

/-- `x` is a copy of `info` with some of `keys`, in their order, and all of one slot if
they are sent. -/
structure FetchInfo.Part (env : RedisEnv ρ) (info : FetchInfo) (keys : List Bytes) (x : FetchInfo) : Prop where
  copies : info.Copies x
  ordered : x.keys.Sublist keys
  oneSlot : env.hasClient info.redisClientId = true → ∀ k ∈ x.keys, ∀ k' ∈ x.keys, env.slot k = env.slot k'

/-- `vec` and the hits in `data` split up what is generated for `infos`: `origins` gives for
each fetch info of `vec` the place of the configured one that it is a part of. -/
structure SplitUp (env : RedisEnv ρ) (req : ρ) (infos vec : List FetchInfo) (data : List CacheDataItem)
    (origins : List ℕ) : Prop where
  length : origins.length = vec.length
  kept : origins.take infos.length = List.range infos.length
  part : ∀ e ∈ vec.zip origins, ∃ info, infos[e.2]? = some info ∧ info.Part env (generated env req info) e.1
  keys : ∀ i info, infos[i]? = some info →
    (((vec.zip origins).filter fun e => e.2 = i).flatMap (fun e => e.1.keys) ++ hitKeys data i).Perm
      (generated env req info)
  hits : ∀ item ∈ data, item.fetchInfoPtr < infos.length
  ids : (vec.map FetchInfo.id).Nodup

/-! ## One fetch info -/

theorem slotKeys_oneSlot {keys : List Bytes} {s : ℕ} {k : Bytes} (h : k ∈ slotKeys env keys s) : env.slot k = s := by
  simpa using (List.mem_filter.1 h).2

theorem groupBySlot_part (info : FetchInfo) (keys : List Bytes) {x : FetchInfo}
    (hx : x ∈ (groupBySlot env info keys).1 :: (groupBySlot env info keys).2) : info.Part env keys x := by
  obtain ⟨hfst, hsnd⟩ := @groupBySlot_copies _ env info keys
  have hcopies : info.Copies x := by
    rcases List.mem_cons.1 hx with rfl | hx
    · exact hfst
    · exact hsnd x hx
  clear hfst hsnd
  unfold groupBySlot at hx
  by_cases hc : env.hasClient info.redisClientId = true
  · rw [if_pos hc] at hx
    cases hslots : slotsOf env keys with
    | nil =>
      -- no slot, so no key
      rw [hslots] at hx
      obtain rfl := List.mem_singleton.1 hx
      have hnone : ∀ k, k ∉ keys := fun k hk => by
        have hmem := @mem_slotsOf _ env _ _ hk
        rw [hslots] at hmem
        exact absurd hmem (by simp)
      exact ⟨hcopies, .refl _, fun _ k hk => absurd hk (hnone k)⟩
    | cons s rest =>
      rw [hslots] at hx
      have hkeys : ∃ s, x.keys = slotKeys env keys s := by
        rcases List.mem_cons.1 hx with rfl | hx
        · exact ⟨s, rfl⟩
        · obtain ⟨s', -, rfl⟩ := List.mem_map.1 hx
          exact ⟨s', rfl⟩
      obtain ⟨s', hs'⟩ := hkeys
      refine ⟨hcopies, ?_, fun _ k hk k' hk' => ?_⟩
      · rw [hs']
        exact List.filter_sublist
      · rw [hs'] at hk hk'
        rw [slotKeys_oneSlot hk, slotKeys_oneSlot hk']
  · rw [if_neg hc] at hx
    obtain rfl := List.mem_singleton.1 hx
    exact ⟨hcopies, .refl _, fun h => absurd h hc⟩

/-- **What a fetch info becomes**: itself and those split off. -/
theorem makeUpFetchInfo_part {info : FetchInfo} (hgen : Ready env info) (i : ℕ) {x : FetchInfo}
    (hx : x ∈ (makeUpFetchInfo env c req i info).1 :: (makeUpFetchInfo env c req i info).2.1) :
    info.Part env (generated env req info) x := by
  cases hf : env.keyFuncMap info.keyGenFunc with
  | some keyFunc =>
    rw [makeUpFetchInfo_eq hf, lookedUp_fst] at hx
    obtain ⟨hcopies, hordered, hslot⟩ := groupBySlot_part info _ hx
    exact ⟨hcopies, hordered.trans List.filter_sublist, hslot⟩
  | none =>
    rw [makeUpFetchInfo_none hf] at hx
    have hk : info.keys = [] := hgen.resolve_left (by rw [hf]; simp)
    rw [List.mem_singleton.1 hx]
    refine ⟨rfl, ?_, fun _ k hk' => ?_⟩
    · rw [hk]
      exact List.nil_sublist _
    · rw [hk] at hk'
      exact absurd hk' (by simp)

/-- The keys of its hits. -/
theorem makeUpFetchInfo_hitKeys {info : FetchInfo} (hgen : Ready env info) (hnd : HitsDistinct env c req info) (i : ℕ) :
    (makeUpFetchInfo env c req i info).2.2.flatMap (fun item => item.dataMap.map Prod.fst) =
      (generated env req info).filter fun key => (hit c info key).isSome := by
  have h := congrArg (List.map fun e : ℕ × Bytes × Bytes => e.2.1) (makeUpFetchInfo_hits hgen hnd i)
  rw [List.map_flatMap] at h
  simp only [List.map_map, Function.comp_def] at h
  have hfst : (fun e : Bytes × Bytes => e.1) = Prod.fst := rfl
  rw [hfst] at h
  rw [h, List.map_filterMap]
  have hkey : (fun key => Option.map (fun e : ℕ × Bytes × Bytes => e.2.1)
      (Option.map (fun value => (i, key, value)) (hit c info key))) =
      fun key => if (hit c info key).isSome then some key else none := by
    funext key
    cases hit c info key <;> rfl
  rw [hkey, ← List.filterMap_eq_filter]
  rfl

/-! ## The vector -/

variable {infos : List FetchInfo}

/-- The fetch infos afterwards, with their old ids, each with the place that it comes from. -/
def tagged (env : RedisEnv ρ) (c : Cache) (req : ρ) (infos : List FetchInfo) : List (FetchInfo × ℕ) :=
  (made env c req infos).zipIdx.map (fun e => (e.1.1, e.2)) ++
    (made env c req infos).zipIdx.flatMap fun e => e.1.2.1.map fun x => (x, e.2)

theorem tagged_fst : (tagged env c req infos).map Prod.fst = madeVec env c req infos := by
  unfold tagged madeVec
  rw [List.map_append, List.map_map, List.map_flatMap]
  simp only [List.map_map, Function.comp_def, List.map_id']
  rw [← List.zipIdx_map_fst 0 (made env c req infos), List.map_map, List.flatMap_map, List.zipIdx_map_fst]
  rfl

theorem mem_tagged {e : FetchInfo × ℕ} (he : e ∈ tagged env c req infos) : ∃ info, infos[e.2]? = some info ∧
    e.1 ∈ (makeUpFetchInfo env c req e.2 info).1 :: (makeUpFetchInfo env c req e.2 info).2.1 := by
  have hplace : ∀ m ∈ (made env c req infos).zipIdx, ∃ info, infos[m.2]? = some info ∧
      m.1 = makeUpFetchInfo env c req m.2 info := by
    intro m hm
    have hget := List.mem_zipIdx_iff_getElem?.1 hm
    rw [made_getElem?] at hget
    obtain ⟨info, hinfo, heq⟩ := Option.map_eq_some_iff.1 hget
    exact ⟨info, hinfo, heq.symm⟩
  unfold tagged at he
  rcases List.mem_append.1 he with he | he
  · obtain ⟨m, hm, rfl⟩ := List.mem_map.1 he
    obtain ⟨info, hinfo, heq⟩ := hplace m hm
    exact ⟨info, hinfo, by rw [← heq]; exact List.mem_cons_self⟩
  · obtain ⟨m, hm, he⟩ := List.mem_flatMap.1 he
    obtain ⟨x, hx, rfl⟩ := List.mem_map.1 he
    obtain ⟨info, hinfo, heq⟩ := hplace m hm
    exact ⟨info, hinfo, by rw [← heq]; exact List.mem_cons_of_mem _ hx⟩

/-- The keys of the parts of one fetch info. -/
theorem tagged_keys {i : ℕ} {info : FetchInfo} (hi : infos[i]? = some info) :
    ((tagged env c req infos).filter fun e => e.2 = i).flatMap (fun e => e.1.keys) =
      (makeUpFetchInfo env c req i info).1.keys ++ (makeUpFetchInfo env c req i info).2.1.flatMap FetchInfo.keys := by
  have hmade : (made env c req infos)[i]? = some (makeUpFetchInfo env c req i info) := by
    rw [made_getElem?, hi]
    rfl
  have hat : ∀ {β : Type} (f : FetchInfo × List FetchInfo × List CacheDataItem → List β),
      ((made env c req infos).zipIdx.filter fun e => e.2 = i).flatMap (fun e => f e.1) =
        f (makeUpFetchInfo env c req i info) := fun f => by
    have h := flatMap_zipIdx_at f _ 0 i hmade
    rwa [Nat.zero_add] at h
  unfold tagged
  rw [List.filter_append, List.flatMap_append, List.filter_map, List.flatMap_map]
  have hsplit : ((made env c req infos).zipIdx.flatMap fun e => e.1.2.1.map fun x => (x, e.2)).filter (fun e => e.2 = i) =
      ((made env c req infos).zipIdx.filter fun e => e.2 = i).flatMap fun e => e.1.2.1.map fun x => (x, e.2) := by
    refine filter_flatMap_of _ _ _ _ fun m _ t ht => ?_
    obtain ⟨x, -, rfl⟩ := List.mem_map.1 ht
    rfl
  rw [hsplit, List.flatMap_assoc]
  simp only [List.flatMap_map]
  exact congrArg₂ (· ++ ·) (hat fun m => m.1.keys) (hat fun m => m.2.1.flatMap FetchInfo.keys)

/-- The hits of one fetch info. -/
theorem made_hitKeys {i : ℕ} {info : FetchInfo} (hi : infos[i]? = some info) :
    hitKeys ((made env c req infos).flatMap fun e => e.2.2) i =
      (makeUpFetchInfo env c req i info).2.2.flatMap fun item => item.dataMap.map Prod.fst := by
  have hmade : (made env c req infos)[i]? = some (makeUpFetchInfo env c req i info) := by
    rw [made_getElem?, hi]
    rfl
  have hat := flatMap_zipIdx_at (fun m : FetchInfo × List FetchInfo × List CacheDataItem =>
    m.2.2.flatMap fun item => item.dataMap.map Prod.fst) _ 0 i hmade
  rw [Nat.zero_add] at hat
  rw [← hat]
  unfold hitKeys
  have hzip : (made env c req infos).flatMap (fun e => e.2.2) =
      (made env c req infos).zipIdx.flatMap fun e => e.1.2.2 := by
    conv_lhs => rw [← List.zipIdx_map_fst 0 (made env c req infos), List.flatMap_map]
  -- every hit names the place of its fetch info
  have hptr : ∀ m ∈ (made env c req infos).zipIdx, ∀ item ∈ m.1.2.2, item.fetchInfoPtr = m.2 := by
    intro m hm item hitem
    have hget := List.mem_zipIdx_iff_getElem?.1 hm
    rw [made_getElem?] at hget
    obtain ⟨info', -, heq⟩ := Option.map_eq_some_iff.1 hget
    rw [← heq] at hitem
    exact (makeUpFetchInfo_data hitem).1
  rw [hzip, filter_flatMap_of (fun m => decide (m.2 = i)) _ _ _ fun m hm item hitem => by rw [hptr m hm item hitem],
    List.flatMap_assoc]

section Places

variable {vec : List FetchInfo}

/-- The fetch info at one place, before its id. -/
theorem tagged_of_getElem? (hvec : vec = (madeVec env c req infos).zipIdx.map fun e => { e.1 with id := toStr e.2 })
    {j : ℕ} {x : FetchInfo} (hx : vec[j]? = some x) :
    ∃ e : FetchInfo × ℕ, (tagged env c req infos)[j]? = some e ∧ x = { e.1 with id := toStr j } := by
  rw [hvec, List.getElem?_map, List.getElem?_zipIdx, ← tagged_fst, List.getElem?_map] at hx
  cases he : (tagged env c req infos)[j]? with
  | none =>
    rw [he] at hx
    exact absurd hx (by simp)
  | some e =>
    rw [he] at hx
    simp only [Option.map_some, Option.some.injEq, Nat.zero_add] at hx
    exact ⟨e, rfl, hx.symm⟩

/-- Ids do not matter for the keys. -/
theorem tagged_parts (hvec : vec = (madeVec env c req infos).zipIdx.map fun e => { e.1 with id := toStr e.2 }) (i : ℕ) :
    ((vec.zip ((tagged env c req infos).map Prod.snd)).filter fun e => e.2 = i).flatMap (fun e => e.1.keys) =
      ((tagged env c req infos).filter fun e => e.2 = i).flatMap fun e => e.1.keys := by
  have hveckeys : vec.map FetchInfo.keys = (tagged env c req infos).map fun e => e.1.keys :=
    calc vec.map FetchInfo.keys = (madeVec env c req infos).zipIdx.map fun e => e.1.keys := by
          rw [hvec, List.map_map]
          rfl
      _ = ((madeVec env c req infos).zipIdx.map Prod.fst).map FetchInfo.keys := by
          rw [List.map_map]
          rfl
      _ = (tagged env c req infos).map fun e => e.1.keys := by
          rw [List.zipIdx_map_fst, ← tagged_fst, List.map_map]
          rfl
  have hkeys : (vec.zip ((tagged env c req infos).map Prod.snd)).map (Prod.map FetchInfo.keys id) =
      (tagged env c req infos).map fun e => (e.1.keys, e.2) := by
    rw [← List.zip_map, List.map_id, hveckeys, List.zip_map']
  have hboth := congrArg (fun l : List (List Bytes × ℕ) => (l.filter fun e => e.2 = i).flatMap Prod.fst) hkeys
  simp only [List.filter_map, List.flatMap_map] at hboth
  exact hboth

/-- The ids are the places. -/
theorem madeVec_ids (hvec : vec = (madeVec env c req infos).zipIdx.map fun e => { e.1 with id := toStr e.2 }) :
    vec.map FetchInfo.id = (List.range vec.length).map toStr := by
  have hcount : vec.length = (madeVec env c req infos).length := by rw [hvec]; simp
  calc vec.map FetchInfo.id = (madeVec env c req infos).zipIdx.map fun e => toStr e.2 := by
        rw [hvec, List.map_map]
        rfl
    _ = ((madeVec env c req infos).zipIdx.map Prod.snd).map toStr := by
        rw [List.map_map]
        rfl
    _ = (List.range vec.length).map toStr := by rw [List.zipIdx_map_snd, hcount, List.range_eq_range']

end Places

/-- **The whole vector.** -/
theorem splitUp_made (hgen : ∀ info ∈ infos, Ready env info) (hnd : ∀ info ∈ infos, HitsDistinct env c req info)
    {vec : List FetchInfo} {data : List CacheDataItem} (h : makeUpFetchInfoVec env c req infos = (vec, data)) :
    SplitUp env req infos vec data ((tagged env c req infos).map Prod.snd) := by
  obtain ⟨hvec, hdata⟩ := makeUp_parts h
  have hlen : (tagged env c req infos).length = (madeVec env c req infos).length := by
    rw [← tagged_fst, List.length_map]
  have hcount : vec.length = (madeVec env c req infos).length := by rw [hvec]; simp
  refine ⟨by rw [List.length_map, hlen, hcount], ?_, fun e he => ?_, fun i info hi => ?_, fun item hitem => ?_, ?_⟩
  · -- the configured fetch infos come first
    have hmade : (made env c req infos).length = infos.length := by
      unfold made
      rw [List.length_map, List.length_zipIdx]
    unfold tagged
    rw [List.map_append, List.take_left' (by simp [hmade]), List.map_map]
    exact (List.zipIdx_map_snd 0 _).trans (by rw [hmade, List.range_eq_range'])
  · obtain ⟨j, hj⟩ := List.mem_iff_getElem?.1 he
    obtain ⟨hx, ho⟩ := List.getElem?_zip_eq_some.1 hj
    obtain ⟨t, ht, hcopy⟩ := tagged_of_getElem? hvec hx
    rw [List.getElem?_map, ht, Option.map_some, Option.some.injEq] at ho
    obtain ⟨info, hinfo, hmem⟩ := mem_tagged (List.mem_of_getElem? ht)
    obtain ⟨hcopies, hordered, hslot⟩ := makeUpFetchInfo_part (hgen info (List.mem_of_getElem? hinfo)) t.2 hmem
    refine ⟨info, by rw [← ho]; exact hinfo, ?_⟩
    rw [hcopy]
    refine ⟨?_, hordered, hslot⟩
    unfold FetchInfo.Copies at hcopies ⊢
    rw [hcopies]
  · have hinfo := List.mem_of_getElem? hi
    rw [tagged_parts hvec, tagged_keys hi, hdata, made_hitKeys hi, makeUpFetchInfo_hitKeys (hgen info hinfo) (hnd info hinfo)]
    exact ((makeUpFetchInfo_keys (hgen info hinfo) i).append_right _).trans
      (List.perm_append_comm.trans (missed_perm env c req info))
  · rw [hdata] at hitem
    obtain ⟨m, hm, hitem⟩ := List.mem_flatMap.1 hitem
    obtain ⟨i, info, hi, rfl⟩ := mem_made hm
    rw [(makeUpFetchInfo_data hitem).1]
    exact (List.getElem?_eq_some_iff.1 hi).1
  · rw [madeVec_ids hvec]
    exact List.nodup_range.map toStr_injective

/-- **The recorded hits** are the generated keys that the cache holds, if it is asked. -/
theorem hitKeys_made (hgen : ∀ info ∈ infos, Ready env info) (hnd : ∀ info ∈ infos, HitsDistinct env c req info)
    {vec : List FetchInfo} {data : List CacheDataItem} (h : makeUpFetchInfoVec env c req infos = (vec, data)) {i : ℕ}
    {info : FetchInfo} (hi : infos[i]? = some info) :
    hitKeys data i = (generated env req info).filter fun key => info.useCache && (c.get key).isSome := by
  have hinfo := List.mem_of_getElem? hi
  rw [(makeUp_parts h).2, made_hitKeys hi, makeUpFetchInfo_hitKeys (hgen info hinfo) (hnd info hinfo)]
  refine List.filter_congr fun key _ => ?_
  unfold hit
  cases info.useCache with
  | true => simp
  | false => rfl

/-- All keys of a part that is sent have one slot. -/
theorem SplitUp.oneSlot {vec : List FetchInfo} {data : List CacheDataItem} {origins : List ℕ}
    (h : SplitUp env req infos vec data origins) {x : FetchInfo} (hx : x ∈ vec)
    (hc : env.hasClient x.redisClientId = true) {k k' : Bytes} (hk : k ∈ x.keys) (hk' : k' ∈ x.keys) :
    env.slot k = env.slot k' := by
  obtain ⟨j, hj⟩ := List.mem_iff_getElem?.1 hx
  have hlt : j < origins.length := by
    rw [h.length]
    exact (List.getElem?_eq_some_iff.1 hj).1
  have hzip : (vec.zip origins)[j]? = some (x, origins[j]) :=
    List.getElem?_zip_eq_some.2 ⟨hj, List.getElem?_eq_getElem hlt⟩
  obtain ⟨info, -, hpart⟩ := h.part _ (List.mem_of_getElem? hzip)
  refine hpart.oneSlot ?_ k hk k' hk'
  rw [← hpart.copies.same.redisClientId]
  exact hc

/-- **Every generated key once, in batches of one slot.** From fetch infos without keys, and
generators that make distinct ones. -/
theorem makeUp_splits {Conn : Type u} (env : RedisEnv ρ) (c : Cache) (req : ρ) {infos vec : List FetchInfo}
    {data : List CacheDataItem} (hfresh : ∀ info ∈ infos, info.keys = [])
    (hdistinct : ∀ info ∈ infos, (generated env req info).Nodup)
    (h : makeUpFetchInfoVec env c req infos = (vec, data)) :
    (∃ origins, SplitUp env req infos vec data origins) ∧
      (∀ i info, infos[i]? = some info →
        hitKeys data i = (generated env req info).filter fun key => info.useCache && (c.get key).isSome) ∧
      ∀ x ∈ vec, env.hasClient x.redisClientId = true → ∀ s e, ∀ k ∈ RedisClient.multiFetchKeys x.keys s e,
        ∃ first, x.keys[s]? = some first ∧ env.slot k = env.slot first ∧
          ((∀ key, env.slot key = (getKeySlot key).toNat) → ∀ client : RedisClient Conn,
            client.getCurChannelPool.getKeyNodeIndex k = client.getCurChannelPool.getKeyNodeIndex first ∧
              client.multiFetchHost x.keys s = client.fetchHost k) := by
  have hgen : ∀ info ∈ infos, Ready env info := fun info hinfo => Or.inr (hfresh info hinfo)
  have hhits : ∀ info ∈ infos, HitsDistinct env c req info := fun info hinfo => (hdistinct info hinfo).filter _
  have hsplit := splitUp_made hgen hhits h
  refine ⟨⟨_, hsplit⟩, fun i info hi => hitKeys_made hgen hhits h hi, fun x hx hc s e k hk => ?_⟩
  obtain ⟨first, hget, hfirst⟩ := head_multiFetchKeys hk
  have hkeys : ∀ k ∈ RedisClient.multiFetchKeys x.keys s e, k ∈ x.keys := fun k hk =>
    List.mem_of_mem_take (List.mem_of_mem_drop hk)
  have hslot : ∀ k ∈ RedisClient.multiFetchKeys x.keys s e, ∀ k' ∈ RedisClient.multiFetchKeys x.keys s e,
      env.slot k = env.slot k' := fun k hk k' hk' => hsplit.oneSlot hx hc (hkeys k hk) (hkeys k' hk')
  refine ⟨first, hget, hslot k hk first hfirst, fun hcrc client => ?_⟩
  have hsame : ∀ k' ∈ RedisClient.multiFetchKeys x.keys s e, getKeySlot k' = getKeySlot k := fun k' hk' => by
    have heq := hslot k' hk' k hk
    rw [hcrc, hcrc] at heq
    exact UInt32.toNat_inj.1 heq
  exact ⟨getKeyNodeIndex_congr _ (hsame first hfirst).symm, multiFetchHost_eq hk hsame⟩

/-- The slots of redis. -/
def crcEnv : RedisEnv Unit := { sampleEnv with slot := fun key => (getKeySlot key).toNat }

/-- Two keys of two slots; the first fetch info finds one of them in the cache, the second does
not ask. -/
theorem makeUp_splits_two : ∃ vec data,
    makeUpFetchInfoVec crcEnv sampleNode.cache () [sampleInfo, { sampleInfo with useCache := false }] = (vec, data) ∧
      vec.map FetchInfo.keys = [[[9]], [[97]], [[9]]] ∧ hitKeys data 0 = [[97]] ∧ hitKeys data 1 = [] ∧
      ∃ origins, SplitUp crcEnv () [sampleInfo, { sampleInfo with useCache := false }] vec data origins := by
  have hkeys : (makeUpFetchInfoVec crcEnv sampleNode.cache ()
      [sampleInfo, { sampleInfo with useCache := false }]).1.map FetchInfo.keys = [[[9]], [[97]], [[9]]] := by
    decide
  obtain ⟨hsplit, hhits, -⟩ := @makeUp_splits _ Unit crcEnv sampleNode.cache ()
    [sampleInfo, { sampleInfo with useCache := false }] _ _ (by decide) (by decide) rfl
  refine ⟨_, _, rfl, hkeys, (hhits 0 _ rfl).trans ?_, (hhits 1 _ rfl).trans ?_, hsplit⟩
  · decide
  · decide

end

end Graphize
