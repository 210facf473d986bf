import Graphize.Proof.Topology

/-!
# What change detection covers

`is_channel_pool_changed` compares the fields 0, 1 and from 8 on of the lines kept. A pool
that it takes for unchanged would be built the same from either list of lines.

* `initSlotNodeMap_congr`, `build_congr`: the slots and the channels depend on the address
  and the slots of each node alone.
* `detection_sound`: lines that compare equal are read and built alike; other fields do not
  count.
-/

namespace Graphize

open Table

universe u

variable {Conn : Type u} {env : RedisClientEnv Conn} {unset : ℕ → UInt16} {fuel : ℕ}

/-- The nodes with their indices, reduced to what is read of them. -/
theorem zipIdx_sig {nodes nodes' : List NodeInfo} (h : nodes.map NodeInfo.sig = nodes'.map NodeInfo.sig) :
    nodes.zipIdx.map (Prod.map NodeInfo.sig id) = nodes'.zipIdx.map (Prod.map NodeInfo.sig id) := by
  rw [← List.zipIdx_map, ← List.zipIdx_map, h]

/-- The slots depend on the ranges. -/
theorem initSlotNodeMap_congr {nodes nodes' : List NodeInfo} (h : nodes.map NodeInfo.sig = nodes'.map NodeInfo.sig)
    (vec : List ℤ) : initSlotNodeMap fuel vec nodes = initSlotNodeMap fuel vec nodes' := by
  have hsig : ∀ nodes : List NodeInfo, initSlotNodeMap fuel vec nodes =
      (nodes.zipIdx.map (Prod.map NodeInfo.sig id)).foldlM (fun vec e => fillNode fuel vec e.2 e.1.2.2)
        (resize 16384 (-1) vec) := by
    intro nodes
    rw [List.foldlM_map]
    rfl
  rw [hsig, hsig, zipIdx_sig h]

/-- The address passed for a node whose port was read. -/
theorem address_eq_of_sig {node node' : NodeInfo} (h : node.sig = node'.sig) (hport : node.port.isSome)
    (unset unset' : ℕ → UInt16) (i : ℕ) : RedisClient.address unset node i = RedisClient.address unset' node' i := by
  unfold NodeInfo.sig at h
  rw [Prod.mk.injEq, Prod.mk.injEq] at h
  obtain ⟨hip, hp, -⟩ := h
  obtain ⟨p, hnode⟩ := Option.isSome_iff_exists.1 hport
  unfold RedisClient.address
  rw [← hip, ← hp, hnode]
  rfl

/-- **The channels and the slots** depend on the address and the ranges of each node. -/
theorem build_congr {nodes nodes' : List NodeInfo} (h : nodes.map NodeInfo.sig = nodes'.map NodeInfo.sig)
    (pool : ChannelPool Conn) :
    RedisClient.build fuel env unset nodes pool = RedisClient.build fuel env unset nodes' pool := by
  have hlen : nodes.length = nodes'.length := by
    have := congrArg List.length h
    rwa [List.length_map, List.length_map] at this
  have hbuild : ∀ nodes, RedisClient.build fuel env unset nodes pool =
      (initSlotNodeMap fuel pool.slotIpportIndexVec nodes).map fun vec =>
        nodes.zipIdx.foldlM (fun channels e => RedisClient.initChannel env e.2 (RedisClient.address unset e.1 e.2).1
            (RedisClient.address unset e.1 e.2).2 channels) (resize nodes.length none pool.mChannelList) >>= fun channels =>
          pure { pool with slotIpportIndexVec := vec, mChannelList := channels } := by
    intro nodes
    unfold RedisClient.build
    cases initSlotNodeMap fuel pool.slotIpportIndexVec nodes with
    | none => rfl
    | some vec => rfl
  -- a node enters only through its address and its index
  have hfold : ∀ (nodes : List NodeInfo) (channels : List (Option (HostPool Conn))),
      nodes.zipIdx.foldlM (fun channels e =>
        RedisClient.initChannel env e.2 (RedisClient.address unset e.1 e.2).1 (RedisClient.address unset e.1 e.2).2 channels)
        channels =
      (nodes.zipIdx.map (Prod.map NodeInfo.sig id)).foldlM (fun channels e =>
        RedisClient.initChannel env e.2
          (RedisClient.address unset { ip := e.1.1, port := e.1.2.1 } e.2).1
          (RedisClient.address unset { ip := e.1.1, port := e.1.2.1 } e.2).2 channels) channels := by
    intro nodes channels
    rw [List.foldlM_map]
    rfl
  rw [hbuild, hbuild, initSlotNodeMap_congr h, hlen]
  simp only [hfold, zipIdx_sig h]

/-- What is compared does not cover the fields 2 to 7. -/
theorem fieldsChanged_of_agree {l l' : Str} (h : 8 ≤ (splitCompress ' ' l).length) (h' : 8 ≤ (splitCompress ' ' l').length)
    (hagree : ∀ j, j < 2 ∨ 8 ≤ j → (splitCompress ' ' l)[j]? = (splitCompress ' ' l')[j]?) :
    fieldsChanged l l' = false := by
  have hdrop : (splitCompress ' ' l).drop 8 = (splitCompress ' ' l').drop 8 := by
    -- the slot fields agree one by one, those after the last included
    apply List.ext_getElem?
    intro j
    rw [List.getElem?_drop, List.getElem?_drop]
    exact hagree (8 + j) (Or.inr (Nat.le_add_right 8 j))
  have hlen : (splitCompress ' ' l).length = (splitCompress ' ' l').length := by
    have := congrArg List.length hdrop
    rw [List.length_drop, List.length_drop] at this
    omega
  unfold fieldsChanged
  simp only [decide_eq_false_iff_not, not_or, not_not]
  exact ⟨by omega, by omega, hlen, hagree 0 (Or.inl (by decide)), hagree 1 (Or.inl (by decide)), hdrop⟩

theorem linesChanged_of_agree {ls ls' : List Str} (hlen : ls.length = ls'.length)
    (h : ∀ p ∈ ls.zip ls', fieldsChanged p.1 p.2 = false) : linesChanged ls ls' = false := by
  unfold linesChanged
  simp only [decide_eq_false_iff_not, not_or, not_not, List.any_eq_true, not_exists, not_and, Bool.not_eq_true]
  exact ⟨hlen, h⟩

/-- **Change detection is sound**: lines that compare equal are read as nodes with the same
addresses and ranges, and the pool built from either is the same; and what differs in the
fields 2 to 7 alone is not a change. What an unset port holds is no part of the text: a
port that is read does not depend on it. -/
theorem detection_sound (c : RedisClient Conn) :
    (Kept (c.channelPoolVec 0).validLines → Kept (c.channelPoolVec 1).validLines → c.isChannelPoolChanged = false →
      (nodesOf (c.channelPoolVec 0).validLines).map NodeInfo.sig = (nodesOf (c.channelPoolVec 1).validLines).map NodeInfo.sig ∧
      (∀ fuel vec, initSlotNodeMap fuel vec (nodesOf (c.channelPoolVec 0).validLines) =
        initSlotNodeMap fuel vec (nodesOf (c.channelPoolVec 1).validLines)) ∧
      (∀ (i : ℕ) node node', (nodesOf (c.channelPoolVec 0).validLines)[i]? = some node →
        (nodesOf (c.channelPoolVec 1).validLines)[i]? = some node' → node.port.isSome →
        ∀ unset unset', RedisClient.address unset node i = RedisClient.address unset' node' i) ∧
      (∀ fuel (env : RedisClientEnv Conn) unset pool,
        RedisClient.build fuel env unset (nodesOf (c.channelPoolVec 0).validLines) pool =
          RedisClient.build fuel env unset (nodesOf (c.channelPoolVec 1).validLines) pool)) ∧
    ((c.channelPoolVec 0).validLines.length = (c.channelPoolVec 1).validLines.length →
      (∀ k, ∀ l ∈ (c.channelPoolVec k).validLines, 8 ≤ (splitCompress ' ' l).length) →
      (∀ p ∈ (c.channelPoolVec 0).validLines.zip (c.channelPoolVec 1).validLines, ∀ j, j < 2 ∨ 8 ≤ j →
        (splitCompress ' ' p.1)[j]? = (splitCompress ' ' p.2)[j]?) →
      c.isChannelPoolChanged = false) := by
  constructor
  · intro h h' hc
    have hsig := sig_eq_of_unchanged h h' hc
    refine ⟨hsig, fun _ _ => initSlotNodeMap_congr hsig _, fun i node node' hn hn' hport unset unset' => ?_,
      fun _ _ _ _ => build_congr hsig _⟩
    have hi := congrArg (fun l => l[i]?) hsig
    simp only [List.getElem?_map, hn, hn', Option.map_some, Option.some.injEq] at hi
    exact address_eq_of_sig hi hport unset unset' i
  · intro hlen hfields hagree
    refine linesChanged_of_agree hlen fun p hp => ?_
    have hmem := List.of_mem_zip hp
    exact fieldsChanged_of_agree (hfields 0 _ hmem.1) (hfields 1 _ hmem.2) (hagree p hp)

/-- The master of slot 5, and the same line later: other flags, times and epoch. -/
def slotFive (later : Bool) : Str :=
  if later then "a 1.1.1.1:1 myself,master - 7 8 9 connected 5".toList else "a 1.1.1.1:1 master - 0 0 0 connected 5".toList

theorem splitCompress_slotFive (later : Bool) : splitCompress ' ' (slotFive later) =
    ["a".toList, "1.1.1.1:1".toList, if later then "myself,master".toList else "master".toList, "-".toList,
      if later then "7".toList else "0".toList, if later then "8".toList else "0".toList,
      if later then "9".toList else "0".toList, "connected".toList, "5".toList] := by
  cases later with
  | false => decide
  | true => decide

theorem ofLine_slotFive (later : Bool) : (NodeInfo.ofLine (slotFive later)).isSome := by
  cases later with
  | false => decide
  | true => decide

/-- A client whose pools hold the two lines. -/
def laterPools : RedisClient Unit where
  channelPoolVec k := { validLines := [slotFive (k.val = 1)] }
  poolIndex := ⟨0, Nat.two_pos⟩

theorem laterPools_lines (k : Fin 2) : (laterPools.channelPoolVec k).validLines = [slotFive (k.val = 1)] := rfl

theorem detection_sound_later : laterPools.isChannelPoolChanged = false ∧
    (nodesOf (laterPools.channelPoolVec 0).validLines).map NodeInfo.sig =
      (nodesOf (laterPools.channelPoolVec 1).validLines).map NodeInfo.sig := by
  obtain ⟨hsound, hcomplete⟩ := detection_sound laterPools
  have hkept : ∀ k, Kept (laterPools.channelPoolVec k).validLines := by
    intro k l hl
    rw [laterPools_lines, List.mem_singleton] at hl
    rw [hl]
    exact ofLine_slotFive _
  have hunchanged : laterPools.isChannelPoolChanged = false := by
    apply hcomplete
    · rw [laterPools_lines, laterPools_lines, List.length_singleton, List.length_singleton]
    · intro k l hl
      rw [laterPools_lines, List.mem_singleton] at hl
      rw [hl, splitCompress_slotFive]
      exact Nat.le_add_left 8 1
    · intro p hp j hj
      rw [laterPools_lines, laterPools_lines, List.zip_cons_cons, List.zip_nil_left, List.mem_singleton] at hp
      rw [hp]
      simp only [splitCompress_slotFive]
      match j with
      | 0 => rfl
      | 1 => rfl
      | j + 8 => rfl
  exact ⟨hunchanged, (hsound (hkept 0) (hkept 1) hunchanged).1⟩

end Graphize
