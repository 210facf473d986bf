import Graphize.Proof.FreshPool

/-!
# Null entries of the channel list

`init_channel_pool` makes room for every node before it calls `InitChannel`, which makes
nothing of an address without a host. The slots of such a node, and with the first node
those of nobody, lead to a null pointer.

* `lastIdx_lines`: the node of a slot, by the lines of the reply.
* `reaches_pool_iff`: a key reaches the pool of its node exactly when the line that owns
  its slot has an address.
-/

namespace Graphize

open Table

universe u

variable {Conn : Type u} {env : RedisClientEnv Conn} {unset : ℕ → UInt16} {fuel : ℕ} {data : Str}

/-- A slot field of the line claims the slot `k`. -/
def lineClaims (k : ℕ) (line : Str) : Bool :=
  ((splitCompress ' ' line).drop 8).any fun t => (tokenEnds t).1 % 2 ^ 32 ≤ k ∧ k ≤ (tokenEnds t).2 % 2 ^ 32

/-- The place of the kept line that a key goes to: the last one that claims its slot, or the first. -/
def ownerLine (data : Str) (key : Bytes) : ℕ := (lastIdx (lineClaims (getKeySlot key).toNat) 0 0 (keptLines data)).toNat

/-- The address field gives a host: it has one before a colon, or a port after it for which
the local host is taken. Without a colon the port is what it happens to be. -/
def Addressed (unset : ℕ → UInt16) (i : ℕ) (line : Str) : Prop :=
  ∃ addr, (splitCompress ' ' line)[1]? = some addr ∧
    if ':' ∈ addr then
      addr.takeWhile (fun c => c ≠ ':') ≠ [] ∨ UInt16.ofInt (atoi ((addr.dropWhile fun c => c ≠ ':').drop 1)) > 0
    else unset i > 0

/-! ## Nodes and lines -/

theorem getElem?_nodesOf : ∀ {lines : List Str}, Kept lines → ∀ i : ℕ, (nodesOf lines)[i]? = lines[i]?.bind NodeInfo.ofLine := by
  intro lines
  induction lines with
  | nil => intro _ i; simp [nodesOf]
  | cons l lines ih =>
    intro h i
    obtain ⟨hl, hls⟩ := List.forall_mem_cons.1 h
    obtain ⟨node, hnode⟩ := Option.isSome_iff_exists.1 hl
    have htail := ih hls
    rw [nodesOf_cons hnode]
    cases i with
    | zero => rw [List.getElem?_cons_zero, List.getElem?_cons_zero, Option.bind_some, hnode]
    | succ i => rw [List.getElem?_cons_succ, List.getElem?_cons_succ, htail]

/-- The slots of a node are those that its line claims. -/
theorem covers_ofLine {line : Str} {node : NodeInfo} (h : NodeInfo.ofLine line = some node) (k : ℕ) :
    covers node.mSlots k = lineClaims k line := by
  unfold covers lineClaims
  rw [mSlots_ofLine h, mSlots_ends, List.any_map, Bool.eq_iff_iff, List.any_eq_true, List.any_eq_true]
  refine exists_congr fun t => and_congr_right fun _ => ?_
  have h1 := toNat_ofInt (tokenEnds t).1
  have h2 := toNat_ofInt (tokenEnds t).2
  rw [Function.comp_apply, decide_eq_true_eq, decide_eq_true_eq]
  simp only
  omega

/-- **The node of a slot**, by the lines. -/
theorem lastIdx_lines (k : ℕ) : ∀ {lines : List Str}, Kept lines → ∀ (z : ℤ) (n : ℕ),
    lastIdx (fun node => covers node.mSlots k) z n (nodesOf lines) = lastIdx (lineClaims k) z n lines := by
  intro lines
  induction lines with
  | nil => intro _ z n; rfl
  | cons l lines ih =>
    intro h z n
    obtain ⟨hl, hls⟩ := List.forall_mem_cons.1 h
    obtain ⟨node, hnode⟩ := Option.isSome_iff_exists.1 hl
    rw [nodesOf_cons hnode]
    unfold lastIdx
    rw [covers_ofLine hnode, ih hls]

/-- `InitChannel` refuses exactly the nodes of lines without an address. -/
theorem address_ne_nil_iff {line : Str} {node : NodeInfo} (h : NodeInfo.ofLine line = some node) (i : ℕ) :
    (RedisClient.address unset node i).1 ≠ [] ↔ Addressed unset i line := by
  obtain ⟨-, -, addr, haddr, hsig⟩ := sig_ofLine h
  unfold NodeInfo.sig at hsig
  rw [Prod.mk.injEq, Prod.mk.injEq] at hsig
  obtain ⟨hip, hport, -⟩ := hsig
  have hlocal : "127.0.0.1".toList ≠ [] := by decide
  have haddressed : Addressed unset i line ↔ if ':' ∈ addr then
      addr.takeWhile (fun c => c ≠ ':') ≠ [] ∨ UInt16.ofInt (atoi ((addr.dropWhile fun c => c ≠ ':').drop 1)) > 0
      else unset i > 0 := by
    constructor
    · rintro ⟨a, ha, hcond⟩
      rw [haddr, Option.some.injEq] at ha
      rwa [ha]
    · intro hcond
      exact ⟨addr, haddr, hcond⟩
  rw [haddressed]
  unfold RedisClient.address
  rw [hip, hport]
  unfold NodeInfo.parseNodeString
  -- without a colon the port is never assigned, and only what it holds decides
  by_cases hcolon : ':' ∈ addr
  · rw [if_pos hcolon, if_pos hcolon]
    simp only [Option.getD_some]
    by_cases hnil : addr.takeWhile (fun c => c ≠ ':') = []
    · by_cases hpos : UInt16.ofInt (atoi ((addr.dropWhile fun c => c ≠ ':').drop 1)) > 0
      · rw [if_pos ⟨hnil, hpos⟩]
        exact iff_of_true hlocal (Or.inr hpos)
      · rw [if_neg fun h => hpos h.2]
        exact iff_of_false (fun h => h hnil) fun h => h.elim (fun h => h hnil) hpos
    · rw [if_neg fun h => hnil h.1]
      exact iff_of_true hnil (Or.inl hnil)
  · rw [if_neg hcolon, if_neg hcolon]
    simp only [Option.getD_none, true_and]
    by_cases hpos : unset i > 0
    · rw [if_pos hpos]
      exact iff_of_true hlocal hpos
    · rw [if_neg hpos]
      exact iff_of_false (fun h => h rfl) hpos

/-! ## Reaching a pool -/

/-- `GetConnection` at this index does not dereference a null pointer; and what it finds
there, if anything, is the pool built for the node of that index. -/
structure ReachesPool (env : RedisClientEnv Conn) (unset : ℕ → UInt16) (nodes : List NodeInfo) (pool : ChannelPool Conn)
    (idx : ℕ) : Prop where
  deref : (pool.getConnection idx).isSome
  built : ∀ e, pool.mChannelList[idx]? = some e → ∃ node, nodes[idx]? = some node ∧ ∃ hp : HostPool Conn, e = some hp ∧
    hp.ipPort = (RedisClient.address unset node idx).1 ++ ':' :: toDecimal (RedisClient.address unset node idx).2.toNat ∧
    env.hostPool hp.ipPort = some hp.pool

theorem getConnection_isSome_iff (pool : ChannelPool Conn) (idx : ℕ) :
    (pool.getConnection idx).isSome ↔ pool.mChannelList[idx]? ≠ some none := by
  unfold ChannelPool.getConnection
  cases pool.mChannelList[idx]? with
  | none => simp
  | some e =>
    cases e with
    | none => simp
    | some hp =>
      simp only
      split <;> simp

/-- In a new pool: exactly when the node of the index, if there is one, has an address. -/
theorem FreshPool.reachesPool_iff {nodes : List NodeInfo} {pool : ChannelPool Conn} (h : FreshPool fuel env unset nodes pool)
    (idx : ℕ) : ReachesPool env unset nodes pool idx ↔
      ∀ node, nodes[idx]? = some node → (RedisClient.address unset node idx).1 ≠ [] := by
  cases hnode : nodes[idx]? with
  | none =>
    -- past the channels nothing is dereferenced
    have hnone : pool.mChannelList[idx]? = none := by
      rw [List.getElem?_eq_none_iff, h.length]
      exact List.getElem?_eq_none_iff.1 hnode
    refine iff_of_true ⟨(getConnection_isSome_iff pool idx).2 (by rw [hnone]; simp), fun e he => ?_⟩ (by simp)
    rw [hnone] at he
    exact absurd he (by simp)
  | some node =>
    have hlt : idx < pool.mChannelList.length := by
      rw [h.length]
      exact (List.getElem?_eq_some_iff.1 hnode).1
    have hentry := h.entry idx node _ hnode (List.getElem?_eq_getElem hlt)
    unfold Entry at hentry
    constructor
    · rintro ⟨hderef, -⟩ node' hnode' hnil
      obtain rfl := Option.some.inj hnode'
      -- `InitChannel` returned early and left a null pointer
      rw [if_pos hnil] at hentry
      rw [getConnection_isSome_iff, List.getElem?_eq_getElem hlt, hentry] at hderef
      exact hderef rfl
    · intro haddr
      rw [if_neg (haddr node rfl)] at hentry
      obtain ⟨hp, he, hip, hbuilt⟩ := hentry
      refine ⟨(getConnection_isSome_iff pool idx).2 ?_, fun e he' => ⟨node, hnode, hp, ?_, hip, hbuilt⟩⟩
      · rw [List.getElem?_eq_getElem hlt, he]
        simp
      · rw [List.getElem?_eq_getElem hlt, he, Option.some.injEq] at he'
        exact he'.symm

/-- **When a key reaches a pool**: the line that owns its slot, or the first line, has an
address. -/
theorem reaches_pool_iff {c : RedisClient Conn}
    (h : RedisClient.initChannelPool fuel env {} 0 (.text data unset) = some (.ok c)) (key : Bytes) :
    ReachesPool env unset (replyNodes data) c.getCurChannelPool (c.getCurChannelPool.getKeyNodeIndex key) ↔
      ∀ line, (keptLines data)[ownerLine data key]? = some line → Addressed unset (ownerLine data key) line := by
  have hfresh := freshPool_of_init h
  have hkept := kept_keptLines data
  -- what the pool computes from its nodes is what the lines say
  have hindex : c.getCurChannelPool.getKeyNodeIndex key = ownerLine data key := by
    rw [hfresh.getKeyNodeIndex_eq, ← nodesOf_keptLines, lastIdx_lines _ hkept]
    rfl
  rw [hindex, hfresh.reachesPool_iff, ← nodesOf_keptLines, getElem?_nodesOf hkept]
  cases hline : (keptLines data)[ownerLine data key]? with
  | none => simp
  | some line =>
    obtain ⟨node, hnode⟩ := Option.isSome_iff_exists.1 (hkept line (List.mem_of_getElem? hline))
    rw [Option.bind_some, hnode]
    simp only [Option.some.injEq, forall_eq']
    exact address_ne_nil_iff hnode _

/-- With an address every key reaches its pool. -/
theorem reaches_pool_five : ∃ c,
    RedisClient.initChannelPool 16385 oneConnection {} 0 (.text (masterLine "5".toList) fun _ => 0) = some (.ok c) ∧
      ReachesPool oneConnection (fun _ => 0) (replyNodes (masterLine "5".toList)) c.getCurChannelPool
        (c.getCurChannelPool.getKeyNodeIndex []) := by
  obtain ⟨c, hc⟩ := initChannelPool_total (show 16384 < 16385 by decide) wellFormed_five (fun _ => oneConnection_builds)
    ({} : RedisClient Unit) 0 fun _ => 0
  refine ⟨c, hc, (reaches_pool_iff hc []).2 fun line hline => ?_⟩
  have hlines : keptLines (masterLine "5".toList) = [masterLine "5".toList] := by decide
  have hmem := List.mem_of_getElem? hline
  rw [hlines, List.mem_singleton] at hmem
  rw [hmem]
  exact ⟨"1.1.1.1:1@1".toList, by decide, by rw [if_pos (by decide)]; exact Or.inl (by decide)⟩

/-- A connected master whose address is not known. -/
def noAddressLine : Str := "a :0@0 master,noaddr - 0 0 0 connected".toList

theorem replyNodes_noAddress : replyNodes noAddressLine = [⟨noAddressLine, "a".toList, [], some 0, []⟩] := by decide

/-- **The first master has no address**: every key leads to the null pointer left for it. -/
theorem null_pool_reached : ¬∀ (data : Str) (unset : ℕ → UInt16) (c : RedisClient Unit),
    RedisClient.initChannelPool 16385 oneConnection {} 0 (.text data unset) = some (.ok c) → ∀ key,
      ReachesPool oneConnection unset (replyNodes data) c.getCurChannelPool (c.getCurChannelPool.getKeyNodeIndex key) := by
  intro h
  have hbelow : ∀ node ∈ replyNodes noAddressLine, Below 16384 node.mSlots := by
    rw [replyNodes_noAddress, List.forall_mem_singleton]
    intro r hr
    exact absurd hr (by simp)
  obtain ⟨vec, hvec, -⟩ := initSlotNodeMap_spec (by decide) (show 16384 < 16385 by decide) hbelow []
  obtain ⟨c, hc⟩ : ∃ c, RedisClient.initChannelPool 16385 oneConnection {} 0 (.text noAddressLine fun _ => 0) = some (.ok c) :=
    initChannelPool_ends hvec fun _ => oneConnection_builds
  have hfresh := freshPool_of_init hc
  have hreach := (hfresh.reachesPool_iff _).1 (h noAddressLine (fun _ => 0) c hc [])
  rw [hfresh.getKeyNodeIndex_eq, replyNodes_noAddress] at hreach
  exact hreach _ rfl rfl

end Graphize
