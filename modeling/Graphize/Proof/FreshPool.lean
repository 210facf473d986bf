import Graphize.Proof.SlotRanges
import Graphize.Spec.RedisFetch

/-!
# The first pool of a client

What `init_channel_pool` makes of any reply on a new pool, whenever it returns.

* `freshPool_of_init`: the slots and the channels, by the lines kept.
* `getKeyNodeIndex_eq`: the node that a key is sent to.
-/

namespace Graphize

open Table

universe u

variable {Conn : Type u} {env : RedisClientEnv Conn} {unset : ℕ → UInt16} {fuel : ℕ} {data : Str}

/-- The pool that `init_channel_pool` leaves for nodes where there was none. -/
structure FreshPool (fuel : ℕ) (env : RedisClientEnv Conn) (unset : ℕ → UInt16) (nodes : List NodeInfo)
    (pool : ChannelPool Conn) : Prop where
  /-- without nodes nothing is built -/
  table : (nodes = [] ∧ pool.slotIpportIndexVec = []) ∨
    (nodes ≠ [] ∧ initSlotNodeMap fuel [] nodes = some pool.slotIpportIndexVec)
  length : pool.mChannelList.length = nodes.length
  entry : ∀ (i : ℕ) node e, nodes[i]? = some node → pool.mChannelList[i]? = some e →
    Entry env (RedisClient.address unset node i) none e

/-- Lines that were kept give nodes. -/
theorem length_nodesOf : ∀ {lines : List Str}, Kept lines → (nodesOf lines).length = lines.length := by
  intro lines
  induction lines with
  | nil => intro _; rfl
  | cons l lines ih =>
    intro h
    obtain ⟨hl, hls⟩ := List.forall_mem_cons.1 h
    obtain ⟨node, hnode⟩ := Option.isSome_iff_exists.1 hl
    rw [nodesOf_cons hnode, List.length_cons, List.length_cons, ih hls]

/-- **The first pool.** -/
theorem freshPool_of_init {c : RedisClient Conn}
    (h : RedisClient.initChannelPool fuel env {} 0 (.text data unset) = some (.ok c)) :
    FreshPool fuel env unset (replyNodes data) c.getCurChannelPool := by
  rcases initChannelPool_text h with ⟨hsame, heq⟩ | ⟨hdiff, ⟨e, he⟩ | ⟨pool, hbuild, heq⟩⟩
  · rw [Except.ok.injEq] at heq
    have hnone : replyNodes data = [] := replyNodes_of_unchanged hsame
    have hpool : c.getCurChannelPool = { validLines := keptLines data } := by rw [heq]; rfl
    rw [hpool, hnone]
    exact ⟨Or.inl ⟨rfl, rfl⟩, rfl, by simp⟩
  · exact absurd he (by simp)
  · rw [Except.ok.injEq] at heq
    have hpool : c.getCurChannelPool = pool := by rw [heq]; rfl
    rw [hpool]
    have hlines : keptLines data ≠ [] := by
      intro hnil
      rw [hnil] at hdiff
      have hdiff' : linesChanged [] [] = true := hdiff
      exact absurd hdiff' (by decide)
    have hne : replyNodes data ≠ [] := by
      intro hnil
      have hlen := length_nodesOf (kept_keptLines data)
      rw [nodesOf_keptLines, hnil] at hlen
      exact hlines (List.eq_nil_of_length_eq_zero hlen.symm)
    obtain ⟨vec, channels, rfl, hvec, hlen, hentry⟩ := build_inv hbuild
    refine ⟨Or.inr ⟨hne, hvec⟩, hlen, fun i node e hn he => hentry i node none e hn ?_ he⟩
    have hempty : resize (replyNodes data).length (none : Option (HostPool Conn)) [] =
        List.replicate (replyNodes data).length none := by simp [resize]
    have hi := (List.getElem?_eq_some_iff.1 hn).1
    exact (congrArg (fun l => l[i]?) hempty).trans (List.getElem?_replicate_of_lt hi)

namespace FreshPool

variable {nodes : List NodeInfo} {pool : ChannelPool Conn}

/-- Each slot is of the last node that claims it. -/
theorem slots (h : FreshPool fuel env unset nodes pool) (k : ℕ) :
    get (-1) pool.slotIpportIndexVec k = lastIdx (fun node => covers node.mSlots k) (-1) 0 nodes := by
  rcases h.table with ⟨rfl, hnil⟩ | ⟨-, hvec⟩
  · rw [hnil]
    rfl
  · rw [(initSlotNodeMap_eq hvec).2, get_fresh]

/-- The node of a key: the last that claims its slot, and the first if there is none. -/
theorem getKeyNodeIndex_eq (h : FreshPool fuel env unset nodes pool) (key : Bytes) :
    pool.getKeyNodeIndex key = (lastIdx (fun node => covers node.mSlots (getKeySlot key).toNat) 0 0 nodes).toNat := by
  have hone : ∀ z : ℤ, get (-1) pool.slotIpportIndexVec (getKeySlot key).toNat = z →
      pool.getKeyNodeIndex key = if z = -1 then 0 else z.toNat := fun z hz => by rw [getKeyNodeIndex_get, hz]
  rcases lastIdx_cases (fun node => covers node.mSlots (getKeySlot key).toNat) (-1) nodes 0 with ⟨hz, hno⟩ | ⟨i, node, -, -, hz⟩
  · rw [hone (-1) ((h.slots _).trans hz), if_pos rfl, lastIdx_of_none hno]
    rfl
  · rw [hone (0 + i : ℕ) ((h.slots _).trans (hz (-1))), hz 0, if_neg (by omega)]

end FreshPool

end Graphize
