import Graphize.Proof.SlotRanges

/-!
# When the constructor of a client returns

`RedisClient::RedisClient` is `noexcept` and reads one reply before it returns: it may throw,
which ends the program, or loop over a range of slots that has no end.

* `initSlotNodeMap_ends_iff`, `initSlotNodeMap_settled`: `2^32` rounds for a range tell whether
  the loops end.
* `build_ends_iff`, `build_ok_iff`: so for the slots and the pools, of which there may be none.
* `construct_ends_iff`, `construct_ok_iff`: the reply and the size of the pools tell whether a
  constructor ends, and whether it returns.
-/

namespace Graphize

universe u

variable {Conn : Type u} {env : RedisClientEnv Conn} {fuel : ℕ}

/-! ## The loops over the slots -/

/-- **The loops end** exactly if no range ends at `2^32 - 1`. -/
theorem initSlotNodeMap_ends_iff (hf : 2 ^ 32 ≤ fuel) (nodes : List NodeInfo) (vec : List ℤ) :
    (initSlotNodeMap fuel vec nodes).isSome ↔ Bounded nodes := by
  constructor
  · intro h
    obtain ⟨vec', hvec⟩ := Option.isSome_iff_exists.1 h
    exact bounded_of_ends hvec
  · intro h
    obtain ⟨vec', hvec, -⟩ := initSlotNodeMap_spec (by decide) (Nat.lt_of_succ_le hf) h vec
    rw [hvec]
    rfl

/-- More rounds change nothing. -/
theorem initSlotNodeMap_settled (hf : 2 ^ 32 ≤ fuel) (nodes : List NodeInfo) (vec : List ℤ) :
    initSlotNodeMap fuel vec nodes = initSlotNodeMap (2 ^ 32) vec nodes := by
  cases h : initSlotNodeMap (2 ^ 32) vec nodes with
  | some vec' => exact initSlotNodeMap_mono hf h
  | none =>
    rw [Option.eq_none_iff_forall_ne_some]
    intro vec' hvec
    have hends := (initSlotNodeMap_ends_iff (Nat.le_refl _) nodes vec).2 (bounded_of_ends hvec)
    rw [h] at hends
    cases hends

/-! ## The constructor -/

/-- The loops over the slots of a reply have an end. -/
def NodesReply.Ends : NodesReply → Prop
  | .initFailed => True
  | .rpcFailed => True
  | .error => True
  | .text data _ => Bounded (replyNodes data)

/-- **The replies a client can be constructed on**: the channel to the url is set up, the loops
have an end, and if a node of the reply has an address, the pools are not too large. -/
def NodesReply.Usable (env : RedisClientEnv Conn) : NodesReply → Prop
  | .initFailed => False
  | .rpcFailed => True
  | .error => True
  | .text data unset => Bounded (replyNodes data) ∧
      (AnyHost unset (replyNodes data).zipIdx → env.poolSize.toUInt32 ≤ Int32.toUInt32 100)

/-- A pool is refused for its size only. -/
theorem builds_iff : env.Builds ↔ env.poolSize.toUInt32 ≤ Int32.toUInt32 100 :=
  ⟨fun hb => (hostPool_isSome_iff []).1 (hb []), fun hle a => (hostPool_isSome_iff a).2 hle⟩

section Text

variable {unset : ℕ → UInt16} {nodes : List NodeInfo} {pool : ChannelPool Conn} {data : Str}

theorem build_settled (hf : 2 ^ 32 ≤ fuel) :
    RedisClient.build fuel env unset nodes pool = RedisClient.build (2 ^ 32) env unset nodes pool := by
  unfold RedisClient.build
  rw [initSlotNodeMap_settled hf]

theorem build_ends_iff (hf : 2 ^ 32 ≤ fuel) (env : RedisClientEnv Conn) (unset : ℕ → UInt16) (nodes : List NodeInfo)
    (pool : ChannelPool Conn) : (RedisClient.build fuel env unset nodes pool).isSome ↔ Bounded nodes := by
  rw [← initSlotNodeMap_ends_iff hf nodes pool.slotIpportIndexVec]
  unfold RedisClient.build
  cases initSlotNodeMap fuel pool.slotIpportIndexVec nodes <;> simp

theorem build_ok_iff (hf : 2 ^ 32 ≤ fuel) (nodes : List NodeInfo) (pool : ChannelPool Conn) :
    (∃ pool', RedisClient.build fuel env unset nodes pool = some (.ok pool')) ↔
      Bounded nodes ∧ (AnyHost unset nodes.zipIdx → env.Builds) := by
  rw [← initSlotNodeMap_ends_iff hf nodes pool.slotIpportIndexVec,
    ← channels_ok_iff unset nodes.zipIdx (Table.resize nodes.length none pool.mChannelList)]
  unfold RedisClient.build
  cases initSlotNodeMap fuel pool.slotIpportIndexVec nodes with
  | none => simp
  | some vec =>
    simp only [Option.some.injEq, ok_bind_iff, Option.isSome_some, true_and]
    constructor
    · rintro ⟨pool', channels, h, -⟩
      exact ⟨channels, h⟩
    · rintro ⟨channels, h⟩
      exact ⟨_, channels, h, rfl⟩

theorem bounded_nil : Bounded [] := fun _ h => absurd h List.not_mem_nil

/-- The lines of a first reply are compared to none. -/
theorem fresh_changed (pool : ChannelPool Conn) :
    ({ channelPoolVec := Function.update (fun _ => {}) 0 pool } : RedisClient Conn).isChannelPoolChanged =
      linesChanged [] pool.validLines := changed_update {} 0 pool

theorem initChannelPool_ends_iff (hf : 2 ^ 32 ≤ fuel) :
    (RedisClient.initChannelPool fuel env {} 0 (.text data unset)).isSome ↔ Bounded (replyNodes data) := by
  unfold RedisClient.initChannelPool
  simp only [fresh_changed]
  by_cases hc : linesChanged [] (keptLines data) = true
  · rw [if_pos hc, ← build_ends_iff hf env unset (replyNodes data) { validLines := keptLines data }]
    rcases RedisClient.build fuel env unset (replyNodes data) { validLines := keptLines data } with _ | _ | _ <;> simp
  · rw [if_neg hc, replyNodes_of_unchanged (eq_false_of_ne_true hc)]
    exact ⟨fun _ => bounded_nil, fun _ => rfl⟩

theorem initChannelPool_ok_iff (hf : 2 ^ 32 ≤ fuel) :
    (∃ c, RedisClient.initChannelPool fuel env {} 0 (.text data unset) = some (.ok c)) ↔
      Bounded (replyNodes data) ∧ (AnyHost unset (replyNodes data).zipIdx → env.Builds) := by
  unfold RedisClient.initChannelPool
  simp only [fresh_changed]
  by_cases hc : linesChanged [] (keptLines data) = true
  · rw [if_pos hc, ← build_ok_iff hf (replyNodes data) { validLines := keptLines data }]
    rcases RedisClient.build fuel env unset (replyNodes data) { validLines := keptLines data } with _ | _ | _ <;> simp
  · rw [if_neg hc, replyNodes_of_unchanged (eq_false_of_ne_true hc)]
    refine ⟨fun _ => ⟨bounded_nil, fun h => ?_⟩, fun _ => ⟨_, rfl⟩⟩
    obtain ⟨e, he, -⟩ := h
    cases he

end Text

theorem initChannelPool_settled (hf : 2 ^ 32 ≤ fuel) (c : RedisClient Conn) (k : Fin 2) (reply : NodesReply) :
    RedisClient.initChannelPool fuel env c k reply = RedisClient.initChannelPool (2 ^ 32) env c k reply := by
  cases reply with
  | initFailed => rfl
  | rpcFailed => rfl
  | error => rfl
  | text data unset =>
    unfold RedisClient.initChannelPool
    simp only [build_settled hf]

/-- More rounds change nothing. -/
theorem construct_settled (hf : 2 ^ 32 ≤ fuel) (env : RedisClientEnv Conn) (reply : NodesReply) :
    RedisClient.construct fuel env reply = RedisClient.construct (2 ^ 32) env reply := by
  unfold RedisClient.construct
  rw [initChannelPool_settled hf]

/-- **When a constructor ends.** -/
theorem construct_ends_iff (hf : 2 ^ 32 ≤ fuel) {reply : NodesReply} :
    (RedisClient.construct fuel env reply).isSome ↔ reply.Ends := by
  have hsame : (RedisClient.construct fuel env reply).isSome ↔
      (RedisClient.initChannelPool fuel env {} 0 reply).isSome := by
    unfold RedisClient.construct
    rcases RedisClient.initChannelPool fuel env {} 0 reply with _ | _ | _ <;> simp
  rw [hsame]
  cases reply with
  | initFailed => exact ⟨fun _ => trivial, fun _ => rfl⟩
  | rpcFailed => exact ⟨fun _ => trivial, fun _ => rfl⟩
  | error => exact ⟨fun _ => trivial, fun _ => rfl⟩
  | text data unset => exact initChannelPool_ends_iff hf

/-- **When it returns.** -/
theorem construct_ok_iff (hf : 2 ^ 32 ≤ fuel) {reply : NodesReply} :
    (∃ c, RedisClient.construct fuel env reply = some (.ok c)) ↔ reply.Usable env := by
  have hsame : (∃ c, RedisClient.construct fuel env reply = some (.ok c)) ↔
      ∃ c, RedisClient.initChannelPool fuel env {} 0 reply = some (.ok c) := by
    unfold RedisClient.construct
    rcases RedisClient.initChannelPool fuel env {} 0 reply with _ | _ | _ <;> simp
  rw [hsame]
  cases reply with
  | initFailed =>
    refine ⟨fun h => ?_, False.elim⟩
    obtain ⟨c, h⟩ := h
    cases h
  | rpcFailed => exact ⟨fun _ => trivial, fun _ => ⟨_, rfl⟩⟩
  | error => exact ⟨fun _ => trivial, fun _ => ⟨_, rfl⟩⟩
  | text data unset =>
    rw [initChannelPool_ok_iff hf, builds_iff]
    rfl

end Graphize
