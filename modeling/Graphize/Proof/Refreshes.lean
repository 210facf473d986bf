import Graphize.Proof.Topology
import Graphize.Lib.Machine

/-!
# Histories of refreshes

The loop of `update_channel_pool` builds the pool that is not in use and switches to it
when the lines of the two pools differ.

* `refreshes_keep_iff`: a round without a reply leaves the routing alone exactly when the
  two pools compare equal before it.
* `refreshes_fresh_iff`: after each round with a reply the pool in use is the one a new
  client would build, exactly when no slot of the reused pool is left unclaimed.
-/

namespace Graphize

open Table

universe u

variable {Conn : Type u} {fuel : ℕ} {env : RedisClientEnv Conn}

/-- The request for `CLUSTER NODES` gives no topology. -/
def NodesReply.Fails : NodesReply → Prop
  | .text _ _ => False
  | _ => True

/-- The text of a reply; none is like the empty one. -/
def NodesReply.data : NodesReply → Str
  | .text data _ => data
  | _ => []

/-! ## Rounds without a reply -/

section Failures

/-- The rounds that the loop goes on after. -/
def RedisClient.refresh (fuel : ℕ) (env : RedisClientEnv Conn) (c : RedisClient Conn) (reply : NodesReply) :
    Option (RedisClient Conn) :=
  match c.updateChannelPool fuel env reply with
  | some (.ok c) => some c
  | _ => none

/-- The loop goes on after the round, and what `get_cur_channel_pool` routes by is what it
was. -/
def Undisturbed (fuel : ℕ) (env : RedisClientEnv Conn) (c : RedisClient Conn) (reply : NodesReply) : Prop :=
  ∃ c', c.updateChannelPool fuel env reply = some (.ok c') ∧ c'.poolIndex = c.poolIndex ∧
    c'.getCurChannelPool.slotIpportIndexVec = c.getCurChannelPool.slotIpportIndexVec ∧
    c'.getCurChannelPool.mChannelList = c.getCurChannelPool.mChannelList

/-- Every round without a reply that a history comes to satisfies `P`. -/
def EachFailure (fuel : ℕ) (env : RedisClientEnv Conn) (P : RedisClient Conn → NodesReply → Prop)
    (c₀ : RedisClient Conn) (replies : List NodesReply) : Prop :=
  ∀ pre reply post c, replies = pre ++ reply :: post →
    Machine.run (RedisClient.refresh fuel env) c₀ pre = some c → reply.Fails → P c reply

/-- A round without a reply switches the pools if they compare different. -/
theorem updateChannelPool_failed {c : RedisClient Conn} {reply : NodesReply} (hr : reply.Fails)
    (hi : reply ≠ .initFailed) : c.updateChannelPool fuel env reply =
      some (.ok (if c.isChannelPoolChanged then { c with poolIndex := 1 - c.poolIndex } else c)) := by
  cases reply with
  | initFailed => exact absurd rfl hi
  | rpcFailed => rfl
  | error => rfl
  | text data unset => exact hr.elim

/-- One round. -/
theorem undisturbed_iff {c : RedisClient Conn} {reply : NodesReply} (hr : reply.Fails) :
    Undisturbed fuel env c reply ↔ reply ≠ .initFailed ∧ c.isChannelPoolChanged = false := by
  constructor
  · rintro ⟨c', h, hidx, -, -⟩
    have hi : reply ≠ .initFailed := by
      rintro rfl
      exact absurd h (by simp [RedisClient.updateChannelPool, RedisClient.initChannelPool])
    refine ⟨hi, ?_⟩
    rw [updateChannelPool_failed hr hi, Option.some.injEq, Except.ok.injEq] at h
    by_contra hc
    rw [Bool.not_eq_false] at hc
    rw [if_pos hc] at h
    subst h
    exact one_sub_ne _ hidx
  · rintro ⟨hi, hc⟩
    refine ⟨c, ?_, rfl, rfl, rfl⟩
    rw [updateChannelPool_failed hr hi, hc]
    rfl

/-- **Failed refreshes**: over any history of the loop, the rounds without a reply leave the
routing as it was and the loop running exactly when none of them is a failure to set up the
channel and each finds the lines of the two pools equal. -/
theorem refreshes_keep_iff (c₀ : RedisClient Conn) (replies : List NodesReply) :
    EachFailure fuel env (Undisturbed fuel env) c₀ replies ↔
      EachFailure fuel env (fun c reply => reply ≠ .initFailed ∧ c.isChannelPoolChanged = false) c₀ replies := by
  unfold EachFailure
  constructor
  · intro h pre reply post c hsplit hrun hr
    exact (undisturbed_iff hr).1 (h pre reply post c hsplit hrun hr)
  · intro h pre reply post c hsplit hrun hr
    exact (undisturbed_iff hr).2 (h pre reply post c hsplit hrun hr)

/-- The line of one master with the slot fields given. -/
def masterLine (slots : Str) : Str := "a 1.1.1.1:1@1 master - 0 0 0 connected ".toList ++ slots

/-- A client whose pools hold one connection. -/
def oneConnection : RedisClientEnv Unit := ⟨1, fun _ _ => some ()⟩

theorem oneConnection_builds : oneConnection.Builds := fun _ => rfl

/-- The node of a line, as it is read. -/
theorem replyNodes_five : replyNodes (masterLine "5".toList) =
    [⟨masterLine "5".toList, "a".toList, "1.1.1.1".toList, some 1, [(5, 5)]⟩] := by decide

theorem wellFormed_five : ∀ node ∈ replyNodes (masterLine "5".toList), node.WellFormed := by
  rw [replyNodes_five, List.forall_mem_singleton]
  exact ⟨⟨1, rfl, Or.inl (by decide)⟩, List.forall_mem_singleton.2 (by decide)⟩

/-- A round with the reply that the client was built from, and a failed one. -/
theorem refreshes_keep_five : ∃ c₀,
    RedisClient.construct 16385 oneConnection (.text (masterLine "5".toList) fun _ => 0) = some (.ok c₀) ∧
      EachFailure 16385 oneConnection (Undisturbed 16385 oneConnection) c₀
        [.text (masterLine "5".toList) fun _ => 0, .rpcFailed] := by
  obtain ⟨c₀, hc⟩ := initChannelPool_total (show 16384 < 16385 by decide) wellFormed_five (fun _ => oneConnection_builds)
    ({} : RedisClient Unit) 0 fun _ => 0
  have hlines : (c₀.channelPoolVec 0).validLines = keptLines (masterLine "5".toList) ∧ c₀.poolIndex = 0 := by
    rcases initChannelPool_text hc with ⟨-, heq⟩ | ⟨-, ⟨e, he⟩ | ⟨pool, hb, heq⟩⟩
    · rw [Except.ok.inj heq]
      exact ⟨rfl, rfl⟩
    · cases he
    · rw [Except.ok.inj heq]
      exact ⟨build_validLines hb, rfl⟩
  refine ⟨c₀, by unfold RedisClient.construct; rw [hc], (refreshes_keep_iff c₀ _).2 ?_⟩
  intro pre reply post c hsplit hrun hr
  rcases pre with _ | ⟨first, _ | ⟨second, pre⟩⟩
  · obtain ⟨rfl, -⟩ := List.cons.inj hsplit
    exact hr.elim
  · obtain ⟨rfl, -⟩ := List.cons.inj (List.cons.inj hsplit).2
    refine ⟨by simp, ?_⟩
    -- the first round has stored the same lines in the other pool
    obtain ⟨c₁, hfirst, hrun⟩ := Machine.run_cons_iff.1 hrun
    obtain rfl := Option.some.inj hrun
    unfold RedisClient.refresh at hfirst
    split at hfirst
    · rename_i c' hupdate
      obtain rfl := Option.some.inj hfirst
      rw [← (List.cons.inj hsplit).1] at hupdate
      rcases updateChannelPool_text hupdate with ⟨-, -, -, hsame⟩ | ⟨hchanged, -⟩
      · exact hsame
      · unfold RedisClient.Changed RedisClient.getCurChannelPool at hchanged
        rw [hlines.2, hlines.1] at hchanged
        exact absurd hchanged (by decide)
    · cases hfirst
  · have hlen := congrArg List.length hsplit
    simp at hlen

/-- **A new client and a failed refresh**: the loop switches to the pool that was never
built; and it ends when the channel cannot be set up. -/
theorem refreshes_lose_routing : ∃ c₀,
    RedisClient.construct 16385 oneConnection (.text (masterLine "5".toList) fun _ => 0) = some (.ok c₀) ∧
      ¬EachFailure 16385 oneConnection (Undisturbed 16385 oneConnection) c₀ [.rpcFailed] ∧
      ¬EachFailure 16385 oneConnection (Undisturbed 16385 oneConnection) c₀ [.initFailed] := by
  obtain ⟨c₀, hc⟩ := initChannelPool_total (show 16384 < 16385 by decide) wellFormed_five (fun _ => oneConnection_builds)
    ({} : RedisClient Unit) 0 fun _ => 0
  have hchanged : c₀.isChannelPoolChanged = true := by
    rw [initChannelPool_changed hc]
    decide
  refine ⟨c₀, by unfold RedisClient.construct; rw [hc], fun h => ?_, fun h => ?_⟩
  · have hr : NodesReply.Fails .rpcFailed := trivial
    have hu := h [] .rpcFailed [] c₀ rfl rfl hr
    rw [((undisturbed_iff hr).1 hu).2] at hchanged
    exact absurd hchanged (by decide)
  · have hr : NodesReply.Fails .initFailed := trivial
    have hu := h [] .initFailed [] c₀ rfl rfl hr
    exact ((undisturbed_iff hr).1 hu).1 rfl

end Failures

/-! ## Rounds with a reply -/

/-- A reply whose kept nodes are well formed. -/
structure ClusterReply where
  data : Str
  unset : ℕ → UInt16
  wellFormed : ∀ node ∈ replyNodes data, node.WellFormed

/-- A client with the last reply it has got. -/
structure Routing (Conn : Type u) where
  client : RedisClient Conn
  latest : Str

namespace Routing

/-- A round with a reply. -/
def step (fuel : ℕ) (env : RedisClientEnv Conn) (w : Routing Conn) (reply : ClusterReply) : Option (Routing Conn) :=
  match w.client.updateChannelPool fuel env (.text reply.data reply.unset) with
  | some (.ok c) => some ⟨c, reply.data⟩
  | _ => none

/-- The pool in use. -/
def pool (w : Routing Conn) : ChannelPool Conn := w.client.getCurChannelPool

/-- The pool in use is the one that a new client builds from the last reply alone. A slot
without an entry is routed like one whose entry is `-1`. -/
structure LikeFresh (fuel : ℕ) (env : RedisClientEnv Conn) (w : Routing Conn) : Prop where
  fresh : ∀ unset, ∃ c, RedisClient.construct fuel env (.text w.latest unset) = some (.ok c) ∧
    (∀ k, get (-1) w.pool.slotIpportIndexVec k = get (-1) c.getCurChannelPool.slotIpportIndexVec k) ∧
    w.pool.mChannelList.map (Option.map HostPool.ipPort) =
      c.getCurChannelPool.mChannelList.map (Option.map HostPool.ipPort)
  unclaimed : ∀ k, (∀ node ∈ replyNodes w.latest, covers node.mSlots k = false) →
    get (-1) w.pool.slotIpportIndexVec k = -1
  inRange : ∀ k, get (-1) w.pool.slotIpportIndexVec k ≠ -1 →
    ∃ i : ℕ, i < w.pool.mChannelList.length ∧ get (-1) w.pool.slotIpportIndexVec k = i

/-- If the reply makes the loop rebuild the pool not in use, its kept nodes claim every slot
that is set in it. -/
def Overwrites (w : Routing Conn) (reply : ClusterReply) : Prop :=
  w.client.Changed reply.data → ∀ k < 16384, get (-1) w.client.bak.slotIpportIndexVec k ≠ -1 →
    ∃ node ∈ replyNodes reply.data, covers node.mSlots k = true

/-- What holds of every history: the lines of the pool in use are read like the last reply,
and so are its channels. -/
structure Steady (env : RedisClientEnv Conn) (w : Routing Conn) : Prop where
  wellFormed : ∀ node ∈ replyNodes w.latest, node.WellFormed
  kept : Kept w.pool.validLines
  sig : (nodesOf w.pool.validLines).map NodeInfo.sig = (replyNodes w.latest).map NodeInfo.sig
  channels : w.pool.mChannelList.map (Option.map HostPool.ipPort) =
    (replyNodes w.latest).map fun node => some node.ipPort
  builds : replyNodes w.latest ≠ [] → env.Builds

/-- Each slot goes to the last node of the last reply that claims it. -/
def Settled (w : Routing Conn) : Prop := ∀ k, get (-1) w.pool.slotIpportIndexVec k =
  lastIdx (fun node => covers node.mSlots k) (-1) 0 (replyNodes w.latest)

end Routing

section Replies

variable {w w' : Routing Conn}

/-- Nodes that are read alike send the slots to the same places. -/
theorem lastIdx_sig {nodes nodes' : List NodeInfo} (h : nodes.map NodeInfo.sig = nodes'.map NodeInfo.sig)
    (z : ℤ) (k : ℕ) : lastIdx (fun node => covers node.mSlots k) z 0 nodes =
      lastIdx (fun node => covers node.mSlots k) z 0 nodes' := by
  have hmap : ∀ nodes : List NodeInfo, lastIdx (fun node => covers node.mSlots k) z 0 nodes =
      lastIdx (fun s => covers s.2.2 k) z 0 (nodes.map NodeInfo.sig) :=
    fun nodes => (lastIdx_map NodeInfo.sig (fun s => covers s.2.2 k) nodes z 0).symm
  rw [hmap, hmap, h]

/-- … and get the same channels. -/
theorem ipPort_sig {nodes nodes' : List NodeInfo} (h : nodes.map NodeInfo.sig = nodes'.map NodeInfo.sig) :
    nodes.map (fun node => some node.ipPort) = nodes'.map fun node => some node.ipPort := by
  have hfun : (fun node : NodeInfo => some node.ipPort) =
      (fun s : Str × Option UInt16 × List (UInt32 × UInt32) =>
        some (NodeInfo.ipPort { ip := s.1, port := s.2.1, mSlots := s.2.2 })) ∘ NodeInfo.sig := rfl
  rw [hfun, ← List.map_map, ← List.map_map, h]

/-- A rebuilt table is settled when the nodes claim what was set in the old one. -/
theorem settled_built {nodes : List NodeInfo} {vec vec' : List ℤ}
    (h : ∀ k, get (-1) vec' k = lastIdx (fun node => covers node.mSlots k) (get (-1) (resize 16384 (-1) vec) k) 0 nodes) :
    (∀ k, get (-1) vec' k = lastIdx (fun node => covers node.mSlots k) (-1) 0 nodes) ↔
      ∀ k < 16384, get (-1) vec k ≠ -1 → ∃ node ∈ nodes, covers node.mSlots k = true := by
  constructor
  · intro hs k hk hne
    by_contra hno
    push Not at hno
    have hnone : ∀ node ∈ nodes, covers node.mSlots k = false := fun node hn => by simpa using hno node hn
    have h1 := h k
    rw [hs k, lastIdx_of_none hnone, lastIdx_of_none hnone, get_resize, if_pos hk] at h1
    exact hne h1.symm
  · intro hc k
    rw [h k]
    rcases lastIdx_cases (fun node => covers node.mSlots k) (get (-1) (resize 16384 (-1) vec) k) nodes 0 with
      ⟨h1, hnone⟩ | ⟨i, node, -, -, h1⟩
    · rw [h1, lastIdx_of_none hnone, get_resize]
      by_cases hk : k < 16384
      · rw [if_pos hk]
        by_contra hne
        obtain ⟨node, hn, hcov⟩ := hc k hk hne
        rw [hnone node hn] at hcov
        exact absurd hcov (by simp)
      · rw [if_neg hk]
    · rw [h1, h1]

/-- **What one round does** to a history. -/
theorem Routing.Steady.step (hf : 16384 < fuel) (hw : w.Steady env) {reply : ClusterReply}
    (h : w.step fuel env reply = some w') :
    w'.Steady env ∧ ((¬w.client.Changed reply.data ∧ (w'.Settled ↔ w.Settled)) ∨
      (w.client.Changed reply.data ∧ (w'.Settled ↔ w.Overwrites reply))) := by
  unfold Routing.step at h
  cases hu : w.client.updateChannelPool fuel env (.text reply.data reply.unset) with
  | none => rw [hu] at h; exact absurd h (by simp)
  | some r =>
    rw [hu] at h
    cases r with
    | error e => exact absurd h (by simp)
    | ok c =>
      rw [Option.some.injEq] at h
      subst h
      rcases updateChannelPool_text hu with ⟨hc, hcur, -, -⟩ | ⟨hc, -, -, -, hb⟩
      · -- the lines compare equal: the pool in use is right for the new reply as well
        have hpool : Routing.pool ⟨c, reply.data⟩ = w.pool := hcur
        have heq : linesChanged w.pool.validLines (keptLines reply.data) = false := by
          rw [← Bool.not_eq_true]
          exact hc
        have hsig := sig_eq_of_unchanged hw.kept (kept_keptLines reply.data) heq
        rw [nodesOf_keptLines, hw.sig] at hsig
        refine ⟨⟨reply.wellFormed, ?_, ?_, ?_, fun hne => hw.builds ?_⟩, Or.inl ⟨hc, ?_⟩⟩
        · rw [hpool]; exact hw.kept
        · rw [hpool, hw.sig, hsig]
        · rw [hpool, hw.channels]
          exact ipPort_sig hsig
        · rintro hnil
          rw [hnil, List.map_nil] at hsig
          exact hne (List.map_eq_nil_iff.1 hsig.symm)
        · unfold Routing.Settled
          rw [hpool]
          simp only [lastIdx_sig hsig]
      · have hbuilt := build_spec hf reply.wellFormed hb
        have hlines : (Routing.pool ⟨c, reply.data⟩).validLines = keptLines reply.data := build_validLines hb
        refine ⟨⟨reply.wellFormed, ?_, ?_, hbuilt.channels, builds_of_built hbuilt⟩, Or.inr ⟨hc, ?_⟩⟩
        · rw [hlines]; exact kept_keptLines _
        · rw [hlines, nodesOf_keptLines]
        · exact (settled_built hbuilt.slots).trans ⟨fun h _ => h, fun h => h hc⟩

/-- What a new client builds. -/
theorem steady_new (hf : 16384 < fuel) {data : Str} (hwf : ∀ node ∈ replyNodes data, node.WellFormed)
    {unset : ℕ → UInt16} {c : RedisClient Conn}
    (hc : RedisClient.initChannelPool fuel env {} 0 (.text data unset) = some (.ok c)) :
    Routing.Steady env ⟨c, data⟩ ∧ Routing.Settled ⟨c, data⟩ := by
  rcases initChannelPool_text hc with ⟨hlines, heq⟩ | ⟨hlines, ⟨e, he⟩ | ⟨pool, hbuild, heq⟩⟩
  · -- no kept line: nothing is built
    have hnodes : replyNodes data = [] := replyNodes_of_unchanged hlines
    rw [Except.ok.injEq] at heq
    have hpool : Routing.pool ⟨c, data⟩ = { validLines := keptLines data } := by rw [heq]; rfl
    refine ⟨⟨hwf, ?_, ?_, ?_, fun hne => absurd hnodes hne⟩, fun k => ?_⟩
    · rw [hpool]; exact kept_keptLines data
    · rw [hpool, nodesOf_keptLines]
    · rw [hpool, hnodes]; rfl
    · rw [hpool, hnodes]; rfl
  · exact absurd he (by simp)
  · rw [Except.ok.injEq] at heq
    have hpool : Routing.pool ⟨c, data⟩ = pool := by rw [heq]; rfl
    have hbuilt := build_spec hf hwf hbuild
    have hlines' : pool.validLines = keptLines data := build_validLines hbuild
    refine ⟨⟨hwf, ?_, ?_, ?_, builds_of_built hbuilt⟩, ?_⟩
    · rw [hpool, hlines']; exact kept_keptLines data
    · rw [hpool, hlines', nodesOf_keptLines]
    · rw [hpool]; exact hbuilt.channels
    · unfold Routing.Settled
      rw [hpool]
      refine (settled_built hbuilt.slots).2 fun k _ hne => absurd ?_ hne
      rfl

theorem construct_steady (hf : 16384 < fuel) {data : Str} (hwf : ∀ node ∈ replyNodes data, node.WellFormed)
    (hb : replyNodes data ≠ [] → env.Builds) (unset : ℕ → UInt16) :
    ∃ c, RedisClient.construct fuel env (.text data unset) = some (.ok c) ∧
      Routing.Steady env ⟨c, data⟩ ∧ Routing.Settled ⟨c, data⟩ := by
  obtain ⟨c, hc⟩ := initChannelPool_total hf hwf hb ({} : RedisClient Conn) 0 unset
  exact ⟨c, by unfold RedisClient.construct; rw [hc], steady_new hf hwf hc⟩

/-- In every history, the routing is that of a new client when it is settled. -/
theorem Routing.Steady.likeFresh_iff (hf : 16384 < fuel) (hw : w.Steady env) : w.LikeFresh fuel env ↔ w.Settled := by
  constructor
  · intro h k
    obtain ⟨c, hc, hslots, -⟩ := h.fresh fun _ => 0
    obtain ⟨c', hc', -, hset⟩ := construct_steady hf hw.wellFormed hw.builds fun _ => 0
    rw [hc, Option.some.injEq, Except.ok.injEq] at hc'
    subst hc'
    rw [hslots k]
    exact hset k
  · intro h
    refine ⟨fun unset => ?_, fun k hno => ?_, fun k hne => ?_⟩
    · obtain ⟨c, hc, hst, hset⟩ := construct_steady hf hw.wellFormed hw.builds unset
      exact ⟨c, hc, fun k => (h k).trans (hset k).symm, hw.channels.trans hst.channels.symm⟩
    · rw [h k, lastIdx_of_none hno]
    · have hk := h k
      rcases lastIdx_cases (fun node => covers node.mSlots k) (-1) (replyNodes w.latest) 0 with
        ⟨h1, -⟩ | ⟨i, node, hi, -, h1⟩
      · exact absurd (hk.trans h1) hne
      · refine ⟨i, ?_, by rw [hk, h1, Nat.zero_add]⟩
        have hlen := congrArg List.length hw.channels
        rw [List.length_map, List.length_map] at hlen
        rw [hlen]
        exact (List.getElem?_eq_some_iff.1 hi).1

/-- A new client, with the reply that it has got, or with none. -/
theorem construct_first (hf : 16384 < fuel) {first : NodesReply} {c₀ : RedisClient Conn}
    (h₀ : RedisClient.construct fuel env first = some (.ok c₀))
    (hwf : ∀ data unset, first = .text data unset → ∀ node ∈ replyNodes data, node.WellFormed) :
    Routing.Steady env ⟨c₀, first.data⟩ ∧ Routing.Settled ⟨c₀, first.data⟩ := by
  have hempty : replyNodes [] = [] := by decide
  have hnew : Routing.Steady env (⟨{}, []⟩ : Routing Conn) ∧ Routing.Settled (⟨{}, []⟩ : Routing Conn) := by
    refine ⟨⟨by rw [hempty]; simp, ?_, ?_, ?_, fun hne => absurd hempty hne⟩, fun k => ?_⟩
    · intro l hl
      exact absurd hl (by simp [Routing.pool, RedisClient.getCurChannelPool])
    · rw [hempty]; rfl
    · rw [hempty]; rfl
    · rw [hempty]; rfl
  unfold RedisClient.construct at h₀
  cases first with
  | initFailed => exact absurd h₀ (by simp [RedisClient.initChannelPool])
  | rpcFailed =>
    obtain rfl : {} = c₀ := by simpa [RedisClient.initChannelPool] using h₀
    exact hnew
  | error =>
    obtain rfl : {} = c₀ := by simpa [RedisClient.initChannelPool] using h₀
    exact hnew
  | text data unset =>
    cases hi : RedisClient.initChannelPool fuel env {} 0 (.text data unset) with
    | none => rw [hi] at h₀; exact absurd h₀ (by simp)
    | some r =>
      rw [hi] at h₀
      cases r with
      | error e => exact absurd h₀ (by simp)
      | ok c =>
        obtain rfl : c = c₀ := by simpa using h₀
        exact steady_new hf (hwf data unset rfl) hi

/-- **Successful refreshes**: in any history of well-formed replies the pool in use is, after
each of them, the one that a new client builds from it, exactly when each reply that
makes the loop rebuild claims the slots that are set in the pool rebuilt. -/
theorem refreshes_fresh_iff (hf : 16384 < fuel) {first : NodesReply} {c₀ : RedisClient Conn}
    (h₀ : RedisClient.construct fuel env first = some (.ok c₀))
    (hwf : ∀ data unset, first = .text data unset → ∀ node ∈ replyNodes data, node.WellFormed)
    (replies : List ClusterReply) :
    Machine.Always (Routing.step fuel env) (Routing.LikeFresh fuel env) ⟨c₀, first.data⟩ replies ↔
      Machine.Along (Routing.step fuel env) Routing.Overwrites ⟨c₀, first.data⟩ replies := by
  obtain ⟨hst, hset⟩ := construct_first hf h₀ hwf
  constructor
  · refine Machine.along_of_always (fun w => w.Steady env) (fun w reply w' hw h => (hw.step hf h).1) ?_
      replies _ hst
    intro w reply w' hw h hfresh
    obtain ⟨hw', ⟨hc, -⟩ | ⟨-, hiff⟩⟩ := hw.step hf h
    · exact fun hch => absurd hch hc
    · exact hiff.1 ((hw'.likeFresh_iff hf).1 hfresh)
  · refine Machine.always_of_along (fun w => w.Steady env ∧ w.Settled)
      (fun w hw => (hw.1.likeFresh_iff hf).2 hw.2) ?_ replies _ ⟨hst, hset⟩
    rintro w reply w' ⟨hw, hs⟩ hover h
    obtain ⟨hw', ⟨-, hiff⟩ | ⟨-, hiff⟩⟩ := hw.step hf h
    · exact ⟨hw', hiff.2 hs⟩
    · exact ⟨hw', hiff.2 hover⟩

end Replies

/-! ## Slots that are no longer claimed -/

section Stale

theorem replyNodes_six : replyNodes (masterLine "6".toList) =
    [⟨masterLine "6".toList, "a".toList, "1.1.1.1".toList, some 1, [(6, 6)]⟩] := by decide

theorem replyNodes_seven : replyNodes (masterLine "7".toList) =
    [⟨masterLine "7".toList, "a".toList, "1.1.1.1".toList, some 1, [(7, 7)]⟩] := by decide

theorem replyNodes_wide : replyNodes (masterLine "5-7".toList) =
    [⟨masterLine "5-7".toList, "a".toList, "1.1.1.1".toList, some 1, [(5, 7)]⟩] := by decide

/-- The master moves to slot 6, … -/
def six : ClusterReply where
  data := masterLine "6".toList
  unset := fun _ => 0
  wellFormed := by
    rw [replyNodes_six, List.forall_mem_singleton]
    exact ⟨⟨1, rfl, Or.inl (by decide)⟩, List.forall_mem_singleton.2 (by decide)⟩

/-- … to slot 7, … -/
def seven : ClusterReply where
  data := masterLine "7".toList
  unset := fun _ => 0
  wellFormed := by
    rw [replyNodes_seven, List.forall_mem_singleton]
    exact ⟨⟨1, rfl, Or.inl (by decide)⟩, List.forall_mem_singleton.2 (by decide)⟩

/-- … or takes slots 5 to 7. -/
def wide : ClusterReply where
  data := masterLine "5-7".toList
  unset := fun _ => 0
  wellFormed := by
    rw [replyNodes_wide, List.forall_mem_singleton]
    exact ⟨⟨1, rfl, Or.inl (by decide)⟩, List.forall_mem_singleton.2 (by decide)⟩

variable {w : Routing Conn}

/-- Nodes that are read differently are noticed. -/
theorem Routing.Steady.changed (hw : w.Steady env) {data : Str}
    (hne : (replyNodes w.latest).map NodeInfo.sig ≠ (replyNodes data).map NodeInfo.sig) : w.client.Changed data := by
  by_contra hc
  refine hne ?_
  rw [← hw.sig, ← nodesOf_keptLines data]
  refine sig_eq_of_unchanged hw.kept (kept_keptLines data) ?_
  rw [← Bool.not_eq_true]
  exact hc

/-- A client that has seen slot 5 and then slot 6: the pool not in use still holds slot 5. -/
theorem five_six : ∃ c₀ c₁,
    RedisClient.construct 16385 oneConnection (.text (masterLine "5".toList) fun _ => 0) = some (.ok c₀) ∧
      c₀.bak = {} ∧ Routing.step 16385 oneConnection ⟨c₀, masterLine "5".toList⟩ six = some ⟨c₁, six.data⟩ ∧
      Routing.Steady oneConnection ⟨c₁, six.data⟩ ∧
      ∀ k, get (-1) c₁.bak.slotIpportIndexVec k = if k = 5 then 0 else -1 := by
  have hf : 16384 < 16385 := by decide
  obtain ⟨c₀, hinit⟩ := initChannelPool_total hf wellFormed_five (fun _ => oneConnection_builds)
    ({} : RedisClient Unit) 0 fun _ => 0
  obtain ⟨hst, hset⟩ := steady_new hf wellFormed_five hinit
  obtain ⟨c₁, hupd⟩ := updateChannelPool_total hf six.wellFormed (fun _ => oneConnection_builds) c₀ six.unset
  have hstep : Routing.step 16385 oneConnection ⟨c₀, masterLine "5".toList⟩ six = some ⟨c₁, six.data⟩ := by
    unfold Routing.step
    simp only [hupd]
  refine ⟨c₀, c₁, by unfold RedisClient.construct; rw [hinit], ?_, hstep, (hst.step hf hstep).1, fun k => ?_⟩
  · rcases initChannelPool_text hinit with ⟨-, heq⟩ | ⟨-, ⟨e, he⟩ | ⟨pool, -, heq⟩⟩
    · rw [Except.ok.injEq] at heq; rw [heq]; rfl
    · exact absurd he (by simp)
    · rw [Except.ok.injEq] at heq; rw [heq]; rfl
  · rcases updateChannelPool_text hupd with ⟨hc, -⟩ | ⟨-, -, -, hbak, -⟩
    · have hdiff : (replyNodes (masterLine "5".toList)).map NodeInfo.sig ≠ (replyNodes six.data).map NodeInfo.sig := by
        decide
      exact absurd (hst.changed hdiff) hc
    · rw [hbak]
      refine (hset k).trans ?_
      rw [replyNodes_five]
      have hcov : covers [(5, 5)] k = decide (5 ≤ k ∧ k ≤ 5) := by simp [covers]
      simp only [lastIdx, hcov, decide_eq_true_eq]
      by_cases hk : k = 5
      · rw [if_pos (by omega), if_pos hk]
        rfl
      · rw [if_neg (by omega), if_neg hk]

/-- **Slot 5 comes back**: after the replies for slots 5, 6 and 7 the pool in use sends slot 5
to the master, which has given it up. -/
theorem refreshes_stale : ∃ c₀,
    RedisClient.construct 16385 oneConnection (.text (masterLine "5".toList) fun _ => 0) = some (.ok c₀) ∧
      ¬Machine.Always (Routing.step 16385 oneConnection) (Routing.LikeFresh 16385 oneConnection)
        ⟨c₀, masterLine "5".toList⟩ [six, seven] := by
  obtain ⟨c₀, c₁, h₀, -, hstep, hst, hbak⟩ := five_six
  have hf : 16384 < 16385 := by decide
  refine ⟨c₀, h₀, fun halways => ?_⟩
  obtain ⟨c₂, hupd⟩ := updateChannelPool_total hf seven.wellFormed (fun _ => oneConnection_builds) c₁ seven.unset
  have hstep₂ : Routing.step 16385 oneConnection ⟨c₁, six.data⟩ seven = some ⟨c₂, seven.data⟩ := by
    unfold Routing.step
    simp only [hupd]
  have hfresh : Routing.LikeFresh 16385 oneConnection ⟨c₂, seven.data⟩ :=
    (halways.2 _ hstep).2 _ hstep₂
  have hdiff : (replyNodes six.data).map NodeInfo.sig ≠ (replyNodes seven.data).map NodeInfo.sig := by decide
  have hchanged : c₁.Changed seven.data := hst.changed hdiff
  obtain ⟨hst₂, ⟨hc, -⟩ | ⟨-, hiff⟩⟩ := hst.step hf hstep₂
  · exact hc hchanged
  · obtain ⟨node, hn, hcov⟩ := hiff.1 ((hst₂.likeFresh_iff hf).1 hfresh) hchanged 5 (by decide) (by rw [hbak]; decide)
    have hn' : node ∈ replyNodes (masterLine "7".toList) := hn
    rw [replyNodes_seven, List.mem_singleton] at hn'
    rw [hn'] at hcov
    exact absurd hcov (by decide)

/-- Slots 5 and 6 are claimed by the third reply: the condition holds. -/
theorem refreshes_fresh_wide : ∃ c₀,
    RedisClient.construct 16385 oneConnection (.text (masterLine "5".toList) fun _ => 0) = some (.ok c₀) ∧
      Machine.Always (Routing.step 16385 oneConnection) (Routing.LikeFresh 16385 oneConnection)
        ⟨c₀, masterLine "5".toList⟩ [six, wide] := by
  obtain ⟨c₀, c₁, h₀, hnone, hstep, -, hbak⟩ := five_six
  have hwf : ∀ data unset, NodesReply.text (masterLine "5".toList) (fun _ => 0) = .text data unset →
      ∀ node ∈ replyNodes data, node.WellFormed := by
    rintro data unset heq
    obtain ⟨rfl, -⟩ := NodesReply.text.inj heq
    exact wellFormed_five
  refine ⟨c₀, h₀, (refreshes_fresh_iff (by decide) h₀ hwf [six, wide]).2 ?_⟩
  intro w' hw'
  obtain rfl := Option.some.inj (hstep.symm.trans hw')
  refine ⟨fun _ k _ hne => ?_, fun w'' _ => ⟨fun _ k _ hne => ?_, trivial⟩⟩
  · simp only at hne
    rw [hnone] at hne
    exact absurd rfl hne
  · simp only at hne
    rw [hbak k] at hne
    have hk : k = 5 := by
      by_contra hk
      rw [if_neg hk] at hne
      exact hne rfl
    have hn : replyNodes wide.data = _ := replyNodes_wide
    rw [hn, hk]
    exact ⟨_, List.mem_cons_self, by decide⟩

end Stale

end Graphize
