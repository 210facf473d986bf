import Graphize.Proof.ClusterText
import Graphize.Proof.BorrowCounts
import Graphize.Proof.Lending

/-!
# Routing while the owners stay

A client is used by many requests and refreshed again and again. As long as every reply
describes the same owners, a request finds a connection, and the server at its other end
owns the slot of the key.

* `Cluster.Routes`: what is right about a pool; `routes_built`: a built pool is right.
* `Cluster.Follows.request`, `Cluster.Follows.refresh`: what is right about a client stays.
* `Cluster.Follows.served`: a request is served.
* `describes_renderNodes`: the text that a cluster sends describes it.
-/

namespace Graphize

open Table

universe u

variable {Conn : Type u}

/-- The masters of a cluster, by their addresses, and the owner of each slot. -/
structure Cluster where
  masters : List Str
  owner : ℕ → Option Str

/-- A reply describes the cluster: the nodes that are kept are masters of it, there is one,
and they claim each slot for its owner. -/
structure Cluster.Describes (cl : Cluster) (data : Str) : Prop where
  wellFormed : ∀ node ∈ replyNodes data, node.WellFormed
  kept : replyNodes data ≠ []
  masters : ∀ node ∈ replyNodes data, node.ipPort ∈ cl.masters
  claims : ∀ node ∈ replyNodes data, ∀ k, covers node.mSlots k = true → cl.owner k = some node.ipPort
  claimed : ∀ k e, cl.owner k = some e → ∃ node ∈ replyNodes data, covers node.mSlots k = true

/-- The builder always gives a connection. -/
def ConnectPool.Supplies (p : ConnectPool Conn) : Prop := ∀ n, ∃ conn, p.buildConnection n = .ok (some conn)

/-- A channel can be made for every address. -/
def RedisClientEnv.Connects (env : RedisClientEnv Conn) : Prop := ∀ ipPort n, (env.channel ipPort n).isSome

/-- The pool sends the keys of a slot to its owner, and keys without an owner to some master. -/
structure Cluster.Routes (cl : Cluster) (pool : ChannelPool Conn) : Prop where
  owned : ∀ k e, cl.owner k = some e → ∃ (i : ℕ) (hp : HostPool Conn), get (-1) pool.slotIpportIndexVec k = i ∧
    pool.mChannelList[i]? = some (some hp) ∧ hp.ipPort = e
  unowned : ∀ k, cl.owner k = none → get (-1) pool.slotIpportIndexVec k = -1
  first : ∃ hp : HostPool Conn, pool.mChannelList[0]? = some (some hp) ∧ hp.ipPort ∈ cl.masters
  supplies : ∀ hp, some hp ∈ pool.mChannelList → hp.pool.Supplies

/-- The pool in use routes, and the other one has nothing in it that would be left over. -/
structure Cluster.Follows (cl : Cluster) (c : RedisClient Conn) : Prop where
  cur : cl.Routes c.getCurChannelPool
  bak : ∀ k, cl.owner k = none → get (-1) c.bak.slotIpportIndexVec k = -1

section

variable {cl : Cluster} {env : RedisClientEnv Conn} {fuel : ℕ} {c c' : RedisClient Conn} {key : Bytes}

/-! ## Pools -/

theorem hostPool_supplies (hconn : env.Connects) {ipPort : Str} {p : ConnectPool Conn}
    (h : env.hostPool ipPort = some p) : p.Supplies := by
  obtain ⟨hfilled, -⟩ := construct_filled h (fun _ _ => True) trivial fun _ _ _ _ _ _ => trivial
  intro n
  rw [hfilled.same]
  obtain ⟨conn, hc⟩ := Option.isSome_iff_exists.1 (hconn ipPort n)
  exact ⟨conn, by show Except.ok (env.channel ipPort n) = _; rw [hc]⟩

/-- **A pool that has been built** from such a reply is right, if nothing is left over in its
table. -/
theorem routes_built (hconn : env.Connects) {data : Str} (hdata : cl.Describes data) {vec : List ℤ}
    {pool : ChannelPool Conn} (hbuilt : BuiltFor env (replyNodes data) vec pool)
    (hvec : ∀ k, cl.owner k = none → get (-1) vec k = -1) : cl.Routes pool := by
  have hentry : ∀ (i : ℕ) node, (replyNodes data)[i]? = some node →
      ∃ hp : HostPool Conn, pool.mChannelList[i]? = some (some hp) ∧ hp.ipPort = node.ipPort := by
    intro i node hi
    have hmap := congrArg (fun l => l[i]?) hbuilt.channels
    simp only [List.getElem?_map, hi, Option.map_some] at hmap
    obtain ⟨e, he, hsome⟩ := Option.map_eq_some_iff.1 hmap
    obtain ⟨hp, rfl, hip⟩ := Option.map_eq_some_iff.1 hsome
    exact ⟨hp, he, hip⟩
  refine ⟨fun k e hk => ?_, fun k hk => ?_, ?_, fun hp hmem => ?_⟩
  · -- the last node that claims the slot is its owner
    rw [hbuilt.slots k]
    rcases lastIdx_cases (fun node : NodeInfo => covers node.mSlots k) (get (-1) (resize 16384 (-1) vec) k)
      (replyNodes data) 0 with ⟨-, hno⟩ | ⟨i, node, hi, hcov, hlast⟩
    · obtain ⟨node, hnode, hcov⟩ := hdata.claimed k e hk
      rw [hno node hnode] at hcov
      cases hcov
    · obtain ⟨hp, hget, hip⟩ := hentry i node hi
      have howner := hdata.claims node (List.mem_of_getElem? hi) k hcov
      rw [hk, Option.some.injEq] at howner
      exact ⟨i, hp, by rw [hlast, Nat.zero_add], hget, by rw [hip, howner]⟩
  · have hno : ∀ node ∈ replyNodes data, covers node.mSlots k = false := by
      intro node hnode
      by_contra hcov
      rw [Bool.not_eq_false] at hcov
      rw [hdata.claims node hnode k hcov] at hk
      cases hk
    rw [hbuilt.slots k, lastIdx_of_none hno, get_resize]
    split
    · exact hvec k hk
    · rfl
  · obtain ⟨node, nodes, hnodes⟩ := List.exists_cons_of_ne_nil hdata.kept
    obtain ⟨hp, hget, hip⟩ := hentry 0 node (by rw [hnodes]; rfl)
    refine ⟨hp, hget, ?_⟩
    rw [hip]
    exact hdata.masters node (by rw [hnodes]; exact List.mem_cons_self)
  · exact hostPool_supplies hconn (hbuilt.pools hp hmem)

/-- Where a key is sent. -/
theorem Cluster.Routes.entry (h : cl.Routes c.getCurChannelPool) (key : Bytes) :
    ∃ hp, c.getCurChannelPool.mChannelList[c.getCurChannelPool.getKeyNodeIndex key]? = some (some hp) ∧
      c.fetchHost key = some hp ∧ (∀ e, cl.owner (getKeySlot key).toNat = some e → hp.ipPort = e) ∧
      (cl.owner (getKeySlot key).toNat = none → hp.ipPort ∈ cl.masters) := by
  have hhost : ∀ hp : HostPool Conn,
      c.getCurChannelPool.mChannelList[c.getCurChannelPool.getKeyNodeIndex key]? = some (some hp) →
      c.fetchHost key = some hp := by
    intro hp hget
    unfold RedisClient.fetchHost ChannelPool.connectionHost
    simp only [hget]
    rfl
  cases howner : cl.owner (getKeySlot key).toNat with
  | some e =>
    obtain ⟨i, hp, hslot, hget, hip⟩ := h.owned _ e howner
    rw [getKeyNodeIndex_of_get hslot] at hhost ⊢
    refine ⟨hp, hget, hhost hp hget, fun e' he' => ?_, fun hnone => by cases hnone⟩
    rw [hip]
    exact Option.some.inj he'
  | none =>
    have hindex : c.getCurChannelPool.getKeyNodeIndex key = 0 := by
      rw [getKeyNodeIndex_get, h.unowned _ howner, if_pos rfl]
    obtain ⟨hp, hget, hmem⟩ := h.first
    rw [hindex] at hhost ⊢
    exact ⟨hp, hget, hhost hp hget, fun e he => (by cases he), fun _ => hmem⟩

/-! ## Requests -/

theorem ConnectPool.release_build (p : ConnectPool Conn) (channel : Option Conn) :
    (p.release channel).2.buildConnection = p.buildConnection := by
  cases channel with
  | none => rfl
  | some conn =>
    unfold ConnectPool.release
    simp only
    split_ifs <;> rfl

/-- **A borrow from a pool that supplies** gives a connection. -/
theorem ConnectPool.Supplies.borrow {p : ConnectPool Conn} (h : p.Supplies) :
    (∃ conn size, p.borrow.1 = .ok (some conn, size)) ∧ p.borrow.2.buildConnection = p.buildConnection := by
  have hcount : ∀ q : ConnectPool Conn, q.countBorrow.buildConnection = q.buildConnection := by
    intro q
    unfold ConnectPool.countBorrow
    split <;> rfl
  unfold ConnectPool.borrow
  cases p.connList with
  | cons conn conns => exact ⟨⟨_, _, rfl⟩, hcount _⟩
  | nil =>
    obtain ⟨conn, hc⟩ := h p.calls
    simp only [hc]
    exact ⟨⟨_, _, rfl⟩, hcount _⟩

/-- What a request leaves of the pool in use. -/
theorem Cluster.Routes.setHost {pool : ChannelPool Conn} (h : cl.Routes pool) {idx : ℕ} {hp : HostPool Conn}
    (hget : pool.mChannelList[idx]? = some (some hp)) {p : ConnectPool Conn}
    (hp' : p.buildConnection = hp.pool.buildConnection) : cl.Routes (pool.setHost idx { hp with pool := p }) := by
  have hlt := (List.getElem?_eq_some_iff.1 hget).1
  have hentry : ∀ (i : ℕ) (x : HostPool Conn), pool.mChannelList[i]? = some (some x) →
      ∃ y : HostPool Conn, (pool.mChannelList.set idx (some { hp with pool := p }))[i]? = some (some y) ∧
        y.ipPort = x.ipPort := by
    intro i x hx
    by_cases hi : idx = i
    · subst hi
      rw [hget, Option.some.injEq, Option.some.injEq] at hx
      exact ⟨_, List.getElem?_set_self hlt, by rw [← hx]⟩
    · exact ⟨x, by rw [List.getElem?_set_ne hi, hx], rfl⟩
  refine ⟨fun k e hk => ?_, h.unowned, ?_, fun x hx => ?_⟩
  · obtain ⟨i, x, hslot, hx, hip⟩ := h.owned k e hk
    obtain ⟨y, hy, hsame⟩ := hentry i x hx
    exact ⟨i, y, hslot, hy, hsame.trans hip⟩
  · obtain ⟨x, hx, hmem⟩ := h.first
    obtain ⟨y, hy, hsame⟩ := hentry 0 x hx
    exact ⟨y, hy, by rw [hsame]; exact hmem⟩
  · rcases List.mem_or_eq_of_mem_set hx with hx | hx
    · exact h.supplies x hx
    · rw [Option.some.injEq] at hx
      subst hx
      intro n
      obtain ⟨conn, hc⟩ := h.supplies hp (List.mem_of_getElem? hget) n
      exact ⟨conn, by rw [hp', hc]⟩

/-- The pool that is not in use is left alone. -/
theorem Cluster.Follows.setCur (h : cl.Follows c) {pool : ChannelPool Conn} (hpool : cl.Routes pool) :
    cl.Follows (c.setCurChannelPool pool) := by
  refine ⟨?_, fun k hk => ?_⟩
  · have hcur : (c.setCurChannelPool pool).getCurChannelPool = pool := Function.update_self ..
    rw [hcur]
    exact hpool
  · have hbak : (c.setCurChannelPool pool).bak = c.bak := Function.update_of_ne (one_sub_ne c.poolIndex) ..
    rw [hbak]
    exact h.bak k hk

/-- **A request is served**: it returns 0, it reaches the owner of the slot, or some master
if nobody owns it, and the client is as good as before. -/
theorem Cluster.Follows.served (h : cl.Follows c) (key : Bytes) : ∃ hp c', c.fetchHost key = some hp ∧
    (∀ e, cl.owner (getKeySlot key).toNat = some e → hp.ipPort = e) ∧
    (cl.owner (getKeySlot key).toNat = none → hp.ipPort ∈ cl.masters) ∧ c.request key = some (.ok 0, c') ∧
    cl.Follows c' := by
  obtain ⟨hp, hget, hhost, howner, hmaster⟩ := h.cur.entry key
  obtain ⟨⟨conn, size, hborrow⟩, hbuild⟩ := (h.cur.supplies hp (List.mem_of_getElem? hget)).borrow
  have hlt := (List.getElem?_eq_some_iff.1 hget).1
  have hserve : (hp.pool.borrow.2.release (some conn)).2.buildConnection = hp.pool.buildConnection := by
    rw [ConnectPool.release_build, hbuild]
  refine ⟨hp, _, hhost, howner, hmaster, ?_, h.setCur (h.cur.setHost hget hserve)⟩
  unfold RedisClient.request
  simp only [ChannelPool.getConnection_host hget, hborrow, Except.map, ChannelPool.freeConnection_host hlt]

theorem Cluster.Follows.request (h : cl.Follows c) {ret : Except Str Int32} (hreq : c.request key = some (ret, c')) :
    cl.Follows c' := by
  obtain ⟨hp, c'', -, -, -, hserved, hfollows⟩ := h.served key
  rw [hreq, Option.some.injEq, Prod.mk.injEq] at hserved
  rw [hserved.2]
  exact hfollows

/-! ## Refreshes -/

/-- The table of the pool that is not in use is not touched by a reply without a change. -/
theorem bak_of_unchanged {data : Str} {unset : ℕ → UInt16} (hsame : ¬c.Changed data)
    (hupdate : c.updateChannelPool fuel env (.text data unset) = some (.ok c')) :
    c'.bak.slotIpportIndexVec = c.bak.slotIpportIndexVec := by
  unfold RedisClient.updateChannelPool at hupdate
  simp only at hupdate
  cases hi : RedisClient.initChannelPool fuel env c (1 - c.poolIndex) (.text data unset) with
  | none =>
    rw [hi] at hupdate
    cases hupdate
  | some r =>
    rw [hi] at hupdate
    rcases initChannelPool_text hi with ⟨hc, rfl⟩ | ⟨hc, -⟩
    · simp only [changed_update, hc, Bool.false_eq_true, if_false, Option.some.injEq, Except.ok.injEq] at hupdate
      subst hupdate
      unfold RedisClient.bak
      simp only [Function.update_self]
    · rw [one_sub_one_sub] at hc
      exact absurd hc hsame

/-- **A refresh** that describes the same owners. -/
theorem Cluster.Follows.refresh (hf : 16384 < fuel) (hconn : env.Connects) (h : cl.Follows c) {data : Str}
    {unset : ℕ → UInt16} (hdata : cl.Describes data)
    (hupdate : c.updateChannelPool fuel env (.text data unset) = some (.ok c')) : cl.Follows c' := by
  rcases updateChannelPool_text hupdate with ⟨hsame, hcur, -, -⟩ | ⟨-, -, -, hbak, hbuild⟩
  · refine ⟨by rw [hcur]; exact h.cur, fun k hk => ?_⟩
    rw [bak_of_unchanged hsame hupdate]
    exact h.bak k hk
  · -- the other pool is rebuilt and used
    refine ⟨routes_built hconn hdata (build_spec hf hdata.wellFormed hbuild) h.bak, fun k hk => ?_⟩
    rw [hbak]
    exact h.cur.unowned k hk

/-- … which the loop survives, if pools can be built. -/
theorem Cluster.Describes.refreshed (hf : 16384 < fuel) (hb : env.Builds) {data : Str} (hdata : cl.Describes data)
    (c : RedisClient Conn) (unset : ℕ → UInt16) : ∃ c', c.updateChannelPool fuel env (.text data unset) = some (.ok c') :=
  updateChannelPool_total hf hdata.wellFormed (fun _ => hb) c unset

/-- **A new client** that has got such a reply. -/
theorem follows_construct (hf : 16384 < fuel) (hconn : env.Connects) (hb : env.Builds) {data : Str}
    (hdata : cl.Describes data) (unset : ℕ → UInt16) :
    ∃ c, RedisClient.construct fuel env (.text data unset) = some (.ok c) ∧ cl.Follows c := by
  obtain ⟨c, hc, -, hbuilt⟩ := construct_built hf hb hdata.wellFormed unset
  have hbak : c.bak = {} := by
    unfold RedisClient.construct at hc
    cases hi : RedisClient.initChannelPool fuel env {} 0 (.text data unset) with
    | none =>
      rw [hi] at hc
      cases hc
    | some r =>
      rw [hi] at hc
      rcases initChannelPool_text hi with ⟨-, rfl⟩ | ⟨-, ⟨e, rfl⟩ | ⟨pool, -, rfl⟩⟩
      · obtain rfl : _ = c := by simpa using hc
        rfl
      · cases hc
      · obtain rfl : _ = c := by simpa using hc
        rfl
  refine ⟨c, hc, routes_built hconn hdata hbuilt fun k _ => rfl, fun k _ => ?_⟩
  rw [hbak]
  rfl

end

/-! ## The text of a cluster -/

/-- The cluster that the records describe. -/
def Cluster.ofRecords (records : List NodeRecord) : Cluster where
  masters := (keptRecords records).map NodeRecord.endpoint
  owner k := ((keptRecords records).find? fun r => covers r.node.mSlots k).map NodeRecord.endpoint

/-- **The text of the records** describes it, if no slot is claimed for two addresses. -/
theorem describes_renderNodes {records : List NodeRecord} (hne : keptRecords records ≠ [])
    (hone : ∀ r ∈ keptRecords records, ∀ r' ∈ keptRecords records, ∀ k, r.Claims k → r'.Claims k →
      r.endpoint = r'.endpoint) : (Cluster.ofRecords records).Describes (renderNodes records) := by
  have hclaims : ∀ (r : NodeRecord) k, covers r.node.mSlots k = true ↔ r.Claims k := fun r k => covers_pairs r.slots k
  refine ⟨fun node hnode => ?_, ?_, fun node hnode => ?_, fun node hnode k hcov => ?_, fun k e hk => ?_⟩
  · rw [replyNodes_render] at hnode
    obtain ⟨r, -, rfl⟩ := List.mem_map.1 hnode
    exact r.wellFormed_node
  · rw [replyNodes_render]
    exact fun h => hne (List.map_eq_nil_iff.1 h)
  · rw [replyNodes_render] at hnode
    obtain ⟨r, hr, rfl⟩ := List.mem_map.1 hnode
    rw [r.ipPort_node]
    exact List.mem_map_of_mem hr
  · rw [replyNodes_render] at hnode
    obtain ⟨r, hr, rfl⟩ := List.mem_map.1 hnode
    -- the first record that claims the slot
    have hsome : ((keptRecords records).find? fun r => covers r.node.mSlots k).isSome :=
      List.find?_isSome.2 ⟨r, hr, hcov⟩
    obtain ⟨r', hr'⟩ := Option.isSome_iff_exists.1 hsome
    have hclaim' := (hclaims r' k).1 (List.find?_some (p := fun r : NodeRecord => covers r.node.mSlots k) hr')
    unfold Cluster.ofRecords
    simp only [hr', Option.map_some]
    rw [r.ipPort_node, hone r' (List.mem_of_find?_eq_some hr') r hr k hclaim' ((hclaims r k).1 hcov)]
  · unfold Cluster.ofRecords at hk
    obtain ⟨r, hr, -⟩ := Option.map_eq_some_iff.1 hk
    refine ⟨r.node, ?_, List.find?_some (p := fun r : NodeRecord => covers r.node.mSlots k) hr⟩
    rw [replyNodes_render]
    exact List.mem_map_of_mem (List.mem_of_find?_eq_some hr)

end Graphize
