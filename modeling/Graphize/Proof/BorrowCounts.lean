import Graphize.Spec.RedisFetch
import Graphize.Lib.Machine
import Mathlib.Tactic.Common

/-!
# What a request leaves of the pools

`fetch` and `multi_fetch` borrow a connection and give it back at once. `borrow` counts
before it knows that the builder has given no connection, and a null connection is not
given back.

* `request_eq`: a request is one use of one pool.
* `serve_borrowSize_iff`: a use leaves the count as it was, unless the builder gives
  nothing.
* `borrow_counts_iff`: the same for every call, and for every sequence of calls.
-/

namespace Graphize

universe u

variable {Conn : Type u}

/-! ## One pool -/

namespace ConnectPool

/-- What a request does to the pool of its node: a borrow, and a return of what it gave. -/
def serve (p : ConnectPool Conn) : Except Str Int32 × ConnectPool Conn :=
  match p.borrow with
  | (.ok (some conn, _), p) => (.ok 0, (p.release (some conn)).2)
  | (.ok (none, _), p) => (.ok (-1), p)
  | (.error e, p) => (.error e, p)

/-- No connection is idle, and the builder gives none. -/
def Starved (p : ConnectPool Conn) : Prop := p.connList = [] ∧ p.buildConnection p.calls = .ok none

/-- No connection counts as lent, the pool is not busy, and it is meant to hold one at least. -/
structure AtRest (p : ConnectPool Conn) : Prop where
  borrowSize : p.borrowSize = 0
  busy : p.busy = 0
  poolSize : 1 ≤ p.poolSize

theorem countBorrow_borrowSize (p : ConnectPool Conn) : p.countBorrow.borrowSize = p.borrowSize + 1 := by
  unfold countBorrow
  split <;> rfl

theorem countBorrow_poolSize (p : ConnectPool Conn) : p.countBorrow.poolSize = p.poolSize := by
  unfold countBorrow
  split <;> rfl

theorem countBorrow_busy {p : ConnectPool Conn} (h : p.AtRest) : p.countBorrow.busy = 0 := by
  have hle : ¬p.borrowSize + 1 > p.poolSize := by
    rw [h.borrowSize, gt_iff_lt, UInt32.not_lt]
    exact h.poolSize
  unfold countBorrow
  rw [if_neg hle]

/-- A return only lowers the count, and may keep the connection. -/
theorem release_some (p : ConnectPool Conn) (conn : Conn) :
    (p.release (some conn)).2.borrowSize = p.borrowSize - 1 ∧ (p.release (some conn)).2.busy = p.busy ∧
      (p.release (some conn)).2.poolSize = p.poolSize := by
  unfold release
  simp only
  split
  · exact ⟨rfl, rfl, rfl⟩
  · split
    · exact ⟨rfl, rfl, rfl⟩
    · split
      · exact ⟨rfl, rfl, rfl⟩
      · exact ⟨rfl, rfl, rfl⟩

/-- **One use of a pool**: it is starved and the count is raised; or the count and the
size are as they were, and a pool at rest still is. -/
theorem serve_cases (p : ConnectPool Conn) :
    (p.Starved ∧ p.serve.2.borrowSize = p.borrowSize + 1) ∨
      (¬p.Starved ∧ p.serve.2.borrowSize = p.borrowSize ∧ (p.AtRest → p.serve.2.AtRest)) := by
  -- a borrow that gives a connection, and its return
  have hreturn : ∀ (q : ConnectPool Conn) (conn : Conn), q.borrowSize = p.borrowSize → q.busy = p.busy →
      q.poolSize = p.poolSize → (q.countBorrow.release (some conn)).2.borrowSize = p.borrowSize ∧
        (p.AtRest → (q.countBorrow.release (some conn)).2.AtRest) := by
    intro q conn h1 h2 h3
    obtain ⟨hsize, hbusy, hpool⟩ := release_some q.countBorrow conn
    have hcount : (q.countBorrow.release (some conn)).2.borrowSize = p.borrowSize := by
      rw [hsize, countBorrow_borrowSize, h1, UInt32.add_sub_cancel]
    refine ⟨hcount, fun hrest => ⟨hcount.trans hrest.borrowSize, ?_, ?_⟩⟩
    · rw [hbusy]
      exact countBorrow_busy ⟨h1.trans hrest.borrowSize, h2.trans hrest.busy, by rw [h3]; exact hrest.poolSize⟩
    · rw [hpool, countBorrow_poolSize, h3]
      exact hrest.poolSize
  unfold serve borrow Starved
  cases hidle : p.connList with
  | cons conn conns =>
    refine Or.inr ⟨fun h => absurd h.1 (by simp), ?_⟩
    exact hreturn { p with connList := conns } conn rfl rfl rfl
  | nil =>
    simp only
    cases hb : p.buildConnection p.calls with
    | error e =>
      refine Or.inr ⟨fun h => absurd h.2 (by simp), rfl, fun hrest => ⟨hrest.borrowSize, hrest.busy, hrest.poolSize⟩⟩
    | ok conn =>
      cases conn with
      | none => exact Or.inl ⟨⟨trivial, rfl⟩, countBorrow_borrowSize _⟩
      | some conn =>
        refine Or.inr ⟨fun h => absurd h.2 (by simp), ?_⟩
        have hq := hreturn { p with calls := p.calls + 1 } conn rfl rfl rfl
        rwa [hidle] at hq

theorem serve_borrowSize_iff (p : ConnectPool Conn) : p.serve.2.borrowSize = p.borrowSize ↔ ¬p.Starved := by
  rcases p.serve_cases with ⟨h, hsize⟩ | ⟨h, hsize, -⟩
  · refine iff_of_false (fun heq => ?_) fun hn => hn h
    rw [hsize] at heq
    have hnat := congrArg UInt32.toNat heq
    rw [UInt32.toNat_add] at hnat
    have h1 : (1 : UInt32).toNat = 1 := rfl
    have hlt := p.borrowSize.toNat_lt
    omega
  · exact iff_of_true hsize h

end ConnectPool

/-! ## One call -/

/-- A call on the client. -/
inductive RedisCall
  | fetch (key : Bytes)
  | multiFetch (data : List Bytes) (startIndex endIndex : ℕ)

/-- The key that decides the node, if the call has one. -/
def RedisCall.key? : RedisCall → Option Bytes
  | fetch key => some key
  | multiFetch data startIndex endIndex => if min endIndex data.length < startIndex then none else data[startIndex]?

/-- The pool at `idx` replaced. -/
def ChannelPool.setHost (pool : ChannelPool Conn) (idx : ℕ) (hp : HostPool Conn) : ChannelPool Conn :=
  { pool with mChannelList := pool.mChannelList.set idx (some hp) }

theorem ChannelPool.getConnection_host {pool : ChannelPool Conn} {idx : ℕ} {hp : HostPool Conn}
    (h : pool.mChannelList[idx]? = some (some hp)) : pool.getConnection idx =
      some (hp.pool.borrow.1.map Prod.fst, pool.setHost idx { hp with pool := hp.pool.borrow.2 }) := by
  unfold ChannelPool.getConnection
  rw [h]
  simp only
  cases hp.pool.borrow.1 <;> rfl

theorem ChannelPool.freeConnection_host {pool : ChannelPool Conn} {idx : ℕ} {hp : HostPool Conn}
    (h : idx < pool.mChannelList.length) (channel : Option Conn) : (pool.setHost idx hp).freeConnection channel idx =
      some (pool.setHost idx { hp with pool := (hp.pool.release channel).2 }) := by
  unfold ChannelPool.freeConnection ChannelPool.setHost
  simp only [List.getElem?_set_self h, List.set_set]

/-- `_borrow_size` of each pool. -/
def ChannelPool.borrowSizes (pool : ChannelPool Conn) : List (Option UInt32) :=
  pool.mChannelList.map (Option.map fun host => host.pool.borrowSize)

namespace RedisClient

variable {c c' : RedisClient Conn} {r : Except Str Int32} {key : Bytes}

/-- What a call returns, and the client after it. -/
def call (c : RedisClient Conn) : RedisCall → Option (Except Str Int32 × RedisClient Conn)
  | .fetch key => c.fetch key
  | .multiFetch data startIndex endIndex => c.multiFetch data startIndex endIndex

/-- Every pool counts as many connections as in the other client. -/
def SameCounts (c c' : RedisClient Conn) : Prop := ∀ k, (c'.channelPoolVec k).borrowSizes = (c.channelPoolVec k).borrowSizes

/-- The pool that the call reaches has an idle connection, or its builder does not give a
null one. -/
def Supplied (c : RedisClient Conn) (call : RedisCall) : Prop :=
  ∀ key, call.key? = some key → ∀ hp, c.fetchHost key = some hp → ¬hp.pool.Starved

/-- Every pool is at rest. -/
def AtRest (c : RedisClient Conn) : Prop := ∀ k hp, some hp ∈ (c.channelPoolVec k).mChannelList → hp.pool.AtRest

theorem call_eq (c : RedisClient Conn) (call : RedisCall) : c.call call = call.key?.bind c.request := by
  cases call with
  | fetch key => rfl
  | multiFetch data startIndex endIndex =>
    have hcall : c.call (.multiFetch data startIndex endIndex) = c.multiFetch data startIndex endIndex := rfl
    have hkey : (RedisCall.multiFetch data startIndex endIndex).key? =
        if min endIndex data.length < startIndex then none else data[startIndex]? := rfl
    rw [hcall, hkey]
    unfold RedisClient.multiFetch
    by_cases hrange : min endIndex data.length < startIndex
    · rw [if_pos hrange, if_pos hrange]
      rfl
    · rw [if_neg hrange, if_neg hrange]
      cases data[startIndex]? with
      | none => rfl
      | some key => rfl

theorem setCurChannelPool_self (c : RedisClient Conn) : c.setCurChannelPool c.getCurChannelPool = c := by
  unfold setCurChannelPool getCurChannelPool
  rw [Function.update_eq_self]

/-- **A request** that returns: the key reaches no pool and nothing changes, or one pool is
used. -/
theorem request_eq (h : c.request key = some (r, c')) :
    (c.fetchHost key = none ∧ c' = c) ∨
      ∃ idx hp, c.fetchHost key = some hp ∧ c.getCurChannelPool.mChannelList[idx]? = some (some hp) ∧
        c' = c.setCurChannelPool (c.getCurChannelPool.setHost idx { hp with pool := hp.pool.serve.2 }) := by
  unfold request at h
  unfold fetchHost ChannelPool.connectionHost
  simp only at h ⊢
  cases he : c.getCurChannelPool.mChannelList[c.getCurChannelPool.getKeyNodeIndex key]? with
  | none =>
    have hget : c.getCurChannelPool.getConnection (c.getCurChannelPool.getKeyNodeIndex key) =
        some (.ok none, c.getCurChannelPool) := by
      unfold ChannelPool.getConnection
      rw [he]
    simp only [hget, Option.some.injEq, Prod.mk.injEq, setCurChannelPool_self] at h
    exact Or.inl ⟨rfl, h.2.symm⟩
  | some e =>
    cases e with
    | none =>
      -- the entry is a null pointer, which is dereferenced: the request does not return
      have hget : c.getCurChannelPool.getConnection (c.getCurChannelPool.getKeyNodeIndex key) = none := by
        unfold ChannelPool.getConnection
        rw [he]
      rw [hget] at h
      exact absurd h (by simp)
    | some hp =>
      refine Or.inr ⟨_, hp, rfl, he, ?_⟩
      have hlt := (List.getElem?_eq_some_iff.1 he).1
      rw [ChannelPool.getConnection_host he] at h
      unfold ConnectPool.serve
      -- a failed borrow and a null connection leave what the borrow left; otherwise it is returned
      generalize hp.pool.borrow = b at h ⊢
      obtain ⟨result, p⟩ := b
      cases result with
      | error e => exact (Prod.mk.inj (Option.some.inj h)).2.symm
      | ok res =>
        obtain ⟨channel, size⟩ := res
        cases channel with
        | none => exact (Prod.mk.inj (Option.some.inj h)).2.symm
        | some conn =>
          simp only [Except.map, ChannelPool.freeConnection_host hlt, Option.some.injEq, Prod.mk.injEq] at h
          exact h.2.symm

/-- Replacing a pool leaves the counts exactly if its own count is the same. -/
theorem sameCounts_setHost_iff {idx : ℕ} {hp hp' : HostPool Conn}
    (h : c.getCurChannelPool.mChannelList[idx]? = some (some hp)) :
    c.SameCounts (c.setCurChannelPool (c.getCurChannelPool.setHost idx hp')) ↔ hp'.pool.borrowSize = hp.pool.borrowSize := by
  have hlt := (List.getElem?_eq_some_iff.1 h).1
  have hsizes : (c.getCurChannelPool.setHost idx hp').borrowSizes =
      c.getCurChannelPool.borrowSizes.set idx (some hp'.pool.borrowSize) := by
    unfold ChannelPool.borrowSizes ChannelPool.setHost
    rw [List.map_set]
    rfl
  have hold : c.getCurChannelPool.borrowSizes[idx]? = some (some hp.pool.borrowSize) := by
    unfold ChannelPool.borrowSizes
    rw [List.getElem?_map, h]
    rfl
  unfold SameCounts setCurChannelPool
  simp only
  constructor
  · intro hsame
    -- only the current pool was replaced
    have hcur := hsame c.poolIndex
    rw [Function.update_self, hsizes] at hcur
    have hget := congrArg (fun l => l[idx]?) hcur
    have hold' : (c.channelPoolVec c.poolIndex).borrowSizes[idx]? = some (some hp.pool.borrowSize) := hold
    simp only [hold', List.getElem?_set_self (List.getElem?_eq_some_iff.1 hold).1, Option.some.injEq] at hget
    exact hget
  · intro hcount k
    by_cases hk : k = c.poolIndex
    · rw [hk, Function.update_self, hsizes, hcount]
      obtain ⟨hidx, hval⟩ := List.getElem?_eq_some_iff.1 hold
      rw [← hval]
      exact List.set_getElem_self hidx
    · rw [Function.update_of_ne hk]

/-- **The counts after a request** are the counts before exactly when the pool used is not
starved. -/
theorem request_sameCounts_iff (h : c.request key = some (r, c')) :
    c.SameCounts c' ↔ ∀ hp, c.fetchHost key = some hp → ¬hp.pool.Starved := by
  rcases request_eq h with ⟨hnone, rfl⟩ | ⟨idx, hp, hhost, hidx, rfl⟩
  · rw [hnone]
    exact iff_of_true (fun _ => rfl) (by simp)
  · rw [hhost]
    simp only [Option.some.injEq, forall_eq']
    rw [← hp.pool.serve_borrowSize_iff]
    exact sameCounts_setHost_iff hidx

/-- Pools at rest stay at rest. -/
theorem request_atRest (h : c.request key = some (r, c')) (hs : ∀ hp, c.fetchHost key = some hp → ¬hp.pool.Starved)
    (hrest : c.AtRest) : c'.AtRest := by
  rcases request_eq h with ⟨hnone, rfl⟩ | ⟨idx, hp, hhost, hidx, rfl⟩
  · exact hrest
  · have hserved : hp.pool.serve.2.AtRest := by
      rcases hp.pool.serve_cases with ⟨hstarved, -⟩ | ⟨-, -, hserve⟩
      · exact absurd hstarved (hs hp hhost)
      · exact hserve (hrest c.poolIndex hp (List.mem_of_getElem? hidx))
    intro k hp' hmem
    unfold setCurChannelPool at hmem
    simp only at hmem
    by_cases hk : k = c.poolIndex
    · rw [hk, Function.update_self] at hmem
      unfold ChannelPool.setHost at hmem
      rcases List.mem_or_eq_of_mem_set hmem with hmem | heq
      · exact hrest c.poolIndex hp' hmem
      · rw [Option.some.inj heq]
        exact hserved
    · rw [Function.update_of_ne hk] at hmem
      exact hrest k hp' hmem

/-- A request to a pool returns. -/
theorem request_returns {hp : HostPool Conn} (h : c.fetchHost key = some hp) : ∃ r c', c.request key = some (r, c') := by
  unfold fetchHost ChannelPool.connectionHost at h
  simp only at h
  rw [Option.join_eq_some_iff] at h
  have hlt := (List.getElem?_eq_some_iff.1 h).1
  unfold request
  simp only [ChannelPool.getConnection_host h]
  generalize hp.pool.borrow = b
  obtain ⟨result, p⟩ := b
  cases result with
  | error e => exact ⟨_, _, rfl⟩
  | ok res =>
    obtain ⟨channel, size⟩ := res
    cases channel with
    | none => exact ⟨_, _, rfl⟩
    | some conn =>
      simp only [Except.map, ChannelPool.freeConnection_host hlt]
      exact ⟨_, _, rfl⟩

/-- The client after a call. -/
def step (c : RedisClient Conn) (call : RedisCall) : Option (RedisClient Conn) := (c.call call).map Prod.snd

theorem step_inv {call : RedisCall} (h : c.step call = some c') : ∃ key r, call.key? = some key ∧ c.request key = some (r, c') := by
  unfold step at h
  rw [call_eq] at h
  obtain ⟨⟨r, c'⟩, hcall, rfl⟩ := Option.map_eq_some_iff.1 h
  obtain ⟨key, hkey, hreq⟩ := Option.bind_eq_some_iff.1 hcall
  exact ⟨key, r, hkey, hreq⟩

/-- **When calls leave the counts**: a call does exactly when it does not find the pool
empty and the builder without a connection; along a sequence of such calls every pool
counts what it counted at first, and pools at rest stay at rest. -/
theorem borrow_counts_iff (c : RedisClient Conn) :
    (∀ call, (∀ r c', c.call call = some (r, c') → c.SameCounts c') ↔ c.Supplied call) ∧
    ∀ calls, Machine.Along step Supplied c calls →
      Machine.Always step c.SameCounts c calls ∧ (c.AtRest → Machine.Always step AtRest c calls) := by
  constructor
  · intro call
    constructor
    · intro h key hkey hp hhost
      obtain ⟨r, c', hreq⟩ := request_returns hhost
      have hsame := h r c' (by rw [call_eq, hkey]; exact hreq)
      exact (request_sameCounts_iff hreq).1 hsame hp hhost
    · intro h r c' hcall
      rw [call_eq] at hcall
      obtain ⟨key, hkey, hreq⟩ := Option.bind_eq_some_iff.1 hcall
      exact (request_sameCounts_iff hreq).2 (h key hkey)
  · intro calls hsupplied
    constructor
    · refine Machine.always_of_along c.SameCounts (fun _ h => h) ?_ calls c (fun _ => rfl) hsupplied
      intro c₁ call c₂ hsame hs hstep
      obtain ⟨key, r, hkey, hreq⟩ := step_inv hstep
      have hone := (request_sameCounts_iff hreq).2 (hs key hkey)
      exact fun k => (hone k).trans (hsame k)
    · intro hrest
      refine Machine.always_of_along AtRest (fun _ h => h) ?_ calls c hrest hsupplied
      intro c₁ call c₂ hrest hs hstep
      obtain ⟨key, r, hkey, hreq⟩ := step_inv hstep
      exact request_atRest hreq (hs key hkey) hrest

/-- A client with one pool, which has a connection. -/
def idleChannel : RedisClient Unit where
  channelPoolVec _ :=
    { mChannelList := [some ⟨"h:1".toList,
        { connList := [()], buildConnection := fun _ => .ok none, calls := 1, poolSize := 1, maxSize := 100 }⟩] }
  poolIndex := ⟨0, Nat.two_pos⟩

/-- A call borrows it and gives it back. -/
theorem borrow_counts_idle : ∃ r c, idleChannel.call (.fetch []) = some (r, c) ∧ idleChannel.SameCounts c := by
  have hhost : idleChannel.fetchHost [] = some ⟨"h:1".toList,
      { connList := [()], buildConnection := fun _ => .ok none, calls := 1, poolSize := 1, maxSize := 100 }⟩ := rfl
  have hsupplied : idleChannel.Supplied (.fetch []) := by
    intro key hkey hp hhp hstarved
    obtain rfl := Option.some.inj hkey
    rw [hhost] at hhp
    obtain rfl := Option.some.inj hhp
    exact List.cons_ne_nil _ _ hstarved.1
  obtain ⟨r, c, hreq⟩ := request_returns hhost
  have hcall : idleChannel.call (.fetch []) = some (r, c) := by
    rw [call_eq]
    exact hreq
  exact ⟨r, c, hcall, ((borrow_counts_iff idleChannel).1 (.fetch [])).2 hsupplied r c hcall⟩

/-- A client with one pool, for an address that `brpc::Channel::Init` does not take. -/
def noChannel : RedisClient Unit where
  channelPoolVec _ :=
    { mChannelList := [some ⟨"h:1".toList, { buildConnection := fun _ => .ok none, calls := 1, poolSize := 1, maxSize := 100 }⟩] }
  poolIndex := ⟨0, Nat.two_pos⟩

/-- **A request that fails for want of a connection** is counted as a loan for good. -/
theorem borrow_counts_leak : ¬∀ (c : RedisClient Unit) (key : Bytes) r c', c.fetch key = some (r, c') → c.SameCounts c' := by
  intro h
  have hhost : noChannel.fetchHost [] = some ⟨"h:1".toList,
      { buildConnection := fun _ => .ok none, calls := 1, poolSize := 1, maxSize := 100 }⟩ := rfl
  obtain ⟨r, c', hreq⟩ := request_returns hhost
  exact (request_sameCounts_iff hreq).1 (h noChannel [] r c' hreq) _ hhost ⟨rfl, rfl⟩

end RedisClient

end Graphize
