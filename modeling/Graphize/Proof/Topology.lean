import Graphize.Proof.SlotTable

/-!
# One refresh of the topology

* `linesChanged_comm`, `sig_eq_of_unchanged`: what `is_channel_pool_changed` compares is
  what the slots and the channels are built from.
* `channels_ok_iff`: the channels can be built if their pools are small enough, or none has one.
* `build_inv`, `build_spec`: the slots and the channels that a list of nodes is given.
* `updateChannelPool_text`: one round of the refresh loop that gets a reply.
-/

namespace Graphize

open Table

universe u v

/-! ## Comparing lines -/

theorem fieldsChanged_comm (l l' : Str) : fieldsChanged l l' = fieldsChanged l' l := by
  unfold fieldsChanged
  rw [decide_eq_decide]
  simp only [ne_eq, eq_comm (a := (splitCompress ' ' l).length), eq_comm (a := (splitCompress ' ' l)[0]?),
    eq_comm (a := (splitCompress ' ' l)[1]?), eq_comm (a := (splitCompress ' ' l).drop 8)]
  tauto

theorem linesChanged_comm (ls ls' : List Str) : linesChanged ls ls' = linesChanged ls' ls := by
  have hany : ∀ ls ls' : List Str, (ls.zip ls').any (fun l => fieldsChanged l.1 l.2) =
      (ls'.zip ls).any fun l => fieldsChanged l.1 l.2 := by
    intro ls
    induction ls with
    | nil => intro ls'; simp
    | cons l ls ih =>
      intro ls'
      cases ls' with
      | nil => rfl
      | cons l' ls' =>
        rw [List.zip_cons_cons, List.zip_cons_cons, List.any_cons, List.any_cons, ih, fieldsChanged_comm]
  unfold linesChanged
  rw [hany, decide_eq_decide, ne_comm]

/-- What is read of a node when the slots and the channels are built. -/
def NodeInfo.sig (node : NodeInfo) : Str × Option UInt16 × List (UInt32 × UInt32) :=
  (node.ip, node.port, node.mSlots)

/-- The ranges that `ParseSlotString` makes of tokens. -/
theorem mSlots_foldl : ∀ (slots : List Str) (node : NodeInfo),
    (slots.foldl NodeInfo.parseSlotString node).ip = node.ip ∧
      (slots.foldl NodeInfo.parseSlotString node).port = node.port ∧
      (slots.foldl NodeInfo.parseSlotString node).strinfo = node.strinfo ∧
      (slots.foldl NodeInfo.parseSlotString node).mSlots =
        node.mSlots ++ (slots.foldl NodeInfo.parseSlotString {}).mSlots := by
  intro slots
  induction slots with
  | nil => intro node; simp
  | cons t slots ih =>
    intro node
    obtain ⟨h1, h2, h3, h4⟩ := ih (node.parseSlotString t)
    obtain ⟨-, -, -, h4'⟩ := ih (NodeInfo.parseSlotString {} t)
    rw [List.foldl_cons, List.foldl_cons, h4, h4']
    refine ⟨h1, h2, h3, ?_⟩
    unfold NodeInfo.parseSlotString
    simp

/-- What a line is read as depends on the fields compared. -/
theorem sig_ofLine {line : Str} {node : NodeInfo} (h : NodeInfo.ofLine line = some node) :
    8 ≤ (splitCompress ' ' line).length ∧ node.strinfo = line ∧
      ∃ addr, (splitCompress ' ' line)[1]? = some addr ∧
        node.sig = ((NodeInfo.parseNodeString {} addr).2.ip, (NodeInfo.parseNodeString {} addr).2.port,
          (((splitCompress ' ' line).drop 8).foldl NodeInfo.parseSlotString {}).mSlots) := by
  unfold NodeInfo.ofLine at h
  simp only at h
  split at h
  · rename_i id addr flags f3 f4 f5 f6 link slots hfields
    rw [hfields]
    refine ⟨by simp, ?_⟩
    by_cases h1 : strstr link "disconnected".toList = true
    · rw [if_pos h1] at h
      exact absurd h (by simp)
    · rw [if_neg h1] at h
      by_cases h2 : (!strstr flags "master".toList) = true
      · rw [if_pos h2] at h
        exact absurd h (by simp)
      · rw [if_neg h2, Option.some.injEq] at h
        subst h
        obtain ⟨hip, hport, hstr, hslots⟩ := mSlots_foldl slots
          (NodeInfo.parseNodeString { strinfo := line, id := id } addr).2
        refine ⟨?_, addr, rfl, ?_⟩
        · rw [hstr]
          unfold NodeInfo.parseNodeString
          split <;> rfl
        · unfold NodeInfo.sig
          rw [hip, hport, hslots]
          unfold NodeInfo.parseNodeString
          split <;> rfl
  · exact absurd h (by simp)

/-- The slots of a node are those of the fields from the ninth on. -/
theorem mSlots_ofLine {line : Str} {node : NodeInfo} (h : NodeInfo.ofLine line = some node) :
    node.mSlots = (((splitCompress ' ' line).drop 8).foldl NodeInfo.parseSlotString {}).mSlots := by
  obtain ⟨-, -, addr, -, hsig⟩ := sig_ofLine h
  exact congrArg (fun s => s.2.2) hsig

/-- The nodes of lines that were kept. -/
def nodesOf (lines : List Str) : List NodeInfo := lines.filterMap NodeInfo.ofLine

theorem nodesOf_cons {line : Str} {node : NodeInfo} (h : NodeInfo.ofLine line = some node) (lines : List Str) :
    nodesOf (line :: lines) = node :: nodesOf lines := by
  unfold nodesOf
  rw [List.filterMap_cons, h]

theorem nodesOf_keptLines (data : Str) : nodesOf (keptLines data) = replyNodes data := by
  unfold nodesOf keptLines replyNodes
  rw [List.filterMap_filter]
  refine List.filterMap_congr fun l _ => ?_
  cases NodeInfo.ofLine l <;> rfl

/-- Lines that were kept. -/
def Kept (lines : List Str) : Prop := ∀ l ∈ lines, (NodeInfo.ofLine l).isSome

theorem kept_keptLines (data : Str) : Kept (keptLines data) := fun _ hl => (List.mem_filter.1 hl).2

/-- **Lines that compare equal** give nodes with the same address and slots. -/
theorem sig_eq_of_unchanged : ∀ {ls ls' : List Str}, Kept ls → Kept ls' → linesChanged ls ls' = false →
    (nodesOf ls).map NodeInfo.sig = (nodesOf ls').map NodeInfo.sig := by
  -- the fields compared, 0, 1 and from 8 on, are those that are read
  have one : ∀ {l l' : Str} {node node' : NodeInfo}, NodeInfo.ofLine l = some node →
      NodeInfo.ofLine l' = some node' → fieldsChanged l l' = false → node.sig = node'.sig := by
    intro l l' node node' h h' hc
    obtain ⟨-, -, addr, haddr, hsig⟩ := sig_ofLine h
    obtain ⟨-, -, addr', haddr', hsig'⟩ := sig_ofLine h'
    unfold fieldsChanged at hc
    simp only [decide_eq_false_iff_not, not_or, not_not] at hc
    obtain ⟨-, -, -, -, h1, h8⟩ := hc
    rw [haddr, haddr', Option.some.injEq] at h1
    rw [hsig, hsig', h1, h8]
  intro ls
  induction ls with
  | nil =>
    intro ls' _ _ hc
    cases ls' with
    | nil => rfl
    | cons l' ls' => simp [linesChanged] at hc
  | cons l ls ih =>
    intro ls' hk hk' hc
    cases ls' with
    | nil => simp [linesChanged] at hc
    | cons l' ls' =>
      obtain ⟨hl, hls⟩ := List.forall_mem_cons.1 hk
      obtain ⟨hl', hls'⟩ := List.forall_mem_cons.1 hk'
      obtain ⟨node, hnode⟩ := Option.isSome_iff_exists.1 hl
      obtain ⟨node', hnode'⟩ := Option.isSome_iff_exists.1 hl'
      unfold linesChanged at hc ih
      simp only [List.length_cons, ne_eq, Nat.add_right_cancel_iff, List.zip_cons_cons, List.any_cons,
        Bool.or_eq_true, decide_eq_false_iff_not, not_or, not_not, Bool.not_eq_true] at hc
      unfold nodesOf
      rw [List.filterMap_cons, hnode, List.filterMap_cons, hnode', List.map_cons, List.map_cons]
      have htail := ih hls hls' (by simp [hc.1, hc.2.2])
      unfold nodesOf at htail
      rw [htail, one hnode hnode' hc.2.1]

/-- Lines that compare equal to none. -/
theorem replyNodes_of_unchanged {data : Str} (h : linesChanged [] (keptLines data) = false) : replyNodes data = [] := by
  unfold linesChanged at h
  simp only [decide_eq_false_iff_not, not_or, not_not] at h
  rw [← nodesOf_keptLines, List.eq_nil_of_length_eq_zero h.1.symm]
  rfl

/-! ## Building the slots and the channels -/

variable {Conn : Type u} {env : RedisClientEnv Conn} {unset : ℕ → UInt16}

/-- The pool that `InitChannel` makes for an address. -/
def RedisClientEnv.hostPool (env : RedisClientEnv Conn) (ipPort : Str) : Option (ConnectPool Conn) :=
  ConnectPool.construct env.poolSize 100 fun n => .ok (env.channel ipPort n)

/-- A constructor whose builder always returns is through with it. -/
theorem buildOnes_isSome : ∀ (l : List ℕ) (p : ConnectPool Conn), (∀ n, ∃ c, p.buildConnection n = .ok c) →
    (l.foldlM (fun (p : ConnectPool Conn) _ => p.buildOne) p).isSome := by
  intro l
  induction l with
  | nil => intro p _; rfl
  | cons x l ih =>
    intro p hp
    -- the builder returns at every call, a connection or none
    obtain ⟨c, hc⟩ := hp p.calls
    have hone : ∃ p', p.buildOne = some p' ∧ p'.buildConnection = p.buildConnection := by
      unfold ConnectPool.buildOne
      rw [hc]
      cases c <;> exact ⟨_, rfl, rfl⟩
    obtain ⟨p', hp', hsame⟩ := hone
    rw [List.foldlM_cons, hp']
    exact ih p' fun n => by rw [hsame]; exact hp n

/-- The constructor only tests the sizes. -/
theorem hostPool_isSome_iff (a : Str) : (env.hostPool a).isSome ↔ env.poolSize.toUInt32 ≤ Int32.toUInt32 100 := by
  unfold RedisClientEnv.hostPool ConnectPool.construct
  simp only
  by_cases hsize : (ConnectPool.initList env.poolSize 100 fun n => .ok (env.channel a n)).poolSize >
      Int32.toUInt32 100
  · rw [if_pos hsize]
    exact ⟨fun h => absurd h (by simp), fun hle => absurd hsize (UInt32.not_lt.2 hle)⟩
  · rw [if_neg hsize]
    exact ⟨fun _ => UInt32.not_lt.1 hsize, fun _ => buildOnes_isSome _ _ fun n => ⟨env.channel a n, rfl⟩⟩

/-- It succeeds for every address or for none. -/
theorem hostPool_isSome (a b : Str) (h : (env.hostPool a).isSome) : (env.hostPool b).isSome :=
  (hostPool_isSome_iff b).2 ((hostPool_isSome_iff a).1 h)

/-- Connection pools of the client's size can be built. -/
def RedisClientEnv.Builds (env : RedisClientEnv Conn) : Prop := ∀ a, (env.hostPool a).isSome

/-- What `InitChannel` leaves in `m_channel_list` for a node: nothing new without a host. -/
def Entry (env : RedisClientEnv Conn) (addr : Str × UInt16) (old e : Option (HostPool Conn)) : Prop :=
  if addr.1 = [] then e = old
  else ∃ hp : HostPool Conn, e = some hp ∧ hp.ipPort = addr.1 ++ ':' :: toDecimal addr.2.toNat ∧
    env.hostPool hp.ipPort = some hp.pool

theorem initChannel_spec {pre rest : List (Option (HostPool Conn))} {x : Option (HostPool Conn)} {addr : Str × UInt16}
    {channels : List (Option (HostPool Conn))}
    (h : RedisClient.initChannel env pre.length addr.1 addr.2 (pre ++ x :: rest) = .ok channels) :
    ∃ e, channels = pre ++ e :: rest ∧ Entry env addr x e := by
  unfold RedisClient.initChannel at h
  unfold Entry
  by_cases hhost : addr.1 = []
  · rw [if_pos hhost, Except.ok.injEq] at h
    exact ⟨x, h.symm, by rw [if_pos hhost]⟩
  · rw [if_neg hhost] at h
    simp only at h
    cases hc : ConnectPool.construct env.poolSize 100
        (fun n => .ok (env.channel (addr.1 ++ ':' :: toDecimal addr.2.toNat) n)) with
    | none => rw [hc] at h; exact absurd h (by simp)
    | some pool =>
      rw [hc] at h
      simp only [Except.ok.injEq, List.set_append_right _ _ (le_refl _), Nat.sub_self, List.set_cons_zero] at h
      refine ⟨_, h.symm, ?_⟩
      rw [if_neg hhost]
      exact ⟨_, rfl, rfl, hc⟩

/-- `InitChannel` needs no pool for a node without a host. -/
theorem initChannel_ok_iff {idx : ℕ} {host : Str} {port : UInt16} {channels : List (Option (HostPool Conn))} :
    (∃ channels', RedisClient.initChannel env idx host port channels = .ok channels') ↔ (host ≠ [] → env.Builds) := by
  unfold RedisClient.initChannel
  by_cases hhost : host = []
  · rw [if_pos hhost]
    exact ⟨fun _ hne => absurd hhost hne, fun _ => ⟨channels, rfl⟩⟩
  · rw [if_neg hhost]
    have hpool : ConnectPool.construct env.poolSize 100 (fun n => .ok (env.channel (host ++ ':' :: toDecimal port.toNat) n)) =
        env.hostPool (host ++ ':' :: toDecimal port.toNat) := rfl
    simp only [hpool]
    constructor
    · rintro ⟨channels', h⟩ - a
      refine hostPool_isSome (host ++ ':' :: toDecimal port.toNat) a ?_
      cases hp : env.hostPool (host ++ ':' :: toDecimal port.toNat) with
      | none =>
        rw [hp] at h
        cases h
      | some pool => rfl
    · intro hb
      obtain ⟨pool, hp⟩ := Option.isSome_iff_exists.1 (hb hhost (host ++ ':' :: toDecimal port.toNat))
      rw [hp]
      exact ⟨_, rfl⟩

/-- The loop over the nodes, from the node at `pre.length` on. -/
theorem channels_spec : ∀ (nodes : List NodeInfo) (pre rest : List (Option (HostPool Conn)))
    {channels : List (Option (HostPool Conn))}, rest.length = nodes.length →
    (nodes.zipIdx pre.length).foldlM (fun channels (node, i) =>
      RedisClient.initChannel env i (RedisClient.address unset node i).1 (RedisClient.address unset node i).2 channels)
      (pre ++ rest) = .ok channels →
    ∃ built, channels = pre ++ built ∧ built.length = nodes.length ∧
      ∀ (i : ℕ) node old e, nodes[i]? = some node → rest[i]? = some old → built[i]? = some e →
        Entry env (RedisClient.address unset node (pre.length + i)) old e := by
  intro nodes
  induction nodes with
  | nil =>
    intro pre rest channels hlen h
    obtain rfl : rest = [] := List.length_eq_zero_iff.1 hlen
    have hch : Except.ok (pre ++ []) = Except.ok channels := h
    rw [Except.ok.injEq] at hch
    exact ⟨[], hch.symm, rfl, by simp⟩
  | cons node nodes ih =>
    intro pre rest channels hlen h
    obtain ⟨x, rest, rfl⟩ := List.exists_cons_of_length_eq_add_one hlen
    rw [List.length_cons, List.length_cons, Nat.add_right_cancel_iff] at hlen
    rw [List.zipIdx_cons, List.foldlM_cons] at h
    cases hone : RedisClient.initChannel env pre.length (RedisClient.address unset node pre.length).1
        (RedisClient.address unset node pre.length).2 (pre ++ x :: rest) with
    | error e =>
      simp only [hone] at h
      exact absurd h (by simp [bind, Except.bind])
    | ok channels₁ =>
      obtain ⟨e, rfl, he⟩ := initChannel_spec hone
      simp only [hone] at h
      have hlen' : (pre ++ [e]).length = pre.length + 1 := by simp
      -- the entry at `pre.length` is written; the later nodes leave it alone
      have h' := ih (pre ++ [e]) rest hlen (by
        rw [hlen', List.append_assoc, List.singleton_append]
        exact h)
      obtain ⟨built, hb, hblen, hentry⟩ := h'
      refine ⟨e :: built, ?_, by simp [hblen], ?_⟩
      · rw [hb, List.append_assoc, List.singleton_append]
      · intro i node' old e' hn hold he'
        cases i with
        | zero =>
          simp only [List.getElem?_cons_zero, Option.some.injEq] at hn hold he'
          subst hn hold he'
          exact he
        | succ i =>
          rw [List.getElem?_cons_succ] at hn hold he'
          have := hentry i node' old e' hn hold he'
          rwa [hlen', Nat.add_assoc, Nat.add_comm 1 i] at this

theorem ok_bind_iff {ε : Type v} {α β : Type u} {x : Except ε α} {f : α → Except ε β} {b : β} :
    (x >>= f) = .ok b ↔ ∃ a, x = .ok a ∧ f a = .ok b := by
  cases x with
  | error e =>
    constructor
    · intro h
      cases h
    · rintro ⟨a, h, -⟩
      cases h
  | ok a =>
    constructor
    · intro h
      exact ⟨a, rfl, h⟩
    · rintro ⟨a', h, h'⟩
      cases h
      exact h'

/-- A node of the list is reached at some address. -/
def AnyHost (unset : ℕ → UInt16) (nodes : List (NodeInfo × ℕ)) : Prop :=
  ∃ e ∈ nodes, (RedisClient.address unset e.1 e.2).1 ≠ []

theorem channels_ok_iff (unset : ℕ → UInt16) : ∀ (nodes : List (NodeInfo × ℕ)) (channels : List (Option (HostPool Conn))),
    (∃ channels', nodes.foldlM (fun channels (node, i) =>
      RedisClient.initChannel env i (RedisClient.address unset node i).1 (RedisClient.address unset node i).2 channels)
      channels = .ok channels') ↔ (AnyHost unset nodes → env.Builds) := by
  intro nodes
  induction nodes with
  | nil =>
    intro channels
    refine ⟨fun _ h => ?_, fun _ => ⟨channels, rfl⟩⟩
    obtain ⟨e, he, -⟩ := h
    cases he
  | cons e nodes ih =>
    intro channels
    have hcons : AnyHost unset (e :: nodes) ↔ (RedisClient.address unset e.1 e.2).1 ≠ [] ∨ AnyHost unset nodes := by
      unfold AnyHost
      rw [List.exists_mem_cons_iff]
    rw [hcons, or_imp, List.foldlM_cons]
    simp only [ok_bind_iff]
    constructor
    · rintro ⟨channels', channels₁, h1, h2⟩
      exact ⟨initChannel_ok_iff.1 ⟨channels₁, h1⟩, (ih channels₁).1 ⟨channels', h2⟩⟩
    · rintro ⟨h1, h2⟩
      obtain ⟨channels₁, h1⟩ := initChannel_ok_iff.2 h1
      obtain ⟨channels', h2⟩ := (ih channels₁).2 h2
      exact ⟨channels', channels₁, h1, h2⟩

/-- A node whose address gives a host and a port, and whose slots are slots of a cluster. -/
structure NodeInfo.WellFormed (node : NodeInfo) : Prop where
  addressed : ∃ p, node.port = some p ∧ (node.ip ≠ [] ∨ p > 0)
  below : Below 16384 node.mSlots

/-- The address that a node's channel is built for. -/
def NodeInfo.ipPort (node : NodeInfo) : Str :=
  (RedisClient.address (fun _ => 0) node 0).1 ++ ':' :: toDecimal (RedisClient.address (fun _ => 0) node 0).2.toNat

theorem NodeInfo.WellFormed.address {node : NodeInfo} (h : node.WellFormed) (unset : ℕ → UInt16) (i : ℕ) :
    RedisClient.address unset node i = RedisClient.address (fun _ => 0) node 0 ∧
      (RedisClient.address unset node i).1 ≠ [] := by
  obtain ⟨p, hp, hhost⟩ := h.addressed
  unfold RedisClient.address
  rw [hp]
  refine ⟨rfl, ?_⟩
  simp only [Option.getD_some]
  by_cases hip : node.ip = [] ∧ p > 0
  · rw [if_pos hip]
    decide
  · rw [if_neg hip]
    intro hnil
    rcases hhost with h | h
    · exact h hnil
    · exact hip ⟨hnil, h⟩

/-- What a list of nodes makes of a pool whose table was `vec`. -/
structure BuiltFor (env : RedisClientEnv Conn) (nodes : List NodeInfo) (vec : List ℤ) (pool : ChannelPool Conn) : Prop where
  slots : ∀ k, get (-1) pool.slotIpportIndexVec k =
    lastIdx (fun node => covers node.mSlots k) (get (-1) (resize 16384 (-1) vec) k) 0 nodes
  channels : pool.mChannelList.map (Option.map HostPool.ipPort) = nodes.map fun node => some node.ipPort
  pools : ∀ hp, some hp ∈ pool.mChannelList → env.hostPool hp.ipPort = some hp.pool

/-- **Inversion of `build`**: the slots, and an entry for each node. -/
theorem build_inv {fuel : ℕ} {nodes : List NodeInfo} {pool pool' : ChannelPool Conn}
    (h : RedisClient.build fuel env unset nodes pool = some (.ok pool')) :
    ∃ vec channels, pool' = { pool with slotIpportIndexVec := vec, mChannelList := channels } ∧
      initSlotNodeMap fuel pool.slotIpportIndexVec nodes = some vec ∧ channels.length = nodes.length ∧
      ∀ (i : ℕ) node old e, nodes[i]? = some node → (resize nodes.length none pool.mChannelList)[i]? = some old →
        channels[i]? = some e → Entry env (RedisClient.address unset node i) old e := by
  unfold RedisClient.build at h
  cases hvec : initSlotNodeMap fuel pool.slotIpportIndexVec nodes with
  | none => rw [hvec] at h; exact absurd h (by simp)
  | some vec =>
    rw [hvec, Option.some.injEq] at h
    cases hch : nodes.zipIdx.foldlM (fun channels (node, i) =>
        RedisClient.initChannel env i (RedisClient.address unset node i).1 (RedisClient.address unset node i).2 channels)
        (resize nodes.length none pool.mChannelList) with
    | error e => rw [hch] at h; exact absurd h (by simp [bind, Except.bind])
    | ok channels =>
      rw [hch] at h
      have hpool : Except.ok { pool with slotIpportIndexVec := vec, mChannelList := channels } =
          (Except.ok pool' : Except Escape _) := h
      rw [Except.ok.injEq] at hpool
      obtain ⟨built, hb, hlen, hentry⟩ := channels_spec nodes [] _ (length_resize _) hch
      rw [List.nil_append] at hb
      subst hb
      refine ⟨vec, channels, hpool.symm, rfl, hlen, fun i node old e hn hold he => ?_⟩
      have hent := hentry i node old e hn hold he
      rwa [List.length_nil, Nat.zero_add] at hent

theorem build_validLines {fuel : ℕ} {nodes : List NodeInfo} {pool pool' : ChannelPool Conn}
    (h : RedisClient.build fuel env unset nodes pool = some (.ok pool')) : pool'.validLines = pool.validLines := by
  obtain ⟨vec, channels, rfl, -⟩ := build_inv h
  rfl

/-- **The slots and the channels of well-formed nodes.** -/
theorem build_spec {fuel : ℕ} (hf : 16384 < fuel) {nodes : List NodeInfo} (hwf : ∀ node ∈ nodes, node.WellFormed)
    {pool pool' : ChannelPool Conn} (h : RedisClient.build fuel env unset nodes pool = some (.ok pool')) :
    BuiltFor env nodes pool.slotIpportIndexVec pool' := by
  obtain ⟨vec', channels, rfl, hvec', hlen, hentry⟩ := build_inv h
  obtain ⟨vec, hvec, -, hget⟩ := initSlotNodeMap_spec (by decide) hf (fun node hn => (hwf node hn).below)
    pool.slotIpportIndexVec
  rw [hvec, Option.some.injEq] at hvec'
  subst hvec'
  -- every node has a host, so every entry is new
  have hnew : ∀ (i : ℕ) node e, nodes[i]? = some node → channels[i]? = some e →
      ∃ hp : HostPool Conn, e = some hp ∧ hp.ipPort = node.ipPort ∧ env.hostPool hp.ipPort = some hp.pool := by
    intro i node e hn he
    have hi : i < (resize nodes.length none pool.mChannelList).length := by
      rw [length_resize]
      exact (List.getElem?_eq_some_iff.1 hn).1
    obtain ⟨haddr, hhost⟩ := (hwf node (List.mem_of_getElem? hn)).address unset i
    have hent := hentry i node _ e hn (List.getElem?_eq_getElem hi) he
    unfold Entry at hent
    rw [if_neg hhost] at hent
    obtain ⟨hp, h1, h2, h3⟩ := hent
    rw [haddr] at h2
    exact ⟨hp, h1, h2, h3⟩
  refine ⟨hget, ?_, ?_⟩
  · refine List.ext_getElem (by simp [hlen]) fun i hi hi' => ?_
    rw [List.length_map] at hi hi'
    obtain ⟨hp, h1, h2, -⟩ := hnew i _ _ (List.getElem?_eq_getElem hi') (List.getElem?_eq_getElem hi)
    rw [List.getElem_map, List.getElem_map, h1, Option.map_some, h2]
  · intro hp hmem
    obtain ⟨i, hi, he⟩ := List.getElem_of_mem hmem
    have hi' : i < nodes.length := by rw [← hlen]; exact hi
    obtain ⟨hp', h1, -, h3⟩ := hnew i _ _ (List.getElem?_eq_getElem hi') (List.getElem?_eq_getElem hi)
    have he' : some hp = some hp' := he.symm.trans h1
    rw [Option.some.injEq] at he'
    rw [he']
    exact h3

/-- Nodes are built if the loops over their slots end and pools can be built. -/
theorem build_total {fuel : ℕ} {nodes : List NodeInfo} {pool : ChannelPool Conn} {vec : List ℤ}
    (hvec : initSlotNodeMap fuel pool.slotIpportIndexVec nodes = some vec) (hb : nodes ≠ [] → env.Builds) :
    ∃ pool', RedisClient.build fuel env unset nodes pool = some (.ok pool') := by
  have hchannels := (channels_ok_iff unset nodes.zipIdx (resize nodes.length none pool.mChannelList)).2 fun h => by
    obtain ⟨e, he, -⟩ := h
    exact hb (by rintro rfl; cases he)
  obtain ⟨channels, hch⟩ := hchannels
  unfold RedisClient.build
  rw [hvec]
  simp only [hch]
  exact ⟨_, rfl⟩

/-- A list of nodes can be built only if pools can. -/
theorem builds_of_built {nodes : List NodeInfo} {vec : List ℤ} {pool : ChannelPool Conn}
    (h : BuiltFor env nodes vec pool) (hne : nodes ≠ []) : env.Builds := by
  obtain ⟨node, nodes', rfl⟩ := List.exists_cons_of_ne_nil hne
  have hmem : some node.ipPort ∈ pool.mChannelList.map (Option.map HostPool.ipPort) := by
    rw [h.channels]
    exact List.mem_cons_self
  obtain ⟨e, he, hip⟩ := List.mem_map.1 hmem
  obtain ⟨hp, rfl, -⟩ := Option.map_eq_some_iff.1 hip
  exact fun a => hostPool_isSome hp.ipPort a (by rw [h.pools hp he]; rfl)

/-! ## One round of the refresh loop -/

section Refresh

variable {c : RedisClient Conn} {fuel : ℕ}

theorem isChannelPoolChanged_eq (c : RedisClient Conn) (k : Fin 2) : c.isChannelPoolChanged =
    linesChanged (c.channelPoolVec k).validLines (c.channelPoolVec (1 - k)).validLines := by
  unfold RedisClient.isChannelPoolChanged
  match k with
  | 0 => rfl
  | 1 => exact linesChanged_comm _ _

/-- The kept lines of a reply differ from those of the pool in use. -/
def RedisClient.Changed (c : RedisClient Conn) (data : Str) : Prop :=
  linesChanged c.getCurChannelPool.validLines (keptLines data) = true

theorem one_sub_ne (k : Fin 2) : 1 - k ≠ k := by
  match k with
  | 0 => decide
  | 1 => decide

theorem one_sub_one_sub (k : Fin 2) : 1 - (1 - k) = k := by
  match k with
  | 0 => rfl
  | 1 => rfl

/-- Whether the pools compare equal once one of them is replaced. -/
theorem changed_update (c : RedisClient Conn) (k : Fin 2) (pool : ChannelPool Conn) :
    RedisClient.isChannelPoolChanged { c with channelPoolVec := Function.update c.channelPoolVec k pool } =
      linesChanged (c.channelPoolVec (1 - k)).validLines pool.validLines := by
  rw [isChannelPoolChanged_eq _ (1 - k), one_sub_one_sub]
  simp only [Function.update_self, Function.update_of_ne (one_sub_ne k)]

/-- **`init_channel_pool` with a reply.** If the kept lines compare equal to those of the
other pool, only they are stored; otherwise the pool is built. -/
theorem initChannelPool_text {data : Str} {k : Fin 2} {r : Except Escape (RedisClient Conn)}
    (h : RedisClient.initChannelPool fuel env c k (.text data unset) = some r) :
    (linesChanged (c.channelPoolVec (1 - k)).validLines (keptLines data) = false ∧
        r = .ok { c with channelPoolVec :=
          Function.update c.channelPoolVec k { c.channelPoolVec k with validLines := keptLines data } }) ∨
      (linesChanged (c.channelPoolVec (1 - k)).validLines (keptLines data) = true ∧
        ((∃ e, r = .error e) ∨ ∃ pool,
          RedisClient.build fuel env unset (replyNodes data)
            { c.channelPoolVec k with validLines := keptLines data } = some (.ok pool) ∧
          r = .ok { c with channelPoolVec := Function.update c.channelPoolVec k pool })) := by
  unfold RedisClient.initChannelPool at h
  simp only [changed_update] at h
  cases hc : linesChanged (c.channelPoolVec (1 - k)).validLines (keptLines data) with
  | false =>
    rw [if_neg (by rw [hc]; simp), Option.some.injEq] at h
    exact Or.inl ⟨rfl, h.symm⟩
  | true =>
    rw [if_pos hc] at h
    refine Or.inr ⟨rfl, ?_⟩
    cases hb : RedisClient.build fuel env unset (replyNodes data)
        { c.channelPoolVec k with validLines := keptLines data } with
    | none => rw [hb] at h; exact absurd h (by simp)
    | some b =>
      rw [hb] at h
      cases b with
      | error e => exact Or.inl ⟨e, (Option.some.inj h).symm⟩
      | ok pool =>
        simp only [Function.update_idem, Option.some.injEq] at h
        exact Or.inr ⟨pool, rfl, h.symm⟩

/-- Whether the pools compare equal after `init_channel_pool`. -/
theorem initChannelPool_changed {data : Str} {k : Fin 2} {c' : RedisClient Conn}
    (h : RedisClient.initChannelPool fuel env c k (.text data unset) = some (.ok c')) :
    c'.isChannelPoolChanged = linesChanged (c.channelPoolVec (1 - k)).validLines (keptLines data) := by
  rcases initChannelPool_text h with ⟨-, heq⟩ | ⟨-, ⟨e, he⟩ | ⟨pool, hb, heq⟩⟩
  · rw [Except.ok.injEq] at heq
    rw [heq, changed_update]
  · exact absurd he (by simp)
  · rw [Except.ok.injEq] at heq
    rw [heq, changed_update, build_validLines hb]

/-- **A round that gets a reply.** If the kept lines compare equal, the pool in use stays;
otherwise the other one is built and used. -/
theorem updateChannelPool_text {data : Str} {c' : RedisClient Conn}
    (h : c.updateChannelPool fuel env (.text data unset) = some (.ok c')) :
    (¬c.Changed data ∧ c'.getCurChannelPool = c.getCurChannelPool ∧ c'.poolIndex = c.poolIndex ∧
        c'.isChannelPoolChanged = false) ∨
      (c.Changed data ∧ c'.poolIndex = 1 - c.poolIndex ∧ c'.isChannelPoolChanged = true ∧
        c'.bak = c.getCurChannelPool ∧ RedisClient.build fuel env unset (replyNodes data) { c.bak with validLines := keptLines data } =
          some (.ok c'.getCurChannelPool)) := by
  unfold RedisClient.updateChannelPool at h
  simp only at h
  cases hi : RedisClient.initChannelPool fuel env c (1 - c.poolIndex) (.text data unset) with
  | none => rw [hi] at h; exact absurd h (by simp)
  | some r =>
    rw [hi] at h
    -- the pool that was filled is the spare one; it is used if the lines differ
    rcases initChannelPool_text hi with ⟨hc, rfl⟩ | ⟨hc, ⟨e, rfl⟩ | ⟨pool, hb, rfl⟩⟩
    · simp only [changed_update, hc, Bool.false_eq_true, if_false, Option.some.injEq, Except.ok.injEq] at h
      subst h
      rw [one_sub_one_sub] at hc
      refine Or.inl ⟨?_, ?_, rfl, ?_⟩
      · unfold RedisClient.Changed RedisClient.getCurChannelPool
        rw [hc]
        simp
      · exact Function.update_of_ne (one_sub_ne c.poolIndex).symm _ _
      · rw [changed_update, one_sub_one_sub, hc]
    · exact absurd h (by simp)
    · have hlines := build_validLines hb
      simp only [changed_update, hlines, hc, if_true, Option.some.injEq, Except.ok.injEq] at h
      subst h
      refine Or.inr ⟨?_, rfl, ?_, ?_, ?_⟩
      · rw [one_sub_one_sub] at hc
        exact hc
      · have := changed_update c (1 - c.poolIndex) pool
        rw [hlines, hc] at this
        exact this
      · unfold RedisClient.bak
        simp only [one_sub_one_sub, Function.update_of_ne (one_sub_ne c.poolIndex).symm]
        rfl
      · unfold RedisClient.bak RedisClient.getCurChannelPool
        simp only [Function.update_self]
        exact hb

/-- A reply that can be built is never fatal. -/
theorem initChannelPool_ends {data : Str} {k : Fin 2} {vec : List ℤ}
    (hvec : initSlotNodeMap fuel (c.channelPoolVec k).slotIpportIndexVec (replyNodes data) = some vec)
    (hb : replyNodes data ≠ [] → env.Builds) :
    ∃ c', RedisClient.initChannelPool fuel env c k (.text data unset) = some (.ok c') := by
  unfold RedisClient.initChannelPool
  simp only [changed_update]
  by_cases hc : linesChanged (c.channelPoolVec (1 - k)).validLines (keptLines data) = true
  · rw [if_pos hc]
    obtain ⟨pool', hp⟩ : ∃ pool', RedisClient.build fuel env unset (replyNodes data)
        { c.channelPoolVec k with validLines := keptLines data } = some (.ok pool') := build_total hvec hb
    rw [hp]
    exact ⟨_, rfl⟩
  · rw [if_neg hc]
    exact ⟨_, rfl⟩

theorem initChannelPool_total (hf : 16384 < fuel) {data : Str} (hwf : ∀ node ∈ replyNodes data, node.WellFormed)
    (hb : replyNodes data ≠ [] → env.Builds) (c : RedisClient Conn) (k : Fin 2) (unset : ℕ → UInt16) :
    ∃ c', RedisClient.initChannelPool fuel env c k (.text data unset) = some (.ok c') := by
  obtain ⟨vec, hvec, -⟩ := initSlotNodeMap_spec (by decide) hf (fun node hn => (hwf node hn).below)
    (c.channelPoolVec k).slotIpportIndexVec
  exact initChannelPool_ends hvec hb

/-- … so the loop goes on after it. -/
theorem updateChannelPool_total (hf : 16384 < fuel) {data : Str} (hwf : ∀ node ∈ replyNodes data, node.WellFormed)
    (hb : replyNodes data ≠ [] → env.Builds) (c : RedisClient Conn) (unset : ℕ → UInt16) :
    ∃ c', c.updateChannelPool fuel env (.text data unset) = some (.ok c') := by
  obtain ⟨c', hc⟩ := initChannelPool_total hf hwf hb c (1 - c.poolIndex) unset
  unfold RedisClient.updateChannelPool
  simp only [hc]
  exact ⟨_, rfl⟩

end Refresh

end Graphize
