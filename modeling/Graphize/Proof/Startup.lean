import Graphize.Spec.Startup
import Graphize.Proof.Registered
import Graphize.Proof.Unresolved
import Graphize.Proof.ClientStart

/-!
# What the managers hold after start-up

* `redisServiceInit_ok_iff`: what the fetch infos of a node are read as.
* `redisClientManagerInit_iff`, `nodeManagerInit_true_iff`: when a manager's `init` returns
  `true`, and what it has then.
* `frame_grows`: along any number of calls of the `init` functions, whatever they return, what
  a name stands for does not change.
* `registered_all`: every registered graph comes from an entry of the file, also when a later
  entry is refused.
* `frame_consistent`: so in every state of a program each registered graph has been accepted,
  and its nodes are configured and of registered classes; if no `init` has returned `false`,
  every `downstream` of a known node is found.
-/

namespace Graphize

open FirstWins EdgeList Numbering

universe u

theorem mapM_ok_iff {ε α β : Type u} {f : α → Except ε β} : ∀ {l : List α} {l' : List β},
    l.mapM f = .ok l' ↔ List.Forall₂ (fun a b => f a = .ok b) l l' := by
  intro l
  induction l with
  | nil =>
    intro l'
    rw [List.mapM_nil, List.forall₂_nil_left_iff]
    constructor
    · intro h
      cases h
      rfl
    · rintro rfl
      rfl
  | cons a l ih =>
    intro l'
    rw [List.mapM_cons, ok_bind_iff, List.forall₂_cons_left_iff]
    constructor
    · rintro ⟨b, hb, h⟩
      obtain ⟨bs, hbs, h⟩ := ok_bind_iff.1 h
      cases h
      exact ⟨b, bs, hb, ih.1 hbs, rfl⟩
    · rintro ⟨b, bs, hb, hbs, rfl⟩
      exact ⟨b, hb, ok_bind_iff.2 ⟨bs, ih.2 hbs, rfl⟩⟩

theorem getConf_ok_iff {α : Type*} {key : Str} {o : Option α} {a : α} : getConf key o = .ok a ↔ o = some a := by
  cases o with
  | none =>
    constructor
    · intro h
      cases h
    · intro h
      cases h
  | some b =>
    unfold getConf
    rw [Except.ok.injEq, Option.some.injEq]

/-! ## Fetch infos -/

/-- **What a fetch info is read as**, if no string is missing. -/
theorem FetchInfo.ofConf_ok_iff {conf : FetchInfoConf} {info : FetchInfo} : FetchInfo.ofConf conf = .ok info ↔
    conf.keyPrefix = some info.keyPrefix ∧ conf.keyPostfix = some info.keyPostfix ∧
      conf.redisClientId = some info.redisClientId ∧ conf.keyGenFunc = some info.keyGenFunc ∧
      conf.responseFunc = some info.responseFunc ∧ conf.compress = some info.compress ∧
      info.useCache = conf.useCache.getD false ∧ info.expireTime = conf.expireTimeS.getD 0 ∧
      info.key = [] ∧ info.keys = [] ∧ info.id = [] := by
  unfold FetchInfo.ofConf
  simp only [ok_bind_iff, getConf_ok_iff]
  constructor
  · rintro ⟨keyPrefix, h1, keyPostfix, h2, redisClientId, h3, keyGenFunc, h4, responseFunc, h5, compress, h6, h⟩
    cases h
    exact ⟨h1, h2, h3, h4, h5, h6, rfl, rfl, rfl, rfl, rfl⟩
  · obtain ⟨keyPrefix, keyPostfix, compress, keyGenFunc, redisClientId, key, responseFunc, useCache, expireTime, keys,
      id⟩ := info
    rintro ⟨h1, h2, h3, h4, h5, h6, h7, h8, h9, h10, h11⟩
    dsimp only at h7 h8 h9 h10 h11
    subst h7 h8 h9 h10 h11
    exact ⟨_, h1, _, h2, _, h3, _, h4, _, h5, _, h6, rfl⟩

/-- **`RedisService::init`** reads every entry, in their order. -/
theorem redisServiceInit_ok_iff {confs : Option (List FetchInfoConf)} {infos : List FetchInfo} :
    redisServiceInit confs = .ok infos ↔
      ∃ l, confs = some l ∧ List.Forall₂ (fun conf info => FetchInfo.ofConf conf = .ok info) l infos := by
  unfold redisServiceInit
  simp only [ok_bind_iff, getConf_ok_iff, mapM_ok_iff]

/-! ## The managers -/

/-- The arguments that a complete entry gives to the constructor. -/
def RedisClientConf.args (conf : RedisClientConf) : Option RedisClientArgs := do
  let address ← conf.address
  let poolSize ← conf.poolSize
  let maxPoolSize ← conf.maxPoolSize
  let timeoutMs ← conf.timeoutMs
  return ⟨address, timeoutMs, poolSize, maxPoolSize⟩

theorem RedisClientConf.read_ok_iff {conf : RedisClientConf} {a : RedisClientArgs} :
    conf.read = .ok a ↔ conf.args = some a := by
  simp only [RedisClientConf.read, RedisClientConf.args, ok_bind_iff, getConf_ok_iff, Option.bind_eq_bind,
    Option.bind_eq_some_iff, Option.pure_def, Option.some.injEq]
  constructor
  · rintro ⟨address, h1, poolSize, h2, maxPoolSize, h3, timeoutMs, h4, h5⟩
    exact ⟨address, h1, poolSize, h2, maxPoolSize, h3, timeoutMs, h4, Except.ok.inj h5⟩
  · rintro ⟨address, h1, poolSize, h2, maxPoolSize, h3, timeoutMs, h4, rfl⟩
    exact ⟨address, h1, poolSize, h2, maxPoolSize, h3, timeoutMs, h4, rfl⟩

section Clients

variable {Conn : Type u} {fuel : ℕ} {site : RedisSite Conn} {m m' : ClientMap Conn}

/-- The client that an entry makes, under its name. -/
structure Makes (fuel : ℕ) (site : RedisSite Conn) (e : Str × RedisClientConf) (made : Str × ManagedClient Conn) : Prop where
  name : made.1 = e.1
  args : e.2.args = some made.2.args
  client : RedisClient.construct fuel (site.env e.1 made.2.args) (site.clusterNodes e.1 made.2.args) =
    some (.ok made.2.client)

theorem redisClientManagerInit_cons {e : Str × RedisClientConf} {es : List (Str × RedisClientConf)} :
    redisClientManagerInit fuel site m (e :: es) = some (.ok m') ↔
      ∃ made, Makes fuel site e made ∧ redisClientManagerInit fuel site (insertNew m made.1 made.2) es = some (.ok m') := by
  obtain ⟨name, conf⟩ := e
  rw [redisClientManagerInit]
  constructor
  · intro h
    split at h
    · cases h
    · rename_i args hargs
      split at h
      · cases h
      · cases h
      · rename_i client hclient
        exact ⟨(name, ⟨args, client⟩), ⟨rfl, RedisClientConf.read_ok_iff.1 hargs, hclient⟩, h⟩
  · rintro ⟨⟨name', args, client⟩, ⟨hname, hargs, hclient⟩, h⟩
    dsimp only at hname hargs hclient h
    subst hname
    rw [RedisClientConf.read_ok_iff.2 hargs]
    simp only [hclient]
    exact h

/-- **The clients**: every entry is complete, its client is constructed, and the first of a
name stays. -/
theorem redisClientManagerInit_iff {es : List (Str × RedisClientConf)} : ∀ {m m' : ClientMap Conn},
    redisClientManagerInit fuel site m es = some (.ok m') ↔
      ∃ clients, List.Forall₂ (Makes fuel site) es clients ∧ m' = insertAll m clients := by
  induction es with
  | nil =>
    intro m m'
    unfold redisClientManagerInit
    rw [Option.some.injEq, Except.ok.injEq]
    constructor
    · rintro rfl
      exact ⟨[], .nil, rfl⟩
    · rintro ⟨clients, h, rfl⟩
      cases h
      rfl
  | cons e es ih =>
    intro m m'
    rw [redisClientManagerInit_cons]
    constructor
    · rintro ⟨made, hmade, hrest⟩
      obtain ⟨clients, hall, rfl⟩ := ih.1 hrest
      exact ⟨made :: clients, .cons hmade hall, rfl⟩
    · rintro ⟨clients, hall, rfl⟩
      obtain ⟨made, rest, hmade, hrest, rfl⟩ := List.forall₂_cons_left_iff.1 hall
      exact ⟨made, hmade, ih.2 ⟨rest, hrest, rfl⟩⟩

/-- The names of the clients. -/
theorem isSome_lookup_clients {es : List (Str × RedisClientConf)} {clients : List (Str × ManagedClient Conn)}
    (hall : List.Forall₂ (Makes fuel site) es clients) (x : Str) :
    (clients.lookup x).isSome ↔ ∃ e ∈ es, e.1 = x := by
  induction hall with
  | nil => simp
  | @cons e made es clients hmade _ ih =>
    obtain ⟨name, client⟩ := made
    obtain rfl : name = e.1 := hmade.name
    simp only [List.lookup_cons, List.mem_cons, exists_eq_or_imp]
    by_cases hx : x = e.1
    · subst hx
      simp
    · rw [beq_false_of_ne hx]
      simp only [ih, Ne.symm hx, false_or]

end Clients

/-- What start-up asks of an entry of the node file. -/
def ServiceConf.Fits {Conn : Type u} (downstreamMap : DownstreamMap) (clientMap : ClientMap Conn)
    (conf : ServiceConf) : Prop :=
  conf.clazz.isSome ∧ (conf.downstream.getD [] = [] ∨ Downstream downstreamMap clientMap (conf.downstream.getD []))

section Nodes

variable {Conn : Type u} {ds : DownstreamMap} {cl : ClientMap Conn} {m m' : List (Str × ServiceConf)}

theorem nodeManagerInit_cons {e : Str × ServiceConf} {es : List (Str × ServiceConf)} {suc : Bool} :
    nodeManagerInit ds cl m (e :: es) = .ok (suc, m') ↔ e.2.clazz.isSome ∧
      ((e.2.Fits ds cl ∧ nodeManagerInit ds cl (insertNew m e.1 e.2) es = .ok (suc, m')) ∨
        (¬e.2.Fits ds cl ∧ suc = false ∧ m' = insertNew m e.1 e.2)) := by
  have hstep : nodeManagerInit ds cl m (e :: es) = (getConf "class".toList e.2.clazz >>= fun _ =>
      if e.2.downstream.getD [] ≠ [] ∧ ¬Downstream ds cl (e.2.downstream.getD []) then
        .ok (false, insertNew m e.1 e.2)
      else nodeManagerInit ds cl (insertNew m e.1 e.2) es) := rfl
  rw [hstep, ok_bind_iff]
  simp only [getConf_ok_iff]
  rw [exists_and_right, ← Option.isSome_iff_exists]
  refine and_congr_right fun hclazz => ?_
  have hfits : (e.2.downstream.getD [] ≠ [] ∧ ¬Downstream ds cl (e.2.downstream.getD [])) ↔ ¬e.2.Fits ds cl := by
    unfold ServiceConf.Fits
    rw [not_and_or, not_or]
    exact ⟨Or.inr, fun h => h.resolve_left fun hno => hno hclazz⟩
  by_cases hf : e.2.Fits ds cl
  · rw [if_neg (fun h => hfits.1 h hf)]
    simp only [hf, true_and, not_true_eq_false, false_and, or_false]
  · rw [if_pos (hfits.2 hf), Except.ok.injEq, Prod.mk.injEq]
    simp only [hf, false_and, not_false_eq_true, true_and, false_or, eq_comm]

/-- **The nodes**: every entry has a class and a `downstream` that is found, or none, and the
first of a name stays. -/
theorem nodeManagerInit_true_iff {es : List (Str × ServiceConf)} :
    ∀ {m m' : List (Str × ServiceConf)}, nodeManagerInit ds cl m es = .ok (true, m') ↔
      (∀ e ∈ es, e.2.Fits ds cl) ∧ m' = insertAll m es := by
  induction es with
  | nil =>
    intro m m'
    unfold nodeManagerInit
    rw [Except.ok.injEq, Prod.mk.injEq]
    constructor
    · rintro ⟨-, rfl⟩
      refine ⟨fun e he => ?_, rfl⟩
      cases he
    · rintro ⟨-, h⟩
      exact ⟨rfl, h.symm⟩
  | cons e es ih =>
    intro m m'
    rw [nodeManagerInit_cons, ih, List.forall_mem_cons]
    constructor
    · rintro ⟨-, ⟨hf, hes, rfl⟩ | ⟨-, h, -⟩⟩
      · exact ⟨⟨hf, hes⟩, rfl⟩
      · cases h
    · rintro ⟨⟨hf, hes⟩, rfl⟩
      exact ⟨hf.1, Or.inl ⟨hf, hes, rfl⟩⟩

/-- Whatever it returns, the node manager forgets nothing. -/
theorem grows_nodeManagerInit {es : List (Str × ServiceConf)} : ∀ {m m' : List (Str × ServiceConf)} {suc : Bool},
    nodeManagerInit ds cl m es = .ok (suc, m') → Grows m m' := by
  induction es with
  | nil =>
    intro m m' suc h
    obtain ⟨-, rfl⟩ := Prod.mk.inj (Except.ok.inj h)
    exact .refl _
  | cons e es ih =>
    intro m m' suc h
    obtain ⟨-, ⟨-, h⟩ | ⟨-, -, rfl⟩⟩ := nodeManagerInit_cons.1 h
    · exact (grows_insertNew _ _ _).trans (ih h)
    · exact grows_insertNew _ _ _

/-- All that is known afterwards was known before or is in the file. -/
theorem fits_nodeManagerInit {es : List (Str × ServiceConf)} (h : nodeManagerInit ds cl m es = .ok (true, m'))
    {x : Str} {c : ServiceConf} (hx : m'.lookup x = some c) : m.lookup x = some c ∨ c.Fits ds cl := by
  obtain ⟨hall, rfl⟩ := nodeManagerInit_true_iff.1 h
  rw [lookup_insertAll] at hx
  rcases Option.or_eq_some_iff.1 hx with hx | ⟨-, hx⟩
  · exact Or.inl hx
  · obtain ⟨l₁, l₂, rfl, -⟩ := List.lookup_eq_some_iff.1 hx
    exact Or.inr (hall (x, c) (by simp))

end Nodes

/-! ## The types of the nodes -/

/-- Every node has the type of the class configured for its name. -/
structure Typed (info : Str → Option NodeType) (b : Build) : Prop where
  type : ∀ x p, (x, p) ∈ b.nodesMap → info x = some (b.heap p).type
  lt : ∀ x p, (x, p) ∈ b.nodesMap → p < b.nodeIdGen

section Typed

variable {info : Str → Option NodeType} {b : Build}

theorem Typed.create (ht : Typed info b) (x : Str) : Typed info (b.create info x).2 := by
  unfold Build.create
  cases hx : b.nodesMap.lookup x with
  | some p => exact ht
  | none =>
    cases hi : info x with
    | none => exact ht
    | some t =>
      dsimp only
      refine ⟨fun y q hq => ?_, fun y q hq => ?_⟩
      · rcases List.mem_append.1 hq with hq | hq
        · have hne : q ≠ b.nodeIdGen := (ht.lt y q hq).ne
          dsimp only
          rw [Function.update_of_ne hne]
          exact ht.type y q hq
        · obtain ⟨rfl, rfl⟩ := Prod.mk.inj (List.mem_singleton.1 hq)
          dsimp only
          rw [Function.update_self, hi]
      · rcases List.mem_append.1 hq with hq | hq
        · exact Nat.lt_succ_of_lt (ht.lt y q hq)
        · obtain ⟨-, rfl⟩ := Prod.mk.inj (List.mem_singleton.1 hq)
          exact Nat.lt_succ_self _

theorem type_modify (h : Heap) (p q : NodePtr) (f : Node → Node) (hf : ∀ n, (f n).type = n.type) :
    (h.modify p f q).type = (h q).type := by
  unfold Heap.modify
  by_cases hq : q = p
  · rw [hq, Function.update_self]
    exact hf _
  · rw [Function.update_of_ne hq]

/-- An edge leaves the types as they are. -/
theorem type_addOutput (h : Heap) (p q n : NodePtr) : (h.addOutput p q n).type = (h n).type := by
  unfold Heap.addOutput
  refine (type_modify _ q n _ ?_).trans ((type_modify _ q n _ ?_).trans (type_modify h p n _ ?_)) <;>
    exact fun _ => rfl

theorem Typed.addEdge (ht : Typed info b) (p q : NodePtr) : Typed info (b.addEdge p q) := by
  unfold Build.addEdge
  split
  · exact ht
  · refine ⟨fun x n hn => ?_, ht.lt⟩
    rw [ht.type x n hn]
    exact congrArg some (type_addOutput b.heap p q n).symm

theorem Typed.child (ht : Typed info b) (service : NodePtr) (c : Str) : Typed info (Build.child info service b c) := by
  unfold Build.child
  split
  · exact ht
  · have hc := ht.create (trim c)
    generalize b.create info (trim c) = made at hc ⊢
    obtain ⟨_ | p, b'⟩ := made
    · exact hc
    · exact hc.addEdge service p

theorem Typed.parent (ht : Typed info b) (service : NodePtr) (c : Str) : Typed info (Build.parent info service b c) := by
  unfold Build.parent
  have hc := ht.create (trim c)
  generalize b.create info (trim c) = made at hc ⊢
  obtain ⟨_ | p, b'⟩ := made
  · exact hc
  · exact hc.addEdge p service

theorem Typed.foldl {f : Build → Str → Build} (hf : ∀ b c, Typed info b → Typed info (f b c)) (cs : List Str) :
    ∀ {b : Build}, Typed info b → Typed info (cs.foldl f b) := by
  induction cs with
  | nil => exact id
  | cons c cs ih =>
    intro b ht
    exact ih (hf b c ht)

theorem typed_entries (conf : GraphConf) : ∀ {b : Build} {root : Option NodePtr}, Typed info b →
    Typed info (Build.entries info b root conf).1 := by
  induction conf with
  | nil =>
    intro b root ht
    exact ht
  | cons e conf ih =>
    intro b root ht
    obtain ⟨nodeName, c⟩ := e
    unfold Build.entries
    have hc := ht.create nodeName
    generalize b.create info nodeName = made at hc ⊢
    obtain ⟨_ | p, b'⟩ := made
    · exact hc
    · apply ih
      apply Typed.foldl fun _ _ ht => ht.parent _ _
      exact Typed.foldl (fun _ _ ht => ht.child _ _) _ hc

end Typed

/-! ## The graphs -/

/-- **Every registered graph** comes from an entry of the file, whatever `init` returns. -/
theorem registered_all {info : Str → Option NodeType} {fuel : ℕ} {suc : Bool} : ∀ (file : List (Str × GraphConf))
    {m m' : GraphMap}, graphManagerInit fuel info m file = some (.ok (suc, m')) → Grows m m' ∧
      ∀ e ∈ m', e ∈ m ∨ ∃ conf b es r n, BuiltFrom fuel info conf e.1 e.2.1 e.2.2 b es r n ∧ Typed info b := by
  intro file
  induction file with
  | nil =>
    intro m m' hrun
    simp only [graphManagerInit, Option.some.injEq, Except.ok.injEq, Prod.mk.injEq] at hrun
    obtain ⟨-, rfl⟩ := hrun
    exact ⟨.refl _, fun e he => Or.inl he⟩
  | cons gc file ih =>
    obtain ⟨name, conf⟩ := gc
    intro m m' hrun
    obtain ⟨b, root, es, hb, hrep, hroot, hnone⟩ := @entries_spec info conf {} [] [] [] none none
      rep_empty rfl (by simp)
    simp only [List.nil_append, Option.or_none] at hrep hroot hnone
    have htyped : Typed info b := by
      have ht : Typed info {} := ⟨fun x p hp => absurd hp List.not_mem_nil, fun x p hp => absurd hp List.not_mem_nil⟩
      have := @typed_entries info conf {} none ht
      rwa [hb] at this
    cases root with
    | none =>
      rw [graphManagerInit_null (by rw [hb])] at hrun
      cases hrun
    | some r =>
      cases hinit : Graph.init fuel { maxNodeId := b.nodeIdGen } b.heap (some r) name with
      | none =>
        rw [graphManagerInit_cons, hb] at hrun
        simp only [hinit] at hrun
        cases hrun
      | some res =>
        rcases res with f | ⟨ret, g, h⟩
        · rw [graphManagerInit_cons, hb] at hrun
          simp only [hinit] at hrun
          cases hrun
        · rw [graphManagerInit_built hb hinit] at hrun
          by_cases hret : ret = 0
          · subst hret
            rw [if_pos rfl] at hrun
            obtain ⟨hgrows, hall⟩ := ih hrun
            obtain ⟨n, hn⟩ : ∃ n, GraphConf.rootName info conf = some n := by
              rw [← Option.ne_none_iff_exists']
              intro h0
              cases hnone.2 h0
            rw [hn, Option.bind_some] at hroot
            refine ⟨(grows_insertNew m name (g, h)).trans hgrows, fun e he => ?_⟩
            rcases hall e he with he | hbuilt
            · rcases GraphMap.mem_insert he with he | ⟨-, rfl⟩
              · exact Or.inl he
              · exact Or.inr ⟨conf, b, es, r, n, ⟨hrep, hn, hroot, hinit⟩, htyped⟩
            · exact Or.inr hbuilt
          · rw [if_neg hret] at hrun
            simp only [Option.some.injEq, Except.ok.injEq, Prod.mk.injEq] at hrun
            obtain ⟨-, rfl⟩ := hrun
            exact ⟨.refl _, fun e he => Or.inl he⟩

section Built

variable {info : Str → Option NodeType} {fuel : ℕ} {conf : GraphConf} {name : Str} {g : Graph} {h : Heap}
  {b : Build} {es : List (NodePtr × NodePtr)} {r : NodePtr} {n : Str}

/-- A node of a registered graph carries the name it is configured under. -/
theorem BuiltFrom.number (hb : BuiltFrom fuel info conf name g h b es r n) {p : NodePtr} (hp : p ∈ g.allNodes) :
    (firsts (conf.mentioned info))[p]? = some (h p).name := by
  obtain ⟨-, -, x, hx, -⟩ := hb.node hp
  obtain ⟨-, -, -, -, hsame, -⟩ := init_sound hb.rep.wired hb.init
  rw [hsame p]
  dsimp only
  rw [(hb.rep.id p x hx).2]
  exact hx

/-- It has the type of its class. -/
theorem BuiltFrom.typed (hb : BuiltFrom fuel info conf name g h b es r n) (ht : Typed info b) {p : NodePtr}
    (hp : p ∈ g.allNodes) : info (h p).name = some (h p).type := by
  have htype := ht.type _ p (hb.rep.mem_nodesMap.2 (hb.number hp))
  obtain ⟨-, -, -, -, hsame, -⟩ := init_sound hb.rep.wired hb.init
  rw [htype, hsame p]

end Built

/-! ## One call -/

section Calls

variable {Conn : Type u} {fuel : ℕ} {factory : Str → Option NodeType} {channelInit : TransportConf → Bool}
  {site : RedisSite Conn} {files : ConfFiles} {conf : FrameConf} {path : Str} {f f' : Frame Conn} {suc : Bool}

/-- What the four managers do, one after the other. -/
theorem initServices_iff : initServices fuel site files conf f = some (.ok (suc, f')) ↔
    ∃ shm redis clients nodes m, conf.shmcacheConfFile = some shm ∧ conf.redisClientConfFile = some redis ∧
      redisClientManagerInit fuel site f.clientMap (files.redisClients redis) = some (.ok clients) ∧
      conf.nodeServiceConfFile = some nodes ∧
      nodeManagerInit f.downstreamMap clients f.nodesMap (files.nodeServices nodes) = .ok (suc, m) ∧
      f' = { f with initStatus := some (files.shmcache shm), clientMap := clients, nodesMap := m } := by
  unfold initServices
  constructor
  · intro h
    split at h
    · cases h
    · rename_i shm h1
      dsimp only at h
      split at h
      · cases h
      · rename_i redis h2
        split at h
        · cases h
        · cases h
        · rename_i clients h3
          split at h
          · cases h
          · rename_i nodes h4
            split at h
            · cases h
            · rename_i suc' m h5
              obtain ⟨rfl, rfl⟩ := Prod.mk.inj (Except.ok.inj (Option.some.inj h))
              exact ⟨shm, redis, clients, nodes, m, getConf_ok_iff.1 h1, getConf_ok_iff.1 h2, h3, getConf_ok_iff.1 h4,
                h5, rfl⟩
  · rintro ⟨shm, redis, clients, nodes, m, h1, h2, h3, h4, h5, rfl⟩
    simp only [getConf_ok_iff.2 h1, getConf_ok_iff.2 h2, h3, getConf_ok_iff.2 h4, h5]

/-- **How `init_graph_frame` returns**: at one of three places. -/
theorem initGraphFrame_cases (h : initGraphFrame fuel factory site files path f = some (.ok (suc, f'))) :
    (files.frame path = none ∧ suc = false ∧ f' = f) ∨
    (∃ conf, files.frame path = some conf ∧ initServices fuel site files conf f = some (.ok (false, f')) ∧ suc = false) ∨
    ∃ conf f₁ graphs m, files.frame path = some conf ∧ initServices fuel site files conf f = some (.ok (true, f₁)) ∧
      conf.graphConfFile = some graphs ∧
      graphManagerInit fuel (f₁.nodeManager.info factory) f₁.graphMap (files.graphs graphs) = some (.ok (suc, m)) ∧
      f' = { f₁ with graphMap := m } := by
  unfold initGraphFrame at h
  cases hconf : files.frame path with
  | none =>
    rw [hconf] at h
    obtain ⟨rfl, rfl⟩ := Prod.mk.inj (Except.ok.inj (Option.some.inj h))
    exact Or.inl ⟨rfl, rfl, rfl⟩
  | some conf =>
    rw [hconf] at h
    dsimp only at h
    split at h
    · cases h
    · cases h
    · rename_i f₁ hserv
      obtain ⟨rfl, rfl⟩ := Prod.mk.inj (Except.ok.inj (Option.some.inj h))
      exact Or.inr (Or.inl ⟨conf, rfl, hserv, rfl⟩)
    · rename_i f₁ hserv
      split at h
      · cases h
      · rename_i graphs hgraphs
        split at h
        · cases h
        · cases h
        · rename_i suc' m hm
          obtain ⟨rfl, rfl⟩ := Prod.mk.inj (Except.ok.inj (Option.some.inj h))
          exact Or.inr (Or.inr ⟨conf, f₁, graphs, m, rfl, hserv, getConf_ok_iff.1 hgraphs, hm, rfl⟩)

/-- **What a name stands for** in `f`, it stands for in `f'`. -/
structure Frame.Grows (f f' : Frame Conn) : Prop where
  downstreams : FirstWins.Grows f.downstreamMap f'.downstreamMap
  clients : FirstWins.Grows f.clientMap f'.clientMap
  nodes : FirstWins.Grows f.nodesMap f'.nodesMap
  graphs : FirstWins.Grows f.graphMap f'.graphMap

theorem Frame.Grows.refl (f : Frame Conn) : f.Grows f := ⟨.refl _, .refl _, .refl _, .refl _⟩

theorem Frame.Grows.trans {f'' : Frame Conn} (h : f.Grows f') (h' : f'.Grows f'') : f.Grows f'' :=
  ⟨h.downstreams.trans h'.downstreams, h.clients.trans h'.clients, h.nodes.trans h'.nodes, h.graphs.trans h'.graphs⟩

theorem grows_insertAll {κ ν : Type*} [BEq κ] [LawfulBEq κ] (m es : List (κ × ν)) : FirstWins.Grows m (insertAll m es) := by
  intro x v hx
  rw [lookup_insertAll, hx, Option.some_or]

theorem grows_initServices (h : initServices fuel site files conf f = some (.ok (suc, f'))) : f.Grows f' := by
  obtain ⟨shm, redis, clients, nodes, m, -, -, hclients, -, hnodes, rfl⟩ := initServices_iff.1 h
  obtain ⟨made, -, rfl⟩ := redisClientManagerInit_iff.1 hclients
  exact ⟨.refl _, grows_insertAll _ _, grows_nodeManagerInit hnodes, .refl _⟩

theorem grows_initGraphFrame (h : initGraphFrame fuel factory site files path f = some (.ok (suc, f'))) : f.Grows f' := by
  rcases initGraphFrame_cases h with ⟨-, -, rfl⟩ | ⟨conf, -, hserv, -⟩ | ⟨conf, f₁, graphs, m, -, hserv, -, hm, rfl⟩
  · exact .refl _
  · exact grows_initServices hserv
  · have hgrows := grows_initServices hserv
    exact ⟨hgrows.downstreams, hgrows.clients, hgrows.nodes, hgrows.graphs.trans (registered_all _ hm).1⟩

/-- A channel that has been inserted stays, whatever the file says about its name. -/
theorem grows_gtransportManagerInit {es : List (Str × TransportConf)} : ∀ {ds ds' : DownstreamMap} {suc : Bool},
    gtransportManagerInit channelInit ds es = .ok (suc, ds') → FirstWins.Grows ds ds' := by
  induction es with
  | nil =>
    intro ds ds' suc h
    obtain ⟨-, rfl⟩ := Prod.mk.inj (Except.ok.inj h)
    exact .refl _
  | cons e es ih =>
    intro ds ds' suc h
    simp only [gtransportManagerInit, ok_bind_iff] at h
    obtain ⟨-, -, -, -, -, -, -, -, -, -, -, -, -, -, h⟩ := h
    split at h
    · exact (grows_insertNew _ _ _).trans (ih h)
    · obtain ⟨-, rfl⟩ := Prod.mk.inj (Except.ok.inj h)
      exact .refl _

/-! ## Programs -/

variable {p p' : Program Conn} {c : InitCall Conn}

theorem grows_step (h : p.step fuel factory channelInit files c = some p') : p.frame.Grows p'.frame := by
  cases c with
  | frame path site =>
    simp only [Program.step] at h
    split at h
    · rename_i suc f hinit
      obtain rfl := Option.some.inj h
      exact grows_initGraphFrame hinit
    · cases h
  | transports path =>
    simp only [Program.step] at h
    split at h
    · rename_i suc ds hinit
      obtain rfl := Option.some.inj h
      exact ⟨grows_gtransportManagerInit hinit, .refl _, .refl _, .refl _⟩
    · cases h

/-- **Nothing is ever redefined**: whatever `init` functions a program calls, on whatever
files and with whatever results, a transport, a redis client, a node and a graph that have
been found under a name are found under it from then on. -/
theorem frame_grows {cs : List (InitCall Conn)} (h : Machine.run (Program.step fuel factory channelInit files) p cs = some p') :
    p.frame.Grows p'.frame :=
  Machine.run_inv (fun q => p.frame.Grows q.frame) (fun _ _ _ hq hstep => hq.trans (grows_step hstep)) cs _ _
    (.refl _) h

/-- `done` comes after `start`. -/
def startDone : GraphConf :=
  [("start".toList, { root := some true, children := some "done".toList }), ("done".toList, {})]

/-- A channel to the naming service given. -/
def transportTo (ns : Str) : TransportConf where
  ns := some ns
  loadBalancer := some "rr".toList
  timeoutMs := some 50
  backupTimeoutMs := some 50
  connectionType := some "pooled".toList
  maxRetry := some 1
  protocal := some "http".toList

/-- One file of each kind, a second node file that gives `done` another class, and transport
files that disagree. -/
def confFiles : ConfFiles where
  frame path := some {
    shmcacheConfFile := some "shm".toList
    redisClientConfFile := some "redis".toList
    nodeServiceConfFile := some path
    graphConfFile := some "graph".toList }
  shmcache _ := 0
  redisClients _ := [("cache".toList,
    { address := some "host".toList, poolSize := some 50, maxPoolSize := some 50, timeoutMs := some 50 })]
  nodeServices path :=
    if path = "first".toList then
      [("start".toList, { clazz := some "Start".toList }),
        ("done".toList, { clazz := some "Done".toList, downstream := some "cache".toList })]
    else [("done".toList, { clazz := some "Start".toList })]
  graphs _ := [("graph".toList, startDone)]
  transports path := [("rpc".toList, transportTo path)]

/-- The registered classes. -/
def factoryOf : Str → Option NodeType :=
  fun clazz => if clazz = "Start".toList ∨ clazz = "Done".toList then some .cpu else none

/-- A redis server that knows of one master. -/
def oneMaster : RedisSite Unit := ⟨fun _ _ _ _ => some (), fun _ _ => .text (masterLine "5".toList) fun _ => 1⟩

/-- The second files change nothing. -/
theorem frame_grows_twice : ∃ p p',
    Machine.run (Program.step 9 factoryOf (fun _ => true) confFiles) {}
      [.frame "first".toList oneMaster, .transports "first".toList] = some p ∧
    Machine.run (Program.step 9 factoryOf (fun _ => true) confFiles) p
      [.frame "second".toList oneMaster, .transports "second".toList] = some p' ∧ p'.results = [true, true, true, true] ∧
    p'.frame.nodesMap.lookup "done".toList = some { clazz := some "Done".toList, downstream := some "cache".toList } ∧
    p'.frame.downstreamMap.getTransport "rpc".toList = some (transportTo "first".toList) := by
  obtain ⟨p, h, hnode, hrpc⟩ : ∃ p, Machine.run (Program.step 9 factoryOf (fun _ => true) confFiles) {}
      [.frame "first".toList oneMaster, .transports "first".toList] = some p ∧
      p.frame.nodesMap.lookup "done".toList = some { clazz := some "Done".toList, downstream := some "cache".toList } ∧
      p.frame.downstreamMap.getTransport "rpc".toList = some (transportTo "first".toList) := ⟨_, rfl, rfl, rfl⟩
  obtain ⟨p', h', hresults⟩ : ∃ p', Machine.run (Program.step 9 factoryOf (fun _ => true) confFiles) p
      [.frame "second".toList oneMaster, .transports "second".toList] = some p' ∧
      p'.results = [true, true, true, true] := by
    cases h
    exact ⟨_, rfl, rfl⟩
  have hgrows := frame_grows h'
  exact ⟨p, p', h, h', hresults, hgrows.nodes _ _ hnode, hgrows.downstreams _ _ hrpc⟩

/-- Each registered graph has been accepted, and its nodes are known. -/
def Frame.Registered (factory : Str → Option NodeType) (f : Frame Conn) : Prop :=
  ∀ e ∈ f.graphMap, (∃ es r, Accepted e.2.1 e.2.2 es r) ∧ ∀ n ∈ e.2.1.allNodes, ∃ c,
    f.nodesMap.lookup (e.2.2 n).name = some c ∧ factory (c.clazz.getD []) = some (e.2.2 n).type

/-- Each known node has a class, and its `downstream` is found. -/
def Frame.Resolved (f : Frame Conn) : Prop :=
  ∀ x c, f.nodesMap.lookup x = some c → c.Fits f.downstreamMap f.clientMap

theorem isSome_lookup_grows {ν : Type*} {m m' : List (Str × ν)} {x : Str} (hm : FirstWins.Grows m m')
    (h : (m.lookup x).isSome) : (m'.lookup x).isSome := by
  obtain ⟨v, hv⟩ := Option.isSome_iff_exists.1 h
  rw [hm x v hv]
  rfl

theorem Downstream.mono {ds ds' : DownstreamMap} {cl cl' : ClientMap Conn} {x : Str}
    (hds : FirstWins.Grows ds ds') (hcl : FirstWins.Grows cl cl') (h : Downstream ds cl x) : Downstream ds' cl' x := by
  rcases h with h | h
  · exact Or.inl (isSome_lookup_grows hds h)
  · exact Or.inr (isSome_lookup_grows hcl h)

theorem ServiceConf.Fits.mono {ds ds' : DownstreamMap} {cl cl' : ClientMap Conn} {c : ServiceConf}
    (hds : FirstWins.Grows ds ds') (hcl : FirstWins.Grows cl cl') (h : c.Fits ds cl) : c.Fits ds' cl' :=
  ⟨h.1, h.2.imp_right (Downstream.mono hds hcl)⟩

theorem Frame.Registered.grows (h : f.Registered factory) (hnodes : FirstWins.Grows f.nodesMap f'.nodesMap)
    (hgraphs : f'.graphMap = f.graphMap) : f'.Registered factory := by
  intro e he
  rw [hgraphs] at he
  obtain ⟨hacc, hall⟩ := h e he
  refine ⟨hacc, fun n hn => ?_⟩
  obtain ⟨c, hc, ht⟩ := hall n hn
  exact ⟨c, hnodes _ _ hc, ht⟩

theorem lookup_map_snd {κ ν ν' : Type*} [BEq κ] (g : ν → ν') (m : List (κ × ν)) (x : κ) :
    (m.map fun e => (e.1, g e.2)).lookup x = (m.lookup x).map g := by
  induction m with
  | nil => rfl
  | cons e m ih =>
    rw [List.map_cons, List.lookup_cons, List.lookup_cons]
    cases x == e.1 with
    | true => rfl
    | false => exact ih

/-- What a graph is built with. -/
theorem info_nodeManager (f : Frame Conn) (factory : Str → Option NodeType) (x : Str) :
    f.nodeManager.info factory x = (f.nodesMap.lookup x).bind fun c => factory (c.clazz.getD []) := by
  unfold NodeManager.info NodeManager.getNodeInfo Frame.nodeManager
  rw [lookup_map_snd (fun c : ServiceConf => c.clazz.getD [])]
  cases f.nodesMap.lookup x <;> rfl

theorem registered_initGraphFrame (hf : f.Registered factory)
    (h : initGraphFrame fuel factory site files path f = some (.ok (suc, f'))) : f'.Registered factory := by
  rcases initGraphFrame_cases h with ⟨-, -, rfl⟩ | ⟨conf, -, hserv, -⟩ | ⟨conf, f₁, graphs, m, -, hserv, -, hm, rfl⟩
  · exact hf
  · refine hf.grows (grows_initServices hserv).nodes ?_
    obtain ⟨shm, redis, clients, nodes, m, -, -, -, -, -, rfl⟩ := initServices_iff.1 hserv
    rfl
  · have hsame : f₁.graphMap = f.graphMap := by
      obtain ⟨shm, redis, clients, nodes, m, -, -, -, -, -, rfl⟩ := initServices_iff.1 hserv
      rfl
    have hf₁ := hf.grows (grows_initServices hserv).nodes hsame
    intro e he
    rcases (registered_all _ hm).2 e he with hold | ⟨gconf, b, es, r, n, hb, ht⟩
    · exact hf₁ e hold
    · refine ⟨⟨es, r, hb.accepted⟩, fun q hq => ?_⟩
      have htype := hb.typed ht hq
      rw [info_nodeManager] at htype
      exact Option.bind_eq_some_iff.1 htype

theorem resolved_initServices (hf : f.Resolved) (h : initServices fuel site files conf f = some (.ok (true, f'))) : f'.Resolved := by
  have hgrows := grows_initServices h
  obtain ⟨shm, redis, clients, nodes, m, -, -, -, -, hnodes, rfl⟩ := initServices_iff.1 h
  intro x c hx
  rcases fits_nodeManagerInit hnodes hx with hold | hnew
  · exact (hf x c hold).mono hgrows.downstreams hgrows.clients
  · exact hnew

theorem resolved_initGraphFrame (hf : f.Resolved)
    (h : initGraphFrame fuel factory site files path f = some (.ok (true, f'))) : f'.Resolved := by
  rcases initGraphFrame_cases h with ⟨-, h, -⟩ | ⟨conf, -, -, h⟩ | ⟨conf, f₁, graphs, m, -, hserv, -, -, rfl⟩
  · cases h
  · cases h
  · have hres := resolved_initServices hf hserv
    exact fun x c hx => hres x c hx

/-- **What a program may rely on**, after any calls of the `init` functions: each registered
graph has been accepted, with no cycle and no node that its root does not lead to, and each
of its nodes is configured, with a registered class whose type it has. If no call has
returned `false`, each known node also has its `downstream`. -/
theorem frame_consistent {cs : List (InitCall Conn)}
    (h : Machine.run (Program.step fuel factory channelInit files) {} cs = some p) :
    p.frame.Registered factory ∧ (false ∉ p.results → p.frame.Resolved) := by
  apply Machine.run_inv (fun p => p.frame.Registered factory ∧ (false ∉ p.results → p.frame.Resolved)) ?_ cs _ _ ?_ h
  · rintro p c p' ⟨hreg, hres⟩ hstep
    cases c with
    | frame path site =>
      simp only [Program.step] at hstep
      split at hstep
      · rename_i suc f hinit
        obtain rfl := Option.some.inj hstep
        refine ⟨registered_initGraphFrame hreg hinit, fun hno => ?_⟩
        rw [List.mem_append, not_or, List.mem_singleton] at hno
        cases suc with
        | true => exact resolved_initGraphFrame (hres hno.1) hinit
        | false => exact absurd rfl hno.2
      · cases hstep
    | transports path =>
      simp only [Program.step] at hstep
      split at hstep
      · rename_i suc ds hinit
        obtain rfl := Option.some.inj hstep
        refine ⟨hreg.grows (.refl _) rfl, fun hno x c hx => ?_⟩
        rw [List.mem_append, not_or] at hno
        exact (hres hno.1 x c hx).mono (grows_gtransportManagerInit hinit) (.refl _)
      · cases hstep
  · refine ⟨fun e he => ?_, fun _ x c hx => ?_⟩
    · cases he
    · cases hx

theorem frame_consistent_twice : ∃ p,
    Machine.run (Program.step 9 factoryOf (fun _ => true) confFiles) {} [.frame "first".toList oneMaster, .frame "second".toList oneMaster] =
      some p ∧ p.frame.graphMap.map Prod.fst = ["graph".toList] ∧ p.frame.Registered factoryOf ∧ p.frame.Resolved := by
  have h : Machine.run (Program.step 9 factoryOf (fun _ => true) confFiles) {}
    [.frame "first".toList oneMaster, .frame "second".toList oneMaster] = some _ := rfl
  obtain ⟨hreg, hres⟩ := frame_consistent h
  exact ⟨_, h, rfl, hreg, hres (by decide)⟩

end Calls

end Graphize
