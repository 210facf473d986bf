import Graphize.Proof.Recorded
import Graphize.Proof.ClusterRoutes
import Graphize.Proof.RedisPartly
import Graphize.Proof.RedisSplits
import Graphize.Proof.MgetBatches
import Graphize.Proof.Startup

/-!
# A service in front of redis clusters

Keys are split by their slots, a client sends each batch to the node that owns the slot of
its first key, and the reply is matched with the keys by position. Together: every key is
parsed with the value that its owner holds.

* `sendBatch_follows`: one batch, at a client that knows the owners.
* `Replayed.serves`, `Replayed.not_fails`: what has been recorded so far is right, and the
  next step does not end the process.
* `cluster_parses`: every run of a deployment.
-/

namespace Graphize

universe u

section

variable {ρ : Type*} {Conn : Type u} {env : DeploymentEnv ρ Conn} {cl : Cluster} {up : Str → Bool}
  {held : Str → Bytes → Option Bytes}

/-! ## Clusters -/

/-- The command for a batch. -/
def commandFor (env : DeploymentEnv ρ Conn) (keys : List Bytes) : List Bytes :=
  if env.service.enableMultiGet then mget :: keys else ascii "GET".toList :: keys

/-- What the nodes of a cluster answer to the command for keys of one slot, of which there
is one if there is no `MGET`: its owner, if it is up, with the values that it holds, and
others with an error. -/
structure Cluster.Serves (cl : Cluster) (env : DeploymentEnv ρ Conn) (up : Str → Bool)
    (held : Str → Bytes → Option Bytes) : Prop where
  own : ∀ e k keys, cl.owner k = some e → keys ≠ [] → (env.service.enableMultiGet = false → keys.length = 1) →
    (∀ key ∈ keys, (getKeySlot key).toNat = k) →
    (env.serve e (commandFor env keys)).values = if up e then keys.map (held e) else []
  foreign : ∀ e k keys, e ∈ cl.masters → cl.owner k = none → (∀ key ∈ keys, (getKeySlot key).toNat = k) →
    (env.serve e (commandFor env keys)).values = []

/-- What the cluster answers for a key, if it does. -/
def Cluster.answer (cl : Cluster) (up : Str → Bool) (held : Str → Bytes → Option Bytes) (key : Bytes) :
    Option (Option Bytes) :=
  (cl.owner (getKeySlot key).toNat).bind fun e => if up e then some (held e key) else none

/-! ## One batch -/

/-- A reply is never without a first element. -/
def DeploymentEnv.Replies (env : DeploymentEnv ρ Conn) : Prop :=
  ∀ e command, (env.serve e command).failed = false → (env.serve e command).response ≠ some []

variable {c c' : RedisClient Conn} {keys : List Bytes} {i step : ℕ}

/-- The command that is sent is the one for the batch. -/
theorem commandOf_batch (hshares : env.service.enableMultiGet = true → ∀ x, env.shares x = true)
    (hstep : 0 < step) (hone : env.service.enableMultiGet = false → step = 1) (hi : i < keys.length)
    (hfit : keys.length + step < 2 ^ 31) :
    commandOf env keys i step = some (commandFor env ((keys.drop i).take step)) := by
  unfold commandOf commandFor
  cases hmget : env.service.enableMultiGet with
  | true =>
    have hbatch : RedisClient.multiFetchKeys keys i (i + step) = (keys.drop i).take step := by
      unfold RedisClient.multiFetchKeys
      rw [List.drop_take, Nat.add_sub_cancel_left]
    have hasks : AsksFor env.shares (keys.length + 1) keys (i : ℤ) ((i + step : ℕ) : ℤ) :=
      (asksFor_iff hi (by omega) (by omega) (by omega) (by omega)).2 fun x _ _ _ _ => Or.inl (hshares hmget x)
    obtain ⟨f, hparts, -, hcomponents⟩ := hasks
    rw [Int.toNat_natCast, Int.toNat_natCast, hbatch] at hcomponents
    simp only [if_true, hparts, Option.bind_some, hcomponents]
  | false =>
    rw [hone hmget, List.take_one, List.head?_drop, List.getElem?_eq_getElem hi]
    rfl

/-- The call is the request for the first key, and where it goes is where this key goes. -/
theorem callOf_request (hi : i < keys.length) :
    callOf env c keys i step = c.request keys[i] ∧ hostOf env c keys i = c.fetchHost keys[i] := by
  have hkey : keys[i]? = some keys[i] := List.getElem?_eq_getElem hi
  have hroom : ¬min (i + step) keys.length < i := by omega
  constructor
  · unfold callOf
    rw [hkey]
    split
    · unfold RedisClient.multiFetch
      simp only [if_neg hroom, hkey]
    · rfl
  · unfold hostOf
    rw [hkey]
    split
    · unfold RedisClient.multiFetchHost
      simp only [hkey]
      rfl
    · rfl

/-- **A batch of keys of one slot**, at a client that knows the owners: it is accepted, and
it is answered for all of its keys or for none. -/
theorem sendBatch_follows (hserves : cl.Serves env up held) (hreplies : env.Replies) (hc : cl.Follows c)
    (hshares : env.service.enableMultiGet = true → ∀ x, env.shares x = true)
    (hstep : 0 < step) (hone : env.service.enableMultiGet = false → step = 1) (hi : i < keys.length)
    (hfit : keys.length + step < 2 ^ 31) (hslot : ∀ k ∈ keys, ∀ k' ∈ keys, getKeySlot k = getKeySlot k') :
    ∃ reply c', sendBatch env c keys i step = .ok (true, reply, c') ∧
      (reply.failed = false → reply.response ≠ some []) ∧
      reply.values = ((keys.drop i).take step).filterMap (cl.answer up held) ∧
      ((∀ key ∈ (keys.drop i).take step, (cl.answer up held key).isSome) ∨
        ∀ key ∈ (keys.drop i).take step, cl.answer up held key = none) := by
  obtain ⟨hcall, hhost⟩ : callOf env c keys i step = c.request keys[i] ∧ hostOf env c keys i = c.fetchHost keys[i] :=
    callOf_request hi
  obtain ⟨hp, c', hfetch, howner, hmaster, hreq, -⟩ := hc.served keys[i]
  have hmem : ∀ key ∈ (keys.drop i).take step, getKeySlot key = getKeySlot keys[i] := fun key hkey =>
    hslot key (List.mem_of_mem_drop (List.mem_of_mem_take hkey)) _ (List.getElem_mem hi)
  have hne : (keys.drop i).take step ≠ [] := by
    rw [← List.length_pos_iff, List.length_take, List.length_drop]
    omega
  refine ⟨env.serve hp.ipPort (commandFor env ((keys.drop i).take step)), c', ?_, hreplies _ _, ?_⟩
  · unfold sendBatch
    rw [commandOf_batch hshares hstep hone hi hfit, hcall, hreq, hhost, hfetch]
    rfl
  · cases hk : cl.owner (getKeySlot keys[i]).toNat with
    | none =>
      have hnone : ∀ key ∈ (keys.drop i).take step, cl.answer up held key = none := by
        intro key hkey
        unfold Cluster.answer
        rw [hmem key hkey, hk]
        rfl
      refine ⟨?_, Or.inr hnone⟩
      rw [hserves.foreign _ _ _ (hmaster hk) hk fun key hkey => by rw [hmem key hkey],
        List.filterMap_eq_nil_iff.2 hnone]
    | some e =>
      have hanswer : ∀ key ∈ (keys.drop i).take step,
          cl.answer up held key = if up e then some (held e key) else none := by
        intro key hkey
        unfold Cluster.answer
        rw [hmem key hkey, hk, Option.bind_some]
      have hlength : env.service.enableMultiGet = false → ((keys.drop i).take step).length = 1 := by
        intro hmget
        rw [List.length_take, List.length_drop, hone hmget]
        omega
      rw [howner e hk, hserves.own e _ _ hk hne hlength fun key hkey => by rw [hmem key hkey],
        List.filterMap_congr hanswer]
      cases hup : up e with
      | true =>
        refine ⟨?_, Or.inl fun key hkey => ?_⟩
        · simp only [if_true, List.filterMap_eq_map']
        · rw [hanswer key hkey, hup]
          rfl
      | false =>
        refine ⟨?_, Or.inr fun key hkey => ?_⟩
        · simp
        · rw [hanswer key hkey, hup]
          rfl

theorem sendBatch_replies (hreplies : env.Replies) {accepted : Bool} {reply : RpcReply}
    (h : sendBatch env c keys i step = .ok (accepted, reply, c')) : reply.failed = false → reply.response ≠ some [] := by
  unfold sendBatch at h
  split at h
  · simp only [Except.ok.injEq, Prod.mk.injEq] at h
    obtain ⟨-, rfl, -⟩ := h
    cases hostOf env c keys i with
    | none => simp
    | some host => exact hreplies _ _
  · cases h
  · cases h

end

/-! ## What has been recorded -/

section

variable {ρ : Type*} {Conn : Type u}

/-- The service splits keys as redis does, and its clusters serve it: `cl` gives the cluster
of each client, `up` the servers that are up, and `held` what they hold. -/
structure Hosted (env : DeploymentEnv ρ Conn) (cl : Str → Cluster) (up : Str → Bool) (held : Str → Bytes → Option Bytes) :
    Prop where
  noThrow : env.service.NoThrow
  batchSize : env.service.BatchSizeOK
  paral : env.service.enableParalParse = true
  slot : ∀ key, env.service.slot key = (getKeySlot key).toNat
  fuel : 16384 < env.fuel
  connects : env.client.Connects
  builds : env.client.Builds
  shares : env.service.enableMultiGet = true → ∀ x, env.shares x = true
  replies : env.Replies
  serves : ∀ id, (cl id).Serves env up held

/-- What is to be fetched for a request at a node, which has not served any before. -/
structure RedisNode.Asks (env : RedisEnv ρ) (node : RedisNode) (req : ρ) : Prop where
  fresh : ∀ info ∈ node.fetchInfoVec, info.keys = []
  plain : ∀ info ∈ node.fetchInfoVec, info.compress ≠ "snappy".toList
  distinct : (node.fetchInfoVec.flatMap (generated env req)).Nodup
  size : ∀ info ∈ node.fetchInfoVec, (generated env req info).length < 2 ^ 30

theorem RedisNode.Asks.nodup {env : RedisEnv ρ} {node : RedisNode} {req : ρ} (h : node.Asks env req) :
    ∀ info ∈ node.fetchInfoVec, (generated env req info).Nodup := (List.nodup_flatMap.1 h.distinct).1

/-- A node that has been initialised from its configuration, before its first request. -/
theorem RedisNode.asks_of_init {env : RedisEnv ρ} {node : RedisNode} {req : ρ} {confs : List FetchInfoConf}
    (h : redisServiceInit (some confs) = .ok node.fetchInfoVec)
    (hplain : ∀ conf ∈ confs, conf.compress ≠ some "snappy".toList)
    (hdistinct : (node.fetchInfoVec.flatMap (generated env req)).Nodup)
    (hsize : ∀ info ∈ node.fetchInfoVec, (generated env req info).length < 2 ^ 30) : node.Asks env req := by
  obtain ⟨l, hl, hinfos⟩ := redisServiceInit_ok_iff.1 h
  cases hl
  have hconf : ∀ info ∈ node.fetchInfoVec, ∃ conf ∈ confs, FetchInfo.ofConf conf = .ok info := by
    intro info hinfo
    obtain ⟨⟨j, hj⟩, rfl⟩ := List.mem_iff_get.1 hinfo
    obtain ⟨hlength, hread⟩ := List.forall₂_iff_get.1 hinfos
    exact ⟨confs.get ⟨j, hlength ▸ hj⟩, List.get_mem _ _, hread j _ hj⟩
  refine ⟨fun info hinfo => ?_, fun info hinfo heq => ?_, hdistinct, hsize⟩
  · obtain ⟨conf, -, hread⟩ := hconf info hinfo
    exact (FetchInfo.ofConf_ok_iff.1 hread).2.2.2.2.2.2.2.2.2.1
  · obtain ⟨conf, hmem, hread⟩ := hconf info hinfo
    refine hplain conf hmem ?_
    rw [(FetchInfo.ofConf_ok_iff.1 hread).2.2.2.2.2.1, heq]

/-- The keys of a fetch info are some of those generated for a configured one, and of one
slot if they are sent. -/
theorem RedisNode.Asks.part {env : RedisEnv ρ} {node : RedisNode} {req : ρ} (h : node.Asks env req) {b : Backend}
    {x : FetchInfo} (hx : x ∈ (node.doService env req b).node.fetchInfoVec) : x.keys.length < 2 ^ 30 ∧
      (env.hasClient x.redisClientId = true → ∀ k ∈ x.keys, ∀ k' ∈ x.keys, env.slot k = env.slot k') := by
  rcases doService_cases env node req b with ⟨hnil, heq⟩ | ⟨vec, data, hmade, -, heq⟩
  · rw [heq, hnil] at hx
    cases hx
  · rw [heq] at hx
    obtain ⟨origins, hsplit⟩ : ∃ origins, SplitUp env req node.fetchInfoVec vec data origins :=
      ⟨_, splitUp_made (fun info hinfo => Or.inr (h.fresh info hinfo))
        (fun info hinfo => (h.nodup info hinfo).filter _) hmade⟩
    refine ⟨?_, fun hc k hk k' hk' => hsplit.oneSlot hx hc hk hk'⟩
    obtain ⟨j, hj⟩ := List.mem_iff_getElem?.1 hx
    have hlt : j < origins.length := by
      rw [hsplit.length]
      exact (List.getElem?_eq_some_iff.1 hj).1
    have hzip : (vec.zip origins)[j]? = some (x, origins[j]) :=
      List.getElem?_zip_eq_some.2 ⟨hj, List.getElem?_eq_getElem hlt⟩
    obtain ⟨info, hinfo, hpart⟩ := hsplit.part _ (List.mem_of_getElem? hzip)
    exact hpart.ordered.length_le.trans_lt (h.size info (List.mem_of_getElem? hinfo))

theorem FetchInfo.step_le {env : RedisEnv ρ} {info : FetchInfo} (hb : env.BatchSizeOK) (hk : info.keys ≠ []) :
    info.step env ≤ info.keys.length := by
  have hn : 0 < info.keys.length := List.length_pos_iff.2 hk
  unfold FetchInfo.step
  split
  · exact batchCount_le_self (info.batches_pos hb hk)
  · exact hn

theorem vec_run {env : RedisEnv ρ} {s s' : Serving} {ts : List ℕ} (h : Machine.run (Serving.step env) s ts = some s') :
    s'.node.fetchInfoVec = s.node.fetchInfoVec :=
  Machine.run_inv (fun x => x.node.fetchInfoVec = s.node.fetchInfoVec)
    (fun _ _ _ hvec hstep => (step_opEffect hstep).1.vec.trans hvec) ts s s' rfl h

variable {env : DeploymentEnv ρ Conn} {cl : Str → Cluster} {up : Str → Bool} {held : Str → Bytes → Option Bytes}
  {node : RedisNode} {req : ρ} {d d' : Deployment Conn} {ts : List ℕ}

/-- Clients that know the owners. -/
abbrev Followed (env : DeploymentEnv ρ Conn) (cl : Str → Cluster) (node : RedisNode) (req : ρ) (d : Deployment Conn)
    (ts : List ℕ) : Prop := Replayed env (fun id c => (cl id).Follows c) node req Backend.unasked d ts

/-- A batch can be sent. -/
theorem batch_follows (hE : Hosted env cl up held) (hQ : node.Asks env.service req) {b : Backend} {info : FetchInfo}
    {i : ℕ} (hinfo : info ∈ (node.doService env.service req b).node.fetchInfoVec) (hact : info.Active env.service)
    (hi : i < info.keys.length) {c : RedisClient Conn} (hc : (cl info.redisClientId).Follows c) :
    ∃ reply c', sendBatch env c info.keys i (info.step env.service) = .ok (true, reply, c') ∧
      (reply.failed = false → reply.response ≠ some []) ∧
      reply.values = (info.batch env.service i).filterMap ((cl info.redisClientId).answer up held) ∧
      ((∀ key ∈ info.batch env.service i, ((cl info.redisClientId).answer up held key).isSome) ∨
        ∀ key ∈ info.batch env.service i, (cl info.redisClientId).answer up held key = none) := by
  obtain ⟨hlength, hslot⟩ := hQ.part hinfo
  have hstep := info.step_le hE.batchSize hact.keys
  refine sendBatch_follows (hE.serves _) hE.replies hc hE.shares (info.step_pos hE.batchSize hact.keys)
    (fun hmget => ?_) hi (by omega) fun k hk k' hk' => ?_
  · unfold FetchInfo.step
    rw [hmget]
    rfl
  · have hsame := hslot hact.client k hk k' hk'
    rw [hE.slot, hE.slot] at hsame
    exact UInt32.toNat_inj.1 hsame

theorem Replayed.vec {P : Str → RedisClient Conn → Prop} {b : Backend} (hR : Replayed env P node req b d ts)
    (b' : Backend) : d.serving.node.fetchInfoVec = (node.doService env.service req b').node.fetchInfoVec := by
  rw [vec_run hR.run, ← doService_setBackend node req b']
  rfl

/-- What has been recorded of a batch that was sent. -/
theorem Replayed.sent (hE : Hosted env cl up held) (hQ : node.Asks env.service req) (hR : Followed env cl node req d ts)
    {j i : ℕ} {info : FetchInfo} (hbatch : IsBatch env.service d.serving.node.fetchInfoVec j i info) {ks : List Bytes}
    {accepted : Bool} (hsent : .issue j i ks accepted ∈ d.serving.request.log) :
    d.serving.request.backend.accepts j i = true ∧
      (d.serving.request.backend.reply j i).values =
        (info.batch env.service i).filterMap ((cl info.redisClientId).answer up held) ∧
      ((∀ key ∈ info.batch env.service i, ((cl info.redisClientId).answer up held key).isSome) ∨
        ∀ key ∈ info.batch env.service i, (cl info.redisClientId).answer up held key = none) := by
  obtain ⟨haccepted, info', c, c', hinfo, -, hc, hsend⟩ := hR.recorded j i ks accepted hsent
  rw [hbatch.1, Option.some.injEq] at hinfo
  subst hinfo
  have hmem : info ∈ (node.doService env.service req Backend.unasked).node.fetchInfoVec := by
    rw [← hR.vec Backend.unasked]
    exact List.mem_of_getElem? hbatch.1
  obtain ⟨reply, c'', hsend', -, hvalues, hwhole⟩ := batch_follows hE hQ hmem hbatch.2.1 hbatch.2.2.2 hc
  rw [hsend, Except.ok.injEq, Prod.mk.injEq, Prod.mk.injEq] at hsend'
  obtain ⟨htrue, hreply, -⟩ := hsend'
  exact ⟨by rw [← haccepted, htrue], by rw [hreply, hvalues], hwhole⟩

/-- **The recorded backend** is one that serves the request. -/
theorem Replayed.serves (hE : Hosted env cl up held) (hQ : node.Asks env.service req) (hR : Followed env cl node req d ts) :
    d.serving.request.backend.Replies ∧
      (∀ j i info, IsBatch env.service d.serving.node.fetchInfoVec j i info →
        d.serving.request.backend.accepts j i = true) ∧
      d.serving.request.backend.Fits env.service d.serving.node.fetchInfoVec := by
  refine ⟨fun j i => ?_, fun j i info hbatch => ?_, fun j i info hbatch => ?_⟩ <;>
    by_cases hsent : ∃ ks accepted, .issue j i ks accepted ∈ d.serving.request.log
  · obtain ⟨ks, accepted, hsent⟩ := hsent
    obtain ⟨-, info, c, c', -, -, -, hsend⟩ := hR.recorded j i ks accepted hsent
    exact sendBatch_replies hE.replies hsend
  · rw [(hR.untouched j i fun ks accepted h => hsent ⟨ks, accepted, h⟩).2]
    simp [Backend.unasked]
  · obtain ⟨ks, accepted, hsent⟩ := hsent
    exact (hR.sent hE hQ hbatch hsent).1
  · rw [(hR.untouched j i fun ks accepted h => hsent ⟨ks, accepted, h⟩).1]
    rfl
  · obtain ⟨ks, accepted, hsent⟩ := hsent
    rw [(hR.sent hE hQ hbatch hsent).2.1]
    exact List.length_filterMap_le _ _
  · rw [(hR.untouched j i fun ks accepted h => hsent ⟨ks, accepted, h⟩).2]
    exact Nat.zero_le _

/-! ## The request -/

theorem bound_backend (b b' : Backend) : node.bound env.service req b = node.bound env.service req b' := by
  unfold RedisNode.bound
  rw [← doService_setBackend node req b' b]
  rfl

/-- What can be said of a request does not depend on what was recorded at its start. -/
theorem Finishes.of_setBackend {env : RedisEnv ρ} {s₀ s : Serving} {b : Backend} (h : Finishes env (s₀.setBackend b) s) :
    Finishes env s₀ s where
  crash := h.crash
  process := h.process
  output := h.output
  before := h.before
  order := h.order
  waiting := h.waiting
  done := h.done

/-- **The request** is not ended by what its clients are told. -/
theorem Replayed.finishes (hE : Hosted env cl up held) (hQ : node.Asks env.service req)
    (hR : Followed env cl node req d ts) : ts.length ≤ node.bound env.service req Backend.unasked ∧
      Finishes env.service (node.doService env.service req Backend.unasked) d.serving := by
  obtain ⟨hreplies, haccepts, hfits⟩ := hR.serves hE hQ
  rw [hR.vec d.serving.request.backend] at haccepts hfits
  have hserved : Served env.service (node.doService env.service req d.serving.request.backend).node.fetchInfoVec
      d.serving.request.backend := fun j info hinfo hact =>
    haccepts j 0 info ⟨hinfo, hact, ⟨0, (Nat.zero_mul _).symm⟩, List.length_pos_iff.2 hact.keys⟩
  have hret := along_of_served hE.noThrow.cachedNoThrow hE.batchSize hreplies hfits hserved ts _
    (inv_doService node req _) items_doService
  obtain ⟨hlength, hfinishes⟩ := finishes_of_returns hE.batchSize hreplies hret hR.run
  rw [bound_backend _ Backend.unasked] at hlength
  rw [← doService_setBackend node req Backend.unasked] at hfinishes
  exact ⟨hlength, hfinishes.of_setBackend⟩

/-- **The values**: by the time of `process_response` all batches have been sent. -/
theorem Replayed.parses (hE : Hosted env cl up held) (hQ : node.Asks env.service req)
    (hR : Followed env cl node req d ts) {l l' : List RedisEvent} (hl : d.serving.request.log = l ++ .process :: l') :
    (parsedLog l).Perm (node.fetchInfoVec.flatMap
        (plannedPartly env.service node.cache req fun id => (cl id).answer up held)) ∧
      ((parsedLog l).map fun p => p.1).Nodup := by
  obtain ⟨hreplies, haccepts, -⟩ := hR.serves hE hQ
  obtain ⟨-, hfinishes⟩ := hR.finishes hE hQ
  have hsent : ∀ j i info, IsBatch env.service d.serving.node.fetchInfoVec j i info →
      ∃ ks accepted, .issue j i ks accepted ∈ d.serving.request.log := by
    intro j i info hbatch
    rw [hR.vec Backend.unasked] at hbatch
    rw [hl]
    rcases (hfinishes.before l l' hl).1 j i info hbatch with h | ⟨h, -⟩
    · exact ⟨_, _, List.mem_append_left _ h⟩
    · exact ⟨_, _, List.mem_append_left _ h⟩
  have hpartly : d.serving.request.backend.Partly env.service d.serving.node.fetchInfoVec
      fun id => (cl id).answer up held := by
    refine ⟨haccepts, fun j i info hbatch => ?_, fun j i info hbatch => ?_⟩
    · obtain ⟨ks, accepted, h⟩ := hsent j i info hbatch
      exact (hR.sent hE hQ hbatch h).2.1
    · obtain ⟨ks, accepted, h⟩ := hsent j i info hbatch
      exact (hR.sent hE hQ hbatch h).2.2
  rw [hR.vec d.serving.request.backend] at hpartly
  exact request_parses_partly hE.noThrow hE.batchSize hE.paral hreplies (fun info hinfo => Or.inr (hQ.fresh info hinfo))
    hQ.plain hQ.distinct hpartly hR.run hl

/-! ## Steps and runs -/

/-- Every reply that a client is refreshed with describes its cluster. -/
def Described (cl : Str → Cluster) (turns : List DeploymentTurn) : Prop :=
  ∀ id reply, .refresh id reply ∈ turns → ∃ data unset, reply = .text data unset ∧ (cl id).Describes data

variable {turns : List DeploymentTurn}

theorem Hosted.keptBy (hE : Hosted env cl up held) (hturns : Described cl turns) :
    KeptBy env turns fun id c => (cl id).Follows c := by
  refine ⟨fun id c key ret c' hc hreq => hc.request hreq, fun id reply hmem c c' hc hupdate => ?_⟩
  obtain ⟨data, unset, rfl, hdata⟩ := hturns id reply hmem
  exact hc.refresh hE.fuel hE.connects hdata hupdate

theorem StepKind.present {turn : DeploymentTurn} (h : StepKind env d d' turn) {id : Str}
    (hid : (d.clients id).isSome) : (d'.clients id).isSome := by
  have hupdate : ∀ (id' : Str) (c : RedisClient Conn), (Function.update d.clients id' (some c) id).isSome := by
    intro id' c
    unfold Function.update
    split
    · rename_i heq
      cases heq
      rfl
    · exact hid
  cases h with
  | plain hnext hstep hclients => rwa [hclients]
  | issue hnext hclient hsend hstep hclients =>
    rw [hclients]
    exact hupdate _ _
  | use hclient hcall hserving hclients =>
    rw [hclients]
    exact hupdate _ _
  | refresh hclient hcall hserving hclients =>
    rw [hclients]
    exact hupdate _ _

/-- **No step fails**: the clients are there, they have connections, and they survive their
refreshes. -/
theorem Replayed.not_fails (hE : Hosted env cl up held) (hQ : node.Asks env.service req) (hturns : Described cl turns)
    (hR : Followed env cl node req d ts) (hpresent : ∀ id, env.service.hasClient id = true → (d.clients id).isSome)
    (hc : d.serving.request.crash = none) {turn : DeploymentTurn} (hturn : turn ∈ turns) : ¬StepFails env d turn := by
  intro h
  cases h with
  | missing hnext hclient =>
    have hsome := hpresent _ (hR.fresh hc hnext).1.1.client
    rw [hclient] at hsome
    cases hsome
  | @send t j i step fetchInfo c crash hnext hclient hsend =>
    obtain ⟨⟨hact, rfl⟩, -⟩ := hR.fresh hc hnext
    obtain ⟨-, hinfo, hi⟩ := nextIssue_iff.1 hnext
    have hmem : fetchInfo ∈ (node.doService env.service req Backend.unasked).node.fetchInfoVec := by
      rw [← hR.vec Backend.unasked]
      exact List.mem_of_getElem? hinfo
    obtain ⟨reply, c', hsend', -⟩ := batch_follows hE hQ hmem hact hi (hR.clients _ c hclient)
    rw [hsend] at hsend'
    cases hsend'
  | @use id key c hclient hcall =>
    obtain ⟨hp, c', -, -, -, hcall', -⟩ := (hR.clients id c hclient).served key
    rw [hcall] at hcall'
    cases hcall'
  | @refresh id reply c e hclient hupdate =>
    obtain ⟨data, unset, rfl, hdata⟩ := hturns id reply hturn
    obtain ⟨c', hupdate'⟩ := hdata.refreshed hE.fuel hE.builds c unset
    rw [hupdate] at hupdate'
    cases hupdate'

/-- **A run**, from any state that has been reached. -/
theorem Hosted.run (hE : Hosted env cl up held) (hQ : node.Asks env.service req) (hturns : Described cl turns) :
    ∀ (rest : List DeploymentTurn) (ts : List ℕ) (d : Deployment Conn), (∀ turn ∈ rest, turn ∈ turns) →
      Followed env cl node req d ts → (∀ id, env.service.hasClient id = true → (d.clients id).isSome) →
      Machine.run (Deployment.step env) d rest = some d' → Followed env cl node req d' (ts ++ threadTurns rest) := by
  intro rest
  induction rest with
  | nil =>
    intro ts d _ hR _ h
    simp only [Machine.run_nil, Option.some.injEq] at h
    subst h
    rw [show threadTurns [] = [] from rfl, List.append_nil]
    exact hR
  | cons turn rest ih =>
    intro ts d hrest hR hpresent h
    obtain ⟨u, hu, hrun⟩ := Machine.run_cons_iff.1 h
    have hturn := hrest turn List.mem_cons_self
    have hc := (hR.finishes hE hQ).2.crash
    have hkind : StepKind env d u turn := (Deployment.step_kind hu).resolve_right fun hfails =>
      hR.not_fails hE hQ hturns hpresent hc hturn hfails.1
    rw [threadTurns_cons, ← List.append_assoc]
    exact ih _ u (fun turn' h' => hrest turn' (List.mem_cons_of_mem _ h')) (hR.step (hE.keptBy hturns) hturn hc hkind)
      (fun id hid => hkind.present (hpresent id hid)) hrun

/-- When no thread of the request can go on, the request itself cannot. -/
theorem Deployment.stuck (hc : d.serving.request.crash = none) (h : ∀ t, d.step env (.thread t) = none) :
    Machine.Stuck (Serving.step env.service) d.serving := by
  intro t
  have ht := h t
  unfold Deployment.step at ht
  simp only [hc, Option.isSome_none, Bool.false_eq_true, if_false] at ht
  cases hnext : d.serving.nextIssue t with
  | none =>
    simp only [hnext, Option.map_eq_none_iff] at ht
    exact ht
  | some place =>
    obtain ⟨j, i, step, fetchInfo⟩ := place
    obtain ⟨⟨rest, hop⟩, -⟩ := nextIssue_iff.1 hnext
    simp only [hnext] at ht
    unfold Deployment.issue at ht
    cases hclient : d.clients fetchInfo.redisClientId with
    | none => simp [hclient] at ht
    | some c =>
      cases hsend : sendBatch env c fetchInfo.keys i step with
      | error crash => simp [hclient, hsend] at ht
      | ok answer =>
        -- a batch does not wait
        simp only [hclient, hsend, Option.map_eq_none_iff] at ht
        unfold Serving.step at ht
        simp [hc, hop] at ht

theorem run_threads : ∀ (ts : List ℕ) (d : Deployment Conn),
    Machine.run (fun d t => d.step env (.thread t)) d ts = Machine.run (Deployment.step env) d (ts.map .thread) := by
  intro ts
  induction ts with
  | nil => intro d; rfl
  | cons t ts ih =>
    intro d
    rw [List.map_cons]
    unfold Machine.run
    cases d.step env (.thread t) with
    | none => rfl
    | some d' => exact ih d'

theorem threadTurns_threads (turns : List DeploymentTurn) (ts : List ℕ) :
    threadTurns (turns ++ ts.map .thread) = threadTurns turns ++ ts := by
  have hthreads : threadTurns (ts.map .thread) = ts := by
    induction ts with
    | nil => rfl
    | cons t ts ih =>
      rw [List.map_cons, threadTurns_cons, ih]
      rfl
  unfold threadTurns at hthreads ⊢
  rw [List.filterMap_append, hthreads]

variable {clients : Str → Option (RedisClient Conn)}

/-- What is said of clients that were made from texts that describe their clusters. -/
theorem Hosted.followed (hE : Hosted env cl up held) (hQ : node.Asks env.service req)
    (hhas : ∀ id, env.service.hasClient id = (clients id).isSome)
    (hclients : ∀ id c, clients id = some c → ∃ data unset, (cl id).Describes data ∧
      RedisClient.construct env.fuel env.client (.text data unset) = some (.ok c)) (hturns : Described cl turns)
    (h : Machine.run (Deployment.step env) ⟨clients, node.doService env.service req Backend.unasked⟩ turns = some d) :
    Followed env cl node req d (threadTurns turns) := by
  have hfollows : ∀ id c, clients id = some c → (cl id).Follows c := by
    intro id c hclient
    obtain ⟨data, unset, hdata, hmade⟩ := hclients id c hclient
    obtain ⟨c', hmade', hc'⟩ := follows_construct hE.fuel hE.connects hE.builds hdata unset
    rw [hmade, Option.some.injEq, Except.ok.injEq] at hmade'
    rw [hmade']
    exact hc'
  exact hE.run hQ hturns turns [] _ (fun _ h => h) (replayed_start hfollows) (fun id hid => by rw [← hhas]; exact hid) h

end

/-! ## An example -/

theorem getKeySlot_lt (key : Bytes) : (getKeySlot key).toNat < 16384 := by
  have hmask : ∀ crc : UInt16, (crc &&& 0x3FFF).toUInt32.toNat < 16384 := by
    intro crc
    rw [UInt16.toNat_toUInt32, UInt16.toNat_and]
    exact Nat.and_le_right.trans_lt (by decide)
  unfold getKeySlot
  simp only
  split_ifs <;> exact hmask _

/-- The server that is up. -/
def thirdServer : Str := (nodeAt 3 [] []).endpoint

/-- A service in front of the three nodes. The first of the two masters is down, and the
other one holds every key as its own value. -/
def clusterEnv : DeploymentEnv Unit Unit where
  service := crcEnv
  client := oneConnection
  fuel := 16385
  shares _ := true
  serve e command :=
    if e = thirdServer then { response := some [.array (command.tail.map some)] } else { failed := true }

/-- The two masters share the slots. -/
theorem threeNodes_claims {r : NodeRecord} (hr : r ∈ keptRecords threeNodes) {k : ℕ} (hk : r.Claims k) :
    (k ≤ 8191 ∧ r = nodeAt 1 [.master] [.range 0 8191 (by decide)]) ∨
      (8192 ≤ k ∧ r = nodeAt 3 [.myself, .master] [.range 8192 16382 (by decide), .slot 16383]) := by
  have hkept : keptRecords threeNodes = [nodeAt 1 [.master] [.range 0 8191 (by decide)],
      nodeAt 3 [.myself, .master] [.range 8192 16382 (by decide), .slot 16383]] := rfl
  obtain ⟨t, ht, hk⟩ := hk
  rw [hkept, List.mem_cons, List.mem_singleton] at hr
  rcases hr with rfl | rfl
  · rw [List.mem_singleton.1 ht] at hk
    exact Or.inl ⟨hk.2, rfl⟩
  · refine Or.inr ⟨?_, rfl⟩
    rcases List.mem_cons.1 ht with rfl | ht
    · exact hk.1
    · rw [List.mem_singleton.1 ht] at hk
      have hk' : k = 16383 := hk
      omega

theorem describes_threeNodes : (Cluster.ofRecords threeNodes).Describes (renderNodes threeNodes) := by
  refine describes_renderNodes (by decide) fun r hr r' hr' k hk hk' => ?_
  rcases threeNodes_claims hr hk with ⟨hle, rfl⟩ | ⟨hle, rfl⟩ <;>
    rcases threeNodes_claims hr' hk' with ⟨hle', rfl⟩ | ⟨hle', rfl⟩
  · rfl
  · omega
  · omega
  · rfl

/-- Every slot has an owner. -/
theorem threeNodes_owner (key : Bytes) : (Cluster.ofRecords threeNodes).owner (getKeySlot key).toNat ≠ none := by
  have hlt := getKeySlot_lt key
  have hclaim : ∃ r ∈ keptRecords threeNodes, r.Claims (getKeySlot key).toNat := by
    by_cases hk : (getKeySlot key).toNat ≤ 8191
    · exact ⟨nodeAt 1 [.master] [.range 0 8191 (by decide)], List.mem_cons_self, _, List.mem_cons_self, Nat.zero_le _, hk⟩
    · refine ⟨nodeAt 3 [.myself, .master] [.range 8192 16382 (by decide), .slot 16383],
        List.mem_cons_of_mem _ List.mem_cons_self, ?_⟩
      by_cases hk' : (getKeySlot key).toNat ≤ 16382
      · exact ⟨_, List.mem_cons_self, by show 8192 ≤ _; omega, hk'⟩
      · refine ⟨.slot 16383, List.mem_cons_of_mem _ List.mem_cons_self, ?_⟩
        show _ = 16383
        omega
  obtain ⟨r, hr, hclaim⟩ := hclaim
  have hsome : ((keptRecords threeNodes).find? fun r => covers r.node.mSlots (getKeySlot key).toNat).isSome :=
    List.find?_isSome.2 ⟨r, hr, (covers_pairs _ _).2 hclaim⟩
  intro hnone
  unfold Cluster.ofRecords at hnone
  rw [Option.map_eq_none_iff] at hnone
  rw [hnone] at hsome
  cases hsome

theorem hosted_threeNodes : Hosted clusterEnv (fun _ => Cluster.ofRecords threeNodes) (fun e => e = thirdServer)
    fun _ key => some key := by
  refine ⟨⟨fun _ _ => rfl, fun _ => rfl⟩, fun _ => Nat.one_pos, rfl, fun _ => rfl, by decide, fun _ _ => rfl,
    oneConnection_builds, fun _ _ => rfl, fun e command => ?_, fun _ => ⟨fun e k keys _ _ _ _ => ?_,
      fun e k keys _ hnone hslot => ?_⟩⟩
  · by_cases he : e = thirdServer <;> simp [clusterEnv, he]
  · by_cases he : e = thirdServer <;> simp [clusterEnv, commandFor, crcEnv, sampleEnv, RpcReply.values, he]
  · cases keys with
    | nil => by_cases he : e = thirdServer <;> simp [clusterEnv, commandFor, crcEnv, sampleEnv, RpcReply.values, he]
    | cons key keys =>
      rw [← hslot key List.mem_cons_self] at hnone
      exact absurd hnone (threeNodes_owner key)

/-- What `echoNode` is read from. -/
def echoConf : FetchInfoConf where
  keyPrefix := some "a".toList
  keyPostfix := some []
  redisClientId := some "client".toList
  keyGenFunc := some "gen".toList
  responseFunc := some []
  compress := some []
  useCache := some true
  expireTimeS := some 60

end Graphize
