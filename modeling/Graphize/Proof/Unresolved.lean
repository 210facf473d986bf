import Graphize.Proof.Reordered
import Graphize.Proof.Registered

/-!
# Names that do not resolve

An entry whose name does not resolve ends the node loop, and a token that does not is
skipped. What has been built by then goes through `Graph::init` like any other graph.

* `graphManagerInit_live`: the entries that the loop does not get to might as well be
  absent.
* `BuiltFrom.carried_iff`: a registered graph has all that its configuration declares
  exactly when every name declared is reached from the root.
* `init_strict_iff`: when `GraphManager::init` refuses what does not resolve and
  registers nothing less than what is declared.
-/

namespace Graphize

open EdgeList Numbering Relation

variable {info : Str → Option NodeType}

/-! ## What is asked of `init` -/

/-- Some name of the file is unknown to the `NodeManager`. -/
def Unresolved (mgr : NodeManager) (o : List (Str × GraphConf)) : Prop :=
  ∃ e ∈ o, ∃ x, e.2.Names x ∧ mgr.getNodeInfo x = none

/-- The graph has every node and every edge that `conf` declares, by name. -/
structure GraphConf.Carried (conf : GraphConf) (v : Graph × Heap) : Prop where
  node : ∀ x, conf.Names x → ∃ p ∈ v.1.allNodes, (v.2 p).name = x
  edge : ∀ x y, conf.Declares x y → ∃ p ∈ v.1.allNodes, ∃ q ∈ v.1.allNodes,
    (v.2 p).name = x ∧ (v.2 q).name = y ∧ q ∈ (v.2 p).outNodes

/-- On this enumeration `GraphManager::init` returns false if a name does not resolve, and
never true with a graph that lacks a declared node or edge. -/
def InitStrict (mgr : NodeManager) (factory : Str → Option NodeType) (o : List (Str × GraphConf)) : Prop :=
  ∃ F, ∀ fuel, F ≤ fuel → ∃ r, graphManagerInit fuel (mgr.info factory) [] o = some r ∧
    (Unresolved mgr o → ∃ m, r = .ok (false, m)) ∧
    ∀ m, r = .ok (true, m) → ∀ e ∈ o, ∀ v, m.lookup e.1 = some v → e.2.Carried v

/-! ## When it is given -/

/-- What the node loop makes of the entries has a root and can be scheduled from it. -/
def GraphConf.Ready (info : Str → Option NodeType) (conf : GraphConf) : Prop :=
  ∃ n, conf.rootName info = some n ∧ (conf.live info).Schedulable info n

/-- The first graph that is not ready has a root. -/
def RejectedFirst (info : Str → Option NodeType) (o : List (Str × GraphConf)) : Prop :=
  ∃ pre e post n, o = pre ++ e :: post ∧ (∀ e' ∈ pre, e'.2.Ready info) ∧
    e.2.rootName info = some n ∧ ¬(e.2.live info).Schedulable info n

/-- Every name of the configuration is reached from the root. -/
def GraphConf.AllReached (info : Str → Option NodeType) (conf : GraphConf) : Prop :=
  ∀ n, conf.rootName info = some n → ∀ x, conf.Names x → ReflTransGen ((conf.live info).Links info) n x

/-! ## The entries that the loop gets to -/

theorem live_known (conf : GraphConf) : (conf.live info).Known info := by
  intro e he
  have hsome := List.mem_takeWhile_imp he
  exact hsome

theorem live_live (conf : GraphConf) : GraphConf.live info (conf.live info) = conf.live info :=
  live_eq (live_known conf)

theorem rootName_live (conf : GraphConf) : GraphConf.rootName info (conf.live info) = conf.rootName info := by
  unfold GraphConf.rootName
  rw [live_live]

/-- The edges that the loop meets, on names. -/
theorem edge_live (conf : GraphConf) : Edge (conf.declared info) = (conf.live info).Links info := by
  rw [← edge_links (live_known conf)]
  unfold GraphConf.declared
  rw [live_live]

/-- **The rest is not read.** -/
theorem entries_live : ∀ (conf : GraphConf) {b : Build} {M : List Str} {E : List (Str × Str)}
    {es : List (NodePtr × NodePtr)} (root : Option NodePtr), Rep info b M E es →
    Build.entries info b root (conf.live info) = Build.entries info b root conf := by
  intro conf
  induction conf with
  | nil => intro b M E es root _; rfl
  | cons e conf ih =>
    obtain ⟨n, c⟩ := e
    intro b M E es root hr
    cases hi : info n with
    | none =>
      rw [live_stop info hi]
      unfold Build.entries
      rw [hr.create_none hi]
    | some t =>
      obtain ⟨p, b₁, hcr, hr₁, hp⟩ := hr.create (x := n) (by rw [hi]; rfl)
      obtain ⟨es₂, hr₂⟩ := children_spec (tokens c.children) hr₁ hp
      obtain ⟨es₃, hr₃⟩ := parents_spec (tokens c.parents) hr₂ (firsts_getElem?_append hp _)
      rw [live_cons info (by rw [hi]; rfl)]
      unfold Build.entries
      rw [hcr]
      exact ih _ hr₃

theorem graphManagerInit_live (fuel : ℕ) : ∀ (o : List (Str × GraphConf)) (m : GraphMap),
    graphManagerInit fuel info m (o.map fun e => (e.1, e.2.live info)) = graphManagerInit fuel info m o := by
  intro o
  induction o with
  | nil => intro m; rfl
  | cons e o ih =>
    intro m
    rw [List.map_cons]
    unfold graphManagerInit
    simp only [entries_live e.2 none rep_empty, ih]

/-! ## What a registered graph carries -/

/-- A listed name is one of the tokens, trimmed. -/
theorem listed_tokens {attr : Option Str} {x : Str} (hx : x ∈ listed attr) :
    ∃ c ∈ tokens attr, c ≠ [] ∧ trim c = x := by
  obtain ⟨hx, hne⟩ := List.mem_filter.1 hx
  have hne : x ≠ [] := by simpa using hne
  rw [← map_trim_splitOn] at hx
  obtain ⟨c, hc, rfl⟩ := List.mem_map.1 hx
  refine ⟨c, ?_, ?_, rfl⟩
  · unfold tokens
    simp only
    rw [if_neg]
    · exact hc
    · intro h0
      rw [h0, List.splitOn_nil, List.mem_singleton] at hc
      rw [hc] at hne
      exact hne rfl
  · rintro rfl
    exact hne rfl

section Carried

variable {fuel : ℕ} {conf : GraphConf} {name : Str} {g : Graph} {h : Heap} {b : Build}
  {es : List (NodePtr × NodePtr)} {r : NodePtr} {n : Str}

/-- The names of a declared edge are names of the configuration. -/
theorem GraphConf.Declares.names {x y : Str} (hxy : conf.Declares x y) : conf.Names x ∧ conf.Names y := by
  rcases hxy with ⟨c, he, hy⟩ | ⟨c, he, hx⟩
  · exact ⟨⟨_, he, Or.inl rfl⟩, ⟨_, he, Or.inr (Or.inl hy)⟩⟩
  · exact ⟨⟨_, he, Or.inr (Or.inr hx)⟩, ⟨_, he, Or.inl rfl⟩⟩

/-- A declared edge between names that resolve is made. -/
theorem GraphConf.Declares.links {x y : Str} (hxy : conf.Declares x y) (hx : (info x).isSome)
    (hy : (info y).isSome) : conf.Links info x y := by
  rcases hxy with ⟨c, he, hl⟩ | ⟨c, he, hl⟩
  · obtain ⟨t, ht, hne, rfl⟩ := listed_tokens hl
    refine Or.inl ⟨c, he, List.mem_filter.2 ⟨List.mem_map.2 ⟨t, List.mem_filter.2 ⟨ht, ?_⟩, rfl⟩, hy⟩⟩
    simpa using hne
  · obtain ⟨t, ht, -, rfl⟩ := listed_tokens hl
    exact Or.inr ⟨c, he, List.mem_filter.2 ⟨List.mem_map.2 ⟨t, ht, rfl⟩, hx⟩⟩

/-- The nodes of a registered graph are the names that the root reaches. -/
theorem BuiltFrom.mem_iff (hb : BuiltFrom fuel info conf name g h b es r n) {x : Str} :
    (∃ p ∈ g.allNodes, (h p).name = x) ↔ ReflTransGen ((conf.live info).Links info) n x := by
  obtain ⟨-, -, -, hmem, hsame, -⟩ := init_sound hb.rep.wired hb.init
  rw [← edge_live]
  constructor
  · rintro ⟨p, hp, rfl⟩
    obtain ⟨-, -, x, hx, hreach⟩ := hb.node hp
    rw [hsame p]
    show Reach _ n (b.heap p).name
    rw [(hb.rep.id p x hx).2]
    exact hreach
  · intro hx
    have hxm : x ∈ conf.mentioned info := by
      rcases hx.cases_tail with rfl | ⟨y, -, hyx⟩
      · exact mem_of_number hb.root
      · exact (hb.rep.declared _ hyx).2
    obtain ⟨p, hp⟩ := exists_number hxm
    refine ⟨p, (hmem p).2 ((hb.rep.reach_iff hb.root hp).2 hx), ?_⟩
    rw [hsame p]
    exact (hb.rep.id p x hp).2

/-- **A registered graph has all that is declared** exactly when its root reaches every
name. -/
theorem BuiltFrom.carried_iff (hb : BuiltFrom fuel info conf name g h b es r n) :
    conf.Carried (g, h) ↔ ∀ x, conf.Names x → ReflTransGen ((conf.live info).Links info) n x := by
  constructor
  · exact fun hc x hx => hb.mem_iff.1 (hc.node x hx)
  · intro hall
    obtain ⟨-, -, -, hmem, hsame, -⟩ := init_sound hb.rep.wired hb.init
    -- what the root reaches has been created
    have hnum : ∀ x, conf.Names x → ∃ p : ℕ, (firsts (conf.mentioned info))[p]? = some x ∧ p ∈ g.allNodes ∧
        (h p).name = x := by
      intro x hx
      obtain ⟨p, hp, hname⟩ := hb.mem_iff.2 (hall x hx)
      obtain ⟨-, -, y, hy, -⟩ := hb.node hp
      have hyx : (b.heap p).name = x := by
        rw [hsame p] at hname
        exact hname
      rw [(hb.rep.id p y hy).2] at hyx
      exact ⟨p, by rw [← hyx]; exact hy, hp, hname⟩
    have hsome : ∀ x, conf.Names x → (info x).isSome := fun x hx => by
      obtain ⟨p, hp, -⟩ := hnum x hx
      exact hb.rep.known x (mem_of_number hp)
    have hlive : conf.live info = conf := live_eq fun e he => hsome e.1 ⟨e, he, Or.inl rfl⟩
    refine ⟨fun x hx => hb.mem_iff.2 (hall x hx), fun x y hxy => ?_⟩
    obtain ⟨hx, hy⟩ := hxy.names
    obtain ⟨p, hp, hpm, hpn⟩ := hnum x hx
    obtain ⟨q, hq, hqm, hqn⟩ := hnum y hy
    refine ⟨p, hpm, q, hqm, hpn, hqn, ?_⟩
    have hedge : Edge (conf.declared info) x y := by
      rw [edge_live, hlive]
      exact hxy.links (hsome x hx) (hsome y hy)
    have hout : (h p).outNodes = (b.heap p).outNodes := by rw [hsame p]
    show q ∈ (h p).outNodes
    rw [hout, hb.rep.wired.out p, mem_succs]
    exact (hb.rep.edge p q).2 ⟨x, y, hedge, hp, hq⟩

end Carried

/-! ## The file -/

section File

variable {o : List (Str × GraphConf)}

/-- The verdict is a rejection when the first graph that is not ready has a root. -/
theorem verdict_reject_iff : ∀ o : List (Str × GraphConf),
    verdict info (o.map fun e => (e.1, e.2.live info)) = .reject ↔ RejectedFirst info o := by
  intro o
  induction o with
  | nil =>
    constructor
    · intro hv
      exact Verdict.noConfusion hv
    · rintro ⟨pre, e, post, n, heq, -⟩
      exact absurd heq.symm (by simp)
  | cons e o ih =>
    have hroot := @rootName_live info e.2
    rw [List.map_cons]
    -- whether the first graph decides
    cases hn : e.2.rootName info with
    | none =>
      rw [verdict_crash (hroot.trans hn)]
      refine ⟨fun hv => Verdict.noConfusion hv, ?_⟩
      rintro ⟨pre, e', post, n, heq, hpre, hn', -⟩
      cases pre with
      | nil =>
        obtain ⟨rfl, -⟩ := List.cons.inj heq
        rw [hn] at hn'
        exact absurd hn' (by simp)
      | cons e₀ pre =>
        obtain ⟨rfl, -⟩ := List.cons.inj heq
        obtain ⟨n₀, hn₀, -⟩ := hpre e List.mem_cons_self
        rw [hn] at hn₀
        exact absurd hn₀ (by simp)
    | some n =>
      by_cases hs : (e.2.live info).Schedulable info n
      · rw [verdict_next (hroot.trans hn) hs, ih]
        constructor
        · rintro ⟨pre, e', post, n', rfl, hpre, hn', hs'⟩
          exact ⟨e :: pre, e', post, n', rfl, List.forall_mem_cons.2 ⟨⟨n, hn, hs⟩, hpre⟩, hn', hs'⟩
        · rintro ⟨pre, e', post, n', heq, hpre, hn', hs'⟩
          cases pre with
          | nil =>
            obtain ⟨rfl, -⟩ := List.cons.inj heq
            rw [hn, Option.some.injEq] at hn'
            rw [← hn'] at hs'
            exact absurd hs hs'
          | cons e₀ pre =>
            obtain ⟨rfl, rfl⟩ := List.cons.inj heq
            exact ⟨pre, e', post, n', rfl, (List.forall_mem_cons.1 hpre).2, hn', hs'⟩
      · rw [verdict_reject (hroot.trans hn) hs]
        exact ⟨fun _ => ⟨[], e, o, n, rfl, by simp, hn, hs⟩, fun _ => rfl⟩

theorem verdict_ready_iff (o : List (Str × GraphConf)) :
    verdict info (o.map fun e => (e.1, e.2.live info)) = .accept ↔ ∀ e ∈ o, e.2.Ready info := by
  rw [verdict_accept_iff, List.forall_mem_map]
  unfold GraphConf.Ready
  simp only [rootName_live]

/-- **The outcome of a file**, whatever resolves. -/
theorem init_outcome (hnd : (o.map Prod.fst).Nodup) : ∃ F, ∀ fuel, F ≤ fuel → ∃ r,
    graphManagerInit fuel info [] o = some r ∧
      ((∃ m, r = .ok (false, m)) ↔ RejectedFirst info o) ∧
      ((∃ m, r = .ok (true, m)) ↔ ∀ e ∈ o, e.2.Ready info) ∧
      ∀ m, r = .ok (true, m) → ∀ e ∈ o, ∃ v, m.lookup e.1 = some v := by
  have hmap : (o.map fun e => (e.1, e.2.live info)).map Prod.fst = o.map Prod.fst := by
    rw [List.map_map]
    rfl
  obtain ⟨F, hF⟩ := @init_verdict info (o.map fun e => (e.1, e.2.live info))
    (List.forall_mem_map.2 fun e _ => live_known e.2) (by rw [hmap]; exact hnd)
  refine ⟨F, fun fuel hf => ?_⟩
  obtain ⟨r, hrun, hv, -, hreg⟩ := hF fuel hf [] (by simp)
  rw [graphManagerInit_live] at hrun
  refine ⟨r, hrun, ?_, ?_, fun m hm e he => ?_⟩
  · rw [← verdict_reject_iff, ← hv]
    match r with
    | .error _ => simp [Verdict.ofResult]
    | .ok (true, _) => simp [Verdict.ofResult]
    | .ok (false, _) => simp [Verdict.ofResult]
  · rw [← verdict_ready_iff, ← hv]
    match r with
    | .error _ => simp [Verdict.ofResult]
    | .ok (true, _) => simp [Verdict.ofResult]
    | .ok (false, _) => simp [Verdict.ofResult]
  · obtain ⟨v, -, hlook, -⟩ := (hreg m hm).new (e.1, e.2.live info) (List.mem_map_of_mem he)
    exact ⟨v, hlook⟩

/-- What is registered under the name of an entry was built from it. -/
theorem builtFrom_of_lookup {fuel : ℕ} {m : GraphMap} (hnd : (o.map Prod.fst).Nodup)
    (hrun : graphManagerInit fuel info [] o = some (.ok (true, m))) {e : Str × GraphConf} (he : e ∈ o)
    {v : Graph × Heap} (hv : m.lookup e.1 = some v) :
    ∃ b es r n, BuiltFrom fuel info e.2 e.1 v.1 v.2 b es r n := by
  have hmem : (e.1, v) ∈ m := by
    obtain ⟨l₁, l₂, rfl, -⟩ := List.lookup_eq_some_iff.1 hv
    simp
  -- no two entries share a name, so the entry that was built is this one
  rcases registered o hrun _ hmem with hold | ⟨-, conf, hconf, hb⟩
  · exact absurd hold (by simp)
  · obtain ⟨l₁, l₂, rfl, -⟩ := List.lookup_eq_some_iff.1 hconf
    have heq := List.inj_on_of_nodup_map hnd he (show (e.1, conf) ∈ _ by simp) rfl
    rw [heq]
    exact hb

/-- **When `GraphManager::init` is strict.** Every enumeration of a file, whatever
resolves. -/
theorem init_strict_iff (mgr : NodeManager) (factory : Str → Option NodeType) {o : List (Str × GraphConf)}
    (hnd : (o.map Prod.fst).Nodup) : InitStrict mgr factory o ↔
      (Unresolved mgr o → RejectedFirst (mgr.info factory) o) ∧
        ((∀ e ∈ o, e.2.Ready (mgr.info factory)) → ∀ e ∈ o, e.2.AllReached (mgr.info factory)) := by
  obtain ⟨F, hF⟩ := @init_outcome (mgr.info factory) o hnd
  constructor
  · rintro ⟨F', hF'⟩
    -- both bounds on the fuel hold at their maximum, and the two runs are one
    obtain ⟨r, hrun, hfalse, htrue, hreg⟩ := hF (max F F') (le_max_left _ _)
    obtain ⟨r', hrun', hrefuse, hcarry⟩ := hF' (max F F') (le_max_right _ _)
    obtain rfl := Option.some.inj (hrun.symm.trans hrun')
    refine ⟨fun hu => hfalse.1 (hrefuse hu), fun hready e he n hn => ?_⟩
    obtain ⟨m, rfl⟩ := htrue.2 hready
    obtain ⟨v, hv⟩ := hreg m rfl e he
    obtain ⟨b, es, root, n', hb⟩ := builtFrom_of_lookup hnd hrun he hv
    have heq := hb.rootName
    rw [hn, Option.some.injEq] at heq
    rw [heq]
    exact hb.carried_iff.1 (hcarry m rfl e he v hv)
  · rintro ⟨hu, hall⟩
    refine ⟨F, fun fuel hf => ?_⟩
    obtain ⟨r, hrun, hfalse, htrue, -⟩ := hF fuel hf
    refine ⟨r, hrun, fun h => hfalse.2 (hu h), fun m hm e he v hv => ?_⟩
    rw [hm] at hrun
    obtain ⟨b, es, root, n, hb⟩ := builtFrom_of_lookup hnd hrun he hv
    exact hb.carried_iff.2 (hall (htrue.1 ⟨m, hm⟩) e he n hb.rootName)

/-- The one node known is `a`. -/
def onlyA : NodeManager := ⟨[("a".toList, "A".toList)]⟩

/-- The root comes after itself, and `b` does not resolve. -/
def selfParent : GraphConf :=
  [("a".toList, { root := some true, parents := some "a".toList }), ("b".toList, {})]

theorem init_strict_selfParent : Unresolved onlyA [("g".toList, selfParent)] ∧
    InitStrict onlyA (fun _ => some .cpu) [("g".toList, selfParent)] := by
  have hroot : selfParent.rootName (onlyA.info fun _ => some .cpu) = some "a".toList := by decide
  have hloop : "a".toList ∈ NodeConf.parentNames (onlyA.info fun _ => some .cpu)
      { root := some true, parents := some "a".toList } := by decide
  have hbad : ¬(selfParent.live (onlyA.info fun _ => some .cpu)).Schedulable (onlyA.info fun _ => some .cpu)
      "a".toList := fun hs => hs.root "a".toList (Or.inr ⟨_, List.mem_cons_self, hloop⟩)
  refine ⟨⟨_, List.mem_cons_self, "b".toList, ⟨("b".toList, {}), by decide, Or.inl rfl⟩, rfl⟩,
    (init_strict_iff onlyA _ (by decide)).2 ⟨fun _ => ⟨[], _, [], _, rfl, by simp, hroot, hbad⟩, fun hready => ?_⟩⟩
  obtain ⟨n, hn, hs⟩ := hready _ List.mem_cons_self
  rw [hroot, Option.some.injEq] at hn
  rw [← hn] at hs
  exact absurd hs hbad

/-- The root lists a child that does not resolve. -/
def lostChild : GraphConf := [("a".toList, { root := some true, children := some "b".toList })]

/-- **A child is lost**: `init` returns true with `a` alone. -/
theorem init_lostChild : ¬∀ (mgr : NodeManager) (factory : Str → Option NodeType) (o : List (Str × GraphConf)),
    (o.map Prod.fst).Nodup → InitStrict mgr factory o := by
  intro h
  obtain ⟨F, hF⟩ := h onlyA (fun _ => some .cpu) [("g".toList, lostChild)] (by decide)
  obtain ⟨r, hrun, hrefuse, -⟩ := hF (F + 2) (Nat.le_add_right _ _)
  have hb : ∃ m, graphManagerInit (F + 2) (onlyA.info fun _ => some .cpu) [] [("g".toList, lostChild)] =
      some (.ok (true, m)) := ⟨_, rfl⟩
  obtain ⟨m, hm⟩ := hb
  obtain ⟨m', rfl⟩ := hrefuse ⟨_, List.mem_cons_self, "b".toList,
    ⟨_, List.mem_cons_self, Or.inr (Or.inl (by decide))⟩, rfl⟩
  exact absurd (hrun.symm.trans hm) (by simp)

end File

end Graphize
