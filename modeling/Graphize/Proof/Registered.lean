import Graphize.Proof.Building
import Graphize.Proof.Runs

/-!
# The graphs that `GraphManager::init` registers

* `registered`: each registered graph comes from the entry of the file with its name:
  the node loop built it and `Graph::init` accepted it.
* `registered_ids_iff`: its node ids fit the counter vector exactly when the file
  mentions no unreachable node before a reachable one.
-/

namespace Graphize

open EdgeList Numbering

variable {info : Str → Option NodeType} {fuel : ℕ}

/-- The node loop built the graph from `conf`, and `Graph::init` accepted it. -/
structure BuiltFrom (fuel : ℕ) (info : Str → Option NodeType) (conf : GraphConf) (name : Str) (g : Graph)
    (h : Heap) (b : Build) (es : List (NodePtr × NodePtr)) (r : NodePtr) (n : Str) : Prop where
  rep : Rep info b (conf.mentioned info) (conf.declared info) es
  rootName : conf.rootName info = some n
  root : (firsts (conf.mentioned info))[r]? = some n
  init : Graph.init fuel { maxNodeId := b.nodeIdGen } b.heap (some r) name = some (.ok (0, g, h))

theorem GraphMap.mem_insert {m : GraphMap} {name : Str} {v : Graph × Heap} {e : Str × Graph × Heap}
    (he : e ∈ m.insert name v) : e ∈ m ∨ (m.lookup name = none ∧ e = (name, v)) := by
  unfold GraphMap.insert at he
  by_cases hs : (m.lookup name).isSome
  · rw [if_pos hs] at he; exact Or.inl he
  · rw [if_neg hs] at he
    rcases List.mem_append.1 he with he | he
    · exact Or.inl he
    · exact Or.inr ⟨Option.not_isSome_iff_eq_none.1 hs, List.mem_singleton.1 he⟩

/-- An inserted key is found, and insertion hides nothing. -/
theorem GraphMap.lookup_insert {m : GraphMap} {name x : Str} {v : Graph × Heap}
    (hx : (m.insert name v).lookup x = none) : x ≠ name ∧ m.lookup x = none := by
  unfold GraphMap.insert at hx
  by_cases hs : (m.lookup name).isSome
  · rw [if_pos hs] at hx
    refine ⟨?_, hx⟩
    rintro rfl
    rw [hx] at hs
    simp at hs
  · rw [if_neg hs, List.lookup_append, Option.or_eq_none_iff] at hx
    refine ⟨?_, hx.1⟩
    rintro rfl
    simp at hx

/-- **Every registered graph** was built from the first entry with its name. -/
theorem registered : ∀ (file : List (Str × GraphConf)) {m m' : GraphMap},
    graphManagerInit fuel info m file = some (.ok (true, m')) → ∀ e ∈ m', e ∈ m ∨
      (m.lookup e.1 = none ∧ ∃ conf, file.lookup e.1 = some conf ∧
        ∃ b es r n, BuiltFrom fuel info conf e.1 e.2.1 e.2.2 b es r n) := by
  intro file
  induction file with
  | nil =>
    intro m m' hrun e he
    simp only [graphManagerInit, Option.some.injEq, Except.ok.injEq, Prod.mk.injEq, true_and] at hrun
    subst hrun
    exact Or.inl he
  | cons gc file ih =>
    obtain ⟨name, conf⟩ := gc
    intro m m' hrun e he
    -- the first entry is built on its own heap, from an empty one
    obtain ⟨b, r, g, h, hb, hinit, hrun'⟩ := graphManagerInit_true hrun
    obtain ⟨b', root, es, hb', hrep, hroot, hnone⟩ := @entries_spec info conf {} [] [] [] none none
      rep_empty rfl (by simp)
    simp only [List.nil_append, Option.or_none] at hrep hroot hnone
    obtain ⟨rfl, rfl⟩ : b' = b ∧ root = some r := Prod.mk.inj (hb'.symm.trans hb)
    obtain ⟨n, hn⟩ : ∃ n, GraphConf.rootName info conf = some n := by
      rw [← Option.ne_none_iff_exists']
      intro h0
      exact absurd (hnone.2 h0) (by simp)
    rw [hn, Option.bind_some] at hroot
    -- an entry that was there before the rest of the file is the one just added or older
    rcases ih hrun' e he with he' | ⟨hlk, c, hc, hbuilt⟩
    · rcases GraphMap.mem_insert he' with he' | ⟨hlk, rfl⟩
      · exact Or.inl he'
      · exact Or.inr ⟨hlk, conf, by simp, b', es, r, n, hrep, hn, hroot, hinit⟩
    · obtain ⟨hne, hlk'⟩ := GraphMap.lookup_insert hlk
      refine Or.inr ⟨hlk', c, ?_, hbuilt⟩
      rw [List.lookup_cons, beq_false_of_ne hne]
      exact hc

/-! ## The ids of a registered graph -/

/-- The node ids are distinct and index `node_input_num_map`. -/
def IdsInRange (g : Graph) (h : Heap) : Prop :=
  (∀ a ∈ g.allNodes, ∀ b ∈ g.allNodes, (h a).id = (h b).id → a = b) ∧
    ∀ a ∈ g.allNodes, (h a).id < g.allNodes.length

instance (g : Graph) (h : Heap) : Decidable (IdsInRange g h) := inferInstanceAs (Decidable (_ ∧ _))

/-- Before the first mention of a node that the root reaches, only such nodes are
mentioned. -/
def GraphConf.ReachedFirst (info : Str → Option NodeType) (conf : GraphConf) (root : Str) : Prop :=
  ∀ pre x post, conf.mentioned info = pre ++ x :: post → x ∉ pre → Reach (conf.declared info) root x →
    ∀ y ∈ pre, Reach (conf.declared info) root y

variable {conf : GraphConf} {name : Str} {g : Graph} {h : Heap} {b : Build} {es : List (NodePtr × NodePtr)}
  {r : NodePtr} {n : Str}

theorem BuiltFrom.accepted (hb : BuiltFrom fuel info conf name g h b es r n) : Accepted g h es r :=
  accepted_of_init hb.rep.wired hb.init

/-- A node's id is its address, and every address the root reaches has a name. -/
theorem BuiltFrom.node (hb : BuiltFrom fuel info conf name g h b es r n) {p : NodePtr}
    (hp : p ∈ g.allNodes) : (h p).id = p ∧ p ≤ g.maxNodeId ∧
      ∃ x, (firsts (conf.mentioned info))[p]? = some x ∧ Reach (conf.declared info) n x := by
  obtain ⟨-, hmax, -, hmem, hsame, -⟩ := init_sound hb.rep.wired hb.init
  have hreach := (hmem p).1 hp
  obtain ⟨x, hx⟩ := hb.rep.exists_name hb.root hreach
  refine ⟨?_, ?_, x, hx, (hb.rep.reach_iff hb.root hx).1 hreach⟩
  · rw [hsame p]
    exact (hb.rep.id p x hx).1
  · rw [hmax]
    show p ≤ b.nodeIdGen
    rw [hb.rep.nodeIdGen]
    exact (List.getElem?_eq_some_iff.1 hx).1.le

/-- **When the ids fit.** The ids of a registered graph are its addresses, so they fit
the counter vector when the nodes reached have no gap below them. -/
theorem BuiltFrom.idsInRange_iff (hb : BuiltFrom fuel info conf name g h b es r n) :
    IdsInRange g h ↔ conf.ReachedFirst info n := by
  have hcard : g.nodes.card = g.allNodes.length := List.toFinset_card_of_nodup hb.accepted.nodup
  have hids : IdsInRange g h ↔ ∀ p ∈ g.nodes, p < g.nodes.card := by
    unfold IdsInRange
    rw [hcard]
    constructor
    · rintro ⟨-, h2⟩ p hp
      have := h2 p (mem_nodes.1 hp)
      rwa [(hb.node (mem_nodes.1 hp)).1] at this
    · intro hlt
      refine ⟨fun a ha c hc he => ?_, fun a ha => ?_⟩
      · rwa [(hb.node ha).1, (hb.node hc).1] at he
      · rw [(hb.node ha).1]
        exact hlt a (mem_nodes.2 ha)
  -- membership in `all_nodes`, by name
  have hnode : ∀ {p : ℕ} {x : Str}, (firsts (conf.mentioned info))[p]? = some x →
      (p ∈ g.nodes ↔ Reach (conf.declared info) n x) := by
    intro p x hp
    rw [mem_nodes, hb.accepted.mem, hb.rep.reach_iff hb.root hp]
  rw [hids, forall_lt_card_iff]
  constructor
  · intro hgap pre x post hsplit hx hreach y hy
    have hxm : x ∈ conf.mentioned info := by rw [hsplit]; simp
    have hym : y ∈ conf.mentioned info := by rw [hsplit]; exact List.mem_append_left _ hy
    obtain ⟨p, hp⟩ := exists_number hxm
    obtain ⟨q, hq⟩ := exists_number hym
    have hlt : q < p := by
      rw [hsplit] at hp hq
      exact (mem_of_lt hx hp hq).2 hy
    exact (hnode hq).1 (hgap p ((hnode hp).2 hreach) q hlt)
  · intro hcond p hp q hq
    obtain ⟨-, -, x, hx, hreach⟩ := hb.node (mem_nodes.1 hp)
    obtain ⟨y, hy⟩ : ∃ y, (firsts (conf.mentioned info))[q]? = some y :=
      ⟨_, List.getElem?_eq_getElem (lt_trans hq (List.getElem?_eq_some_iff.1 hx).1)⟩
    obtain ⟨pre, post, hsplit, hpre⟩ := List.eq_append_cons_of_mem (mem_of_number hx)
    refine (hnode hy).2 (hcond pre x post hsplit hpre hreach y ?_)
    rw [hsplit] at hx hy
    exact (mem_of_lt hpre hx hy).1 hq

/-- **Whether a registered graph indexes its counters in range.** On every file that
`GraphManager::init` accepts, the ids of a registered graph are distinct and in range,
and no run of it under any schedule meets a fault, exactly when the file mentions no
node that the root does not reach before one that it reaches. -/
theorem registered_ids_iff {ρ C : Type*} {file : List (Str × GraphConf)} {m : GraphMap}
    (hrun : graphManagerInit fuel info [] file = some (.ok (true, m))) {name : Str} {g : Graph} {h : Heap}
    (he : (name, g, h) ∈ m) :
    ∃ conf root, file.lookup name = some conf ∧ conf.rootName info = some root ∧
      ((IdsInRange g h ∧ ∀ (B : Behaviour ρ C) (req : ρ) s₀ as s, g.run h B = some s₀ →
          Machine.run (RunState.step h B req) s₀ as = some s → s.fault = none) ↔
        conf.ReachedFirst info root) := by
  rcases registered file hrun _ he with hmem | ⟨-, conf, hconf, b, es, r, n, hb⟩
  · simp at hmem
  · refine ⟨conf, n, hconf, hb.rootName, ?_⟩
    rw [← hb.idsInRange_iff]
    refine ⟨And.left, fun hids => ⟨hids, fun B req s₀ as s h0 hrun => ?_⟩⟩
    have hid : IdsOK g h := ⟨hids.1, hids.2, fun a ha => by
      obtain ⟨h1, h2, -⟩ := hb.node ha
      rw [h1]
      exact h2⟩
    obtain ⟨N, hN⟩ := behind_run req hb.accepted hid h0
    obtain ⟨-, ph, hbe⟩ := hN as s hrun
    exact hbe.sim.fault

/-- A file whose first entry is an isolated node: the root gets id `1` in a graph of one
node. -/
def isolated : List (Str × GraphConf) :=
  [("g".toList, [("a".toList, {}), ("b".toList, { root := some true })])]

/-- Its graph is registered and every run of it starts out of range. -/
theorem registered_ids_isolated :
    ∃ m g h, graphManagerInit 2 (fun _ => some .cpu) [] isolated = some (.ok (true, m)) ∧
      ("g".toList, g, h) ∈ m ∧ ¬IdsInRange g h ∧
      ∃ s₀, g.run h (ρ := Unit) (C := Unit) ⟨fun _ => (), fun _ _ _ => (false, none), fun _ _ => []⟩ = some s₀ ∧
        s₀.fault = some .outOfRange :=
  ⟨_, _, _, rfl, List.mem_singleton.2 rfl, by decide, _, rfl, rfl⟩

/-- The same nodes with the root first: the condition holds. -/
def rootFirst : List (Str × GraphConf) :=
  [("g".toList, [("b".toList, { root := some true }), ("a".toList, {})])]

theorem registered_ids_rootFirst :
    ∃ m g h, graphManagerInit 2 (fun _ => some .cpu) [] rootFirst = some (.ok (true, m)) ∧
      ("g".toList, g, h) ∈ m ∧ IdsInRange g h ∧
      ∃ conf root, rootFirst.lookup "g".toList = some conf ∧
        conf.rootName (fun _ => some .cpu) = some root ∧
        ((IdsInRange g h ∧ ∀ (B : Behaviour Unit Unit) req s₀ as s, g.run h B = some s₀ →
            Machine.run (RunState.step h B req) s₀ as = some s → s.fault = none) ↔
          conf.ReachedFirst (fun _ => some .cpu) root) := by
  refine ⟨_, _, _, rfl, List.mem_singleton.2 rfl, by decide, ?_⟩
  exact @registered_ids_iff _ 2 Unit Unit rootFirst _ rfl _ _ _ (List.mem_singleton.2 rfl)

end Graphize
