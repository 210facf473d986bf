import Graphize.Spec.Config
import Graphize.Proof.Wiring
import Graphize.Lib.Numbering

/-!
# What the node loop builds

The loop of `GraphManager::init` over the entries of a graph, against what the entries
say: `mentioned` lists the node names in the order in which the loop meets them,
`declared` the edges, `rootName` the root.

* `Rep`: the nodes built are the names mentioned, numbered by first mention, and their
  outputs are the declared edges, each once.
* `entries_spec`: the whole loop, for every configuration.
* `Rep.reach_iff`: reachability between nodes is reachability between names.
* `graphManagerInit_true`: what it takes for `GraphManager::init` to go on.
-/

namespace Graphize

open EdgeList Numbering Function

/-! ## What a configuration says -/

section Names

variable (info : Str → Option NodeType)

/-- The names of a token list that resolve. -/
def resolved (names : List Str) : List Str := names.filter fun n => (info n).isSome

def NodeConf.childNames (conf : NodeConf) : List Str :=
  resolved info (((tokens conf.children).filter fun c => c ≠ []).map trim)

def NodeConf.parentNames (conf : NodeConf) : List Str :=
  resolved info ((tokens conf.parents).map trim)

/-- The entries that the loop gets to. -/
def GraphConf.live (conf : GraphConf) : GraphConf := conf.takeWhile fun e => (info e.1).isSome

theorem live_stop {n : Str} (hn : info n = none) (c : NodeConf) (conf : GraphConf) :
    GraphConf.live info ((n, c) :: conf) = [] := by simp [GraphConf.live, hn]

theorem live_cons {n : Str} (hn : (info n).isSome) (c : NodeConf) (conf : GraphConf) :
    GraphConf.live info ((n, c) :: conf) = (n, c) :: GraphConf.live info conf := by simp [GraphConf.live, hn]

/-- The node names in the order in which the loop meets them. -/
def GraphConf.mentioned (conf : GraphConf) : List Str :=
  (conf.live info).flatMap fun e => e.1 :: (e.2.childNames info ++ e.2.parentNames info)

/-- The edges between node names, in the order in which the loop meets them. -/
def GraphConf.declared (conf : GraphConf) : List (Str × Str) :=
  (conf.live info).flatMap fun e =>
    ((e.2.childNames info).map fun c => (e.1, c)) ++ ((e.2.parentNames info).map fun p => (p, e.1))

/-- The name of the root: the last entry with `root: true`. -/
def GraphConf.rootName (conf : GraphConf) : Option Str :=
  ((conf.live info).filter fun e => e.2.root = some true).getLast?.map Prod.fst

variable {info} {n : Str}

theorem mentioned_cons (hn : (info n).isSome) (c : NodeConf) (conf : GraphConf) :
    GraphConf.mentioned info ((n, c) :: conf) =
      n :: (c.childNames info ++ c.parentNames info) ++ GraphConf.mentioned info conf := by
  unfold GraphConf.mentioned
  rw [live_cons info hn]
  rfl

theorem declared_cons (hn : (info n).isSome) (c : NodeConf) (conf : GraphConf) :
    GraphConf.declared info ((n, c) :: conf) =
      ((c.childNames info).map fun x => (n, x)) ++ ((c.parentNames info).map fun x => (x, n)) ++
        GraphConf.declared info conf := by
  unfold GraphConf.declared
  rw [live_cons info hn]
  rfl

/-- A later root replaces an earlier one. -/
theorem rootName_cons (hn : (info n).isSome) (c : NodeConf) (conf : GraphConf) :
    GraphConf.rootName info ((n, c) :: conf) =
      (GraphConf.rootName info conf).or (if c.root = some true then some n else none) := by
  unfold GraphConf.rootName
  rw [live_cons info hn, List.filter_cons]
  by_cases hc : c.root = some true
  · rw [if_pos (by simpa using hc), if_pos hc, List.getLast?_cons]
    cases ((GraphConf.live info conf).filter fun e => e.2.root = some true).getLast? <;> simp
  · rw [if_neg (by simpa using hc), if_neg hc]
    simp

end Names

/-! ## The invariant of the loop -/

variable {info : Str → Option NodeType} {b : Build} {M : List Str} {E : List (Str × Str)}
  {es : List (NodePtr × NodePtr)}

/-- The nodes built represent the names `M` and the edges `E`. -/
structure Rep (info : Str → Option NodeType) (b : Build) (M : List Str) (E : List (Str × Str))
    (es : List (NodePtr × NodePtr)) : Prop where
  nodesMap : b.nodesMap = (firsts M).zipIdx
  nodeIdGen : b.nodeIdGen = (firsts M).length
  known : ∀ x ∈ M, (info x).isSome
  wired : Wired b.heap es
  id : ∀ p x, (firsts M)[p]? = some x → (b.heap p).id = p ∧ (b.heap p).name = x
  nodup : es.Nodup
  declared : ∀ e ∈ E, e.1 ∈ M ∧ e.2 ∈ M
  edge : ∀ p q, (p, q) ∈ es ↔ ∃ x y, (x, y) ∈ E ∧ (firsts M)[p]? = some x ∧ (firsts M)[q]? = some y

theorem rep_empty : Rep info {} [] [] [] where
  nodesMap := rfl
  nodeIdGen := rfl
  known := by simp
  wired := Wired.fresh fun _ => ⟨rfl, rfl, rfl⟩
  id := by simp
  nodup := List.nodup_nil
  declared := by simp
  edge := by simp

/-- A name has one number. -/
theorem firsts_inj {p q : ℕ} {x : Str} (hp : (firsts M)[p]? = some x) (hq : (firsts M)[q]? = some x) : p = q := by
  obtain ⟨hp1, hp2⟩ := List.getElem?_eq_some_iff.1 hp
  obtain ⟨hq1, hq2⟩ := List.getElem?_eq_some_iff.1 hq
  exact ((firsts_nodup M).getElem_inj_iff).1 (hp2.trans hq2.symm)

theorem exists_number {x : Str} (hx : x ∈ M) : ∃ p : ℕ, (firsts M)[p]? = some x :=
  List.getElem?_of_mem (mem_firsts.2 hx)

theorem mem_of_number {p : ℕ} {x : Str} (hp : (firsts M)[p]? = some x) : x ∈ M :=
  mem_firsts.1 (List.mem_of_getElem? hp)

/-- Looking a name up in `nodes_map`. -/
theorem lookup_zipIdx : ∀ (l : List Str) (n : ℕ) (x : Str), l.Nodup →
    (∀ p, l[p]? = some x → (l.zipIdx n).lookup x = some (n + p)) ∧
      (x ∉ l → (l.zipIdx n).lookup x = none) := by
  intro l
  induction l with
  | nil => intro n x _; simp
  | cons y l ih =>
    intro n x hnd
    obtain ⟨hy, hnd'⟩ := List.nodup_cons.1 hnd
    obtain ⟨ih1, ih2⟩ := ih (n + 1) x hnd'
    rw [List.zipIdx_cons]
    by_cases hxy : x = y
    -- without duplicates the name is nowhere else
    · subst hxy
      refine ⟨fun p hp => ?_, fun hx => absurd List.mem_cons_self hx⟩
      cases p with
      | zero => simp
      | succ p =>
        rw [List.getElem?_cons_succ] at hp
        exact absurd (List.mem_of_getElem? hp) hy
    · have hlk : ((y, n) :: l.zipIdx (n + 1)).lookup x = (l.zipIdx (n + 1)).lookup x := by
        rw [List.lookup_cons, beq_false_of_ne hxy]
      rw [hlk]
      refine ⟨fun p hp => ?_, fun hx => ih2 fun hm => hx (List.mem_cons_of_mem _ hm)⟩
      cases p with
      | zero => simp at hp; exact absurd hp.symm hxy
      | succ p =>
        rw [List.getElem?_cons_succ] at hp
        rw [ih1 p hp]
        congr 1
        omega

/-- An unresolved name is not created. -/
theorem Rep.create_none (hr : Rep info b M E es) {x : Str} (hx : info x = none) :
    b.create info x = (none, b) := by
  have hxM : x ∉ M := by
    intro hm
    have := hr.known x hm
    rw [hx] at this
    simp at this
  unfold Build.create
  rw [hr.nodesMap, (lookup_zipIdx _ 0 x (firsts_nodup M)).2 (fun hm => hxM (mem_firsts.1 hm))]
  simp only [hx]

/-- No edge touches an address that is not allocated yet. -/
theorem Rep.edge_lt (hr : Rep info b M E es) {p q : ℕ} (he : (p, q) ∈ es) :
    p < b.nodeIdGen ∧ q < b.nodeIdGen := by
  obtain ⟨x, y, -, hp, hq⟩ := (hr.edge p q).1 he
  rw [hr.nodeIdGen]
  exact ⟨(List.getElem?_eq_some_iff.1 hp).1, (List.getElem?_eq_some_iff.1 hq).1⟩

/-- **Creating a node on its first mention.** -/
theorem Rep.create (hr : Rep info b M E es) {x : Str} (hx : (info x).isSome) :
    ∃ p b', b.create info x = (some p, b') ∧ Rep info b' (M ++ [x]) E es ∧
      (firsts (M ++ [x]))[p]? = some x := by
  have hres : ∀ y ∈ M ++ [x], (info y).isSome := by
    intro y hy
    rcases List.mem_append.1 hy with hy | hy
    · exact hr.known y hy
    · rw [List.mem_singleton.1 hy]; exact hx
  have hdecl : ∀ e ∈ E, e.1 ∈ M ++ [x] ∧ e.2 ∈ M ++ [x] := fun e he =>
    ⟨List.mem_append_left _ (hr.declared e he).1, List.mem_append_left _ (hr.declared e he).2⟩
  unfold Build.create
  by_cases hxM : x ∈ M
  · -- known: nothing changes
    have hfirsts : firsts (M ++ [x]) = firsts M := firsts_concat_of_mem hxM
    obtain ⟨p, hp⟩ := exists_number hxM
    rw [hr.nodesMap, (lookup_zipIdx _ 0 x (firsts_nodup M)).1 p hp]
    refine ⟨0 + p, b, rfl, ?_, by rw [hfirsts, Nat.zero_add]; exact hp⟩
    refine ⟨?_, ?_, hres, hr.wired, ?_, hr.nodup, hdecl, ?_⟩
    · rw [hfirsts]; exact hr.nodesMap
    · rw [hfirsts]; exact hr.nodeIdGen
    · rw [hfirsts]; exact hr.id
    · rw [hfirsts]; exact hr.edge
  · have hfirsts : firsts (M ++ [x]) = firsts M ++ [x] := firsts_concat_of_notMem hxM
    obtain ⟨type, ht⟩ := Option.isSome_iff_exists.1 hx
    rw [hr.nodesMap, (lookup_zipIdx _ 0 x (firsts_nodup M)).2 (fun hm => hxM (mem_firsts.1 hm))]
    simp only [ht]
    have hout : succs es b.nodeIdGen = [] := by
      rw [List.eq_nil_iff_forall_not_mem]
      intro q hq
      exact lt_irrefl _ (hr.edge_lt (mem_succs.1 hq)).1
    have hin : indeg es b.nodeIdGen = 0 := by
      by_contra hne
      obtain ⟨a, ha⟩ := indeg_pos.1 (Nat.pos_of_ne_zero hne)
      exact lt_irrefl _ (hr.edge_lt ha).2
    have hat : (firsts (M ++ [x]))[b.nodeIdGen]? = some x := by
      rw [hfirsts, hr.nodeIdGen]; simp
    have hlt : ∀ {p : ℕ} {y : Str}, p < b.nodeIdGen →
        ((firsts (M ++ [x]))[p]? = some y ↔ (firsts M)[p]? = some y) := by
      intro p y hp
      rw [hr.nodeIdGen] at hp
      rw [hfirsts, List.getElem?_append_left hp]
    refine ⟨_, _, rfl, ⟨?_, ?_, hres, ?_, ?_, hr.nodup, hdecl, ?_⟩, hat⟩
    · rw [hfirsts, List.zipIdx_append, hr.nodeIdGen]; simp
    · rw [hfirsts, hr.nodeIdGen]; simp
    · -- the new node is as its constructor leaves it
      refine ⟨fun p => ?_, fun p => ?_, fun p => ?_⟩ <;> by_cases hp : p = b.nodeIdGen
      · subst hp; simp [hout]
      · simp only [update_of_ne hp]; exact hr.wired.out p
      · subst hp; simp [hin]
      · simp only [update_of_ne hp]; exact hr.wired.inputNum p
      · subst hp; simp [hin]
      · simp only [update_of_ne hp]; exact hr.wired.check p
    · intro p y hp
      by_cases hpn : p = b.nodeIdGen
      · subst hpn
        rw [hat, Option.some.injEq] at hp
        subst hp
        simp
      · have hp' : p < b.nodeIdGen := by
          have := (List.getElem?_eq_some_iff.1 hp).1
          rw [hfirsts, List.length_append, List.length_singleton, ← hr.nodeIdGen] at this
          exact lt_of_le_of_ne (Nat.lt_succ_iff.1 this) hpn
        simp only [update_of_ne hpn]
        exact hr.id p y ((hlt hp').1 hp)
    · intro p q
      rw [hr.edge]
      constructor
      · rintro ⟨y, z, he, hp, hq⟩
        exact ⟨y, z, he, firsts_getElem?_append hp _, firsts_getElem?_append hq _⟩
      · rintro ⟨y, z, he, hp, hq⟩
        obtain ⟨hy, hz⟩ := hr.declared _ he
        obtain ⟨p', hp'⟩ := exists_number hy
        obtain ⟨q', hq'⟩ := exists_number hz
        rw [firsts_inj hp (firsts_getElem?_append hp' _), firsts_inj hq (firsts_getElem?_append hq' _)]
        exact ⟨y, z, he, hp', hq'⟩

theorem wired_addOutput_id (h : Heap) (p n q : NodePtr) :
    (h.addOutput p n q).id = (h q).id ∧ (h.addOutput p n q).name = (h q).name := by
  rw [addOutput_apply]
  exact ⟨rfl, rfl⟩

/-- **Adding a declared edge**, once. -/
theorem Rep.addEdge (hr : Rep info b M E es) {p q : NodePtr} {x y : Str} (hp : (firsts M)[p]? = some x)
    (hq : (firsts M)[q]? = some y) : ∃ es', Rep info (b.addEdge p q) M (E ++ [(x, y)]) es' := by
  have hdecl : ∀ e ∈ E ++ [(x, y)], e.1 ∈ M ∧ e.2 ∈ M := by
    intro e he
    rcases List.mem_append.1 he with he | he
    · exact hr.declared e he
    · rw [List.mem_singleton.1 he]
      exact ⟨mem_of_number hp, mem_of_number hq⟩
  -- a name has one number, so the new edge by name is the new edge by number
  have hedge : ∀ p' q', (∃ x' y', (x', y') ∈ E ++ [(x, y)] ∧ (firsts M)[p']? = some x' ∧
      (firsts M)[q']? = some y') ↔ (p', q') ∈ es ∨ (p', q') = (p, q) := by
    intro p' q'
    rw [hr.edge]
    constructor
    · rintro ⟨x', y', he, hp', hq'⟩
      rcases List.mem_append.1 he with he | he
      · exact Or.inl ⟨x', y', he, hp', hq'⟩
      · obtain ⟨rfl, rfl⟩ := Prod.mk.inj (List.mem_singleton.1 he)
        exact Or.inr (by rw [firsts_inj hp' hp, firsts_inj hq' hq])
    · rintro (⟨x', y', he, hp', hq'⟩ | heq)
      · exact ⟨x', y', List.mem_append_left _ he, hp', hq'⟩
      · obtain ⟨rfl, rfl⟩ := Prod.mk.inj heq
        exact ⟨x, y, by simp, hp, hq⟩
  unfold Build.addEdge
  have hmem : q ∈ (b.heap p).outNodes ↔ (p, q) ∈ es := by rw [hr.wired.out]; exact mem_succs
  by_cases he : q ∈ (b.heap p).outNodes
  · rw [if_pos he]
    -- the edge is there already: nothing is added, and no counter is raised
    refine ⟨es, hr.nodesMap, hr.nodeIdGen, hr.known, hr.wired, hr.id, hr.nodup, hdecl, fun p' q' => ?_⟩
    rw [hedge]
    constructor
    · exact Or.inl
    · rintro (h1 | h1)
      · exact h1
      · rw [h1]; exact hmem.1 he
  · rw [if_neg he]
    refine ⟨es ++ [(p, q)], hr.nodesMap, hr.nodeIdGen, hr.known, hr.wired.addOutput p q, fun p' z hz => ?_,
      ?_, hdecl, fun p' q' => ?_⟩
    · obtain ⟨h1, h2⟩ := wired_addOutput_id b.heap p q p'
      simp only [h1, h2]
      exact hr.id p' z hz
    · refine List.nodup_append.2 ⟨hr.nodup, List.nodup_singleton _, ?_⟩
      rintro e he' e' he'' rfl
      rw [List.mem_singleton.1 he''] at he'
      exact he (hmem.2 he')
    · rw [hedge, List.mem_append, List.mem_singleton]

/-! ## The loops -/

/-- One token of `children`. -/
theorem Rep.child (hr : Rep info b M E es) {service : NodePtr} {n : Str} (hn : (firsts M)[service]? = some n)
    (c : Str) : ∃ es', Rep info (b.child info service c)
      (M ++ resolved info (([c].filter fun c => c ≠ []).map trim))
      (E ++ (resolved info (([c].filter fun c => c ≠ []).map trim)).map fun c => (n, c)) es' := by
  unfold Build.child
  by_cases hc : c = []
  · subst hc
    exact ⟨es, by simpa [resolved] using hr⟩
  · rw [if_neg hc]
    cases hi : info (trim c) with
    | none =>
      rw [hr.create_none hi]
      exact ⟨es, by simpa [hc, resolved, hi] using hr⟩
    | some t =>
      obtain ⟨p, b', hcr, hr', hp⟩ := hr.create (x := trim c) (by rw [hi]; rfl)
      obtain ⟨es₁, hr₁⟩ := hr'.addEdge (firsts_getElem?_append hn _) hp
      rw [hcr]
      exact ⟨es₁, by simpa [hc, resolved, hi] using hr₁⟩

/-- One token of `parents`. -/
theorem Rep.parent (hr : Rep info b M E es) {service : NodePtr} {n : Str} (hn : (firsts M)[service]? = some n)
    (p : Str) : ∃ es', Rep info (b.parent info service p) (M ++ resolved info ([p].map trim))
      (E ++ (resolved info ([p].map trim)).map fun p => (p, n)) es' := by
  unfold Build.parent
  cases hi : info (trim p) with
  | none =>
    rw [hr.create_none hi]
    exact ⟨es, by simpa [resolved, hi] using hr⟩
  | some t =>
    obtain ⟨q, b', hcr, hr', hq⟩ := hr.create (x := trim p) (by rw [hi]; rfl)
    obtain ⟨es₁, hr₁⟩ := hr'.addEdge hq (firsts_getElem?_append hn _)
    rw [hcr]
    exact ⟨es₁, by simpa [resolved, hi] using hr₁⟩

/-- The loop over `children`. -/
theorem children_spec {service : NodePtr} {n : Str} : ∀ (toks : List Str) {b : Build} {M : List Str}
    {E : List (Str × Str)} {es : List (NodePtr × NodePtr)}, Rep info b M E es → (firsts M)[service]? = some n →
    ∃ es', Rep info (toks.foldl (Build.child info service) b)
      (M ++ resolved info ((toks.filter fun c => c ≠ []).map trim))
      (E ++ (resolved info ((toks.filter fun c => c ≠ []).map trim)).map fun c => (n, c)) es' := by
  intro toks
  induction toks with
  | nil => intro b M E es hr _; exact ⟨es, by simpa [resolved] using hr⟩
  | cons c toks ih =>
    intro b M E es hr hn
    obtain ⟨es₁, hr₁⟩ := hr.child hn c
    obtain ⟨es₂, hr₂⟩ := ih hr₁ (firsts_getElem?_append hn _)
    have hsplit : c :: toks = [c] ++ toks := rfl
    refine ⟨es₂, ?_⟩
    rw [List.foldl_cons, hsplit]
    simpa only [resolved, List.filter_append, List.map_append, List.append_assoc] using hr₂

/-- The loop over `parents`. -/
theorem parents_spec {service : NodePtr} {n : Str} : ∀ (toks : List Str) {b : Build} {M : List Str}
    {E : List (Str × Str)} {es : List (NodePtr × NodePtr)}, Rep info b M E es → (firsts M)[service]? = some n →
    ∃ es', Rep info (toks.foldl (Build.parent info service) b) (M ++ resolved info (toks.map trim))
      (E ++ (resolved info (toks.map trim)).map fun p => (p, n)) es' := by
  intro toks
  induction toks with
  | nil => intro b M E es hr _; exact ⟨es, by simpa [resolved] using hr⟩
  | cons p toks ih =>
    intro b M E es hr hn
    obtain ⟨es₁, hr₁⟩ := hr.parent hn p
    obtain ⟨es₂, hr₂⟩ := ih hr₁ (firsts_getElem?_append hn _)
    have hsplit : p :: toks = [p] ++ toks := rfl
    refine ⟨es₂, ?_⟩
    rw [List.foldl_cons, hsplit]
    simpa only [resolved, List.filter_append, List.map_append, List.append_assoc] using hr₂

/-- A root that has a name keeps it when more names are met. -/
theorem root_append {root : Option NodePtr} {rn : Option Str} (h1 : (root.bind fun p => (firsts M)[p]?) = rn)
    (h2 : root = none ↔ rn = none) (M' : List Str) : (root.bind fun p => (firsts (M ++ M'))[p]?) = rn := by
  subst h1
  cases root with
  | none => rfl
  | some p =>
    obtain ⟨x, hx⟩ : ∃ x, (firsts M)[p]? = some x := by
      refine Option.ne_none_iff_exists'.1 fun hnone => ?_
      exact absurd (h2.2 hnone) (by simp)
    simp only [Option.bind_some, hx]
    exact firsts_getElem?_append hx _

/-- **The node loop**: it builds the names mentioned and the edges declared, and keeps
the last root. -/
theorem entries_spec : ∀ (conf : GraphConf) {b : Build} {M : List Str} {E : List (Str × Str)}
    {es : List (NodePtr × NodePtr)} {root : Option NodePtr} {rn : Option Str}, Rep info b M E es →
    (root.bind fun p => (firsts M)[p]?) = rn → (root = none ↔ rn = none) →
    ∃ b' root' es', Build.entries info b root conf = (b', root') ∧
      Rep info b' (M ++ GraphConf.mentioned info conf) (E ++ GraphConf.declared info conf) es' ∧
      (root'.bind fun p => (firsts (M ++ GraphConf.mentioned info conf))[p]?) = (GraphConf.rootName info conf).or rn ∧
      (root' = none ↔ (GraphConf.rootName info conf).or rn = none) := by
  intro conf
  induction conf with
  | nil =>
    intro b M E es root rn hr h1 h2
    refine ⟨b, root, es, rfl, ?_, ?_, ?_⟩
    · simpa [GraphConf.mentioned, GraphConf.declared, GraphConf.live] using hr
    · simpa [GraphConf.mentioned, GraphConf.rootName, GraphConf.live] using h1
    · simpa [GraphConf.rootName, GraphConf.live] using h2
  | cons e conf ih =>
    obtain ⟨n, c⟩ := e
    intro b M E es root rn hr h1 h2
    unfold Build.entries
    cases hi : info n with
    | none =>
      -- the loop ends
      rw [hr.create_none hi]
      refine ⟨b, root, es, rfl, ?_, ?_, ?_⟩
      · simpa [GraphConf.mentioned, GraphConf.declared, GraphConf.live, hi] using hr
      · simpa [GraphConf.mentioned, GraphConf.rootName, GraphConf.live, hi] using h1
      · simpa [GraphConf.rootName, GraphConf.live, hi] using h2
    | some t =>
      have hn : (info n).isSome := by rw [hi]; rfl
      obtain ⟨p, b₁, hcr, hr₁, hp⟩ := hr.create hn
      obtain ⟨es₂, hr₂⟩ := children_spec (tokens c.children) hr₁ hp
      obtain ⟨es₃, hr₃⟩ := parents_spec (tokens c.parents) hr₂ (firsts_getElem?_append hp _)
      simp only [hcr]
      have hroot : ((if c.root = some true then some p else root).bind
          fun p => (firsts (M ++ [n] ++ c.childNames info ++ c.parentNames info))[p]?) =
          (if c.root = some true then some n else none).or rn := by
        by_cases hc : c.root = some true
        · rw [if_pos hc, if_pos hc]
          exact firsts_getElem?_append (firsts_getElem?_append hp _) _
        · rw [if_neg hc, if_neg hc, Option.none_or, List.append_assoc, List.append_assoc]
          exact root_append h1 h2 _
      obtain ⟨b', root', es', hb', hr', hroot', hnone'⟩ := ih hr₃ hroot (by
        by_cases hc : c.root = some true
        · simp [hc]
        · simpa [hc] using h2)
      refine ⟨b', root', es', hb', ?_, ?_, ?_⟩
      · rw [mentioned_cons hn, declared_cons hn]
        simpa [NodeConf.childNames, NodeConf.parentNames, List.append_assoc] using hr'
      · rw [mentioned_cons hn, rootName_cons hn, Option.or_assoc, ← hroot']
        simp [NodeConf.childNames, NodeConf.parentNames]
      · rw [rootName_cons hn, Option.or_assoc]
        exact hnone'

/-! ## Names and addresses -/

/-- **Reachability** between nodes is reachability between their names. -/
theorem Rep.reach_iff (hr : Rep info b M E es) {r : NodePtr} {n : Str} (hn : (firsts M)[r]? = some n)
    {p : NodePtr} {x : Str} (hp : (firsts M)[p]? = some x) : Reach es r p ↔ Reach E n x := by
  constructor
  · intro h
    induction h generalizing x with
    | refl =>
      rw [hn, Option.some.injEq] at hp
      rw [hp]
    | tail _ he ih =>
      obtain ⟨y, z, hd, hy, hz⟩ := (hr.edge _ _).1 he
      rw [hp, Option.some.injEq] at hz
      subst hz
      exact (ih hy).edge hd
  · intro h
    induction h generalizing p with
    | refl => rw [firsts_inj hp hn]
    | tail _ he ih =>
      obtain ⟨q, hq⟩ := exists_number (hr.declared _ he).1
      exact (ih hq).edge ((hr.edge _ _).2 ⟨_, _, he, hq, hp⟩)

/-- What the root reaches has been created. -/
theorem Rep.exists_name (hr : Rep info b M E es) {r : NodePtr} {n : Str} (hn : (firsts M)[r]? = some n)
    {p : NodePtr} (hp : Reach es r p) : ∃ x, (firsts M)[p]? = some x := by
  rcases hp.cases_tail with rfl | ⟨q, -, he⟩
  · exact ⟨n, hn⟩
  · obtain ⟨-, y, -, -, hy⟩ := (hr.edge _ _).1 he
    exact ⟨y, hy⟩

/-! ## One graph after the other -/

section Files

variable {fuel : ℕ} {map map' : GraphMap} {e : Str × GraphConf} {o : List (Str × GraphConf)} {r : NodePtr}

theorem graphManagerInit_cons (fuel : ℕ) (map : GraphMap) (e : Str × GraphConf) (o : List (Str × GraphConf)) :
    graphManagerInit fuel info map (e :: o) =
      match Graph.init fuel { maxNodeId := (Build.entries info {} none e.2).1.nodeIdGen }
          (Build.entries info {} none e.2).1.heap (Build.entries info {} none e.2).2 e.1 with
      | none => none
      | some (.error f) => some (.error f)
      | some (.ok (ret, g, h)) =>
        if ret = 0 then graphManagerInit fuel info (map.insert e.1 (g, h)) o else some (.ok (false, map)) := rfl

/-- A null root is dereferenced, whatever comes after. -/
theorem graphManagerInit_null (he : (Build.entries info {} none e.2).2 = none) :
    graphManagerInit fuel info map (e :: o) = some (.error .nullDeref) := by
  rw [graphManagerInit_cons, he]
  rfl

/-- A graph with a root goes by the result of `Graph::init`. -/
theorem graphManagerInit_built {ret : ℤ} {g : Graph} {h : Heap} (he : Build.entries info {} none e.2 = (b, some r))
    (hi : Graph.init fuel { maxNodeId := b.nodeIdGen } b.heap (some r) e.1 = some (.ok (ret, g, h))) :
    graphManagerInit fuel info map (e :: o) =
      if ret = 0 then graphManagerInit fuel info (map.insert e.1 (g, h)) o else some (.ok (false, map)) := by
  rw [graphManagerInit_cons, he]
  simp only [hi]

/-- **An accepted enumeration**: its first graph has a root and is inserted. -/
theorem graphManagerInit_true (h : graphManagerInit fuel info map (e :: o) = some (.ok (true, map'))) :
    ∃ b r g heap, Build.entries info {} none e.2 = (b, some r) ∧
      Graph.init fuel { maxNodeId := b.nodeIdGen } b.heap (some r) e.1 = some (.ok (0, g, heap)) ∧
        graphManagerInit fuel info (map.insert e.1 (g, heap)) o = some (.ok (true, map')) := by
  cases hroot : (Build.entries info {} none e.2).2 with
  | none =>
    rw [graphManagerInit_null hroot] at h
    exact absurd h (by simp)
  | some r =>
    have hb : Build.entries info {} none e.2 = ((Build.entries info {} none e.2).1, some r) := by rw [← hroot]
    rw [graphManagerInit_cons, hroot] at h
    cases hi : Graph.init fuel { maxNodeId := (Build.entries info {} none e.2).1.nodeIdGen }
        (Build.entries info {} none e.2).1.heap (some r) e.1 with
    | none =>
      rw [hi] at h
      exact absurd h (by simp)
    | some res =>
      rw [hi] at h
      match res with
      | .error fault => exact absurd h (by simp)
      | .ok (ret, g, heap) =>
        simp only at h
        by_cases hret : ret = 0
        · subst hret
          rw [if_pos rfl] at h
          exact ⟨_, r, g, heap, hb, hi, h⟩
        · rw [if_neg hret] at h
          exact absurd h (by simp)

end Files

end Graphize
