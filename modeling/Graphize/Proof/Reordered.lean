import Graphize.Proof.Declared
import Graphize.Proof.Init

/-!
# Reading the same file in another order

`key_set()` enumerates in no particular order. Two enumerations of one file differ in
the order of its graphs and of the entries of each graph.

* `build_init`: one graph, by the name of its root: the verdict and the nodes shown
  depend on the entries as a set.
* `init_verdict`: the whole file.
* `init_orderFree_iff`: when every order gives the same outcome.
-/

namespace Graphize

open EdgeList Numbering Relation

/-! ## Outcomes -/

/-- `n` has an entry with `root: true`. -/
def GraphConf.Marks (conf : GraphConf) (n : Str) : Prop := ∃ c, (n, c) ∈ conf ∧ c.root = some true

/-- `n` can be the root: nothing is declared before it, what it reaches is acyclic and
is entered from nowhere else. -/
structure GraphConf.Schedulable (info : Str → Option NodeType) (conf : GraphConf) (n : Str) : Prop where
  root : ∀ x, ¬conf.Links info x n
  acyclic : ∀ v, ReflTransGen (conf.Links info) n v → ¬TransGen (conf.Links info) v v
  closed : ∀ a b, conf.Links info a b → ReflTransGen (conf.Links info) n b → ReflTransGen (conf.Links info) n a

/-- `order` enumerates the graphs of `file`, and the entries of each, in some order. -/
def Reordered (file order : List (Str × GraphConf)) : Prop :=
  ∃ mid, mid.Perm file ∧ List.Forall₂ (fun e e' => e.1 = e'.1 ∧ e'.2.Perm e.2) mid order

/-- The same root and the same nodes in `all_nodes`, by name. -/
def SameGraph (v v' : Graph × Heap) : Prop :=
  v.1.rootNode.map (fun p => (v.2 p).name) = v'.1.rootNode.map (fun p => (v'.2 p).name) ∧
    ∀ x, x ∈ v.1.allNodes.map (fun p => (v.2 p).name) ↔ x ∈ v'.1.allNodes.map (fun p => (v'.2 p).name)

/-- The same verdict and, when it accepts, the same graphs registered. -/
def SameOutcome : Except Fault (Bool × GraphMap) → Except Fault (Bool × GraphMap) → Prop
  | .error f, .error f' => f = f'
  | .ok (true, m), .ok (true, m') => ∀ name, ((m.lookup name).isSome ↔ (m'.lookup name).isSome) ∧
      ∀ v v', m.lookup name = some v → m'.lookup name = some v' → SameGraph v v'
  | .ok (false, _), .ok (false, _) => True
  | _, _ => False

/-- Any two orders of the file give the same outcome. -/
def OrderFree (info : Str → Option NodeType) (file : List (Str × GraphConf)) : Prop :=
  ∀ o o', Reordered file o → Reordered file o' → ∃ F, ∀ fuel, F ≤ fuel →
    ∃ r r', graphManagerInit fuel info [] o = some r ∧ graphManagerInit fuel info [] o' = some r' ∧
      SameOutcome r r'

/-- The marks of a file leave no choice: each graph marks one root; or each marks one
and some graph can be scheduled from none of its own; or some graph marks none and each
marked root can be scheduled. -/
def RootsSettle (info : Str → Option NodeType) (file : List (Str × GraphConf)) : Prop :=
  (∀ e ∈ file, ∃! n, e.2.Marks n) ∨
    ((∀ e ∈ file, ∃ n, e.2.Marks n) ∧ ∃ e ∈ file, ∀ n, e.2.Marks n → ¬e.2.Schedulable info n) ∨
    ((∃ e ∈ file, ∀ n, ¬e.2.Marks n) ∧ ∀ e ∈ file, ∀ n, e.2.Marks n → e.2.Schedulable info n)

/-! ## One graph -/

variable {info : Str → Option NodeType}

section OneGraph

variable {conf conf' : GraphConf}

theorem marks_perm (hp : conf'.Perm conf) (n : Str) : conf'.Marks n ↔ conf.Marks n := by
  unfold GraphConf.Marks
  simp only [hp.mem_iff]

theorem schedulable_perm (hp : conf'.Perm conf) (n : Str) : conf'.Schedulable info n ↔ conf.Schedulable info n := by
  have hd := links_perm info hp
  constructor
  · rintro ⟨h1, h2, h3⟩
    rw [hd] at h1 h2 h3
    exact ⟨h1, h2, h3⟩
  · rintro ⟨h1, h2, h3⟩
    rw [← hd] at h1 h2 h3
    exact ⟨h1, h2, h3⟩

/-- The root is one of the marked nodes. -/
theorem marks_of_rootName (hres : conf.Known info) {n : Str} (hn : conf.rootName info = some n) :
    conf.Marks n := by
  unfold GraphConf.rootName at hn
  rw [live_eq hres, Option.map_eq_some_iff] at hn
  obtain ⟨⟨x, c⟩, hlast, rfl⟩ := hn
  have hmem := List.mem_of_getLast? hlast
  obtain ⟨he, hc⟩ := List.mem_filter.1 hmem
  exact ⟨c, he, by simpa using hc⟩

theorem rootName_of_marks (hres : conf.Known info) {n : Str} (hn : conf.Marks n) :
    ∃ n', conf.rootName info = some n' := by
  obtain ⟨c, he, hc⟩ := hn
  unfold GraphConf.rootName
  rw [live_eq hres]
  have hmem : (n, c) ∈ conf.filter fun e => e.2.root = some true := List.mem_filter.2 ⟨he, by simpa using hc⟩
  obtain ⟨e, hlast⟩ := Option.isSome_iff_exists.1 (List.getLast?_isSome.2 (List.ne_nil_of_mem hmem))
  exact ⟨e.1, by rw [hlast]; rfl⟩

theorem rootName_none (hres : conf.Known info) : conf.rootName info = none ↔ ∀ n, ¬conf.Marks n := by
  constructor
  · intro hnone n hn
    obtain ⟨n', hn'⟩ := rootName_of_marks hres hn
    rw [hnone] at hn'
    exact absurd hn' (by simp)
  · intro hno
    rw [Option.eq_none_iff_forall_ne_some]
    exact fun n hn => hno n (marks_of_rootName hres hn)

/-- **Each marked node is the root in some order**: the one that lists it last. -/
theorem exists_rootLast (hres : conf.Known info) {n : Str} (hn : conf.Marks n) :
    ∃ conf' : GraphConf, conf'.Perm conf ∧ conf'.rootName info = some n := by
  obtain ⟨c, he, hc⟩ := hn
  obtain ⟨pre, post, rfl⟩ := List.append_of_mem he
  have hp : List.Perm (pre ++ post ++ [(n, c)]) (pre ++ (n, c) :: post) := by
    rw [List.append_assoc]
    exact List.Perm.append_left pre (List.perm_append_singleton _ _)
  refine ⟨pre ++ post ++ [(n, c)], hp, ?_⟩
  unfold GraphConf.rootName
  rw [live_eq (hres.perm hp), List.filter_append]
  simp [hc]

/-- What a registered graph shows of its configuration, from the root `n`. -/
def Shows (info : Str → Option NodeType) (conf : GraphConf) (n : Str) (v : Graph × Heap) : Prop :=
  v.1.rootNode.map (fun p => (v.2 p).name) = some n ∧
    ∀ x, x ∈ v.1.allNodes.map (fun p => (v.2 p).name) ↔ ReflTransGen (conf.Links info) n x

theorem Shows.same {n : Str} {v v' : Graph × Heap} (hp : conf'.Perm conf) (h : Shows info conf n v)
    (h' : Shows info conf' n v') : SameGraph v v' := by
  obtain ⟨h1, h2⟩ := h
  obtain ⟨h1', h2'⟩ := h'
  rw [links_perm info hp] at h2'
  exact ⟨h1.trans h1'.symm, fun x => (h2 x).trans (h2' x).symm⟩

variable {b : Build} {M : List Str} {E : List (Str × Str)} {es : List (NodePtr × NodePtr)}

/-- A path between nodes is a path between their names. -/
theorem Rep.anc_iff (hr : Rep info b M E es) {p q : NodePtr} {x y : Str} (hp : (firsts M)[p]? = some x)
    (hq : (firsts M)[q]? = some y) : Anc es p q ↔ Anc E x y := by
  constructor
  · intro h
    obtain ⟨m, he, hm⟩ := TransGen.head'_iff.1 h
    obtain ⟨w, z, hwz, hp', hm'⟩ := (hr.edge _ _).1 he
    rw [hp, Option.some.injEq] at hp'
    subst hp'
    exact TransGen.head'_iff.2 ⟨z, hwz, (hr.reach_iff hm' hq).1 hm⟩
  · intro h
    obtain ⟨z, he, hz⟩ := TransGen.head'_iff.1 h
    obtain ⟨m, hm⟩ := exists_number (hr.declared _ he).2
    exact TransGen.head'_iff.2 ⟨m, (hr.edge _ _).2 ⟨x, z, he, hp, hm⟩, (hr.reach_iff hm hq).2 hz⟩

/-- **Acceptance by name.** -/
theorem Rep.accepts_iff (hr : Rep info b M E es) (hE : Edge E = conf.Links info) {r : NodePtr} {n : Str}
    (hn : (firsts M)[r]? = some n) : Accepts es r ↔ conf.Schedulable info n := by
  constructor
  · rintro ⟨h1, h2, h3⟩
    refine ⟨fun x hx => ?_, fun v hv => ?_, fun x y hxy hy => ?_⟩ <;> rw [← hE] at *
    · obtain ⟨p, hp⟩ := exists_number (hr.declared _ hx).1
      exact h1 p ((hr.edge _ _).2 ⟨x, n, hx, hp, hn⟩)
    · intro hvv
      -- a name on a cycle is declared in an edge, so it has a number
      obtain ⟨w, hvw, -⟩ := TransGen.head'_iff.1 hvv
      obtain ⟨p, hp⟩ := exists_number (hr.declared _ hvw).1
      exact h2 p ((hr.reach_iff hn hp).2 hv) ((hr.anc_iff hp hp).2 hvv)
    · obtain ⟨p, hp⟩ := exists_number (hr.declared _ hxy).1
      obtain ⟨q, hq⟩ := exists_number (hr.declared _ hxy).2
      exact (hr.reach_iff hn hp).1
        (h3 p q ((hr.edge _ _).2 ⟨x, y, hxy, hp, hq⟩) ((hr.reach_iff hn hq).2 hy))
  · rintro ⟨h1, h2, h3⟩
    rw [← hE] at h1 h2 h3
    refine ⟨fun p hp => ?_, fun p hp => ?_, fun p q hpq hq => ?_⟩
    · obtain ⟨x, y, hxy, -, hy⟩ := (hr.edge _ _).1 hp
      rw [hn, Option.some.injEq] at hy
      rw [hy] at h1
      exact h1 x hxy
    · obtain ⟨x, hx⟩ := hr.exists_name hn hp
      rw [hr.anc_iff hx hx]
      exact h2 x ((hr.reach_iff hn hx).1 hp)
    · obtain ⟨x, y, hxy, hx, hy⟩ := (hr.edge _ _).1 hpq
      exact (hr.reach_iff hn hx).2 (h3 x y hxy ((hr.reach_iff hn hy).1 hq))

/-- **One graph**, from the name of its root. -/
theorem build_init (hres : conf.Known info) (name : Str) :
    (conf.rootName info = none → (Build.entries info {} none conf).2 = none) ∧
      ∀ n, conf.rootName info = some n → ∃ b r, Build.entries info {} none conf = (b, some r) ∧
        ∃ F, ∀ fuel, F ≤ fuel → ∃ ret g h,
          Graph.init fuel { maxNodeId := b.nodeIdGen } b.heap (some r) name = some (.ok (ret, g, h)) ∧
            (ret = 0 ↔ conf.Schedulable info n) ∧ Shows info conf n (g, h) := by
  -- the builder's graph is numbered by name; reaching and accepting are then read off the names
  obtain ⟨b, root, es, hb, hr, hroot, hnone⟩ := @entries_spec info conf {} [] [] [] none none
    rep_empty rfl (by simp)
  simp only [List.nil_append, Option.or_none] at hr hroot hnone
  have hE := edge_links hres
  refine ⟨fun h0 => by rw [hb]; exact hnone.2 h0, fun n hn => ?_⟩
  cases root with
  | none =>
    rw [hnone.1 rfl] at hn
    exact absurd hn (by simp)
  | some r =>
    rw [hn, Option.bind_some] at hroot
    obtain ⟨F, hF⟩ := init_total hr.wired r { maxNodeId := b.nodeIdGen } name
    refine ⟨b, r, hb, F, fun fuel hf => ?_⟩
    obtain ⟨ret, g, h, hrun⟩ := hF fuel hf
    obtain ⟨hrootNode, -, -, hmem, hsame, hret⟩ := init_sound hr.wired hrun
    have hname : ∀ p x, (firsts (conf.mentioned info))[p]? = some x → (h p).name = x := by
      intro p x hp
      rw [hsame p]
      exact (hr.id p x hp).2
    refine ⟨ret, g, h, hrun, ?_, ?_, fun x => ?_⟩
    · rw [← hr.accepts_iff hE hroot]
      rcases hret with ⟨h0, hA⟩ | ⟨h0, hA⟩
      · exact ⟨fun _ => hA, fun _ => h0⟩
      · refine ⟨fun h1 => ?_, fun h1 => absurd h1 hA⟩
        rw [h0] at h1
        exact absurd h1 (by decide)
    · rw [hrootNode, Option.map_some, hname r n hroot]
    · rw [List.mem_map, ← hE]
      constructor
      · rintro ⟨p, hp, rfl⟩
        have hreach := (hmem p).1 hp
        obtain ⟨x, hx⟩ := hr.exists_name hroot hreach
        rw [hname p x hx]
        exact (hr.reach_iff hroot hx).1 hreach
      · intro hx
        have hxm : x ∈ conf.mentioned info := by
          rcases hx.cases_tail with rfl | ⟨y, -, hyx⟩
          · exact mem_of_number hroot
          · exact (hr.declared _ hyx).2
        obtain ⟨p, hp⟩ := exists_number hxm
        exact ⟨p, (hmem p).2 ((hr.reach_iff hroot hp).2 hx), hname p x hp⟩

end OneGraph

/-! ## The file -/

/-- The verdict on an enumeration: its first graph without a root, or with one that
cannot be scheduled, decides. -/
inductive Verdict
  | crash
  | reject
  | accept
  deriving DecidableEq

open Classical in
noncomputable def verdict (info : Str → Option NodeType) : List (Str × GraphConf) → Verdict
  | [] => .accept
  | e :: rest =>
    match e.2.rootName info with
    | none => .crash
    | some n => if e.2.Schedulable info n then verdict info rest else .reject

def Verdict.ofResult : Except Fault (Bool × GraphMap) → Verdict
  | .error _ => .crash
  | .ok (true, _) => .accept
  | .ok (false, _) => .reject

section File

variable {file o o' : List (Str × GraphConf)}

theorem verdict_crash {e : Str × GraphConf} (he : e.2.rootName info = none) (rest : List (Str × GraphConf)) :
    verdict info (e :: rest) = .crash := by
  unfold verdict
  rw [he]

theorem verdict_reject {e : Str × GraphConf} {n : Str} (he : e.2.rootName info = some n)
    (hn : ¬e.2.Schedulable info n) (rest : List (Str × GraphConf)) : verdict info (e :: rest) = .reject := by
  unfold verdict
  rw [he]
  simp only [if_neg hn]

theorem verdict_next {e : Str × GraphConf} {n : Str} (he : e.2.rootName info = some n)
    (hn : e.2.Schedulable info n) (rest : List (Str × GraphConf)) :
    verdict info (e :: rest) = verdict info rest := by
  conv_lhs => unfold verdict
  rw [he]
  simp only [if_pos hn]

theorem verdict_accept_iff : ∀ o : List (Str × GraphConf), verdict info o = .accept ↔
    ∀ e ∈ o, ∃ n, e.2.rootName info = some n ∧ e.2.Schedulable info n := by
  intro o
  induction o with
  | nil => simp [verdict]
  | cons e o ih =>
    rw [List.forall_mem_cons]
    cases he : e.2.rootName info with
    | none => simp [verdict_crash he]
    | some n =>
      by_cases hn : e.2.Schedulable info n
      · rw [verdict_next he hn, ih]
        simp [hn]
      · simp [verdict_reject he hn, hn]

/-- When each graph has a root, one that cannot be scheduled is enough to reject. -/
theorem verdict_of_rooted : ∀ o : List (Str × GraphConf), (∀ e ∈ o, ∃ n, e.2.rootName info = some n) →
    (∃ e ∈ o, ∀ n, e.2.rootName info = some n → ¬e.2.Schedulable info n) → verdict info o = .reject := by
  intro o
  induction o with
  | nil => simp
  | cons e o ih =>
    intro hroot hbad
    obtain ⟨⟨n, hn⟩, hroot'⟩ := List.forall_mem_cons.1 hroot
    by_cases hs : e.2.Schedulable info n
    · rw [verdict_next hn hs]
      obtain ⟨e', he', hbad'⟩ := hbad
      rcases List.mem_cons.1 he' with rfl | he'
      · exact absurd hs (hbad' n hn)
      · exact ih hroot' ⟨e', he', hbad'⟩
    · exact verdict_reject hn hs o

/-- When each root can be scheduled, a graph without one is reached. -/
theorem verdict_of_schedulable : ∀ o : List (Str × GraphConf),
    (∀ e ∈ o, ∀ n, e.2.rootName info = some n → e.2.Schedulable info n) →
    (∃ e ∈ o, e.2.rootName info = none) → verdict info o = .crash := by
  intro o
  induction o with
  | nil => simp
  | cons e o ih =>
    intro hgood hnone
    obtain ⟨hg, hgood'⟩ := List.forall_mem_cons.1 hgood
    cases he : e.2.rootName info with
    | none => exact verdict_crash he o
    | some n =>
      rw [verdict_next he (hg n he)]
      obtain ⟨e', he', hnone'⟩ := hnone
      rcases List.mem_cons.1 he' with rfl | he'
      · rw [he] at hnone'
        exact absurd hnone' (by simp)
      · exact ih hgood' ⟨e', he', hnone'⟩

/-- Inserting under a new name. -/
theorem GraphMap.lookup_insert_new {m : GraphMap} {name : Str} (hm : m.lookup name = none)
    (v : Graph × Heap) (x : Str) : (m.insert name v).lookup x = if x = name then some v else m.lookup x := by
  unfold GraphMap.insert
  rw [if_neg (by rw [hm]; simp), List.lookup_append]
  by_cases hx : x = name
  · subst hx
    simp [hm]
  · rw [if_neg hx]
    simp [List.lookup_cons, beq_false_of_ne hx]

/-- What `GraphManager::init` leaves of an accepted enumeration. -/
structure Registers (info : Str → Option NodeType) (o : List (Str × GraphConf)) (m m' : GraphMap) : Prop where
  old : ∀ x, x ∉ o.map Prod.fst → m'.lookup x = m.lookup x
  new : ∀ e ∈ o, ∃ v n, m'.lookup e.1 = some v ∧ e.2.rootName info = some n ∧ Shows info e.2 n v

/-- **The whole file**: the verdict, and the graphs registered when it accepts. -/
theorem init_verdict : ∀ o : List (Str × GraphConf),
    (∀ e ∈ o, e.2.Known info) → (o.map Prod.fst).Nodup →
    ∃ F, ∀ fuel, F ≤ fuel → ∀ m : GraphMap, (∀ e ∈ o, m.lookup e.1 = none) →
      ∃ r, graphManagerInit fuel info m o = some r ∧ Verdict.ofResult r = verdict info o ∧
        (∀ f, r = .error f → f = .nullDeref) ∧ ∀ m', r = .ok (true, m') → Registers info o m m' := by
  intro o
  induction o with
  | nil =>
    intro _ _
    refine ⟨0, fun fuel _ m _ => ⟨.ok (true, m), rfl, rfl, by simp, fun m' hm => ?_⟩⟩
    obtain rfl : m = m' := by simpa using hm
    exact ⟨fun _ _ => rfl, by simp⟩
  | cons e o ih =>
    obtain ⟨name, conf⟩ := e
    intro hres hnd
    obtain ⟨hres₀, hres'⟩ := List.forall_mem_cons.1 hres
    rw [List.map_cons, List.nodup_cons] at hnd
    obtain ⟨hname, hnd'⟩ := hnd
    obtain ⟨hcrash, hbuilt⟩ := build_init hres₀ name
    cases hn : conf.rootName info with
    | none =>
      -- a null root
      exact ⟨0, fun fuel _ m _ => ⟨.error .nullDeref, graphManagerInit_null (hcrash hn), (verdict_crash hn o).symm,
        by simp, by simp⟩⟩
    | some n =>
      obtain ⟨b, r, hb, F, hF⟩ := hbuilt n hn
      by_cases hs : conf.Schedulable info n
      · obtain ⟨F', hF'⟩ := ih hres' hnd'
        refine ⟨max F F', fun fuel hf m hm => ?_⟩
        obtain ⟨hm₀, hm'⟩ := List.forall_mem_cons.1 hm
        obtain ⟨ret, g, h, hinit, hret, hshows⟩ := hF fuel (le_trans (le_max_left _ _) hf)
        have hfree : ∀ e ∈ o, (m.insert name (g, h)).lookup e.1 = none := by
          intro e he
          rw [GraphMap.lookup_insert_new hm₀, if_neg]
          · exact hm' e he
          · intro heq
            exact hname (heq ▸ List.mem_map_of_mem he)
        obtain ⟨r', hrun, hv, hnull, hreg⟩ := hF' fuel (le_trans (le_max_right _ _) hf) _ hfree
        refine ⟨r', ?_, hv.trans (verdict_next hn hs o).symm, hnull, fun m' hr => ?_⟩
        · rw [graphManagerInit_built hb hinit, if_pos (hret.2 hs)]
          exact hrun
        · obtain ⟨hold, hnew⟩ := hreg m' hr
          refine ⟨fun x hx => ?_, fun e he => ?_⟩
          · rw [List.map_cons, List.mem_cons, not_or] at hx
            rw [hold x hx.2, GraphMap.lookup_insert_new hm₀, if_neg hx.1]
          · rcases List.mem_cons.1 he with rfl | he
            · refine ⟨(g, h), n, ?_, hn, hshows⟩
              rw [hold name hname, GraphMap.lookup_insert_new hm₀, if_pos rfl]
            · exact hnew e he
      · refine ⟨F, fun fuel hf m _ => ?_⟩
        obtain ⟨ret, g, h, hinit, hret, -⟩ := hF fuel hf
        refine ⟨.ok (false, m), ?_, (verdict_reject hn hs o).symm, by simp, by simp⟩
        rw [graphManagerInit_built hb hinit, if_neg (fun h0 => hs (hret.1 h0))]

/-! ## Two orders -/

theorem Reordered.mem_file (h : Reordered file o) {e' : Str × GraphConf} (he : e' ∈ o) :
    ∃ e ∈ file, e.1 = e'.1 ∧ e'.2.Perm e.2 := by
  obtain ⟨mid, hp, hf⟩ := h
  obtain ⟨i, hi, rfl⟩ := List.getElem_of_mem he
  have hi' : i < mid.length := by rw [hf.length_eq]; exact hi
  obtain ⟨h1, h2⟩ := hf.get hi' hi
  exact ⟨mid[i], hp.mem_iff.1 (List.getElem_mem _), h1, h2⟩

theorem Reordered.mem_order (h : Reordered file o) {e : Str × GraphConf} (he : e ∈ file) :
    ∃ e' ∈ o, e.1 = e'.1 ∧ e'.2.Perm e.2 := by
  obtain ⟨mid, hp, hf⟩ := h
  obtain ⟨i, hi, rfl⟩ := List.getElem_of_mem (hp.mem_iff.2 he)
  have hi' : i < o.length := by rw [← hf.length_eq]; exact hi
  obtain ⟨h1, h2⟩ := hf.get hi hi'
  exact ⟨o[i], List.getElem_mem _, h1, h2⟩

theorem Reordered.names (h : Reordered file o) : (o.map Prod.fst).Perm (file.map Prod.fst) := by
  obtain ⟨mid, hp, hf⟩ := h
  have hmap : o.map Prod.fst = mid.map Prod.fst := by
    refine List.ext_getElem (by simp [hf.length_eq]) fun i hi hi' => ?_
    rw [List.length_map] at hi hi'
    rw [List.getElem_map, List.getElem_map]
    exact (hf.get hi' hi).1.symm
  rw [hmap]
  exact hp.map _

/-- Every entry of an enumeration of a file whose names resolve. -/
theorem Reordered.resolves (h : Reordered file o) (hres : ∀ e ∈ file, e.2.Known info) :
    ∀ e ∈ o, e.2.Known info := by
  intro e he
  obtain ⟨e₀, he₀, -, hp⟩ := h.mem_file he
  exact (hres e₀ he₀).perm hp

/-- **Two enumerations with the same verdict**, and the same roots if it is to accept, have
the same outcome. -/
theorem sameOutcome (hnd : (file.map Prod.fst).Nodup) (ho : Reordered file o) (ho' : Reordered file o')
    {r r' : Except Fault (Bool × GraphMap)} (hv : Verdict.ofResult r = Verdict.ofResult r')
    (hf : ∀ f, r = .error f → f = .nullDeref) (hf' : ∀ f, r' = .error f → f = .nullDeref)
    (hreg : ∀ m, r = .ok (true, m) → Registers info o [] m)
    (hreg' : ∀ m, r' = .ok (true, m) → Registers info o' [] m)
    (hroots : ∀ m, r = .ok (true, m) → ∀ e ∈ o, ∀ e' ∈ o', e.1 = e'.1 → e.2.rootName info = e'.2.rootName info) :
    SameOutcome r r' := by
  have hinj : ∀ e ∈ file, ∀ e' ∈ file, e.1 = e'.1 → e = e' :=
    fun e he e' he' h => List.inj_on_of_nodup_map hnd he he' h
  match r, r', hv with
  | .error f, .error f', _ => exact (hf f rfl).trans (hf' f' rfl).symm
  | .ok (false, m), .ok (false, m'), _ => trivial
  | .ok (true, m), .ok (true, m'), _ =>
    have hm := hreg m rfl
    have hm' := hreg' m' rfl
    intro name
    by_cases hmem : name ∈ file.map Prod.fst
    · obtain ⟨e₀, he₀, rfl⟩ := List.mem_map.1 hmem
      -- each order has an entry with this name, with the same nodes and the same root
      obtain ⟨e, he, h1, hp⟩ := ho.mem_order he₀
      obtain ⟨e', he', h1', hp'⟩ := ho'.mem_order he₀
      obtain ⟨v, n, hv, hn, hs⟩ := hm.new e he
      obtain ⟨v', n', hv', hn', hs'⟩ := hm'.new e' he'
      have heq := hroots m rfl e he e' he' (h1.symm.trans h1')
      rw [hn, hn', Option.some.injEq] at heq
      subst heq
      rw [h1, hv, ← h1, h1', hv']
      refine ⟨by simp, ?_⟩
      rintro w w' ⟨⟩ ⟨⟩
      exact hs.same (hp'.trans hp.symm) hs'
    · rw [hm.old name (fun h => hmem (ho.names.mem_iff.1 h)),
        hm'.old name (fun h => hmem (ho'.names.mem_iff.1 h))]
      exact ⟨Iff.rfl, by simp⟩

/-- An enumeration that keeps the graphs in order and picks one for the entries of each. -/
theorem reordered_map (pick : Str × GraphConf → GraphConf) (hpick : ∀ e ∈ file, (pick e).Perm e.2) :
    Reordered file (file.map fun e => (e.1, pick e)) :=
  ⟨file, List.Perm.refl _, List.forall₂_map_right_iff.2 (List.forall₂_same.2 fun e he => ⟨rfl, hpick e he⟩)⟩

/-- An enumeration that starts with a given graph. -/
theorem reordered_front {e : Str × GraphConf} (he : e ∈ file) {conf : GraphConf} (hp : conf.Perm e.2) :
    ∃ rest, Reordered file ((e.1, conf) :: rest) := by
  obtain ⟨pre, post, rfl⟩ := List.append_of_mem he
  exact ⟨pre ++ post, e :: (pre ++ post), List.perm_middle.symm, .cons ⟨rfl, hp⟩
    (List.forall₂_same.2 fun e _ => ⟨rfl, List.Perm.refl _⟩)⟩

/-- **The outcome of two runs.** -/
theorem init_pair (hres : ∀ e ∈ file, e.2.Known info)
    (hnd : (file.map Prod.fst).Nodup) (ho : Reordered file o) (ho' : Reordered file o') :
    ∃ F, ∀ fuel, F ≤ fuel → ∃ r r', graphManagerInit fuel info [] o = some r ∧
      graphManagerInit fuel info [] o' = some r' ∧ Verdict.ofResult r = verdict info o ∧
      Verdict.ofResult r' = verdict info o' ∧ (∀ f, r = .error f → f = .nullDeref) ∧
      (∀ f, r' = .error f → f = .nullDeref) ∧ (∀ m, r = .ok (true, m) → Registers info o [] m) ∧
      ∀ m, r' = .ok (true, m) → Registers info o' [] m := by
  obtain ⟨F, hF⟩ := init_verdict o (ho.resolves hres) (ho.names.nodup_iff.2 hnd)
  obtain ⟨F', hF'⟩ := init_verdict o' (ho'.resolves hres) (ho'.names.nodup_iff.2 hnd)
  refine ⟨max F F', fun fuel hf => ?_⟩
  obtain ⟨r, h1, h2, h3, h4⟩ := hF fuel (le_trans (le_max_left _ _) hf) [] (by simp)
  obtain ⟨r', h1', h2', h3', h4'⟩ := hF' fuel (le_trans (le_max_right _ _) hf) [] (by simp)
  exact ⟨r, r', h1, h1', h2, h2', h3, h3', h4, h4'⟩

theorem ofResult_of_same {r r' : Except Fault (Bool × GraphMap)} (h : SameOutcome r r') :
    Verdict.ofResult r = Verdict.ofResult r' := by
  match r, r', h with
  | .error _, .error _, _ => rfl
  | .ok (true, _), .ok (true, _), _ => rfl
  | .ok (false, _), .ok (false, _), _ => rfl

section Roots

variable (hres : ∀ e ∈ file, e.2.Known info)

include hres

/-- An entry of an enumeration, against the one of the file that it comes from. -/
theorem Reordered.read (ho : Reordered file o) {e : Str × GraphConf} (he : e ∈ o) : ∃ e₀ ∈ file, e₀.1 = e.1 ∧
    (∀ n, e.2.rootName info = some n → e₀.2.Marks n) ∧ ((∃ n, e₀.2.Marks n) → ∃ n, e.2.rootName info = some n) ∧
      ∀ n, e.2.Schedulable info n ↔ e₀.2.Schedulable info n := by
  obtain ⟨e₀, he₀, h1, hp⟩ := ho.mem_file he
  refine ⟨e₀, he₀, h1, fun n hn => ?_, ?_, schedulable_perm hp⟩
  · exact (marks_perm hp n).1 (marks_of_rootName (ho.resolves hres e he) hn)
  · rintro ⟨n, hn⟩
    exact rootName_of_marks (ho.resolves hres e he) ((marks_perm hp n).2 hn)

/-- Every graph marks a root, and one of them none that can be scheduled. -/
theorem verdict_of_marked (ho : Reordered file o) (hall : ∀ e ∈ file, ∃ n, e.2.Marks n)
    (hbad : ∃ e ∈ file, ∀ n, e.2.Marks n → ¬e.2.Schedulable info n) : verdict info o = .reject := by
  refine verdict_of_rooted o (fun e he => ?_) ?_
  · obtain ⟨e₀, he₀, -, -, hroot, -⟩ := ho.read hres he
    exact hroot (hall e₀ he₀)
  · obtain ⟨e₀, he₀, hbad⟩ := hbad
    obtain ⟨e, he, -, hp⟩ := ho.mem_order he₀
    refine ⟨e, he, fun n hn hs => hbad n ?_ ((schedulable_perm hp n).1 hs)⟩
    exact (marks_perm hp n).1 (marks_of_rootName (ho.resolves hres e he) hn)

/-- Every marked root can be scheduled, and one graph marks none. -/
theorem verdict_of_unmarked (ho : Reordered file o) (hnone : ∃ e ∈ file, ∀ n, ¬e.2.Marks n)
    (hgood : ∀ e ∈ file, ∀ n, e.2.Marks n → e.2.Schedulable info n) : verdict info o = .crash := by
  refine verdict_of_schedulable o (fun e he n hn => ?_) ?_
  · obtain ⟨e₀, he₀, -, hmarks, -, hs⟩ := ho.read hres he
    exact (hs n).2 (hgood e₀ he₀ n (hmarks n hn))
  · obtain ⟨e₀, he₀, hno⟩ := hnone
    obtain ⟨e, he, -, hp⟩ := ho.mem_order he₀
    exact ⟨e, he, (rootName_none (ho.resolves hres e he)).2 fun n hn => hno n ((marks_perm hp n).1 hn)⟩

/-- Every graph marks one root, which can be scheduled. -/
theorem verdict_of_unique (ho : Reordered file o) (hone : ∀ e ∈ file, ∃! n, e.2.Marks n)
    (hgood : ¬∃ e ∈ file, ∀ n, e.2.Marks n → ¬e.2.Schedulable info n) : verdict info o = .accept := by
  rw [verdict_accept_iff]
  intro e he
  obtain ⟨e₀, he₀, -, hmarks, hroot, hs⟩ := ho.read hres he
  obtain ⟨n, hn, huniq⟩ := hone e₀ he₀
  obtain ⟨x, hx⟩ := hroot ⟨n, hn⟩
  refine ⟨x, hx, (hs x).2 ?_⟩
  rw [huniq x (hmarks x hx)]
  by_contra hns
  refine hgood ⟨e₀, he₀, fun y hy hs' => hns ?_⟩
  rwa [← huniq y hy]

/-- The one marked root is the root in both orders. -/
theorem rootName_of_unique (hnd : (file.map Prod.fst).Nodup) (ho : Reordered file o) (ho' : Reordered file o')
    (hone : ∀ e ∈ file, ∃! n, e.2.Marks n) :
    ∀ e ∈ o, ∀ e' ∈ o', e.1 = e'.1 → e.2.rootName info = e'.2.rootName info := by
  intro e he e' he' heq
  obtain ⟨e₀, he₀, h1, hmarks, hroot, -⟩ := ho.read hres he
  obtain ⟨e₀', he₀', h1', hmarks', hroot', -⟩ := ho'.read hres he'
  obtain rfl : e₀ = e₀' := List.inj_on_of_nodup_map hnd he₀ he₀' (h1.trans (heq.trans h1'.symm))
  obtain ⟨n, hn, huniq⟩ := hone e₀ he₀
  obtain ⟨x, hx⟩ := hroot ⟨n, hn⟩
  obtain ⟨y, hy⟩ := hroot' ⟨n, hn⟩
  rw [hx, hy, huniq x (hmarks x hx), huniq y (hmarks' y hy)]

/-- **Settled roots are enough.** -/
theorem orderFree_of_settle (hnd : (file.map Prod.fst).Nodup) (h : RootsSettle info file) : OrderFree info file := by
  intro o o' ho ho'
  obtain ⟨F, hF⟩ := init_pair hres hnd ho ho'
  refine ⟨F, fun fuel hf => ?_⟩
  obtain ⟨r, r', hr, hr', hv, hv', hn, hn', hreg, hreg'⟩ := hF fuel hf
  refine ⟨r, r', hr, hr', ?_⟩
  rcases h with hone | ⟨hall, hbad⟩ | ⟨hnone, hgood⟩
  · -- one marked root: both orders find it
    have hverdict : verdict info o = verdict info o' := by
      by_cases hbad : ∃ e ∈ file, ∀ n, e.2.Marks n → ¬e.2.Schedulable info n
      · have hmarks : ∀ e ∈ file, ∃ n, e.2.Marks n := fun e he => (hone e he).exists
        rw [verdict_of_marked hres ho hmarks hbad, verdict_of_marked hres ho' hmarks hbad]
      · rw [verdict_of_unique hres ho hone hbad, verdict_of_unique hres ho' hone hbad]
    exact sameOutcome hnd ho ho' (by rw [hv, hv', hverdict]) hn hn' hreg hreg' fun _ _ =>
      rootName_of_unique hres hnd ho ho' hone
  · have h1 := verdict_of_marked hres ho hall hbad
    have h2 := verdict_of_marked hres ho' hall hbad
    refine sameOutcome hnd ho ho' (by rw [hv, hv', h1, h2]) hn hn' hreg hreg' fun m hm => ?_
    rw [hm, h1] at hv
    exact Verdict.noConfusion hv
  · have h1 := verdict_of_unmarked hres ho hnone hgood
    have h2 := verdict_of_unmarked hres ho' hnone hgood
    refine sameOutcome hnd ho ho' (by rw [hv, hv', h1, h2]) hn hn' hreg hreg' fun m hm => ?_
    rw [hm, h1] at hv
    exact Verdict.noConfusion hv

/-- What one outcome says of any two enumerations. -/
theorem OrderFree.pair (hnd : (file.map Prod.fst).Nodup) (h : OrderFree info file) (ho : Reordered file o)
    (ho' : Reordered file o') : verdict info o = verdict info o' ∧
      (verdict info o = .accept → ∀ e ∈ o, ∀ e' ∈ o', e.1 = e'.1 → e.2.rootName info = e'.2.rootName info) := by
  obtain ⟨F, hF⟩ := h o o' ho ho'
  obtain ⟨F', hF'⟩ := init_pair hres hnd ho ho'
  obtain ⟨r, r', hr, hr', hsame⟩ := hF (max F F') (le_max_left _ _)
  obtain ⟨x, x', hx, hx', hv, hv', -, -, hreg, hreg'⟩ := hF' (max F F') (le_max_right _ _)
  obtain rfl : r = x := Option.some.inj (hr.symm.trans hx)
  obtain rfl : r' = x' := Option.some.inj (hr'.symm.trans hx')
  refine ⟨by rw [← hv, ← hv', ofResult_of_same hsame], fun hacc e he e' he' heq => ?_⟩
  rw [← hv] at hacc
  match r, r', hsame, hacc with
  | .ok (true, m), .ok (true, m'), hsame, _ =>
    obtain ⟨v, n, hl, hn, hs⟩ := (hreg m rfl).new e he
    obtain ⟨v', n', hl', hn', hs'⟩ := (hreg' m' rfl).new e' he'
    rw [← heq] at hl'
    have hroot := ((hsame e.1).2 v v' hl hl').1
    rw [hs.1, hs'.1] at hroot
    rw [hn, hn', hroot]

/-- Each graph has an order of its entries that is accepted. -/
theorem exists_accepted (hgood : ¬∃ e ∈ file, ∀ n, e.2.Marks n → ¬e.2.Schedulable info n) :
    ∃ pick : Str × GraphConf → GraphConf, ∀ e ∈ file, (pick e).Perm e.2 ∧
      ∃ n, (pick e).rootName info = some n ∧ (pick e).Schedulable info n := by
  have hpick : ∀ e : Str × GraphConf, ∃ conf : GraphConf, e ∈ file → conf.Perm e.2 ∧
      ∃ n, conf.rootName info = some n ∧ conf.Schedulable info n := by
    intro e
    by_cases he : e ∈ file
    · have hmark : ∃ n, e.2.Marks n ∧ e.2.Schedulable info n := by
        by_contra hno
        exact hgood ⟨e, he, fun n hn hs => hno ⟨n, hn, hs⟩⟩
      obtain ⟨n, hn, hs⟩ := hmark
      obtain ⟨conf, hp, hroot⟩ := exists_rootLast (hres e he) hn
      exact ⟨conf, fun _ => ⟨hp, n, hroot, (schedulable_perm hp n).2 hs⟩⟩
    · exact ⟨[], fun h => absurd h he⟩
  choose pick hpick using hpick
  exact ⟨pick, hpick⟩

/-- **Settled roots are needed**: otherwise two orders tell. -/
theorem settle_of_orderFree (hnd : (file.map Prod.fst).Nodup) (h : OrderFree info file) : RootsSettle info file := by
  by_cases hall : ∀ e ∈ file, ∃ n, e.2.Marks n
  · by_cases hbad : ∃ e ∈ file, ∀ n, e.2.Marks n → ¬e.2.Schedulable info n
    · exact Or.inr (Or.inl ⟨hall, hbad⟩)
    · -- some enumeration is accepted; a second mark gives another one with another root
      refine Or.inl fun e₀ he₀ => ?_
      obtain ⟨pick, hpick⟩ := exists_accepted hres hbad
      have ho := reordered_map pick fun e he => (hpick e he).1
      have hacc : verdict info (file.map fun e => (e.1, pick e)) = .accept := by
        rw [verdict_accept_iff]
        intro e he
        obtain ⟨e', he', rfl⟩ := List.mem_map.1 he
        exact (hpick e' he').2
      obtain ⟨hp₀, n, hn, -⟩ := hpick e₀ he₀
      have hmark : e₀.2.Marks n :=
        (marks_perm hp₀ n).1 (marks_of_rootName ((hres e₀ he₀).perm hp₀) hn)
      refine ⟨n, hmark, fun x hx => ?_⟩
      obtain ⟨conf', hp', hroot'⟩ := exists_rootLast (hres e₀ he₀) hx
      obtain ⟨rest, ho'⟩ := reordered_front he₀ hp'
      have heq := (h.pair hres hnd ho ho').2 hacc (e₀.1, pick e₀) (List.mem_map_of_mem he₀) (e₀.1, conf')
        List.mem_cons_self rfl
      rw [hn, hroot', Option.some.injEq] at heq
      exact heq.symm
  · -- a graph without a root: whichever comes first decides
    push Not at hall
    obtain ⟨e₀, he₀, hno⟩ := hall
    refine Or.inr (Or.inr ⟨⟨e₀, he₀, hno⟩, fun e he n hn => ?_⟩)
    by_contra hs
    obtain ⟨conf, hp, hroot⟩ := exists_rootLast (hres e he) hn
    obtain ⟨rest, ho⟩ := reordered_front he₀ (List.Perm.refl _)
    obtain ⟨rest', ho'⟩ := reordered_front he hp
    have heq := (h.pair hres hnd ho ho').1
    rw [verdict_crash ((rootName_none (hres e₀ he₀)).2 hno),
      verdict_reject hroot (fun h => hs ((schedulable_perm hp n).1 h))] at heq
    exact Verdict.noConfusion heq

end Roots

end File

/-- **When `GraphManager::init` does not depend on the order of the keys.** For a file whose
names all resolve, any two enumerations give the same verdict and, when it accepts, the
same root and nodes for each graph, exactly when the roots it marks leave no choice. -/
theorem init_orderFree_iff {file : List (Str × GraphConf)}
    (hres : ∀ e ∈ file, e.2.Known info) (hnd : (file.map Prod.fst).Nodup) :
    OrderFree info file ↔ RootsSettle info file :=
  ⟨settle_of_orderFree hres hnd, orderFree_of_settle hres hnd⟩

/-- A file with one graph that marks one root. -/
theorem init_orderFree_redundant : OrderFree named [("g".toList, redundant)] := by
  refine (init_orderFree_iff ?_ (by decide)).2 (Or.inl ?_)
  · simp only [List.forall_mem_singleton]
    unfold GraphConf.Known
    decide
  · simp only [List.forall_mem_singleton]
    refine ⟨"a".toList, ⟨_, List.mem_cons_self, rfl⟩, ?_⟩
    rintro n ⟨c, hc, hroot⟩
    unfold redundant at hc
    rcases List.mem_cons.1 hc with heq | hc
    · exact (Prod.mk.inj heq).1
    · rw [(Prod.mk.inj (List.mem_singleton.1 hc)).2] at hroot
      exact absurd hroot (by decide)

/-- A graph with two nodes, both marked. -/
def twoRoots : GraphConf := [("a".toList, { root := some true }), ("b".toList, { root := some true })]

/-- **Two orders, two services**: the graph starts with `b`, or with `a`. -/
theorem init_twoRoots : ¬OrderFree named [("g".toList, twoRoots)] := by
  intro h
  obtain ⟨F, hF⟩ := h [("g".toList, twoRoots)] [("g".toList, twoRoots.reverse)]
    ⟨_, List.Perm.refl _, .cons ⟨rfl, List.Perm.refl _⟩ .nil⟩
    ⟨_, List.Perm.refl _, .cons ⟨rfl, List.reverse_perm _⟩ .nil⟩
  obtain ⟨r, r', hr, hr', hsame⟩ := hF (F + 2) (Nat.le_add_right _ _)
  have hb : ∃ m v, graphManagerInit (F + 2) named [] [("g".toList, twoRoots)] = some (.ok (true, m)) ∧
      m.lookup "g".toList = some v ∧ v.1.rootNode.map (fun p => (v.2 p).name) = some "b".toList :=
    ⟨_, _, rfl, rfl, rfl⟩
  have ha : ∃ m v, graphManagerInit (F + 2) named [] [("g".toList, twoRoots.reverse)] = some (.ok (true, m)) ∧
      m.lookup "g".toList = some v ∧ v.1.rootNode.map (fun p => (v.2 p).name) = some "a".toList :=
    ⟨_, _, rfl, rfl, rfl⟩
  obtain ⟨m, v, hm, hv, hroot⟩ := hb
  obtain ⟨m', v', hm', hv', hroot'⟩ := ha
  obtain rfl := Option.some.inj (hr.symm.trans hm)
  obtain rfl := Option.some.inj (hr'.symm.trans hm')
  have heq := ((hsame "g".toList).2 v v' hv hv').1
  rw [hroot, hroot'] at heq
  exact absurd heq (by decide)

end Graphize
