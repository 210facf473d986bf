import Graphize.Proof.Building
import Mathlib.Data.Set.Card

/-!
# The edges of a graph do not depend on the enumeration

What a configuration declares, stated on its entries as a set: `listed` reads one
`children` or `parents` attribute, `GraphConf.Declares` is the edge relation on names.

* `map_trim_splitOn`: trimming the attribute first does not change its trimmed tokens.
* `mem_mentioned`, `edge_declared`: when every name resolves, the loop meets exactly
  what is listed.
* `build_declares`: in every enumeration order the nodes built are the names of the
  configuration, once each, and their wiring is the declared one.
-/

namespace Graphize

open EdgeList Numbering

/-! ## Trimming and splitting -/

theorem comma_not_space : isSpace ',' = false := by decide

theorem trim_cons {c : Char} (hc : isSpace c = true) (s : Str) : trim (c :: s) = trim s := by
  unfold trim
  rw [List.dropWhile_cons, if_pos hc]

theorem trim_concat {c : Char} (hc : isSpace c = true) (s : Str) : trim (s ++ [c]) = trim s := by
  unfold trim
  rw [List.dropWhile_append]
  by_cases he : (s.dropWhile isSpace).isEmpty
  · rw [if_pos he, List.isEmpty_iff.1 he, List.dropWhile_cons, if_pos hc]
    rfl
  · rw [if_neg he, List.reverse_append, List.reverse_singleton, List.singleton_append,
      List.dropWhile_cons, if_pos hc]

/-- A space in front of the text is in front of its first token. -/
theorem map_trim_cons {c : Char} (hc : isSpace c = true) (s : Str) :
    ((c :: s).splitOn ',').map trim = (s.splitOn ',').map trim := by
  have hne : (c == ',') = false := by
    rw [beq_eq_false_iff_ne]
    rintro rfl
    rw [comma_not_space] at hc
    exact absurd hc (by simp)
  rw [List.splitOn_cons_eq_if_modifyHead, hne]
  cases hs : s.splitOn ',' with
  | nil => exact absurd hs (List.splitOn_ne_nil _ _)
  | cons t ts => simp [trim_cons hc]

/-- A space after the text is after its last token. -/
theorem map_trim_concat {c : Char} (hc : isSpace c = true) : ∀ (n : ℕ) (s : Str), s.length ≤ n →
    ((s ++ [c]).splitOn ',').map trim = (s.splitOn ',').map trim := by
  have hne : c ≠ ',' := by
    rintro rfl
    rw [comma_not_space] at hc
    exact absurd hc (by simp)
  intro n
  induction n with
  | zero =>
    intro s hs
    have hs0 : s = [] := List.eq_nil_of_length_eq_zero (by omega)
    subst hs0
    have hc' : ',' ∉ ([] ++ [c] : Str) := by simpa using fun h => hne h.symm
    rw [List.splitOn_eq_singleton hc', List.splitOn_nil, List.map_singleton, List.map_singleton,
      trim_concat hc]
  | succ n ih =>
    intro s hs
    by_cases hm : ',' ∈ s
    · -- the tokens before the first comma stay, the rest is shorter
      obtain ⟨pre, post, rfl⟩ := List.append_of_mem hm
      rw [List.length_append, List.length_cons] at hs
      rw [List.append_assoc, List.cons_append, List.splitOn_append_cons_self,
        List.splitOn_append_cons_self, List.map_append, List.map_append, ih post (by omega)]
    · have hm' : ',' ∉ s ++ [c] := by
        rw [List.mem_append, List.mem_singleton]
        rintro (h | h)
        · exact hm h
        · exact hne h.symm
      rw [List.splitOn_eq_singleton hm, List.splitOn_eq_singleton hm']
      simp [trim_concat hc]

theorem map_trim_dropWhile (s : Str) :
    ((s.dropWhile isSpace).splitOn ',').map trim = (s.splitOn ',').map trim := by
  induction s with
  | nil => rfl
  | cons c s ih =>
    rw [List.dropWhile_cons]
    by_cases hc : isSpace c = true
    · rw [if_pos hc, ih, map_trim_cons hc]
    · rw [if_neg hc]

/-- **Trimming first changes no trimmed token.** -/
theorem map_trim_splitOn (s : Str) : ((trim s).splitOn ',').map trim = (s.splitOn ',').map trim := by
  have hback : ∀ r : Str, (((r.dropWhile isSpace).reverse).splitOn ',').map trim =
      ((r.reverse).splitOn ',').map trim := by
    intro r
    induction r with
    | nil => rfl
    | cons c r ih =>
      rw [List.dropWhile_cons]
      by_cases hc : isSpace c = true
      · rw [if_pos hc, ih, List.reverse_cons, map_trim_concat hc _ _ le_rfl]
      · rw [if_neg hc]
  have htrim : trim s = ((s.dropWhile isSpace).reverse.dropWhile isSpace).reverse := rfl
  rw [htrim, hback, List.reverse_reverse, map_trim_dropWhile]

/-! ## What is declared -/

/-- The names listed in an attribute: split on commas, trimmed, empty ones dropped. -/
def listed (attr : Option Str) : List Str :=
  (((attr.getD []).splitOn ',').map trim).filter fun x => x ≠ []

variable {info : Str → Option NodeType}

/-- The tokens that resolve are the listed names that resolve. -/
theorem resolved_tokens (hempty : info [] = none) (attr : Option Str) :
    resolved info ((tokens attr).map trim) = resolved info (listed attr) := by
  have hdrop : resolved info (listed attr) = resolved info (((attr.getD []).splitOn ',').map trim) := by
    unfold resolved listed
    rw [List.filter_filter]
    refine List.filter_congr fun x _ => ?_
    by_cases hx : x = []
    · subst hx; simp [hempty]
    · simp [hx]
  rw [hdrop]
  unfold tokens
  simp only
  by_cases hs : trim (attr.getD []) = []
  · rw [if_pos hs, ← map_trim_splitOn, hs, List.splitOn_nil]
    simp [resolved, trim, hempty]
  · rw [if_neg hs, map_trim_splitOn]

/-- The loop over `children` skips empty tokens, which never resolve. -/
theorem resolved_skip (hempty : info [] = none) (toks : List Str) :
    resolved info ((toks.filter fun c => c ≠ []).map trim) = resolved info (toks.map trim) := by
  have hnil : trim [] = [] := rfl
  induction toks with
  | nil => rfl
  | cons c toks ih =>
    by_cases hc : c = []
    · subst hc
      simpa [resolved, hnil, hempty] using ih
    · have hd : decide (c ≠ []) = true := by simpa using hc
      unfold resolved at ih ⊢
      rw [List.filter_cons, if_pos hd, List.map_cons, List.map_cons, List.filter_cons, List.filter_cons, ih]

/-- Every entry is of a node that resolves. -/
def GraphConf.Known (info : Str → Option NodeType) (conf : GraphConf) : Prop :=
  ∀ e ∈ conf, (info e.1).isSome

/-- The edges on names that the loop can make of the entries: an unresolved token makes
none. -/
def GraphConf.Links (info : Str → Option NodeType) (conf : GraphConf) (x y : Str) : Prop :=
  (∃ c, (x, c) ∈ conf ∧ y ∈ c.childNames info) ∨ ∃ c, (y, c) ∈ conf ∧ x ∈ c.parentNames info

/-- Every name in the configuration resolves. -/
def GraphConf.Resolves (info : Str → Option NodeType) (conf : GraphConf) : Prop :=
  ∀ e ∈ conf, (info e.1).isSome ∧ ∀ x ∈ listed e.2.children ++ listed e.2.parents, (info x).isSome

/-- The edge relation on names: `y` is listed in the `children` of `x`, or `x` in the
`parents` of `y`. -/
def GraphConf.Declares (conf : GraphConf) (x y : Str) : Prop :=
  (∃ c, (x, c) ∈ conf ∧ y ∈ listed c.children) ∨ ∃ c, (y, c) ∈ conf ∧ x ∈ listed c.parents

/-- The names in the configuration. -/
def GraphConf.Names (conf : GraphConf) (x : Str) : Prop :=
  ∃ e ∈ conf, x = e.1 ∨ x ∈ listed e.2.children ∨ x ∈ listed e.2.parents

section Resolving

variable {conf conf' : GraphConf}

theorem GraphConf.Known.perm (hk : conf.Known info) (hp : conf'.Perm conf) : conf'.Known info :=
  fun e he => hk e (hp.mem_iff.1 he)

theorem GraphConf.Resolves.known (hres : conf.Resolves info) : conf.Known info := fun e he => (hres e he).1

theorem GraphConf.Resolves.perm (hres : conf.Resolves info) (hp : conf'.Perm conf) : conf'.Resolves info :=
  fun e he => hres e (hp.mem_iff.1 he)

theorem declares_perm (hp : conf'.Perm conf) : conf'.Declares = conf.Declares := by
  funext x y
  unfold GraphConf.Declares
  simp only [hp.mem_iff]

theorem links_perm (info : Str → Option NodeType) (hp : conf'.Perm conf) :
    conf'.Links info = conf.Links info := by
  funext x y
  unfold GraphConf.Links
  simp only [hp.mem_iff]

theorem names_perm (hp : conf'.Perm conf) (x : Str) : conf'.Names x ↔ conf.Names x := by
  unfold GraphConf.Names
  simp only [hp.mem_iff]

theorem resolved_eq {names : List Str} (h : ∀ x ∈ names, (info x).isSome) : resolved info names = names :=
  List.filter_eq_self.2 h

theorem childNames_eq (hempty : info [] = none) (hres : conf.Resolves info) {e : Str × NodeConf}
    (he : e ∈ conf) : e.2.childNames info = listed e.2.children := by
  unfold NodeConf.childNames
  rw [resolved_skip hempty, resolved_tokens hempty]
  exact resolved_eq fun x hx => (hres e he).2 x (List.mem_append_left _ hx)

theorem parentNames_eq (hempty : info [] = none) (hres : conf.Resolves info) {e : Str × NodeConf}
    (he : e ∈ conf) : e.2.parentNames info = listed e.2.parents := by
  unfold NodeConf.parentNames
  rw [resolved_tokens hempty]
  exact resolved_eq fun x hx => (hres e he).2 x (List.mem_append_right _ hx)

theorem live_eq (hk : conf.Known info) : conf.live info = conf := by
  unfold GraphConf.live
  rw [List.takeWhile_eq_self_iff]
  exact hk

/-- The edges that the loop meets, on names. -/
theorem edge_links (hk : conf.Known info) : Edge (conf.declared info) = conf.Links info := by
  funext x y
  apply propext
  unfold Edge GraphConf.declared GraphConf.Links
  rw [live_eq hk, List.mem_flatMap]
  constructor
  · rintro ⟨⟨n, c⟩, he, hxy⟩
    rw [List.mem_append, List.mem_map, List.mem_map] at hxy
    rcases hxy with ⟨z, hz, heq⟩ | ⟨z, hz, heq⟩
    · obtain ⟨rfl, rfl⟩ := Prod.mk.inj heq
      exact Or.inl ⟨c, he, hz⟩
    · obtain ⟨rfl, rfl⟩ := Prod.mk.inj heq
      exact Or.inr ⟨c, he, hz⟩
  · rintro (⟨c, he, hy⟩ | ⟨c, he, hx⟩)
    · exact ⟨(x, c), he, List.mem_append_left _ (List.mem_map.2 ⟨y, hy, rfl⟩)⟩
    · exact ⟨(y, c), he, List.mem_append_right _ (List.mem_map.2 ⟨x, hx, rfl⟩)⟩

/-- The loop meets exactly the names of the configuration. -/
theorem mem_mentioned (hempty : info [] = none) (hres : conf.Resolves info) (x : Str) :
    x ∈ conf.mentioned info ↔ conf.Names x := by
  unfold GraphConf.mentioned GraphConf.Names
  rw [live_eq hres.known, List.mem_flatMap]
  constructor
  · rintro ⟨e, he, hx⟩
    rw [childNames_eq hempty hres he, parentNames_eq hempty hres he, List.mem_cons, List.mem_append] at hx
    exact ⟨e, he, hx⟩
  · rintro ⟨e, he, hx⟩
    refine ⟨e, he, ?_⟩
    rw [childNames_eq hempty hres he, parentNames_eq hempty hres he, List.mem_cons, List.mem_append]
    exact hx

/-- The loop meets exactly the declared edges. -/
theorem edge_declared (hempty : info [] = none) (hres : conf.Resolves info) :
    Edge (conf.declared info) = conf.Declares := by
  rw [edge_links hres.known]
  funext x y
  apply propext
  unfold GraphConf.Links GraphConf.Declares
  refine or_congr (exists_congr fun c => and_congr_right fun he => ?_)
    (exists_congr fun c => and_congr_right fun he => ?_)
  · rw [childNames_eq hempty hres he]
  · rw [parentNames_eq hempty hres he]

end Resolving

/-! ## The nodes built -/

/-- `b` holds one node for each name of `conf`, wired as `conf` declares. -/
structure GraphConf.BuiltAs (conf : GraphConf) (b : Build) : Prop where
  nodup : (b.nodesMap.map Prod.fst).Nodup
  nodes : b.nodesMap.map Prod.snd = List.range b.nodeIdGen
  names : ∀ x, x ∈ b.nodesMap.map Prod.fst ↔ conf.Names x
  name : ∀ x p, (x, p) ∈ b.nodesMap → (b.heap p).name = x
  edge : ∀ x p, (x, p) ∈ b.nodesMap → ∀ q, q ∈ (b.heap p).outNodes ↔ ∃ y, (y, q) ∈ b.nodesMap ∧ conf.Declares x y
  once : ∀ x p, (x, p) ∈ b.nodesMap → (b.heap p).outNodes.Nodup
  inputNum : ∀ x p, (x, p) ∈ b.nodesMap → (b.heap p).inputNum = {w | conf.Declares w x}.ncard
  inputNum4Check : ∀ x p, (x, p) ∈ b.nodesMap → (b.heap p).inputNum4Check = {w | conf.Declares w x}.ncard

section Built

variable {b : Build} {M : List Str} {E : List (Str × Str)} {es : List (NodePtr × NodePtr)}

/-- `nodes_map` holds the numbering. -/
theorem Rep.mem_nodesMap (hr : Rep info b M E es) {x : Str} {p : NodePtr} :
    (x, p) ∈ b.nodesMap ↔ (firsts M)[p]? = some x := by
  rw [hr.nodesMap]
  exact List.mem_zipIdx_iff_getElem?

/-- The outputs of a node are distinct. -/
theorem Rep.succs_nodup (hr : Rep info b M E es) (p : NodePtr) : (b.heap p).outNodes.Nodup := by
  rw [hr.wired.out p]
  unfold succs
  refine (hr.nodup.filter _).map_on ?_
  rintro ⟨a, c⟩ ha ⟨a', c'⟩ ha' hcc
  have h1 : a = p := by simpa using (List.mem_filter.1 ha).2
  have h2 : a' = p := by simpa using (List.mem_filter.1 ha').2
  rw [h1, h2]
  exact congrArg (Prod.mk p) hcc

/-- **A node's in-degree** is the number of distinct names declared before it. -/
theorem Rep.indeg_eq (hr : Rep info b M E es) {x : Str} {p : NodePtr} (hp : (firsts M)[p]? = some x) :
    indeg es p = {w | Edge E w x}.ncard := by
  have hsub : ∀ w ∈ {w | Edge E w x}, w ∈ M := fun w hw => (hr.declared _ hw).1
  have hlen : indeg es p = ((es.filter fun e => e.2 = p).map Prod.fst).toFinset.card := by
    rw [List.toFinset_card_of_nodup, List.length_map]
    · unfold indeg
      rw [List.countP_eq_length_filter]
    · refine (hr.nodup.filter _).map_on ?_
      rintro ⟨a, c⟩ ha ⟨a', c'⟩ ha' hcc
      have h1 : c = p := by simpa using (List.mem_filter.1 ha).2
      have h2 : c' = p := by simpa using (List.mem_filter.1 ha').2
      rw [h1, h2]
      exact congrArg (fun z => (z, p)) hcc
  have hmem : ∀ a, a ∈ ((es.filter fun e => e.2 = p).map Prod.fst).toFinset ↔ (a, p) ∈ es := by
    intro a
    simp
  rw [hlen, ← Set.ncard_coe_finset]
  -- a predecessor corresponds to its name
  refine Set.ncard_congr (fun a _ => (b.heap a).name) ?_ ?_ ?_
  · intro a ha
    obtain ⟨w, y, hwy, ha', hp'⟩ := (hr.edge a p).1 ((hmem a).1 ha)
    rw [hp, Option.some.injEq] at hp'
    rw [(hr.id a w ha').2, hp']
    exact hwy
  · intro a c ha hc hac
    obtain ⟨w, -, -, ha', -⟩ := (hr.edge a p).1 ((hmem a).1 ha)
    obtain ⟨z, -, -, hc', -⟩ := (hr.edge c p).1 ((hmem c).1 hc)
    rw [(hr.id a w ha').2, (hr.id c z hc').2] at hac
    rw [← hac] at hc'
    exact firsts_inj ha' hc'
  · intro w hw
    obtain ⟨a, ha⟩ := exists_number (hsub w hw)
    exact ⟨a, (hmem a).2 ((hr.edge a p).2 ⟨w, x, hw, ha, hp⟩), (hr.id a w ha).2⟩

end Built

/-- **The declared edges are the edges built**, in every enumeration order: one node for
each name, each declared edge once among the outputs of its source, and both counters
of a node at the number of distinct names declared before it. -/
theorem build_declares (hempty : info [] = none) {conf order : GraphConf} (hres : conf.Resolves info)
    (hp : order.Perm conf) : conf.BuiltAs (Build.entries info {} none order).1 := by
  obtain ⟨b, root, es, hb, hr, -, -⟩ := @entries_spec info order {} [] [] [] none none rep_empty rfl (by simp)
  simp only [List.nil_append] at hr
  have hres' := hres.perm hp
  have hedge : Edge (order.declared info) = conf.Declares := by
    rw [edge_declared hempty hres', declares_perm hp]
  have hfst : b.nodesMap.map Prod.fst = firsts (order.mentioned info) := by
    rw [hr.nodesMap, List.zipIdx_map_fst]
  have hin : ∀ x p, (x, p) ∈ b.nodesMap → indeg es p = {w | conf.Declares w x}.ncard := by
    intro x p hxp
    rw [hr.indeg_eq (hr.mem_nodesMap.1 hxp), hedge]
  rw [hb]
  refine ⟨?_, ?_, fun x => ?_, fun x p hxp => ?_, fun x p hxp q => ?_, fun x p _ => hr.succs_nodup p,
    fun x p hxp => ?_, fun x p hxp => ?_⟩
  · rw [hfst]
    exact firsts_nodup _
  · rw [hr.nodesMap, List.zipIdx_map_snd, hr.nodeIdGen, List.range_eq_range']
  · rw [hfst, mem_firsts, mem_mentioned hempty hres', names_perm hp]
  · exact (hr.id p x (hr.mem_nodesMap.1 hxp)).2
  · rw [hr.wired.out p, mem_succs, ← hedge]
    constructor
    · intro he
      obtain ⟨w, y, hwy, hp', hq⟩ := (hr.edge p q).1 he
      rw [hr.mem_nodesMap.1 hxp, Option.some.injEq] at hp'
      rw [hp']
      exact ⟨y, hr.mem_nodesMap.2 hq, hwy⟩
    · rintro ⟨y, hyq, hxy⟩
      exact (hr.edge p q).2 ⟨x, y, hxy, hr.mem_nodesMap.1 hxp, hr.mem_nodesMap.1 hyq⟩
  · rw [hr.wired.inputNum p, hin x p hxp]
  · rw [hr.wired.check p, hin x p hxp]

/-- The edge `a → b` declared from both ends and twice in one list, and an edge
`a → c` to a node without an entry. -/
def redundant : GraphConf :=
  [("a".toList, { root := some true, children := some " b,c,, b ".toList }),
    ("b".toList, { parents := some "a".toList })]

/-- The classes known: every name but the empty one. -/
def named (x : Str) : Option NodeType := if x = [] then none else some .cpu

theorem build_declares_redundant :
    redundant.BuiltAs (Build.entries named {} none redundant.reverse).1 :=
  build_declares rfl (by unfold GraphConf.Resolves; decide) (List.reverse_perm _)

end Graphize
