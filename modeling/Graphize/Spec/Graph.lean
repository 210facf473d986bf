import Graphize.Spec.Node
import Graphize.Lib.While
import Mathlib.Data.Finset.Basic

/-!
# `Graph::init` and `Graph::check`

The breadth-first walk from the root that fills `all_nodes`, and Kahn's deletion
over `input_num_4_check`. Both `while` loops take fuel (`While.run`); a result
`none` means the fuel ran out. The logged texts are left out.
-/

namespace Graphize

/-- `class Graph`. -/
structure Graph where
  rootNode : Option NodePtr := none
  allNodes : List NodePtr := []
  name : Str := "graph_default_name".toList
  maxNodeId : ℕ := 0
  deriving DecidableEq, Repr

/-- The locals of the walk in `Graph::init`. -/
structure Walk where
  q : List NodePtr
  set : Finset NodePtr
  allNodes : List NodePtr

/-- One round of `while(!q.empty())` in `Graph::init`. -/
def Walk.body (h : Heap) (w : Walk) : Option Walk :=
  match w.q with
  | [] => none
  | curNode :: q =>
    if curNode ∈ w.set then some { w with q := q }
    else some { q := q ++ (h curNode).outNodes
                set := insert curNode w.set
                allNodes := w.allNodes ++ [curNode] }

/-- The locals of `Graph::check`: the queue of nodes without inputs, the deleted
nodes and the heap with its `input_num_4_check` counters. -/
structure Kahn where
  zeroInputNode : List NodePtr
  deleted : List NodePtr
  heap : Heap

/-- The body of `for (auto* n : r->get_output_nodes())` in `Graph::check`. -/
def Kahn.visit (k : Kahn) (n : NodePtr) : Kahn :=
  let heap := k.heap.modify n fun m => { m with inputNum4Check := m.inputNum4Check - 1 }
  { k with
    heap := heap
    zeroInputNode :=
      if (heap n).inputNum4Check = 0 then k.zeroInputNode ++ [n] else k.zeroInputNode }

/-- One round of `while(zero_input_node.size() > 0)` in `Graph::check`. -/
def Kahn.body (k : Kahn) : Option Kahn :=
  match k.zeroInputNode with
  | [] => none
  | r :: zs =>
    some ((k.heap r).outNodes.foldl Kahn.visit
      { k with zeroInputNode := zs, deleted := k.deleted ++ [r] })

/-- `Graph::check`. The flags of `del_flag_map` are `deleted`; a node of `all_nodes`
whose flag is still false makes the reported text nonempty, also when its name is
empty, since each name is followed by `", "`. -/
def Graph.check (fuel : ℕ) (g : Graph) (h : Heap) : Option (Bool × Heap) :=
  match g.rootNode with
  | none => some (false, h)
  | some root =>
    if (h root).inputNum4Check = 0 then
      match While.run Kahn.body fuel ⟨[root], [], h⟩ with
      | none => none
      | some k => some (g.allNodes.all (· ∈ k.deleted), k.heap)
    else some (false, h)

/-- `Graph::init(Node* node, const std::string& name)`. A null root is pushed on the
queue and dereferenced by `get_output_nodes`. -/
def Graph.init (fuel : ℕ) (g : Graph) (h : Heap) (node : Option NodePtr) (name : Str) :
    Option (Except Fault (ℤ × Graph × Heap)) :=
  let g := if name = [] then g else { g with name := name }
  match node with
  | none => some (.error .nullDeref)
  | some root =>
    match While.run (Walk.body h) fuel ⟨[root], ∅, []⟩ with
    | none => none
    | some w =>
      let g := { g with rootNode := some root, allNodes := w.allNodes }
      match g.check fuel h with
      | none => none
      | some (true, h) => some (.ok (0, g, h))
      | some (false, h) => some (.ok (-1, g, h))

end Graphize
