import Mathlib.Data.Int.Basic
import Mathlib.Data.List.Basic
import Mathlib.Logic.Function.Basic

/-!
# Nodes and their wiring

`class Node` of `frame/graph.h`: the counters and the output list that
`add_output` builds. A `Node*` is an address; the heap maps addresses to nodes.
Integers are unbounded: the counters only go down from the number of edges.
-/

namespace Graphize

/-- `std::string` holding text. -/
abbrev Str := List Char

/-- Undefined behaviour the source can run into. -/
inductive Fault
  | nullDeref
  | outOfRange
  | divByZero
  deriving DecidableEq, Repr

/-- `Node*`. -/
abbrev NodePtr := ℕ

/-- What `type()` returns: `"cpu"`, or anything else (`"io"` throughout the source). -/
inductive NodeType
  | cpu
  | io
  deriving DecidableEq, Repr

/-- `class Node`. -/
structure Node where
  name : Str := []
  id : ℕ := 0
  type : NodeType := .cpu
  inputNum : ℤ := 0
  inputNum4Check : ℤ := 0
  outNodes : List NodePtr := []
  deriving DecidableEq, Repr

/-- The nodes in memory. -/
abbrev Heap := NodePtr → Node

/-- Writing through a `Node*`. -/
def Heap.modify (h : Heap) (p : NodePtr) (f : Node → Node) : Heap := Function.update h p (f (h p))

/-- `Node::incr_input_num`. -/
def Node.incrInputNum (n : Node) : Node := { n with inputNum := n.inputNum + 1 }

/-- `Node::add_output`. -/
def Heap.addOutput (h : Heap) (p node : NodePtr) : Heap :=
  let h := h.modify p fun n => { n with outNodes := n.outNodes ++ [node] }
  let h := h.modify node fun n => { n with inputNum4Check := n.inputNum4Check + 1 }
  h.modify node Node.incrInputNum

/-- A sequence of `add_output` calls. -/
def Heap.wire (h : Heap) (es : List (NodePtr × NodePtr)) : Heap :=
  es.foldl (fun h e => h.addOutput e.1 e.2) h

/-- A node as its constructor leaves it. -/
def Node.Fresh (n : Node) : Prop := n.inputNum = 0 ∧ n.inputNum4Check = 0 ∧ n.outNodes = []

end Graphize
