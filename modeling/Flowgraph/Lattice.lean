import Flowgraph.BitSet
import Flowgraph.NodeId

/-!
# Lattices of sets

The values that dataflow analyses compute with.  Going down a meet semilattice means learning
that less is certain.

* `NodeSet`: sets of nodes that hold on every path; the meet is the intersection.
* `VarSet`: sets of variables that hold on some path; the meet is the union.
-/

namespace Flowgraph

/-- The operations of a meet semilattice. -/
class MeetLattice (α : Type) where
  /-- The greatest value below both. -/
  meet : α → α → α
  /-- Nothing lies strictly below. -/
  isBottom : α → Bool

export MeetLattice (meet isBottom)

/-- A set of nodes, ordered by inclusion. -/
structure NodeSet where
  bits : BitSet
  deriving DecidableEq

namespace NodeSet

/-- The set of no node, for nodes below the capacity. -/
def empty (capacity : Nat) : NodeSet := ⟨.empty capacity⟩

/-- The set of all nodes below the capacity. -/
def full (capacity : Nat) : NodeSet := ⟨.full capacity⟩

/-- Whether a node is a member. -/
def contains (s : NodeSet) (n : NodeId) : Bool := s.bits.contains n

/-- Put a node in, if it lies below the capacity. -/
def insert (s : NodeSet) (n : NodeId) : NodeSet := ⟨s.bits.insert n⟩

/-- Put a node in, and say whether it is new; refused beyond the capacity. -/
def insert? (s : NodeSet) (n : NodeId) : Option (NodeSet × Bool) :=
  (s.bits.insert? n).map fun (b, new) => (⟨b⟩, new)

/-- The number of members. -/
def size (s : NodeSet) : Nat := s.bits.count

/-- The members in ascending order. -/
def toList (s : NodeSet) : List NodeId := s.bits.toList

/-- Sets of nodes meet in their intersection, and nothing lies below the empty set. -/
instance : MeetLattice NodeSet where
  meet s t := ⟨s.bits.inter t.bits⟩
  isBottom s := s.bits.isEmpty

/-- The meet of two sets of one capacity. -/
def meet? (s t : NodeSet) : Option NodeSet := (s.bits.inter? t.bits).map fun (b, _) => ⟨b⟩

/-- The members between braces, as `{NodeId(1), NodeId(3)}`. -/
def text (s : NodeSet) : String :=
  "\x7b" ++ ", ".intercalate (s.toList.map NodeId.longText) ++ "\x7d"

end NodeSet

/-- A set of variables, given by their numbers and ordered by reverse inclusion. -/
structure VarSet where
  bits : BitSet
  deriving DecidableEq

namespace VarSet

/-- The set of no variable, for variables numbered below the capacity. -/
def empty (capacity : Nat) : VarSet := ⟨.empty capacity⟩

/-- Whether the variable with a number is a member. -/
def contains (s : VarSet) (v : Nat) : Bool := s.bits.contains v

/-- Put a variable in, and say whether it is new; refused beyond the capacity. -/
def insert? (s : VarSet) (v : Nat) : Option (VarSet × Bool) :=
  (s.bits.insert? v).map fun (b, new) => (⟨b⟩, new)

/-- Put all of a set in, and say whether that changes anything; refused for another capacity. -/
def union? (s : VarSet) (b : BitSet) : Option (VarSet × Bool) :=
  (s.bits.union? b).map fun (b, changed) => (⟨b⟩, changed)

/-- Take all of a set out, and say whether that changes anything; refused for another capacity. -/
def diff? (s : VarSet) (b : BitSet) : Option (VarSet × Bool) :=
  (s.bits.diff? b).map fun (b, changed) => (⟨b⟩, changed)

/-- The number of members. -/
def size (s : VarSet) : Nat := s.bits.count

/-- The numbers of the members in ascending order. -/
def toList (s : VarSet) : List Nat := s.bits.toList

/-- Sets of variables meet in their union, and nothing lies below the set of all variables. -/
instance : MeetLattice VarSet where
  meet s t := ⟨s.bits.union t.bits⟩
  isBottom s := decide (s.bits.count = s.bits.capacity)

/-- The meet of two sets of one capacity. -/
def meet? (s t : VarSet) : Option VarSet := (s.bits.union? t.bits).map fun (b, _) => ⟨b⟩

/-- The numbers of the members between braces, as `{0, 5}`. -/
def text (s : VarSet) : String := s.bits.text

end VarSet

end Flowgraph
