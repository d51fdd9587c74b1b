/-!
# Node identifiers

A node of a flow graph is named by the number of its slot.
-/

namespace Flowgraph

/-- The number of a slot; slots are numbered from 0 in the order they are filled. -/
abbrev NodeId := Nat

namespace NodeId

/-- The short form `n7` that every message uses. -/
def text (id : NodeId) : String := "n" ++ toString id

/-- The long form `NodeId(7)`, for listings of sets. -/
def longText (id : NodeId) : String := "NodeId(" ++ toString id ++ ")"

end NodeId

end Flowgraph
