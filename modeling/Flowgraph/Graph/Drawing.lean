import Flowgraph.Graph.Basic

/-!
# Drawings of flow graphs

A flow graph as text in the DOT language: one line for each node and one for each edge.

* `Dot.escape`: text that may stand between the quotes of a label.
* `Graph.drawing`: the lines of a graph's drawing.
-/

namespace Flowgraph

namespace Dot

/-- One character of a label.  Carriage returns are dropped. -/
def escapeChar : Char → List Char
  | '\\' => ['\\', '\\']
  | '"' => ['\\', '"']
  | '\n' => ['\\', 'n']
  | '\r' => []
  | '<' => ['\\', '<']
  | '>' => ['\\', '>']
  | c => [c]

/-- Text for a label: one line, with no quote that could end it. -/
def escape (s : String) : String := String.ofList (s.toList.flatMap escapeChar)

/-- How nodes of a kind are filled and framed. -/
def style : Kind → String
  | .start => ", style=filled, fillcolor=lightgreen"
  | .ret => ", style=filled, fillcolor=lightcoral"
  | .stub => ", style=dashed"
  | _ => ""

/-- The first edge of a branch is the one taken when its condition holds. -/
def edgeStyle (isBranch : Bool) (slot : Nat) : String :=
  if isBranch then
    if slot = 0 then " [label=\"true\", color=green]" else " [label=\"false\", color=red]"
  else ""

end Dot

namespace Graph

/-- The lines before the nodes. -/
def drawingHead (title : Option String) : List String :=
  ["digraph CFG \x7b"]
  ++ (title.map fun t => "    label=\"CFG: " ++ Dot.escape t ++ "\";").toList
  ++ ["    labelloc=t;",
    "    node [shape=box, fontname=\"Courier\", fontsize=10];",
    "    edge [fontname=\"Courier\", fontsize=9];",
    ""]

/-- The line of one node. -/
def nodeLine (id : NodeId) (kind : Kind) : String :=
  "    " ++ id.text ++ " [label=\"" ++ Dot.escape (id.text ++ ": " ++ kind.text) ++ "\""
    ++ Dot.style kind ++ "];"

/-- The lines of the edges of one node. -/
def edgeLines (id : NodeId) (n : Node) : List String :=
  n.succs.zipIdx.map fun (target, slot) =>
    "    " ++ id.text ++ " -> " ++ target.text ++ Dot.edgeStyle n.kind.isBranch slot ++ ";"

/-- The live nodes with their identifiers, in slot order. -/
def entries (g : Graph) : List (NodeId × Node) :=
  g.ids.filterMap fun id => (g.node? id).map fun n => (id, n)

/-- All lines: head, nodes, a blank line, edges, closing brace. -/
def drawingLines (g : Graph) (title : Option String) : List String :=
  drawingHead title ++ g.entries.map (fun (id, n) => nodeLine id n.kind) ++ [""]
    ++ g.entries.flatMap (fun (id, n) => edgeLines id n) ++ ["\x7d"]

/-- The drawing; every line ends with a line feed. -/
def drawing (g : Graph) (title : Option String) : String :=
  String.join ((g.drawingLines title).map fun line => line ++ "\n")

end Graph

end Flowgraph
