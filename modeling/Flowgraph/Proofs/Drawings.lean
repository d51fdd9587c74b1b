import Flowgraph.Graph.Drawing
import Flowgraph.Proofs.Views
import Mathlib.Data.List.Forall2

/-!
# What a drawing can be read back as

A label is text between double quotes.  Whatever the text, its escapes keep it from ending the label
or the line, and undoing them gives the text back, less its carriage returns.  So a drawing falls
apart into the lines that it was put together from.

* `Dot.bareQuotes`: the double quotes that begin or end a label.
* `Dot.Labels`, `Dot.labels_escape`: a line with a label, and that escaped text makes one.
* `Dot.splitLines_join`: text put together from lines splits into these lines.
* `Graph.drawing_lines`: the lines of a drawing.
-/

namespace Flowgraph

namespace Dot

variable {x l : List Char} {c : Char}

/-! ### Quotes -/

/-- The number of backslashes that the text ends in. -/
def trailing (l : List Char) : Nat := (l.reverse.takeWhile fun c => c = '\\').length

/-- The positions of the double quotes that do not stand behind an odd number of backslashes. -/
def bareQuotes (l : List Char) : List Nat :=
  (List.range l.length).filter fun i => l[i]? = some '"' ∧ trailing (l.take i) % 2 = 0

/-- A backslash at the end counts on, and any other character ends the count. -/
theorem trailing_snoc (l : List Char) (c : Char) :
    trailing (l ++ [c]) = if c = '\\' then trailing l + 1 else 0 := by
  simp only [trailing, List.reverse_append, List.reverse_singleton, List.singleton_append,
    List.takeWhile_cons]
  by_cases hc : c = '\\' <;> simp [hc]

/-- A quote at the end is bare if an even number of backslashes stand before it. -/
theorem bareQuotes_snoc (l : List Char) (c : Char) : bareQuotes (l ++ [c]) =
    bareQuotes l ++ if c = '"' ∧ trailing l % 2 = 0 then [l.length] else [] := by
  have hbefore : ((List.range l.length).filter fun i =>
      (l ++ [c])[i]? = some '"' ∧ trailing ((l ++ [c]).take i) % 2 = 0) = bareQuotes l := by
    refine List.filter_congr fun i hi => ?_
    have hlt := List.mem_range.mp hi
    rw [List.getElem?_append_left hlt, List.take_append_of_le_length (Nat.le_of_lt hlt)]
  rw [bareQuotes, List.length_append, List.length_singleton, List.range_succ, List.filter_append,
    hbefore, List.filter_singleton]
  simp

/-- Text without double quotes adds none. -/
theorem bareQuotes_append_of_not_mem (h : '"' ∉ l) : bareQuotes (x ++ l) = bareQuotes x := by
  induction l generalizing x with
  | nil => rw [List.append_nil]
  | cons c l ih =>
      rw [List.mem_cons, not_or] at h
      rw [← List.singleton_append, ← List.append_assoc, ih h.2, bareQuotes_snoc,
        if_neg fun hc => h.1 hc.1.symm, List.append_nil]

/-! ### Escaped text -/

/-- What stands for a text in a label, read back. -/
def unescape : List Char → List Char
  | [] => []
  | '\\' :: 'n' :: l => '\n' :: unescape l
  | '\\' :: c :: l => c :: unescape l
  | c :: l => c :: unescape l

/-- Behind an even number of backslashes, an escaped character leaves an even number of them, and no
double quote that is bare. -/
theorem bareQuotes_escapeChar (hx : trailing x % 2 = 0) (c : Char) :
    trailing (x ++ escapeChar c) % 2 = 0 ∧ bareQuotes (x ++ escapeChar c) = bareQuotes x := by
  have hpair (d : Char) : x ++ ['\\', d] = (x ++ ['\\']) ++ [d] := by simp
  have hodd : ¬(trailing x + 1) % 2 = 0 := by omega
  unfold escapeChar
  split
  case h_4 => simp [hx]
  case h_7 =>
    rename_i hback hquote _ _ _ _
    rw [trailing_snoc, bareQuotes_snoc, if_neg hback, if_neg fun h => hquote h.1]
    simp
  all_goals
    rw [hpair, trailing_snoc, bareQuotes_snoc, bareQuotes_snoc, trailing_snoc]
    simp [hodd]
  omega

/-- Escaped text adds no bare quote and leaves no backslash open. -/
theorem bareQuotes_escape (hx : trailing x % 2 = 0) (s : List Char) :
    trailing (x ++ s.flatMap escapeChar) % 2 = 0 ∧
      bareQuotes (x ++ s.flatMap escapeChar) = bareQuotes x := by
  induction s generalizing x with
  | nil => simpa using hx
  | cons c s ih =>
      obtain ⟨heven, hquotes⟩ := bareQuotes_escapeChar hx c
      rw [List.flatMap_cons, ← List.append_assoc, ← hquotes]
      exact ih heven

theorem unescape_cons (hc : c ≠ '\\') (l : List Char) : unescape (c :: l) = c :: unescape l := by
  cases l <;> simp [unescape, hc]

/-- Unescaping gives a character back, unless it was dropped. -/
theorem unescape_escapeChar (c : Char) (l : List Char) :
    unescape (escapeChar c ++ l) = (if c = '\r' then [] else [c]) ++ unescape l := by
  unfold escapeChar
  split
  case h_7 =>
    rename_i hback _ _ hret _ _
    rw [if_neg hret, List.singleton_append, List.singleton_append, unescape_cons hback]
  all_goals simp [unescape]

/-- Undoing the escapes of a text gives the text without its carriage returns. -/
theorem unescape_escape (s : List Char) :
    unescape (s.flatMap escapeChar) = s.filter (· ≠ '\r') := by
  induction s with
  | nil => rfl
  | cons c s ih =>
      rw [List.flatMap_cons, unescape_escapeChar, ih, List.filter_cons]
      by_cases hc : c = '\r' <;> simp [hc]

/-- No escape has a line feed in it. -/
theorem newline_not_mem_escapeChar (c : Char) : '\n' ∉ escapeChar c := by
  unfold escapeChar
  split
  case h_7 => rename_i hline _ _ _; simpa using Ne.symm hline
  all_goals decide

theorem newline_not_mem_escape (s : List Char) : '\n' ∉ s.flatMap escapeChar := fun h => by
  obtain ⟨c, -, hc⟩ := List.mem_flatMap.mp h
  exact newline_not_mem_escapeChar c hc

theorem toList_escape (s : String) : (escape s).toList = s.toList.flatMap escapeChar :=
  String.toList_ofList

/-! ### Lines with a label -/

/-- A line with a label for a text: `before`, the label between the only two double quotes that are
bare, and `after`. -/
def Labels (line before text after : String) : Prop :=
  ∃ label : List Char,
    line.toList = before.toList ++ '"' :: label ++ '"' :: after.toList ∧
    bareQuotes line.toList = [before.length, before.length + label.length + 1] ∧
    unescape label = text.toList.filter (· ≠ '\r')

/-- Escaped text is a label wherever nothing else in the line is quoted. -/
theorem labels_escape {before after : String} (hbefore : '"' ∉ before.toList)
    (heven : trailing before.toList % 2 = 0) (hafter : '"' ∉ after.toList) (text : String) :
    Labels (before ++ "\"" ++ escape text ++ "\"" ++ after) before text after := by
  refine ⟨text.toList.flatMap escapeChar, by simp [toList_escape], ?_, unescape_escape _⟩
  have hopen : bareQuotes (before.toList ++ ['"']) = [before.length] := by
    rw [bareQuotes_snoc, if_pos ⟨rfl, heven⟩, ← List.nil_append before.toList,
      bareQuotes_append_of_not_mem hbefore, List.nil_append, String.length_toList]
    rfl
  have hquote : trailing (before.toList ++ ['"']) % 2 = 0 := by rw [trailing_snoc]; rfl
  obtain ⟨hlast, hlabel⟩ := bareQuotes_escape hquote text.toList
  have hclose : bareQuotes ((before.toList ++ ['"'] ++ text.toList.flatMap escapeChar) ++ ['"']) =
      [before.length, before.length + (text.toList.flatMap escapeChar).length + 1] := by
    rw [bareQuotes_snoc, if_pos ⟨rfl, hlast⟩, hlabel, hopen]
    simp only [List.length_append, List.length_singleton, String.length_toList]
    simp only [List.cons_append, List.nil_append, List.cons.injEq, true_and, and_true]
    omega
  have hline : (before ++ "\"" ++ escape text ++ "\"" ++ after).toList =
      ((before.toList ++ ['"'] ++ text.toList.flatMap escapeChar) ++ ['"']) ++ after.toList := by
    simp [toList_escape]
  rw [hline, bareQuotes_append_of_not_mem hafter, hclose]

/-! ### Lines -/

/-- The lines of a text, which line feeds separate. -/
def splitLines (text : String) : List String := (text.toList.splitOn '\n').map String.ofList

/-- Text put together from lines, each with a line feed behind it, splits into these lines and
nothing behind the last line feed. -/
theorem splitLines_join {lines : List String} (h : ∀ line ∈ lines, '\n' ∉ line.toList) :
    splitLines (String.join (lines.map fun line => line ++ "\n")) = lines ++ [""] := by
  rw [splitLines, String.toList_join]
  induction lines with
  | nil => simp
  | cons line lines ih =>
      have hsplit : (line ++ "\n").toList ++ (lines.map fun line => line ++ "\n").flatMap
          String.toList = line.toList ++ '\n' :: (lines.map fun line => line ++ "\n").flatMap
            String.toList := by simp
      rw [List.map_cons, List.flatMap_cons, hsplit,
        List.splitOn_append_cons_self_of_not_mem (h line List.mem_cons_self), List.map_cons,
        ih fun l hl => h l (List.mem_cons_of_mem _ hl), String.ofList_toList, List.cons_append]

/-- A name of a node has an `n` and digits, and no other characters. -/
theorem not_mem_text (id : NodeId) (hn : c ≠ 'n') (hc : c.isDigit = false) :
    c ∉ id.text.toList := by
  have hdigits : c ∉ (Nat.toDigits 10 id) := fun h => by
    rw [Nat.isDigit_of_mem_toDigits (by decide) (by decide) h] at hc
    cases hc
  simp only [NodeId.text, String.toList_append, List.mem_append, not_or]
  refine ⟨by simpa using hn, ?_⟩
  rwa [show (toString id).toList = Nat.toDigits 10 id from Nat.toList_repr]

/-- Identifiers have no quote in their text. -/
theorem quote_not_mem_text (id : NodeId) : '"' ∉ id.text.toList :=
  not_mem_text id (by decide) (by decide)

theorem trailing_label (s : String) : trailing (s ++ " [label=").toList % 2 = 0 := by
  have hlast : (s ++ " [label=").toList = (s ++ " [label").toList ++ ['='] := by simp
  rw [hlast, trailing_snoc, if_neg (by decide)]

end Dot

open Dot

namespace Graph

variable {g : Graph}

/-- The node is drawn with its name and its text as label. -/
def DrawsNode (g : Graph) (id : NodeId) (line : String) : Prop :=
  ∃ kind, g.kind? id = some kind ∧
    Labels line ("    " ++ id.text ++ " [label=") (id.text ++ ": " ++ kind.text)
      (style kind ++ "];")

/-- The edge in a slot of a node is drawn, with a label at a branch. -/
def DrawsEdge (g : Graph) (edge : NodeId × Nat) (line : String) : Prop :=
  ∃ kind target, g.kind? edge.1 = some kind ∧ (g.succs edge.1)[edge.2]? = some target ∧
    let arrow := "    " ++ edge.1.text ++ " -> " ++ target.text
    match kind.isBranch, edge.2 with
    | false, _ => line = arrow ++ ";"
    | true, 0 => Labels line (arrow ++ " [label=") "true" ", color=green];"
    | true, _ + 1 => Labels line (arrow ++ " [label=") "false" ", color=red];"

/-- The edges of a graph, node by node and slot by slot. -/
def edgeSlots (g : Graph) : List (NodeId × Nat) :=
  g.ids.flatMap fun id => (List.range (g.succs id).length).map fun slot => (id, slot)

/-- The entries are the live nodes with what their slots hold. -/
theorem forall₂_entries (g : Graph) :
    List.Forall₂ (fun id e => e.1 = id ∧ g.node? id = some e.2) g.ids g.entries := by
  have hids : ∀ l : List NodeId, (∀ id ∈ l, g.isLive id = true) →
      List.Forall₂ (fun id e => e.1 = id ∧ g.node? id = some e.2) l
        (l.filterMap fun id => (g.node? id).map fun n => (id, n)) := by
    intro l hl
    induction l with
    | nil => exact .nil
    | cons id l ih =>
        obtain ⟨n, hn⟩ := isLive_iff.mp (hl id List.mem_cons_self)
        rw [List.filterMap_cons, hn]
        exact .cons ⟨rfl, hn⟩ (ih fun m hm => hl m (List.mem_cons_of_mem _ hm))
  exact hids g.ids fun id hid => mem_ids.mp hid

/-- The line of a node shows its identifier, its text and the style of its kind. -/
theorem drawsNode_nodeLine {id : NodeId} {n : Node} (hn : g.node? id = some n) :
    g.DrawsNode id (nodeLine id n.kind) := by
  have hline : nodeLine id n.kind = ("    " ++ id.text ++ " [label=") ++ "\"" ++
      escape (id.text ++ ": " ++ n.kind.text) ++ "\"" ++ (style n.kind ++ "];") := by
    rw [← String.toList_inj]
    simp [nodeLine]
  rw [hline]
  refine ⟨n.kind, kind?_of_node? hn, labels_escape ?_ (trailing_label _) ?_ _⟩
  · simpa using quote_not_mem_text id
  · unfold style
    split <;> decide

/-- The line of an edge shows both ends, and which edge of a branch it is. -/
theorem drawsEdge_edgeStyle {id : NodeId} {n : Node} (hn : g.node? id = some n) {slot : Nat}
    {target : NodeId} (ht : (g.succs id)[slot]? = some target) :
    g.DrawsEdge (id, slot) ("    " ++ id.text ++ " -> " ++ target.text ++
      edgeStyle n.kind.isBranch slot ++ ";") := by
  refine ⟨n.kind, target, kind?_of_node? hn, ht, ?_⟩
  generalize harrow : "    " ++ id.text ++ " -> " ++ target.text = arrow
  have hbefore : '"' ∉ (arrow ++ " [label=").toList := by
    simpa [← harrow] using ⟨quote_not_mem_text id, quote_not_mem_text target⟩
  cases hk : n.kind.isBranch with
  | false => simp [edgeStyle]
  | true =>
      cases slot with
      | zero =>
          have hline : arrow ++ edgeStyle true 0 ++ ";" = (arrow ++ " [label=") ++ "\"" ++
              escape "true" ++ "\"" ++ ", color=green];" := by
            rw [← String.toList_inj]
            simp [edgeStyle, toList_escape, escapeChar]
          rw [hline]
          exact labels_escape hbefore (trailing_label _) (by decide) _
      | succ slot =>
          have hline : arrow ++ edgeStyle true (slot + 1) ++ ";" = (arrow ++ " [label=") ++ "\"" ++
              escape "false" ++ "\"" ++ ", color=red];" := by
            rw [← String.toList_inj]
            simp [edgeStyle, toList_escape, escapeChar]
          rw [hline]
          exact labels_escape hbefore (trailing_label _) (by decide) _

/-- There is one such line for each edge, in the order of the edges. -/
theorem forall₂_edgeLines {id : NodeId} {n : Node} (hn : g.node? id = some n) :
    List.Forall₂ g.DrawsEdge ((List.range (g.succs id).length).map fun slot => (id, slot))
      (edgeLines id n) := by
  have hsuccs := succs_of_node? hn
  rw [List.forall₂_map_left_iff, edgeLines, List.forall₂_map_right_iff, ← hsuccs]
  refine List.forall₂_of_length_eq_of_get (by simp) fun i hi hj => ?_
  have hlt : i < (g.succs id).length := by simpa using hi
  simpa using drawsEdge_edgeStyle hn (List.getElem?_eq_getElem hlt)

/-- A title is one label. -/
theorem labels_title (t : String) :
    Labels ("    label=\"CFG: " ++ escape t ++ "\";") "    label=" ("CFG: " ++ t) ";" := by
  have hline : "    label=\"CFG: " ++ escape t ++ "\";" =
      "    label=" ++ "\"" ++ escape ("CFG: " ++ t) ++ "\"" ++ ";" := by
    rw [← String.toList_inj]
    simp [toList_escape, escapeChar]
  rw [hline]
  exact labels_escape (by decide) (by decide) (by decide) _

/-! ### No line ends early -/

theorem newline_not_mem_nodeLine (id : NodeId) (kind : Kind) :
    '\n' ∉ (nodeLine id kind).toList := by
  have hid : '\n' ∉ id.text.toList := not_mem_text id (by decide) (by decide)
  have hstyle : '\n' ∉ (style kind).toList := by
    unfold style
    split <;> decide
  have hlabel : '\n' ∉ (escape (id.text ++ ": " ++ kind.text)).toList := by
    rw [toList_escape]
    exact newline_not_mem_escape _
  simp only [nodeLine, String.toList_append, List.mem_append, not_or]
  refine ⟨⟨⟨⟨⟨⟨?_, hid⟩, ?_⟩, hlabel⟩, ?_⟩, hstyle⟩, ?_⟩ <;> decide

theorem newline_not_mem_edgeLines {id : NodeId} {n : Node} {line : String}
    (h : line ∈ edgeLines id n) : '\n' ∉ line.toList := by
  obtain ⟨⟨target, slot⟩, -, rfl⟩ := List.mem_map.mp h
  have hname (id : NodeId) : '\n' ∉ id.text.toList := not_mem_text id (by decide) (by decide)
  have hstyle : '\n' ∉ (edgeStyle n.kind.isBranch slot).toList := by
    unfold edgeStyle
    split
    · split <;> decide
    · decide
  simp only [String.toList_append, List.mem_append, not_or]
  refine ⟨⟨⟨⟨⟨?_, hname id⟩, ?_⟩, hname target⟩, hstyle⟩, ?_⟩ <;> decide

theorem newline_not_mem_drawingHead {title : Option String} {line : String}
    (h : line ∈ drawingHead title) : '\n' ∉ line.toList := by
  simp only [drawingHead, List.mem_append, Option.mem_toList, Option.map_eq_some_iff] at h
  rcases h with (h | ⟨t, -, rfl⟩) | h
  · rw [List.mem_singleton.mp h]
    decide
  · have hlabel : '\n' ∉ (escape t).toList := by
      rw [toList_escape]
      exact newline_not_mem_escape _
    simp only [String.toList_append, List.mem_append, not_or]
    exact ⟨⟨by decide, hlabel⟩, by decide⟩
  · simp only [List.mem_cons, List.not_mem_nil, or_false] at h
    rcases h with rfl | rfl | rfl | rfl <;> decide

/-- No line is broken. -/
theorem newline_not_mem_drawingLines {title : Option String} {line : String}
    (h : line ∈ g.drawingLines title) : '\n' ∉ line.toList := by
  simp only [drawingLines, List.mem_append, List.mem_map, List.mem_flatMap] at h
  rcases h with (((h | ⟨e, -, rfl⟩) | h) | ⟨e, -, h⟩) | h
  · exact newline_not_mem_drawingHead h
  · exact newline_not_mem_nodeLine e.1 e.2.kind
  · rw [List.mem_singleton.mp h]
    decide
  · exact newline_not_mem_edgeLines h
  · rw [List.mem_singleton.mp h]
    decide

/-! ### The drawing -/

/-- Whatever the texts in a graph and its title, the drawing splits into its fixed lines, a line for
the title if there is one, a line for each live node and a line for each edge, in their order.  In
a line with a label the only bare double quotes are the two around the label, and undoing the
escapes between them gives the text that is labelled, without its carriage returns. -/
theorem drawing_lines (g : Graph) (title : Option String) :
    ∃ titleLines nodeLines edgeLines : List String,
      splitLines (g.drawing title) =
        ["digraph CFG \x7b"] ++ titleLines ++
          ["    labelloc=t;", "    node [shape=box, fontname=\"Courier\", fontsize=10];",
            "    edge [fontname=\"Courier\", fontsize=9];", ""] ++
          nodeLines ++ [""] ++ edgeLines ++ ["\x7d", ""] ∧
      List.Forall₂ (fun t line => Labels line "    label=" ("CFG: " ++ t) ";") title.toList
        titleLines ∧
      List.Forall₂ g.DrawsNode g.ids nodeLines ∧
      List.Forall₂ g.DrawsEdge g.edgeSlots edgeLines := by
  refine ⟨(title.map fun t => "    label=\"CFG: " ++ escape t ++ "\";").toList,
    g.entries.map fun e => nodeLine e.1 e.2.kind, g.entries.flatMap fun e => edgeLines e.1 e.2,
    ?_, ?_, ?_, ?_⟩
  · rw [drawing, splitLines_join fun _ => newline_not_mem_drawingLines, drawingLines, drawingHead]
    simp only [List.append_assoc]
    rfl
  · cases title with
    | none => exact .nil
    | some t => exact .cons (labels_title t) .nil
  · refine List.forall₂_map_right_iff.mpr (g.forall₂_entries.imp ?_)
    rintro _ ⟨id, n⟩ ⟨rfl, hn⟩
    exact drawsNode_nodeLine hn
  · refine List.rel_flatMap g.forall₂_entries ?_
    rintro _ ⟨id, n⟩ ⟨rfl, hn⟩
    exact forall₂_edgeLines hn

end Graph

end Flowgraph
