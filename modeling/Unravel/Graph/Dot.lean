import Unravel.Graph.Basic

namespace Unravel.Graph

def dotChar : Char → List Char
  | '\\' => ['\\', '\\']
  | '"' => ['\\', '"']
  | '\n' => ['\\', 'n']
  | '<' => ['\\', '<']
  | '>' => ['\\', '>']
  | c => [c]

def dotText (s : String) : String := String.ofList (s.toList.flatMap dotChar)

def dotInstr (i : Instr) : String := dotText (InstrId.render i.id ++ ": " ++ i.text) ++ "\\l"

def dotBlock (entry : BlockId) (b : Block) : String :=
  let mark := if b.id = entry then " (entry)" else ""
  "    " ++ BlockId.render b.id ++ " [label=\"" ++ BlockId.render b.id ++ mark ++ "\\l" ++
    String.join (b.instrs.map dotInstr) ++ "\"];\n"

def edgeStyle : EdgeKind → String
  | .always => ""
  | .whenTrue => " [label=\"T\", color=green]"
  | .whenFalse => " [label=\"F\", color=red]"
  | .onCase n => " [label=\"" ++ toString n ++ "\"]"
  | .otherwise => " [label=\"default\"]"
  | .leave => " [style=dashed]"

def dotEdge (e : Edge) : String :=
  "    " ++ BlockId.render e.source ++ " -> " ++ BlockId.render e.target ++
    edgeStyle e.kind ++ ";\n"

def toDot (g : Graph) (title : Option String) : String :=
  let heading := match title with
    | some t => "    label=\"CFG: " ++ dotText t ++ "\";\n"
    | none => ""
  "digraph CFG \x7b\n" ++ heading ++
    "    labelloc=t;\n" ++
    "    node [shape=box, fontname=\"Courier\", fontsize=10];\n" ++
    "    edge [fontname=\"Courier\", fontsize=9];\n\n" ++
    String.join (g.blocks.map (dotBlock g.entry)) ++ "\n" ++
    String.join (g.edges.map dotEdge) ++ "\x7d\n"

end Unravel.Graph
