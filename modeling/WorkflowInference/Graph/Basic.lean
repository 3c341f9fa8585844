import WorkflowInference.StepName

/-!
Graphs of workflows, in three views that are kept together: the nested graph of a workflow and
its subworkflows with the attributes of nodes and edges, the flat graph of names, and the lines of
a diagram, one for each attribute, node and edge.
-/
namespace WorkflowInference.Graph.Dot

def isIdStart (c : Char) : Bool := c.isAlpha || c = '_'

def isIdChar (c : Char) : Bool := isIdStart c || c.isDigit

def isNumeral (cs : List Char) : Bool :=
  let u := match cs with | '-' :: r => r | r => r
  let w := u.takeWhile Char.isDigit
  match u.drop w.length with
  | [] => !w.isEmpty
  | '.' :: f => f.all Char.isDigit && (!w.isEmpty || !f.isEmpty)
  | _ => false

def isId (s : String) : Bool :=
  match s.toList with
  | [] => false
  | c :: cs => (isIdStart c && cs.all isIdChar) || isNumeral (c :: cs)

def keywords : List String := ["node", "edge", "graph", "digraph", "subgraph", "strict"]

/-- Quotes get a backslash unless they have one; `odd` when an odd number of backslashes stands
before. -/
def escapeQuotes : Bool → List Char → List Char
  | _, [] => []
  | odd, c :: cs =>
    if c = '\\' then c :: escapeQuotes (!odd) cs
    else if c = '"' && !odd then '\\' :: c :: escapeQuotes false cs
    else c :: escapeQuotes false cs

def isHtml (s : String) : Bool :=
  s.length ≥ 2 && Text.startsWith s "<" && Text.endsWith s ">"

def quote (s : String) : String :=
  if isHtml s then s
  else if isId s && !keywords.contains s.toLower then s
  else "\"" ++ String.ofList (escapeQuotes false s.toList) ++ "\""

def quoteEnd (s : String) : String :=
  match Text.splitOn ":" s with
  | [a] => quote a
  | a :: b :: rest =>
    let slot := if b.isEmpty && rest.isEmpty then [] else [quote b]
    let compass := Text.join ":" rest
    Text.join ":" (quote a :: slot ++ (if rest.isEmpty || compass.isEmpty then [] else [compass]))
  | [] => quote s

def attrText (attrs : List (String × String)) : List String :=
  attrs.map fun a => quote a.1 ++ "=" ++ quote a.2

def attrList (attrs : List (String × String)) : String :=
  let label := attrs.filter fun a => a.1 = "label"
  let others := (attrs.filter fun a => a.1 != "label").mergeSort fun a b => decide (a.1 ≤ b.1)
  let items := attrText (label ++ others)
  if items.isEmpty then "" else " [" ++ Text.join " " items ++ "]"

def node (name : String) (attrs : List (String × String)) : String :=
  "\t" ++ quote name ++ attrList attrs ++ "\n"

def edge (a b : String) (attrs : List (String × String)) : String :=
  "\t" ++ quoteEnd a ++ " -> " ++ quoteEnd b ++ attrList attrs ++ "\n"

def attr (k v : String) : String := "\t" ++ quote k ++ "=" ++ quote v ++ "\n"

def subgraph (name : String) (body : List String) : List String :=
  (("\tsubgraph " ++ quote name ++ " \x7b\n") :: body.map ("\t" ++ ·)) ++ ["\t\x7d\n"]

def digraph (name : String) (body : List String) : String :=
  String.join (("digraph " ++ quote name ++ " \x7b\n") :: body) ++ "\x7d\n"

end WorkflowInference.Graph.Dot

namespace WorkflowInference

structure GraphData where
  name : String
  nodes : List (String × Entries)
  edges : List (String × String × Entries)
  subgraphs : List GraphData
  ranksame : List String

namespace GraphData

def empty (name : String) : GraphData := ⟨name, [], [], [], []⟩

def addNode (g : GraphData) (n : String) (attrs : Entries) : GraphData :=
  { g with nodes := g.nodes ++ [(n, attrs)] }

def addEdge (g : GraphData) (a b : String) (attrs : Entries) : GraphData :=
  { g with edges := g.edges ++ [(a, b, attrs)] }

mutual

def flatten (parent : String) : GraphData → GraphData
  | ⟨name, nodes, edges, subgraphs, _⟩ =>
    let subs := flattenAll name subgraphs
    let attrs : Entries := if parent = "" then [] else [(.str "parent", .str parent)]
    let places := subs.map fun g => (g.name, attrs)
    let own := nodes.map fun n => (n.1, Entries.put n.2 "parent" (.str name))
    ⟨name, places ++ subs.flatMap (·.nodes) ++ own, subs.flatMap (·.edges) ++ edges, [], []⟩

def flattenAll (parent : String) : List GraphData → List GraphData
  | [] => []
  | g :: gs => flatten parent g :: flattenAll parent gs

end

def elements (g : GraphData) : Doc :=
  let data (es : Entries) : Doc := Doc.obj [("data", .map es)]
  let nodes := g.nodes.map fun n => data (Entries.update [(.str "id", .str n.1)] n.2)
  let edges := g.edges.map fun e =>
    data (Entries.update [(.str "source", .str e.1), (.str "target", .str e.2.1)] e.2.2)
  Doc.obj [("nodes", .list nodes), ("edges", .list edges)]

end GraphData

structure Graph where
  title : String
  lines : List String
  nodes : List String
  edges : List (String × String)
  data : GraphData

structure GraphSettings where
  dark : Bool := false
  inlineDepth : Int := 9223372036854775807
  labelEdges : Bool := false
  labelSteps : Bool := false
  showOutputs : Bool := false
  showInputs : Bool := false
  deriving Repr

namespace Graph

def empty (title name : String) : Graph := ⟨title, [], [], [], .empty name⟩

def addLines (g : Graph) (ls : List String) : Graph := { g with lines := g.lines ++ ls }

def root (name : String) : Graph :=
  (empty ("cluster_" ++ name) name).addLines [Graph.Dot.attr "newrank" "True"]

def addName (g : Graph) (n : String) : Graph :=
  if g.nodes.contains n then g else { g with nodes := g.nodes ++ [n] }

def addArrow (g : Graph) (a b : String) : Graph :=
  let g := (g.addName a).addName b
  if g.edges.contains (a, b) then g else { g with edges := g.edges ++ [(a, b)] }

def drawn (attrs : Entries) : Result (List (String × String)) :=
  attrs.filterMapM fun e =>
    match e.1, e.2 with
    | .str k, .str v => .ok (some (k, v))
    | _, .null => .ok none
    | _, _ => .error .wrongKind

def sliceTo {α : Type} (xs : List α) (n : Int) : List α :=
  if n ≥ 0 then xs.take n.toNat else xs.take (xs.length - n.natAbs)

def shownName (s : GraphSettings) (ns : Namespaces) : String :=
  Namespaces.join (sliceTo ns (1 + s.inlineDepth))

def lineColor (s : GraphSettings) : String := if s.dark then "black" else "white"

/-- An edge between two nodes; an edge inside one node that is shown is not drawn. -/
def addEdge (s : GraphSettings) (g : Graph) (a b : Namespaces) (label : String)
    (color : Option String) : Graph :=
  let a := shownName s a
  let b := shownName s b
  let attrs : List (String × String) :=
    if a = b then []
    else ("color", color.getD (lineColor s)) :: (if s.labelEdges then [("label", label)] else [])
  let g := if a = b then g else g.addLines [Dot.edge a b attrs]
  let g := g.addArrow a b
  { g with data := g.data.addEdge a b (attrs.map fun x => (.str x.1, .str x.2)) }

def rankLine (names : List String) : String :=
  "\t\x7brank=same; " ++ Text.join "; " names ++ "\x7d\n"

def addSubgraphs (s : GraphSettings) (g : Graph) (subs : List Graph) (depth : Nat)
    (firsts ranks : List String) : Graph :=
  let shown : Bool := (depth : Int) < s.inlineDepth
  let absorb (g sub : Graph) : Graph :=
    let g := if shown then g.addLines (Dot.subgraph sub.title sub.lines) else g
    let g := sub.nodes.foldl addName g
    sub.edges.foldl (fun g e => g.addArrow e.1 e.2) g
  let g := subs.reverse.foldl absorb g
  let g := { g with data := { g.data with subgraphs := g.data.subgraphs ++ subs.map (·.data) } }
  let rank (g : Graph) (names : List String) : Graph :=
    if shown && names.length > 1 then
      { g.addLines [rankLine names] with data := { g.data with ranksame := names } }
    else g
  let firsts := firsts.filter fun n => ((Namespaces.split n).length : Int) < 2 + s.inlineDepth
  rank (rank g firsts) ranks

end Graph

end WorkflowInference
