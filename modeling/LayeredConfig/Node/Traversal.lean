import LayeredConfig.Node.Basic
import LayeredConfig.Position

/-!
# Walking a tree

The nodes of a tree in depth-first order, each before its children, together with the stacks of
positions that lead to them.
-/

namespace LayeredConfig

namespace Node

mutual

/-- The nodes of a tree with their positions, below a node that stands at `path`. -/
def entriesFrom (path : List Position) : Node → List (List Position × Node)
  | .leaf label value => [(path, .leaf label value)]
  | .array label items => (path, .array label items) :: itemEntriesFrom path 0 items
  | .object label members => (path, .object label members) :: memberEntriesFrom path members

/-- The nodes of elements, the first of which stands at `index`. -/
def itemEntriesFrom (path : List Position) (index : Nat) :
    List Node → List (List Position × Node)
  | [] => []
  | item :: rest =>
    entriesFrom (path ++ [.index index]) item ++ itemEntriesFrom path (index + 1) rest

/-- The nodes of members. -/
def memberEntriesFrom (path : List Position) :
    List (String × Node) → List (List Position × Node)
  | [] => []
  | (key, child) :: rest =>
    entriesFrom (path ++ [.key key]) child ++ memberEntriesFrom path rest

end

/-- All nodes of a tree with their positions, the root first. -/
def entries (n : Node) : List (List Position × Node) := entriesFrom [.root] n

/-- All nodes of a tree. -/
def nodes (n : Node) : List Node := n.entries.map Prod.snd

/-- Adds a source unless it is among those already seen. -/
def addSource (seen : List Source) (s : Source) : List Source :=
  if seen.any (·.sameAs s) then seen else seen ++ [s]

/-- The sources of all nodes of a tree, each once, in the order in which they are first met. -/
def allSources (n : Node) : List Source := (n.nodes.flatMap sources).foldl addSource []

end Node

end LayeredConfig
