import Dialogue.Node
import Dialogue.RunError
import Dialogue.Table

/-!
# Libraries

A library holds the loaded nodes by title. The statements of a body are parsed
when they are first needed and kept until another node is loaded under the same
title; a body that does not parse is tried again each time.
-/

namespace Dialogue

structure Library where
  nodes : Table Node := {}
  /-- The statements of bodies that have been parsed, by title. -/
  parsed : Table (List Statement) := {}

namespace Library

/-- Loads a node in place of the one with the same title. Loading the very same node again
changes nothing. -/
def loadNode (l : Library) (node : Node) : Library :=
  if l.nodes.get? node.title = some node then l
  else { nodes := l.nodes.insert node.title node, parsed := l.parsed.erase node.title }

def load (l : Library) (nodes : List Node) : Library := nodes.foldl loadNode l

def node? (l : Library) (title : String) : Option Node := l.nodes.get? title

/-- The titles of all nodes, ordered by code point. -/
def titles (l : Library) : List String := l.nodes.sortedNames

def statements (l : Library) (title : String) : Except RunError (List Statement) × Library :=
  match l.parsed.get? title with
  | some statements => (.ok statements, l)
  | none =>
    match l.nodes.get? title with
    | none => (.error (.nodeNotFound title), l)
    | some node =>
      match Statement.ofBody node.body.toList with
      | .error e => (.error (.parse title e), l)
      | .ok statements => (.ok statements, { l with parsed := l.parsed.insert title statements })

end Library

end Dialogue
