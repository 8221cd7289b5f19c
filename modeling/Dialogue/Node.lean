import Dialogue.Text.Blank

/-!
# Nodes

A node is a titled body of dialogue with a list of tags, kept as written.
-/

namespace Dialogue

structure Node where
  title : String
  body : String
  tags : String := ""
deriving DecidableEq, Repr

namespace Node

def tagList (n : Node) : List String := (Text.words n.tags.toList).map String.ofList

def hasTag (n : Node) (tag : String) : Bool := n.tagList.contains tag

end Node

end Dialogue
