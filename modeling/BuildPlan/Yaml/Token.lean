import BuildPlan.Yaml.Problem

/-!
# BuildPlan.Yaml.Token

The tokens of a text. The nesting that indentation tells is spelled out: a block
collection has a token at its start and one at its end, like one in brackets.
-/

namespace BuildPlan.Yaml

/-- How a scalar was written. -/
inductive ScalarStyle
  /-- Without any quotes. -/
  | plain
  /-- In single or double quotes. -/
  | quoted
  /-- As an indented block after `|` or `>`. -/
  | block
  deriving DecidableEq, Repr

/-- What a line that starts with `%` says about the document below. -/
inductive Directive
  | version
  /-- In tags, the handle stands for the text that it is bound to. -/
  | handle (name : String) (meaning : String)
  deriving DecidableEq, Repr

inductive Token
  | endOfText
  /-- What follows cannot be split into tokens. -/
  | broken (problem : Problem)
  | directive (directive : Directive)
  | documentStart
  | documentEnd
  | blockSequenceStart
  | blockMappingStart
  /-- The end of a block sequence or a block mapping. -/
  | blockEnd
  /-- The dash before an entry of a block sequence. -/
  | blockEntry
  | flowSequenceStart
  | flowSequenceEnd
  | flowMappingStart
  | flowMappingEnd
  /-- The comma between two entries. -/
  | flowEntry
  | key
  /-- The value of the last key follows. -/
  | value
  /-- The node of an anchor is meant. -/
  | reference (name : String)
  /-- A name for the node that follows. -/
  | anchor (name : String)
  /-- The kind of the node that follows. -/
  | tag (handle : String) (suffix : String)
  | scalar (style : ScalarStyle) (text : String)
  deriving DecidableEq, Repr

/-- Does the token stand before a node and belong to it? -/
def Token.isProperty : Token → Bool
  | anchor _ | tag _ _ => true
  | _ => false

end BuildPlan.Yaml
