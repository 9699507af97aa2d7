/-!
# BuildPlan.Yaml.Problem

What can be wrong with a text that should be a YAML document.
-/

namespace BuildPlan.Yaml

/-- Why a text is no document. -/
inductive Problem
  /-- A tab where the nesting is told by spaces. -/
  | tab
  /-- A line that starts too far left or right. -/
  | indentation
  /-- A character that nothing can start with, or go on with, at its place. -/
  | unexpected (c : Char)
  /-- The text ends inside a quoted scalar or a collection. -/
  | unterminated
  /-- An escape sequence that stands for no character. -/
  | escape
  /-- A block scalar whose header says something else than its form. -/
  | blockHeader
  /-- A comment that touches the token before it. -/
  | comment
  /-- Something that must be a key but has no value marker. -/
  | bareKey
  /-- A key, a value or an entry of a sequence where none can stand. -/
  | placement
  | depth
  /-- An anchor, an alias or a tag without a proper name. -/
  | property
  /-- A directive that is malformed, repeated or without a document. -/
  | directive
  /-- An alias or a tag's handle that was not introduced before. -/
  | undeclared (name : String)
  | missingNode
  /-- A comma, an entry or the end of a collection was expected. -/
  | missingEnd
  | collectionKey
  | duplicateKey (key : String)
  /-- A merge key whose value is neither a mapping nor a sequence of mappings. -/
  | mergeValue
  | secondDocument
  /-- A spelling that is refused before the text is read. -/
  | suspect
  deriving DecidableEq, Repr

def Problem.message : Problem → String
  | tab => "tabs cannot be used as indentation"
  | indentation => "invalid indentation"
  | unexpected c => s!"unexpected character '{c}'"
  | unterminated => "unexpected end of text"
  | escape => "invalid escape sequence"
  | blockHeader => "invalid block scalar header"
  | comment => "comments must be separated from other tokens by blanks"
  | bareKey => "a key needs a value marker"
  | placement => "keys, values and entries are not allowed here"
  | depth => "nesting is too deep"
  | property => "invalid anchor, alias or tag"
  | directive => "invalid directive"
  | undeclared name => s!"'{name}' was not declared"
  | missingNode => "a node was expected"
  | missingEnd => "an entry or the end of the collection was expected"
  | collectionKey => "mapping keys must be scalars"
  | duplicateKey key => s!"duplicate mapping key '{key}'"
  | mergeValue => "only mappings can be merged"
  | secondDocument => "more than one document"
  | suspect => "suspicious spelling"

end BuildPlan.Yaml
