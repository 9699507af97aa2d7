import BuildPlan.Yaml.Cursor

/-!
# BuildPlan.Yaml.Suspect

Spellings that are refused before a text is read, because they tend to hide text
behind the end of a document. They are refused wherever they stand, also inside
comments and scalars.
-/

namespace BuildPlan.Yaml

def contains (part : List Char) : List Char → Bool
  | [] => part.isEmpty
  | c :: rest => part.isPrefixOf (c :: rest) || contains part rest

def linesOf (text : List Char) : List (List Char) := text.splitOn '\n'

/-- Does a comment stand behind the line's content, which is neither an entry of a
mapping nor one of a block sequence? -/
def commentsContent (line : List Char) : Bool :=
  let content := (line.takeWhile (· != '#')).dropWhile isSpace
  let isEntry := content.head? == some '-' && startsBlank (content.drop 1)
  line.contains '#' && !content.isEmpty && !isEntry && !content.contains ':'

/-- Is the line content that is not indented and neither an entry of a mapping nor a
marker of documents? -/
def isLooseContent (line : List Char) : Bool :=
  let starts (mark : String) : Bool := mark.toList.isPrefixOf line
  !startsBlank line && !starts "#" && !starts "---" && !starts "..." && !line.contains ':'

/-- Does content with a comment stand above loose content? -/
def commentsAbove : List (List Char) → Bool
  | upper :: lower :: rest =>
    commentsContent upper && isLooseContent lower || commentsAbove (lower :: rest)
  | _ => false

/-- Is the text refused before it is read? -/
def isSuspect (text : List Char) : Bool :=
  contains "] ]".toList text || commentsAbove (linesOf text)

end BuildPlan.Yaml
