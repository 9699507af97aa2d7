import BuildPlan.Yaml.Node.Reader
import BuildPlan.Yaml.Suspect
import BuildPlan.Yaml.Token.Scan

/-!
# BuildPlan.Yaml

Reading a text as one YAML document. Lines that start with `---` or `...` mark
the start and the end of a document; a text that holds a second one is refused.
What follows a document and starts no other one is left alone.
-/

namespace BuildPlan.Yaml

/-- The part of a text that is read: a byte order mark at its start is no part of it,
and a NUL character ends it. -/
def readable (text : List Char) : List Char :=
  (if text.head? = some '\uFEFF' then text.drop 1 else text).takeWhile (· != '\x00')

/-- The handles that directives introduce, each at most once. There is one version at most. -/
def handlesOf (versioned : Bool) :
    List Directive → Except Problem (List (String × String))
  | [] => .ok []
  | .version :: rest => if versioned then .error .directive else handlesOf true rest
  | .handle name meaning :: rest => do
    let handles ← handlesOf versioned rest
    if Assoc.has name handles then .error .directive
    else return (name, meaning) :: handles

/-- The directives before a document, and the tokens behind them. -/
def splitDirectives : List Token → List Directive × List Token
  | .directive directive :: rest =>
    let (directives, tokens) := splitDirectives rest
    (directive :: directives, tokens)
  | tokens => ([], tokens)

/-- Does the text stop at the token without a node? -/
def Token.endsDocument : Token → Bool
  | directive _ | documentStart | documentEnd | endOfText => true
  | _ => false

/-- The first document and the tokens behind it. -/
def readDocument (tokens : List Token) : Except Problem (Node × Feed) := do
  let (directives, rest) := splitDirectives (tokens.dropWhile (· == .documentEnd))
  let handles ← handlesOf false directives
  match rest with
  | .documentStart :: content =>
    let feed : Feed := { tokens := content, handles := handles }
    if feed.head.endsDocument then return (.absent, feed) else Node.read .entry feed
  | .endOfText :: _ =>
    if directives.isEmpty then return (.absent, ⟨rest, [], []⟩) else .error .directive
  | _ =>
    if directives.isEmpty then Node.read .entry { tokens := rest } else .error .directive

/-- Is there another document behind a marker of the end of one? -/
def startsDocument (tokens : List Token) : Bool :=
  let (directives, rest) := splitDirectives (tokens.dropWhile (· == .documentEnd))
  match rest.head? with
  | none | some .endOfText | some (.broken _) => false
  | some token => directives.isEmpty || token == .documentStart

/-- Refuse what follows a document unless it is certain to be none. -/
def checkEnd : List Token → Except Problem Unit
  | .broken problem :: _ => .error problem
  | .directive _ :: _ => .error .directive
  | .documentStart :: _ => .error .secondDocument
  | .documentEnd :: rest => if startsDocument rest then .error .secondDocument else .ok ()
  | _ => .ok ()

def parse (text : String) : Except Problem Node := do
  let chars := text.toList
  if isSuspect chars then .error .suspect
  let (node, after) ← readDocument (Token.scan (readable chars))
  checkEnd after.tokens
  return node

end BuildPlan.Yaml
