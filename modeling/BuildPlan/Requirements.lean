import BuildPlan.Digest.Sha256
import BuildPlan.Flag
import BuildPlan.Path

/-!
# BuildPlan.Requirements

What targets ask for when they are compiled and linked. A target's public
requirements reach everything that depends on it, its private ones only itself.
Collected requirements are projected onto one kind of step, which makes them
effective; the digest of effective requirements identifies them by spelling.
-/

namespace BuildPlan

/-- Include paths, libraries, definitions and flags that a target asks for. -/
structure Requirements where
  /-- Header search paths. -/
  includeDirs : List Path := []
  /-- Library search paths. -/
  linkDirs : List Path := []
  /-- Libraries by name. -/
  linkLibs : List String := []
  /-- Preprocessor definitions, `NAME` or `NAME=VALUE`. -/
  defines : List String := []
  compileFlags : List String := []
  linkFlags : List String := []
  deriving DecidableEq, Repr, Inhabited

namespace Requirements

/-- The requirements followed by those of `other` that they do not contain. -/
def merge (separated : SeparatedFlags) (reqs other : Requirements) : Requirements where
  includeDirs := Flag.appendNew Path.same reqs.includeDirs other.includeDirs
  linkDirs := Flag.appendNew Path.same reqs.linkDirs other.linkDirs
  linkLibs := Flag.mergeUnique reqs.linkLibs other.linkLibs
  defines := Flag.mergeUnique reqs.defines other.defines
  compileFlags := Flag.merge separated reqs.compileFlags other.compileFlags
  linkFlags := Flag.merge separated reqs.linkFlags other.linkFlags

def isEmpty (reqs : Requirements) : Bool :=
  reqs.includeDirs.isEmpty && reqs.linkDirs.isEmpty && reqs.linkLibs.isEmpty
    && reqs.defines.isEmpty && reqs.compileFlags.isEmpty && reqs.linkFlags.isEmpty

end Requirements

/-- The kind of step that requirements are collected for. -/
inductive RequirementScope
  | compile
  | link
  deriving DecidableEq, Repr

/-- The requirements of one compile or link step. -/
structure EffectiveRequirements where
  includes : List Path := []
  defines : List String := []
  compileFlags : List String := []
  linkFlags : List String := []
  linkLibs : List String := []
  linkDirs : List Path := []
  deriving DecidableEq, Repr, Inhabited

namespace EffectiveRequirements

/-- The part of collected requirements that matters for a kind of step. -/
def ofRequirements (reqs : Requirements) : RequirementScope → EffectiveRequirements
  | .compile =>
    { includes := reqs.includeDirs, defines := reqs.defines, compileFlags := reqs.compileFlags }
  | .link =>
    { linkFlags := reqs.linkFlags, linkLibs := reqs.linkLibs, linkDirs := reqs.linkDirs }

/-- The spelled texts of the six lists, in the order in which they are digested. -/
def fields (reqs : EffectiveRequirements) : List (List String) :=
  [reqs.includes.map Path.spelling, reqs.defines, reqs.compileFlags, reqs.linkFlags,
    reqs.linkLibs, reqs.linkDirs.map Path.spelling]

/-- A text's bytes after their number. -/
def encodeText (text : String) : List UInt8 :=
  let bytes := text.toUTF8.toList
  Digest.littleEndian64 bytes.length ++ bytes

/-- A list's texts after their number. -/
def encodeList (texts : List String) : List UInt8 :=
  Digest.littleEndian64 texts.length ++ texts.flatMap encodeText

/-- The bytes that identify the requirements. -/
def encode (reqs : EffectiveRequirements) : List UInt8 := reqs.fields.flatMap encodeList

def digest (reqs : EffectiveRequirements) : String := Digest.sha256 reqs.encode

end EffectiveRequirements

end BuildPlan
