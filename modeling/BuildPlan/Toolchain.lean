import BuildPlan.Flag
import BuildPlan.TargetType
import BuildPlan.Template.Value
import BuildPlan.Text.Replace

/-!
# BuildPlan.Toolchain

A family of compilers and linkers as a table: the tools it sets up, the source
suffixes it compiles, how it names artifacts and which conventions its command
lines follow. The defaults are those of a Unix toolchain without any tools.
-/

namespace BuildPlan

/-- The operating system that decides how artifacts are named. -/
inductive Platform
  /-- Linux and other ELF systems. -/
  | linux
  | macos
  | windows
  deriving DecidableEq, Repr

/-- The platform assumed when none is named. -/
def Platform.host : Platform := .linux

/-- How includes, definitions and libraries are spelled on a command line. -/
inductive CommandStyle
  /-- `-I`, `-D`, `-L` and `-l`. -/
  | unix
  /-- `/I`, `/D`, `/LIBPATH:` and library names ending in `.lib`. -/
  | msvc
  deriving DecidableEq, Repr

/-- How a compiler reports the headers it has read. -/
inductive DepsStyle
  /-- In a dependency file beside the output. -/
  | gcc
  /-- On its standard output. -/
  | msvc
  deriving DecidableEq, Repr

def DepsStyle.name : DepsStyle → String
  | .gcc => "gcc"
  | .msvc => "msvc"

/-- Stands for the object's path in the specification of a dependency file. -/
def depfileTarget : String := "$\x7bTARGET\x7d"

/-- How sources with some suffix are compiled. -/
structure SourceHandler where
  tool : String
  language : String
  objectSuffix : String
  /-- The tool's field that holds the command template. -/
  commandVar : String := "objcmd"
  /-- The dependency file, in which `depfileTarget` stands for the object. -/
  depfile : Option String := none
  depsStyle : Option DepsStyle := none
  deriving DecidableEq, Repr, Inhabited

namespace SourceHandler

/-- Report headers in a dependency file named after the object. -/
def withDepfile (handler : SourceHandler) : SourceHandler :=
  { handler with depfile := some (depfileTarget ++ ".d"), depsStyle := some .gcc }

/-- Report headers on the compiler's standard output. -/
def withListedHeaders (handler : SourceHandler) : SourceHandler :=
  { handler with depsStyle := some .msvc }

end SourceHandler

/-- A linker input that is recognised by its suffix, such as a module definition. -/
structure AuxiliaryHandler where
  suffix : String
  /-- The linker flag, in which `$file` stands for the input. -/
  flagTemplate : String
  deriving DecidableEq, Repr, Inhabited

/-- The linker flag for an input. -/
def AuxiliaryHandler.flagFor (handler : AuxiliaryHandler) (path : String) : String :=
  Text.replaceAll "$file" path handler.flagTemplate

/-- What stands before and after the name of an artifact. -/
structure Affix where
  before : String
  after : String
  deriving DecidableEq, Repr, Inhabited

def Affix.around (affix : Affix) (name : String) : String := affix.before ++ name ++ affix.after

/-- How the files that targets produce are named. -/
structure ArtifactNaming where
  staticLibrary : Affix := ⟨"lib", ".a"⟩
  sharedLibrary : Affix := ⟨"lib", ".so"⟩
  program : Affix := ⟨"", ""⟩
  deriving DecidableEq, Repr, Inhabited

def ArtifactNaming.fileName (naming : ArtifactNaming) (type : TargetType) (name : String) :
    String :=
  match type with
  | .staticLibrary => naming.staticLibrary.around name
  | .sharedLibrary => naming.sharedLibrary.around name
  | _ => naming.program.around name

/-- A family of compilers and linkers. -/
structure Toolchain where
  name : String
  /-- The fields that the toolchain sets, tool by tool. -/
  tools : List (String × List (String × Value)) := []
  /-- The tools that must exist once the toolchain has been set up. -/
  requiredTools : List String := []
  /-- How sources are compiled, by suffix. The first entry for a suffix counts. -/
  handlers : List (String × SourceHandler) := []
  auxiliary : List AuxiliaryHandler := []
  objectSuffix : String := ".o"
  /-- The suffixes of sources that go to the linker as they are. -/
  linkInputs : List String := [".o", ".a", ".so", ".dylib", ".lib"]
  naming : ArtifactNaming := {}
  /-- Compile flags implied by what a target produces. -/
  impliedFlags : List (TargetType × List String) := []
  /-- The tool that makes static libraries. -/
  archiver : String := "ar"
  /-- The tool that links programs and shared libraries. -/
  linker : String := "link"
  /-- The tool's field that holds the command template, by what a target produces. -/
  linkVars : List (TargetType × String) :=
    [(.staticLibrary, "libcmd"), (.sharedLibrary, "sharedcmd"), (.program, "progcmd")]
  /-- The tool whose command links a language, where the linker's own does not. -/
  linkDrivers : List (String × String) := []
  style : CommandStyle := .unix
  /-- The flags whose argument is the word that follows. -/
  separatedFlags : SeparatedFlags := .none

namespace Toolchain

/-- How a source with the given suffix is compiled, if it is. -/
def sourceHandler (tc : Toolchain) (suffix : String) : Option SourceHandler :=
  tc.handlers.lookup suffix

/-- How a linker input with the given suffix becomes a flag, if it does. -/
def auxiliaryHandler (tc : Toolchain) (suffix : String) : Option AuxiliaryHandler :=
  tc.auxiliary.find? fun handler => handler.suffix = suffix

/-- Does a source with the given suffix go to the linker as it is? -/
def isLinkInput (tc : Toolchain) (suffix : String) : Bool := tc.linkInputs.contains suffix

/-- The compile flags implied by what a target produces. -/
def flagsFor (tc : Toolchain) (type : TargetType) : List String :=
  (tc.impliedFlags.lookup type).getD []

/-- The field that holds the template for making an artifact. -/
def linkVar (tc : Toolchain) (type : TargetType) : Option String := tc.linkVars.lookup type

/-- The tool whose command links a language in place of the linker's. -/
def linkDriver (tc : Toolchain) (language : String) : Option String :=
  tc.linkDrivers.lookup language

end Toolchain

/-- The file name of an artifact. Without a toolchain it is named as on the host. -/
def artifactName (tc : Option Toolchain) (type : TargetType) (name : String) : String :=
  ((tc.map Toolchain.naming).getD {}).fileName type name

end BuildPlan
