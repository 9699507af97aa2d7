import BuildPlan.Requirements
import BuildPlan.Toolchain

/-!
# BuildPlan.StepContext

The effective requirements of one build step together with the command style
of the toolchain that carries it out, and the template variables they make.
-/

namespace BuildPlan

/-- Requirements in the style of the command line they will appear on. -/
structure StepContext where
  requirements : EffectiveRequirements
  style : CommandStyle
  deriving DecidableEq, Repr

namespace CommandStyle

def includeOption : CommandStyle → String
  | unix => "-I"
  | msvc => "/I"

def defineOption : CommandStyle → String
  | unix => "-D"
  | msvc => "/D"

def libraryDirOption : CommandStyle → String
  | unix => "-L"
  | msvc => "/LIBPATH:"

/-- The argument that links a library. -/
def libraryArgument (style : CommandStyle) (library : String) : String :=
  match style with
  | unix => "-l" ++ library
  | msvc => if ".lib".toList.isSuffixOf library.toList then library else library ++ ".lib"

end CommandStyle

namespace StepContext

/-- The words that the requirements add to each kind of tool field, in the order
in which they are shown. Kinds without words are left out. -/
def fieldWords (context : StepContext) : List (String × List String) :=
  let reqs := context.requirements
  let style := context.style
  [("includes", reqs.includes.map fun dir => style.includeOption ++ dir.spelling),
    ("defines", reqs.defines.map (style.defineOption ++ ·)),
    ("extra_flags", reqs.compileFlags),
    ("ldflags", reqs.linkFlags),
    ("libs", reqs.linkLibs.map style.libraryArgument),
    ("libdirs", reqs.linkDirs.map fun dir => style.libraryDirOption ++ dir.spelling)].filter
    fun (_, words) => !words.isEmpty

end StepContext

end BuildPlan
