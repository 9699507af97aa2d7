import BuildPlan.Toolchain.Gcc
import BuildPlan.Toolchain.Msvc

/-!
# BuildPlan.Toolchain.Kind

The toolchains that a manifest can name.
-/

namespace BuildPlan

/-- A toolchain selected by name. -/
inductive ToolchainKind
  | gcc
  | clang
  | msvc
  deriving DecidableEq, Repr

/-- The toolchain of a kind for a platform. -/
def ToolchainKind.toolchain (kind : ToolchainKind) (platform : Platform) : Toolchain :=
  match kind with
  | .gcc => .unix .gcc platform
  | .clang => .unix .clang platform
  | .msvc => .msvc

end BuildPlan
