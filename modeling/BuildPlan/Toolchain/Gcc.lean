import BuildPlan.Toolchain

/-!
# BuildPlan.Toolchain.Gcc

The Unix toolchains: GCC or Clang as compiler and linker driver, and `ar`.
-/

namespace BuildPlan.Toolchain

/-- The compilers that drive a Unix toolchain. -/
inductive Flavor
  | gcc
  | clang
  deriving DecidableEq, Repr

namespace Flavor

/-- The name of the toolchain, and the command of its C compiler. -/
def cc : Flavor → String
  | gcc => "gcc"
  | clang => "clang"

def cxx : Flavor → String
  | gcc => "g++"
  | clang => "clang++"

end Flavor

/-- The template by which a Unix compiler tool makes an object. -/
def unixCompileTemplate (tool : String) : String :=
  s!"${tool}.cmd ${tool}.flags ${tool}.includes ${tool}.defines "
    ++ s!"${tool}.depflags -c -o $TARGET $SOURCE"

def unixCompiler (tool command : String) : String × List (String × Value) :=
  (tool, [
    ("cmd", .text command),
    ("flags", .list []),
    ("includes", .list []),
    ("defines", .list []),
    ("depflags", .text s!"-MD -MF {depfileTarget}.d"),
    ("objcmd", .text (unixCompileTemplate tool))])

/-- The flag that makes a Unix linker produce a shared library. -/
def sharedFlag : Platform → String
  | .macos => "-dynamiclib"
  | .linux | .windows => "-shared"

def copyCommand : Platform → String
  | .windows => "cmd /c copy /Y"
  | .linux | .macos => "cp"

def unixTools (flavor : Flavor) (platform : Platform) : List (String × List (String × Value)) :=
  [unixCompiler "cc" flavor.cc,
    unixCompiler "cxx" flavor.cxx,
    ("ar", [
      ("cmd", .text "ar"),
      ("flags", .text "rcs"),
      ("libcmd", .text "$ar.cmd $ar.flags $TARGET $SOURCES")]),
    ("link", [
      ("cmd", .text flavor.cc),
      ("flags", .list []),
      ("libs", .list []),
      ("libdirs", .list []),
      ("progcmd", .text "$link.cmd $link.flags -o $TARGET $SOURCES $link.libdirs $link.libs"),
      ("sharedcmd", .text (s!"$link.cmd {sharedFlag platform} $link.flags -o $TARGET $SOURCES "
        ++ "$link.libdirs $link.libs"))]),
    ("copy", [
      ("cmd", .text (copyCommand platform)),
      ("copycmd", .text "$copy.cmd $SOURCE $TARGET")])]

def unixHandlers : List (String × SourceHandler) :=
  let handler (tool language : String) : SourceHandler := { tool, language, objectSuffix := ".o" }
  let cxx := (handler "cxx" "cxx").withDepfile
  [(".c", (handler "cc" "c").withDepfile),
    (".cpp", cxx), (".cxx", cxx), (".cc", cxx), (".C", cxx), (".c++", cxx),
    (".m", (handler "cc" "objc").withDepfile),
    (".mm", (handler "cxx" "objcxx").withDepfile),
    (".S", (handler "cc" "asm").withDepfile),
    (".s", handler "cc" "asm")]

/-- How Unix toolchains name artifacts on a platform. -/
def unixNaming : Platform → ArtifactNaming
  | .linux => {}
  | .macos => { sharedLibrary := ⟨"lib", ".dylib"⟩ }
  | .windows => { sharedLibrary := ⟨"", ".dll"⟩, program := ⟨"", ".exe"⟩ }

/-- GCC or Clang producing artifacts for a platform. -/
def unix (flavor : Flavor) (platform : Platform) : Toolchain where
  name := flavor.cc
  tools := unixTools flavor platform
  requiredTools := ["cc", "cxx", "ar", "link"]
  handlers := unixHandlers
  naming := unixNaming platform
  impliedFlags :=
    match platform with
    | .windows => []
    | .linux | .macos => [(.sharedLibrary, ["-fPIC"])]
  linkDrivers := [("cxx", "cxx"), ("objcxx", "cxx")]
  separatedFlags :=
    ⟨["-arch", "-framework", "-isysroot", "-isystem", "-include", "-iquote", "-Xlinker", "-x"]⟩

end BuildPlan.Toolchain
