import BuildPlan.Toolchain

/-!
# BuildPlan.Toolchain.Msvc

The Microsoft toolchain: `cl`, `lib`, `link` and the resource compiler `rc`.
-/

namespace BuildPlan.Toolchain

/-- The template by which `cl` makes an object. -/
def msvcCompileTemplate (tool : String) : String :=
  s!"${tool}.cmd /nologo /showIncludes /c ${tool}.flags ${tool}.includes "
    ++ s!"${tool}.defines /Fo$TARGET $SOURCE"

/-- The fields of a compiler tool that runs `cl`. -/
def msvcCompiler (tool : String) (flags : List String) : String × List (String × Value) :=
  (tool, [
    ("cmd", .text "cl"),
    ("flags", .ofTexts flags),
    ("includes", .list []),
    ("defines", .list []),
    ("objcmd", .text (msvcCompileTemplate tool))])

def msvcTools : List (String × List (String × Value)) :=
  [msvcCompiler "cc" [],
    msvcCompiler "cxx" ["/EHsc"],
    ("lib", [
      ("cmd", .text "lib"),
      ("flags", .list []),
      ("libcmd", .text "$lib.cmd /nologo $lib.flags /OUT:$TARGET $SOURCES")]),
    ("link", [
      ("cmd", .text "link"),
      ("flags", .list []),
      ("libs", .list []),
      ("libdirs", .list []),
      ("progcmd", .text ("$link.cmd /nologo $link.flags /OUT:$TARGET $SOURCES "
        ++ "$link.libdirs $link.libs")),
      ("sharedcmd", .text ("$link.cmd /nologo /DLL $link.flags /OUT:$TARGET $SOURCES "
        ++ "$link.libdirs $link.libs"))]),
    ("rc", [
      ("cmd", .text "rc"),
      ("includes", .list []),
      ("defines", .list []),
      ("rescmd", .text "$rc.cmd /nologo $rc.includes $rc.defines /fo$TARGET $SOURCE")]),
    ("copy", [
      ("cmd", .text "cmd /c copy /Y"),
      ("copycmd", .text "$copy.cmd $SOURCE $TARGET")])]

def msvcHandlers : List (String × SourceHandler) :=
  let c : SourceHandler := { tool := "cc", language := "c", objectSuffix := ".obj" }
  let cxx : SourceHandler := { tool := "cxx", language := "cxx", objectSuffix := ".obj" }
  [(".c", c.withListedHeaders),
    (".cpp", cxx.withListedHeaders), (".cxx", cxx.withListedHeaders),
    (".cc", cxx.withListedHeaders), (".c++", cxx.withListedHeaders),
    (".rc", { tool := "rc", language := "rc", objectSuffix := ".res", commandVar := "rescmd" })]

def msvc : Toolchain where
  name := "msvc"
  tools := msvcTools
  requiredTools := ["cc", "cxx", "lib", "link"]
  handlers := msvcHandlers
  auxiliary := [⟨".def", "/DEF:$file"⟩]
  objectSuffix := ".obj"
  linkInputs := [".obj", ".lib", ".res"]
  naming := {
    staticLibrary := ⟨"", ".lib"⟩
    sharedLibrary := ⟨"", ".dll"⟩
    program := ⟨"", ".exe"⟩ }
  archiver := "lib"
  style := .msvc

end BuildPlan.Toolchain
