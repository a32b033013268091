import Blueprint.CommandLine

/-! The program `bp`: reads the file system and the environment, and leaves the rest to the command
line. -/

namespace Blueprint

/-- What stands at a path of the file system. In directories, only what a search looks at is read. -/
partial def load (path : String) : IO (Except ReadFailure Entry) := do
  let found ← try some <$> IO.FS.realPath path catch _ => pure none
  let some place := found | return .error .missing
  if ← place.isDir then
    let mut entries := #[]
    for e in ← place.readDir do
      let searched := if ← e.path.isDir then !Files.isSkipped e.fileName
        else Files.isModuleFile e.fileName
      if searched then
        if let .ok entry ← load e.path.toString then
          entries := entries.push (e.fileName, entry)
    return .ok (.directory entries.toList)
  else
    return .ok (.file (← IO.FS.readBinFile place))

end Blueprint

open Blueprint CommandLine in
/-- Runs the program on the arguments of the process. -/
def main (args : List String) : IO UInt32 := do
  let env : Environment := ⟨← IO.getEnv "TERM", ← IO.getEnv "NO_COLOR"⟩
  let paths := match CommandLine.parse args with
    | .ok i => i.paths
    | .error _ => []
  let found ← paths.mapM fun path => do return (path, ← load path)
  let locate := fun path => ((found.find? (·.1 == path)).map (·.2)).getD (.error .missing)
  let exit := run env locate args
  IO.print exit.stdout
  IO.eprint exit.stderr
  return exit.code.toUInt32
