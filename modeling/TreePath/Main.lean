import TreePath.Program

/-!
The program in the world: it looks up what the run depends on, and writes what the run comes to.
-/

namespace TreePath

def fileState (name : String) : IO FileState := do
  try
    pure (.file (← IO.FS.readBinFile name))
  catch
    | .inappropriateType _ 21 _ => pure .directory
    | _ => pure .missing

end TreePath

open TreePath in
def main (args : List String) : IO UInt32 := do
  let home ← IO.getEnv "HOME"
  let states ← (Program.fileNames home args).mapM fun name => do pure (name, ← fileState name)
  let input ← if Program.readsInput args then (← IO.getStdin).readBinToEnd else pure .empty
  let outcome := Program.run ⟨home, fun name => (states.lookup name).getD .missing, input⟩ args
  IO.print outcome.output
  IO.eprint outcome.report
  pure outcome.exitCode.toUInt32
