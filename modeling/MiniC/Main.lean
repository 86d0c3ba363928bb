import MiniC.CommandLine

/-!
# The program

The command line on the real file system.
-/

namespace MiniC

/-- The cause behind a failed access to a file. -/
def FileFault.ofError (error : IO.Error) : FileFault :=
  match error with
  | .noFileOrDirectory .. => .notFound
  | .inappropriateType _ 21 _ => .isFolder
  | .inappropriateType .. => .notFolder
  | .invalidArgument _ 36 _ => .tooLong
  | error => .other (toString error)

/-- The files of the file system. -/
def systemFiles : Files IO where
  read path := do
    match ← (IO.FS.readBinFile path).toBaseIO with
    | .ok bytes => return .ok bytes
    | .error error => return .error (.ofError error)
  write path bytes := do
    match ← (IO.FS.writeBinFile path bytes).toBaseIO with
    | .ok _ => return .ok ()
    | .error error => return .error (.ofError error)

end MiniC

def main (args : List String) : IO UInt32 := do
  let outcome ← MiniC.CommandLine.run MiniC.systemFiles args
  IO.print outcome.stdout
  IO.eprint outcome.stderr
  return outcome.exitCode.toUInt32
