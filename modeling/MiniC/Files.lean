import MiniC.Diagnostic

/-!
# Reading sources and writing assembly

Files are reached through `Files m`, the two effects that the command line needs, so that the same program runs on a
file system and on a file tree held in memory.
-/

namespace MiniC

/-- Why a file cannot be read or written. -/
inductive FileFault where
  | notFound
  | notFolder
  | isFolder
  /-- The bytes of the file are no UTF-8 text. -/
  | notText
  /-- The path, or a name in it, has more bytes than the file system takes. -/
  | tooLong
  /-- The path has a zero byte in it. -/
  | nulByte
  | other (message : String)
  deriving DecidableEq

def FileFault.message : FileFault → String
  | notFound => "No such file or directory (os error 2)"
  | notFolder => "Not a directory (os error 20)"
  | isFolder => "Is a directory (os error 21)"
  | notText => "stream did not contain valid UTF-8"
  | tooLong => "File name too long (os error 36)"
  | nulByte => "file name contained an unexpected NUL byte"
  | other message => message

/-- Access to files in the monad `m`. -/
structure Files (m : Type → Type) where
  read : String → m (Except FileFault ByteArray)
  /-- Replace the contents of a file, or create it. -/
  write : String → ByteArray → m (Except FileFault Unit)

namespace Files

variable {m : Type → Type} [Monad m]

/-- The text of a source file. -/
def readSource (files : Files m) (path : String) : m (Except Diagnostic String) := do
  match ← files.read path with
  | .error fault => return .error (.file path fault.message)
  | .ok bytes =>
    match String.fromUTF8? bytes with
    | some text => return .ok text
    | none => return .error (.file path FileFault.notText.message)

/-- Write an assembly text to a file. -/
def writeOutput (files : Files m) (path text : String) : m (Except Diagnostic Unit) := do
  match ← files.write path text.toUTF8 with
  | .error fault => return .error (.file path fault.message)
  | .ok _ => return .ok ()

end Files

end MiniC
