import MiniC.Files

/-!
# A file tree held in memory

Files and folders by their path from the root, and the folder that relative paths start from. Paths are followed one
component at a time, and every component but the last has to be a folder. The folder above the root is the root itself.
-/

namespace MiniC

inductive Entry where
  | file (bytes : ByteArray)
  | folder
  /-- The device that reads as an empty file and forgets what is written to it. -/
  | null

structure FileTree where
  entries : List (List String × Entry)
  /-- The folder that a path with no slash in front starts from. -/
  home : List String

namespace FileTree

/-- The bytes of the longest name of a file or folder. -/
def maxName : Nat := 255

/-- The bytes of the longest path. -/
def maxPath : Nat := 4095

/-- What stands at a place; a place that leads to an entry goes through folders. -/
def entry? (tree : FileTree) (place : List String) : Option Entry :=
  if place.isEmpty then some .folder
  else
    match tree.entries.lookup place with
    | some entry => some entry
    | none => if tree.entries.any (fun (key, _) => place.isPrefixOf key) then some .folder else none

def put (tree : FileTree) (place : List String) (entry : Entry) : FileTree :=
  { tree with entries := (place, entry) :: tree.entries.filter (·.1 != place) }

/-- The components of a path that is written with slashes. -/
def components (path : String) : List String := path.splitOn "/"

/-- The place that one component names in the folder `here`. -/
def step (here : List String) (name : String) : List String :=
  if name = "" ∨ name = "." then here else if name = ".." then here.dropLast else here ++ [name]

/-- The place that a path starts from. -/
def start (tree : FileTree) (path : String) : List String :=
  if path.startsWith "/" then [] else tree.home

/-- Follow components from `here`. -/
def walk (tree : FileTree) (here : List String) : List String → Except FileFault (List String)
  | [] => .ok here
  | name :: names =>
    match tree.entry? here with
    | none => .error .notFound
    | some .folder => if name.utf8ByteSize ≤ maxName then walk tree (step here name) names else .error .tooLong
    | some _ => .error .notFolder

/-- The faults that a path has by itself, whatever the tree holds. -/
def checkPath (path : String) : Except FileFault Unit :=
  if path.toList.contains '\x00' then .error .nulByte
  else if path.isEmpty then .error .notFound
  else if path.utf8ByteSize ≤ maxPath then .ok ()
  else .error .tooLong

/-- The place that a path leads to. -/
def resolve (tree : FileTree) (path : String) : Except FileFault (List String) := do
  checkPath path
  tree.walk (tree.start path) (components path)

def read (tree : FileTree) (path : String) : Except FileFault ByteArray := do
  match tree.entry? (← tree.resolve path) with
  | none => .error .notFound
  | some .folder => .error .isFolder
  | some (.file bytes) => .ok bytes
  | some .null => .ok .empty

/-- The place that a file is written to: its folder has to be there, and a path with a slash at its end names a
folder. -/
def writeTarget (tree : FileTree) (path : String) : Except FileFault (List String) := do
  checkPath path
  let names := (components path).reverse.dropWhile (· = "")
  let here ← tree.walk (tree.start path) (names.drop 1).reverse
  match tree.entry? here with
  | none => throw .notFound
  | some .folder =>
    match names.head? with
    | none | some "." | some ".." => throw .isFolder
    | some name =>
      if path.endsWith "/" then throw .isFolder
      else if name.utf8ByteSize ≤ maxName then return step here name
      else throw .tooLong
  | some _ => throw .notFolder

def write (tree : FileTree) (path : String) (bytes : ByteArray) : Except FileFault FileTree := do
  let target ← tree.writeTarget path
  match tree.entry? target with
  | some .folder => .error .isFolder
  | some .null => .ok tree
  | _ => .ok (tree.put target (.file bytes))

/-- The tree as the files of a program that works on it. -/
def files : Files (StateM FileTree) where
  read path := return (← get).read path
  write path bytes := do
    match (← get).write path bytes with
    | .ok tree =>
      set tree
      return .ok ()
    | .error fault => return .error fault

/-- A tree in which the home folder is empty. -/
def fresh : FileTree where
  entries := [(["tmp", "home"], .folder), (["dev", "null"], .null)]
  home := ["tmp", "home"]

/-- Follow components from `here` and make the folders that are missing. -/
def makeFolders (tree : FileTree) (here : List String) (names : List String) : FileTree × List String :=
  names.foldl (fun (tree, here) name =>
    let next := step here name
    (if (tree.entry? next).isNone then tree.put next .folder else tree, next)) (tree, here)

/-- Lay an entry at a path, in place of what is there. -/
def lay (tree : FileTree) (path : String) (entry : Entry) : FileTree :=
  let (tree, place) := tree.makeFolders (tree.start path) (components path)
  tree.put place entry

/-- A fresh tree with the given files and folders in it. -/
def ofEntries (entries : List (String × Entry)) : FileTree :=
  entries.foldl (fun tree (path, entry) => tree.lay path entry) fresh

/-- The text of a file, if it is there and is text. -/
def text? (tree : FileTree) (path : String) : Option String :=
  match tree.read path with
  | .ok bytes => String.fromUTF8? bytes
  | .error _ => none

end FileTree

end MiniC
