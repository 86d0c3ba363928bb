/-!
# Indented outlines

A nested value written over several lines: one part per line, four more spaces per level, a comma after every part.
-/

namespace MiniC

/-- The lines that show a value, each with its level. -/
abbrev Outline := List (Nat × String)

namespace Outline

/-- A value on one line. -/
def leaf (text : String) : Outline := [(0, text)]

/-- Append to the last line. -/
def close (text : String) : Outline → Outline
  | [] => []
  | [(level, line)] => [(level, line ++ text)]
  | line :: lines => line :: close text lines

/-- The same lines one level further in. -/
def deeper (outline : Outline) : Outline := outline.map fun (level, line) => (level + 1, line)

/-- The parts of a value between its opening and its closing line. -/
def nest (opening closing : String) (parts : List Outline) : Outline :=
  leaf opening ++ parts.flatMap (fun part => (part.close ",").deeper) ++ leaf closing

def list (items : List Outline) : Outline := if items.isEmpty then leaf "[]" else nest "[" "]" items

/-- A name with unnamed parts. -/
def tuple (name : String) (parts : List Outline) : Outline := nest (name ++ "(") ")" parts

def option : Option Outline → Outline
  | none => leaf "None"
  | some part => tuple "Some" [part]

/-- A part with the name of its field on the first line. -/
def field (name : String) : Outline → Outline
  | [] => []
  | (level, line) :: lines => (level, name ++ ": " ++ line) :: lines

/-- A name with named parts. -/
def record (name : String) (fields : List (String × Outline)) : Outline :=
  nest (name ++ " \x7b") "\x7d" (fields.map fun (label, part) => part.field label)

def text (text : String) : Outline := leaf ("\"" ++ text ++ "\"")

/-- One line, indented to its level. -/
def indented (level : Nat) (line : String) : String := "".pushn ' ' (4 * level) ++ line

/-- The outline as one text, without a newline at its end. -/
def render (outline : Outline) : String := "\n".intercalate (outline.map fun (level, line) => indented level line)

end Outline

end MiniC
