import MiniC.Assembly.Instr

/-!
# Listings

An assembly text as a list of lines: instructions, labels and directives. `Listing.render` is the only place where the
text is made.
-/

namespace MiniC

inductive Directive where
  | text
  | data
  | rodata
  /-- The mark of code that needs no executable stack. -/
  | stackNote
  | globl (name : String)
  /-- Marks a name as that of a function. -/
  | function (name : String)
  | align (bytes : Nat)
  /-- A value of zero. -/
  | zero (width : Width)
  | byte (value : UInt8)
  deriving DecidableEq

inductive Line where
  | instr (i : Instr)
  | directive (d : Directive)
  /-- A numbered label. -/
  | label (n : Nat)
  /-- The label of a global variable or a function. -/
  | name (n : String)
  deriving DecidableEq

abbrev Listing := Array Line

namespace Directive

def write : Directive → String
  | text => ".text"
  | data => ".data"
  | rodata => ".section\t.rodata"
  | stackNote => ".section\t.note.GNU-stack,\"\",@progbits"
  | globl name => ".globl\t" ++ name
  | function name => ".type\t" ++ name ++ ", @function"
  | align bytes => s!".align\t{bytes}"
  | zero width => width.directive ++ "\t0"
  | byte value => ".byte\t" ++ toString value.toNat

end Directive

/-- The line as text; labels stand at the margin. -/
def Line.text : Line → String
  | instr i => "\t" ++ i.text
  | directive d => "\t" ++ d.write
  | label n => s!".L{n}:"
  | name n => n ++ ":"

/-- The assembly text, with a newline after every line. -/
def Listing.render (listing : Listing) : String := String.join (listing.toList.map (·.text ++ "\n"))

end MiniC
