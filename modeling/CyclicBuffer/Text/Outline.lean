/-!
# Outlines: labelled trees and their two layouts

The state of a buffer is shown as a tree of named parts. `Outline.inline` writes it on one line,
`Outline.indented` puts every part on a line of its own, four blanks deeper than its parent and
ending in a comma. A record that leaves some of its parts out says so by two dots at its end.
-/

namespace CyclicBuffer.Text

/-- A labelled tree. -/
inductive Outline where
  /-- A single word, written as it is. -/
  | word (text : String)
  /-- A value wrapped by a name, such as `Some(3)`. -/
  | wrapped (name : String) (part : Outline)
  /-- A sequence in brackets. -/
  | list (parts : List Outline)
  /-- Named parts in braces; `more` tells that some parts are left out. -/
  | record (name : String) (parts : List (String × Outline)) (more : Bool)
deriving Inhabited

namespace Outline

def number (n : Nat) : Outline := .word (toString n)

def flag (b : Bool) : Outline := .word (if b then "true" else "false")

def optional (part : Option Outline) : Outline :=
  match part with
  | none => .word "None"
  | some p => .wrapped "Some" p

/-! ## One line -/

mutual

/-- The tree on one line. -/
def inline : Outline → String
  | .word text => text
  | .wrapped name part => name ++ "(" ++ part.inline ++ ")"
  | .list parts => "[" ++ ", ".intercalate (inlineAll parts) ++ "]"
  | .record name parts more =>
    name ++ " \x7b " ++ ", ".intercalate (inlineFields parts ++ if more then [".."] else [])
      ++ " \x7d"

def inlineAll : List Outline → List String
  | [] => []
  | p :: ps => p.inline :: inlineAll ps

def inlineFields : List (String × Outline) → List String
  | [] => []
  | (label, p) :: ps => (label ++ ": " ++ p.inline) :: inlineFields ps

end

/-! ## One part a line -/

/-- The blanks in front of a line at the given depth. -/
def margin : Nat → String
  | 0 => ""
  | depth + 1 => "    " ++ margin depth

mutual

/-- The tree with a part a line, for a tree that starts in a line of the given depth. -/
def indentedAt (depth : Nat) : Outline → String
  | .word text => text
  | .wrapped name part =>
    name ++ "(\n" ++ margin (depth + 1) ++ part.indentedAt (depth + 1) ++ ",\n" ++ margin depth
      ++ ")"
  | .list [] => "[]"
  | .list (p :: ps) =>
    "[\n" ++ String.join (indentedAll (depth + 1) (p :: ps)) ++ margin depth ++ "]"
  | .record name parts more =>
    name ++ " \x7b\n" ++ String.join (indentedFields (depth + 1) parts)
      ++ (if more then margin (depth + 1) ++ "..\n" else "") ++ margin depth ++ "\x7d"

def indentedAll (depth : Nat) : List Outline → List String
  | [] => []
  | p :: ps => (margin depth ++ p.indentedAt depth ++ ",\n") :: indentedAll depth ps

def indentedFields (depth : Nat) : List (String × Outline) → List String
  | [] => []
  | (label, p) :: ps =>
    (margin depth ++ label ++ ": " ++ p.indentedAt depth ++ ",\n") :: indentedFields depth ps

end

/-- The tree with a part a line. -/
def indented (o : Outline) : String := o.indentedAt 0

end Outline

end CyclicBuffer.Text
