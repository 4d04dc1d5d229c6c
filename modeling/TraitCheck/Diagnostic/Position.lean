/-!
Lines and columns of a text. A line ends after one of the mandatory line breaks
of Unicode, and a carriage return with a line feed after it is one break. A
break that ends the text starts no new line.
-/

namespace TraitCheck

/-- Line feed, vertical tab, form feed, carriage return, next line, line
separator and paragraph separator. -/
def isLineBreak (c : Char) : Bool :=
  c = '\n' || c = '\x0b' || c = '\x0c' || c = '\r' || c = '\u0085' ||
    c = '\u2028' || c = '\u2029'

/-- Whether a new line starts between a character and the rest of the text. -/
def startsLine (c : Char) (rest : List Char) : Bool :=
  match rest with
  | [] => false
  | next :: _ => isLineBreak c && !(c = '\r' && next = '\n')

/-- A place in a text. Lines and columns count from 1. -/
structure Position where
  line : Nat
  column : Nat

namespace Position

/-- The place after `offset` characters of a text that begins at `p`. -/
def after (p : Position) : Nat → List Char → Position
  | 0, _ => p
  | _ + 1, [] => p
  | offset + 1, c :: rest =>
    if startsLine c rest then
      after ⟨p.line + 1, 1⟩ offset rest
    else
      after ⟨p.line, p.column + 1⟩ offset rest

def ofOffset (offset : Nat) (text : List Char) : Position := after ⟨1, 1⟩ offset text

end Position

end TraitCheck
