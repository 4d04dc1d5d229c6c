import TraitCheck.Diagnostic.Code
import TraitCheck.Span

/-!
A diagnostic is a message at a place, with labels, notes and a help text.
Builders add to it one thing at a time.
-/

namespace TraitCheck

structure Label where
  span : Span
  text : String

structure Diagnostic where
  code : Option Code := none
  message : String
  span : Span
  labels : List Label := []
  notes : List String := []
  help : Option String := none

namespace Diagnostic

def error (span : Span) (message : String) : Diagnostic := { message, span }

/-- A code brings its suggestion as help, unless there is help already. -/
def withCode (d : Diagnostic) (code : Code) : Diagnostic :=
  { d with code := some code, help := d.help.or code.suggestion }

def withLabel (d : Diagnostic) (span : Span) (text : String) : Diagnostic :=
  { d with labels := d.labels ++ [⟨span, text⟩] }

def withNote (d : Diagnostic) (note : String) : Diagnostic :=
  { d with notes := d.notes ++ [note] }

def withHelp (d : Diagnostic) (help : String) : Diagnostic := { d with help := some help }

end Diagnostic

end TraitCheck
