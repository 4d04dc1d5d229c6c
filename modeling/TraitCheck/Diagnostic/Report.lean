import TraitCheck.Diagnostic.Basic
import TraitCheck.Diagnostic.Position

/-!
The summary of a diagnostic against a source text: a header line, the line and
column it points at, its help and its last note. Offsets count characters.
-/

namespace TraitCheck

structure Report where
  header : String
  location : Option String
  help : Option String
  note : Option String

namespace Report

/-- Whether a label lies in a text of `length` characters. -/
def shows (length : Nat) (span : Span) : Bool :=
  0 < length && span.start.toNat ≤ length &&
    (span.stop ≤ span.start || span.stop.toNat - 1 ≤ length)

def headerOf (d : Diagnostic) : String :=
  match d.code with
  | none => s!"Error: {d.message}"
  | some code => s!"[{code.text}] Error: {d.message}"

def locationOf (file : String) (source : List Char) (span : Span) : String :=
  let offset := span.start.toNat
  if offset ≤ source.length then
    let p := Position.ofOffset offset source
    s!"{file}:{p.line}:{p.column}"
  else
    s!"{file}:?:?"

/-- The labelled places: those of the labels or, without any, the diagnostic's. -/
def places (d : Diagnostic) : List Span :=
  if d.labels.isEmpty then [d.span] else d.labels.map (·.span)

/-- Below the header nothing is reported if no labelled place lies in the text. -/
def ofDiagnostic (source : String) (file : String) (d : Diagnostic) : Report :=
  let chars := source.toList
  if (places d).any (shows chars.length) then
    { header := headerOf d
      location := some (locationOf file chars d.span)
      help := d.help
      note := d.notes.getLast? }
  else
    { header := headerOf d, location := none, help := none, note := none }

end Report

end TraitCheck
