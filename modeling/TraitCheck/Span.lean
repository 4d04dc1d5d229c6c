/-!
Places in a source text. Offsets are 32-bit words; a larger offset keeps its
low 32 bits.
-/

namespace TraitCheck

/-- The offsets from `start` up to, and not including, `stop`. -/
structure Span where
  start : UInt32
  stop : UInt32
deriving DecidableEq, Inhabited

namespace Span

def ofOffsets (start stop : Nat) : Span := ⟨start.toUInt32, stop.toUInt32⟩

/-- The place of what no source text holds. -/
def dummy : Span := ⟨0, 0⟩

def isDummy (span : Span) : Bool := span = dummy

/-- The smallest span that covers both. -/
def cover (a b : Span) : Span := ⟨min a.start b.start, max a.stop b.stop⟩

def text (span : Span) : String := s!"{span.start.toNat}..{span.stop.toNat}"

/-- An offset as it is written on its own. -/
def offsetText (offset : UInt32) : String := s!"BytePos({offset.toNat})"

end Span

/-- A name and the place where it is written. -/
structure Name where
  text : String
  span : Span := Span.dummy
deriving DecidableEq, Inhabited

end TraitCheck
