/-! Places in a source text: ranges of bytes, and the line and column of a byte offset. -/

namespace ScriptEngine

/-- A range of bytes of a source text, from `start` up to but not including `stop`. -/
structure Span where
  start : Nat
  stop : Nat
  deriving Repr, DecidableEq, Inhabited

namespace Span

def length (s : Span) : Nat := s.stop - s.start

def cover (a b : Span) : Span := ⟨min a.start b.start, max a.stop b.stop⟩

end Span

/-- The number of bytes that a list of characters takes in UTF-8. -/
def byteLength : List Char → Nat
  | [] => 0
  | c :: cs => c.utf8Size + byteLength cs

theorem byteLength_append (xs ys : List Char) : byteLength (xs ++ ys) = byteLength xs + byteLength ys := by
  induction xs with
  | nil => simp [byteLength]
  | cons c cs ih => simp [byteLength, ih, Nat.add_assoc]

/-- A line and a column, both counted from one; columns count characters. -/
structure Position where
  line : Nat
  column : Nat
  deriving Repr, DecidableEq, Inhabited

namespace Position

def first : Position := ⟨1, 1⟩

/-- The position just after a character that stands at `p`. -/
def next (p : Position) (c : Char) : Position :=
  if c = '\n' then ⟨p.line + 1, 1⟩ else ⟨p.line, p.column + 1⟩

/-- The position `offset` bytes into a text that begins at `p`. An offset past the end gives the
    end of the text; one inside a character has no column of its own and gives column one. -/
def advance (p : Position) : List Char → Nat → Position
  | [], _ => p
  | c :: cs, offset =>
    if offset = 0 then p
    else if c.utf8Size ≤ offset then (p.next c).advance cs (offset - c.utf8Size)
    else ⟨p.line, 1⟩

def ofOffset (source : List Char) (offset : Nat) : Position := first.advance source offset

end Position
end ScriptEngine
