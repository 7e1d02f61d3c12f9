/-! # Points and spans of source text

A `Point` names one byte of one source file: the file, the byte offset, and the line and column
that go with the offset, all counted from zero.  Line and column are derived from the offset, so
points are ordered by file and offset alone.  A `Span` runs from its first to its last point, both
included.

Positions are recorded up to `positionLimit`; counting on from a point stops there.  Where one is added
to a position only to compare or to show it, the sum is one of 32 bits (`following`). -/

namespace Shading

/-- The largest offset, line or column that a point records. -/
def positionLimit : Nat := UInt32.size - 1

/-- Counts `k` further from `n`, stopping at `positionLimit`. -/
def countOn (n k : Nat) : Nat := min (n + k) positionLimit

/-- One more than a position, in 32 bits: the last position is followed by zero. -/
def following (n : Nat) : Nat := (n + 1) % UInt32.size

/-- The bytes of a character without the last one. -/
def leading (c : Char) : List UInt8 := (String.utf8EncodeChar c).dropLast

/-- One byte of one source file. -/
structure Point where
  /-- The number of the file. -/
  file : Nat
  /-- The byte offset from the start of the file. -/
  index : Nat
  line : Nat
  /-- The number of bytes since the start of the line. -/
  column : Nat
deriving DecidableEq, Repr, Inhabited

namespace Point

/-- The first byte of a file. -/
def fileStart (file : Nat) : Point := ⟨file, 0, 0, 0⟩

/-- The next byte of the same line. -/
def nextColumn (p : Point) : Point :=
  { p with index := countOn p.index 1, column := countOn p.column 1 }

/-- The first byte of the line after a line break at `p`. -/
def nextLine (p : Point) : Point :=
  { p with index := countOn p.index 1, line := countOn p.line 1, column := 0 }

/-- The point after the byte at `p`. -/
def advance (p : Point) (byte : UInt8) : Point :=
  if byte = 0x0a then p.nextLine else p.nextColumn

/-- The point after bytes that stand at `p`. -/
def advanced (p : Point) (bytes : List UInt8) : Point := bytes.foldl advance p

/-- The point after the character at `p`. -/
def after (p : Point) (c : Char) : Point := p.advanced (String.utf8EncodeChar c)

/-- The last byte of the character at `p`. -/
def lastByte (p : Point) (c : Char) : Point := p.advanced (leading c)

/-! ### Order -/

instance : LE Point where
  le p q := p.file < q.file ∨ p.file = q.file ∧ p.index ≤ q.index

instance : LT Point where
  lt p q := p.file < q.file ∨ p.file = q.file ∧ p.index < q.index

instance (p q : Point) : Decidable (p ≤ q) :=
  inferInstanceAs (Decidable (p.file < q.file ∨ p.file = q.file ∧ p.index ≤ q.index))

instance (p q : Point) : Decidable (p < q) :=
  inferInstanceAs (Decidable (p.file < q.file ∨ p.file = q.file ∧ p.index < q.index))

/-- Compares by file and offset; line and column never decide. -/
def order (p q : Point) : Ordering :=
  if p < q then .lt else if q < p then .gt else .eq

/-- The earlier of two points, the first of them on a tie. -/
def earlier (p q : Point) : Point := if p ≤ q then p else q

/-- The later of two points, the second of them on a tie. -/
def later (p q : Point) : Point := if p ≤ q then q else p

end Point

/-- The points from `start` to `last`, both included. -/
structure Span where
  start : Point
  last : Point
deriving DecidableEq, Repr, Inhabited

namespace Span

/-- The span that covers one point. -/
def single (p : Point) : Span := ⟨p, p⟩

/-- The span at the very start of file zero. -/
def origin : Span := single (Point.fileStart 0)

/-- The number of bytes covered, for a span within one file.  For others the difference of the offsets
is one of 32 bits. -/
def length (s : Span) : Nat :=
  countOn ((UInt32.size + s.last.index - s.start.index) % UInt32.size) 1

/-- Both ends lie in one file. -/
def isSingleFile (s : Span) : Bool := s.start.file == s.last.file

/-- Both ends lie on one line of one file. -/
def isSingleLine (s : Span) : Bool := s.isSingleFile && s.start.line == s.last.line

/-- The point lies between the two ends. -/
def contains (s : Span) (p : Point) : Bool := decide (s.start ≤ p ∧ p ≤ s.last)

/-- The smallest span that covers both. -/
def merge (s t : Span) : Span := ⟨s.start.earlier t.start, s.last.later t.last⟩

/-- The covered byte offsets as a half-open range. -/
def range (s : Span) : Nat × Nat := (s.start.index, s.last.index + 1)

/-- The offset of the first byte and the number of bytes. -/
def labelled (s : Span) : Nat × Nat := (s.start.index, s.length)

end Span

end Shading
