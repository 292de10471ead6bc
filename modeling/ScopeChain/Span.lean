/-! Stretches of source text and the lines they fall on, counted in characters. Positions are
counted without a bound; what is stored of one has 32 bits. -/
namespace ScopeChain

/-- The characters from `start` up to, not including, `stop`. -/
structure Span where
  start : Nat
  stop : Nat
deriving DecidableEq, Repr, Inhabited

/-- A position as it is stored. -/
abbrev TextPos := UInt32

/-- A stretch of text as it is stored: where it starts, and how many characters it has. -/
structure TextSpan where
  start : TextPos
  length : TextPos
deriving DecidableEq, Repr

namespace TextSpan

/-- The stretch between two bounds. The subtraction underflows if the second lies before the
first. -/
def ofBounds (start stop : TextPos) : TextSpan := ⟨start, stop - start⟩

def stop (s : TextSpan) : TextPos := s.start + s.length

/-- A stretch by its bounds, as trees are written. -/
def bounds (s : TextSpan) : String := s!"{s.start}..{s.stop}"

instance : ToString TextSpan where
  toString s := s!"[{s.start}, {s.stop})"

end TextSpan

/-- The span as it is stored, from its two bounds cut to 32 bits. -/
def Span.stored (s : Span) : TextSpan := .ofBounds (.ofNat s.start) (.ofNat s.stop)

/-- A line and a column, both from zero. -/
structure LineColumn where
  line : UInt32
  column : TextPos
deriving DecidableEq, Repr

/-- The positions at which the lines of a text start, in the order of the lines. -/
structure LineMap where
  starts : Array TextPos
deriving DecidableEq, Repr

namespace LineMap

/-- The positions just after the line feeds of `cs`, whose first character stands at `pos`. -/
def startsAfterFeeds (pos : Nat) : List Char → List TextPos
  | [] => []
  | c :: cs =>
    if c = '\n' then .ofNat (pos + 1) :: startsAfterFeeds (pos + 1) cs
    else startsAfterFeeds (pos + 1) cs

def ofText (text : String) : LineMap := ⟨(0 :: startsAfterFeeds 0 text.toList).toArray⟩

/-- What a search for a position among the starts of lines comes to. -/
inductive Search where
  /-- The position starts this line. -/
  | hit (line : Nat)
  /-- It starts none, and so many lines start before it. -/
  | miss (lines : Nat)
deriving DecidableEq, Repr

/-- Looks for a position among the starts of the lines from `lo` on and below `hi`, half of which are
left after each step. -/
def searchFrom (m : LineMap) (pos : TextPos) (lo hi : Nat) (h : hi ≤ m.starts.size) : Search :=
  if hlt : lo < hi then
    let mid := lo + (hi - lo) / 2
    let start := m.starts[mid]
    if start = pos then .hit mid
    else if start < pos then m.searchFrom pos (mid + 1) hi h
    else m.searchFrom pos lo mid (by omega)
  else .miss lo
termination_by hi - lo

def search (m : LineMap) (pos : TextPos) : Search :=
  m.searchFrom pos 0 m.starts.size (Nat.le_refl _)

/-- The line that a position falls on, the last that does not start behind it. There is none if all
lines start behind it. -/
def lineOf? (m : LineMap) (pos : TextPos) : Option UInt32 :=
  match m.search pos with
  | .hit line => some (.ofNat line)
  | .miss 0 => none
  | .miss (line + 1) => some (.ofNat line)

/-- The line that a position falls on, and how far behind its start. There is none if the line is
not in the map or starts behind the position. -/
def lineColumnOf? (m : LineMap) (pos : TextPos) : Option LineColumn := do
  let line ← m.lineOf? pos
  let start ← m.starts[line.toNat]?
  if start ≤ pos then some ⟨line, pos - start⟩ else none

/-- The line of a position in a text, where there is always one. -/
def lineOf (m : LineMap) (pos : TextPos) : UInt32 := (m.lineOf? pos).getD 0

def lineColumnOf (m : LineMap) (pos : TextPos) : LineColumn := (m.lineColumnOf? pos).getD ⟨0, pos⟩

/-- A position as written for the author of a script, who counts lines and columns from one. -/
def place (m : LineMap) (pos : TextPos) : String :=
  let p := m.lineColumnOf pos
  s!"{p.line + 1},{p.column + 1}"

end LineMap

end ScopeChain
