/-!
# AddressCode.Span — where a piece of text lies

A span names the first byte of a piece and the byte just behind it.  Nothing is asked of the two
ends: a span may be empty, or turned around.
-/

namespace AddressCode

/-- The bytes from `start` up to `stop`, the latter excluded. -/
structure Span where
  start : Nat
  stop : Nat
deriving Repr, DecidableEq, Inhabited

namespace Span

/-- Does `t` begin exactly where `s` ends? -/
def touches (s t : Span) : Bool := s.stop == t.start

/-- The smallest span that covers both. -/
def extend (s t : Span) : Span := ⟨min s.start t.start, max s.stop t.stop⟩

/-- The text of a span. -/
def text (s : Span) : String := "(" ++ toString s.start ++ "…" ++ toString s.stop ++ ")"

end Span

end AddressCode
