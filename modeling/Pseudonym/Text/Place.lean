/-
# Places in a text

A place is counted in bytes of the UTF-8 text and in lines. Bytes start at 0,
lines at 1, and only a line feed ends a line. A span is the stretch of text
between two places, with the line it starts on. A cursor is a place together
with the characters that follow it.
-/

namespace Pseudonym

/-- A place in a text: the number of bytes before it, and its line. -/
structure Place where
  offset : Nat
  line : Nat
  deriving DecidableEq, Repr

namespace Place

/-- The place where every text starts. -/
def origin : Place := ⟨0, 1⟩

/-- The place after the character `c`. -/
def after (p : Place) (c : Char) : Place :=
  ⟨p.offset + c.utf8Size, if c = '\n' then p.line + 1 else p.line⟩

end Place

/-- The bytes from `start` up to `stop`, and the line of `start`. -/
structure Span where
  start : Nat
  stop : Nat
  line : Nat
  deriving DecidableEq, Repr

namespace Span

/-- The stretch of text between two places. -/
def between (start stop : Place) : Span := ⟨start.offset, stop.offset, start.line⟩

/-- The number of bytes of a span. -/
def len (s : Span) : Nat := s.stop - s.start

/-- A span is empty when it ends where it starts. -/
def isEmpty (s : Span) : Bool := s.start == s.stop

end Span

/-- A place in a text, and the characters from there to the end. -/
structure Cursor where
  place : Place
  rest : List Char
  deriving DecidableEq, Repr

namespace Cursor

/-- The cursor at the start of a text. -/
def ofText (text : List Char) : Cursor := ⟨.origin, text⟩

/-- Steps over one character, if it belongs to a class. -/
def one? (holds : Char → Bool) : Cursor → Option Cursor
  | ⟨_, []⟩ => none
  | ⟨p, x :: xs⟩ => if holds x then some ⟨p.after x, xs⟩ else none

/-- Steps over a word, if the text goes on with it. -/
def word? : List Char → Cursor → Option Cursor
  | [], c => some c
  | _ :: _, ⟨_, []⟩ => none
  | w :: ws, ⟨p, x :: xs⟩ => if w = x then word? ws ⟨p.after x, xs⟩ else none

/-- Steps over all characters up to the first that is not in a class. -/
def skipWhile (holds : Char → Bool) : Cursor → Cursor
  | ⟨p, rest⟩ => go p rest
where
  /-- The walk of `skipWhile` along the characters. -/
  go (p : Place) : List Char → Cursor
    | [] => ⟨p, []⟩
    | x :: xs => if holds x then go (p.after x) xs else ⟨p, x :: xs⟩

/-- The characters that the first `n` bytes of a text spell. -/
def takeBytes : Nat → List Char → List Char
  | 0, _ => []
  | _ + 1, [] => []
  | n + 1, x :: xs => x :: takeBytes (n + 1 - x.utf8Size) xs

/-- The characters from a cursor up to a later cursor of the same text. -/
def textUpTo (start stop : Cursor) : List Char :=
  takeBytes (stop.place.offset - start.place.offset) start.rest

end Cursor

end Pseudonym
