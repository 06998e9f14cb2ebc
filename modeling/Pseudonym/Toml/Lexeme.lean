/-
# The words of TOML

Blanks, comments, keys, strings, numbers and dates, each as a function from
the characters that are left to what was read and the characters behind it.
-/

namespace Pseudonym
namespace Toml
namespace Lexeme

/-! ### Blanks, line ends and comments -/

/-- Spaces and tabs. -/
def isSpace (c : Char) : Bool := c == ' ' || c == '\t'

/-- The characters behind spaces and tabs. -/
def skipSpace (cs : List Char) : List Char := cs.dropWhile isSpace

/-- The characters behind the end of a line. -/
def newline? : List Char → Option (List Char)
  | '\n' :: cs => some cs
  | '\r' :: '\n' :: cs => some cs
  | _ => none

/-- The characters behind the end of a line, or of the text. -/
def lineEnd? : List Char → Option (List Char)
  | [] => some []
  | cs => newline? cs

/-- Every character but control characters other than the tab. -/
def isPlain (c : Char) : Bool := c == '\t' || (0x20 ≤ c.toNat && c.toNat != 0x7F)

/-- The characters behind a comment, if there is one. -/
def skipComment : List Char → List Char
  | '#' :: cs => cs.dropWhile isPlain
  | cs => cs

/-- The characters behind the rest of a line that may only hold a comment. -/
def lineTail? (cs : List Char) : Option (List Char) := lineEnd? (skipComment (skipSpace cs))

/-- The characters behind blanks, line ends and lines that end in a comment. -/
def skipLines : Nat → List Char → List Char
  | 0, cs => cs
  | n + 1, cs =>
    match newline? (skipComment (skipSpace cs)) with
    | some rest => skipLines n rest
    | none => skipSpace cs

/-! ### Strings -/

/-- The value of a hexadecimal digit. -/
def hexValue? (c : Char) : Option Nat :=
  if c.isDigit then some (c.toNat - '0'.toNat)
  else if 'a' ≤ c ∧ c ≤ 'f' then some (c.toNat - 'a'.toNat + 10)
  else if 'A' ≤ c ∧ c ≤ 'F' then some (c.toNat - 'A'.toNat + 10)
  else none

/-- The character whose number is spelt by hexadecimal digits. -/
def charOfHex? (digits : List Char) : Option Char := do
  let values ← digits.mapM hexValue?
  let n := values.foldl (16 * · + ·) 0
  if n.isValidChar then some (Char.ofNat n) else none

/-- The character that a letter stands for behind a backslash. -/
def escape? : Char → Option Char
  | 'b' => some '\x08'
  | 'f' => some '\x0c'
  | 'n' => some '\n'
  | 'r' => some '\r'
  | 't' => some '\t'
  | '\\' => some '\\'
  | '"' => some '"'
  | _ => none

/-- Puts a character in front of a text that was read. -/
def onto (c : Char) (r : Option (List Char × List Char)) : Option (List Char × List Char) :=
  r.map fun (text, rest) => (c :: text, rest)

/-- A string with escapes, behind its opening quote. -/
def basic? : List Char → Option (List Char × List Char)
  | [] => none
  | '"' :: cs => some ([], cs)
  | '\\' :: 'u' :: a :: b :: c :: d :: cs => do onto (← charOfHex? [a, b, c, d]) (basic? cs)
  | '\\' :: 'U' :: a :: b :: c :: d :: e :: f :: g :: h :: cs => do
    onto (← charOfHex? [a, b, c, d, e, f, g, h]) (basic? cs)
  | '\\' :: c :: cs => do onto (← escape? c) (basic? cs)
  | c :: cs => if isPlain c && c != '\\' then onto c (basic? cs) else none

/-- A string without escapes, behind its opening quote. -/
def literal? : List Char → Option (List Char × List Char)
  | [] => none
  | '\'' :: cs => some ([], cs)
  | c :: cs => if isPlain c then onto c (literal? cs) else none

/-- Behind three closing quotes: up to two more belong to the text in front of them. -/
def closing (quote : Char) : List Char → List Char × List Char
  | [] => ([], [])
  | [c] => if c = quote then ([quote], []) else ([], [c])
  | c :: d :: cs =>
    if c = quote then if d = quote then ([quote, quote], cs) else ([quote], d :: cs)
    else ([], c :: d :: cs)

/-- A string with escapes over several lines. A backslash at the end of a line takes away the
line end and all blanks behind it; `trimming` says that this is going on. -/
def longBasic? (trimming : Bool) : List Char → Option (List Char × List Char)
  | [] => none
  | '"' :: '"' :: '"' :: cs => some (closing '"' cs)
  | '\\' :: 'u' :: a :: b :: c :: d :: cs => do
    onto (← charOfHex? [a, b, c, d]) (longBasic? false cs)
  | '\\' :: 'U' :: a :: b :: c :: d :: e :: f :: g :: h :: cs => do
    onto (← charOfHex? [a, b, c, d, e, f, g, h]) (longBasic? false cs)
  | '\\' :: c :: cs =>
    if (newline? (skipSpace (c :: cs))).isSome then longBasic? true (c :: cs)
    else do onto (← escape? c) (longBasic? false cs)
  | '\r' :: '\n' :: cs => if trimming then longBasic? true cs else onto '\n' (longBasic? false cs)
  | c :: cs =>
    if c = '\n' || isSpace c then
      if trimming then longBasic? true cs else onto c (longBasic? false cs)
    else if isPlain c && c != '\\' then onto c (longBasic? false cs)
    else none

/-- A string without escapes over several lines. -/
def longLiteral? : List Char → Option (List Char × List Char)
  | [] => none
  | '\'' :: '\'' :: '\'' :: cs => some (closing '\'' cs)
  | '\r' :: '\n' :: cs => onto '\n' (longLiteral? cs)
  | c :: cs => if c = '\n' || isPlain c then onto c (longLiteral? cs) else none

/-- The characters behind a line end that follows the opening quotes at once. -/
def skipFirstNewline (cs : List Char) : List Char := (newline? cs).getD cs

/-- A string of any kind. -/
def string? : List Char → Option (List Char × List Char)
  | '"' :: '"' :: '"' :: cs => longBasic? false (skipFirstNewline cs)
  | '"' :: cs => basic? cs
  | '\'' :: '\'' :: '\'' :: cs => longLiteral? (skipFirstNewline cs)
  | '\'' :: cs => literal? cs
  | _ => none

/-! ### Keys -/

/-- The characters of a key without quotes. -/
def isBare (c : Char) : Bool := c.isAlphanum || c == '-' || c == '_'

/-- A key without points. -/
def simpleKey? : List Char → Option (List Char × List Char)
  | '"' :: cs => basic? cs
  | '\'' :: cs => literal? cs
  | cs =>
    match cs.takeWhile isBare with
    | [] => none
    | key => some (key, cs.dropWhile isBare)

/-- How many keys a dotted key may not reach, nor tables and arrays inside one another. -/
def depthLimit : Nat := 80

/-- A dotted key, of at most `n` keys, with blanks around each. -/
def keys? : Nat → List Char → Option (List String × List Char)
  | 0, _ => none
  | n + 1, cs => do
    let (key, rest) ← simpleKey? (skipSpace cs)
    match skipSpace rest with
    | '.' :: rest => do
      let (keys, rest) ← keys? n rest
      some (.ofList key :: keys, rest)
    | rest => some ([.ofList key], rest)

/-- A key. -/
def key? (cs : List Char) : Option (List String × List Char) := keys? (depthLimit - 1) cs

/-! ### Numbers -/

/-- Digits of a class, with single underscores between them. -/
def digits (holds : Char → Bool) : List Char → List Char × List Char
  | [] => ([], [])
  | '_' :: c :: cs =>
    if holds c then
      let (ds, rest) := digits holds cs
      (c :: ds, rest)
    else ([], '_' :: c :: cs)
  | c :: cs =>
    if holds c then
      let (ds, rest) := digits holds cs
      (c :: ds, rest)
    else ([], c :: cs)

/-- Digits of a class, the first of which is not an underscore. -/
def digits? (holds : Char → Bool) (cs : List Char) : Option (List Char × List Char) :=
  match cs with
  | c :: _ => if holds c then some (digits holds cs) else none
  | [] => none

/-- A sign, or none: whether it is a minus. -/
def sign : List Char → Bool × List Char
  | '-' :: cs => (true, cs)
  | '+' :: cs => (false, cs)
  | cs => (false, cs)

/-- Decimal digits without needless zeros in front. -/
def unsigned? : List Char → Option (List Char × List Char)
  | '0' :: cs => some (['0'], cs)
  | cs => digits? Char.isDigit cs

/-- The number that digits of a base spell. -/
def valueOf (base : Nat) (ds : List Char) : Nat :=
  ds.foldl (fun n d => base * n + (hexValue? d).getD 0) 0

/-- A whole number of 64 bits in decimal digits. -/
def decimal? (cs : List Char) : Option (List Char) := do
  let (negative, cs) := sign cs
  let (ds, rest) ← unsigned? cs
  let n := valueOf 10 ds
  if n < Nat.pow 2 63 ∨ (negative ∧ n = Nat.pow 2 63) then some rest else none

/-- A whole number of 64 bits in another base. -/
def based? (base : Nat) (cs : List Char) : Option (List Char) := do
  let (ds, rest) ← digits? (fun c => (hexValue? c).any (· < base)) cs
  if valueOf base ds < Nat.pow 2 63 then some rest else none

/-- A whole number. -/
def integer? : List Char → Option (List Char)
  | '0' :: 'x' :: cs => based? 16 cs
  | '0' :: 'o' :: cs => based? 8 cs
  | '0' :: 'b' :: cs => based? 2 cs
  | cs => decimal? cs

/-- The fraction of a number. -/
def fraction? : List Char → Option (List Char × List Char)
  | '.' :: cs => digits? Char.isDigit cs
  | _ => none

/-- The exponent of a number. -/
def exponent? : List Char → Option (Int × List Char)
  | c :: cs =>
    if c = 'e' || c = 'E' then do
      let (negative, cs) := sign cs
      let (ds, rest) ← digits? Char.isDigit cs
      some (if negative then -(valueOf 10 ds : Int) else (valueOf 10 ds : Int), rest)
    else none
  | [] => none

/-- Whether `m · 10 ^ e` is so large that it rounds to infinity in binary64. -/
def overflows (m : Nat) (e : Int) : Bool :=
  let bound := Nat.pow 2 1024 - Nat.pow 2 970
  if m = 0 then false
  else if 400 < e then true
  else if 0 ≤ e then bound ≤ m * Nat.pow 10 e.toNat
  else
    -- A power of ten with more digits than the numeral has leaves less than one.
    if (Nat.toDigits 10 m).length < (-e).toNat then false else bound * Nat.pow 10 (-e).toNat ≤ m

/-- A number with a fraction or an exponent. Only below zero it may be out of range. -/
def float? (cs : List Char) : Option (List Char) := do
  let (negative, cs) := sign cs
  let (whole, cs) ← unsigned? cs
  let (frac, exp, rest) ←
    match exponent? cs with
    | some (exp, rest) => some ([], exp, rest)
    | none => do
      let (frac, rest) ← fraction? cs
      match exponent? rest with
      | some (exp, rest) => some (frac, exp, rest)
      | none => some (frac, 0, rest)
  if !negative && overflows (valueOf 10 (whole ++ frac)) (exp - frac.length) then none
  else some rest

/-- The characters behind a word. -/
def word? : List Char → List Char → Option (List Char)
  | [], cs => some cs
  | _ :: _, [] => none
  | w :: ws, c :: cs => if w = c then word? ws cs else none

/-- Infinity and the number that is none, with a sign or without. -/
def special? (cs : List Char) : Option (List Char) :=
  let cs := (sign cs).2
  (word? "inf".toList cs).or (word? "nan".toList cs)

/-- A number. -/
def number? (cs : List Char) : Option (List Char) :=
  ((float? cs).or (special? cs)).or (integer? cs)

/-! ### Dates and times -/

/-- A number of exactly so many decimal digits, in a range. -/
def field? (width low high : Nat) (cs : List Char) : Option (Nat × List Char) :=
  let ds := cs.take width
  let n := valueOf 10 ds
  if ds.length = width && ds.all (·.isDigit) && low ≤ n && n ≤ high then some (n, cs.drop width)
  else none

/-- The number of days of a month. -/
def daysOf (year month : Nat) : Nat :=
  if month = 2 then
    if year % 4 = 0 && (year % 100 != 0 || year % 400 = 0) then 29 else 28
  else if [4, 6, 9, 11].contains month then 30
  else 31

/-- A date. -/
def date? (cs : List Char) : Option (List Char) := do
  let (year, cs) ← field? 4 0 9999 cs
  let (month, cs) ← field? 2 1 12 (← word? ['-'] cs)
  let (_, cs) ← field? 2 1 (daysOf year month) (← word? ['-'] cs)
  some cs

/-- A fraction of a second, or none. -/
def skipSecondFraction (cs : List Char) : List Char :=
  match cs with
  | '.' :: c :: rest => if c.isDigit then rest.dropWhile (·.isDigit) else cs
  | _ => cs

/-- A time of day. -/
def time? (cs : List Char) : Option (List Char) := do
  let (_, cs) ← field? 2 0 23 cs
  let (_, cs) ← field? 2 0 59 (← word? [':'] cs)
  let (_, cs) ← field? 2 0 60 (← word? [':'] cs)
  some (skipSecondFraction cs)

/-- The distance of a time zone, or none. -/
def skipOffset (cs : List Char) : List Char :=
  match cs with
  | c :: rest =>
    if c = 'Z' || c = 'z' then rest
    else if c = '+' || c = '-' then
      let distance := do
        let (_, cs) ← field? 2 0 23 rest
        let (_, cs) ← field? 2 0 59 (← word? [':'] cs)
        some cs
      distance.getD cs
    else cs
  | [] => []

/-- A time behind a date, or none. -/
def skipTime (cs : List Char) : List Char :=
  match cs with
  | c :: rest =>
    if c = 'T' || c = 't' || c = ' ' then ((time? rest).map skipOffset).getD cs else cs
  | [] => []

/-- A date, a time of day, or both. -/
def moment? (cs : List Char) : Option (List Char) := ((date? cs).map skipTime).or (time? cs)

end Lexeme
end Toml
end Pseudonym
