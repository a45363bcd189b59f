import Formula.Json.Numeral
/-!
# Tokens of JSON text

JSON text is cut into punctuation, strings, and words between them; a word is a name or a number.
Blanks separate and mean nothing. Strings stand for their characters: a control character must be
escaped, and a surrogate pair of escapes is one character.
-/
namespace Formula.Json

inductive Token where
  | arrayOpen
  | arrayClose
  | objectOpen
  | objectClose
  | comma
  | colon
  | string (s : String)
  /-- A name or a number. -/
  | scalar (j : Json)

def isSpace (c : Char) : Bool := c = ' ' || c = '\n' || c = '\r' || c = '\t'

/-- The token that a character is by itself. -/
def punctuation? : Char → Option Token
  | '[' => some .arrayOpen
  | ']' => some .arrayClose
  | '{' => some .objectOpen
  | '}' => some .objectClose
  | ',' => some .comma
  | ':' => some .colon
  | _ => none

/-- Whether a word goes on with this character. -/
def isWordChar (c : Char) : Bool := !isSpace c && c ≠ '"' && (punctuation? c).isNone

def word? (cs : List Char) : Option Token :=
  if cs = "null".toList then some (.scalar .null)
  else if cs = "true".toList then some (.scalar (.boolean true))
  else if cs = "false".toList then some (.scalar (.boolean false))
  else (number? cs).map .scalar

/-! ## Strings -/

def hexDigit? (c : Char) : Option Nat :=
  if '0' ≤ c && c ≤ '9' then some (c.toNat - '0'.toNat)
  else if 'a' ≤ c && c ≤ 'f' then some (c.toNat - 'a'.toNat + 10)
  else if 'A' ≤ c && c ≤ 'F' then some (c.toNat - 'A'.toNat + 10)
  else none

def hexCode? (a b c d : Char) : Option Nat := do
  let a ← hexDigit? a
  let b ← hexDigit? b
  let c ← hexDigit? c
  let d ← hexDigit? d
  return ((a * 16 + b) * 16 + c) * 16 + d

/-- The character that a backslash and this letter stand for. -/
def shortEscape? : Char → Option Char
  | '"' => some '"'
  | '\\' => some '\\'
  | '/' => some '/'
  | 'b' => some '\x08'
  | 'f' => some '\x0c'
  | 'n' => some '\n'
  | 'r' => some '\r'
  | 't' => some '\t'
  | _ => none

/-- The first halves of surrogate pairs. -/
def isHighSurrogate (n : Nat) : Bool := 0xD800 ≤ n && n < 0xDC00

/-- The second halves of surrogate pairs. -/
def isLowSurrogate (n : Nat) : Bool := 0xDC00 ≤ n && n < 0xE000

def pairedChar (high low : Nat) : Char :=
  Char.ofNat (0x10000 + (high - 0xD800) * 0x400 + (low - 0xDC00))

/-- The characters of a string up to its closing quote, and what follows the quote. -/
def stringBody : List Char → Option (List Char × List Char)
  | [] => none
  | '"' :: rest => some ([], rest)
  | '\\' :: 'u' :: a :: b :: c :: d :: rest =>
    match hexCode? a b c d with
    | none => none
    | some n =>
      if isLowSurrogate n then none
      else if isHighSurrogate n then
        match rest with
        | '\\' :: 'u' :: a :: b :: c :: d :: rest =>
          match hexCode? a b c d with
          | none => none
          | some m =>
            if isLowSurrogate m then
              (stringBody rest).map fun r => (pairedChar n m :: r.1, r.2)
            else none
        | _ => none
      else (stringBody rest).map fun r => (Char.ofNat n :: r.1, r.2)
  | '\\' :: c :: rest =>
    match shortEscape? c with
    | none => none
    | some e => (stringBody rest).map fun r => (e :: r.1, r.2)
  | c :: rest =>
    if c = '\\' || c < ' ' then none
    else (stringBody rest).map fun r => (c :: r.1, r.2)

/-! ## The whole text -/

/-- The tokens of a text, found in at most as many steps as the first argument says. -/
def lex : Nat → List Char → Option (List Token)
  | _, [] => some []
  | 0, _ :: _ => none
  | n + 1, c :: cs =>
    if isSpace c then lex n cs
    else
      match punctuation? c with
      | some t => (lex n cs).map (t :: ·)
      | none =>
        if c = '"' then
          match stringBody cs with
          | some (s, rest) => (lex n rest).map (.string (String.ofList s) :: ·)
          | none => none
        else
          match word? (c :: cs.takeWhile isWordChar) with
          | some t => (lex n (cs.dropWhile isWordChar)).map (t :: ·)
          | none => none

/-- The tokens of a text. Every step takes a character at least. -/
def tokens? (cs : List Char) : Option (List Token) := lex cs.length cs

end Formula.Json
