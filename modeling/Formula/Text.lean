/-!
# Blank characters and search in texts

Texts are handled as lists of characters. `isBlank` is the White_Space property of Unicode;
`occursIn` decides whether one text is a contiguous part of another.

Results:
* `occursIn_iff`: `occursIn` decides `∃ p s, p ++ needle ++ s = haystack`.
-/
namespace Formula

/-- The code points with the White_Space property. -/
def blankCodes : List Nat :=
  [0x09, 0x0a, 0x0b, 0x0c, 0x0d, 0x20, 0x85, 0xa0, 0x1680, 0x2000, 0x2001, 0x2002, 0x2003, 0x2004,
    0x2005, 0x2006, 0x2007, 0x2008, 0x2009, 0x200a, 0x2028, 0x2029, 0x202f, 0x205f, 0x3000]

def isBlank (c : Char) : Bool := blankCodes.contains c.toNat

def trim (cs : List Char) : List Char :=
  ((cs.dropWhile isBlank).reverse.dropWhile isBlank).reverse

/-- Whether the first text is a contiguous part of the second. -/
def occursIn (needle : List Char) : List Char → Bool
  | [] => needle.isEmpty
  | c :: cs => needle.isPrefixOf (c :: cs) || occursIn needle cs

theorem occursIn_iff (needle haystack : List Char) :
    occursIn needle haystack ↔ needle <:+: haystack := by
  induction haystack with
  | nil => simp [occursIn]
  | cons c cs ih => simp [occursIn, ih, List.infix_cons_iff]

end Formula
