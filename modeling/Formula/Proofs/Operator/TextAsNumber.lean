import Formula.Operator.Coercion
import Formula.Proofs.Number.Nearest
import Formula.Proofs.Number.Text
/-!
# Texts as numbers

An operator on numbers takes a text for the number that it spells as a decimal literal, between blanks
of any script. The grammar of literals decides which texts these are, and the nearest double is the
number. A test for digits and for the characters of literals decides the same in front of a reader that
also knows the names of infinity and of undefined numbers, as none of the names passes the test.

Results:
* `read?_trim_eq_some_iff`: a text is read when it is a literal between blanks.
* `numberOfText?_eq_filtered`: the test in front of a reader that knows names.
* `NoLiteral.not_padded`: how texts fail to be literals.
* `texts_as_numbers`: all of it, for the operands of an operator.
-/
namespace Formula

open Number (IsLiteral IsSign Numeral Rounds isNumeralChar isBlank_of_isNumeralChar)

/-! ## Literals between blanks -/

/-- A literal with blanks on either side, and the numeral that it spells. -/
def PaddedLiteral (cs : List Char) (n : Numeral) : Prop :=
  ∃ before literal after, cs = before ++ literal ++ after ∧ (∀ c ∈ before, isBlank c = true) ∧
    (∀ c ∈ after, isBlank c = true) ∧ IsLiteral literal n

variable {cs : List Char} {n : Numeral} {s operator : String}

theorem not_isBlank_of_isLiteral (h : IsLiteral cs n) : cs ≠ [] ∧ ∀ c ∈ cs, isBlank c = false := by
  refine ⟨?_, fun c hc => isBlank_of_isNumeralChar (h.isNumeralChar c hc)⟩
  rintro rfl
  obtain ⟨c, hc, -⟩ := h.exists_isDigit
  cases hc

theorem trim_of_isLiteral {before literal after : List Char} (hbefore : ∀ c ∈ before, isBlank c = true)
    (hafter : ∀ c ∈ after, isBlank c = true) (h : IsLiteral literal n) :
    trim (before ++ literal ++ after) = literal := by
  obtain ⟨hne, hblank⟩ := not_isBlank_of_isLiteral h
  exact trim_append hbefore hafter hblank hne

/-- A text is read when it is a literal between blanks. -/
theorem read?_trim_eq_some_iff : Numeral.read? (trim cs) = some n ↔ PaddedLiteral cs n := by
  rw [Numeral.read?_eq_some_iff]
  constructor
  · intro h
    obtain ⟨before, after, hcs, hbefore, hafter⟩ := exists_trim cs
    exact ⟨before, trim cs, after, hcs, hbefore, hafter, h⟩
  · rintro ⟨before, literal, after, rfl, hbefore, hafter, h⟩
    rwa [trim_of_isLiteral hbefore hafter h]

theorem PaddedLiteral.isLiteral (h : PaddedLiteral cs n) : IsLiteral (trim cs) n :=
  Numeral.read?_eq_some_iff.1 (read?_trim_eq_some_iff.2 h)

/-! ## The test in front of a reader -/

/-- The names of numbers that are not finite, in letters of any case and after any sign. -/
def namedNumber? (cs : List Char) : Option Float :=
  let (negative, name) := Number.signOf cs
  let name := name.map Char.toLower
  if name = "inf".toList ∨ name = "infinity".toList then
    some (Number.ofMagnitude negative Number.infinity)
  else if name = "nan".toList then some Number.undefined
  else none

/-- A reader that knows literals and names. -/
def literalOrName? (cs : List Char) : Option Float :=
  (Numeral.read? cs).map Numeral.toNumber <|> namedNumber? cs

/-- Whether there are digits in a text, and nothing but the characters of literals. -/
def looksNumeric (cs : List Char) : Bool := cs.any Char.isDigit && cs.all isNumeralChar

theorem toLower_of_isNumeralChar {c : Char} (h : isNumeralChar c = true) :
    c.toLower ≠ 'i' ∧ c.toLower ≠ 'n' := by
  have hsmall : ∀ k < 128, isNumeralChar (Char.ofNat k) = true →
      (Char.ofNat k).toLower ≠ 'i' ∧ (Char.ofNat k).toLower ≠ 'n' := by
    decide
  have hlt : c.toNat < 128 := by
    rw [isNumeralChar, Bool.or_eq_true, List.contains_iff_mem] at h
    rcases h with hdigit | hmem
    · exact (Number.toNat_of_isDigit hdigit).2.trans_lt (by decide)
    · have hmarks : ['.', '+', '-', 'e', 'E'].all (fun d => decide (d.toNat < 128)) = true := rfl
      exact of_decide_eq_true (List.all_eq_true.1 hmarks c hmem)
  have hc := hsmall c.toNat hlt
  rw [Char.ofNat_toNat] at hc
  exact hc h

theorem toLower_of_isBlank {c : Char} (h : isBlank c = true) : c.toLower ≠ 'i' ∧ c.toLower ≠ 'n' := by
  have hblank : ∀ n ∈ blankCodes, (Char.ofNat n).toLower ≠ 'i' ∧ (Char.ofNat n).toLower ≠ 'n' := by
    decide
  have hc := hblank c.toNat (List.contains_iff_mem.1 h)
  rwa [Char.ofNat_toNat] at hc

def nonFiniteNames : List (List Char) := ["inf".toList, "infinity".toList, "nan".toList]

/-- Each name begins with a letter that no literal has. -/
theorem exists_foreign_of_name {name : List Char} (h : name.map Char.toLower ∈ nonFiniteNames) :
    ∃ c ∈ name, isBlank c = false ∧ isNumeralChar c = false := by
  have hhead : ∀ word ∈ nonFiniteNames, word.head? = some 'i' ∨ word.head? = some 'n' := by
    decide
  cases name with
  | nil => exact absurd h (by decide)
  | cons c name =>
    have hletter : c.toLower = 'i' ∨ c.toLower = 'n' :=
      (hhead _ h).imp Option.some.inj Option.some.inj
    refine ⟨c, List.mem_cons_self, Bool.eq_false_iff.2 fun hc => ?_, Bool.eq_false_iff.2 fun hc => ?_⟩
    · exact hletter.elim (toLower_of_isBlank hc).1 (toLower_of_isBlank hc).2
    · exact hletter.elim (toLower_of_isNumeralChar hc).1 (toLower_of_isNumeralChar hc).2

theorem namedNumber?_of_all (h : ∀ c ∈ cs, isNumeralChar c = true) : namedNumber? cs = none := by
  rcases hsign : Number.signOf cs with ⟨negative, name⟩
  obtain ⟨sign, rfl, -⟩ := Number.isSign_of_signOf hsign
  have hname : name.map Char.toLower ∉ nonFiniteNames := by
    intro hmem
    obtain ⟨c, hc, -, hforeign⟩ := exists_foreign_of_name hmem
    rw [h c (List.mem_append_right _ hc)] at hforeign
    cases hforeign
  simp only [nonFiniteNames, List.mem_cons, List.not_mem_nil, or_false, not_or] at hname
  unfold namedNumber?
  rw [hsign]
  dsimp only
  rw [if_neg (by simp only [hname, or_self, not_false_eq_true]), if_neg hname.2.2]

/-- **The test in front of a reader that knows names** lets through what the grammar does. -/
theorem numberOfText?_eq_filtered (s : String) : numberOfText? s =
    if looksNumeric (trim s.toList) then literalOrName? (trim s.toList) else none := by
  unfold numberOfText? literalOrName?
  cases hread : Numeral.read? (trim s.toList) with
  | some n =>
    have hliteral := Numeral.read?_eq_some_iff.1 hread
    have hlooks : looksNumeric (trim s.toList) = true := by
      rw [looksNumeric, Bool.and_eq_true, List.any_eq_true, List.all_eq_true]
      exact ⟨hliteral.exists_isDigit, hliteral.isNumeralChar⟩
    rw [if_pos hlooks]
    rfl
  | none =>
    split
    · rename_i hlooks
      rw [looksNumeric, Bool.and_eq_true, List.all_eq_true] at hlooks
      rw [namedNumber?_of_all hlooks.2]
      rfl
    · rfl

/-! ## Texts that are no literals -/

/-- How a text may fail to be a literal between blanks. -/
inductive NoLiteral : List Char → Prop where
  /-- There is a character that is neither blank nor one of literals. -/
  | foreign {cs : List Char} (c : Char) : c ∈ cs → isBlank c = false → isNumeralChar c = false →
    NoLiteral cs
  /-- The name of a number that is not finite, in letters of any case. -/
  | named (before name after : List Char) :
    name.map Char.toLower ∈ nonFiniteNames → NoLiteral (before ++ name ++ after)
  /-- A blank with other characters on either side. -/
  | gap {before after : List Char} (c : Char) : isBlank c = true → (∃ d ∈ before, isBlank d = false) →
    (∃ d ∈ after, isBlank d = false) → NoLiteral (before ++ c :: after)
  /-- A sign, a point, an exponent mark or nothing at all, without a digit. -/
  | digitless {cs : List Char} : (∀ c ∈ cs, c.isDigit = false) → NoLiteral cs
  /-- An exponent without digits before it. -/
  | bare {before sign : List Char} {negative : Bool} (mark : Char) (after : List Char) :
    (∀ c ∈ before, isBlank c = true) → IsSign sign negative → mark = 'e' ∨ mark = 'E' →
    NoLiteral (before ++ (sign ++ mark :: after))
  /-- A sign or an exponent mark comes last. -/
  | unfinished (before : List Char) {after : List Char} (c : Char) : c ∈ ['+', '-', 'e', 'E'] →
    (∀ d ∈ after, isBlank d = true) → NoLiteral (before ++ c :: after)

theorem mem_trim {c : Char} (hc : c ∈ cs) (hblank : isBlank c = false) : c ∈ trim cs := by
  obtain ⟨before, after, hcs, hbefore, hafter⟩ := exists_trim cs
  rw [hcs, List.mem_append, List.mem_append] at hc
  rcases hc with (hc | hc) | hc
  · exact absurd (hbefore c hc) (by simp [hblank])
  · exact hc
  · exact absurd (hafter c hc) (by simp [hblank])

theorem mem_of_mem_trim {c : Char} (hc : c ∈ trim cs) : c ∈ cs := by
  obtain ⟨before, after, hcs, -⟩ := exists_trim cs
  rw [hcs]
  exact List.mem_append_left _ (List.mem_append_right _ hc)

/-- After the blanks before it, a literal begins with its sign and its mantissa. -/
theorem PaddedLiteral.not_bare {before sign after : List Char} {negative : Bool} {mark : Char}
    (hbefore : ∀ c ∈ before, isBlank c = true) (hsign : IsSign sign negative)
    (hmark : mark = 'e' ∨ mark = 'E') : ¬ PaddedLiteral (before ++ (sign ++ mark :: after)) n := by
  rintro ⟨before', literal, after', hcs, hbefore', -, hliteral⟩
  have hsigned : ∀ c ∈ sign ++ [mark], isNumeralChar c = true := by
    refine List.forall_mem_append.2 ⟨hsign.isNumeralChar, List.forall_mem_singleton.2 ?_⟩
    rcases hmark with rfl | rfl <;> decide
  have hfront : ∀ c ∈ (sign ++ mark :: after).head?, isBlank c = false := by
    intro c hc
    refine isBlank_of_isNumeralChar (hsigned c ?_)
    cases sign with
    | nil =>
      cases hc
      exact List.mem_singleton_self mark
    | cons d sign =>
      cases hc
      exact List.mem_cons_self
  have hfront' : ∀ c ∈ (literal ++ after').head?, isBlank c = false := by
    obtain ⟨hne, hblank⟩ := not_isBlank_of_isLiteral hliteral
    obtain ⟨d, literal, rfl⟩ := List.exists_cons_of_ne_nil hne
    intro c hc
    cases hc
    exact hblank d List.mem_cons_self
  rw [List.append_assoc] at hcs
  have hequal := eq_of_append_eq hcs hbefore hbefore' hfront hfront'
  -- The sign taken off on both sides, the mark stands where the mantissa does.
  have hunsigned : Number.Unsigned (mark :: after) := by
    intro c hc
    cases hc
    rcases hmark with rfl | rfl <;> decide
  have hsplit := Number.signOf_append hsign hunsigned
  obtain ⟨hsign', hmantissa, -⟩ := hliteral
  rw [hequal, List.append_assoc, List.append_assoc,
    Number.signOf_append hsign' (hmantissa.unsigned _)] at hsplit
  obtain ⟨c, cs, rfl, hc⟩ := hmantissa.exists_head
  obtain rfl : c = mark := (List.cons.inj (Prod.mk.inj hsplit).2).1
  rcases hmark with rfl | rfl <;> revert hc <;> decide

/-- Before the blanks after it, a literal ends with a digit or a point. -/
theorem PaddedLiteral.not_unfinished {before after : List Char} {c : Char}
    (hc : c ∈ ['+', '-', 'e', 'E']) (hafter : ∀ d ∈ after, isBlank d = true) :
    ¬ PaddedLiteral (before ++ c :: after) n := by
  rintro ⟨before', literal, after', hcs, -, hafter', hliteral⟩
  have hmark (x : Char) (hx : x ∈ ['+', '-', 'e', 'E']) :
      isBlank x = false ∧ ¬ (x.isDigit = true ∨ x = '.') := by
    simp only [List.mem_cons, List.not_mem_nil, or_false] at hx
    rcases hx with rfl | rfl | rfl | rfl <;> decide
  obtain ⟨init, d, hclosed, hd⟩ := hliteral.closed
  have hblank : isBlank d = false := (not_isBlank_of_isLiteral hliteral).2 d (by simp [hclosed])
  have hreverse : after.reverse ++ c :: before.reverse =
      after'.reverse ++ d :: (init.reverse ++ before'.reverse) := by
    simpa [hclosed] using congrArg List.reverse hcs
  have hequal := eq_of_append_eq (p := isBlank) hreverse (by simpa using hafter)
    (by simpa using hafter') (fun x hx => ?_) (fun x hx => ?_)
  · obtain rfl := (List.cons.inj hequal).1
    exact (hmark c hc).2 hd
  · cases hx
    exact (hmark c hc).1
  · cases hx
    exact hblank

theorem NoLiteral.not_padded (h : NoLiteral cs) : ¬ PaddedLiteral cs n := by
  intro hpadded
  have hliteral := hpadded.isLiteral
  cases h with
  | foreign c hc hblank hforeign =>
    rw [hliteral.isNumeralChar c (mem_trim hc hblank)] at hforeign
    cases hforeign
  | named before name after hname =>
    obtain ⟨c, hc, hblank, hforeign⟩ := exists_foreign_of_name hname
    have hmem := mem_trim (List.mem_append_left after (List.mem_append_right before hc)) hblank
    rw [hliteral.isNumeralChar c hmem] at hforeign
    cases hforeign
  | gap c hc hbefore hafter =>
    rw [isBlank_of_isNumeralChar (hliteral.isNumeralChar c (mem_trim_of_gap c hbefore hafter))] at hc
    cases hc
  | digitless hdigits =>
    obtain ⟨c, hc, hdigit⟩ := hliteral.exists_isDigit
    rw [hdigits c (mem_of_mem_trim hc)] at hdigit
    cases hdigit
  | bare mark after hbefore hsign hmark => exact PaddedLiteral.not_bare hbefore hsign hmark hpadded
  | unfinished before c hc hafter => exact PaddedLiteral.not_unfinished hc hafter hpadded

/-! ## Texts as operands -/

theorem asNumber_eq_ok_iff {x : Float} : (Value.text s).asNumber operator = .ok x ↔
    ∃ n, PaddedLiteral s.toList n ∧ Rounds n.negative n.value x := by
  have hread {m : Numeral} : Numeral.read? (trim s.toList) = some m ↔ PaddedLiteral s.toList m :=
    read?_trim_eq_some_iff
  have hrounds (m : Numeral) : Rounds m.negative m.value m.toNumber := Number.rounds_ofDecimal _ _ _
  rw [Value.asNumber, numberOfText?]
  constructor
  · intro h
    cases hm : Numeral.read? (trim s.toList) with
    | none =>
      rw [hm] at h
      cases h
    | some m =>
      rw [hm] at h
      cases h
      exact ⟨m, hread.1 hm, hrounds m⟩
  · rintro ⟨m, hm, hx⟩
    rw [hread.2 hm, hx.unique (hrounds m) m.value_nonneg]
    rfl

theorem asNumber_eq_error (h : ∀ n, ¬ PaddedLiteral s.toList n) :
    (Value.text s).asNumber operator = .error (.unreadableNumber operator s) := by
  have hnone : Numeral.read? (trim s.toList) = none :=
    Option.eq_none_iff_forall_ne_some.2 fun n hn => h n (read?_trim_eq_some_iff.1 hn)
  rw [Value.asNumber, numberOfText?, hnone]
  rfl

/-- **Texts as numbers.** An operand that is a text stands for a number exactly when it is a decimal
literal between blanks, and then for the one double to which what it denotes is rounded: infinite when
it is too large, and zero when it is too small, under its sign. Every other text is reported as it
stands, blanks included; among them are the names of infinity and of undefined numbers, and texts with a
blank inside, with another character, without a digit, without a mantissa, or with a sign or an exponent
mark at the end. The test for the characters of literals lets the same texts through. -/
theorem texts_as_numbers (operator s : String) :
    (∀ x, (Value.text s).asNumber operator = .ok x ↔
      ∃ n, PaddedLiteral s.toList n ∧ Rounds n.negative n.value x) ∧
    (∀ n, PaddedLiteral s.toList n → ∃ x, (Value.text s).asNumber operator = .ok x) ∧
    ((∀ n, ¬ PaddedLiteral s.toList n) →
      (Value.text s).asNumber operator = .error (.unreadableNumber operator s)) ∧
    (NoLiteral s.toList → ∀ n, ¬ PaddedLiteral s.toList n) ∧
    numberOfText? s =
      (if looksNumeric (trim s.toList) then literalOrName? (trim s.toList) else none) ∧
    (Fault.unreadableNumber operator s).message =
      "operator " ++ quoted operator ++ ": cannot parse " ++ quoted s ++ " as a number" := by
  refine ⟨fun x => asNumber_eq_ok_iff, ?_, asNumber_eq_error, fun h n => h.not_padded,
    numberOfText?_eq_filtered s, rfl⟩
  intro n hn
  exact ⟨n.toNumber, asNumber_eq_ok_iff.2 ⟨n, hn, Number.rounds_ofDecimal _ _ _⟩⟩

/-- An odd integer half way between two doubles, between blanks of two scripts, is rounded to the even
double below it; the name of an infinity, in capitals and under a sign, is reported with its blank. -/
theorem texts_as_numbers_tie :
    let s := "\u3000-9007199254740993\t"
    let n : Numeral := ⟨true, "9007199254740993".toList, [], none⟩
    let x := Number.ofMagnitude true (Number.nearestDecimal 9007199254740992 0)
    PaddedLiteral s.toList n ∧ Rounds true n.value x ∧ (Value.text s).asNumber "*" = .ok x ∧
      NoLiteral " -INF".toList ∧ (∀ n, ¬ PaddedLiteral " -INF".toList n) ∧
      (Value.text " -INF").asNumber "*" = .error (.unreadableNumber "*" " -INF") := by
  intro s n x
  have hdigits : Number.IsDigits "9007199254740993".toList := ⟨by decide, List.all_eq_true.1 rfl⟩
  have hliteral : IsLiteral "-9007199254740993".toList n :=
    .mk .minus (.plain hdigits) .absent
  have htext : "\u3000-9007199254740993\t".toList =
      ['\u3000'] ++ "-9007199254740993".toList ++ ['\t'] := by
    decide
  have hpadded : PaddedLiteral s.toList n :=
    ⟨['\u3000'], "-9007199254740993".toList, ['\t'], htext, List.all_eq_true.1 rfl,
      List.all_eq_true.1 rfl, hliteral⟩
  have hdown : Number.nearestDecimal 9007199254740993 0 = Number.nearestDecimal 9007199254740992 0 := by
    decide +kernel
  have hrounds : Rounds true n.value x := by
    have h := Number.rounds_ofDecimal true 9007199254740993 0
    rwa [Number.ofDecimal, hdown] at h
  have hname : NoLiteral " -INF".toList := .named [' ', '-'] ['I', 'N', 'F'] [] (by decide)
  obtain ⟨hread, -, -, -, -, -⟩ := texts_as_numbers "*" s
  obtain ⟨-, -, hreported, hnone, -, -⟩ := texts_as_numbers "*" " -INF"
  exact ⟨hpadded, hrounds, (hread x).2 ⟨n, hpadded, hrounds⟩, hname, hnone hname,
    hreported (hnone hname)⟩

end Formula
