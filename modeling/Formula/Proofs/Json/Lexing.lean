import Formula.Json.Reader
import Formula.Json.Writer
import Formula.Proofs.Number.Digits
import Formula.Proofs.Text.Cut
/-!
# Tokens of JSON text

What the lexer makes of the pieces of a text, each with anything after it. A string is read up to the
quote that ends it, whatever it contains, and a word up to the first character that cannot be in one.

Results:
* `lex_eq_tokens?`: the number of steps that the lexer may take does not matter.
* `tokens?_space`, `tokens?_punctuation`, `tokens?_word`, `tokens?_quotedString`: the pieces of a text.
* `exists_word_of_tokens?`: the text of a single scalar.
* `numeral?_eq_some`: the parts of a number literal.
* `number?_eq_real`, `number?_repr`: the literals of doubles, and an integer that reads back.
-/
namespace Formula.Json

open Number (Numeral digitSpan exponentOf signText isNumeralChar)

/-! ## Tokens without fuel -/

theorem length_of_stringBody {cs s rest : List Char} (h : stringBody cs = some (s, rest)) :
    rest.length < cs.length := by
  fun_induction stringBody cs generalizing s
  case case2 =>
    cases h
    exact Nat.lt_succ_self _
  case case6 ih | case9 ih | case11 ih | case13 ih =>
    obtain ⟨r, hbody, heq⟩ := Option.map_eq_some_iff.1 h
    cases heq
    have hlt := ih hbody
    simp only [List.length_cons]
    omega
  all_goals cases h

/-- Steps to spare change nothing. -/
theorem lex_congr {n m : Nat} {cs : List Char} (hn : cs.length ≤ n) (hm : cs.length ≤ m) :
    lex n cs = lex m cs := by
  induction n generalizing m cs with
  | zero =>
    obtain rfl := List.eq_nil_of_length_eq_zero (Nat.le_zero.1 hn)
    cases m <;> rfl
  | succ n ih =>
    cases cs with
    | nil => cases m <;> rfl
    | cons c cs =>
      cases m with
      | zero => simp at hm
      | succ m =>
        rw [List.length_cons, Nat.add_le_add_iff_right] at hn hm
        -- Whatever the token is, what is left after it is no longer than `cs`.
        have hrest {rest : List Char} (h : rest.length ≤ cs.length) : lex n rest = lex m rest :=
          ih (h.trans hn) (h.trans hm)
        have hword := hrest (List.length_dropWhile_le isWordChar cs)
        simp only [lex, hrest (Nat.le_refl _), hword]
        split
        · rfl
        split
        · rfl
        split
        · split
          · rename_i s rest hs
            rw [hrest (Nat.le_of_lt (length_of_stringBody hs))]
          · rfl
        · rfl

theorem lex_eq_tokens? {n : Nat} {cs : List Char} (h : cs.length ≤ n) : lex n cs = tokens? cs :=
  lex_congr h (Nat.le_refl _)

section Tokens

variable {c : Char} {cs : List Char}

theorem tokens?_space (h : isSpace c = true) : tokens? (c :: cs) = tokens? cs := by
  rw [tokens?, List.length_cons, lex, if_pos h]
  rfl

theorem not_isSpace_of_punctuation? {t : Token} (h : punctuation? c = some t) :
    isSpace c = false := by
  rw [Bool.eq_false_iff]
  intro hspace
  simp only [isSpace, Bool.or_eq_true, decide_eq_true_eq] at hspace
  rcases hspace with ((rfl | rfl) | rfl) | rfl <;> cases h

theorem tokens?_punctuation {t : Token} (h : punctuation? c = some t) :
    tokens? (c :: cs) = (tokens? cs).map (t :: ·) := by
  rw [tokens?, List.length_cons, lex, if_neg (by simp [not_isSpace_of_punctuation? h]), h]
  rfl

theorem tokens?_of_quote (cs : List Char) : tokens? ('"' :: cs) =
    (stringBody cs).bind fun r => (tokens? r.2).map (.string (String.ofList r.1) :: ·) := by
  rw [tokens?, List.length_cons, lex, if_neg (by decide), show punctuation? '"' = none by decide]
  dsimp only
  rw [if_pos rfl]
  cases h : stringBody cs with
  | none => rfl
  | some r =>
    have hlex : lex cs.length r.2 = tokens? r.2 :=
      lex_eq_tokens? (Nat.le_of_lt (length_of_stringBody h))
    rw [Option.bind_some, ← hlex]

theorem tokens?_quote {s rest : List Char} (h : stringBody cs = some (s, rest)) :
    tokens? ('"' :: cs) = (tokens? rest).map (.string (String.ofList s) :: ·) := by
  rw [tokens?_of_quote, h, Option.bind_some]

theorem tokens?_of_isWordChar (h : isWordChar c = true) : tokens? (c :: cs) =
    (word? (c :: cs.takeWhile isWordChar)).bind fun t =>
      (tokens? (cs.dropWhile isWordChar)).map (t :: ·) := by
  obtain ⟨hspace, hquote, hpunctuation⟩ : isSpace c = false ∧ c ≠ '"' ∧ punctuation? c = none := by
    simpa [isWordChar, and_assoc] using h
  have hlex : lex cs.length (cs.dropWhile isWordChar) = tokens? (cs.dropWhile isWordChar) :=
    lex_eq_tokens? (List.length_dropWhile_le isWordChar cs)
  rw [tokens?, List.length_cons, lex, if_neg (by simp [hspace]), hpunctuation]
  dsimp only
  rw [if_neg hquote, hlex]
  cases word? (c :: cs.takeWhile isWordChar) <;> rfl

/-- No word goes on here. -/
def EndsWord (rest : List Char) : Prop := ∀ c ∈ rest.head?, isWordChar c = false

theorem endsWord_nil : EndsWord [] := nofun

theorem endsWord_punctuation {c : Char} {t : Token} (h : punctuation? c = some t)
    (rest : List Char) : EndsWord (c :: rest) := by
  intro d hd
  cases hd
  simp [isWordChar, h]

theorem tokens?_word {word rest : List Char} {t : Token} (ht : word? word = some t)
    (hne : word ≠ []) (hword : ∀ c ∈ word, isWordChar c = true)
    (hrest : EndsWord rest) :
    tokens? (word ++ rest) = (tokens? rest).map (t :: ·) := by
  obtain ⟨c, cs, rfl⟩ := List.exists_cons_of_ne_nil hne
  obtain ⟨hc, hcs⟩ := List.forall_mem_cons.1 hword
  obtain ⟨htake, hdrop⟩ := takeWhile_append_of_boundary hcs hrest
  rw [List.cons_append, tokens?_of_isWordChar hc, htake, hdrop, ht, Option.bind_some]

/-! ### From the tokens back to the text -/

/-- What a character that is no blank begins. -/
theorem token_cases (h : isSpace c = false) :
    (∃ t, punctuation? c = some t) ∨ c = '"' ∨ isWordChar c = true := by
  cases hp : punctuation? c with
  | some t => exact .inl ⟨t, rfl⟩
  | none =>
    by_cases hquote : c = '"'
    · exact .inr (.inl hquote)
    · exact .inr (.inr (by simp [isWordChar, h, hquote, hp]))

/-- Every piece of a text that is not blank has a token. -/
theorem isSpace_of_tokens? (h : tokens? cs = some []) : ∀ c ∈ cs, isSpace c = true := by
  induction cs with
  | nil => simp
  | cons c cs ih =>
    cases hc : isSpace c with
    | true =>
      rw [tokens?_space hc] at h
      exact List.forall_mem_cons.2 ⟨hc, ih h⟩
    | false =>
      obtain ⟨t, ht⟩ | rfl | hword := token_cases hc
      · rw [tokens?_punctuation ht] at h
        obtain ⟨_, -, hcons⟩ := Option.map_eq_some_iff.1 h
        cases hcons
      · rw [tokens?_of_quote] at h
        obtain ⟨_, -, h⟩ := Option.bind_eq_some_iff.1 h
        obtain ⟨_, -, hcons⟩ := Option.map_eq_some_iff.1 h
        cases hcons
      · rw [tokens?_of_isWordChar hword] at h
        obtain ⟨_, -, h⟩ := Option.bind_eq_some_iff.1 h
        obtain ⟨_, -, hcons⟩ := Option.map_eq_some_iff.1 h
        cases hcons

theorem punctuation?_ne_scalar {j : Json} : punctuation? c ≠ some (.scalar j) := by
  unfold punctuation?
  split <;> exact nofun

/-- A text with one scalar is a word between blanks. -/
theorem exists_word_of_tokens? {j : Json} (h : tokens? cs = some [.scalar j]) :
    ∃ before word after, cs = before ++ word ++ after ∧ (∀ c ∈ before, isSpace c = true) ∧
      (∀ c ∈ after, isSpace c = true) ∧ word? word = some (.scalar j) := by
  induction cs with
  | nil => cases h
  | cons c cs ih =>
    cases hc : isSpace c with
    | true =>
      rw [tokens?_space hc] at h
      obtain ⟨before, word, after, rfl, hbefore, hafter, hword⟩ := ih h
      exact ⟨c :: before, word, after, rfl, List.forall_mem_cons.2 ⟨hc, hbefore⟩, hafter, hword⟩
    | false =>
      obtain ⟨t, ht⟩ | rfl | hchar := token_cases hc
      · rw [tokens?_punctuation ht] at h
        obtain ⟨_, -, hcons⟩ := Option.map_eq_some_iff.1 h
        cases hcons
        exact absurd ht punctuation?_ne_scalar
      · rw [tokens?_of_quote] at h
        obtain ⟨_, -, h⟩ := Option.bind_eq_some_iff.1 h
        obtain ⟨_, -, hcons⟩ := Option.map_eq_some_iff.1 h
        cases hcons
      · rw [tokens?_of_isWordChar hchar] at h
        obtain ⟨t, hword, h⟩ := Option.bind_eq_some_iff.1 h
        obtain ⟨ts, hrest, hcons⟩ := Option.map_eq_some_iff.1 h
        cases hcons
        refine ⟨[], c :: cs.takeWhile isWordChar, cs.dropWhile isWordChar, ?_, by simp,
          isSpace_of_tokens? hrest, hword⟩
        rw [List.nil_append, List.cons_append, List.takeWhile_append_dropWhile]

end Tokens

/-! ## Strings -/

theorem hexCode?_digitChar {n : Nat} (h : n < 32) :
    hexCode? '0' '0' (Nat.digitChar (n / 16)) (Nat.digitChar (n % 16)) = some n ∧
      isLowSurrogate n = false ∧ isHighSurrogate n = false := by
  have hall : ∀ n < 32, hexCode? '0' '0' (Nat.digitChar (n / 16)) (Nat.digitChar (n % 16)) =
      some n ∧ isLowSurrogate n = false ∧ isHighSurrogate n = false := by
    decide
  exact hall n h

theorem stringBody_plain {c : Char} (hquote : c ≠ '"') (hbackslash : c ≠ '\\')
    (hspace : ¬ c < ' ') (rest : List Char) :
    stringBody (c :: rest) = (stringBody rest).map fun r => (c :: r.1, r.2) := by
  rw [stringBody]
  · simp [hbackslash, hspace]
  · exact hquote
  · intro _ _ _ _ _ h
    exact absurd h hbackslash
  · intro _ _ h
    exact absurd h hbackslash

/-- A character that was written is read as this character. -/
theorem stringBody_escapedChar (c : Char) (rest : List Char) :
    stringBody (escapedChar c ++ rest) = (stringBody rest).map fun r => (c :: r.1, r.2) := by
  unfold escapedChar
  split
  case h_8 hquote hbackslash _ _ _ _ _ =>
    split
    · rename_i hc
      obtain ⟨hcode, hlow, hhigh⟩ := hexCode?_digitChar (n := c.toNat) hc
      simp [stringBody, hcode, hlow, hhigh]
    · rename_i hc
      exact stringBody_plain hquote hbackslash hc rest
  all_goals simp [stringBody, shortEscape?]

/-- A string that was written is read as this string. -/
theorem stringBody_quoted (cs rest : List Char) :
    stringBody (cs.flatMap escapedChar ++ '"' :: rest) = some (cs, rest) := by
  induction cs with
  | nil => simp [stringBody]
  | cons c cs ih =>
    rw [List.flatMap_cons, List.append_assoc, stringBody_escapedChar, ih, Option.map_some]

theorem quotedString_append (s : String) (rest : List Char) :
    quotedString s ++ rest = '"' :: (s.toList.flatMap escapedChar ++ '"' :: rest) := by
  simp [quotedString]

theorem tokens?_quotedString (s : String) (rest : List Char) :
    tokens? (quotedString s ++ rest) = (tokens? rest).map (.string s :: ·) := by
  have hbody := stringBody_quoted s.toList rest
  rw [quotedString_append, tokens?_quote hbody, String.ofList_toList]

/-! ## Numbers -/

/-- A number literal is its parts, one after the other. -/
theorem numeral?_eq_some {cs : List Char} {n : Numeral} (h : numeral? cs = some n) :
    ∃ tail, cs = signText n.negative ++ (n.whole ++
        ((if n.fraction = [] then [] else '.' :: n.fraction) ++ tail)) ∧
      n.whole ≠ [] ∧ (∀ c ∈ n.whole, c.isDigit = true) ∧ (∀ c ∈ n.fraction, c.isDigit = true) ∧
      exponentOf tail = some (n.exponent, []) := by
  unfold numeral? at h
  split at h
  rename_i negative unsigned hsign
  obtain rfl : cs = signText negative ++ unsigned := by
    split at hsign <;> cases hsign <;> rfl
  rcases hspan : digitSpan unsigned with ⟨whole, rest⟩
  obtain ⟨rfl, hwhole⟩ := Number.digitSpan_eq hspan
  rw [hspan] at h
  dsimp only at h
  simp only [Option.bind_eq_bind, Option.bind_eq_some_iff] at h
  obtain ⟨_, hguard, h⟩ := h
  have hne : whole ≠ [] := by
    intro hnil
    simp [hnil, guard] at hguard
  split at h
  · rename_i digits
    rcases hfraction : digitSpan digits with ⟨fraction, tail⟩
    obtain ⟨rfl, hdigits⟩ := Number.digitSpan_eq hfraction
    rw [hfraction] at h
    split at h
    · cases h
    · rename_i hnonempty
      simp only [Option.bind_some, Option.bind_eq_some_iff] at h
      obtain ⟨⟨e, left⟩, hexponent, _, hleft, h⟩ := h
      obtain rfl : left = [] := by simpa [guard] using hleft
      cases h
      exact ⟨tail, by simp [hnonempty], hne, hwhole, hdigits, hexponent⟩
  · simp only [Option.bind_some, Option.bind_eq_some_iff] at h
    obtain ⟨⟨e, left⟩, hexponent, _, hleft, h⟩ := h
    obtain rfl : left = [] := by simpa [guard] using hleft
    cases h
    exact ⟨rest, by simp, hne, hwhole, by simp, hexponent⟩

/-- A number literal is a decimal literal, of the same numeral. -/
theorem isLiteral_of_numeral? {cs : List Char} {n : Numeral} (h : numeral? cs = some n) :
    Number.IsLiteral cs n := by
  obtain ⟨tail, rfl, hne, hwhole, hfraction, hexponent⟩ := numeral?_eq_some h
  refine Numeral.Spells.isLiteral ⟨⟨hne, hwhole⟩, hfraction, _, tail, rfl, ?_, hexponent⟩
  split
  · rename_i hempty
    exact .inr ⟨rfl, hempty⟩
  · exact .inl rfl

theorem isNumeralChar_of_number? {cs : List Char} {j : Json} (h : number? cs = some j) :
    cs ≠ [] ∧ ∀ c ∈ cs, isNumeralChar c = true := by
  unfold number? at h
  obtain ⟨n, hn, -⟩ := Option.bind_eq_some_iff.1 h
  refine ⟨?_, (isLiteral_of_numeral? hn).isNumeralChar⟩
  rintro rfl
  obtain ⟨c, hc, -⟩ := (isLiteral_of_numeral? hn).exists_isDigit
  cases hc

/-- A number is one word. -/
theorem isWordChar_of_isNumeralChar {c : Char} (h : isNumeralChar c = true) :
    isWordChar c = true := by
  have hne : ∀ d ∈ [' ', '\n', '\r', '\t', '"', '[', ']', '{', '}', ',', ':'], c ≠ d := by
    have hall : [' ', '\n', '\r', '\t', '"', '[', ']', '{', '}', ',', ':'].any isNumeralChar =
        false := by
      decide
    intro d hd heq
    exact List.any_eq_false.1 hall d hd (heq ▸ h)
  simp only [List.forall_mem_cons] at hne
  simp [isWordChar, isSpace, punctuation?, hne]

/-- A number is no name. -/
theorem ne_name_of_isNumeralChar {cs : List Char} (h : ∀ c ∈ cs, isNumeralChar c = true) :
    ∀ name ∈ ["null".toList, "true".toList, "false".toList], cs ≠ name := by
  have hall : ∀ name ∈ ["null".toList, "true".toList, "false".toList],
      name.all isNumeralChar = false := by
    decide
  intro name hmem heq
  have htrue := List.all_eq_true.2 h
  rw [heq, hall name hmem] at htrue
  cases htrue

theorem tokens?_number {cs rest : List Char} {j : Json} (h : number? cs = some j)
    (hrest : EndsWord rest) :
    tokens? (cs ++ rest) = (tokens? rest).map (.scalar j :: ·) := by
  obtain ⟨hne, hchars⟩ := isNumeralChar_of_number? h
  have hname := ne_name_of_isNumeralChar hchars
  have hword : word? cs = some (.scalar j) := by
    rw [word?, if_neg (hname _ (by simp)), if_neg (hname _ (by simp)), if_neg (hname _ (by simp)),
      h, Option.map_some]
  exact tokens?_word hword hne (fun c hc => isWordChar_of_isNumeralChar (hchars c hc)) hrest

/-- A number that is written with a point or with an exponent is no integer. -/
theorem number?_eq_real {cs : List Char} {n : Numeral} {x : Float} (hn : numeral? cs = some n)
    (hx : double? n = some x) (hmark : '.' ∈ cs ∨ 'e' ∈ cs) : number? cs = some (.real x) := by
  have hreal : ¬ (n.fraction = [] ∧ n.exponent = none) := by
    intro ⟨hfraction, hexponent⟩
    obtain ⟨tail, htext, -, hwhole, -, htail⟩ := numeral?_eq_some hn
    rw [hexponent] at htail
    obtain rfl := Number.eq_nil_of_exponentOf htail
    have hinteger : ∀ c ∈ cs, c = '-' ∨ c.isDigit = true := by
      rw [htext, if_pos hfraction, List.append_nil, List.append_nil, List.forall_mem_append]
      refine ⟨?_, fun c hc => .inr (hwhole c hc)⟩
      cases n.negative <;> simp [signText]
    rcases hmark with hmark | hmark
    · exact absurd (hinteger _ hmark) (by decide)
    · exact absurd (hinteger _ hmark) (by decide)
  simp only [number?, hn, hx, if_neg hreal, Option.bind_eq_bind, Option.bind_some]
  rfl

/-! ## Integers -/

theorem numeral?_toDigits (negative : Bool) (n : Nat) :
    numeral? (signText negative ++ Nat.toDigits 10 n) =
      some ⟨negative, Nat.toDigits 10 n, [], none⟩ := by
  have hds := Number.isDigits_toDigits n
  have hzero : (Nat.toDigits 10 n).head? = some '0' → Nat.toDigits 10 n = ['0'] := by
    intro h
    rcases Nat.eq_zero_or_pos n with rfl | hn
    · rfl
    · exact absurd h (Number.head?_toDigits hn)
  have hguard : (guard (Nat.toDigits 10 n ≠ [] ∧
      ((Nat.toDigits 10 n).head? = some '0' → Nat.toDigits 10 n = ['0'])) : Option Unit) =
      some () := if_pos ⟨hds.ne_nil, hzero⟩
  have hspan := Number.digitSpan_of_all hds.isDigit
  have hsign : ∀ cs, Nat.toDigits 10 n ≠ '-' :: cs := by
    intro cs h
    exact absurd (hds.isDigit '-' (h ▸ List.mem_cons_self)) (by decide)
  unfold numeral?
  split
  rename_i sign unsigned hcut
  obtain ⟨rfl, rfl⟩ : sign = negative ∧ unsigned = Nat.toDigits 10 n := by
    cases negative with
    | true =>
      cases hcut
      exact ⟨rfl, rfl⟩
    | false =>
      rw [signText, if_neg Bool.false_ne_true, List.nil_append] at hcut
      split at hcut
      · rename_i hminus
        exact absurd hminus (hsign _)
      · cases hcut
        exact ⟨rfl, rfl⟩
  rw [hspan]
  dsimp only
  rw [hguard]
  rfl

theorem toList_repr (n : Int) :
    n.repr.toList = signText (decide (n < 0)) ++ Nat.toDigits 10 n.natAbs := by
  cases n with
  | ofNat m => simp [Int.repr, signText]
  | negSucc m => simp [Int.repr, signText]

/-- An integer of 64 bits reads back. -/
theorem number?_repr {n : Int} (h : isWord n = true) : number? n.repr.toList = some (.integer n) := by
  have hvalue : (if decide (n < 0) = true then -(n.natAbs : Int) else n.natAbs) = n := by
    simp only [decide_eq_true_eq]
    omega
  have hzero : (decide (n < 0) && n.natAbs == 0) = false := by
    rw [Bool.and_eq_false_iff, decide_eq_false_iff_not, beq_eq_false_iff_ne]
    omega
  simp only [toList_repr, number?, numeral?_toDigits, Numeral.digits, List.append_nil,
    Nat.ofDigitChars_ten_toDigits, hvalue, h, hzero, Option.bind_eq_bind, Option.bind_some]
  rfl

end Formula.Json
