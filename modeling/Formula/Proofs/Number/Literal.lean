import Formula.Number.Numeral
import Formula.Proofs.Text.Cut
import Mathlib.Data.List.TakeWhile
import Mathlib.Data.Option.Basic
/-!
# Decimal literals

The literals `[+-]?(D+[.]?D*|[.]D+)([eE][+-]?D+)?` as a grammar, with one inductive type for each part.
Reading takes the parts off one after the other; as no part begins with a character that could go on
with the part before, it finds the parts that the literal was put together from.

Results:
* `IsLiteral`: the literals, and the numerals that they spell.
* `Numeral.read?_eq_some_iff`: reading accepts the literals, and nothing else.
* `IsLiteral.isNumeralChar`, `IsLiteral.exists_isDigit`, `IsLiteral.closed`: what stands in a literal,
  what has to, and what comes last.
-/
namespace Formula.Number

/-! ## The grammar -/

/-- One digit or more, and nothing else. -/
structure IsDigits (ds : List Char) : Prop where
  ne_nil : ds ≠ []
  isDigit : ∀ c ∈ ds, c.isDigit = true

/-- An optional sign, and whether it is `-`. -/
inductive IsSign : List Char → Bool → Prop where
  | absent : IsSign [] false
  | plus : IsSign ['+'] false
  | minus : IsSign ['-'] true

/-- Digits with an optional point among them or at either end, and the digits on either side of it. -/
inductive IsMantissa : List Char → List Char → List Char → Prop where
  | plain {whole} : IsDigits whole → IsMantissa whole whole []
  | point {whole fraction} : IsDigits whole → (∀ c ∈ fraction, c.isDigit = true) →
    IsMantissa (whole ++ '.' :: fraction) whole fraction
  | fraction {fraction} : IsDigits fraction → IsMantissa ('.' :: fraction) [] fraction

/-- An optional exponent part, and the exponent. -/
inductive IsExponent : List Char → Option Int → Prop where
  | absent : IsExponent [] none
  | present {mark sign negative ds} : mark = 'e' ∨ mark = 'E' → IsSign sign negative → IsDigits ds →
    IsExponent (mark :: (sign ++ ds))
      (some (if negative then -(Nat.ofDigitChars 10 ds 0 : Int) else Nat.ofDigitChars 10 ds 0))

/-- A decimal literal, and the numeral that it spells. -/
inductive IsLiteral : List Char → Numeral → Prop where
  | mk {sign mantissa tail negative whole fraction exponent} : IsSign sign negative →
    IsMantissa mantissa whole fraction → IsExponent tail exponent →
    IsLiteral (sign ++ (mantissa ++ tail)) ⟨negative, whole, fraction, exponent⟩

/-! ## Runs of digits -/

theorem digitSpan_append {ds rest : List Char} (hds : ∀ c ∈ ds, c.isDigit = true)
    (hrest : ∀ c ∈ rest.head?, c.isDigit = false) : digitSpan (ds ++ rest) = (ds, rest) := by
  obtain ⟨htake, hdrop⟩ := takeWhile_append_of_boundary hds hrest
  rw [digitSpan, htake, hdrop]

theorem digitSpan_of_all {ds : List Char} (hds : ∀ c ∈ ds, c.isDigit = true) :
    digitSpan ds = (ds, []) := by
  rw [digitSpan, List.takeWhile_eq_self_iff.2 hds, List.dropWhile_eq_nil_iff.2 hds]

theorem digitSpan_eq {cs ds rest : List Char} (h : digitSpan cs = (ds, rest)) :
    cs = ds ++ rest ∧ ∀ c ∈ ds, c.isDigit = true := by
  obtain ⟨rfl, rfl⟩ := Prod.mk.inj h
  exact ⟨List.takeWhile_append_dropWhile.symm, fun _ hc => List.mem_takeWhile_imp hc⟩

/-! ## What reading accepts -/

section Reading

variable {cs sign tail mantissa whole fraction rest : List Char} {negative : Bool} {e : Option Int}

theorem isSign_of_signOf (h : signOf cs = (negative, rest)) :
    ∃ sign, cs = sign ++ rest ∧ IsSign sign negative := by
  unfold signOf at h
  split at h
  · cases h
    exact ⟨['-'], rfl, .minus⟩
  · cases h
    exact ⟨['+'], rfl, .plus⟩
  · cases h
    exact ⟨[], rfl, .absent⟩

theorem isExponent_of_exponentOf (h : exponentOf tail = some (e, [])) : IsExponent tail e := by
  cases tail with
  | nil =>
    cases h
    exact .absent
  | cons mark rest =>
    unfold exponentOf at h
    dsimp only at h
    split at h
    · rename_i hmark
      rcases hsign : signOf rest with ⟨negative, unsigned⟩
      rcases hspan : digitSpan unsigned with ⟨ds, left⟩
      obtain ⟨sign, rfl, hsigned⟩ := isSign_of_signOf hsign
      obtain ⟨rfl, hdigits⟩ := digitSpan_eq hspan
      rw [hsign] at h
      dsimp only at h
      rw [hspan] at h
      cases ds with
      | nil => cases h
      | cons d ds =>
        cases h
        rw [List.append_nil]
        exact .present hmark hsigned ⟨List.cons_ne_nil d ds, hdigits⟩
    · cases h

theorem isLiteral_of_read? {n : Numeral} (h : Numeral.read? cs = some n) : IsLiteral cs n := by
  rcases hsign : signOf cs with ⟨negative, unsigned⟩
  rcases hwhole : digitSpan unsigned with ⟨whole, rest⟩
  obtain ⟨sign, rfl, hsigned⟩ := isSign_of_signOf hsign
  obtain ⟨rfl, hdigits⟩ := digitSpan_eq hwhole
  unfold Numeral.read? at h
  rw [hsign] at h
  dsimp only at h
  rw [hwhole] at h
  dsimp only at h
  simp only [Option.bind_eq_bind, Option.bind_eq_some_iff] at h
  obtain ⟨_, hguard, ⟨e, left⟩, hexponent, _, hleft, h⟩ := h
  obtain rfl : left = [] := by simpa [guard] using hleft
  cases h
  split at hexponent
  · rename_i digits
    rcases hfraction : digitSpan digits with ⟨fraction, tail⟩
    obtain ⟨rfl, hfractional⟩ := digitSpan_eq hfraction
    have htail : IsExponent tail e := isExponent_of_exponentOf (by simpa [hfraction] using hexponent)
    have hne : whole ≠ [] ∨ fraction ≠ [] := by
      by_contra hnil
      simp [hfraction, hnil, guard] at hguard
    dsimp only
    by_cases hempty : whole = []
    · subst hempty
      have hdigits : IsDigits fraction := ⟨hne.resolve_left fun h => h rfl, hfractional⟩
      have hliteral := IsLiteral.mk hsigned (.fraction hdigits) htail
      exact hliteral
    · have hparts := IsLiteral.mk hsigned (.point ⟨hempty, hdigits⟩ hfractional) htail
      rwa [List.append_assoc] at hparts
  · have hne : whole ≠ [] := by
      rintro rfl
      simp [guard] at hguard
    exact .mk hsigned (.plain ⟨hne, hdigits⟩) (isExponent_of_exponentOf hexponent)

/-! ## What is read -/

/-- Neither sign begins the text. -/
def Unsigned (cs : List Char) : Prop := ∀ c ∈ cs.head?, c ≠ '-' ∧ c ≠ '+'

theorem signOf_append (h : IsSign sign negative) (hcs : Unsigned cs) :
    signOf (sign ++ cs) = (negative, cs) := by
  cases h with
  | plus => rfl
  | minus => rfl
  | absent =>
    show signOf cs = _
    unfold signOf
    split
    · exact absurd rfl (hcs _ rfl).1
    · exact absurd rfl (hcs _ rfl).2
    · rfl

theorem ne_sign_of_isDigit {c : Char} (h : c.isDigit = true) : c ≠ '-' ∧ c ≠ '+' := by
  constructor <;> rintro rfl <;> cases h

theorem IsDigits.unsigned {ds : List Char} (h : IsDigits ds) (rest : List Char) :
    Unsigned (ds ++ rest) := by
  obtain ⟨d, ds, rfl⟩ := List.exists_cons_of_ne_nil h.ne_nil
  intro c hc
  cases hc
  exact ne_sign_of_isDigit (h.isDigit d List.mem_cons_self)

theorem IsMantissa.exists_head (h : IsMantissa mantissa whole fraction) :
    ∃ c cs, mantissa = c :: cs ∧ (c.isDigit = true ∨ c = '.') := by
  have hdigits {ds : List Char} (hds : IsDigits ds) : ∃ c cs, ds = c :: cs ∧ c.isDigit = true := by
    obtain ⟨d, ds, rfl⟩ := List.exists_cons_of_ne_nil hds.ne_nil
    exact ⟨d, ds, rfl, hds.isDigit d List.mem_cons_self⟩
  cases h with
  | plain hwhole =>
    obtain ⟨c, cs, rfl, hc⟩ := hdigits hwhole
    exact ⟨c, cs, rfl, .inl hc⟩
  | point hwhole _ =>
    obtain ⟨c, cs, rfl, hc⟩ := hdigits hwhole
    exact ⟨c, _, List.cons_append, .inl hc⟩
  | fraction _ => exact ⟨'.', _, rfl, .inr rfl⟩

theorem IsMantissa.unsigned (h : IsMantissa mantissa whole fraction) (rest : List Char) :
    Unsigned (mantissa ++ rest) := by
  obtain ⟨c, cs, rfl, hc⟩ := h.exists_head
  intro d hd
  cases hd
  rcases hc with hdigit | rfl
  · exact ne_sign_of_isDigit hdigit
  · decide

theorem IsExponent.exponentOf_eq (h : IsExponent tail e) : exponentOf tail = some (e, []) := by
  cases h with
  | absent => rfl
  | @present mark sign negative ds hmark hsign hds =>
    have hsigned := signOf_append hsign (hds.unsigned [])
    rw [List.append_nil] at hsigned
    obtain ⟨d, ds, rfl⟩ := List.exists_cons_of_ne_nil hds.ne_nil
    simp only [exponentOf, if_pos hmark, hsigned, digitSpan_of_all hds.isDigit]

/-- What follows the digits of a literal is no further digit, and no point. -/
theorem IsExponent.head (h : IsExponent tail e) :
    ∀ c ∈ tail.head?, c.isDigit = false ∧ c ≠ '.' := by
  cases h with
  | absent => simp
  | present hmark _ _ =>
    intro c hc
    cases hc
    rcases hmark with rfl | rfl <;> decide

theorem IsLiteral.read?_eq {n : Numeral} (h : IsLiteral cs n) : Numeral.read? cs = some n := by
  obtain ⟨hsign, hmantissa, htail⟩ := h
  rename_i sign mantissa tail negative whole fraction exponent
  have hafter : ∀ c ∈ tail.head?, c.isDigit = false := fun c hc => (htail.head c hc).1
  unfold Numeral.read?
  rw [signOf_append hsign (hmantissa.unsigned tail)]
  dsimp only
  cases hmantissa with
  | plain hwhole =>
    rw [digitSpan_append hwhole.isDigit hafter]
    dsimp only
    split
    · exact absurd rfl (htail.head '.' rfl).2
    · simp [guard, hwhole.ne_nil, htail.exponentOf_eq]
  | point hwhole hfraction =>
    rw [List.append_assoc, digitSpan_append hwhole.isDigit (by simp)]
    simp [guard, hwhole.ne_nil, digitSpan_append hfraction hafter, htail.exponentOf_eq]
  | fraction hfraction =>
    have hnone : digitSpan ('.' :: fraction ++ tail) = ([], '.' :: (fraction ++ tail)) := rfl
    rw [hnone]
    simp [guard, hfraction.ne_nil, digitSpan_append hfraction.isDigit hafter, htail.exponentOf_eq]

/-- **Reading accepts the literals**, as the numerals that they spell, and nothing else. -/
theorem Numeral.read?_eq_some_iff {n : Numeral} : Numeral.read? cs = some n ↔ IsLiteral cs n :=
  ⟨isLiteral_of_read?, IsLiteral.read?_eq⟩

/-! ## The characters of a literal -/

/-- The characters of decimal literals. -/
def isNumeralChar (c : Char) : Bool := c.isDigit || ['.', '+', '-', 'e', 'E'].contains c

theorem isNumeralChar_of_isDigit {c : Char} (h : c.isDigit = true) : isNumeralChar c = true := by
  rw [isNumeralChar, h, Bool.true_or]

theorem toNat_of_isDigit {c : Char} (h : c.isDigit = true) : 48 ≤ c.toNat ∧ c.toNat ≤ 57 := by
  rw [Char.isDigit, Bool.and_eq_true, decide_eq_true_eq, decide_eq_true_eq] at h
  exact ⟨UInt32.le_iff_toNat_le.1 h.1, UInt32.le_iff_toNat_le.1 h.2⟩

/-- No blank stands in a literal. -/
theorem isBlank_of_isNumeralChar {c : Char} (h : isNumeralChar c = true) : isBlank c = false := by
  have hblank : ∀ n ∈ blankCodes, isNumeralChar (Char.ofNat n) = false := by decide
  rw [Bool.eq_false_iff]
  intro hc
  have hmem := hblank c.toNat (List.contains_iff_mem.1 hc)
  rw [Char.ofNat_toNat, h] at hmem
  cases hmem

theorem IsSign.isNumeralChar (h : IsSign sign negative) : ∀ c ∈ sign, isNumeralChar c = true := by
  cases h <;> exact List.all_eq_true.1 rfl

theorem IsDigits.isNumeralChar {ds : List Char} (h : IsDigits ds) :
    ∀ c ∈ ds, isNumeralChar c = true :=
  fun c hc => isNumeralChar_of_isDigit (h.isDigit c hc)

theorem IsMantissa.isNumeralChar (h : IsMantissa mantissa whole fraction) :
    ∀ c ∈ mantissa, isNumeralChar c = true := by
  cases h with
  | plain hwhole => exact hwhole.isNumeralChar
  | point hwhole hfraction =>
    refine List.forall_mem_append.2 ⟨hwhole.isNumeralChar, List.forall_mem_cons.2 ⟨by decide, ?_⟩⟩
    exact fun c hc => isNumeralChar_of_isDigit (hfraction c hc)
  | fraction hfraction => exact List.forall_mem_cons.2 ⟨by decide, hfraction.isNumeralChar⟩

theorem IsExponent.isNumeralChar (h : IsExponent tail e) : ∀ c ∈ tail, isNumeralChar c = true := by
  cases h with
  | absent => simp
  | present hmark hsign hds =>
    refine List.forall_mem_cons.2
      ⟨?_, List.forall_mem_append.2 ⟨hsign.isNumeralChar, hds.isNumeralChar⟩⟩
    rcases hmark with rfl | rfl <;> decide

/-- Nothing else stands in a literal. -/
theorem IsLiteral.isNumeralChar {n : Numeral} (h : IsLiteral cs n) :
    ∀ c ∈ cs, isNumeralChar c = true := by
  obtain ⟨hsign, hmantissa, htail⟩ := h
  exact List.forall_mem_append.2 ⟨hsign.isNumeralChar,
    List.forall_mem_append.2 ⟨hmantissa.isNumeralChar, htail.isNumeralChar⟩⟩

theorem IsDigits.exists_isDigit {ds : List Char} (h : IsDigits ds) : ∃ c ∈ ds, c.isDigit = true := by
  obtain ⟨d, ds, rfl⟩ := List.exists_cons_of_ne_nil h.ne_nil
  exact ⟨d, List.mem_cons_self, h.isDigit d List.mem_cons_self⟩

theorem IsMantissa.exists_isDigit (h : IsMantissa mantissa whole fraction) :
    ∃ c ∈ mantissa, c.isDigit = true := by
  cases h with
  | plain hwhole => exact hwhole.exists_isDigit
  | point hwhole _ =>
    obtain ⟨c, hc, hdigit⟩ := hwhole.exists_isDigit
    exact ⟨c, List.mem_append_left _ hc, hdigit⟩
  | fraction hfraction =>
    obtain ⟨c, hc, hdigit⟩ := hfraction.exists_isDigit
    exact ⟨c, List.mem_cons_of_mem _ hc, hdigit⟩

theorem IsLiteral.exists_isDigit {n : Numeral} (h : IsLiteral cs n) :
    ∃ c ∈ cs, c.isDigit = true := by
  obtain ⟨-, hmantissa, -⟩ := h
  obtain ⟨c, hc, hdigit⟩ := hmantissa.exists_isDigit
  exact ⟨c, List.mem_append_right _ (List.mem_append_left _ hc), hdigit⟩

/-- What stands on either side of the point are digits. -/
theorem IsLiteral.isDigit {n : Numeral} (h : IsLiteral cs n) :
    ∀ c ∈ n.whole ++ n.fraction, c.isDigit = true := by
  obtain ⟨-, hmantissa, -⟩ := h
  cases hmantissa with
  | plain hwhole =>
    rw [List.append_nil]
    exact hwhole.isDigit
  | point hwhole hfraction => exact List.forall_mem_append.2 ⟨hwhole.isDigit, hfraction⟩
  | fraction hfraction => exact hfraction.isDigit

/-- A digit or a point comes last in the text. -/
def Closed (cs : List Char) : Prop := ∃ init c, cs = init ++ [c] ∧ (c.isDigit = true ∨ c = '.')

theorem Closed.append_left (xs : List Char) (h : Closed cs) : Closed (xs ++ cs) := by
  obtain ⟨init, c, rfl, hc⟩ := h
  exact ⟨xs ++ init, c, (List.append_assoc _ _ _).symm, hc⟩

theorem IsDigits.closed {ds : List Char} (h : IsDigits ds) : Closed ds := by
  obtain rfl | ⟨init, c, rfl⟩ := List.eq_nil_or_concat ds
  · exact absurd rfl h.ne_nil
  · rw [List.concat_eq_append] at h ⊢
    exact ⟨init, c, rfl, .inl (h.isDigit c (List.mem_append_right _ (List.mem_singleton_self c)))⟩

theorem IsMantissa.closed (h : IsMantissa mantissa whole fraction) : Closed mantissa := by
  cases h with
  | plain hwhole => exact hwhole.closed
  | point hwhole hfraction =>
    refine Closed.append_left _ ?_
    cases fraction with
    | nil => exact ⟨[], '.', rfl, .inr rfl⟩
    | cons c fraction =>
      exact Closed.append_left ['.'] (IsDigits.closed ⟨List.cons_ne_nil c fraction, hfraction⟩)
  | fraction hfraction => exact Closed.append_left ['.'] hfraction.closed

/-- No sign and no exponent mark comes last in a literal. -/
theorem IsLiteral.closed {n : Numeral} (h : IsLiteral cs n) : Closed cs := by
  obtain ⟨-, hmantissa, htail⟩ := h
  refine Closed.append_left _ ?_
  cases htail with
  | absent =>
    rw [List.append_nil]
    exact hmantissa.closed
  | present _ _ hds => exact Closed.append_left _ (Closed.append_left [_] (hds.closed.append_left _))

end Reading

end Formula.Number
