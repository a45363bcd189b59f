import Formula.Number.Layout
import Formula.Proofs.Number.Literal
import Formula.Proofs.Number.Shortest
/-!
# Number texts

A layout spells the shortest decimal of a number with a sign, a whole part, a fraction and an
exponent, and moves the point between them. Reading puts them together to a numeral that denotes the
same decimal, so that the number read is the number written.

Results:
* `Numeral.Spells.isLiteral`: the parts of a numeral one after the other are a literal.
* `exists_spells_plainDigits`, `exists_spells_scientificDigits`: what the spellings denote.
* `Layout.exists_isLiteral_write`: the text of a finite number is a literal for its shortest decimal.
* `Layout.exists_read?_write`: the text of a finite number reads back as this number.
* `Layout.mem_write`: there is a point or an exponent in the text of a finite number.
* `write_of_not_isFinite`: the texts of the other numbers.
-/
namespace Formula.Number

/-! ## The parts of a numeral -/

def Numeral.value (n : Numeral) : ℚ := n.digits * 10 ^ n.scale

theorem Numeral.value_nonneg (n : Numeral) : 0 ≤ n.value := by
  unfold value
  positivity

def signText (negative : Bool) : List Char := if negative then ['-'] else []

/-- The text shows the parts of the numeral after its sign. -/
structure Numeral.Spells (n : Numeral) (cs : List Char) : Prop where
  whole : IsDigits n.whole
  fraction : ∀ c ∈ n.fraction, c.isDigit = true
  text : ∃ point tail, cs = n.whole ++ (point ++ tail) ∧
    (point = '.' :: n.fraction ∨ point = [] ∧ n.fraction = []) ∧
    exponentOf tail = some (n.exponent, [])

theorem eq_nil_of_exponentOf {tail : List Char} (h : exponentOf tail = some (none, [])) :
    tail = [] := by
  cases tail with
  | nil => rfl
  | cons c rest =>
    unfold exponentOf at h
    dsimp only at h
    split at h
    · split at h <;> cases h
    · cases h

theorem isSign_signText (negative : Bool) : IsSign (signText negative) negative := by
  cases negative with
  | false => exact .absent
  | true => exact .minus

theorem Numeral.Spells.isLiteral {n : Numeral} {cs : List Char} (h : n.Spells cs) :
    IsLiteral (signText n.negative ++ cs) n := by
  obtain ⟨hwhole, hfraction, point, tail, rfl, hpoint, htail⟩ := h
  have hexponent := isExponent_of_exponentOf htail
  have hsign := isSign_signText n.negative
  obtain ⟨negative, whole, fraction, exponent⟩ := n
  rcases hpoint with rfl | ⟨rfl, rfl⟩
  · have hliteral := IsLiteral.mk hsign (.point hwhole hfraction) hexponent
    rwa [List.append_assoc] at hliteral
  · exact .mk hsign (.plain hwhole) hexponent

/-! ## Where the point stands -/

theorem isDigits_toDigits (n : Nat) : IsDigits (Nat.toDigits 10 n) :=
  ⟨Nat.toDigits_ne_nil, fun _ => Nat.isDigit_of_mem_toDigits (by decide) (by decide)⟩

theorem isDigits_zero : IsDigits ['0'] := ⟨by decide, List.all_eq_true.1 rfl⟩

theorem isDigit_of_mem_zeros {k : Nat} : ∀ c ∈ List.replicate k '0', c.isDigit = true := by
  intro c hc
  rw [List.eq_of_mem_replicate hc]
  decide

theorem ofDigitChars_zeros_append (k : Nat) (ds : List Char) :
    Nat.ofDigitChars 10 (List.replicate k '0' ++ ds) 0 = Nat.ofDigitChars 10 ds 0 := by
  rw [Nat.ofDigitChars_append, Nat.ofDigitChars_replicate_zero, Nat.mul_zero]

theorem ofDigitChars_append_zeros (k : Nat) (ds : List Char) :
    Nat.ofDigitChars 10 (ds ++ List.replicate k '0') 0 = 10 ^ k * Nat.ofDigitChars 10 ds 0 := by
  rw [Nat.ofDigitChars_append, Nat.ofDigitChars_replicate_zero]

theorem Numeral.spells_plain {negative : Bool} {whole fraction : List Char} (hw : IsDigits whole)
    (hf : ∀ c ∈ fraction, c.isDigit = true) :
    Numeral.Spells ⟨negative, whole, fraction, none⟩ (whole ++ '.' :: fraction) :=
  ⟨hw, hf, '.' :: fraction, [], by simp, .inl rfl, rfl⟩

variable {ds : List Char}

theorem exists_spells_plainDigits (hds : IsDigits ds) (negative : Bool) (e : ℤ) :
    ∃ n : Numeral, n.negative = negative ∧ n.Spells (plainDigits ds e) ∧
      n.value = Nat.ofDigitChars 10 ds 0 * 10 ^ e := by
  have hlength : 0 < ds.length := List.length_pos_iff.2 hds.ne_nil
  unfold plainDigits
  dsimp only
  split
  · rename_i he
    have hwhole : IsDigits (ds ++ List.replicate e.toNat '0') := by
      refine ⟨by simp [hds.ne_nil], ?_⟩
      intro c hc
      exact (List.mem_append.1 hc).elim (hds.isDigit c) (isDigit_of_mem_zeros c)
    have hdigits : ds ++ List.replicate e.toNat '0' ++ ['0'] =
        ds ++ List.replicate (e.toNat + 1) '0' := by
      rw [List.append_assoc, ← List.replicate_succ']
    refine ⟨_, rfl, Numeral.spells_plain hwhole isDigits_zero.isDigit, ?_⟩
    have hpow : (10 : ℚ) ^ e = 10 ^ (e.toNat + 1) * 10 ^ (-1 : ℤ) := by
      rw [← zpow_natCast, ← zpow_add₀ (by norm_num)]
      congr 1
      omega
    simp only [Numeral.value, Numeral.digits, Numeral.scale, hdigits, ofDigitChars_append_zeros]
    push_cast
    rw [hpow]
    simp
    ring
  split
  · rename_i he hw
    have hwhole : IsDigits (ds.take (ds.length + e).toNat) := by
      refine ⟨?_, fun c hc => hds.isDigit c (List.mem_of_mem_take hc)⟩
      rw [← List.length_pos_iff, List.length_take]
      omega
    refine ⟨_, rfl, Numeral.spells_plain hwhole
      fun c hc => hds.isDigit c (List.mem_of_mem_drop hc), ?_⟩
    simp only [Numeral.value, Numeral.digits, Numeral.scale, List.take_append_drop,
      Option.getD_none, List.length_drop]
    congr 2
    omega
  · rename_i he hw
    refine ⟨_, rfl, Numeral.spells_plain isDigits_zero fun c hc =>
      (List.mem_append.1 hc).elim (isDigit_of_mem_zeros c) (hds.isDigit c), ?_⟩
    simp only [Numeral.value, Numeral.digits, Numeral.scale, List.singleton_append,
      ← List.cons_append, ← List.replicate_succ, ofDigitChars_zeros_append, Option.getD_none,
      List.length_append, List.length_replicate]
    congr 2
    omega

/-! ## Exponents -/

def exponentSign (plus : Bool) (e : ℤ) : List Char :=
  if e < 0 then ['-'] else if plus then ['+'] else []

theorem isSign_exponentSign (plus : Bool) (e : ℤ) : IsSign (exponentSign plus e) (e < 0) := by
  unfold exponentSign
  split
  · rename_i he
    rw [decide_eq_true he]
    exact .minus
  · rename_i he
    rw [decide_eq_false he]
    cases plus with
    | true => exact .plus
    | false => exact .absent

theorem isExponent_text {mark : Char} (hmark : mark = 'e' ∨ mark = 'E') (plus : Bool) (e : ℤ) :
    IsExponent (mark :: (exponentSign plus e ++ Nat.toDigits 10 e.natAbs)) (some e) := by
  have hexponent :=
    IsExponent.present hmark (isSign_exponentSign plus e) (isDigits_toDigits e.natAbs)
  have hsigned : (if e < 0 then -(e.natAbs : ℤ) else e.natAbs) = e := by
    split <;> omega
  simpa only [Nat.ofDigitChars_ten_toDigits, decide_eq_true_eq, hsigned] using hexponent

theorem exponentOf_text {mark : Char} (hmark : mark = 'e' ∨ mark = 'E') (plus : Bool) (e : ℤ) :
    exponentOf (mark :: (exponentSign plus e ++ Nat.toDigits 10 e.natAbs)) = some (some e, []) :=
  (isExponent_text hmark plus e).exponentOf_eq

/-- A zero appended to the digits of a decimal, after the point. -/
theorem ten_mul_zpow_sub_one (d : ℚ) (e : ℤ) : 10 * d * 10 ^ (e - 1) = d * 10 ^ e := by
  rw [zpow_sub_one₀ (by norm_num)]
  ring

theorem exists_spells_scientificDigits (l : Layout) (hmark : l.mark = 'e' ∨ l.mark = 'E')
    (hds : IsDigits ds) (negative : Bool) (e : ℤ) :
    ∃ n : Numeral, n.negative = negative ∧ n.Spells (l.scientificDigits ds e) ∧
      n.value = Nat.ofDigitChars 10 ds 0 * 10 ^ e := by
  obtain ⟨c, cs, rfl⟩ := List.exists_cons_of_ne_nil hds.ne_nil
  have hwhole : IsDigits [c] := ⟨by simp, by simpa using hds.isDigit c List.mem_cons_self⟩
  have htail := exponentOf_text hmark l.plus (((c :: cs).length : ℤ) + e - 1)
  cases cs with
  | nil =>
    have hexponent : (([c].length : ℤ) + e - 1) = e := by simp
    rw [hexponent] at htail
    cases hpoint : l.point with
    | true =>
      refine ⟨⟨negative, [c], ['0'], some e⟩, rfl,
        ⟨hwhole, isDigits_zero.isDigit, ['.', '0'], _, ?_, .inl rfl, htail⟩, ?_⟩
      · simp [Layout.scientificDigits, hpoint, exponentSign]
      · have hdigits := ofDigitChars_append_zeros 1 [c]
        simp only [List.replicate_one, pow_one] at hdigits
        simp only [Numeral.value, Numeral.digits, Numeral.scale, hdigits, Option.getD_some,
          List.length_singleton]
        push_cast
        exact ten_mul_zpow_sub_one _ e
    | false =>
      refine ⟨⟨negative, [c], [], some e⟩, rfl,
        ⟨hwhole, by simp, [], _, ?_, .inr ⟨rfl, rfl⟩, htail⟩, ?_⟩
      · simp [Layout.scientificDigits, hpoint, exponentSign]
      · simp [Numeral.value, Numeral.digits, Numeral.scale]
  | cons d ds =>
    refine ⟨⟨negative, [c], d :: ds, some _⟩, rfl,
      ⟨hwhole, ?_, '.' :: d :: ds, _, ?_, .inl rfl, htail⟩, ?_⟩
    · exact fun c' hc' => hds.isDigit c' (List.mem_cons_of_mem _ hc')
    · simp [Layout.scientificDigits, exponentSign]
    · simp only [Numeral.value, Numeral.digits, Numeral.scale, List.singleton_append,
        Option.getD_some, List.length_cons]
      congr 2
      omega

/-! ## The text of a finite number -/

/-- Either spelling of a decimal denotes it. -/
theorem exists_spells_decimal (l : Layout) (hmark : l.mark = 'e' ∨ l.mark = 'E') (plain : Bool)
    (negative : Bool) (d : Decimal) :
    ∃ n : Numeral, n.negative = negative ∧
      n.Spells (if plain then plainDigits (Nat.toDigits 10 d.digits) d.exponent
        else l.scientificDigits (Nat.toDigits 10 d.digits) d.exponent) ∧
      n.value = d.value := by
  have hds := isDigits_toDigits d.digits
  have hvalue : d.value = Nat.ofDigitChars 10 (Nat.toDigits 10 d.digits) 0 * 10 ^ d.exponent := by
    rw [Decimal.value, Nat.ofDigitChars_ten_toDigits]
  rw [hvalue]
  cases plain with
  | true => exact exists_spells_plainDigits hds negative d.exponent
  | false => exact exists_spells_scientificDigits l hmark hds negative d.exponent

def Layout.unsignedText (l : Layout) (plain : Bool) (m : Nat) (q : Int) : List Char :=
  if m = 0 then ['0', '.', '0']
  else if plain then
    plainDigits (Nat.toDigits 10 (Decimal.shortest l.tie m q).digits)
      (Decimal.shortest l.tie m q).exponent
  else
    l.scientificDigits (Nat.toDigits 10 (Decimal.shortest l.tie m q).digits)
      (Decimal.shortest l.tie m q).exponent

section Finite

variable {l : Layout} {x : Float} {negative : Bool} {m : Nat} {q : Int}

theorem Layout.write_of_finite (l : Layout) (h : parts x = .finite negative m q) :
    l.write x = signText negative ++ l.unsignedText (l.isPlain x) m q := by
  unfold write unsignedText
  rw [h]
  dsimp only
  split <;> rfl

/-- It denotes the shortest decimal. -/
theorem Layout.exists_spells_unsignedText (hmark : l.mark = 'e' ∨ l.mark = 'E')
    (plain negative : Bool) (m : Nat) (q : Int) :
    ∃ n : Numeral, n.negative = negative ∧ n.Spells (l.unsignedText plain m q) ∧
      n.value = if m = 0 then 0 else (Decimal.shortest l.tie m q).value := by
  unfold unsignedText
  split
  · exact ⟨⟨negative, ['0'], ['0'], none⟩, rfl,
      Numeral.spells_plain isDigits_zero isDigits_zero.isDigit, zero_mul _⟩
  · exact exists_spells_decimal l hmark plain negative (Decimal.shortest l.tie m q)

/-- The text of a finite number is a literal, and denotes the shortest decimal of the number. -/
theorem Layout.exists_isLiteral_write (l : Layout) (hmark : l.mark = 'e' ∨ l.mark = 'E')
    (h : parts x = .finite negative m q) : ∃ n, IsLiteral (l.write x) n ∧ n.negative = negative ∧
      n.value = if m = 0 then 0 else (Decimal.shortest l.tie m q).value := by
  obtain ⟨n, rfl, hspells, hvalue⟩ :=
    Layout.exists_spells_unsignedText hmark (l.isPlain x) negative m q
  rw [l.write_of_finite h]
  exact ⟨n, hspells.isLiteral, rfl, hvalue⟩

/-- The shortest decimal of a number is read as this number. -/
theorem toNumber_of_shortest {n : Numeral} {tie : Tie} (h : parts x = .finite n.negative m q)
    (hvalue : n.value = if m = 0 then 0 else (Decimal.shortest tie m q).value) : n.toNumber = x := by
  rw [Numeral.toNumber]
  split at hvalue
  · rename_i hm
    have hdigits : n.digits = 0 := by
      rw [Numeral.value] at hvalue
      exact_mod_cast (mul_eq_zero.1 hvalue).resolve_right (zpow_ne_zero _ (by norm_num))
    rw [hdigits]
    exact ofDecimal_zero (hm ▸ h) _
  · rename_i hm
    refine ofDecimal_eq_of_spans h (Nat.pos_of_ne_zero hm) ?_
    show (Interval.around m q).Spans q n.value
    rw [hvalue]
    exact Decimal.spans_shortest tie (Nat.pos_of_ne_zero hm)

end Finite

/-- The text of a finite number reads back as this number. -/
theorem Layout.exists_read?_write (l : Layout) (hmark : l.mark = 'e' ∨ l.mark = 'E') {x : Float}
    (hx : isFinite x = true) : ∃ n, Numeral.read? (l.write x) = some n ∧ n.toNumber = x := by
  obtain ⟨m, q, hparts⟩ := exists_parts_eq_finite hx
  obtain ⟨n, hliteral, hnegative, hvalue⟩ := l.exists_isLiteral_write hmark hparts
  exact ⟨n, hliteral.read?_eq, toNumber_of_shortest (hnegative ▸ hparts) hvalue⟩

theorem mem_plainDigits (ds : List Char) (e : ℤ) : '.' ∈ plainDigits ds e := by
  unfold plainDigits
  dsimp only
  split
  · simp
  split
  · simp
  · simp

theorem Layout.mem_scientificDigits (l : Layout) (ds : List Char) (e : ℤ) :
    l.mark ∈ l.scientificDigits ds e := by
  simp [scientificDigits]

/-- The text of a finite number shows that it may have a fraction. -/
theorem Layout.mem_write (l : Layout) {x : Float} (hx : isFinite x = true) :
    '.' ∈ l.write x ∨ l.mark ∈ l.write x := by
  obtain ⟨m, q, hparts⟩ := exists_parts_eq_finite hx
  rw [l.write_of_finite hparts]
  unfold unsignedText
  split
  · exact .inl (by simp)
  split
  · exact .inl (List.mem_append_right _ (mem_plainDigits _ _))
  · exact .inr (List.mem_append_right _ (l.mem_scientificDigits _ _))

/-- The texts of the other numbers. -/
theorem write_of_not_isFinite (l : Layout) {x : Float} (hx : isFinite x = false) :
    l.write x ∈ ["NaN".toList, "Infinity".toList, "-Infinity".toList] := by
  unfold Layout.write
  rcases parts_of_not_isFinite hx with h | ⟨negative, h⟩
  · simp [h]
  · cases negative <;> simp [h]

end Formula.Number
