import Formula.Proofs.Json.RoundTrip
/-!
# Texts are read in one way only

No document has the text of another one, in whatever style they are written. For the parts of a document
more is needed: where its text ends can be seen from the text itself, as long as no word goes on there.
Nothing is asked of the numbers: the digits of a double are those of no other, also where reading them
would round to another.

Results:
* `scalar?_write`: names and numbers, from their texts.
* `Discerns`: documents that differ have texts that do, whatever follows them.
* `enclose_inj`: the parts between brackets.
* `WellFormed.discerns`, `WellFormed.write_inj`: documents.
-/
namespace Formula.Json

variable {style : Style} {level : Nat} {i j : Json} {rest rest' : List Char}

/-! ## Names and numbers -/

/-- What the first character of a text tells. -/
inductive Shape where
  /-- A name or a number. -/
  | word
  | string
  | array
  | object

def shape : Json → Shape
  | .string _ => .string
  | .array _ => .array
  | .object _ => .object
  | _ => .word

theorem exists_eq_string (h : j.shape = .string) : ∃ s, j = .string s := by
  cases j with
  | string s => exact ⟨s, rfl⟩
  | _ => cases h

theorem exists_eq_array (h : j.shape = .array) : ∃ items, j = .array items := by
  cases j with
  | array items => exact ⟨items, rfl⟩
  | _ => cases h

theorem exists_eq_object (h : j.shape = .object) : ∃ fields, j = .object fields := by
  cases j with
  | object fields => exact ⟨fields, rfl⟩
  | _ => cases h

/-- The name or the number that a text spells, where a double is the one nearest to its digits. -/
def scalar? (cs : List Char) : Option Json :=
  if cs = "null".toList then some .null
  else if cs = "true".toList then some (.boolean true)
  else if cs = "false".toList then some (.boolean false)
  else if '.' ∈ cs ∨ 'e' ∈ cs then (Number.Numeral.read? cs).map fun n => .real n.toNumber
  else number? cs

theorem scalar?_eq {cs : List Char} (h : ∀ c ∈ cs, Number.isNumeralChar c = true) : scalar? cs =
    if '.' ∈ cs ∨ 'e' ∈ cs then (Number.Numeral.read? cs).map fun n => .real n.toNumber
    else number? cs := by
  have hname := ne_name_of_isNumeralChar h
  rw [scalar?, if_neg (hname _ (by simp)), if_neg (hname _ (by simp)), if_neg (hname _ (by simp))]

theorem isDigit_or_of_mem_repr {n : Int} {c : Char} (h : c ∈ n.repr.toList) :
    c = '-' ∨ c.isDigit = true := by
  rw [toList_repr, List.mem_append] at h
  rcases h with h | h
  · refine .inl ?_
    rw [Number.signText] at h
    split at h
    · exact List.mem_singleton.1 h
    · cases h
  · exact .inr ((Number.isDigits_toDigits _).isDigit c h)

/-- The text of a double is a literal for it. -/
theorem exists_literal_write {x : Float} (hx : Number.isFinite x = true) :
    (∀ c ∈ numberLayout.write x, Number.isNumeralChar c = true) ∧
      ∃ n, Number.Numeral.read? (numberLayout.write x) = some n ∧ n.toNumber = x := by
  obtain ⟨n, hn, hvalue⟩ := numberLayout.exists_read?_write (.inl rfl) hx
  exact ⟨(Number.isLiteral_of_read? hn).isNumeralChar, n, hn, hvalue⟩

/-- A text with a name or a number in it is a word, and it tells what the document is. -/
theorem scalar?_write (hj : j.WellFormed) (h : j.shape = .word) :
    write style level j ≠ [] ∧ (∀ c ∈ write style level j, isWordChar c = true) ∧
      scalar? (write style level j) = some j := by
  cases hj with
  | null => exact ⟨nofun, List.all_eq_true.1 rfl, rfl⟩
  | boolean b =>
    cases b
    · exact ⟨nofun, List.all_eq_true.1 rfl, rfl⟩
    · exact ⟨nofun, List.all_eq_true.1 rfl, rfl⟩
  | @integer n hn =>
    have hnumber := number?_repr hn
    obtain ⟨hne, hchars⟩ := isNumeralChar_of_number? hnumber
    have hinteger : ¬ ('.' ∈ n.repr.toList ∨ 'e' ∈ n.repr.toList) := by
      rintro (hmem | hmem)
      · exact absurd (isDigit_or_of_mem_repr hmem) (by decide)
      · exact absurd (isDigit_or_of_mem_repr hmem) (by decide)
    refine ⟨hne, fun c hc => isWordChar_of_isNumeralChar (hchars c hc), ?_⟩
    rw [write, scalar?_eq hchars, if_neg hinteger, hnumber]
  | @real x hx =>
    obtain ⟨hchars, n, hread, hvalue⟩ := exists_literal_write hx
    have hmark : '.' ∈ numberLayout.write x ∨ 'e' ∈ numberLayout.write x :=
      numberLayout.mem_write hx
    refine ⟨?_, fun c hc => isWordChar_of_isNumeralChar (hchars c hc), ?_⟩
    · rcases hmark with hmark | hmark
      · exact List.ne_nil_of_mem hmark
      · exact List.ne_nil_of_mem hmark
    · rw [write, scalar?_eq hchars, if_pos hmark, hread, Option.map_some, hvalue]
  | string | array | object => cases h

/-! ## Where a text begins -/

def shapeOf (c : Char) : Shape :=
  if isWordChar c then .word else if c = '"' then .string else if c = '[' then .array else .object

theorem Style.exists_enclose (style : Style) (level : Nat) (left right : Char)
    (parts : List (List Char)) : ∃ cs, style.enclose level left right parts = left :: cs := by
  cases parts with
  | nil => exact ⟨_, rfl⟩
  | cons part parts => exact ⟨_, rfl⟩

/-- The first character tells the shape, and does not close an array. -/
theorem WellFormed.exists_write (hj : j.WellFormed) (style : Style) (level : Nat) :
    ∃ c cs, write style level j = c :: cs ∧ shapeOf c = j.shape ∧ c ≠ ']' := by
  have hword (h : j.shape = .word) :
      ∃ c cs, write style level j = c :: cs ∧ shapeOf c = j.shape ∧ c ≠ ']' := by
    obtain ⟨hne, hchars, -⟩ := scalar?_write hj h
    obtain ⟨c, cs, hcs⟩ := List.exists_cons_of_ne_nil hne
    have hc : isWordChar c = true := hchars c (hcs ▸ List.mem_cons_self)
    refine ⟨c, cs, hcs, by rw [shapeOf, if_pos hc, h], ?_⟩
    rintro rfl
    exact absurd hc (by decide)
  cases hj with
  | null | boolean | integer | real => exact hword rfl
  | string s => exact ⟨'"', _, rfl, rfl, by decide⟩
  | @array items _ =>
    obtain ⟨cs, hcs⟩ := style.exists_enclose level '[' ']' (writeItems style (level + 1) items)
    exact ⟨'[', cs, hcs, rfl, by decide⟩
  | @object fields _ _ =>
    obtain ⟨cs, hcs⟩ := style.exists_enclose level '{' '}' (writeFields style (level + 1) fields)
    exact ⟨'{', cs, hcs, rfl, by decide⟩

theorem shape_eq (hi : i.WellFormed) (hj : j.WellFormed)
    (h : write style level i ++ rest = write style level j ++ rest') : i.shape = j.shape := by
  obtain ⟨c, cs, hcs, hc, -⟩ := hi.exists_write style level
  obtain ⟨d, ds, hds, hd, -⟩ := hj.exists_write style level
  rw [hcs, hds] at h
  rw [← hc, ← hd, (List.cons.inj h).1]

/-! ## Parts between brackets -/

/-- Of two documents or other parts, the texts differ when the parts do, also with something after them,
where no word goes on. -/
def Discerns {α : Type} (text : α → List Char) (x y : α) : Prop :=
  ∀ rest rest', EndsWord rest → EndsWord rest' → text x ++ rest = text y ++ rest' →
    x = y ∧ rest = rest'

section Enclose

variable {α : Type} {text : α → List Char} {x y : α} {xs ys : List α}

/-- What ends a list of parts. -/
structure Closes (close : List Char) : Prop where
  endsWord : ∀ rest, EndsWord (close ++ rest)
  ne_comma : ∀ rest rest', close ++ rest ≠ ',' :: rest'

theorem intercalate_inj {sep close : List Char} (hclose : Closes close)
    (htext : ∀ x' ∈ x :: xs, ∀ y' ∈ y :: ys, Discerns text x' y')
    (h : List.intercalate (',' :: sep) ((x :: xs).map text) ++ (close ++ rest) =
      List.intercalate (',' :: sep) ((y :: ys).map text) ++ (close ++ rest')) :
    x :: xs = y :: ys ∧ rest = rest' := by
  have hcomma (rest : List Char) : EndsWord (',' :: rest) := endsWord_punctuation rfl rest
  induction xs generalizing x y ys with
  | nil =>
    cases ys with
    | nil =>
      rw [List.map_singleton, List.map_singleton, List.intercalate_singleton,
        List.intercalate_singleton] at h
      obtain ⟨rfl, hrest⟩ :=
        htext x (by simp) y (by simp) _ _ (hclose.endsWord _) (hclose.endsWord _) h
      exact ⟨rfl, List.append_cancel_left hrest⟩
    | cons z ys =>
      simp only [List.map_cons, List.map_nil, List.intercalate_singleton,
        List.intercalate_cons_cons, List.append_assoc, List.cons_append] at h
      obtain ⟨-, h⟩ := htext x (by simp) y (by simp) _ _ (hclose.endsWord _) (hcomma _) h
      exact absurd h (hclose.ne_comma _ _)
  | cons x' xs ih =>
    cases ys with
    | nil =>
      simp only [List.map_cons, List.map_nil, List.intercalate_singleton,
        List.intercalate_cons_cons, List.append_assoc, List.cons_append] at h
      obtain ⟨-, h⟩ := htext x (by simp) y (by simp) _ _ (hcomma _) (hclose.endsWord _) h
      exact absurd h.symm (hclose.ne_comma _ _)
    | cons y' ys =>
      simp only [List.map_cons, List.intercalate_cons_cons, List.append_assoc,
        List.cons_append] at h
      obtain ⟨rfl, hmore⟩ := htext x (by simp) y (by simp) _ _ (hcomma _) (hcomma _) h
      obtain ⟨hxs, hrest⟩ := ih (fun a ha b hb => htext a (List.mem_cons_of_mem _ ha) b
        (List.mem_cons_of_mem _ hb)) (List.append_cancel_left (List.cons.inj hmore).2)
      exact ⟨by rw [hxs], hrest⟩

theorem closes_lineBreak (hstyle : style.Blank) (level : Nat) {right : Char} {closing : Token}
    (hright : punctuation? right = some closing) (hcomma : right ≠ ',') :
    Closes (style.lineBreak level ++ [right]) where
  endsWord rest := by
    rw [List.append_assoc]
    exact (endsWord_punctuation hright rest).blanks (hstyle.lineBreak level)
  ne_comma rest rest' h := by
    have hblank := hstyle.lineBreak level
    cases hbreak : style.lineBreak level with
    | nil =>
      rw [hbreak] at h
      exact hcomma (List.cons.inj h).1
    | cons b bs =>
      rw [hbreak] at h hblank
      have hb := hblank b List.mem_cons_self
      rw [(List.cons.inj h).1] at hb
      exact absurd hb (by decide)

theorem enclose_cons (style : Style) (level : Nat) (left right : Char) (part : List Char)
    (parts : List (List Char)) (rest : List Char) :
    style.enclose level left right (part :: parts) ++ rest =
      left :: (style.lineBreak (level + 1) ++
        (List.intercalate (',' :: style.lineBreak (level + 1)) (part :: parts) ++
          (style.lineBreak level ++ [right] ++ rest))) := by
  simp [Style.enclose]

/-- A list with parts does not close at once. -/
theorem enclose_cons_ne (hstyle : style.Blank) {left right c : Char} {cs : List Char}
    (hright : isSpace right = false) (hc : c ≠ right) (parts : List (List Char)) :
    style.enclose level left right ((c :: cs) :: parts) ++ rest ≠ left :: right :: rest' := by
  intro h
  have hblanks := hstyle.lineBreak (level + 1)
  rw [enclose_cons] at h
  cases hbreak : style.lineBreak (level + 1) with
  | nil =>
    rw [hbreak] at h
    cases parts with
    | nil =>
      rw [List.intercalate_singleton] at h
      exact hc (List.cons.inj (List.cons.inj h).2).1
    | cons part parts =>
      rw [List.intercalate_cons_cons] at h
      exact hc (List.cons.inj (List.cons.inj h).2).1
  | cons b bs =>
    rw [hbreak] at h hblanks
    have hb := hblanks b List.mem_cons_self
    rw [(List.cons.inj (List.cons.inj h).2).1, hright] at hb
    cases hb

/-- Parts between brackets can be told when each of them can. -/
theorem enclose_inj (hstyle : style.Blank) {left right : Char} {closing : Token}
    (hright : punctuation? right = some closing) (hcomma : right ≠ ',')
    (hlead : ∀ x, x ∈ xs ∨ x ∈ ys → ∃ c cs, text x = c :: cs ∧ c ≠ right)
    (htext : ∀ x ∈ xs, ∀ y ∈ ys, Discerns text x y)
    (h : style.enclose level left right (xs.map text) ++ rest =
      style.enclose level left right (ys.map text) ++ rest') : xs = ys ∧ rest = rest' := by
  have hspace := not_isSpace_of_punctuation? hright
  cases xs with
  | nil =>
    cases ys with
    | nil => exact ⟨rfl, List.append_cancel_left h⟩
    | cons y ys =>
      obtain ⟨c, cs, hcs, hc⟩ := hlead y (.inr List.mem_cons_self)
      rw [List.map_cons, hcs] at h
      exact absurd h.symm (enclose_cons_ne hstyle hspace hc _)
  | cons x xs =>
    cases ys with
    | nil =>
      obtain ⟨c, cs, hcs, hc⟩ := hlead x (.inl List.mem_cons_self)
      rw [List.map_cons, hcs] at h
      exact absurd h (enclose_cons_ne hstyle hspace hc _)
    | cons y ys =>
      rw [List.map_cons, List.map_cons, enclose_cons, enclose_cons] at h
      exact intercalate_inj (closes_lineBreak hstyle level hright hcomma) htext
        (List.append_cancel_left (List.cons.inj h).2)

end Enclose

/-! ## Documents -/

theorem quotedString_inj {s t : String} (h : quotedString s ++ rest = quotedString t ++ rest') :
    s = t ∧ rest = rest' := by
  rw [quotedString_append, quotedString_append] at h
  have hbody := stringBody_quoted s.toList rest
  rw [(List.cons.inj h).2, stringBody_quoted] at hbody
  obtain ⟨hst, hrest⟩ := Prod.mk.inj (Option.some.inj hbody)
  exact ⟨String.toList_inj.1 hst.symm, hrest.symm⟩

theorem writeItems_eq_map (style : Style) (level : Nat) (items : List Json) :
    writeItems style level items = items.map (write style level) := by
  induction items with
  | nil => rfl
  | cons j js ih => rw [writeItems, ih, List.map_cons]

def writeField (style : Style) (level : Nat) (f : String × Json) : List Char :=
  quotedString f.1 ++ style.colon ++ write style level f.2

theorem writeFields_eq_map (style : Style) (level : Nat) (fields : List (String × Json)) :
    writeFields style level fields = fields.map (writeField style level) := by
  induction fields with
  | nil => rfl
  | cons f fs ih =>
    rw [writeFields, ih]
    rfl

theorem discerns_field {f g : String × Json} (h : Discerns (write style level) f.2 g.2) :
    Discerns (writeField style level) f g := by
  intro rest rest' hrest hrest' heq
  simp only [writeField, List.append_assoc] at heq
  obtain ⟨hname, heq⟩ := quotedString_inj heq
  obtain ⟨hvalue, hrest⟩ := h rest rest' hrest hrest' (List.append_cancel_left heq)
  exact ⟨Prod.ext hname hvalue, hrest⟩

theorem discerns_word (hi : i.WellFormed) (hj : j.WellFormed) (hshape : i.shape = .word) :
    Discerns (write style level) i j := by
  intro rest rest' hrest hrest' h
  have hshape' : j.shape = .word := (shape_eq hi hj h).symm.trans hshape
  obtain ⟨-, hchars, hscalar⟩ := scalar?_write hi hshape
  obtain ⟨-, hchars', hscalar'⟩ := scalar?_write hj hshape'
  obtain ⟨htake, hdrop⟩ := takeWhile_append_of_boundary hchars hrest
  obtain ⟨htake', hdrop'⟩ := takeWhile_append_of_boundary hchars' hrest'
  rw [h, htake'] at htake
  rw [h, hdrop'] at hdrop
  rw [← htake, hscalar'] at hscalar
  exact ⟨(Option.some.inj hscalar).symm, hdrop.symm⟩

/-- The text of a document is that of no other, with whatever comes after it, unless a word goes on
there. -/
theorem WellFormed.discerns (hstyle : style.Blank) (hi : i.WellFormed) (hj : j.WellFormed)
    (level : Nat) : Discerns (write style level) i j := by
  induction hi generalizing j level with
  | null => exact discerns_word .null hj rfl
  | boolean b => exact discerns_word (.boolean b) hj rfl
  | integer hn => exact discerns_word (.integer hn) hj rfl
  | real hx => exact discerns_word (.real hx) hj rfl
  | string s =>
    intro rest rest' _ _ h
    obtain ⟨t, rfl⟩ := exists_eq_string (shape_eq (.string s) hj h).symm
    obtain ⟨rfl, hrest⟩ := quotedString_inj h
    exact ⟨rfl, hrest⟩
  | @array items hitems ih =>
    intro rest rest' _ _ h
    obtain ⟨js, rfl⟩ := exists_eq_array (shape_eq (.array hitems) hj h).symm
    cases hj with
    | array hjs =>
      rw [write, write, writeItems_eq_map, writeItems_eq_map] at h
      have hlead (k : Json) (hk : k ∈ items ∨ k ∈ js) :
          ∃ c cs, write style (level + 1) k = c :: cs ∧ c ≠ ']' := by
        obtain ⟨c, cs, hcs, -, hc⟩ := (hk.elim (hitems k) (hjs k)).exists_write style (level + 1)
        exact ⟨c, cs, hcs, hc⟩
      obtain ⟨rfl, hrest⟩ := enclose_inj hstyle rfl (by decide) hlead
        (fun i hi j hj => ih i hi (hjs j hj) (level + 1)) h
      exact ⟨rfl, hrest⟩
  | object ho hfields ih =>
    intro rest rest' _ _ h
    obtain ⟨gs, rfl⟩ := exists_eq_object (shape_eq (.object ho hfields) hj h).symm
    cases hj with
    | object _ hgs =>
      rw [write, write, writeFields_eq_map, writeFields_eq_map] at h
      have hlead (f : String × Json) : ∃ c cs, writeField style (level + 1) f = c :: cs ∧ c ≠ '}' :=
        ⟨'"', _, rfl, by decide⟩
      obtain ⟨rfl, hrest⟩ := enclose_inj hstyle rfl (by decide) (fun f _ => hlead f)
        (fun f hf g hg => discerns_field (ih f hf (hgs g hg) (level + 1))) h
      exact ⟨rfl, hrest⟩

/-- Documents with the same text are the same. -/
theorem WellFormed.write_inj (hstyle : style.Blank) (hi : i.WellFormed) (hj : j.WellFormed)
    (h : write style level i = write style level j) : i = j :=
  (hi.discerns hstyle hj level [] [] endsWord_nil endsWord_nil (by rw [h])).1

end Formula.Json
