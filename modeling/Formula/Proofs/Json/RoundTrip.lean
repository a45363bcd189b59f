import Formula.Proofs.Json.Lexing
import Formula.Proofs.Json.Parsing
import Formula.Proofs.Reading
/-!
# Documents from their texts

The text of a document is lexed to its tokens: around its strings, numbers and names stand brackets,
commas, colons and blanks, which end a word and start none. So reading gives the document back, if its
numbers keep their bits, as long as it nests no deeper than the reader goes.

Results:
* `WellFormed.lexes_write`: the tokens of a text, in any style that puts only blanks between them.
* `WellFormed.read?_write`: the document of a text.
* `read_printed`: results that were printed are operands.
-/
namespace Formula.Json

/-! ## Texts and their tokens -/

/-- The text is lexed to these tokens, whatever comes after it, unless a word goes on there. -/
def Lexes (cs : List Char) (ts : List Token) : Prop :=
  ∀ rest, EndsWord rest → tokens? (cs ++ rest) = (tokens? rest).map (ts ++ ·)

def Blanks (cs : List Char) : Prop := ∀ c ∈ cs, isSpace c = true

theorem EndsWord.blanks {blanks rest : List Char} (hblanks : Blanks blanks) (h : EndsWord rest) :
    EndsWord (blanks ++ rest) := by
  cases blanks with
  | nil => exact h
  | cons b bs =>
    intro d hd
    cases hd
    simp [isWordChar, hblanks b List.mem_cons_self]

theorem tokens?_blanks {blanks rest : List Char} (hblanks : Blanks blanks) :
    tokens? (blanks ++ rest) = tokens? rest := by
  induction blanks with
  | nil => rfl
  | cons b bs ih =>
    obtain ⟨hb, hbs⟩ := List.forall_mem_cons.1 hblanks
    rw [List.cons_append, tokens?_space hb, ih hbs]

namespace Lexes

variable {cs ds : List Char} {ts us : List Token}

theorem nil : Lexes [] [] := by
  intro rest _
  exact Option.map_id'.symm

theorem append (h : Lexes cs ts) (h' : Lexes ds us)
    (hends : ∀ rest, EndsWord rest → EndsWord (ds ++ rest)) : Lexes (cs ++ ds) (ts ++ us) := by
  intro rest hrest
  rw [List.append_assoc, h _ (hends rest hrest), h' rest hrest, Option.map_map]
  simp [Function.comp_def]

theorem punctuation {c : Char} {t : Token} (hc : punctuation? c = some t) (h : Lexes cs ts) :
    Lexes (c :: cs) (t :: ts) := by
  intro rest hrest
  rw [List.cons_append, tokens?_punctuation hc, h rest hrest, Option.map_map]
  rfl

theorem blanks {blanks : List Char} (hblanks : Blanks blanks) (h : Lexes cs ts) :
    Lexes (blanks ++ cs) ts := by
  intro rest hrest
  rw [List.append_assoc, tokens?_blanks hblanks, h rest hrest]

theorem quotedString (s : String) (h : Lexes cs ts) :
    Lexes (Json.quotedString s ++ cs) (.string s :: ts) := by
  intro rest hrest
  rw [List.append_assoc, tokens?_quotedString, h rest hrest, Option.map_map]
  rfl

theorem word {t : Token} (ht : word? cs = some t) (hne : cs ≠ [])
    (hcs : ∀ c ∈ cs, isWordChar c = true) : Lexes cs [t] :=
  fun _ hrest => tokens?_word ht hne hcs hrest

theorem number {j : Json} (h : number? cs = some j) : Lexes cs [.scalar j] :=
  fun _ hrest => tokens?_number h hrest

/-- Texts with commas between them. -/
theorem intercalate {blanks : List Char} (hblanks : Blanks blanks) {parts : List (List Char)}
    {tss : List (List Token)} (h : List.Forall₂ Lexes parts tss) :
    Lexes (List.intercalate (',' :: blanks) parts) (List.intercalate [.comma] tss) := by
  induction h with
  | nil => exact nil
  | @cons part ts parts tss hpart hparts ih =>
    cases hparts with
    | nil =>
      rw [List.intercalate_singleton, List.intercalate_singleton]
      exact hpart
    | cons _ _ =>
      rw [List.intercalate_cons_cons, List.intercalate_cons_cons, List.append_assoc,
        List.append_assoc]
      exact hpart.append (punctuation rfl (Lexes.blanks hblanks ih))
        fun rest _ => endsWord_punctuation rfl _

end Lexes

/-- A style that puts nothing but blanks around the parts. -/
structure Style.Blank (style : Style) : Prop where
  lineBreak : ∀ level, Blanks (style.lineBreak level)
  colon : ∃ blanks, style.colon = ':' :: blanks ∧ Blanks blanks

theorem blank_compactStyle : compactStyle.Blank where
  lineBreak _ := nofun
  colon := ⟨[], rfl, nofun⟩

theorem blank_prettyStyle : prettyStyle.Blank where
  lineBreak level := by
    intro c hc
    rcases List.mem_cons.1 hc with rfl | hc
    · rfl
    · rw [List.eq_of_mem_replicate hc]
      rfl
  colon := ⟨[' '], rfl, by simp [Blanks, isSpace]⟩

theorem forall₂_lexes_items {style : Style} {level : Nat} {items : List Json}
    (h : ∀ j ∈ items, Lexes (write style level j) (tokens j)) :
    List.Forall₂ Lexes (writeItems style level items) (tokensItems items) := by
  induction items with
  | nil => exact .nil
  | cons j js ih =>
    obtain ⟨hj, hjs⟩ := List.forall_mem_cons.1 h
    exact .cons hj (ih hjs)

section Write

variable {style : Style} (hstyle : style.Blank)
include hstyle

theorem lexes_enclose {left right : Char} {opening closing : Token}
    (hleft : punctuation? left = some opening) (hright : punctuation? right = some closing)
    {parts : List (List Char)} {tss : List (List Token)} (h : List.Forall₂ Lexes parts tss)
    (level : Nat) :
    Lexes (style.enclose level left right parts)
      (opening :: (List.intercalate [.comma] tss ++ [closing])) := by
  have hclose : Lexes [right] [closing] := Lexes.punctuation hright Lexes.nil
  unfold Style.enclose
  cases h with
  | nil => exact Lexes.punctuation hleft hclose
  | cons hpart hparts =>
    dsimp only
    rw [List.append_assoc, List.append_assoc, List.cons_append]
    refine Lexes.punctuation hleft (Lexes.blanks (hstyle.lineBreak _) ?_)
    refine (Lexes.intercalate (hstyle.lineBreak _) (.cons hpart hparts)).append
      (Lexes.blanks (hstyle.lineBreak _) hclose) ?_
    intro rest _
    rw [List.append_assoc]
    exact (endsWord_punctuation hright rest).blanks (hstyle.lineBreak level)

theorem forall₂_lexes_fields {level : Nat} {fields : List (String × Json)}
    (h : ∀ f ∈ fields, Lexes (write style level f.2) (tokens f.2)) :
    List.Forall₂ Lexes (writeFields style level fields) (tokensFields fields) := by
  obtain ⟨blanks, hcolon, hblanks⟩ := hstyle.colon
  induction fields with
  | nil => exact .nil
  | cons f fs ih =>
    obtain ⟨hf, hfs⟩ := List.forall_mem_cons.1 h
    refine .cons ?_ (ih hfs)
    rw [hcolon, List.append_assoc, List.cons_append]
    exact Lexes.quotedString f.1 (Lexes.punctuation rfl (Lexes.blanks hblanks hf))

end Write

/-! ## Numbers -/

mutual

def numbers : Json → List Float
  | .real x => [x]
  | .array items => numbersItems items
  | .object fields => numbersFields fields
  | _ => []

def numbersItems : List Json → List Float
  | [] => []
  | j :: js => numbers j ++ numbersItems js

def numbersFields : List (String × Json) → List Float
  | [] => []
  | (_, j) :: fs => numbers j ++ numbersFields fs

end

theorem numbersItems_eq_flatMap (items : List Json) : numbersItems items = items.flatMap numbers := by
  induction items with
  | nil => rfl
  | cons j js ih => rw [numbersItems, ih, List.flatMap_cons]

theorem numbersFields_eq_flatMap (fields : List (String × Json)) :
    numbersFields fields = fields.flatMap fun f => numbers f.2 := by
  induction fields with
  | nil => rfl
  | cons f fs ih => rw [numbersFields, ih, List.flatMap_cons]

/-- Each double is the one that the digits which are written for it are read as. -/
def NumbersReadBack (j : Json) : Prop :=
  ∀ x ∈ j.numbers, (numeral? (numberLayout.write x)).bind double? = some x

instance (j : Json) : Decidable (NumbersReadBack j) :=
  inferInstanceAs (Decidable (∀ x ∈ j.numbers, _ = some x))

theorem numbersReadBack_array {items : List Json} :
    NumbersReadBack (.array items) ↔ ∀ j ∈ items, NumbersReadBack j := by
  simp only [NumbersReadBack, numbers, numbersItems_eq_flatMap, List.forall_mem_flatMap]

theorem numbersReadBack_object {fields : List (String × Json)} :
    NumbersReadBack (.object fields) ↔ ∀ f ∈ fields, NumbersReadBack f.2 := by
  simp only [NumbersReadBack, numbers, numbersFields_eq_flatMap, List.forall_mem_flatMap]

theorem NumbersReadBack.number?_write {x : Float} (h : NumbersReadBack (.real x))
    (hx : Number.isFinite x = true) : number? (numberLayout.write x) = some (.real x) := by
  obtain ⟨n, hn, hdouble⟩ := Option.bind_eq_some_iff.1 (h x (List.mem_singleton_self x))
  exact number?_eq_real hn hdouble (numberLayout.mem_write hx)

/-! ## Reading what was written -/

theorem WellFormed.lexes_write {style : Style} (hstyle : style.Blank) {j : Json} (hj : j.WellFormed)
    (hnumbers : j.NumbersReadBack) (level : Nat) : Lexes (write style level j) (tokens j) := by
  induction hj generalizing level with
  | null =>
    show Lexes "null".toList [.scalar .null]
    exact Lexes.word rfl (by decide) (List.all_eq_true.1 rfl)
  | boolean b =>
    cases b with
    | false =>
      show Lexes "false".toList [.scalar (.boolean false)]
      exact Lexes.word rfl (by decide) (List.all_eq_true.1 rfl)
    | true =>
      show Lexes "true".toList [.scalar (.boolean true)]
      exact Lexes.word rfl (by decide) (List.all_eq_true.1 rfl)
  | integer hn => exact Lexes.number (number?_repr hn)
  | real hx => exact Lexes.number (hnumbers.number?_write hx)
  | string s =>
    have hquoted := Lexes.quotedString s Lexes.nil
    rwa [List.append_nil] at hquoted
  | array _ ih =>
    rw [numbersReadBack_array] at hnumbers
    have hitems := forall₂_lexes_items fun j hj => ih j hj (hnumbers j hj) (level + 1)
    exact lexes_enclose hstyle rfl rfl hitems level
  | object _ _ ih =>
    rw [numbersReadBack_object] at hnumbers
    have hfields := forall₂_lexes_fields hstyle fun f hf => ih f hf (hnumbers f hf) (level + 1)
    exact lexes_enclose hstyle rfl rfl hfields level

/-- A document is read from its text, in either style and with blanks after it, unless it nests too
deep. -/
theorem WellFormed.read?_write {style : Style} (hstyle : style.Blank) {j : Json} (hj : j.WellFormed)
    (hnumbers : j.NumbersReadBack) {blanks : List Char} (hblanks : Blanks blanks) :
    read? (String.ofList (write style 0 j ++ blanks)) =
      if j.depth ≤ depthLimit then some j else none := by
  have hends : EndsWord (blanks ++ []) := endsWord_nil.blanks hblanks
  have hblank : tokens? (blanks ++ []) = some [] := tokens?_blanks hblanks
  rw [List.append_nil] at hends hblank
  rw [read?, String.toList_ofList, hj.lexes_write hstyle hnumbers 0 blanks hends, hblank,
    Option.map_some, List.append_nil, Option.bind_some, hj.ofTokens?_tokens]

/-- The document is printed so: without blanks or with a line for each item, and on a line of its own
or not. -/
def PrintedAs (j : Json) (s : String) : Prop :=
  ∃ text ∈ [j.compact, j.pretty], ∃ ending ∈ ["", "\n"], s = text ++ ending

theorem WellFormed.read?_printed {j : Json} (hj : j.WellFormed) (hnumbers : j.NumbersReadBack)
    {printed : String} (h : j.PrintedAs printed) :
    read? printed = if j.depth ≤ depthLimit then some j else none := by
  obtain ⟨text, htext, ending, hending, rfl⟩ := h
  have hblanks : Blanks ending.toList := by
    revert ending
    simp [Blanks, isSpace]
  have hstyles {style : Style} (hstyle : style.Blank) :
      read? (String.ofList (write style 0 j) ++ ending) =
        if j.depth ≤ depthLimit then some j else none := by
    rw [← hj.read?_write hstyle hnumbers hblanks, String.ofList_append, String.ofList_toList]
  rcases List.mem_pair.1 htext with rfl | rfl
  · exact hstyles blank_compactStyle
  · exact hstyles blank_prettyStyle

end Formula.Json

namespace Formula

/-! ## Operands and assignments -/

/-- **Printed results can be fed back.** What is printed of a value, compact or pretty, with a line
break after it or without, is read as the value of its JSON, if each double in it is the one that its
digits are read as, and if arrays and objects nest at most 127 deep; if they nest deeper, it is read as
the text that it is. An assignment gives the same to any name that is neither blank nor has an equals
sign in it. -/
theorem read_printed {v : Value} {printed : String} (hprinted : (Json.ofValue v).PrintedAs printed)
    (hnumbers : (Json.ofValue v).NumbersReadBack) :
    (Json.ofValue v).toValue = .ok v.canon ∧
    ((Json.ofValue v).depth ≤ 127 → Value.read printed = (Json.ofValue v).toValue) ∧
    (128 ≤ (Json.ofValue v).depth → Value.read printed = .ok (.text printed)) ∧
    ∀ name : String, '=' ∉ name.toList → ¬ IsBlankText name →
      Assignment.read (name ++ "=" ++ printed) =
        (Value.read printed).map fun w => ⟨String.ofList (trim name.toList), w⟩ := by
  have hread : Json.read? printed =
      if (Json.ofValue v).depth ≤ 127 then some (Json.ofValue v) else none :=
    (Value.wellFormed_ofValue v).read?_printed hnumbers hprinted
  refine ⟨Value.toValue_ofValue v, ?_, ?_, ?_⟩
  · intro hdepth
    rw [Value.read, hread, if_pos hdepth]
  · intro hdepth
    rw [Value.read, hread, if_neg (Nat.not_le.2 hdepth)]
  · intro name hname hblank
    exact Assignment.read_append hname hblank printed

/-- Texts with escapes, two keys with one text, a negative zero and an infinite number; and a truth
value in as many sequences as may be open at once, and in one more. -/
theorem read_printed_nested :
    let v : Value := .mapping [(.text "\"\\\x07\x7f", .sequence [.number (-0.0), .sequence []]),
      (.number 1.0, .boolean true), (.text "1.0", .number 0.1),
      (.text "\n\u2028", .number (Number.ofMagnitude false Number.infinity))]
    let w : Value := .mapping [(.text "\n\u2028", .text "Infinity"),
      (.text "\"\\\x07\x7f", .sequence [.number (-0.0), .sequence []]), (.text "1.0", .number 0.1)]
    let text := "\x7b\"\\n\u2028\":\"Infinity\",\"\\\"\\\\\\u0007\x7f\":[-0.0,[]],\"1.0\":0.1\x7d"
    let nested (depth : Nat) : Value := Nat.repeat (fun v => .sequence [v]) depth (.boolean true)
    let brackets (depth : Nat) : String := (Json.ofValue (nested depth)).pretty ++ "\n"
    (Json.ofValue v).PrintedAs text ∧ (Json.ofValue v).NumbersReadBack ∧
      Value.read text = .ok w ∧ Assignment.read ("\u00a0x =" ++ text) = .ok ⟨"x", w⟩ ∧
      Value.read (brackets 127) = .ok (nested 127) ∧
      Value.read (brackets 128) = .ok (.text (brackets 128)) ∧
      Assignment.read ("x" ++ "=" ++ brackets 128) = .ok ⟨"x", .text (brackets 128)⟩ := by
  intro v w text nested brackets
  have hvalue : (Json.ofValue v).toValue = .ok w := rfl
  have htext : (Json.ofValue v).compact = text := by decide +kernel
  have hprinted : (Json.ofValue v).PrintedAs text :=
    ⟨text, by simp [htext], "", by simp, by simp⟩
  have hnumbers : (Json.ofValue v).NumbersReadBack := by decide +kernel
  obtain ⟨-, hread, -, hassigned⟩ := read_printed hprinted hnumbers
  have hv := hread (by decide +kernel)
  rw [hvalue] at hv
  have hx := hassigned "\u00a0x " (by decide) (by decide)
  rw [hv] at hx
  have hnested (n : Nat) : (nested n).canon = nested n ∧ (Json.ofValue (nested n)).depth = n ∧
      (Json.ofValue (nested n)).NumbersReadBack := by
    induction n with
    | zero => exact ⟨rfl, rfl, nofun⟩
    | succ n ih =>
      obtain ⟨hcanon, hdepth, hread⟩ := ih
      refine ⟨congrArg (fun u => Value.sequence [u]) hcanon, ?_, ?_⟩
      · show max (Json.ofValue (nested n)).depth 0 + 1 = n + 1
        rw [hdepth, Nat.max_zero]
      · exact Json.numbersReadBack_array.2 (List.forall_mem_singleton.2 hread)
  have hbrackets (n : Nat) : (Json.ofValue (nested n)).PrintedAs (brackets n) :=
    ⟨_, by simp, "\n", by simp, rfl⟩
  obtain ⟨hcanon, hdepth, hreadBack⟩ := hnested 127
  obtain ⟨hinner, hwithin, -, -⟩ := read_printed (hbrackets 127) hreadBack
  obtain ⟨-, hdepth', hreadBack'⟩ := hnested 128
  obtain ⟨-, -, hbeyond, hassigned'⟩ := read_printed (hbrackets 128) hreadBack'
  have htoo := hbeyond hdepth'.ge
  have hx' := hassigned' "x" (by decide) (by decide)
  rw [htoo] at hx'
  refine ⟨hprinted, hnumbers, hv, hx, ?_, htoo, hx'⟩
  rw [hwithin hdepth.le, hinner, hcanon]

end Formula
