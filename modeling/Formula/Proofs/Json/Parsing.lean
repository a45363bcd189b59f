import Formula.Json.Reader
import Formula.Proofs.Json.Canonical
/-!
# Documents from their tokens

The reader goes through the tokens of a document with a stack of what is open around it. When it comes
to the end of the document, the stack is what it was before, and the document is delivered to it, unless
somewhere in the document more was open at once than may be.

Results:
* `depth`: how deep a document nests.
* `WellFormed.parses`: reading a document within others.
* `WellFormed.ofTokens?_tokens`: reading a document by itself.
* `eq_scalar_or_string_of_ofTokens?`: the tokens of a document without parts.
-/
namespace Formula.Json

mutual

/-- How deep arrays and objects nest. -/
def depth : Json → Nat
  | .array items => depthItems items + 1
  | .object fields => depthFields fields + 1
  | _ => 0

def depthItems : List Json → Nat
  | [] => 0
  | j :: js => max (depth j) (depthItems js)

def depthFields : List (String × Json) → Nat
  | [] => 0
  | (_, j) :: fs => max (depth j) (depthFields fs)

end

mutual

def tokens : Json → List Token
  | .string s => [.string s]
  | .array items => .arrayOpen :: (List.intercalate [.comma] (tokensItems items) ++ [.arrayClose])
  | .object fields =>
    .objectOpen :: (List.intercalate [.comma] (tokensFields fields) ++ [.objectClose])
  | j => [.scalar j]

def tokensItems : List Json → List (List Token)
  | [] => []
  | j :: js => tokens j :: tokensItems js

def tokensFields : List (String × Json) → List (List Token)
  | [] => []
  | (name, j) :: fs => (.string name :: .colon :: tokens j) :: tokensFields fs

end

theorem tokensItems_eq_map (items : List Json) : tokensItems items = items.map tokens := by
  induction items with
  | nil => rfl
  | cons j js ih => rw [tokensItems, ih, List.map_cons]

def fieldTokens (f : String × Json) : List Token := .string f.1 :: .colon :: tokens f.2

theorem tokensFields_eq_map (fields : List (String × Json)) :
    tokensFields fields = fields.map fieldTokens := by
  induction fields with
  | nil => rfl
  | cons f fs ih =>
    rw [tokensFields, ih, List.map_cons]
    rfl

/-- An array fits on top of what is open just when each of its items fits into it. -/
theorem depthItems_succ_add_le {items : List Json} {n m : Nat} (h : n < m) :
    depthItems items + 1 + n ≤ m ↔ ∀ j ∈ items, j.depth + (n + 1) ≤ m := by
  induction items with
  | nil => simpa [depthItems, Nat.add_comm] using Nat.succ_le_of_lt h
  | cons j js ih =>
    rw [List.forall_mem_cons, ← ih, depthItems]
    omega

/-- An object fits on top of what is open just when the value of each of its fields fits into it. -/
theorem depthFields_succ_add_le {fields : List (String × Json)} {n m : Nat} (h : n < m) :
    depthFields fields + 1 + n ≤ m ↔ ∀ f ∈ fields, f.2.depth + (n + 1) ≤ m := by
  induction fields with
  | nil => simpa [depthFields, Nat.add_comm] using Nat.succ_le_of_lt h
  | cons f fs ih =>
    rw [List.forall_mem_cons, ← ih, depthFields]
    omega

def State.run (s : State) (ts : List Token) : Option State := ts.foldlM step s

theorem State.run_cons (s : State) (t : Token) (ts : List Token) :
    s.run (t :: ts) = (step s t).bind (·.run ts) := by
  rw [run, List.foldlM_cons]
  rfl

theorem State.run_singleton (s : State) (t : Token) : s.run [t] = step s t := by
  rw [run_cons]
  exact Option.bind_fun_some _

theorem State.run_append (s : State) (ts us : List Token) :
    s.run (ts ++ us) = (s.run ts).bind (·.run us) := by
  rw [run, List.foldlM_append]
  rfl

/-- Where a value is expected, the document is read and delivered, unless it nests too deep. -/
def Parses (j : Json) : Prop :=
  ∀ opened, opened.length ≤ depthLimit → (State.reading .value opened).run (tokens j) =
    if j.depth + opened.length ≤ depthLimit then deliver j opened else none

/-- Parts with commas between them are read one after the other, as long as each is read. -/
theorem run_intercalate {α : Type} {partTokens : α → List Token} {fits : α → Prop}
    [DecidablePred fits] (before after : List α → State) {ps : List α} (hne : ps ≠ [])
    (hpart : ∀ p ∈ ps, ∀ acc, (before acc).run (partTokens p) =
      if fits p then some (after (p :: acc)) else none)
    (hcomma : ∀ acc, step (after acc) .comma = some (before acc)) (acc : List α) :
    (before acc).run (List.intercalate [.comma] (ps.map partTokens)) =
      if ∀ p ∈ ps, fits p then some (after (ps.reverse ++ acc)) else none := by
  induction ps generalizing acc with
  | nil => exact absurd rfl hne
  | cons p ps ih =>
    obtain ⟨hp, hps⟩ := List.forall_mem_cons.1 hpart
    cases ps with
    | nil => simp [hp]
    | cons q qs =>
      rw [List.map_cons, List.map_cons, List.intercalate_cons_cons, List.append_assoc,
        State.run_append, hp]
      by_cases hfits : fits p
      · rw [if_pos hfits, Option.bind_some, List.singleton_append, State.run_cons, hcomma,
          Option.bind_some, ← List.map_cons, ih (List.cons_ne_nil q qs) hps]
        exact if_congr (by simp [hfits]) (by simp) rfl
      · rw [if_neg hfits, Option.bind_none, if_neg fun h => hfits (h p List.mem_cons_self)]

/-- A first item is read like any other. -/
theorem run_itemOrEnd (opened : List Frame) (j : Json) (js : List Json) :
    (State.reading .itemOrEnd (.array [] :: opened)).run
        (List.intercalate [.comma] ((j :: js).map tokens)) =
      (State.reading .value (.array [] :: opened)).run
        (List.intercalate [.comma] ((j :: js).map tokens)) := by
  obtain ⟨t, ts, hts, hstep⟩ : ∃ t ts, tokens j = t :: ts ∧
      step (.reading .itemOrEnd (.array [] :: opened)) t =
        step (.reading .value (.array [] :: opened)) t := by
    cases j with
    | array | object => exact ⟨_, _, rfl, rfl⟩
    | null | boolean | integer | real | string => exact ⟨_, _, rfl, rfl⟩
  rw [List.map_cons, hts, List.intercalate_cons_cons_left, State.run_cons, State.run_cons, hstep]

/-- A first field is read like any other. -/
theorem run_nameOrEnd (opened : List Frame) (f : String × Json) (fs : List (String × Json)) :
    (State.reading .nameOrEnd (.object [] none :: opened)).run
        (List.intercalate [.comma] ((f :: fs).map fieldTokens)) =
      (State.reading .name (.object [] none :: opened)).run
        (List.intercalate [.comma] ((f :: fs).map fieldTokens)) := by
  rw [List.map_cons, fieldTokens, List.intercalate_cons_cons_left, State.run_cons, State.run_cons]
  rfl

theorem parses_scalar {j : Json} {t : Token} (htokens : tokens j = [t]) (hdepth : j.depth = 0)
    (hstart : ∀ opened, startValue opened t = deliver j opened) : Parses j := by
  intro opened hopened
  rw [htokens, State.run_singleton, step, hstart, hdepth, Nat.zero_add, if_pos hopened]

theorem parses_array {items : List Json} (h : ∀ j ∈ items, Parses j) : Parses (.array items) := by
  intro opened _
  rw [tokens, State.run_cons, step, startValue, descend, depth]
  split
  · rename_i hlt
    rw [Option.bind_some, tokensItems_eq_map,
      if_congr (depthItems_succ_add_le hlt) rfl rfl]
    cases items with
    | nil => simp [State.run_singleton, step]
    | cons j js =>
      have hitem : ∀ i ∈ j :: js, ∀ acc, (State.reading .value (.array acc :: opened)).run (tokens i) =
          if i.depth + (opened.length + 1) ≤ depthLimit then
            some (.reading .commaOrEnd (.array (i :: acc) :: opened))
          else none :=
        fun i hi acc => h i hi (.array acc :: opened) hlt
      rw [State.run_append, run_itemOrEnd,
        run_intercalate (fun acc => .reading .value (.array acc :: opened))
          (fun acc => .reading .commaOrEnd (.array acc :: opened)) (List.cons_ne_nil j js) hitem
          (fun _ => rfl)]
      split
      · rw [Option.bind_some, State.run_singleton, step, List.append_nil, List.reverse_reverse]
      · rw [Option.bind_none]
  · rw [if_neg (by omega), Option.bind_none]

theorem parses_object {fields : List (String × Json)} (ho : Fields.Ordered fields)
    (h : ∀ f ∈ fields, Parses f.2) : Parses (.object fields) := by
  intro opened _
  rw [tokens, State.run_cons, step, startValue, descend, depth]
  split
  · rename_i hlt
    rw [Option.bind_some, tokensFields_eq_map,
      if_congr (depthFields_succ_add_le hlt) rfl rfl]
    cases fields with
    | nil => simp [State.run_singleton, step]
    | cons f fs =>
      have hfield : ∀ g ∈ f :: fs, ∀ acc,
          (State.reading .name (.object acc none :: opened)).run (fieldTokens g) =
            if g.2.depth + (opened.length + 1) ≤ depthLimit then
              some (.reading .commaOrEnd (.object (g :: acc) none :: opened))
            else none := by
        intro g hg acc
        rw [fieldTokens, State.run_cons, step, Option.bind_some, State.run_cons, step,
          Option.bind_some]
        exact h g hg (.object acc (some g.1) :: opened) hlt
      rw [State.run_append, run_nameOrEnd,
        run_intercalate (fun acc => .reading .name (.object acc none :: opened))
          (fun acc => .reading .commaOrEnd (.object acc none :: opened)) (List.cons_ne_nil f fs)
          hfield (fun _ => rfl)]
      split
      · rw [Option.bind_some, State.run_singleton, step, List.append_nil, List.reverse_reverse,
          Fields.ofList_eq_self ho]
      · rw [Option.bind_none]
  · rw [if_neg (by omega), Option.bind_none]

theorem WellFormed.parses {j : Json} (hj : j.WellFormed) : Parses j := by
  induction hj with
  | null | boolean | integer | real | string => exact parses_scalar rfl rfl fun _ => rfl
  | array _ ih => exact parses_array ih
  | object ho _ ih => exact parses_object ho ih

/-- A document is read from its tokens, unless it nests too deep. -/
theorem WellFormed.ofTokens?_tokens {j : Json} (hj : j.WellFormed) :
    ofTokens? (tokens j) = if j.depth ≤ depthLimit then some j else none := by
  have hrun : (tokens j).foldlM step (.reading .value []) =
      if j.depth ≤ depthLimit then deliver j [] else none := hj.parses [] (Nat.zero_le _)
  rw [ofTokens?, hrun]
  by_cases hdepth : j.depth ≤ depthLimit
  · rw [if_pos hdepth, if_pos hdepth]
    rfl
  · rw [if_neg hdepth, if_neg hdepth]

/-! ## Documents of one token -/

def isCollection : Json → Bool
  | .array _ | .object _ => true
  | _ => false

/-- Within an array or an object; the document can be nothing else then. -/
def State.Inside : State → Prop
  | .reading _ opened => opened ≠ []
  | .finished j => j.isCollection = true

section Inside

variable {j : Json} {t : Token} {ts : List Token} {opened : List Frame} {s s' : State}

theorem inside_deliver (hj : opened ≠ [] ∨ j.isCollection = true) (h : deliver j opened = some s) :
    s.Inside := by
  unfold deliver at h
  split at h
  · cases h
    exact hj.resolve_left fun hne => hne rfl
  · cases h
    exact List.cons_ne_nil _ _
  · cases h
    exact List.cons_ne_nil _ _
  · cases h

theorem inside_descend {next : Expectation} {frame : Frame} (h : descend next frame opened = some s) :
    s.Inside := by
  unfold descend at h
  split at h
  · cases h
    exact List.cons_ne_nil _ _
  · cases h

theorem inside_startValue (hopened : opened ≠ []) (h : startValue opened t = some s) : s.Inside := by
  unfold startValue at h
  split at h
  · exact inside_deliver (.inl hopened) h
  · exact inside_deliver (.inl hopened) h
  · exact inside_descend h
  · exact inside_descend h
  · cases h

/-- No token leads out of the outermost array or object, but for its end. -/
theorem State.Inside.step (hs : s.Inside) (h : step s t = some s') : s'.Inside := by
  unfold Json.step at h
  split at h
  · exact inside_startValue hs h
  · exact inside_deliver (.inr rfl) h
  · exact inside_startValue hs h
  · exact inside_deliver (.inr rfl) h
  · cases h
    exact List.cons_ne_nil _ _
  · cases h
    exact List.cons_ne_nil _ _
  · cases h
    exact hs
  · cases h
    exact List.cons_ne_nil _ _
  · exact inside_deliver (.inr rfl) h
  · cases h
    exact List.cons_ne_nil _ _
  · exact inside_deliver (.inr rfl) h
  · cases h

theorem State.Inside.run (hs : s.Inside) (h : s.run ts = some s') : s'.Inside := by
  induction ts generalizing s with
  | nil =>
    cases h
    exact hs
  | cons t ts ih =>
    rw [State.run_cons] at h
    obtain ⟨next, hnext, hrun⟩ := Option.bind_eq_some_iff.1 h
    exact ih (hs.step hnext) hrun

theorem run_finished (h : (State.finished j).run ts = some s) : ts = [] ∧ s = .finished j := by
  cases ts with
  | nil =>
    cases h
    exact ⟨rfl, rfl⟩
  | cons t ts => cases h

/-- A document that is no array and no object is one token. -/
theorem eq_scalar_or_string_of_ofTokens? (h : ofTokens? ts = some j) (hj : j.isCollection = false) :
    ts = [.scalar j] ∨ ∃ text, j = .string text := by
  have hrun : (State.reading .value []).run ts = some (.finished j) := by
    unfold ofTokens? at h
    split at h
    · rename_i hfold
      cases h
      exact hfold
    · cases h
  have hinside (h : State.Inside (.finished j)) : False := by
    have htrue : j.isCollection = true := h
    rw [hj] at htrue
    cases htrue
  cases ts with
  | nil => cases hrun
  | cons t ts =>
    rw [State.run_cons] at hrun
    obtain ⟨next, hnext, hrest⟩ := Option.bind_eq_some_iff.1 hrun
    rw [Json.step] at hnext
    cases t with
    | scalar k =>
      cases hnext
      obtain ⟨rfl, hfinished⟩ := run_finished hrest
      cases hfinished
      exact .inl rfl
    | string text =>
      cases hnext
      obtain ⟨-, hfinished⟩ := run_finished hrest
      cases hfinished
      exact .inr ⟨text, rfl⟩
    | arrayOpen => exact (hinside ((inside_descend hnext).run hrest)).elim
    | objectOpen => exact (hinside ((inside_descend hnext).run hrest)).elim
    | arrayClose | objectClose | comma | colon => cases hnext

end Inside

end Formula.Json
