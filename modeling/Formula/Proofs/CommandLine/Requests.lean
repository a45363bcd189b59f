import Formula.Proofs.CommandLine.Assignments
import Mathlib.Data.List.Perm.Basic
/-!
# What requests come to

A request reads its assignments, then its operands, and then applies its operator where every name has
what the last assignment to it gives it. The first of these steps that fails decides what is answered.
So two lists of assignments are as good as one another when both can be read and the variables that
they make differ only in names that the operator does not ask for.

Results:
* `lookup_assigned`: the scope of a request, by its assignments.
* `Request.comesTo_iff`: the outcome of a request, by what its texts are read as.
* `assignAll_agree`, `Request.reply_congr`: assignments made to variables that agree on what is asked.
* `requests_answered`: requests, and pairs of requests with different assignments.
-/
namespace Formula.CommandLine

open Variables (Agree)

/-! ## The scope of a request -/

/-- What the last of the assignments to a name gives it. -/
def lastAssigned (as : List Assignment) : Lookup := fun name =>
  (as.reverse.find? fun a => a.name == name).map Assignment.value

theorem lookup_assigned (as : List Assignment) :
    Scope.lookup (assigned .empty as) = lastAssigned as := by
  funext name
  induction as using List.reverseRecOn with
  | nil => rfl
  | append_singleton as a ih =>
    have hlast : assigned .empty (as ++ [a]) = (assigned .empty as).insert a.name a.value :=
      List.foldl_append
    have hvars : (assigned .empty as).get? name = lastAssigned as name := ih
    show (assigned .empty (as ++ [a])).get? name = _
    rw [hlast, Variables.get?_insert, hvars, lastAssigned, lastAssigned, List.reverse_append,
      List.reverse_singleton, List.singleton_append, List.find?_cons]
    by_cases h : a.name = name
    · simp [h]
    · have hbeq : (a.name == name) = false := beq_eq_false_iff_ne.2 h
      simp [hbeq, Ne.symm h]

/-! ## One request -/

/-- What a request comes to: the fault of the first assignment that cannot be read, or of the first
operand that cannot be read, or else what its operator makes of the operands. -/
inductive Request.ComesTo (r : Request) : Outcome → Prop where
  | assignment {fault : Fault}
    (h : Leftmost (fun text fault => Assignment.read text = .error fault) r.assignments fault) :
    ComesTo r (.error fault)
  | operand {as : List Assignment} {fault : Fault}
    (ha : List.Forall₂ (fun text a => Assignment.read text = .ok a) r.assignments as)
    (h : Leftmost (fun text fault => Value.read text = .error fault) r.operands fault) :
    ComesTo r (.error fault)
  | application {as : List Assignment} {operands : List Value}
    (ha : List.Forall₂ (fun text a => Assignment.read text = .ok a) r.assignments as)
    (ho : List.Forall₂ (fun text v => Value.read text = .ok v) r.operands operands) :
    ComesTo r (builtins.apply (r.symbol.getD "") operands (lastAssigned as))

theorem Request.outcome_eq (r : Request) : r.outcome = (do
    let vars ← assignAll .empty r.assignments
    let operands ← r.operands.mapM Value.read
    apply (r.symbol.getD "") operands vars) := rfl

theorem Request.comesTo_iff {r : Request} {o : Outcome} : r.ComesTo o ↔ r.outcome = o := by
  rw [outcome_eq, assignAll_eq]
  constructor
  · rintro (h | ⟨ha, h⟩ | ⟨ha, ho⟩)
    · rw [(mapM_eq_error_iff fun _ _ => Iff.rfl).2 h]
      rfl
    · rw [mapM_eq_ok_iff.2 ha, (mapM_eq_error_iff fun _ _ => Iff.rfl).2 h]
      rfl
    · rw [mapM_eq_ok_iff.2 ha, mapM_eq_ok_iff.2 ho, ← lookup_assigned]
      rfl
  · rintro rfl
    cases ha : r.assignments.mapM Assignment.read with
    | error fault => exact .assignment ((mapM_eq_error_iff fun _ _ => Iff.rfl).1 ha)
    | ok as =>
      have ha := mapM_eq_ok_iff.1 ha
      cases ho : r.operands.mapM Value.read with
      | error fault => exact .operand ha ((mapM_eq_error_iff fun _ _ => Iff.rfl).1 ho)
      | ok operands =>
        show r.ComesTo (apply (r.symbol.getD "") operands (assigned .empty as))
        rw [apply, lookup_assigned]
        exact .application ha (mapM_eq_ok_iff.1 ho)

theorem answer_of_ok {parse : List String → Except Ending Request} {args : List String}
    {r : Request} (h : parse args = .ok r) : answer parse args = r.reply := by
  rw [answer, h]

theorem Request.reply_of_ok {r : Request} (hr : r.listing = false) {v : Option Value}
    (h : r.outcome = .ok v) : r.reply = ⟨0, (resultJson v).pretty ++ "\n", ""⟩ := by
  rw [reply, hr, h]
  rfl

theorem Request.reply_of_error {r : Request} (hr : r.listing = false) {fault : Fault}
    (h : r.outcome = .error fault) : r.reply = ⟨1, "", "error: " ++ fault.message ++ "\n"⟩ := by
  rw [reply, hr, h]
  rfl

/-! ## Two lists of assignments -/

section Agreeing

variable {hidden : String → Prop} {vars vars' : Variables} {as bs : List Assignment}

theorem agree_assigned (h : Agree hidden vars vars') (as : List Assignment) :
    Agree hidden (assigned vars as) (assigned vars' as) := by
  induction as generalizing vars vars' with
  | nil => exact h
  | cons a as ih => exact ih (h.edit a.name (some a.value))

/-- Where two lists of variables differ in one name, they do not after an assignment to it. -/
theorem agree_insert {name : String} (h : Agree (· = name) vars vars') (v : Value) :
    Agree (fun _ => False) (vars.insert name v) (vars'.insert name v) := by
  intro name' _
  rw [Variables.get?_insert, Variables.get?_insert]
  split
  · rfl
  · next hne => exact h name' hne

/-- Assignments to different names may be made in any order. -/
theorem agree_assigned_perm (h : as.Perm bs) (hd : (as.map Assignment.name).Nodup)
    (vars : Variables) : Agree (fun _ => False) (assigned vars as) (assigned vars bs) := by
  induction h generalizing vars with
  | nil => exact fun _ _ => rfl
  | cons a _ ih => exact ih (List.nodup_cons.1 hd).2 _
  | swap a b as =>
    refine agree_assigned ?_ as
    intro name _
    have hne : b.name ≠ a.name := by
      intro heq
      exact (List.nodup_cons.1 hd).1 (heq ▸ List.mem_cons_self)
    simp only [Variables.get?_insert]
    by_cases ha : name = a.name
    · simp [ha, hne.symm]
    · simp [ha]
  | trans hab _ ihab ihbc =>
    have hd' := (hab.map Assignment.name).nodup_iff.1 hd
    intro name hn
    exact (ihab hd vars name hn).trans (ihbc hd' vars name hn)

theorem assignAll_agree (h : Agree hidden vars vars') (texts : List String) :
    Both (Agree hidden) (· = ·) (assignAll vars texts) (assignAll vars' texts) := by
  rw [assignAll_eq, assignAll_eq]
  cases texts.mapM Assignment.read with
  | error fault => exact .error rfl
  | ok as => exact .ok (agree_assigned h as)

theorem assignAll_append (vars : Variables) (texts texts' : List String) :
    assignAll vars (texts ++ texts') = (do
      let vars' ← assignAll vars texts
      assignAll vars' texts') := by
  induction texts generalizing vars with
  | nil => rfl
  | cons text texts ih =>
    rw [List.cons_append, assignAll, assignAll]
    cases Assignment.read text with
    | error fault => rfl
    | ok a => exact ih _

/-- What comes before makes no difference. -/
theorem assignAll_append_agree {texts texts' : List String}
    (h : ∀ vars, Both (Agree hidden) (· = ·) (assignAll vars texts) (assignAll vars texts'))
    (vars : Variables) (before : List String) :
    Both (Agree hidden) (· = ·) (assignAll vars (before ++ texts))
      (assignAll vars (before ++ texts')) := by
  rw [assignAll_append, assignAll_append]
  cases assignAll vars before with
  | error fault => exact .error rfl
  | ok vars' => exact h vars'

end Agreeing

/-- An operator in two scopes that agree, but for names that it does not ask for. With another number
of operands than one neither `$` nor `EXISTS` asks for a name. -/
theorem apply_agree {hidden : String → Prop} {vars vars' : Variables} (h : Agree hidden vars vars')
    {symbol : String} {operands : List Value}
    (hasked : symbol = "$" ∨ symbol = "EXISTS" → ∀ v, operands = [v] → ¬ hidden v.toText) :
    apply symbol operands vars = apply symbol operands vars' := by
  by_cases hs : symbol = "$" ∨ symbol = "EXISTS"
  · by_cases hlength : operands.length = 1
    · obtain ⟨v, rfl⟩ := List.length_eq_one_iff.1 hlength
      refine apply_congr fun name hname => ?_
      obtain ⟨-, a, ha, rfl⟩ := mem_asked hname
      cases ha
      exact h _ (hasked hs v rfl)
    · have harity : ∀ key ∈ builtinOperators.map Operator.key,
          key.1 = "$" ∨ key.1 = "EXISTS" → key.2 = 1 := by
        decide
      have hunlisted : Unlisted symbol operands.length := by
        intro op hop hkey
        have hone := harity op.key (List.mem_map_of_mem hop)
        rw [hkey] at hone
        exact hlength (hone hs)
      have hnone := find?_builtins_eq_none_iff.2 hunlisted
      rw [apply, apply, Catalog.apply_of_find?_eq_none hnone, Catalog.apply_of_find?_eq_none hnone]
  · refine apply_congr fun name hname => ?_
    exact absurd (mem_asked hname).1 hs

theorem Request.reply_congr (r : Request) (hidden : String → Prop) {texts texts' : List String}
    (hvars : Both (Agree hidden) (· = ·) (assignAll .empty texts) (assignAll .empty texts'))
    (hasked : r.symbol.getD "" = "$" ∨ r.symbol.getD "" = "EXISTS" →
      ∀ text v, r.operands = [text] → Value.read text = .ok v → ¬ hidden v.toText) :
    { r with assignments := texts }.reply = { r with assignments := texts' }.reply := by
  have houtcome : { r with assignments := texts }.outcome =
      { r with assignments := texts' }.outcome := by
    rw [outcome_eq, outcome_eq]
    refine hvars.bind_eq fun vars vars' h => ?_
    cases ho : r.operands.mapM Value.read with
    | error fault => rfl
    | ok operands =>
      refine apply_agree h ?_
      rintro hs v rfl
      obtain ⟨text, texts, hread, hrest, hoperands⟩ :=
        List.forall₂_cons_right_iff.1 (mapM_eq_ok_iff.1 ho)
      rw [List.forall₂_nil_right_iff.1 hrest] at hoperands
      exact hasked hs text v hoperands hread
  rw [reply, reply, houtcome]

section Pairs

variable {r : Request} {before between after texts texts' : List String} {a b : Assignment}

/-- An assignment is lost when another one to its name follows. -/
theorem reply_overwritten {text text' : String} (ha : Assignment.read text = .ok a)
    (hb : Assignment.read text' = .ok b) (hname : a.name = b.name) :
    { r with assignments := before ++ text :: between ++ text' :: after }.reply =
      { r with assignments := before ++ between ++ text' :: after }.reply := by
  refine r.reply_congr (fun _ => False) ?_ fun _ _ _ _ _ => id
  rw [List.append_assoc, List.append_assoc]
  refine assignAll_append_agree (fun vars => ?_) .empty before
  have hfirst : assignAll vars (text :: (between ++ text' :: after)) =
      assignAll (vars.insert a.name a.value) (between ++ text' :: after) := by
    rw [assignAll, ha]
    rfl
  have hself : Agree (· = b.name) vars vars := fun _ _ => rfl
  have hvars : Agree (· = b.name) (vars.insert a.name a.value) vars :=
    hself.edit_left hname (some a.value)
  rw [List.cons_append, hfirst, assignAll_append, assignAll_append]
  refine (assignAll_agree hvars between).bind fun w w' hw => ?_
  rw [assignAll, assignAll, hb]
  exact assignAll_agree (agree_insert hw b.value) after

theorem reply_perm (h : texts.Perm texts') {as : List Assignment}
    (ha : List.Forall₂ (fun text a => Assignment.read text = .ok a) texts as)
    (hd : (as.map Assignment.name).Nodup) :
    { r with assignments := before ++ texts ++ after }.reply =
      { r with assignments := before ++ texts' ++ after }.reply := by
  refine r.reply_congr (fun _ => False) ?_ fun _ _ _ _ _ => id
  rw [List.append_assoc, List.append_assoc]
  refine assignAll_append_agree (fun vars => ?_) .empty before
  obtain ⟨bs, hb, hperm⟩ := List.perm_comp_forall₂ h.symm ha
  rw [assignAll_append, assignAll_append, assignAll_eq, assignAll_eq, mapM_eq_ok_iff.2 ha,
    mapM_eq_ok_iff.2 hb]
  exact assignAll_agree (agree_assigned_perm hperm.symm hd vars) after

theorem reply_added {added : List String}
    (h : ∀ text ∈ added, ∃ a, Assignment.read text = .ok a ∧
      (r.symbol.getD "" = "$" ∨ r.symbol.getD "" = "EXISTS" →
        ∀ operand v, r.operands = [operand] → Value.read operand = .ok v → a.name ≠ v.toText)) :
    { r with assignments := before ++ added ++ after }.reply =
      { r with assignments := before ++ after }.reply := by
  obtain ⟨as, ha, hother⟩ := exists_mapM_eq_ok h
  refine r.reply_congr (fun name => ∃ a ∈ as, a.name = name) ?_ ?_
  · rw [List.append_assoc]
    refine assignAll_append_agree (fun vars => ?_) .empty before
    have hagree : Agree (fun name => ∃ a ∈ as, a.name = name) (assigned vars as) vars := by
      intro name hn
      exact get?_assigned_of_ne (fun a ha heq => hn ⟨a, ha, heq⟩) vars
    rw [assignAll_append, assignAll_eq, ha]
    exact assignAll_agree hagree after
  · rintro hs operand v hoperand hv ⟨a, ha, heq⟩
    exact hother a ha hs operand v hoperand hv heq

end Pairs

/-- **Requests.** Arguments that a parser takes as a request are answered by it. Unless a listing is
asked for, the first assignment that cannot be read decides, then the first operand, and then the
application, which fails too when no operator has the symbol and the number of operands. A failure is
all that is reported then, and nothing is printed; else the result is printed as pretty JSON, null when
there is none. The operator sees what the last assignment to a name, without the blanks around it, gives
to it. So an assignment that another one to its name follows can be left out, assignments to different
names can be made in any order, and assignments to names that the operator does not ask for make no
difference: only `$` and `EXISTS` ask for one, the text of their operand. -/
theorem requests_answered :
    (∀ (parse : List String → Except Ending Request) (args : List String) (r : Request),
      parse args = .ok r → answer parse args = r.reply) ∧
    (∀ r : Request, r.listing = false →
      (∃! o, r.ComesTo o) ∧
      (∀ fault, r.ComesTo (.error fault) → r.reply = ⟨1, "", "error: " ++ fault.message ++ "\n"⟩) ∧
      (∀ v, r.ComesTo (.ok (some v)) → r.reply = ⟨0, (Json.ofValue v).pretty ++ "\n", ""⟩) ∧
      (r.ComesTo (.ok none) → r.reply = ⟨0, "null\n", ""⟩)) ∧
    (∀ symbol operands lookup, Unlisted symbol operands.length →
      builtins.apply symbol operands lookup = .error (.unknownOperator symbol operands.length)) ∧
    (∀ text a, Assignment.read text = .ok a → ∃ before after : String,
      text = before ++ "=" ++ after ∧ '=' ∉ before.toList ∧
      a.name = String.ofList (trim before.toList)) ∧
    ∀ (r : Request) (before after : List String),
      (∀ between text text' a b, Assignment.read text = .ok a → Assignment.read text' = .ok b →
        a.name = b.name →
        { r with assignments := before ++ text :: between ++ text' :: after }.reply =
          { r with assignments := before ++ between ++ text' :: after }.reply) ∧
      (∀ texts texts' as, texts.Perm texts' →
        List.Forall₂ (fun text a => Assignment.read text = .ok a) texts as →
        (as.map Assignment.name).Nodup →
        { r with assignments := before ++ texts ++ after }.reply =
          { r with assignments := before ++ texts' ++ after }.reply) ∧
      ∀ added, (∀ text ∈ added, ∃ a, Assignment.read text = .ok a ∧
          (r.symbol.getD "" = "$" ∨ r.symbol.getD "" = "EXISTS" → ∀ operand v,
            r.operands = [operand] → Value.read operand = .ok v → a.name ≠ v.toText)) →
        { r with assignments := before ++ added ++ after }.reply =
          { r with assignments := before ++ after }.reply := by
  refine ⟨?_, ?_, ?_, ?_, ?_⟩
  · intro parse args r hr
    exact answer_of_ok hr
  · intro r hlisting
    have hok : ∀ v, r.ComesTo (.ok v) → r.reply = ⟨0, (resultJson v).pretty ++ "\n", ""⟩ :=
      fun _ h => Request.reply_of_ok hlisting (Request.comesTo_iff.1 h)
    have herror : ∀ fault, r.ComesTo (.error fault) →
        r.reply = ⟨1, "", "error: " ++ fault.message ++ "\n"⟩ :=
      fun _ h => Request.reply_of_error hlisting (Request.comesTo_iff.1 h)
    refine ⟨⟨r.outcome, Request.comesTo_iff.2 rfl, ?_⟩, herror, fun v => hok (some v), hok none⟩
    intro o ho
    exact (Request.comesTo_iff.1 ho).symm
  · intro symbol operands lookup hunlisted
    exact Catalog.apply_of_find?_eq_none (find?_builtins_eq_none_iff.2 hunlisted) lookup
  · intro text a ha
    obtain ⟨before, after, htext, hbefore, hname, -⟩ := Assignment.exists_cut_of_read ha
    exact ⟨before, after, htext, hbefore, hname⟩
  · intro r before after
    refine ⟨?_, ?_, ?_⟩
    · intro between text text' a b ha hb hname
      exact reply_overwritten ha hb hname
    · intro texts texts' as hperm ha hd
      exact reply_perm hperm ha hd
    · intro added h
      exact reply_added h

/-- A variable that is asked for is assigned twice, once with blanks around its name, and another one
before. Then a text that is no assignment comes before one without a name and an operand without a
value. -/
theorem requests_answered_repeated :
    let asking (texts : List String) : Request := ⟨false, true, texts, some "$", ["x"]⟩
    (asking ["x=a", "y=q", "\u2003x =b"]).reply = ⟨0, "\"b\"\n", ""⟩ ∧
    (asking ["y=q", "\u2003x =b"]).reply = (asking ["\u2003x =b", "y=q"]).reply ∧
    (asking ["y=q", "\u2003x =b"]).reply = (asking ["\u2003x =b"]).reply ∧
    (⟨false, false, ["y=q", "x", "=1"], some "$", ["null"]⟩ : Request).reply =
      ⟨1, "", "error: conversion error: expected name=value, got `x`\n"⟩ := by
  intro asking
  obtain ⟨-, hsingle, -, -, hpairs⟩ := requests_answered
  have ha : Assignment.read "x=a" = .ok ⟨"x", .text "a"⟩ := by rfl
  have hy : Assignment.read "y=q" = .ok ⟨"y", .text "q"⟩ := by rfl
  have hb : Assignment.read "\u2003x =b" = .ok ⟨"x", .text "b"⟩ := by rfl
  have hx : Value.read "x" = .ok (.text "x") := by rfl
  obtain ⟨hoverwritten, hperm, -⟩ := hpairs (asking []) [] []
  have hassigned : List.Forall₂ (fun text a => Assignment.read text = .ok a) ["\u2003x =b"]
      [⟨"x", .text "b"⟩] := .cons hb .nil
  have hnamed : List.Forall₂ (fun text v => Value.read text = .ok v) ["x"] [.text "x"] :=
    .cons hx .nil
  have happlied : builtins.apply "$" [.text "x"] (lastAssigned [⟨"x", .text "b"⟩]) =
      .ok (some (.text "b")) := by
    rfl
  have hfound : (asking ["\u2003x =b"]).ComesTo (.ok (some (.text "b"))) :=
    happlied ▸ .application hassigned hnamed
  obtain ⟨-, -, hprinted, -⟩ := hsingle (asking ["\u2003x =b"]) rfl
  have hleftOut : (asking ["y=q", "\u2003x =b"]).reply = (asking ["\u2003x =b"]).reply := by
    refine (hpairs (asking []) [] ["\u2003x =b"]).2.2 ["y=q"] ?_
    rw [List.forall_mem_singleton]
    refine ⟨_, hy, fun _ operand v hoperand hv => ?_⟩
    cases hoperand
    rw [hx] at hv
    cases hv
    decide
  have hlast := hoverwritten ["y=q"] "x=a" "\u2003x =b" _ _ ha hb rfl
  refine ⟨(hlast.trans hleftOut).trans (hprinted _ hfound), ?_, hleftOut, ?_⟩
  · exact hperm _ _ [⟨"y", .text "q"⟩, ⟨"x", .text "b"⟩] (.swap _ _ []) (.cons hy hassigned)
      (by decide)
  · let failing : Request := ⟨false, false, ["y=q", "x", "=1"], some "$", ["null"]⟩
    obtain ⟨-, hfailed, -, -⟩ := hsingle failing rfl
    refine hfailed (.notAssignment "x") (.assignment ⟨["y=q"], "x", ["=1"], rfl, ?_, rfl⟩)
    simp [hy]

end Formula.CommandLine
