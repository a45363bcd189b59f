import Formula.CommandLine.Reply
import Formula.Proofs.Interference
import Formula.Proofs.Json.RoundTrip
/-!
# Variables on the command line

The assignments of a request are read one by one, and then made from left to right. So a variable that
is asked for has what the last assignment to its name was read as, whatever else is assigned.

Results:
* `assignAll_eq`: the assignments are read first, and the first that cannot be read decides.
* `get?_assigned_append`: the last assignment to a name counts.
* `outcome_resolving`: what a request for a variable finds.
* `assignments_read_like_operands`: from the text of an assignment to what is printed.
-/
namespace Formula.CommandLine

/-! ## Assignments -/

def assigned (vars : Variables) (assignments : List Assignment) : Variables :=
  assignments.foldl (fun vars a => vars.insert a.name a.value) vars

theorem assignAll_eq (vars : Variables) (texts : List String) :
    assignAll vars texts = (texts.mapM Assignment.read).map (assigned vars) := by
  induction texts generalizing vars with
  | nil => rfl
  | cons text texts ih =>
    rw [assignAll, List.mapM_cons]
    cases Assignment.read text with
    | error fault => rfl
    | ok a =>
      show assignAll (vars.insert a.name a.value) texts = _
      rw [ih]
      cases texts.mapM Assignment.read <;> rfl

section Assigned

variable {as bs : List Assignment} {name : String}

theorem get?_assigned_of_ne (h : ∀ a ∈ as, a.name ≠ name) (vars : Variables) :
    (assigned vars as).get? name = vars.get? name := by
  induction as generalizing vars with
  | nil => rfl
  | cons a as ih =>
    obtain ⟨ha, has⟩ := List.forall_mem_cons.1 h
    have hrest := ih has (vars.insert a.name a.value)
    rwa [Variables.get?_insert, if_neg ha.symm] at hrest

theorem get?_assigned_append {a : Assignment} (h : ∀ b ∈ bs, b.name ≠ a.name) (vars : Variables)
    (as : List Assignment) : (assigned vars (as ++ a :: bs)).get? a.name = some a.value := by
  rw [assigned, List.foldl_append, List.foldl_cons]
  refine (get?_assigned_of_ne h _).trans ?_
  rw [Variables.get?_insert, if_pos rfl]

end Assigned

/-! ## Operands that name a variable -/

/-- The operand is a JSON string of the name, however it is spelled, or the name itself, which then is
no JSON. -/
def Names (operand name : String) : Prop :=
  Json.read? operand = some (.string name) ∨ Json.read? operand = none ∧ operand = name

theorem names_quoted (name : String) : Names (Json.string name).compact name := by
  have hprinted : (Json.string name).PrintedAs (Json.string name).compact :=
    ⟨_, List.mem_cons_self, "", List.mem_cons_self, String.append_empty.symm⟩
  exact .inl ((Json.WellFormed.string name).read?_printed nofun hprinted)

theorem Names.read_eq {operand name : String} (h : Names operand name) :
    Value.read operand = .ok (.text name) := by
  unfold Value.read
  obtain h | ⟨h, rfl⟩ := h
  · rw [h]
    rfl
  · rw [h]

/-! ## Requests for a variable -/

/-- The request for the variable that the operand names. -/
def resolving (verbose : Bool) (texts : List String) (operand : String) : Request :=
  ⟨false, verbose, texts, some "$", [operand]⟩

section Resolving

variable {name operand : String} (h : Names operand name) (verbose : Bool)
include h

theorem outcome_resolving (texts : List String) :
    (resolving verbose texts operand).outcome =
      (texts.mapM Assignment.read).map fun as => (assigned .empty as).get? name := by
  have hoperands : [operand].mapM Value.read = .ok [.text name] := by
    rw [List.mapM_cons, h.read_eq]
    rfl
  show (do
    let vars ← assignAll .empty texts
    let operands ← [operand].mapM Value.read
    apply "$" operands vars) = _
  rw [hoperands, assignAll_eq]
  cases texts.mapM Assignment.read with
  | error fault => rfl
  | ok as =>
    refine (apply_resolve (.text name) (assigned .empty as)).trans ?_
    rw [Value.toText_text]
    rfl

/-- Among assignments to other names, the one to the name decides. -/
theorem outcome_resolving_assigned (hname : '=' ∉ name.toList) (hblank : ¬ IsBlankText name)
    (htrim : trim name.toList = name.toList) {before after : List String}
    (hothers : ∀ text ∈ before ++ after, ∃ a, Assignment.read text = .ok a ∧ a.name ≠ name)
    (body : String) :
    (resolving verbose (before ++ (name ++ "=" ++ body) :: after) operand).outcome =
      (Value.read body).map some := by
  rw [List.forall_mem_append] at hothers
  obtain ⟨as, has, -⟩ := exists_mapM_eq_ok hothers.1
  obtain ⟨bs, hbs, hne⟩ := exists_mapM_eq_ok hothers.2
  have hread := Assignment.read_append hname hblank body
  rw [htrim, String.ofList_toList] at hread
  rw [outcome_resolving h, List.mapM_append, List.mapM_cons, has, hbs, hread]
  cases Value.read body with
  | error fault => rfl
  | ok v => exact congrArg Except.ok (get?_assigned_append (a := ⟨name, v⟩) hne .empty as)

end Resolving

/-- **Assignments and operands are read alike, and the command shows it.** A text without an equals sign
is no assignment. Any other text is cut at the first one: it assigns to no name if there are only blanks
before it, and else to what is there without the blanks around it, the value that an operand like the
rest of the text has. An operand has none for one reason, a null somewhere in a document, which is a
conversion error like the other two. So when the command is asked for a variable, by the JSON string of
its name or by the name itself if that is no JSON, it prints what was assigned to it, whatever else is
assigned before and after, or says why that has no value. -/
theorem assignments_read_like_operands :
    (∀ text : String, '=' ∉ text.toList → Assignment.read text = .error (.notAssignment text)) ∧
    (∀ text : String, '=' ∈ text.toList → ∃ before after : String,
      text = before ++ "=" ++ after ∧ '=' ∉ before.toList ∧
      Assignment.read text =
        if trim before.toList = [] then .error .blankName
        else (Value.read after).map fun v => ⟨String.ofList (trim before.toList), v⟩) ∧
    (∀ (text : String) (fault : Fault), Value.read text = .error fault ↔
      fault = .nullValue ∧ ∃ j, Json.read? text = some j ∧ Json.Within .null j) ∧
    (∀ name : String, Names (Json.string name).compact name) ∧
    ∀ {name : String}, '=' ∉ name.toList → ¬ IsBlankText name → trim name.toList = name.toList →
      ∀ {operand : String}, Names operand name →
      ∀ {before after : List String},
        (∀ text ∈ before ++ after, ∃ a, Assignment.read text = .ok a ∧ a.name ≠ name) →
      ∀ (body : String) (verbose : Bool),
        (∀ v, Value.read body = .ok v →
          (resolving verbose (before ++ (name ++ "=" ++ body) :: after) operand).reply =
            ⟨0, (Json.ofValue v).pretty ++ "\n", ""⟩) ∧
        (∀ fault, Value.read body = .error fault →
          (resolving verbose (before ++ (name ++ "=" ++ body) :: after) operand).reply =
            ⟨1, "", "error: " ++ fault.message ++ "\n"⟩) := by
  refine ⟨fun _ => Assignment.read_of_not_mem, ?_, fun _ _ => Value.read_eq_error_iff,
    names_quoted, ?_⟩
  · intro text htext
    obtain ⟨before, after, rfl, hbefore⟩ := Assignment.exists_cut htext
    exact ⟨before, after, rfl, hbefore, Assignment.read_cut hbefore after⟩
  · intro name hname hblank htrim operand hoperand before after hothers body verbose
    have houtcome := outcome_resolving_assigned hoperand verbose hname hblank htrim hothers body
    refine ⟨?_, ?_⟩
    · intro v hv
      rw [hv] at houtcome
      rw [Request.reply, houtcome]
      rfl
    · intro fault hfault
      rw [hfault] at houtcome
      rw [Request.reply, houtcome]
      rfl

/-- A name with characters that its JSON string escapes, asked for by this string and as it stands. What
is assigned to it is a text that begins with an equals sign, and then a document with a null deep in it;
there are assignments to other names around, one of them between blanks. -/
theorem assignments_read_like_operands_escaped :
    let name := "π \"x\"\n\\"
    let literal := "\"π \\\"x\\\"\\n\\\\\""
    let document := "[true,\x7b\"k\":[null]\x7d]"
    let before := ["x" ++ "=" ++ "=1", "\"π\"" ++ "=" ++ "[true"]
    let after := ["\u3000π \"x\"\u2028" ++ "=" ++ ""]
    (resolving true (before ++ (name ++ "=" ++ "=\u00a0\x7ba") :: after) literal).reply =
      ⟨0, "\"=\u00a0\x7ba\"\n", ""⟩ ∧
    (resolving false (before ++ (name ++ "=" ++ document) :: after) name).reply =
      ⟨1, "", "error: conversion error: null has no counterpart in the value domain\n"⟩ := by
  intro name literal document before after
  have htext {s : String} (hs : (Json.read? s).isNone = true) : Names s s :=
    .inr ⟨Option.isNone_iff_eq_none.1 hs, rfl⟩
  have hother {other rest : String} (hequals : '=' ∉ other.toList) (hblank : ¬ IsBlankText other)
      (hrest : (Json.read? rest).isNone = true) (hne : String.ofList (trim other.toList) ≠ name) :
      ∃ a, Assignment.read (other ++ "=" ++ rest) = .ok a ∧ a.name ≠ name := by
    refine ⟨⟨_, .text rest⟩, ?_, hne⟩
    rw [Assignment.read_append hequals hblank, (htext hrest).read_eq]
    rfl
  have hothers : ∀ text ∈ before ++ after, ∃ a, Assignment.read text = .ok a ∧ a.name ≠ name := by
    simp only [before, after, List.cons_append, List.nil_append, List.forall_mem_cons]
    refine ⟨hother ?_ ?_ ?_ ?_, hother ?_ ?_ ?_ ?_, hother ?_ ?_ ?_ ?_, nofun⟩ <;> decide +kernel
  obtain ⟨-, -, hfaults, hquoted, hreply⟩ := assignments_read_like_operands
  have hreply := @hreply name (by decide +kernel) (by decide +kernel) (by decide +kernel)
  have hstring : (Json.string name).compact = literal := by decide +kernel
  have hunread : (Value.read document).toBool = false := by decide +kernel
  refine ⟨?_, ?_⟩
  · obtain ⟨hprinted, -⟩ := hreply (hstring ▸ hquoted name) hothers "=\u00a0\x7ba" true
    exact hprinted _ (htext (by decide +kernel)).read_eq
  · obtain ⟨-, hfailed⟩ := hreply (htext (by decide +kernel)) hothers document false
    cases hread : Value.read document with
    | ok v =>
      rw [hread] at hunread
      cases hunread
    | error fault =>
      rw [hfailed fault hread, ((hfaults _ fault).1 hread).1]
      rfl

end Formula.CommandLine
