import Formula.Program
import Formula.Proofs.Operator.Faults
/-!
# Names that matter

A scope has an effect on an application through at most one name, the text of the operand of `$` or
`EXISTS`. So two scopes that agree on this name are as good as one another, and two runs give the same
answers when their variables differ only in names that the run never asks for, whoever changes these
variables and when.

Results:
* `Operator.Provided.evaluate_congr`, `apply_congr`: one application, in two scopes of any types.
* `Variables.Agree.edit`, `Variables.Agree.update`: variables that agree on some names still do after
  a step.
* `Event.runFrom_congr`: two runs in lock step.
* `noninterference`: applications and runs.
-/
namespace Formula

/-! ## One application -/

/-- The name that an application asks for, if it asks for one. -/
def asked (symbol : String) (operands : List Value) : Option String :=
  if symbol = "$" ∨ symbol = "EXISTS" then operands.head?.map Value.toText else none

theorem asked_eq_none {symbol : String} (h : symbol ≠ "$") (h' : symbol ≠ "EXISTS")
    (operands : List Value) : asked symbol operands = none :=
  if_neg fun hs => hs.elim h h'

theorem mem_asked {symbol name : String} {operands : List Value} (h : name ∈ asked symbol operands) :
    (symbol = "$" ∨ symbol = "EXISTS") ∧ ∃ a ∈ operands.head?, a.toText = name := by
  unfold asked at h
  split at h
  · next hs =>
    obtain ⟨a, ha, rfl⟩ := Option.map_eq_some_iff.1 h
    exact ⟨hs, a, ha, rfl⟩
  · cases h

/-- Two operators ask for a name, and the others look nothing up. -/
theorem Operator.Provided.evaluate_congr {op : Operator} (h : op.Provided) {lookup lookup' : Lookup}
    {operands : List Value}
    (hasked : ∀ name ∈ asked op.symbol operands, lookup name = lookup' name) :
    op.evaluate lookup operands = op.evaluate lookup' operands := by
  cases h with
  | resolve =>
    cases operands with
    | nil => rfl
    | cons a rest =>
      have ha := hasked a.toText rfl
      simp only [Operator.resolve, Operator.unary_cons, ha]
  | existence =>
    cases operands with
    | nil => rfl
    | cons a rest =>
      have ha := hasked a.toText rfl
      simp only [Operator.existence, Operator.unary_cons, ha]
  | _ => rfl

theorem apply_congr {σ τ : Type} [Scope σ] [Scope τ] {c : σ} {d : τ} {symbol : String}
    {operands : List Value}
    (h : ∀ name ∈ asked symbol operands, Scope.lookup c name = Scope.lookup d name) :
    apply symbol operands c = apply symbol operands d := by
  unfold apply
  cases hfind : builtins.find? symbol operands.length with
  | none => rw [Catalog.apply_of_find?_eq_none hfind, Catalog.apply_of_find?_eq_none hfind]
  | some op =>
    have hprovided := Operator.provided_of_mem (find?_builtins.1 hfind).1
    have hsymbol : op.symbol = symbol := congrArg Prod.fst (find?_builtins.1 hfind).2
    rw [Catalog.apply_of_find?_eq_some hfind, Catalog.apply_of_find?_eq_some hfind,
      hprovided.evaluate_congr (hsymbol ▸ h)]

section Naming

variable {σ : Type} [Scope σ] (a : Value) (c : σ)

theorem apply_resolve : apply "$" [a] c = .ok (Scope.lookup c a.toText) := rfl

theorem apply_existence :
    apply "EXISTS" [a] c = .ok (some (.boolean (Scope.lookup c a.toText).isSome)) := rfl

end Naming

/-! ## Variables that agree -/

namespace Variables

/-- The variables have the same values, but for the hidden names. -/
def Agree (hidden : String → Prop) (vars vars' : Variables) : Prop :=
  ∀ name, ¬ hidden name → vars.get? name = vars'.get? name

/-- A variable gets a value, or is forgotten when there is none. -/
def edit (vars : Variables) (name : String) : Option Value → Variables
  | some v => vars.insert name v
  | none => (vars.remove name).2

theorem get?_insert (vars : Variables) (name : String) (v : Value) (name' : String) :
    (vars.insert name v).get? name' = if name' = name then some v else vars.get? name' :=
  Assoc.get?_put_of_lawful vars.bindings name name' v

theorem get?_edit (vars : Variables) (name : String) (value? : Option Value) (name' : String) :
    (vars.edit name value?).get? name' = if name' = name then value? else vars.get? name' := by
  cases value? with
  | some v => exact get?_insert vars name v name'
  | none => exact Assoc.get?_take_of_lawful vars.nodup name name'

variable {hidden : String → Prop} {vars vars' : Variables}

theorem Agree.symm (h : Agree hidden vars vars') : Agree hidden vars' vars :=
  fun name hn => (h name hn).symm

theorem Agree.edit (h : Agree hidden vars vars') (name : String) (value? : Option Value) :
    Agree hidden (vars.edit name value?) (vars'.edit name value?) := by
  intro name' hn
  rw [get?_edit, get?_edit, h name' hn]

theorem Agree.edit_left (h : Agree hidden vars vars') {name : String} (hname : hidden name)
    (value? : Option Value) : Agree hidden (vars.edit name value?) vars' := by
  intro name' hn
  have hne : name' ≠ name := by
    intro heq
    exact hn (heq ▸ hname)
  rw [get?_edit, if_neg hne, h name' hn]

theorem Agree.edit_right (h : Agree hidden vars vars') {name : String} (hname : hidden name)
    (value? : Option Value) : Agree hidden vars (vars'.edit name value?) :=
  (h.symm.edit_left hname value?).symm

theorem Agree.update (h : Agree hidden vars vars') (s : Step) (a : Answer) :
    Agree hidden (s.update vars a) (s.update vars' a) := by
  unfold Step.update
  split
  · next name v _ _ => exact h.edit name (some v)
  · exact h

end Variables

open Variables (Agree)

/-! ## Runs -/

/-- What happens in a run: a step of the program, or somebody else's change of a variable. -/
inductive Event where
  | step (s : Step)
  | edit (name : String) (value? : Option Value)

/-- The name that a step asks for, if its operands are all there. -/
def Step.asked (answers : List Answer) (s : Step) : Option String :=
  (s.arguments.mapM (Argument.resolve answers)).bind (Formula.asked s.symbol)

namespace Event

/-- The answers of the steps, after the given ones. -/
def runFrom (vars : Variables) (answers : List Answer) : List Event → List Answer
  | [] => answers
  | .step s :: events =>
    let a := s.answer vars answers
    runFrom (s.update vars a) (answers ++ [a]) events
  | .edit name value? :: events => runFrom (vars.edit name value?) answers events

/-- The names that the steps ask for. -/
def askedFrom (vars : Variables) (answers : List Answer) : List Event → List String
  | [] => []
  | .step s :: events =>
    let a := s.answer vars answers
    (s.asked answers).toList ++ askedFrom (s.update vars a) (answers ++ [a]) events
  | .edit name value? :: events => askedFrom (vars.edit name value?) answers events

/-- The same steps and the same changes, but for changes of hidden variables. -/
inductive SameBut (hidden : String → Prop) : List Event → List Event → Prop where
  | nil : SameBut hidden [] []
  | cons (e : Event) {es fs : List Event} (h : SameBut hidden es fs) :
    SameBut hidden (e :: es) (e :: fs)
  | left {name : String} (value? : Option Value) {es fs : List Event} (hname : hidden name)
    (h : SameBut hidden es fs) : SameBut hidden (.edit name value? :: es) fs
  | right {name : String} (value? : Option Value) {es fs : List Event} (hname : hidden name)
    (h : SameBut hidden es fs) : SameBut hidden es (.edit name value? :: fs)

theorem SameBut.refl (hidden : String → Prop) (es : List Event) : SameBut hidden es es := by
  induction es with
  | nil => exact .nil
  | cons e es ih => exact .cons e ih

/-- A program that nobody interferes with. -/
theorem runFrom_map_step (vars : Variables) (answers : List Answer) (steps : List Step) :
    runFrom vars answers (steps.map .step) = Formula.runFrom vars answers steps := by
  induction steps generalizing vars answers with
  | nil => rfl
  | cons s steps ih => exact ih _ _

/-- A step answers the same when the name that it asks for is not hidden. -/
theorem answer_congr {hidden : String → Prop} {vars vars' : Variables} (hv : Agree hidden vars vars')
    {answers : List Answer} {s : Step} (h : ∀ name ∈ s.asked answers, ¬ hidden name) :
    s.answer vars answers = s.answer vars' answers := by
  unfold Step.answer
  unfold Step.asked at h
  cases hoperands : s.arguments.mapM (Argument.resolve answers) with
  | none => rfl
  | some operands =>
    rw [hoperands] at h
    have happly : apply s.symbol operands vars = apply s.symbol operands vars' :=
      apply_congr fun name hname => hv name (h name hname)
    simp only [happly]

/-- Two runs in lock step: the answers so far are the same, and the variables agree. -/
theorem runFrom_congr {hidden : String → Prop} {es fs : List Event} (h : SameBut hidden es fs)
    {vars vars' : Variables} (hv : Agree hidden vars vars') {answers : List Answer}
    (hasked : ∀ name ∈ askedFrom vars answers es, ¬ hidden name) :
    runFrom vars answers es = runFrom vars' answers fs := by
  induction h generalizing vars vars' answers with
  | nil => rfl
  | @cons e es fs _ ih =>
    cases e with
    | step s =>
      simp only [askedFrom, List.mem_append, Option.mem_toList] at hasked
      have ha := answer_congr hv fun name hname => hasked name (.inl hname)
      simp only [runFrom, ← ha]
      exact ih (hv.update s _) fun name hname => hasked name (.inr hname)
    | edit name value? => exact ih (hv.edit name value?) hasked
  | left value? hname _ ih => exact ih (hv.edit_left hname value?) hasked
  | right value? hname _ ih => exact ih (hv.edit_right hname value?) hasked

end Event

/-- **Noninterference.** No operator but `$` and `EXISTS` depends on the scope, and these two depend on
what the scope has under the text of their operand, whatever kind of scope it is; `EXISTS` tells
whether `$` finds something. So a program gives the same answers whatever happens, before the run
or in the course of it, to variables whose names are not among the texts of the operands that it gives
to `$` and `EXISTS`. -/
theorem noninterference :
    (∀ {σ τ : Type} [Scope σ] [Scope τ] (c : σ) (d : τ) (symbol : String) (operands : List Value),
      (symbol ≠ "$" → symbol ≠ "EXISTS" → apply symbol operands c = apply symbol operands d) ∧
      ((∀ a ∈ operands.head?, Scope.lookup c a.toText = Scope.lookup d a.toText) →
        apply symbol operands c = apply symbol operands d)) ∧
    (∀ {σ : Type} [Scope σ] (c : σ) (a : Value), ∃ value?, apply "$" [a] c = .ok value? ∧
      apply "EXISTS" [a] c = .ok (some (.boolean value?.isSome))) ∧
    (∀ (hidden : String → Prop) (vars vars' : Variables),
      (∀ name, ¬ hidden name → vars.get? name = vars'.get? name) →
      (∀ steps : List Step,
        (∀ name ∈ Event.askedFrom vars [] (steps.map .step), ¬ hidden name) →
        run vars steps = run vars' steps) ∧
      (∀ events events' : List Event, Event.SameBut hidden events events' →
        (∀ name ∈ Event.askedFrom vars [] events, ¬ hidden name) →
        Event.runFrom vars [] events = Event.runFrom vars' [] events')) := by
  refine ⟨?_, ?_, ?_⟩
  · intro σ τ _ _ c d symbol operands
    refine ⟨?_, ?_⟩
    · intro hresolve hexistence
      refine apply_congr ?_
      rw [asked_eq_none hresolve hexistence]
      exact nofun
    · intro hagree
      refine apply_congr fun name hname => ?_
      obtain ⟨-, a, ha, rfl⟩ := mem_asked hname
      exact hagree a ha
  · intro σ _ c a
    exact ⟨_, apply_resolve a c, apply_existence a c⟩
  · intro hidden vars vars' hv
    refine ⟨?_, ?_⟩
    · intro steps hasked
      have hrun := Event.runFrom_congr (.refl hidden (steps.map .step)) hv hasked
      rwa [Event.runFrom_map_step, Event.runFrom_map_step] at hrun
    · intro events events' hsame hasked
      exact Event.runFrom_congr hsame hv hasked

/-- The name that is asked for is the result of a step, and neither an absent variable nor a change
behind the back of the program is noticed. -/
theorem noninterference_computed_name :
    let vars : Variables := .ofList [("a1.0", .number 5.0), ("other", .text "x")]
    let steps : List Step := [⟨"+", [.value (.text "a"), .value (.number 1.0)], some "key"⟩,
      ⟨"$", [.result 0], none⟩, ⟨"EXISTS", [.value (.text "key")], some "other"⟩]
    let edits : List Event := [.edit "other" (some (.boolean true)), .edit "other" none]
    Event.askedFrom vars [] (steps.map .step) = ["a1.0", "key"] ∧
      run vars steps = run (vars.edit "other" none) steps ∧
      Event.runFrom vars [] (steps.map .step) =
        Event.runFrom vars [] (edits ++ steps.map .step) := by
  intro vars steps edits
  have hasked : Event.askedFrom vars [] (steps.map .step) = ["a1.0", "key"] := by rfl
  have hhidden : ∀ name ∈ Event.askedFrom vars [] (steps.map .step), ¬ name = "other" := by
    rw [hasked]
    decide
  have hagree : Agree (· = "other") vars vars := fun _ _ => rfl
  have hedits : Event.SameBut (· = "other") (steps.map .step) (edits ++ steps.map .step) :=
    .right _ rfl (.right _ rfl (.refl _ _))
  obtain ⟨-, -, hruns⟩ := noninterference
  refine ⟨hasked, ?_, ?_⟩
  · exact (hruns _ vars _ (hagree.edit_right rfl none)).1 steps hhidden
  · exact (hruns _ vars vars hagree).2 _ _ hedits hhidden

end Formula
