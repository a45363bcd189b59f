import Formula.Proofs.Interference
import Formula.Proofs.Reading
import Mathlib.Data.Finset.Card
/-!
# Variables over whole runs

Variables are set, extended, removed and assigned in any order. What a name has after such a run is
decided by the last change that touches it: it has a value when this change gives it one, and none when
the change removes it or when there is no such change. A text that cannot be read as an assignment
changes nothing.

Variables collected from pairs are those that the pairs set from left to right, and a hash map collected
from them has the same values.

Results:
* `get?_perform_of_gives`, `get?_perform_of_not_touches`: one change, and any name.
* `get?_run`: what a name has after a run.
* `replies_run`: what each change of a run answers.
* `size_eq_card_names`: the names that have a value are counted.
* `getElem?_ofList`: the hash map of the same pairs.
-/
namespace Formula.Variables

/-! ## Changes -/

inductive Change where
  | set (name : String) (v : Value)
  /-- sets a name and hands the variables on -/
  | extend (name : String) (v : Value)
  | remove (name : String)
  /-- reads an assignment and sets its name -/
  | assign (text : String)

inductive Reply where
  | previous (value? : Option Value)
  | handedOn
  | rejected (fault : Fault)

/-- What a change answers, and the variables after it. -/
def Change.perform (vars : Variables) : Change → Reply × Variables
  | .set name v =>
    let r := vars.set name v
    (.previous r.1, r.2)
  | .extend name v => (.handedOn, vars.insert name v)
  | .remove name =>
    let r := vars.remove name
    (.previous r.1, r.2)
  | .assign text =>
    match Assignment.read text with
    | .ok a =>
      let r := vars.set a.name a.value
      (.previous r.1, r.2)
    | .error fault => (.rejected fault, vars)

/-- The answers of the changes in their order, and the variables after them. -/
def run (vars : Variables) : List Change → List Reply × Variables
  | [] => ([], vars)
  | c :: changes =>
    let r := c.perform vars
    let rest := run r.2 changes
    (r.1 :: rest.1, rest.2)

/-- The change gives the name a value. -/
inductive Change.Gives : Change → String → Value → Prop where
  | set (name : String) (v : Value) : Gives (.set name v) name v
  | extend (name : String) (v : Value) : Gives (.extend name v) name v
  | assign {text : String} {a : Assignment} (h : Assignment.read text = .ok a) :
    Gives (.assign text) a.name a.value

/-- The change gives the name a value, or removes it. -/
def Change.Touches (c : Change) (name : String) : Prop :=
  c = .remove name ∨ ∃ v, c.Gives name v

/-- What a change answers when the variables are these. -/
inductive Change.Replies (vars : Variables) : Change → Reply → Prop where
  | set (name : String) (v : Value) : Replies vars (.set name v) (.previous (vars.get? name))
  | extend (name : String) (v : Value) : Replies vars (.extend name v) .handedOn
  | remove (name : String) : Replies vars (.remove name) (.previous (vars.get? name))
  | assign {text : String} {a : Assignment} (h : Assignment.read text = .ok a) :
    Replies vars (.assign text) (.previous (vars.get? a.name))
  | rejected {text : String} {fault : Fault} (h : Assignment.read text = .error fault) :
    Replies vars (.assign text) (.rejected fault)

variable {vars : Variables} {c : Change} {name : String} {v : Value}

/-! ## Names that a change touches -/

theorem touches_of_gives (h : c.Gives name v) {name' : String} : c.Touches name' ↔ name = name' := by
  constructor
  · rintro (rfl | ⟨w, h'⟩)
    · cases h
    · cases h with
      | set | extend => cases h'; rfl
      | assign h =>
        cases h' with
        | assign h' =>
          rw [h] at h'
          cases h'
          rfl
  · rintro rfl
    exact .inr ⟨v, h⟩

theorem touches_remove {name' : String} : (Change.remove name).Touches name' ↔ name = name' := by
  constructor
  · rintro (h | ⟨w, h⟩)
    · cases h
      rfl
    · cases h
  · rintro rfl
    exact .inl rfl

theorem not_touches_rejected {text : String} {fault : Fault}
    (h : Assignment.read text = .error fault) : ¬ (Change.assign text).Touches name := by
  rintro (h' | ⟨w, h'⟩)
  · cases h'
  · cases h' with
    | assign h' =>
      rw [h] at h'
      cases h'

/-! ## One change -/

theorem perform_assign {text : String} {a : Assignment} (h : Assignment.read text = .ok a)
    (vars : Variables) :
    (Change.assign text).perform vars = (Change.set a.name a.value).perform vars := by
  simp only [Change.perform, h]

theorem perform_rejected {text : String} {fault : Fault} (h : Assignment.read text = .error fault)
    (vars : Variables) : (Change.assign text).perform vars = (.rejected fault, vars) := by
  simp only [Change.perform, h]

theorem get?_perform_of_gives (h : c.Gives name v) (vars : Variables) (name' : String) :
    (c.perform vars).2.get? name' = if name' = name then some v else vars.get? name' := by
  cases h with
  | set | extend => exact get?_insert vars name v name'
  | assign h =>
    rw [perform_assign h]
    exact get?_insert vars _ _ name'

theorem get?_perform_remove (vars : Variables) (name name' : String) :
    ((Change.remove name).perform vars).2.get? name' =
      if name' = name then none else vars.get? name' :=
  get?_edit vars name none name'

theorem get?_perform_of_not_touches (h : ¬ c.Touches name) (vars : Variables) :
    (c.perform vars).2.get? name = vars.get? name := by
  have hgives {name' : String} {v : Value} (hc : c.Gives name' v) :
      (c.perform vars).2.get? name = vars.get? name := by
    rw [get?_perform_of_gives hc, if_neg fun heq => h ((touches_of_gives hc).2 heq.symm)]
  cases c with
  | set name' v => exact hgives (.set name' v)
  | extend name' v => exact hgives (.extend name' v)
  | remove name' => rw [get?_perform_remove, if_neg fun heq => h (touches_remove.2 heq.symm)]
  | assign text =>
    cases hread : Assignment.read text with
    | ok a => exact hgives (.assign hread)
    | error fault => rw [perform_rejected hread]

theorem replies_perform (c : Change) (vars : Variables) :
    c.Replies vars (c.perform vars).1 := by
  have hset (name : String) (v : Value) :
      ((Change.set name v).perform vars).1 = .previous (vars.get? name) :=
    congrArg Reply.previous (set_fst vars name v)
  have hremove (name : String) :
      ((Change.remove name).perform vars).1 = .previous (vars.get? name) :=
    congrArg Reply.previous (remove_fst vars name)
  cases c with
  | set name v =>
    rw [hset]
    exact .set name v
  | extend name v => exact .extend name v
  | remove name =>
    rw [hremove]
    exact .remove name
  | assign text =>
    cases hread : Assignment.read text with
    | ok a =>
      rw [perform_assign hread, hset]
      exact .assign hread
    | error fault =>
      rw [perform_rejected hread]
      exact .rejected hread

/-! ## Runs -/

section Runs

variable {changes : List Change}

theorem run_append (vars : Variables) (before after : List Change) :
    run vars (before ++ after) =
      ((run vars before).1 ++ (run (run vars before).2 after).1,
        (run (run vars before).2 after).2) := by
  induction before generalizing vars with
  | nil => rfl
  | cons c before ih =>
    simp only [List.cons_append, run, ih]

theorem length_run (vars : Variables) (changes : List Change) :
    (run vars changes).1.length = changes.length := by
  induction changes generalizing vars with
  | nil => rfl
  | cons c changes ih => simp only [run, List.length_cons, ih]

theorem replies_run (vars : Variables) (before : List Change) (c : Change) (after : List Change) :
    ∃ reply, (run vars (before ++ c :: after)).1[before.length]? = some reply ∧
      c.Replies (run vars before).2 reply := by
  refine ⟨(c.perform (run vars before).2).1, ?_, replies_perform c _⟩
  rw [run_append, ← length_run vars before, List.getElem?_append_right le_rfl, Nat.sub_self]
  rfl

theorem get?_run_of_not_touches (h : ∀ c ∈ changes, ¬ c.Touches name) (vars : Variables) :
    (run vars changes).2.get? name = vars.get? name := by
  induction changes generalizing vars with
  | nil => rfl
  | cons c changes ih =>
    obtain ⟨hc, hchanges⟩ := List.forall_mem_cons.1 h
    exact (ih hchanges _).trans (get?_perform_of_not_touches hc vars)

/-- The changes behind one that touches the name do not matter when they do not touch it. -/
theorem get?_run_last {before after : List Change} (h : ∀ d ∈ after, ¬ d.Touches name)
    (vars : Variables) (c : Change) :
    (run vars (before ++ c :: after)).2.get? name =
      (c.perform (run vars before).2).2.get? name := by
  rw [run_append]
  exact get?_run_of_not_touches h _

/-- The last change that touches the name gives it the value. -/
def Written (changes : List Change) (name : String) (v : Value) : Prop :=
  ∃ before c after, changes = before ++ c :: after ∧ c.Gives name v ∧
    ∀ d ∈ after, ¬ d.Touches name

/-- What a name has after a run that begins without variables. -/
theorem get?_run : (run empty changes).2.get? name = some v ↔ Written changes name v := by
  constructor
  · intro h
    by_cases htouched : ∃ c ∈ changes, c.Touches name
    · obtain ⟨before, c, after, rfl, hc, hafter⟩ := Assoc.exists_last htouched
      refine ⟨before, c, after, rfl, ?_, hafter⟩
      rw [get?_run_last hafter] at h
      rcases hc with rfl | ⟨w, hc⟩
      · rw [get?_perform_remove, if_pos rfl] at h
        cases h
      · rw [get?_perform_of_gives hc, if_pos rfl] at h
        cases h
        exact hc
    · rw [get?_run_of_not_touches fun c hc htouches => htouched ⟨c, hc, htouches⟩] at h
      cases h
  · rintro ⟨before, c, after, rfl, hc, hafter⟩
    rw [get?_run_last hafter, get?_perform_of_gives hc, if_pos rfl]

theorem run_rejected {text : String} {fault : Fault} (h : Assignment.read text = .error fault)
    (vars : Variables) (before after : List Change) :
    (run vars (before ++ .assign text :: after)).2 = (run vars (before ++ after)).2 := by
  rw [run_append, run_append]
  simp only [run, perform_rejected h]

end Runs

/-! ## Names that have a value -/

def names (vars : Variables) : Finset String := (vars.bindings.map (·.1)).toFinset

theorem mem_names : name ∈ vars.names ↔ (vars.get? name).isSome = true := by
  rw [names, List.mem_toFinset, List.mem_map, get?, Assoc.isSome_get?, List.any_eq_true]
  simp only [beq_iff_eq]

theorem size_eq_card_names (vars : Variables) : vars.size = vars.names.card := by
  rw [names, List.toFinset_card_of_nodup vars.nodup, List.length_map]
  rfl

theorem isEmpty_iff : vars.isEmpty = true ↔ vars.size = 0 :=
  List.isEmpty_iff_length_eq_zero

/-! ## Ways to collect pairs -/

section Pairs

variable (pairs : List (String × Value))

/-- Changes that set the names of the pairs, one after the other. -/
theorem run_map {setting : String → Value → Change}
    (h : ∀ name v vars, ((setting name v).perform vars).2 = vars.insert name v) (vars : Variables) :
    (run vars (pairs.map fun p => setting p.1 p.2)).2 =
      pairs.foldl (fun vars p => vars.insert p.1 p.2) vars := by
  induction pairs generalizing vars with
  | nil => rfl
  | cons p pairs ih =>
    rw [List.foldl_cons, ← ih, ← h]
    rfl

theorem getElem?_insertMany {m : Std.HashMap String Value} {vars : Variables}
    (h : ∀ name, m[name]? = vars.get? name) (name : String) :
    (m.insertMany pairs)[name]? =
      (pairs.foldl (fun vars p => vars.insert p.1 p.2) vars).get? name := by
  induction pairs generalizing m vars with
  | nil => exact h name
  | cons p pairs ih =>
    rw [Std.HashMap.insertMany_cons, List.foldl_cons]
    refine ih fun name' => ?_
    rw [Std.HashMap.getElem?_insert, get?_insert, h name']
    simp only [beq_iff_eq, eq_comm (a := name')]

theorem getElem?_ofList (name : String) :
    (Std.HashMap.ofList pairs)[name]? = (ofList pairs).get? name := by
  rw [Std.HashMap.ofList_eq_insertMany_empty]
  exact getElem?_insertMany pairs (fun _ => Std.HashMap.getElem?_empty) name

end Pairs

/-! ## The history of variables -/

/-- What variables hold, by the changes that were made to them. -/
structure Records (vars : Variables) (changes : List Change) : Prop where
  found : ∀ name v, vars.get? name = some v ↔ Written changes name v
  absent : ∀ name, vars.get? name = none ↔ ¬ ∃ v, Written changes name v
  present : ∀ name, name ∈ vars.names ↔ (vars.get? name).isSome = true
  size : vars.size = vars.names.card
  isEmpty : vars.isEmpty = true ↔ vars.size = 0

theorem records_run (changes : List Change) : Records (run empty changes).2 changes where
  found _ _ := get?_run
  absent name := by
    rw [Option.eq_none_iff_forall_ne_some, not_exists]
    simp only [ne_eq, get?_run]
  present _ := mem_names
  size := size_eq_card_names _
  isEmpty := isEmpty_iff

/-- A pair to begin with is a name that is set. -/
theorem run_ofList (pairs : List (String × Value)) (changes : List Change) :
    (run (ofList pairs) changes).2 =
      (run empty ((pairs.map fun p => .set p.1 p.2) ++ changes)).2 := by
  rw [run_append, run_map pairs fun _ _ _ => rfl]
  rfl

/-- **Variables over whole runs.** Whatever is done to variables, a name has the value that the last
change to it gave it, and none after it was removed; the names that have values are counted. Setting
and removing answer what the name had just before, no other name changes, and a text that is rejected
might as well not be there. It makes no difference whether pairs are collected, set one by one, or
handed on, nor whether a hash map is collected from them instead. -/
theorem run_recorded :
    (∀ changes : List Change, Records (run empty changes).2 changes) ∧
    (∀ (pairs : List (String × Value)) (changes : List Change),
      Records (run (ofList pairs) changes).2 ((pairs.map fun p => .set p.1 p.2) ++ changes)) ∧
    (∀ (vars : Variables) (before : List Change) (c : Change) (after : List Change),
      ∃ reply, (run vars (before ++ c :: after)).1[before.length]? = some reply ∧
        c.Replies (run vars before).2 reply) ∧
    (∀ (vars : Variables) (changes : List Change) (name : String),
      (∀ c ∈ changes, ¬ c.Touches name) → (run vars changes).2.get? name = vars.get? name) ∧
    (∀ (vars : Variables) (before after : List Change) (text : String) (fault : Fault),
      Assignment.read text = .error fault →
      (run vars (before ++ .assign text :: after)).2 = (run vars (before ++ after)).2) ∧
    (∀ pairs : List (String × Value),
      (run empty (pairs.map fun p => .set p.1 p.2)).2 = ofList pairs ∧
      (run empty (pairs.map fun p => .extend p.1 p.2)).2 = ofList pairs ∧
      ∀ name, Scope.lookup (Std.HashMap.ofList pairs) name = Scope.lookup (ofList pairs) name) := by
  refine ⟨records_run, ?_, replies_run, ?_, ?_, ?_⟩
  · intro pairs changes
    rw [run_ofList]
    exact records_run _
  · intro vars changes name h
    exact get?_run_of_not_touches h vars
  · intro vars before after text fault h
    exact run_rejected h vars before after
  · intro pairs
    exact ⟨run_map pairs (fun _ _ _ => rfl) empty, run_map pairs (fun _ _ _ => rfl) empty,
      getElem?_ofList pairs⟩

/-- A name that comes twice among the pairs, and is then assigned between blanks. A text without an
equals sign and one with a blank name are rejected, and another name is removed before it has a value. -/
theorem run_recorded_trimmed :
    let pairs : List (String × Value) := [("x", .number 1.0), ("x", .text "two")]
    let later : List Change :=
      [.assign "x", .remove "y", .extend "y" (.boolean true), .assign "\u3000=1"]
    let r := run (ofList pairs) (.assign " x\t=y=z" :: later)
    r.2.get? "x" = some (.text "y=z") ∧ r.2.get? "z" = none ∧
      (∃ reply, r.1[2]? = some reply ∧ Change.Replies (run (ofList pairs)
        [.assign " x\t=y=z", .assign "x"]).2 (.remove "y") reply) ∧
      r.2 = (run (ofList pairs) (.assign " x\t=y=z" :: later.tail)).2 := by
  intro pairs later r
  have hvalue : Value.read "y=z" = .ok (.text "y=z") := by
    have hread : (Json.read? "y=z").isNone = true := by decide +kernel
    rw [Value.read, Option.isNone_iff_eq_none.1 hread]
  have hname : String.ofList (trim " x\t".toList) = "x" := by decide +kernel
  have hassigned : Assignment.read (" x\t" ++ "=" ++ "y=z") = .ok ⟨"x", .text "y=z"⟩ := by
    rw [Assignment.read_append (by decide) (by decide +kernel), hvalue, hname]
    rfl
  have hnone : Assignment.read "x" = .error (.notAssignment "x") :=
    Assignment.read_of_not_mem (by decide)
  have hblank : Assignment.read ("\u3000" ++ "=" ++ "1") = .error .blankName := by
    rw [Assignment.read_cut (by decide), if_pos (by decide +kernel)]
  have hother {name : String} (hne : name ≠ "y") : ∀ c ∈ later, ¬ c.Touches name := by
    simp only [later, List.forall_mem_cons]
    refine ⟨not_touches_rejected hnone, ?_, ?_, not_touches_rejected hblank, nofun⟩
    · rw [touches_remove]
      exact hne.symm
    · rw [touches_of_gives (.extend "y" _)]
      exact hne.symm
  obtain ⟨-, hrecords, hreplies, huntouched, hrejected, -⟩ := run_recorded
  refine ⟨?_, ?_, ?_, ?_⟩
  · refine ((hrecords pairs _).found "x" _).2 ⟨pairs.map fun p => .set p.1 p.2, _, later, rfl, ?_,
      hother (by decide)⟩
    exact .assign hassigned
  · have hfirst : ¬ (Change.assign " x\t=y=z").Touches "z" := by
      intro h
      exact absurd ((touches_of_gives (.assign hassigned)).1 h) (by decide)
    exact huntouched (ofList pairs) _ "z" (List.forall_mem_cons.2 ⟨hfirst, hother (by decide)⟩)
  · exact hreplies (ofList pairs) [.assign " x\t=y=z", .assign "x"] (.remove "y") _
  · exact hrejected (ofList pairs) [.assign " x\t=y=z"] later.tail "x" _ hnone

end Formula.Variables
