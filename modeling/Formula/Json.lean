/-!
# JSON trees

Numbers are integers or doubles, as their literals are. The fields of an object are kept by name, one
field per name, in the order of the code points of the names, which is that of their UTF-8 bytes.

Results:
* `Fields.mem_insert`: the fields after an insertion.
-/
namespace Formula

inductive Json where
  | null
  | boolean (b : Bool)
  | integer (n : Int)
  | real (x : Float)
  | string (s : String)
  | array (items : List Json)
  | object (fields : List (String × Json))

namespace Fields

variable {α : Type}

/-- Gives a name a value, in place of the one it has, or where its name belongs. -/
def insert (name : String) (value : α) : List (String × α) → List (String × α)
  | [] => [(name, value)]
  | f :: fs =>
    if name = f.1 then (name, value) :: fs
    else if name < f.1 then (name, value) :: f :: fs
    else f :: insert name value fs

/-- The fields by name; of several with one name the last counts. -/
def ofList (fields : List (String × α)) : List (String × α) :=
  fields.foldl (fun fs f => insert f.1 f.2 fs) []

theorem mem_insert {name : String} {value : α} {fs : List (String × α)} {f : String × α}
    (h : f ∈ insert name value fs) : f = (name, value) ∨ f ∈ fs := by
  induction fs with
  | nil => simpa [insert] using h
  | cons g gs ih =>
    simp only [insert] at h
    split at h
    · rcases List.mem_cons.1 h with h | h
      · exact .inl h
      · exact .inr (List.mem_cons_of_mem _ h)
    · split at h
      · simpa using h
      · rcases List.mem_cons.1 h with h | h
        · exact .inr (h ▸ List.mem_cons_self)
        · exact (ih h).imp_right (List.mem_cons_of_mem _)

end Fields

end Formula
