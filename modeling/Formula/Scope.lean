import Formula.Assoc
import Formula.Value
import Std.Data.HashMap
/-!
# Scopes and variables

A scope gives names their values; operators only ever look names up. `Variables` is the scope that
programs fill. A hash map from names to values is a scope as well.

Results:
* `Variables.set_fst`, `Variables.remove_fst`: both answer the value that was there.
-/
namespace Formula

/-- What a scope is to an operator. -/
abbrev Lookup := String → Option Value

/-- Types whose values give names their values. -/
class Scope (σ : Type) where
  lookup : σ → Lookup

instance : Scope (Std.HashMap String Value) := ⟨fun scope name => scope[name]?⟩

/-- Named values, each name once. -/
structure Variables where
  bindings : List (String × Value)
  nodup : (bindings.map (·.1)).Nodup

namespace Variables

def empty : Variables := ⟨[], .nil⟩

def get? (vars : Variables) (name : String) : Option Value := Assoc.get? vars.bindings name

/-- Gives a name a value, and answers the value that it had. -/
def set (vars : Variables) (name : String) (value : Value) : Option Value × Variables :=
  let r := Assoc.put vars.bindings name value
  (r.1, ⟨r.2, Assoc.nodup_put vars.nodup name value⟩)

/-- The variables after `set`. -/
def insert (vars : Variables) (name : String) (value : Value) : Variables := (vars.set name value).2

/-- Forgets a name, and answers the value that it had. -/
def remove (vars : Variables) (name : String) : Option Value × Variables :=
  let r := Assoc.take vars.bindings name
  (r.1, ⟨r.2, Assoc.nodup_take vars.nodup name⟩)

def size (vars : Variables) : Nat := vars.bindings.length

def isEmpty (vars : Variables) : Bool := vars.bindings.isEmpty

/-- The bindings made one after the other, so that of several with one name the last counts. -/
def ofList (bindings : List (String × Value)) : Variables :=
  bindings.foldl (fun vars b => vars.insert b.1 b.2) empty

theorem set_fst (vars : Variables) (name : String) (value : Value) :
    (vars.set name value).1 = vars.get? name :=
  Assoc.put_fst _ _ _

theorem remove_fst (vars : Variables) (name : String) : (vars.remove name).1 = vars.get? name :=
  Assoc.take_fst _ _

end Variables

instance : Scope Variables := ⟨Variables.get?⟩

end Formula
