import Formula.Value.Equality
/-!
# Mappings

Mappings built from the empty one by `put` and `take`. Keys are values, and equal keys share a slot;
a key that does not equal itself is never found, so it always gets a slot of its own.
-/
namespace Formula.Mapping

def get? (m : Mapping) (k : Value) : Option Value := Assoc.get? m k

/-- Writes a value under a key, and answers the value that it displaces. -/
def put (m : Mapping) (k v : Value) : Option Value × Mapping := Assoc.put m k v

/-- Removes a key, and answers the value that was there. -/
def take (m : Mapping) (k : Value) : Option Value × Mapping := Assoc.take m k

def insert (m : Mapping) (k v : Value) : Mapping := (put m k v).2

def erase (m : Mapping) (k : Value) : Mapping := (take m k).2

/-- The entries of `n` written into `m` one after the other. -/
def merge (m n : Mapping) : Mapping := n.foldl (fun m e => insert m e.1 e.2) m

def ofList (entries : List (Value × Value)) : Mapping := merge [] entries

def eraseAll (m : Mapping) (keys : List Value) : Mapping := keys.foldl erase m

end Formula.Mapping
