import Formula.Assoc
import Formula.Operator
/-!
# Catalogs of operators

A catalog files operators under their symbols. Each symbol that was ever registered has one slot, and
the slot holds at most one operator of an arity. Operators are selected by symbol and number of
operands, and listed from the tightest binding to the loosest.

Results:
* `Catalog.symbols`, `Catalog.filed`: proof fields, kept by `register`.
* `Catalog.mem_of_find?`, `Catalog.mem_of_mem_ofList`: operators come from where they were put.
-/
namespace Formula

/-- The order of listings: tighter binding first, then by symbol in the order of its code points (that
of its bytes), then by arity. -/
def Operator.listedBefore (a b : Operator) : Bool :=
  if a.signature.precedence ≠ b.signature.precedence then
    b.signature.precedence < a.signature.precedence
  else if a.symbol ≠ b.symbol then a.symbol < b.symbol
  else a.arity ≤ b.arity

/-- What the slot of a symbol holds: operators of this symbol, at least one, and no two of one arity. -/
structure Catalog.Filed (symbol : String) (slot : List Operator) : Prop where
  ne_nil : slot ≠ []
  symbol_eq : ∀ op ∈ slot, op.symbol = symbol
  arities : (slot.map Operator.arity).Nodup

/-- Slots of operators, one for each symbol. -/
structure Catalog where
  slots : List (String × List Operator)
  symbols : (slots.map (·.1)).Nodup
  filed : ∀ slot ∈ slots, Catalog.Filed slot.1 slot.2

namespace Catalog

def empty : Catalog := ⟨[], List.nodup_nil, fun _ h => absurd h List.not_mem_nil⟩

/-- The slot of a symbol; a symbol without one has no operators. -/
def slot (c : Catalog) (symbol : String) : List Operator := (Assoc.get? c.slots symbol).getD []

/-- The operators of other arities, and this one after them. -/
def refill (slot : List Operator) (op : Operator) : List Operator :=
  slot.filter (fun a => a.arity != op.arity) ++ [op]

theorem mem_of_mem_refill {slot : List Operator} {op a : Operator} (h : a ∈ refill slot op) :
    a ∈ slot ∨ a = op := by
  rcases List.mem_append.1 h with h | h
  · exact .inl (List.mem_filter.1 h).1
  · exact .inr (List.mem_singleton.1 h)

theorem mem_slot {c : Catalog} {symbol : String} {a : Operator} (h : a ∈ c.slot symbol) :
    (symbol, c.slot symbol) ∈ c.slots := by
  unfold slot at h ⊢
  cases hg : Assoc.get? c.slots symbol with
  | none => simp [hg] at h
  | some ops => exact Assoc.mem_of_get?_eq_some hg

theorem filed_refill (c : Catalog) (op : Operator) :
    Filed op.symbol (refill (c.slot op.symbol) op) where
  ne_nil := by simp [refill]
  symbol_eq a ha := by
    rcases mem_of_mem_refill ha with ha | rfl
    · exact (c.filed _ (mem_slot ha)).symbol_eq a ha
    · rfl
  arities := by
    have hslot : ((c.slot op.symbol).map Operator.arity).Nodup := by
      cases hs : c.slot op.symbol with
      | nil => exact .nil
      | cons a rest =>
        have ha : a ∈ c.slot op.symbol := hs ▸ List.mem_cons_self
        exact hs ▸ (c.filed _ (mem_slot ha)).arities
    unfold refill
    rw [List.map_append, List.nodup_append]
    refine ⟨hslot.sublist (List.filter_sublist.map _), by simp, ?_⟩
    intro n hn m hm
    obtain ⟨a, ha, rfl⟩ := List.mem_map.1 hn
    rw [List.map_singleton, List.mem_singleton] at hm
    simpa [hm] using (List.mem_filter.1 ha).2

/-- Files an operator under its symbol, in place of the one there with its arity. -/
def register (c : Catalog) (op : Operator) : Catalog where
  slots := (Assoc.put c.slots op.symbol (refill (c.slot op.symbol) op)).2
  symbols := Assoc.nodup_put c.symbols _ _
  filed s hs := by
    rcases Assoc.mem_of_mem_put hs with hs | rfl
    · exact c.filed s hs
    · exact filed_refill c op

def ofList (ops : List Operator) : Catalog := ops.foldl register empty

def find? (c : Catalog) (symbol : String) (arity : Nat) : Option Operator :=
  (c.slot symbol).find? fun op => op.arity == arity

def contains (c : Catalog) (symbol : String) : Bool := (Assoc.get? c.slots symbol).isSome

def operators (c : Catalog) : List Operator := c.slots.flatMap (·.2)

def size (c : Catalog) : Nat := c.slots.foldr (fun slot n => slot.2.length + n) 0

def isEmpty (c : Catalog) : Bool := c.size == 0

def listing (c : Catalog) : List Operator := c.operators.mergeSort Operator.listedBefore

/-- Applies the operator of this symbol that takes as many operands as there are. -/
def apply (c : Catalog) (symbol : String) (operands : List Value) (lookup : Lookup) : Outcome :=
  match c.find? symbol operands.length with
  | some op => (op.evaluate lookup operands).1
  | none => .error (.unknownOperator symbol operands.length)

theorem mem_of_find? {c : Catalog} {symbol : String} {n : Nat} {op : Operator}
    (h : c.find? symbol n = some op) : op ∈ c.operators := by
  have hop : op ∈ c.slot symbol := List.mem_of_find?_eq_some h
  exact List.mem_flatMap.2 ⟨_, mem_slot hop, hop⟩

theorem mem_of_mem_register {c : Catalog} {op a : Operator} (h : a ∈ (c.register op).operators) :
    a ∈ c.operators ∨ a = op := by
  obtain ⟨s, hs, ha⟩ := List.mem_flatMap.1 h
  rcases Assoc.mem_of_mem_put hs with hs | rfl
  · exact .inl (List.mem_flatMap.2 ⟨s, hs, ha⟩)
  · rcases mem_of_mem_refill ha with ha | rfl
    · exact .inl (List.mem_flatMap.2 ⟨_, mem_slot ha, ha⟩)
    · exact .inr rfl

theorem mem_of_mem_ofList {ops : List Operator} {a : Operator} (h : a ∈ (ofList ops).operators) :
    a ∈ ops := by
  suffices key : ∀ c : Catalog, a ∈ (ops.foldl register c).operators → a ∈ c.operators ∨ a ∈ ops by
    exact (key empty h).resolve_left (List.not_mem_nil)
  clear h
  induction ops with
  | nil => exact fun _ h => .inl h
  | cons op ops ih =>
    intro c h
    rcases ih (c.register op) h with h | h
    · rcases mem_of_mem_register h with h | rfl
      · exact .inl h
      · exact .inr List.mem_cons_self
    · exact .inr (List.mem_cons_of_mem _ h)

end Catalog

end Formula
