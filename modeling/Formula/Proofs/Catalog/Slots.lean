import Formula.Catalog
import Formula.Proofs.Assoc
import Mathlib.Data.List.Flatten
import Mathlib.Data.List.Induction
import Mathlib.Data.List.Nodup
/-!
# What a catalog holds

The proof fields of a catalog say that no symbol has two slots, that a slot holds operators of its
symbol only, and that no two of these have one arity. So an operator in a catalog is the one that is
found under its symbol and arity, and registering one changes what is found in one place.

Results:
* `find?_register`, `contains_register`: what is found after a registration.
* `find?_eq_some_iff`: what is found is in the catalog, and what is in the catalog is found.
* `nodup_keys`: no two operators of a catalog have the same symbol and arity.
* `find?_ofList`, `mem_keys_ofList`: of the operators registered one after the other the last one of a
  key is found, and every key is.
-/
namespace Formula

/-- What an operator is selected by. -/
def Operator.key (op : Operator) : String × Nat := (op.symbol, op.arity)

namespace Catalog

variable {c : Catalog} {op : Operator} {symbol : String} {n : Nat}

/-! ## After a registration -/

theorem slot_register (c : Catalog) (op : Operator) (symbol : String) :
    (c.register op).slot symbol =
      if symbol = op.symbol then refill (c.slot op.symbol) op else c.slot symbol := by
  unfold slot register
  rw [Assoc.get?_put_of_lawful]
  split <;> rfl

theorem find?_refill (slot : List Operator) (op : Operator) (n : Nat) :
    (refill slot op).find? (fun a => a.arity == n) =
      if n = op.arity then some op else slot.find? fun a => a.arity == n := by
  unfold refill
  rw [List.find?_append, List.find?_filter, List.find?_singleton]
  by_cases h : n = op.arity
  · have hnone : slot.find? (fun a => decide ((a.arity != op.arity) = true ∧ (a.arity == n) = true)) =
        none := by
      simp [h]
    rw [hnone, h]
    simp
  · have hcongr : slot.find? (fun a => decide ((a.arity != op.arity) = true ∧ (a.arity == n) = true)) =
        slot.find? fun a => a.arity == n := by
      refine List.find?_congr fun a _ => ?_
      by_cases ha : a.arity = n
      · simp [ha, h]
      · simp [ha]
    rw [hcongr, if_neg h]
    simp [Ne.symm h]

theorem find?_register (c : Catalog) (op : Operator) (symbol : String) (n : Nat) :
    (c.register op).find? symbol n =
      if op.key = (symbol, n) then some op else c.find? symbol n := by
  unfold find?
  rw [slot_register]
  by_cases hs : symbol = op.symbol
  · rw [if_pos hs, find?_refill]
    simp [Operator.key, hs, eq_comm]
  · have hne : op.key ≠ (symbol, n) := fun h => hs (congrArg Prod.fst h).symm
    rw [if_neg hs, if_neg hne]

theorem contains_register (c : Catalog) (op : Operator) (symbol : String) :
    (c.register op).contains symbol = (op.symbol == symbol || c.contains symbol) := by
  unfold contains register
  rw [Assoc.get?_put_of_lawful]
  by_cases h : symbol = op.symbol <;> simp [h, Ne.symm]

/-! ## The operators -/

theorem mem_operators : op ∈ c.operators ↔ ∃ s ∈ c.slots, op ∈ s.2 := List.mem_flatMap

/-- An operator in a catalog is filed under its symbol. -/
theorem mem_slot_symbol (h : op ∈ c.operators) : op ∈ c.slot op.symbol := by
  obtain ⟨s, hs, hop⟩ := mem_operators.1 h
  rw [(c.filed s hs).symbol_eq op hop, slot, Assoc.get?_of_mem c.symbols hs]
  exact hop

theorem find?_eq_some_iff :
    c.find? symbol n = some op ↔ op ∈ c.operators ∧ op.key = (symbol, n) := by
  constructor
  · intro h
    have hop : op ∈ c.slot symbol := List.mem_of_find?_eq_some h
    have hn : op.arity = n := by simpa using List.find?_some h
    rw [Operator.key, (c.filed _ (mem_slot hop)).symbol_eq op hop, hn]
    exact ⟨mem_of_find? h, rfl⟩
  · rintro ⟨hmem, hkey⟩
    obtain ⟨rfl, rfl⟩ := Prod.mk.inj hkey
    have hop := mem_slot_symbol hmem
    -- The one that is found has the same arity, and a slot has no two of one arity.
    unfold find?
    cases hf : (c.slot op.symbol).find? fun a => a.arity == op.arity with
    | none => simpa using List.find?_eq_none.1 hf op hop
    | some a =>
      have ha : a.arity = op.arity := by simpa using List.find?_some hf
      have hd := (c.filed _ (mem_slot hop)).arities
      rw [List.inj_on_of_nodup_map hd (List.mem_of_find?_eq_some hf) hop ha]

theorem mem_operators_iff : op ∈ c.operators ↔ ∃ symbol n, c.find? symbol n = some op := by
  constructor
  · intro h
    exact ⟨op.symbol, op.arity, find?_eq_some_iff.2 ⟨h, rfl⟩⟩
  · intro ⟨symbol, n, h⟩
    exact mem_of_find? h

theorem contains_iff : c.contains symbol = true ↔ ∃ op ∈ c.operators, op.symbol = symbol := by
  unfold contains
  constructor
  · intro h
    obtain ⟨slot, hslot⟩ := Option.isSome_iff_exists.1 h
    have hmem := Assoc.mem_of_get?_eq_some hslot
    have hfiled := c.filed _ hmem
    obtain ⟨op, hop⟩ := List.exists_mem_of_ne_nil _ hfiled.ne_nil
    exact ⟨op, mem_operators.2 ⟨_, hmem, hop⟩, hfiled.symbol_eq op hop⟩
  · rintro ⟨op, hop, rfl⟩
    obtain ⟨s, hs, hop⟩ := mem_operators.1 hop
    rw [(c.filed s hs).symbol_eq op hop, Assoc.get?_of_mem c.symbols hs]
    rfl

theorem nodup_keys (c : Catalog) : (c.operators.map Operator.key).Nodup := by
  rw [operators, List.map_flatMap, List.nodup_flatMap]
  constructor
  · intro s hs
    refine List.Nodup.of_map Prod.snd ?_
    rw [List.map_map]
    exact (c.filed s hs).arities
  · refine List.Pairwise.imp_of_mem ?_ (List.pairwise_map.1 c.symbols)
    intro s t hs ht hst key hks hkt
    obtain ⟨a, ha, rfl⟩ := List.mem_map.1 hks
    obtain ⟨b, hb, hab⟩ := List.mem_map.1 hkt
    have hsymbol : b.symbol = a.symbol := congrArg Prod.fst hab
    rw [(c.filed t ht).symbol_eq b hb, (c.filed s hs).symbol_eq a ha] at hsymbol
    exact hst hsymbol.symm

theorem size_eq_length (c : Catalog) : c.size = c.operators.length := by
  unfold size operators
  induction c.slots with
  | nil => rfl
  | cons slot slots ih => rw [List.foldr_cons, ih, List.flatMap_cons, List.length_append]

/-! ## Application -/

theorem apply_of_find?_eq_none {c : Catalog} {operands : List Value}
    (hc : c.find? symbol operands.length = none) (lookup : Lookup) :
    c.apply symbol operands lookup = .error (.unknownOperator symbol operands.length) := by
  rw [apply, hc]

theorem apply_of_find?_eq_some {c : Catalog} {operands : List Value}
    (hc : c.find? symbol operands.length = some op) (lookup : Lookup) :
    c.apply symbol operands lookup = (op.evaluate lookup operands).1 := by
  rw [apply, hc]

/-! ## Operators registered one after the other -/

variable {h : List Operator}

/-- The operator is the last one in the history with this symbol and arity. -/
def Latest (h : List Operator) (symbol : String) (n : Nat) (op : Operator) : Prop :=
  ∃ before after, h = before ++ op :: after ∧ op.key = (symbol, n) ∧
    ∀ a ∈ after, a.key ≠ (symbol, n)

theorem not_latest_nil : ¬ Latest [] symbol n op := by
  rintro ⟨before, after, h, -⟩
  simp at h

theorem latest_append_singleton {a : Operator} :
    Latest (h ++ [a]) symbol n op ↔
      if a.key = (symbol, n) then a = op else Latest h symbol n op := by
  constructor
  · rintro ⟨before, after, heq, hkey, hafter⟩
    -- The added operator is the last one of `after`, or `op` itself.
    rcases List.eq_nil_or_concat after with rfl | ⟨after', b, rfl⟩
    · obtain ⟨-, ha⟩ := List.append_inj' heq rfl
      cases ha
      rw [if_pos hkey]
    · have hsplit : h ++ [a] = (before ++ op :: after') ++ [b] := by simpa using heq
      obtain ⟨rfl, hb⟩ := List.append_inj' hsplit rfl
      cases hb
      rw [if_neg (hafter a (by simp))]
      exact ⟨before, after', rfl, hkey, fun c hc => hafter c (by simp [hc])⟩
  · split
    · next ha =>
      rintro rfl
      exact ⟨h, [], rfl, ha, by simp⟩
    · next ha =>
      rintro ⟨before, after, rfl, hkey, hafter⟩
      refine ⟨before, after ++ [a], by simp, hkey, ?_⟩
      intro c hc
      rcases List.mem_append.1 hc with hc | hc
      · exact hafter c hc
      · rwa [List.mem_singleton.1 hc]

theorem ofList_append_singleton (h : List Operator) (op : Operator) :
    ofList (h ++ [op]) = (ofList h).register op := by
  rw [ofList, List.foldl_append]
  rfl

theorem find?_ofList : (ofList h).find? symbol n = some op ↔ Latest h symbol n op := by
  induction h using List.reverseRecOn with
  | nil => exact iff_of_false nofun not_latest_nil
  | append_singleton h a ih =>
    rw [ofList_append_singleton, find?_register, latest_append_singleton]
    split
    · exact Option.some_inj
    · exact ih

/-- Some operator of a key is the last one of it. -/
theorem exists_latest_iff : (∃ op, Latest h symbol n op) ↔ ∃ a ∈ h, a.key = (symbol, n) := by
  constructor
  · rintro ⟨op, before, after, rfl, hkey, -⟩
    exact ⟨op, by simp, hkey⟩
  · intro h
    obtain ⟨before, op, after, rfl, hop, hafter⟩ := Assoc.exists_last h
    exact ⟨op, before, after, rfl, hop, hafter⟩

/-- Without repetitions in it a history is the catalog. -/
theorem find?_ofList_of_nodup (hd : (h.map Operator.key).Nodup) :
    (ofList h).find? symbol n = some op ↔ op ∈ h ∧ op.key = (symbol, n) := by
  rw [find?_ofList]
  constructor
  · rintro ⟨before, after, rfl, hkey, -⟩
    exact ⟨by simp, hkey⟩
  · rintro ⟨hmem, hkey⟩
    obtain ⟨before, after, rfl⟩ := List.append_of_mem hmem
    refine ⟨before, after, rfl, hkey, ?_⟩
    intro a ha heq
    rw [List.map_append, List.nodup_append, List.map_cons, List.nodup_cons] at hd
    exact hd.2.1.1 (hkey ▸ heq ▸ List.mem_map_of_mem ha)

theorem mem_keys_ofList {key : String × Nat} :
    key ∈ (ofList h).operators.map Operator.key ↔ key ∈ h.map Operator.key := by
  calc key ∈ (ofList h).operators.map Operator.key
    _ ↔ ∃ op, (ofList h).find? key.1 key.2 = some op := by
      simp only [List.mem_map, find?_eq_some_iff]
    _ ↔ ∃ a ∈ h, a.key = (key.1, key.2) := by
      simp only [find?_ofList, exists_latest_iff]
    _ ↔ key ∈ h.map Operator.key := List.mem_map.symm

end Catalog

end Formula
