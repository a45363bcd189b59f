import Formula.Proofs.Operator.Faults
import Mathlib.Data.Finset.Card
import Mathlib.Logic.Relation
/-!
# Catalogs and their histories

A catalog says nothing of what was replaced in it. Its history does: all operators that were registered
in it, in their order, where a copy starts with the history of its original. What a catalog finds is
what is last in its history, however many catalogs there are and whichever is registered in next.

Results:
* `records_ofList`: everything a catalog answers, by the operators that were registered.
* `Step.traced`, `reachable_traced`: a catalog is made by its own history alone.
* `reachable_records`: the catalogs of a program.
* `apply_forwarding`: an operator that is found, and answers that an operator is unknown.
-/
namespace Formula.Catalog

variable {h : List Operator} {symbol : String} {n : Nat} {op : Operator}

/-! ## One catalog -/

/-- What a catalog answers, in terms of its history. An unknown operator is reported when none is found
or when the one that is found reports it, which no operator does that can be made. -/
structure Records (c : Catalog) (h : List Operator) : Prop where
  found : ∀ symbol n op, c.find? symbol n = some op ↔ Latest h symbol n op
  absent : ∀ symbol n, c.find? symbol n = none ↔ ∀ op ∈ h, op.key ≠ (symbol, n)
  contains : ∀ symbol, c.contains symbol = true ↔ ∃ op ∈ h, op.symbol = symbol
  size : c.size = (h.map Operator.key).toFinset.card
  isEmpty : c.isEmpty = true ↔ h = []
  unknown : ∀ symbol operands lookup, c.find? symbol operands.length = none →
    c.apply symbol operands lookup = .error (.unknownOperator symbol operands.length)
  evaluated : ∀ symbol operands lookup op, c.find? symbol operands.length = some op →
    c.apply symbol operands lookup = (op.evaluate lookup operands).1
  unknown_iff : ∀ symbol operands lookup s n,
    c.apply symbol operands lookup = .error (.unknownOperator s n) ↔
      (c.find? symbol operands.length = none ∧ s = symbol ∧ n = operands.length) ∨
      ∃ op, c.find? symbol operands.length = some op ∧
        (op.evaluate lookup operands).1 = .error (.unknownOperator s n)
  unknown_iff_absent : (∀ op ∈ h, op.Provided) → ∀ symbol operands lookup,
    (∃ s n, c.apply symbol operands lookup = .error (.unknownOperator s n)) ↔
      c.find? symbol operands.length = none

theorem size_ofList (h : List Operator) :
    (ofList h).size = (h.map Operator.key).toFinset.card := by
  have hkeys : ((ofList h).operators.map Operator.key).toFinset = (h.map Operator.key).toFinset := by
    ext key
    rw [List.mem_toFinset, List.mem_toFinset, mem_keys_ofList]
  rw [size_eq_length, ← hkeys, List.toFinset_card_of_nodup (nodup_keys _), List.length_map]

theorem records_ofList (h : List Operator) : Records (ofList h) h where
  found _ _ _ := find?_ofList
  absent symbol n := by
    rw [Option.eq_none_iff_forall_ne_some]
    simp only [ne_eq, find?_ofList]
    rw [← not_exists, exists_latest_iff]
    simp
  contains symbol := by
    rw [contains_iff]
    constructor
    · rintro ⟨op, hop, rfl⟩
      exact ⟨op, mem_of_mem_ofList hop, rfl⟩
    · rintro ⟨op, hop, rfl⟩
      have hkey : op.key ∈ (ofList h).operators.map Operator.key :=
        mem_keys_ofList.2 (List.mem_map_of_mem hop)
      obtain ⟨a, ha, hkey⟩ := List.mem_map.1 hkey
      exact ⟨a, ha, congrArg Prod.fst hkey⟩
  size := size_ofList h
  isEmpty := by
    rw [isEmpty, beq_iff_eq, size_ofList]
    simp
  unknown _ _ lookup hc := apply_of_find?_eq_none hc lookup
  evaluated _ _ lookup _ hc := apply_of_find?_eq_some hc lookup
  unknown_iff symbol operands lookup s n := by
    cases hc : (ofList h).find? symbol operands.length with
    | none => simp [apply_of_find?_eq_none hc, eq_comm]
    | some op => simp [apply_of_find?_eq_some hc]
  unknown_iff_absent hmade symbol operands lookup := by
    cases hc : (ofList h).find? symbol operands.length with
    | none => simp [apply_of_find?_eq_none hc]
    | some op =>
      have hop : op.Provided := hmade op (mem_of_mem_ofList (mem_of_find? hc))
      simp [apply_of_find?_eq_some hc, hop.neverUnknown lookup operands]

/-! ## Any number of catalogs -/

/-- A catalog and the operators that were registered in it, the first one first. -/
structure Traced where
  catalog : Catalog
  history : List Operator

/-- A program makes a catalog, copies one, or registers an operator in one of those that it has. The
catalog of the language comes with the registrations that make it. -/
inductive Step (ts : List Traced) : List Traced → Prop where
  | new : Step ts (ts ++ [⟨empty, []⟩])
  | withBuiltins : Step ts (ts ++ [⟨builtins, builtinOperators⟩])
  | clone {i : Nat} {t : Traced} (ht : ts[i]? = some t) : Step ts (ts ++ [t])
  | register {i : Nat} {t : Traced} (ht : ts[i]? = some t) (op : Operator) :
    Step ts (ts.set i ⟨t.catalog.register op, t.history ++ [op]⟩)

theorem Step.traced {ts us : List Traced} (h : Step ts us)
    (hts : ∀ t ∈ ts, t.catalog = ofList t.history) : ∀ u ∈ us, u.catalog = ofList u.history := by
  -- Three of the steps add a catalog, and one replaces a catalog.
  have added : ∀ t : Traced, t.catalog = ofList t.history →
      ∀ u ∈ ts ++ [t], u.catalog = ofList u.history := by
    intro t ht u hu
    rcases List.mem_append.1 hu with hu | hu
    · exact hts u hu
    · rwa [List.mem_singleton.1 hu]
  cases h with
  | new => exact added _ rfl
  | withBuiltins => exact added _ rfl
  | clone ht => exact added _ (hts _ (List.mem_of_getElem? ht))
  | @register i t ht op =>
    intro u hu
    rcases List.mem_or_eq_of_mem_set hu with hu | rfl
    · exact hts u hu
    · rw [ofList_append_singleton, hts t (List.mem_of_getElem? ht)]

theorem reachable_traced {ts : List Traced} (h : Relation.ReflTransGen Step [] ts) :
    ∀ t ∈ ts, t.catalog = ofList t.history := by
  induction h with
  | refl => simp
  | tail _ hstep ih => exact hstep.traced ih

/-- **Last registrations.** Whatever a program makes, copies and registers, each of its catalogs answers
by its own history: the last operator of a symbol and an arity is the one that is found and applied,
and none is found where none was registered. Then the operator is reported as unknown, and no operator
that can be made reports this itself. -/
theorem reachable_records {ts : List Traced} (h : Relation.ReflTransGen Step [] ts) :
    ∀ t ∈ ts, Records t.catalog t.history := by
  intro t ht
  rw [reachable_traced h t ht]
  exact records_ofList t.history

/-- After `+` is registered anew in a copy, the copy finds the new operator, and the original the old.
All of them can be made, so the copy reports an unknown operator only where it finds none. -/
theorem reachable_records_override :
    let part : Operator := .needleFirst "+"
    let original : Traced := ⟨builtins, builtinOperators⟩
    let copy : Traced := ⟨builtins.register part, builtinOperators ++ [part]⟩
    Relation.ReflTransGen Step [] [original, copy] ∧
      Records original.catalog original.history ∧ Records copy.catalog copy.history ∧
      original.catalog.find? "+" 2 = some .addition ∧ copy.catalog.find? "+" 2 = some part ∧
      ∀ symbol operands lookup,
        (∃ s n, copy.catalog.apply symbol operands lookup = .error (.unknownOperator s n)) ↔
          copy.catalog.find? symbol operands.length = none := by
  intro part original copy
  have hmade : Relation.ReflTransGen Step [] [original] := .tail .refl .withBuiltins
  have hcloned : Relation.ReflTransGen Step [] [original, original] :=
    hmade.tail (.clone (i := 0) rfl)
  have hstep : Step [original, original] ([original, original].set 1 copy) :=
    .register (t := original) rfl part
  have hregistered : Relation.ReflTransGen Step [] [original, copy] := hcloned.tail hstep
  have hrecords := reachable_records hregistered
  have horiginal := hrecords original (by simp)
  have hcopy := hrecords copy (by simp)
  have hprovided : ∀ op ∈ copy.history, op.Provided := by
    intro op hop
    rcases List.mem_append.1 hop with hop | hop
    · exact Operator.provided_of_mem hop
    · rw [List.mem_singleton.1 hop]
      exact .needleFirst "+"
  refine ⟨hregistered, horiginal, hcopy, ?_, ?_, hcopy.unknown_iff_absent hprovided⟩
  · rw [horiginal.found]
    exact ⟨[], builtinOperators.tail, rfl, rfl, by decide⟩
  · rw [hcopy.found]
    exact ⟨builtinOperators, [], rfl, rfl, by simp⟩

/-- An operator may ask another catalog. The one here is found, and what it asks for is unknown. -/
theorem apply_forwarding :
    let forwarding : Operator :=
      .unary ⟨"f", 1, .right, 11, []⟩ fun lookup a => builtins.apply "f" [a] lookup
    let t : Traced := ⟨empty.register forwarding, [forwarding]⟩
    Relation.ReflTransGen Step [] [t] ∧
      ¬ (t.catalog.apply "f" [.boolean true] (fun _ => none) = .error (.unknownOperator "f" 1) ↔
        t.catalog.find? "f" 1 = none) := by
  intro forwarding t
  have hmade : Relation.ReflTransGen Step [] [⟨empty, []⟩] := .tail .refl .new
  have hstep : Step [⟨empty, []⟩] ([⟨empty, []⟩].set 0 t) :=
    .register (t := ⟨empty, []⟩) rfl forwarding
  have hfound : t.catalog.find? "f" 1 = some forwarding := by
    rfl
  have hunlisted : builtins.find? "f" 1 = none := by
    rfl
  have happly : t.catalog.apply "f" [.boolean true] (fun _ => none) =
      .error (.unknownOperator "f" 1) := by
    rw [apply_of_find?_eq_some hfound]
    show builtins.apply "f" [.boolean true] (fun _ => none) = _
    rw [apply_of_find?_eq_none hunlisted]
    rfl
  refine ⟨hmade.tail hstep, fun h => ?_⟩
  rw [h.1 happly] at hfound
  cases hfound

end Formula.Catalog
