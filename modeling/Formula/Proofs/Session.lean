import Formula.Proofs.Json.Conversion
import Formula.Proofs.Operator.WellKeyed
import Mathlib.Logic.Relation
/-!
# Sessions

A session is what a program that uses the library has built so far: values, and variables that hold
some of them. Its steps are everything that makes values. Each step keeps all values well-keyed, so
after any number of steps no mapping has two entries with equal keys, at whatever depth it occurs.

Results:
* `Step.wellKeyed`: one step.
* `reachable_wellKeyed`: any number of steps.
* `reachable_keys_distinct`: the mappings in what was built.
-/
namespace Formula

/-- The values and variables built so far. -/
structure Session where
  values : List Value
  scopes : List Variables

namespace Session

def start : Session := ⟨[], []⟩

def keep (s : Session) (v : Value) : Session := { s with values := v :: s.values }

def keepVariables (s : Session) (vars : Variables) : Session :=
  { s with scopes := vars :: s.scopes }

/-- Whether the value was built, or is the value of a variable. -/
def Has (s : Session) (v : Value) : Prop :=
  v ∈ s.values ∨ ∃ vars ∈ s.scopes, ∃ name, vars.get? name = some v

/-- One thing is made of what is there. Nothing is used up, so that a program may copy values. -/
inductive Step (s : Session) : Session → Prop where
  | number (x : Float) : Step s (s.keep (.number x))
  | boolean (b : Bool) : Step s (s.keep (.boolean b))
  | text (t : String) : Step s (s.keep (.text t))
  | sequence {items : List Value} (h : ∀ v ∈ items, s.Has v) : Step s (s.keep (.sequence items))
  /-- an item, a key or the value of an entry; what `put` and `take` answer is one of these -/
  | part {v w : Value} (hv : s.Has v) (h : Value.Within w v) : Step s (s.keep w)
  | empty : Step s (s.keep (.mapping []))
  | put {m : Mapping} {k v : Value} (hm : s.Has (.mapping m)) (hk : s.Has k) (hv : s.Has v) :
    Step s (s.keep (.mapping (Mapping.put m k v).2))
  | take {m : Mapping} {k : Value} (hm : s.Has (.mapping m)) (hk : s.Has k) :
    Step s (s.keep (.mapping (Mapping.take m k).2))
  | collect {entries : List (Value × Value)} (h : ∀ e ∈ entries, s.Has e.1 ∧ s.Has e.2) :
    Step s (s.keep (.mapping (Mapping.ofList entries)))
  | json {j : Json} {v : Value} (h : j.toValue = .ok v) : Step s (s.keep v)
  | noVariables : Step s (s.keepVariables .empty)
  | store {vars : Variables} (name : String) {v : Value} (hs : vars ∈ s.scopes) (hv : s.Has v) :
    Step s (s.keepVariables (vars.set name v).2)
  | forget {vars : Variables} (name : String) (hs : vars ∈ s.scopes) :
    Step s (s.keepVariables (vars.remove name).2)
  | read {vars : Variables} {name : String} {v : Value} (hs : vars ∈ s.scopes)
    (h : vars.get? name = some v) : Step s (s.keep v)
  /-- any scope will do whose values were built -/
  | apply {σ : Type} [Scope σ] {scope : σ} {symbol : String} {operands : List Value} {v : Value}
    (hs : ∀ name w, Scope.lookup scope name = some w → s.Has w) (ho : ∀ a ∈ operands, s.Has a)
    (h : Formula.apply symbol operands scope = .ok (some v)) : Step s (s.keep v)

/-! ## Invariant -/

structure WellKeyed (s : Session) : Prop where
  values : ∀ v ∈ s.values, v.WellKeyed
  scopes : ∀ vars ∈ s.scopes, ∀ b ∈ vars.bindings, b.2.WellKeyed

variable {s t : Session}

theorem wellKeyed_start : start.WellKeyed := ⟨by simp [start], by simp [start]⟩

theorem WellKeyed.of_has (hs : s.WellKeyed) {v : Value} (h : s.Has v) : v.WellKeyed := by
  rcases h with h | ⟨vars, hvars, name, h⟩
  · exact hs.values v h
  · obtain ⟨b, hb, -, rfl⟩ := Assoc.mem_of_get? h
    exact hs.scopes vars hvars b hb

theorem WellKeyed.keep (hs : s.WellKeyed) {v : Value} (hv : v.WellKeyed) :
    (s.keep v).WellKeyed := by
  refine ⟨?_, hs.scopes⟩
  intro w hw
  rcases List.mem_cons.1 hw with rfl | hw
  · exact hv
  · exact hs.values w hw

theorem WellKeyed.keepVariables (hs : s.WellKeyed) {vars : Variables}
    (hv : ∀ b ∈ vars.bindings, b.2.WellKeyed) : (s.keepVariables vars).WellKeyed := by
  refine ⟨hs.values, ?_⟩
  intro vars' h
  rcases List.mem_cons.1 h with rfl | h
  · exact hv
  · exact hs.scopes vars' h

theorem Step.wellKeyed (h : Step s t) (hs : s.WellKeyed) : t.WellKeyed := by
  cases h with
  | number x => exact hs.keep (Value.wellKeyed_number x)
  | boolean b => exact hs.keep (Value.wellKeyed_boolean b)
  | text u => exact hs.keep (Value.wellKeyed_text u)
  | sequence h =>
    refine hs.keep ?_
    rw [Value.wellKeyed_sequence]
    intro v hv
    exact hs.of_has (h v hv)
  | part hv h => exact hs.keep ((hs.of_has hv).within h)
  | empty => exact hs.keep Mapping.wellKeyed_nil
  | put hm hk hv =>
    exact hs.keep (Mapping.wellKeyed_insert (hs.of_has hm) (hs.of_has hk) (hs.of_has hv))
  | take hm hk => exact hs.keep (Mapping.wellKeyed_erase (hs.of_has hm) _)
  | collect h =>
    refine hs.keep (Mapping.wellKeyed_ofList ?_)
    intro e he
    exact ⟨hs.of_has (h e he).1, hs.of_has (h e he).2⟩
  | json h => exact hs.keep (Json.wellKeyed_toValue _ h)
  | noVariables => exact hs.keepVariables (by simp [Variables.empty])
  | store name hvars hv =>
    refine hs.keepVariables ?_
    intro b hb
    rcases Assoc.mem_put hb with hb | ⟨hb, -⟩
    · exact hs.scopes _ hvars b hb
    · rw [hb]
      exact hs.of_has hv
  | forget name hvars =>
    refine hs.keepVariables ?_
    intro b hb
    exact hs.scopes _ hvars b ((Assoc.take_sublist _ name).subset hb)
  | read hvars h => exact hs.keep (hs.of_has (.inr ⟨_, hvars, _, h⟩))
  | apply hscope ho h =>
    refine hs.keep (wellKeyed_apply ?_ ?_ _ h)
    · intro name w hw
      exact hs.of_has (hscope name w hw)
    · intro a ha
      exact hs.of_has (ho a ha)

theorem reachable_wellKeyed (h : Relation.ReflTransGen Step start s) : s.WellKeyed := by
  induction h with
  | refl => exact wellKeyed_start
  | tail _ hstep ih => exact hstep.wellKeyed ih

/-- **Keys stay distinct.** However a value was built, no mapping in it has two entries with equal keys,
whichever of the keys comes first in the comparison. -/
theorem reachable_keys_distinct (h : Relation.ReflTransGen Step start s) {v : Value} (hv : s.Has v)
    {es : List (Value × Value)} (hes : Value.Within (.mapping es) v) :
    es.Pairwise fun e f => (e.1 == f.1) = false ∧ (f.1 == e.1) = false :=
  (reachable_wellKeyed h).of_has hv es hes

/-- The key of the merged mapping equals one that is there, and the undefined one equals none. -/
theorem reachable_keys_distinct_zeros :
    let sum : Mapping := [(.number 0.0, .number (-0.0)), (.number Number.undefined, .number 0.0)]
    ∃ s, Relation.ReflTransGen Step start s ∧ s.Has (.sequence [.mapping sum]) ∧
      sum.Pairwise fun e f => (e.1 == f.1) = false ∧ (f.1 == e.1) = false := by
  intro sum
  let zero : Value := .number 0.0
  let negative : Value := .number (-0.0)
  let undefined : Value := .number Number.undefined
  let left : Mapping := Mapping.ofList [(zero, zero), (undefined, zero)]
  let right : Mapping := Mapping.ofList [(negative, negative)]
  have happly : apply "+" [.mapping left, .mapping right] Variables.empty =
      .ok (some (.mapping sum)) := by
    rfl
  let s₁ : Session := ⟨[undefined, negative, zero], []⟩
  have h₁ : Relation.ReflTransGen Step start s₁ :=
    ((Relation.ReflTransGen.refl.tail (.number 0.0)).tail (.number (-0.0))).tail
      (.number Number.undefined)
  let s₂ := s₁.keep (.mapping left)
  have h₂ : Relation.ReflTransGen Step start s₂ := h₁.tail (.collect (by simp [Has, s₁]))
  let s₃ := s₂.keep (.mapping right)
  have h₃ : Relation.ReflTransGen Step start s₃ :=
    h₂.tail (.collect (by simp [Has, keep, s₁, s₂]))
  let s₄ := s₃.keep (.mapping sum)
  have hnone : ∀ name v, Scope.lookup Variables.empty name = some v → s₃.Has v := by
    intro name v hv
    cases hv
  have h₄ : Relation.ReflTransGen Step start s₄ :=
    h₃.tail (.apply hnone (by simp [Has, keep, s₂, s₃]) happly)
  let s₅ := s₄.keep (.sequence [.mapping sum])
  have h₅ : Relation.ReflTransGen Step start s₅ := h₄.tail (.sequence (by simp [Has, keep, s₄]))
  have hsum : s₅.Has (.sequence [.mapping sum]) := .inl List.mem_cons_self
  exact ⟨s₅, h₅, hsum, reachable_keys_distinct h₅ hsum (.item List.mem_cons_self (.self _))⟩

end Session

end Formula
