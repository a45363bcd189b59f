import Formula.Assoc
import Formula.Value
/-!
# Equality of values

Values of different kinds differ. Numbers are compared as numbers, so `0.0` equals `-0.0` and
nothing equals an undefined number. Sequences are compared item by item. Mappings are equal when they
have as many entries and every key of the left one is found in the right one, with an equal value;
the order of entries does not count.

The comparison of two mappings turns the operands around (a stored key is compared with the key that
is looked for), so `Value.beqSwap a b`, which is `b == a`, is defined beside `Value.beq`, both by
recursion on their first argument.

Results:
* `beqSwap_eq`: `beqSwap a b` is `b == a`.
* `beq_sequence_cons`, `beq_mapping`: equality of collections in terms of equality of their parts.
-/
namespace Formula

mutual

def Value.beq : Value → Value → Bool
  | .number x, .number y => x == y
  | .boolean a, .boolean b => a == b
  | .text s, .text t => s == t
  | .sequence xs, .sequence ys => beqItems xs ys
  | .mapping es, .mapping fs => es.length == fs.length && beqEntries es fs
  | _, _ => false
termination_by structural v => v

def Value.beqItems : List Value → List Value → Bool
  | [], [] => true
  | x :: xs, y :: ys => beq x y && beqItems xs ys
  | _, _ => false
termination_by structural v => v

/-- Whether each entry on the left is found on the right. -/
def Value.beqEntries : List (Value × Value) → List (Value × Value) → Bool
  | [], _ => true
  | (k, v) :: es, fs =>
    (match fs.find? fun f => beqSwap k f.1 with
      | some f => beqSwap v f.2
      | none => false) && beqEntries es fs
termination_by structural v => v

/-- Equality with its operands turned around. -/
def Value.beqSwap : Value → Value → Bool
  | .number x, .number y => y == x
  | .boolean a, .boolean b => b == a
  | .text s, .text t => t == s
  | .sequence xs, .sequence ys => beqSwapItems xs ys
  | .mapping es, .mapping fs => fs.length == es.length && fs.all fun f => beqFound es f.1 f.2
  | _, _ => false
termination_by structural v => v

/-- Item by item equality, turned around. -/
def Value.beqSwapItems : List Value → List Value → Bool
  | [], [] => true
  | x :: xs, y :: ys => beqSwap x y && beqSwapItems xs ys
  | _, _ => false
termination_by structural v => v

/-- Whether the entries hold a value equal to `v` under the first key equal to `k`. -/
def Value.beqFound : List (Value × Value) → Value → Value → Bool
  | [], _, _ => false
  | (k', v') :: es, k, v => if beq k' k then beq v' v else beqFound es k v
termination_by structural v => v

end

instance : BEq Value := ⟨Value.beq⟩

theorem Value.beqSwapItems_eq {xs ys : List Value}
    (h : ∀ x ∈ xs, ∀ y ∈ ys, beqSwap x y = beq y x) : beqSwapItems xs ys = beqItems ys xs := by
  induction xs generalizing ys with
  | nil => cases ys <;> rfl
  | cons x xs ih =>
    cases ys with
    | nil => rfl
    | cons y ys =>
      simp only [beqSwapItems, beqItems]
      rw [h x (by simp) y (by simp),
        ih fun x hx y hy => h x (List.mem_cons_of_mem _ hx) y (List.mem_cons_of_mem _ hy)]

theorem Value.beqFound_eq {es : List (Value × Value)} {k v : Value}
    (h : ∀ e ∈ es, beqSwap k e.1 = beq e.1 k ∧ beqSwap v e.2 = beq e.2 v) :
    beqFound es k v =
      match es.find? fun e => beqSwap k e.1 with
      | some e => beqSwap v e.2
      | none => false := by
  induction es with
  | nil => rfl
  | cons e es ih =>
    obtain ⟨hk, hv⟩ := h e (by simp)
    simp only [beqFound, List.find?_cons, hk]
    by_cases he : beq e.1 k
    · simp [he, hv]
    · simp [he, ih fun f hf => h f (List.mem_cons_of_mem _ hf)]

theorem Value.all_beqFound_eq {es fs : List (Value × Value)}
    (h : ∀ f ∈ fs, ∀ e ∈ es, beqSwap f.1 e.1 = beq e.1 f.1 ∧ beqSwap f.2 e.2 = beq e.2 f.2) :
    (fs.all fun f => beqFound es f.1 f.2) = beqEntries fs es := by
  induction fs with
  | nil => rfl
  | cons f fs ih =>
    rw [List.all_cons, beqFound_eq (h f (by simp)),
      ih fun f hf => h f (List.mem_cons_of_mem _ hf)]
    rfl

/-- Turning the operands around and comparing is comparing the operands turned around. -/
theorem Value.beqSwap_eq (a b : Value) : beqSwap a b = beq b a := by
  cases a <;> cases b <;> simp only [beqSwap, beq]
  case sequence.sequence xs ys =>
    refine beqSwapItems_eq fun x hx y hy => ?_
    have := List.sizeOf_lt_of_mem hx
    have := List.sizeOf_lt_of_mem hy
    exact beqSwap_eq x y
  case mapping.mapping es fs =>
    rw [all_beqFound_eq]
    intro f hf e he
    have := List.sizeOf_lt_of_mem hf
    have := List.sizeOf_lt_of_mem he
    have : sizeOf f = 1 + sizeOf f.1 + sizeOf f.2 := rfl
    have : sizeOf e = 1 + sizeOf e.1 + sizeOf e.2 := rfl
    exact ⟨beqSwap_eq f.1 e.1, beqSwap_eq f.2 e.2⟩
termination_by sizeOf a + sizeOf b
decreasing_by all_goals simp_wf; omega

/-! ## Equality of collections through their parts -/

theorem Value.beq_number (x y : Float) : (number x == number y) = (x == y) := rfl

theorem Value.beq_sequence_nil : (sequence [] == sequence []) = true := rfl

theorem Value.beq_sequence_cons (x y : Value) (xs ys : List Value) :
    (sequence (x :: xs) == sequence (y :: ys)) = (x == y && sequence xs == sequence ys) := rfl

theorem Value.beqEntries_eq (es fs : List (Value × Value)) :
    beqEntries es fs = es.all fun e => (Assoc.get? fs e.1).any (· == e.2) := by
  induction es with
  | nil => rfl
  | cons e es ih =>
    simp only [beqEntries, ih, List.all_cons, Assoc.get?, Value.beqSwap_eq]
    congr 1
    change _ = Option.any _ (Option.map _ (fs.find? fun f => beq f.1 e.1))
    cases fs.find? fun f => beq f.1 e.1 <;> rfl

/-- Mappings are equal when they are equally long and each key of the left one has an equal value in
the right one. -/
theorem Value.beq_mapping (es fs : Mapping) :
    (mapping es == mapping fs) =
      (es.length == fs.length && es.all fun e => (Assoc.get? fs e.1).any (· == e.2)) := by
  rw [← beqEntries_eq]; rfl

end Formula
