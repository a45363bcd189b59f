import Formula.Proofs.Catalog.Slots
import Formula.Proofs.Operator.Operands
import Formula.Proofs.Operator.Unfit
/-!
# Faults of the operators

With as many operands as it takes, an operator of the language fails in one of five ways: never, when
something else is merged into a mapping, at the first operand that is no number, at the first one that is
no truth value, or in access to an element. The table `Regime.keys` says which operator fails which way,
and together with the fault for an unknown operator this is every fault of an application.

Results:
* `failsWith_unary`, `failsWith_binary`: what the meaning of an operator has to do.
* `Provided.exists_failsWith`: every operator that can be made fails in one of the five ways.
* `apply_eq_error_iff`: the faults of an application, by the table.
* `faults_classified`: the same, kind of fault by kind of fault.
-/
namespace Formula

/-- The ways in which operators fail. -/
inductive Regime where
  | total
  | merging
  | numeric
  | logical
  | access
  deriving DecidableEq

namespace Regime

/-- The symbols and arities of the operators of the language that fail this way. -/
def keys : Regime → List (String × Nat)
  | total => [("-", 2), ("==", 2), ("EQUALS", 2), ("!=", 2), ("UNEQUAL", 2), ("IN", 2),
      ("CONTAINS", 2), ("EXISTS", 1), ("$", 1)]
  | merging => [("+", 2)]
  | numeric => [("*", 2), ("/", 2), ("%", 2), ("^", 2), ("<", 2), (">", 2), ("<=", 2), (">=", 2),
      ("-", 1)]
  | logical => [("!", 1), ("NOT", 1), ("&", 2), ("AND", 2), ("|", 2), ("OR", 2), ("XOR", 2)]
  | access => [("@", 2), ("AT", 2)]

/-- The faults, for as many operands as there have to be, of an operator with this symbol. -/
def Fails (symbol : String) (operands : List Value) (f : Fault) : Regime → Prop
  | total => False
  | merging => ∃ a b, operands = [a, b] ∧ a.kind = .mapping ∧ b.kind ≠ .mapping ∧
      f = .unsupported symbol b.kind
  | numeric => Leftmost (Value.NotNumber symbol) operands f
  | logical => Leftmost (Value.NotBoolean symbol) operands f
  | access => ∃ c i, operands = [c, i] ∧ Value.NoAccess symbol c i f

theorem Fails.ne_unknownOperator {symbol s : String} {operands : List Value} {f : Fault} {n : Nat}
    {r : Regime} (h : r.Fails symbol operands f) : f ≠ .unknownOperator s n := by
  rintro rfl
  cases r with
  | total => exact h
  | merging =>
    obtain ⟨a, b, -, -, -, h⟩ := h
    cases h
  | numeric =>
    obtain ⟨v, -, hv⟩ := Leftmost.exists_mem h
    cases hv
  | logical =>
    obtain ⟨v, -, hv⟩ := Leftmost.exists_mem h
    cases hv
  | access =>
    obtain ⟨c, i, -, h⟩ := h
    exact h.ne_unknownOperator rfl

end Regime

namespace Operator

variable {op : Operator} {s : Signature} {symbol : String}

/-- For as many operands as it takes, the operator fails exactly in this way. -/
def FailsWith (op : Operator) (r : Regime) : Prop :=
  ∀ lookup operands, operands.length = op.arity → ∀ f,
    (op.evaluate lookup operands).1 = .error f ↔ r.Fails op.symbol operands f

theorem failsWith_unary {r : Regime} (hs : s.arity = 1) {g : Lookup → Value → Outcome}
    (h : ∀ lookup a f, g lookup a = .error f ↔ r.Fails s.symbol [a] f) : (unary s g).FailsWith r := by
  intro lookup operands hlength f
  obtain ⟨a, rfl⟩ := List.length_eq_one_iff.1 (hlength.trans hs)
  exact h lookup a f

theorem failsWith_binary {r : Regime} (hs : s.arity = 2) {g : Value → Value → Outcome}
    (h : ∀ a b f, g a b = .error f ↔ r.Fails s.symbol [a, b] f) : (binary s g).FailsWith r := by
  intro lookup operands hlength f
  obtain ⟨a, b, rfl⟩ := List.length_eq_two.1 (hlength.trans hs)
  exact h a b f

/-! ## Operators that never fail -/

theorem failsWith_relation (hs : s.arity = 2) (r : Relation) : (relation s r).FailsWith .total :=
  failsWith_binary hs fun _ _ _ => iff_of_false nofun id

theorem failsWith_needleFirst : (needleFirst symbol).FailsWith .total :=
  failsWith_binary rfl fun _ _ _ => iff_of_false nofun id

theorem failsWith_haystackFirst : (haystackFirst symbol).FailsWith .total :=
  failsWith_binary rfl fun _ _ _ => iff_of_false nofun id

theorem failsWith_resolve : resolve.FailsWith .total :=
  failsWith_unary rfl fun _ _ _ => iff_of_false nofun id

theorem failsWith_existence : existence.FailsWith .total :=
  failsWith_unary rfl fun _ _ _ => iff_of_false nofun id

/-! ## Sums and differences -/

/-- An arithmetic fails as its meanings do. -/
theorem failsWith_arithmetic {r : Regime} (hs : s.arity = 2) {g : Arithmetic}
    (h : ∀ a b f, g.apply a b = .error f ↔ r.Fails s.symbol [a, b] f) :
    (arithmetic s g).FailsWith r :=
  failsWith_binary hs fun a b f => map_eq_error.trans (h a b f)

theorem failsWith_subtraction : subtraction.FailsWith .total := by
  refine failsWith_arithmetic rfl fun a b f => iff_of_false ?_ id
  unfold Arithmetic.apply
  split <;> nofun

theorem sum_mapping_eq_error_iff {m : Mapping} {b : Value} {f : Fault} :
    sum.mapping m b = .error f ↔ b.kind ≠ .mapping ∧ f = .unsupported "+" b.kind := by
  cases b with
  | mapping n => exact iff_of_false nofun fun h => h.1 rfl
  | number | boolean | text | sequence =>
    constructor
    · intro h
      cases h
      exact ⟨nofun, rfl⟩
    · rintro ⟨-, rfl⟩
      rfl

theorem failsWith_addition : addition.FailsWith .merging := by
  refine failsWith_arithmetic rfl fun a b f => ?_
  constructor
  · intro h
    unfold Arithmetic.apply at h
    split at h
    · cases h
    · cases h
    · cases h
    · next m c hc =>
      obtain ⟨rfl, rfl⟩ := Combination.of_eq_mapping hc
      exact ⟨.mapping m, c, rfl, rfl, sum_mapping_eq_error_iff.1 h⟩
  · rintro ⟨a, b, h, ha, hb⟩
    cases h
    cases a with
    | mapping m => exact sum_mapping_eq_error_iff.2 hb
    | number | boolean | text | sequence => cases ha

/-! ## Calculations and connectives -/

theorem failsWith_numeric (hs : s.arity = 2) (g : Float → Float → Value) :
    (numeric s g).FailsWith .numeric :=
  failsWith_binary hs fun _ _ _ =>
    bind_eq_error_iff_leftmost (fun _ => Value.asNumber_eq_error_iff) fun _ =>
      bind_eq_error_iff_leftmost (fun _ => Value.asNumber_eq_error_iff) fun _ =>
        pure_eq_error_iff_leftmost

theorem failsWith_negation : negation.FailsWith .numeric :=
  failsWith_unary rfl fun _ _ _ =>
    bind_eq_error_iff_leftmost (fun _ => Value.asNumber_eq_error_iff) fun _ =>
      pure_eq_error_iff_leftmost

theorem failsWith_logicalNot : (logicalNot symbol).FailsWith .logical :=
  failsWith_unary rfl fun _ _ _ =>
    bind_eq_error_iff_leftmost (fun _ => Value.asBoolean_eq_error_iff) fun _ =>
      pure_eq_error_iff_leftmost

theorem failsWith_connective {precedence : Int} {g : Bool → Bool → Bool} :
    (connective symbol precedence g).FailsWith .logical :=
  failsWith_binary rfl fun _ _ _ =>
    bind_eq_error_iff_leftmost (fun _ => Value.asBoolean_eq_error_iff) fun _ =>
      bind_eq_error_iff_leftmost (fun _ => Value.asBoolean_eq_error_iff) fun _ =>
        pure_eq_error_iff_leftmost

/-! ## Element access -/

theorem failsWith_elementAccess : (elementAccess symbol).FailsWith .access := by
  refine failsWith_binary rfl fun a b f => ?_
  rw [Value.access_eq_error_iff]
  constructor
  · intro h
    exact ⟨a, b, rfl, h⟩
  · rintro ⟨c, i, h, hc⟩
    cases h
    exact hc

/-! ## Every operator -/

/-- With as many operands as it takes, an operator that can be made fails in one of the five ways. -/
theorem Provided.exists_failsWith (h : op.Provided) : ∃ r, op.FailsWith r := by
  cases h with
  | addition => exact ⟨_, failsWith_addition⟩
  | subtraction => exact ⟨_, failsWith_subtraction⟩
  | multiplication => exact ⟨_, failsWith_numeric rfl fun x y => .number (x * y)⟩
  | division => exact ⟨_, failsWith_numeric rfl fun x y => .number (x / y)⟩
  | modulo => exact ⟨_, failsWith_numeric rfl fun x y => .number (Number.remainder x y)⟩
  | power => exact ⟨_, failsWith_numeric rfl fun x y => .number (x.pow y)⟩
  | negation => exact ⟨_, failsWith_negation⟩
  | equality symbol => exact ⟨_, failsWith_relation rfl equal⟩
  | inequality symbol => exact ⟨_, failsWith_relation rfl unequal⟩
  | inequalityKeyword symbol => exact ⟨_, failsWith_relation rfl unequalButSequences⟩
  | ordering symbol f => exact ⟨_, failsWith_numeric rfl f⟩
  | logicalNot symbol => exact ⟨_, failsWith_logicalNot⟩
  | connective symbol precedence f => exact ⟨_, failsWith_connective⟩
  | needleFirst symbol => exact ⟨_, failsWith_needleFirst⟩
  | haystackFirst symbol => exact ⟨_, failsWith_haystackFirst⟩
  | elementAccess symbol => exact ⟨_, failsWith_elementAccess⟩
  | resolve => exact ⟨_, failsWith_resolve⟩
  | existence => exact ⟨_, failsWith_existence⟩

/-- The operator never reports that an operator is unknown. -/
def NeverUnknown (op : Operator) : Prop :=
  ∀ lookup operands symbol n,
    (op.evaluate lookup operands).1 ≠ .error (.unknownOperator symbol n)

theorem Provided.neverUnknown (h : op.Provided) : op.NeverUnknown := by
  intro lookup operands symbol n heq
  rcases Nat.lt_or_ge operands.length op.arity with hlt | hle
  · rw [h.takesOperands.missing lookup operands hlt] at heq
    cases heq
  · rw [h.takesOperands.outcome lookup operands hle] at heq
    obtain ⟨r, hr⟩ := h.exists_failsWith
    have hlength : (operands.take op.arity).length = op.arity := by
      rw [List.length_take]
      omega
    exact ((hr lookup _ hlength _).1 heq).ne_unknownOperator rfl

/-- The operators of the language are in the table, and fail as it says. -/
theorem exists_regime (h : op ∈ builtinOperators) : ∃ r : Regime, op.key ∈ r.keys ∧ op.FailsWith r := by
  revert op
  simp only [builtinOperators, List.forall_mem_cons, List.not_mem_nil, false_imp_iff,
    implies_true, and_true]
  -- One triple for each operator, in the order of the list.
  exact ⟨⟨.merging, by decide, failsWith_addition⟩, ⟨.total, by decide, failsWith_subtraction⟩,
    ⟨.numeric, by decide, failsWith_numeric rfl _⟩, ⟨.numeric, by decide, failsWith_numeric rfl _⟩,
    ⟨.numeric, by decide, failsWith_numeric rfl _⟩, ⟨.numeric, by decide, failsWith_numeric rfl _⟩,
    ⟨.numeric, by decide, failsWith_negation⟩,
    ⟨.total, by decide, failsWith_relation rfl _⟩, ⟨.total, by decide, failsWith_relation rfl _⟩,
    ⟨.total, by decide, failsWith_relation rfl _⟩, ⟨.total, by decide, failsWith_relation rfl _⟩,
    ⟨.numeric, by decide, failsWith_numeric rfl _⟩, ⟨.numeric, by decide, failsWith_numeric rfl _⟩,
    ⟨.numeric, by decide, failsWith_numeric rfl _⟩, ⟨.numeric, by decide, failsWith_numeric rfl _⟩,
    ⟨.logical, by decide, failsWith_logicalNot⟩, ⟨.logical, by decide, failsWith_logicalNot⟩,
    ⟨.logical, by decide, failsWith_connective⟩, ⟨.logical, by decide, failsWith_connective⟩,
    ⟨.logical, by decide, failsWith_connective⟩, ⟨.logical, by decide, failsWith_connective⟩,
    ⟨.logical, by decide, failsWith_connective⟩,
    ⟨.total, by decide, failsWith_needleFirst⟩, ⟨.total, by decide, failsWith_haystackFirst⟩,
    ⟨.access, by decide, failsWith_elementAccess⟩, ⟨.access, by decide, failsWith_elementAccess⟩,
    ⟨.total, by decide, failsWith_resolve⟩, ⟨.total, by decide, failsWith_existence⟩⟩

end Operator

/-! ## Applications -/

theorem nodup_builtinOperators : (builtinOperators.map Operator.key).Nodup := by decide

theorem find?_builtins {symbol : String} {n : Nat} {op : Operator} :
    builtins.find? symbol n = some op ↔ op ∈ builtinOperators ∧ op.key = (symbol, n) :=
  Catalog.find?_ofList_of_nodup nodup_builtinOperators

/-- No operator of the language has this symbol and this arity. -/
def Unlisted (symbol : String) (n : Nat) : Prop := ∀ op ∈ builtinOperators, op.key ≠ (symbol, n)

theorem find?_builtins_eq_none_iff {symbol : String} {n : Nat} :
    builtins.find? symbol n = none ↔ Unlisted symbol n := by
  simp only [Option.eq_none_iff_forall_ne_some, ne_eq, find?_builtins, not_and, Unlisted]

theorem Regime.eq_of_mem_keys {r r' : Regime} {key : String × Nat} (h : key ∈ r.keys)
    (h' : key ∈ r'.keys) : r = r' := by
  revert key
  cases r <;> cases r' <;> decide

theorem Regime.not_unlisted {r : Regime} {symbol : String} {n : Nat} (h : (symbol, n) ∈ r.keys) :
    ¬ Unlisted symbol n := by
  have hall : ∀ key ∈ r.keys, key ∈ builtinOperators.map Operator.key := by
    cases r <;> decide
  obtain ⟨op, hop, hkey⟩ := List.mem_map.1 (hall _ h)
  exact fun hun => hun op hop hkey

section Apply

variable {σ : Type} [Scope σ] {scope : σ} {symbol : String} {operands : List Value} {f : Fault}

theorem apply_eq_error_iff :
    apply symbol operands scope = .error f ↔
      (∃ r : Regime, (symbol, operands.length) ∈ r.keys ∧ r.Fails symbol operands f) ∨
      Unlisted symbol operands.length ∧ f = .unknownOperator symbol operands.length := by
  unfold apply
  cases hfind : builtins.find? symbol operands.length with
  | none =>
    have hun := find?_builtins_eq_none_iff.1 hfind
    rw [Catalog.apply_of_find?_eq_none hfind]
    constructor
    · intro h
      exact .inr ⟨hun, (Except.error.inj h).symm⟩
    · rintro (⟨r, hr, -⟩ | ⟨-, rfl⟩)
      · exact absurd hun (Regime.not_unlisted hr)
      · rfl
  | some op =>
    obtain ⟨hop, hkey⟩ := find?_builtins.1 hfind
    obtain ⟨rfl, harity⟩ := Prod.mk.inj hkey
    obtain ⟨r, hr, hfails⟩ := Operator.exists_regime hop
    rw [Catalog.apply_of_find?_eq_some hfind, hfails _ _ harity.symm]
    constructor
    · intro h
      exact .inl ⟨r, hkey ▸ hr, h⟩
    · rintro (⟨r', hr', h⟩ | ⟨hun, -⟩)
      · exact Regime.eq_of_mem_keys hr' (hkey ▸ hr) ▸ h
      · exact absurd hkey (hun op hop)

theorem apply_eq_error_iff_of_mem {r : Regime} (hr : (symbol, operands.length) ∈ r.keys) :
    apply symbol operands scope = .error f ↔ r.Fails symbol operands f := by
  rw [apply_eq_error_iff]
  constructor
  · rintro (⟨r', hr', h⟩ | ⟨hun, -⟩)
    · exact Regime.eq_of_mem_keys hr' hr ▸ h
    · exact absurd hun (Regime.not_unlisted hr)
  · intro h
    exact .inl ⟨r, hr, h⟩

end Apply

/-! ## Faults by their kinds -/

/-- The operands and the symbol with which an application can report the fault. -/
def Fault.Admissible (symbol : String) (operands : List Value) : Fault → Prop
  | .unsupported operator _ => operator = symbol
  | .unreadableNumber operator _ => operator = symbol
  | .notBoolean operator _ => operator = symbol
  | .outOfBounds _ _ => (symbol = "@" ∨ symbol = "AT") ∧
      ∃ c i, operands = [c, i] ∧ (c.kind = .sequence ∨ c.kind = .text)
  | .keyNotFound _ => (symbol = "@" ∨ symbol = "AT") ∧
      ∃ m indices, operands = [.mapping m, .sequence indices]
  | .unknownOperator s n => s = symbol ∧ n = operands.length ∧ Unlisted symbol operands.length
  | .missingOperand _ _ | .nullValue | .notAssignment _ | .blankName => False

section Admissible

variable {symbol : String} {operands : List Value} {f : Fault}

theorem Value.NotNumber.admissible {v : Value} (h : v.NotNumber symbol f) :
    f.Admissible symbol operands := by
  cases h <;> rfl

theorem Value.NotBoolean.admissible {v : Value} (h : v.NotBoolean symbol f) :
    f.Admissible symbol operands := by
  cases h <;> rfl

theorem Value.NoPosition.admissible {c i index : Value} {length : Nat}
    (h : NoPosition symbol length index f) (hs : symbol = "@" ∨ symbol = "AT")
    (hc : c.kind = .sequence ∨ c.kind = .text) : f.Admissible symbol [c, i] := by
  cases h with
  | kind _ => rfl
  | bounds _ => exact ⟨hs, c, i, rfl, hc⟩

theorem Value.NoAccess.admissible {c i : Value} (h : NoAccess symbol c i f)
    (hs : symbol = "@" ∨ symbol = "AT") : f.Admissible symbol [c, i] := by
  cases h with
  | container _ => rfl
  | one _ hm h =>
    cases h with
    | item h => exact h.admissible hs (.inl rfl)
    | char h => exact h.admissible hs (.inr rfl)
    | key _ => exact absurd rfl hm
  | several h =>
    obtain ⟨index, -, h⟩ := h.exists_mem
    cases h with
    | item h => exact h.admissible hs (.inl rfl)
    | char h => exact h.admissible hs (.inr rfl)
    | key _ => exact ⟨hs, _, _, rfl⟩

theorem Regime.Fails.admissible {r : Regime} (hr : (symbol, operands.length) ∈ r.keys)
    (h : r.Fails symbol operands f) : f.Admissible symbol operands := by
  cases r with
  | total => exact h.elim
  | merging =>
    obtain ⟨a, b, -, -, -, rfl⟩ := h
    rfl
  | numeric =>
    obtain ⟨v, -, hv⟩ := Leftmost.exists_mem h
    exact hv.admissible
  | logical =>
    obtain ⟨v, -, hv⟩ := Leftmost.exists_mem h
    exact hv.admissible
  | access =>
    obtain ⟨c, i, rfl, h⟩ := h
    refine h.admissible ?_
    simpa [keys] using hr

end Admissible

/-- The faults of a way to apply operators of the language. -/
structure Classified (apply : String → List Value → Outcome) : Prop where
  admissible : ∀ symbol operands f, apply symbol operands = .error f → f.Admissible symbol operands
  unknown : ∀ symbol operands, Unlisted symbol operands.length →
    apply symbol operands = .error (.unknownOperator symbol operands.length)
  total : ∀ symbol operands, (symbol, operands.length) ∈ Regime.total.keys →
    ∃ result, apply symbol operands = .ok result
  sum : ∀ a b f, apply "+" [a, b] = .error f ↔
    a.kind = .mapping ∧ b.kind ≠ .mapping ∧ f = .unsupported "+" b.kind
  numeric : ∀ symbol operands, (symbol, operands.length) ∈ Regime.numeric.keys →
    ((∃ f, apply symbol operands = .error f) ↔
      ∃ a ∈ operands, a.IsCollection ∨ ∃ s, a = .text s ∧ numberOfText? s = none) ∧
    ∀ f, apply symbol operands = .error f ↔ Leftmost (Value.NotNumber symbol) operands f
  logical : ∀ symbol operands, (symbol, operands.length) ∈ Regime.logical.keys →
    ((∃ f, apply symbol operands = .error f) ↔ ∃ a ∈ operands, a.kind ≠ .boolean) ∧
    ∀ f, apply symbol operands = .error f ↔ Leftmost (Value.NotBoolean symbol) operands f
  access : ∀ symbol container index f, (symbol, 2) ∈ Regime.access.keys →
    (apply symbol [container, index] = .error f ↔ Value.NoAccess symbol container index f)

/-- **Faults of applications.** Whatever the symbol, the operands and the scope, an application of an
operator of the language fails just when the operands are unfit for the operator, and at the first one
that is. A missing operand and a failed conversion are never reported, and a fault that names an
operator names the one that was applied. -/
theorem faults_classified {σ : Type} [Scope σ] (scope : σ) :
    Classified fun symbol operands => apply symbol operands scope where
  admissible symbol operands f h := by
    rcases apply_eq_error_iff.1 h with ⟨r, hr, h⟩ | ⟨hun, rfl⟩
    · exact h.admissible hr
    · exact ⟨rfl, rfl, hun⟩
  unknown symbol operands hun := apply_eq_error_iff.2 (.inr ⟨hun, rfl⟩)
  total symbol operands hr := by
    cases h : apply symbol operands scope with
    | ok result => exact ⟨result, rfl⟩
    | error f => exact ((apply_eq_error_iff_of_mem hr).1 h).elim
  sum a b f := by
    rw [apply_eq_error_iff_of_mem (r := .merging) (by simp [Regime.keys])]
    constructor
    · rintro ⟨a, b, h, hab⟩
      cases h
      exact hab
    · intro h
      exact ⟨a, b, rfl, h⟩
  numeric symbol operands hr := by
    have h : ∀ f, apply symbol operands scope = .error f ↔
        Leftmost (Value.NotNumber symbol) operands f := fun f => apply_eq_error_iff_of_mem hr
    refine ⟨?_, h⟩
    simp only [h, exists_leftmost_iff, Value.exists_notNumber_iff]
  logical symbol operands hr := by
    have h : ∀ f, apply symbol operands scope = .error f ↔
        Leftmost (Value.NotBoolean symbol) operands f := fun f => apply_eq_error_iff_of_mem hr
    refine ⟨?_, h⟩
    simp only [h, exists_leftmost_iff, Value.exists_notBoolean_iff]
  access symbol container index f hr := by
    rw [apply_eq_error_iff_of_mem (r := .access) hr]
    constructor
    · rintro ⟨c, i, h, hc⟩
      cases h
      exact hc
    · intro h
      exact ⟨container, index, rfl, h⟩

/-- Both operands are unfit, and the left one is reported. -/
example : apply "*" [.text "x", .sequence []] Variables.empty =
    .error (.unreadableNumber "*" "x") := by rfl

end Formula
