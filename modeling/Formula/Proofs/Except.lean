import Mathlib.Data.List.Forall2
import Mathlib.Logic.Basic
/-!
# Steps that may fail

What a result says about the steps that led to it: a success needs all of them, and a failure is that
of the first step that fails.

Results:
* `bind_eq_ok`, `map_eq_ok`: a step and what follows it both succeeded.
* `bind_eq_error`, `map_eq_error`: the step failed, or what follows it did.
* `mapM_eq_ok_iff`: the items of a result come from the items, one from each.
* `exists_left_of_mem`, `exists_right_of_mem`: an item on one side and the one it comes from, or makes.
* `map_eq_map_of_forall₂`, `map_eq_map_of_rel`: functions that agree on what is related.
* `exists_mapM_eq_ok`: there is a result when no item fails.
* `bind_eq_error_iff_leftmost`, `mapM_eq_error_iff`: the first item that fails decides.
* `Both.bind`, `Both.mapM`: steps that do alike one after the other do alike.
* `Both.bind_eq`: what follows steps that do alike.
-/
namespace Formula

variable {ε δ α β γ : Type}

theorem bind_eq_ok {x : Except ε α} {k : α → Except ε β} {b : β} :
    (x >>= k) = .ok b ↔ ∃ a, x = .ok a ∧ k a = .ok b := by
  cases x with
  | error e => exact ⟨nofun, nofun⟩
  | ok a => exact ⟨fun h => ⟨a, rfl, h⟩, fun ⟨_, ha, h⟩ => Except.ok.inj ha ▸ h⟩

theorem bind_eq_error {x : Except ε α} {k : α → Except ε β} {e : ε} :
    (x >>= k) = .error e ↔ x = .error e ∨ ∃ a, x = .ok a ∧ k a = .error e := by
  cases x with
  | error d =>
    constructor
    · intro h
      exact .inl (congrArg Except.error (Except.error.inj h))
    · rintro (h | ⟨a, ha, -⟩)
      · exact congrArg Except.error (Except.error.inj h)
      · cases ha
  | ok a =>
    constructor
    · intro h
      exact .inr ⟨a, rfl, h⟩
    · rintro (h | ⟨b, hb, h⟩)
      · cases h
      · exact Except.ok.inj hb ▸ h

theorem map_eq_ok {x : Except ε α} {f : α → β} {b : β} :
    x.map f = .ok b ↔ ∃ a, x = .ok a ∧ f a = b := by
  cases x with
  | error e => exact ⟨nofun, nofun⟩
  | ok a =>
    constructor
    · intro h
      exact ⟨a, rfl, Except.ok.inj h⟩
    · intro ⟨a', ha, h⟩
      cases ha
      rw [← h]
      rfl

theorem map_eq_error {x : Except ε α} {f : α → β} {e : ε} : x.map f = .error e ↔ x = .error e := by
  cases x with
  | error d =>
    constructor
    · intro h
      exact congrArg Except.error (Except.error.inj h)
    · intro h
      exact congrArg Except.error (Except.error.inj h)
  | ok a => exact iff_of_false nofun nofun

theorem mapM_eq_ok_iff {f : α → Except ε β} {xs : List α} {ys : List β} :
    xs.mapM f = .ok ys ↔ List.Forall₂ (fun x y => f x = .ok y) xs ys := by
  induction xs generalizing ys with
  | nil =>
    rw [List.forall₂_nil_left_iff]
    exact ⟨fun h => (Except.ok.inj h).symm, fun h => h ▸ rfl⟩
  | cons x xs ih =>
    rw [List.mapM_cons, bind_eq_ok, List.forall₂_cons_left_iff]
    constructor
    · rintro ⟨y, hy, h⟩
      obtain ⟨zs, hzs, h⟩ := bind_eq_ok.1 h
      cases h
      exact ⟨y, zs, hy, ih.1 hzs, rfl⟩
    · rintro ⟨y, zs, hy, hzs, rfl⟩
      exact ⟨y, hy, bind_eq_ok.2 ⟨zs, ih.2 hzs, rfl⟩⟩

section Forall₂

variable {R : α → β → Prop} {xs : List α} {ys : List β}

theorem exists_left_of_mem (h : List.Forall₂ R xs ys) {y : β} (hy : y ∈ ys) : ∃ x ∈ xs, R x y := by
  induction h with
  | nil => cases hy
  | cons hxy _ ih =>
    rcases List.mem_cons.1 hy with rfl | hy
    · exact ⟨_, List.mem_cons_self, hxy⟩
    · obtain ⟨x, hx, hR⟩ := ih hy
      exact ⟨x, List.mem_cons_of_mem _ hx, hR⟩

theorem exists_right_of_mem (h : List.Forall₂ R xs ys) {x : α} (hx : x ∈ xs) : ∃ y ∈ ys, R x y :=
  exists_left_of_mem (R := flip R) (List.Forall₂.flip h) hx

theorem map_eq_map_of_forall₂ {f : α → γ} {g : β → γ} (h : List.Forall₂ R xs ys)
    (hfg : ∀ x ∈ xs, ∀ y ∈ ys, R x y → f x = g y) : xs.map f = ys.map g := by
  induction h with
  | nil => rfl
  | cons hxy _ ih =>
    rw [List.map_cons, List.map_cons, hfg _ (by simp) _ (by simp) hxy,
      ih fun x hx y hy => hfg x (by simp [hx]) y (by simp [hy])]

theorem map_eq_map_of_rel {f : α → γ} {g : β → γ} {x? : Option α} {y? : Option β}
    (h : Option.Rel R x? y?) (hfg : ∀ x y, x? = some x → y? = some y → R x y → f x = g y) :
    x?.map f = y?.map g := by
  cases h with
  | some hxy => exact congrArg some (hfg _ _ rfl rfl hxy)
  | none => rfl

end Forall₂

theorem exists_mapM_eq_ok {f : α → Except ε β} {P : β → Prop} {xs : List α}
    (h : ∀ x ∈ xs, ∃ y, f x = .ok y ∧ P y) : ∃ ys, xs.mapM f = .ok ys ∧ ∀ y ∈ ys, P y := by
  induction xs with
  | nil => exact ⟨[], rfl, nofun⟩
  | cons x xs ih =>
    rw [List.forall_mem_cons] at h
    obtain ⟨⟨y, hy, hPy⟩, hxs⟩ := h
    obtain ⟨ys, hys, hP⟩ := ih hxs
    refine ⟨y :: ys, ?_, List.forall_mem_cons.2 ⟨hPy, hP⟩⟩
    rw [List.mapM_cons, hy, hys]
    rfl

/-! ## The first failure -/

/-- The first item for which there is a reason has this reason. -/
def Leftmost (reason : α → ε → Prop) (xs : List α) (e : ε) : Prop :=
  ∃ before x after, xs = before ++ x :: after ∧ (∀ y ∈ before, ∀ d, ¬ reason y d) ∧ reason x e

section Leftmost

variable {reason : α → ε → Prop} {x : α} {xs : List α} {e : ε}

theorem not_leftmost_nil : ¬ Leftmost reason [] e := by
  rintro ⟨before, x, after, h, -⟩
  simp at h

theorem leftmost_cons :
    Leftmost reason (x :: xs) e ↔
      reason x e ∨ (∀ d, ¬ reason x d) ∧ Leftmost reason xs e := by
  constructor
  · rintro ⟨before, y, after, h, hbefore, hy⟩
    cases before with
    | nil =>
      cases h
      exact .inl hy
    | cons z before =>
      cases h
      rw [List.forall_mem_cons] at hbefore
      exact .inr ⟨hbefore.1, before, y, after, rfl, hbefore.2, hy⟩
  · rintro (hx | ⟨hx, before, y, after, rfl, hbefore, hy⟩)
    · exact ⟨[], x, xs, rfl, by simp, hx⟩
    · exact ⟨x :: before, y, after, rfl, List.forall_mem_cons.2 ⟨hx, hbefore⟩, hy⟩

theorem exists_leftmost_iff : (∃ e, Leftmost reason xs e) ↔ ∃ x ∈ xs, ∃ e, reason x e := by
  induction xs with
  | nil => simp [not_leftmost_nil]
  | cons x xs ih =>
    simp only [leftmost_cons, List.mem_cons, exists_eq_or_imp, ← ih]
    by_cases hx : ∃ e, reason x e
    · obtain ⟨e, hx⟩ := hx
      exact iff_of_true ⟨e, .inl hx⟩ (.inl ⟨e, hx⟩)
    · have hnone : ∀ d, ¬ reason x d := fun d h => hx ⟨d, h⟩
      simp [hnone]

theorem Leftmost.exists_mem (h : Leftmost reason xs e) : ∃ x ∈ xs, reason x e := by
  obtain ⟨before, x, after, rfl, -, hx⟩ := h
  exact ⟨x, by simp, hx⟩

/-- A step that fails for a reason, and after it those for the rest. -/
theorem bind_eq_error_iff_leftmost {f : α → Except ε β} (hf : ∀ e, f x = .error e ↔ reason x e)
    {k : β → Except ε γ} (hk : ∀ y, k y = .error e ↔ Leftmost reason xs e) :
    (f x >>= k) = .error e ↔ Leftmost reason (x :: xs) e := by
  rw [bind_eq_error, leftmost_cons, hf]
  refine or_congr_right ?_
  constructor
  · rintro ⟨y, hy, h⟩
    refine ⟨?_, (hk y).1 h⟩
    intro d hd
    rw [← hf, hy] at hd
    cases hd
  · rintro ⟨hx, h⟩
    cases hy : f x with
    | error d => exact absurd ((hf d).1 hy) (hx d)
    | ok y => exact ⟨y, rfl, (hk y).2 h⟩

theorem pure_eq_error_iff_leftmost {b : β} :
    (pure b : Except ε β) = .error e ↔ Leftmost reason [] e :=
  iff_of_false nofun not_leftmost_nil

theorem mapM_eq_error_iff {f : α → Except ε β} (hf : ∀ x e, f x = .error e ↔ reason x e) :
    xs.mapM f = .error e ↔ Leftmost reason xs e := by
  induction xs with
  | nil => exact pure_eq_error_iff_leftmost
  | cons x xs ih =>
    rw [List.mapM_cons]
    refine bind_eq_error_iff_leftmost (hf x) fun y => ?_
    rw [bind_eq_error, ih]
    exact or_iff_left nofun

end Leftmost

/-! ## Steps that do alike -/

/-- Both steps succeed, with results related by `S`, or both fail, for reasons related by `E`. -/
inductive Both (S : α → β → Prop) (E : ε → δ → Prop) : Except ε α → Except δ β → Prop where
  | ok {a : α} {b : β} (h : S a b) : Both S E (.ok a) (.ok b)
  | error {e : ε} {d : δ} (h : E e d) : Both S E (.error e) (.error d)

section Both

variable {S : α → β → Prop} {E : ε → δ → Prop} {x : Except ε α} {y : Except δ β}

theorem Both.imp {T : α → β → Prop} {F : ε → δ → Prop} (h : Both S E x y)
    (hS : ∀ a b, S a b → T a b) (hE : ∀ e d, E e d → F e d) : Both T F x y := by
  cases h with
  | ok h => exact .ok (hS _ _ h)
  | error h => exact .error (hE _ _ h)

theorem Both.bind {α' β' : Type} {T : α' → β' → Prop} (h : Both S E x y) {k : α → Except ε α'}
    {l : β → Except δ β'} (hk : ∀ a b, S a b → Both T E (k a) (l b)) :
    Both T E (x >>= k) (y >>= l) := by
  cases h with
  | ok h => exact hk _ _ h
  | error h => exact .error h

/-- Results that what follows cannot tell apart. -/
theorem Both.bind_eq {x : Except ε α} {y : Except ε β} (h : Both S (· = ·) x y)
    {k : α → Except ε γ} {l : β → Except ε γ} (hk : ∀ a b, S a b → k a = l b) :
    (x >>= k) = (y >>= l) := by
  cases h with
  | ok h => exact hk _ _ h
  | error h => exact congrArg Except.error h

theorem Both.mapM {α' β' : Type} {R : α' → β' → Prop} {f : α' → Except ε α} {g : β' → Except δ β}
    (hfg : ∀ x y, R x y → Both S E (f x) (g y)) {xs : List α'} {ys : List β'}
    (h : List.Forall₂ R xs ys) : Both (List.Forall₂ S) E (xs.mapM f) (ys.mapM g) := by
  induction h with
  | nil => exact .ok .nil
  | cons hxy _ ih =>
    rw [List.mapM_cons, List.mapM_cons]
    refine (hfg _ _ hxy).bind fun a b hab => ?_
    refine ih.bind fun as bs habs => ?_
    exact .ok (.cons hab habs)

end Both

end Formula
