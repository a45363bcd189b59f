import Formula.Text
import Mathlib.Data.List.TakeWhile
/-!
# Where texts are cut

A text that is cut at the first character of another kind, or trimmed of its blanks, comes apart where
the kinds of characters meet.

Results:
* `takeWhile_append_of_boundary`: a run of characters that ends where the next one is of another kind.
* `trim_append`: blanks around a text without blanks are trimmed off.
* `exists_stripped`, `ends_stripped`: runs of characters taken off on either side.
* `exists_trim`, `mem_trim_of_gap`: what trimming takes off, and what it leaves.
* `trim_eq_nil_iff`: a text is trimmed to nothing when there are only blanks in it.
-/
namespace Formula

section Cut

variable {α : Type} {p : α → Bool} {xs rest before : List α}

theorem takeWhile_append_of_boundary (hxs : ∀ x ∈ xs, p x = true)
    (hrest : ∀ x ∈ rest.head?, p x = false) :
    (xs ++ rest).takeWhile p = xs ∧ (xs ++ rest).dropWhile p = rest := by
  rw [List.takeWhile_append_of_pos hxs, List.dropWhile_append_of_pos hxs]
  cases rest with
  | nil => simp
  | cons c rest =>
    have hc := hrest c rfl
    rw [List.takeWhile_cons_of_neg (by simp [hc]), List.dropWhile_cons_of_neg (by simp [hc]),
      List.append_nil]
    exact ⟨rfl, rfl⟩

/-- A text comes apart in one way where its first run of characters ends. -/
theorem eq_of_append_eq {before' ys : List α} (h : before ++ xs = before' ++ ys)
    (hbefore : ∀ x ∈ before, p x = true) (hbefore' : ∀ x ∈ before', p x = true)
    (hxs : ∀ x ∈ xs.head?, p x = false) (hys : ∀ x ∈ ys.head?, p x = false) : xs = ys := by
  rw [← (takeWhile_append_of_boundary hbefore hxs).2, h]
  exact (takeWhile_append_of_boundary hbefore' hys).2

theorem dropWhile_append_append (hbefore : ∀ x ∈ before, p x = true) (hxs : ∀ x ∈ xs, p x = false)
    (hne : xs ≠ []) (after : List α) : (before ++ (xs ++ after)).dropWhile p = xs ++ after := by
  refine (takeWhile_append_of_boundary hbefore ?_).2
  obtain ⟨x, xs, rfl⟩ := List.exists_cons_of_ne_nil hne
  intro y hy
  cases hy
  exact hxs x List.mem_cons_self

theorem dropWhile_eq_stripped_append (p : α → Bool) (xs : List α) :
    xs.dropWhile p = ((xs.dropWhile p).reverse.dropWhile p).reverse ++
      ((xs.dropWhile p).reverse.takeWhile p).reverse := by
  rw [← List.reverse_append, List.takeWhile_append_dropWhile, List.reverse_reverse]

/-- What is taken off on either side, one run of characters each. -/
theorem exists_stripped (p : α → Bool) (xs : List α) : ∃ before after,
    xs = before ++ ((xs.dropWhile p).reverse.dropWhile p).reverse ++ after ∧
      (∀ x ∈ before, p x = true) ∧ ∀ x ∈ after, p x = true := by
  refine ⟨xs.takeWhile p, ((xs.dropWhile p).reverse.takeWhile p).reverse, ?_, ?_, ?_⟩
  · rw [List.append_assoc, ← dropWhile_eq_stripped_append, List.takeWhile_append_dropWhile]
  · intro x hx
    exact List.mem_takeWhile_imp hx
  · intro x hx
    exact List.mem_takeWhile_imp (List.mem_reverse.1 hx)

theorem eq_false_of_head?_dropWhile {x : α} (h : (xs.dropWhile p).head? = some x) : p x = false := by
  have hnot := List.head?_dropWhile_not p xs
  rwa [h] at hnot

/-- What is left neither begins nor ends with a character of the run. -/
theorem ends_stripped (p : α → Bool) (xs : List α) :
    (∀ x ∈ ((xs.dropWhile p).reverse.dropWhile p).reverse.head?, p x = false) ∧
      ∀ x ∈ ((xs.dropWhile p).reverse.dropWhile p).reverse.getLast?, p x = false := by
  constructor
  · intro x hx
    suffices h : (xs.dropWhile p).head? = some x from eq_false_of_head?_dropWhile h
    rw [dropWhile_eq_stripped_append, List.head?_append, Option.mem_def.1 hx, Option.some_or]
  · intro x hx
    rw [List.getLast?_reverse] at hx
    exact eq_false_of_head?_dropWhile hx

end Cut

/-! ## Blanks -/

/-- Blanks around a text without blanks are trimmed off. -/
theorem trim_append {before cs after : List Char} (hbefore : ∀ c ∈ before, isBlank c = true)
    (hafter : ∀ c ∈ after, isBlank c = true) (hcs : ∀ c ∈ cs, isBlank c = false) (hne : cs ≠ []) :
    trim (before ++ cs ++ after) = cs := by
  have hreverse : (cs ++ after).reverse = after.reverse ++ (cs.reverse ++ []) := by
    simp
  unfold trim
  rw [List.append_assoc, dropWhile_append_append hbefore hcs hne, hreverse,
    dropWhile_append_append (by simpa using hafter) (by simpa using hcs) (by simpa using hne),
    List.append_nil, List.reverse_reverse]

theorem all_of_dropWhile {cs : List Char} (h : ∀ c ∈ cs.dropWhile isBlank, isBlank c = true) :
    ∀ c ∈ cs, isBlank c = true := by
  induction cs with
  | nil => simp
  | cons c cs ih =>
    by_cases hc : isBlank c = true
    · rw [List.dropWhile_cons_of_pos hc] at h
      exact List.forall_mem_cons.2 ⟨hc, ih h⟩
    · rwa [List.dropWhile_cons_of_neg hc] at h

theorem trim_eq_nil_iff {cs : List Char} : trim cs = [] ↔ ∀ c ∈ cs, isBlank c = true := by
  unfold trim
  rw [List.reverse_eq_nil_iff, List.dropWhile_eq_nil_iff]
  constructor
  · intro h
    refine all_of_dropWhile fun c hc => ?_
    exact h c (List.mem_reverse.2 hc)
  · intro h c hc
    exact h c ((List.dropWhile_sublist isBlank).mem (List.mem_reverse.1 hc))

/-- Trimming takes nothing but blanks off, on either side. -/
theorem exists_trim (cs : List Char) : ∃ before after, cs = before ++ trim cs ++ after ∧
    (∀ c ∈ before, isBlank c = true) ∧ ∀ c ∈ after, isBlank c = true :=
  exists_stripped isBlank cs

theorem dropWhile_append_of_exists {α : Type} {p : α → Bool} {xs : List α} (ys : List α)
    (h : ∃ x ∈ xs, p x = false) : (xs ++ ys).dropWhile p = xs.dropWhile p ++ ys := by
  rw [List.dropWhile_append, if_neg]
  rw [List.isEmpty_iff, List.dropWhile_eq_nil_iff]
  obtain ⟨x, hx, hp⟩ := h
  intro hall
  exact absurd (hall x hx) (by simp [hp])

/-- A blank between other characters stays. -/
theorem mem_trim_of_gap {before after : List Char} (c : Char) (hbefore : ∃ d ∈ before, isBlank d = false)
    (hafter : ∃ d ∈ after, isBlank d = false) : c ∈ trim (before ++ c :: after) := by
  have hreverse : ∃ d ∈ after.reverse, isBlank d = false := by
    simpa only [List.mem_reverse] using hafter
  unfold trim
  rw [dropWhile_append_of_exists _ hbefore, List.reverse_append, List.reverse_cons, List.append_assoc,
    dropWhile_append_of_exists _ hreverse]
  simp

def IsBlankText (s : String) : Prop := ∀ c ∈ s.toList, isBlank c = true

instance (s : String) : Decidable (IsBlankText s) :=
  decidable_of_iff (s.toList.all isBlank = true) List.all_eq_true

end Formula
