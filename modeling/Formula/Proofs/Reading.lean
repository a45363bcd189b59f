import Formula.Proofs.Json.Canonical
import Formula.Proofs.Text.Cut
import Formula.Reading
/-!
# Texts that are read

An operand and the part of an assignment after its first equals sign mean the same, on every text: the
value of a document, a fault for a document with a null in it, and else the text itself.

Results:
* `Value.read_eq_error_iff`: the texts that cannot be read.
* `Assignment.read_of_not_mem`, `Assignment.read_cut`: every text as an assignment.
* `Assignment.read_append`: an assignment to a name that is not blank.
* `Assignment.exists_cut_of_read`: where the name and the value of an assignment come from.
-/
namespace Formula

/-- Only a document with a null in it cannot be read. -/
theorem Value.read_eq_error_iff {s : String} {fault : Fault} :
    Value.read s = .error fault ↔
      fault = .nullValue ∧ ∃ j, Json.read? s = some j ∧ Json.Within .null j := by
  unfold Value.read
  cases hs : Json.read? s with
  | none => simp
  | some j => simp [Json.toValue_eq_error_iff]

namespace Assignment

theorem ne_equals_of_not_mem {cs : List Char} (h : '=' ∉ cs) :
    ∀ c ∈ cs, decide (c ≠ '=') = true := by
  intro c hc
  exact decide_eq_true fun heq => h (heq ▸ hc)

theorem read_of_not_mem {s : String} (h : '=' ∉ s.toList) :
    Assignment.read s = .error (.notAssignment s) := by
  have hdrop : s.toList.dropWhile (· ≠ '=') = [] :=
    List.dropWhile_eq_nil_iff.2 (ne_equals_of_not_mem h)
  rw [Assignment.read, hdrop]

/-- The value of an assignment is read like an operand. -/
theorem read_cut {before : String} (h : '=' ∉ before.toList) (after : String) :
    Assignment.read (before ++ "=" ++ after) =
      if trim before.toList = [] then .error .blankName
      else (Value.read after).map fun v => ⟨String.ofList (trim before.toList), v⟩ := by
  have hafter : ∀ c ∈ ('=' :: after.toList).head?, decide (c ≠ '=') = false := by simp
  obtain ⟨htake, hdrop⟩ := takeWhile_append_of_boundary (ne_equals_of_not_mem h) hafter
  have htext : (before ++ "=" ++ after).toList = before.toList ++ '=' :: after.toList := by simp
  unfold Assignment.read
  rw [htext, htake, hdrop]
  dsimp only
  rw [String.ofList_toList]
  split
  · rename_i hblank
    rw [if_pos hblank]
  · rename_i hblank
    rw [if_neg hblank, Value.read]
    cases Json.read? after with
    | none => rfl
    | some j => cases j.toValue <;> rfl

theorem read_append {name : String} (hname : '=' ∉ name.toList) (hblank : ¬ IsBlankText name)
    (s : String) : Assignment.read (name ++ "=" ++ s) =
      (Value.read s).map fun v => ⟨String.ofList (trim name.toList), v⟩ := by
  rw [read_cut hname, if_neg fun h => hblank (trim_eq_nil_iff.1 h)]

/-- A text with an equals sign is cut at the first one. -/
theorem exists_cut {s : String} (h : '=' ∈ s.toList) :
    ∃ before after : String, s = before ++ "=" ++ after ∧ '=' ∉ before.toList := by
  obtain ⟨before, after, hs, hbefore⟩ := List.eq_append_cons_of_mem h
  refine ⟨String.ofList before, String.ofList after, ?_, by rwa [String.toList_ofList]⟩
  rw [← String.toList_inj, hs]
  simp

/-- What was read as an assignment is its name between blanks, the first equals sign, and its value. -/
theorem exists_cut_of_read {s : String} {a : Assignment} (h : Assignment.read s = .ok a) :
    ∃ before after : String, s = before ++ "=" ++ after ∧ '=' ∉ before.toList ∧
      a.name = String.ofList (trim before.toList) ∧ Value.read after = .ok a.value := by
  by_cases hs : '=' ∈ s.toList
  · obtain ⟨before, after, rfl, hbefore⟩ := exists_cut hs
    rw [read_cut hbefore] at h
    split at h
    · cases h
    · obtain ⟨v, hv, rfl⟩ := map_eq_ok.1 h
      exact ⟨before, after, rfl, hbefore, rfl, hv⟩
  · rw [read_of_not_mem hs] at h
    cases h

end Assignment

end Formula
