/-!
# Association lists

Entries `(key, value)` in the order in which the keys came. Keys are compared by `==`, the stored key
on the left, and the first equal key counts. `put` and `take` change one entry and answer the value
that was there.

Results:
* `put_fst`, `take_fst`: both answer what `get?` finds.
* `map_fst_put`, `mem_of_mem_put`: the keys and the entries after `put`, when `==` is equality.
-/
namespace Formula.Assoc

variable {κ ν : Type} [BEq κ]

/-- The value under the first key equal to `k`. -/
def get? (es : List (κ × ν)) (k : κ) : Option ν := (es.find? fun e => e.1 == k).map (·.2)

/-- Writes `v` under `k`: in the place of the first equal key, which stays, else at the end. -/
def put : List (κ × ν) → κ → ν → Option ν × List (κ × ν)
  | [], k, v => (none, [(k, v)])
  | (k', v') :: es, k, v =>
    if k' == k then (some v', (k', v) :: es)
    else
      let r := put es k v
      (r.1, (k', v') :: r.2)

/-- Removes the first entry whose key equals `k`. -/
def take : List (κ × ν) → κ → Option ν × List (κ × ν)
  | [], _ => (none, [])
  | (k', v') :: es, k =>
    if k' == k then (some v', es)
    else
      let r := take es k
      (r.1, (k', v') :: r.2)

theorem put_fst (es : List (κ × ν)) (k : κ) (v : ν) : (put es k v).1 = get? es k := by
  induction es with
  | nil => rfl
  | cons e es ih =>
    by_cases h : e.1 == k
    · simp [put, get?, h]
    · simp only [put, h, ih]
      simp [get?, h]

theorem take_fst (es : List (κ × ν)) (k : κ) : (take es k).1 = get? es k := by
  induction es with
  | nil => rfl
  | cons e es ih =>
    by_cases h : e.1 == k
    · simp [take, get?, h]
    · simp only [take, h, ih]
      simp [get?, h]

/-! ## Keys that are equal only when they are the same -/

theorem map_fst_put [LawfulBEq κ] (es : List (κ × ν)) (k : κ) (v : ν) :
    (put es k v).2.map (·.1) =
      if k ∈ es.map (·.1) then es.map (·.1) else es.map (·.1) ++ [k] := by
  induction es with
  | nil => simp [put]
  | cons e es ih =>
    by_cases h : e.1 = k
    · subst h; simp [put]
    · have h' : k ≠ e.1 := fun he => h he.symm
      simp only [put, beq_iff_eq, h, if_false, List.map_cons, ih, List.mem_cons, h', false_or]
      split <;> simp

theorem mem_of_get?_eq_some [LawfulBEq κ] {es : List (κ × ν)} {k : κ} {v : ν}
    (h : get? es k = some v) : (k, v) ∈ es := by
  obtain ⟨e, he, rfl⟩ := Option.map_eq_some_iff.1 h
  have hk : e.1 = k := by simpa using List.find?_some he
  exact hk ▸ List.mem_of_find?_eq_some he

theorem mem_of_mem_put [LawfulBEq κ] {es : List (κ × ν)} {k : κ} {v : ν} {e : κ × ν}
    (h : e ∈ (put es k v).2) : e ∈ es ∨ e = (k, v) := by
  induction es with
  | nil => exact .inr (List.mem_singleton.1 h)
  | cons f es ih =>
    by_cases hf : f.1 = k
    · subst hf
      simp only [put, beq_self_eq_true, if_true] at h
      rcases List.mem_cons.1 h with h | h
      · exact .inr h
      · exact .inl (List.mem_cons_of_mem _ h)
    · simp only [put, beq_iff_eq, hf, if_false] at h
      rcases List.mem_cons.1 h with h | h
      · exact .inl (h ▸ List.mem_cons_self)
      · exact (ih h).imp_left (List.mem_cons_of_mem _)

theorem nodup_put [LawfulBEq κ] {es : List (κ × ν)} (h : (es.map (·.1)).Nodup) (k : κ) (v : ν) :
    ((put es k v).2.map (·.1)).Nodup := by
  rw [map_fst_put]
  split
  · exact h
  · next hk =>
    rw [List.nodup_append]
    exact ⟨h, by simp, by rintro a ha b hb rfl; simp at hb; exact hk (hb ▸ ha)⟩

theorem take_sublist (es : List (κ × ν)) (k : κ) : (take es k).2.Sublist es := by
  induction es with
  | nil => exact .slnil
  | cons e es ih =>
    simp only [take]
    split
    · exact List.sublist_cons_self _ _
    · exact ih.cons_cons _

theorem nodup_take {es : List (κ × ν)} (h : (es.map (·.1)).Nodup) (k : κ) :
    ((take es k).2.map (·.1)).Nodup :=
  h.sublist ((take_sublist es k).map _)

end Formula.Assoc
