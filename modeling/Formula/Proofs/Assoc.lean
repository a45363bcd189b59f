import Formula.Assoc
import Mathlib.Data.List.Find
import Mathlib.Data.List.Nodup
import Mathlib.Data.List.Pairwise
/-!
# Association lists whose keys are equal in a weak sense

`==` of keys need not be equality, and a key need not equal itself. All that is asked for is that `==`
is symmetric and transitive among the keys at hand (`Coherent`) and that no two entries have equal
keys (`Distinct`). Then the first match is the only one, and `put` and `take` work on one slot.

Results:
* `exists_last`: the last item with a property.
* `get?_eq_some_iff`: the entries found are those with an equal key.
* `put_of_some`, `put_of_none`, `take_of_some`, `take_of_none`: what becomes of the list.
* `get?_put`, `get?_take`: what becomes of the entry under any key.
* `distinct_put`, `distinct_take`: keys stay distinct.
* `get?_put_of_lawful`, `get?_take_of_lawful`, `get?_of_mem`, `get?_perm`: the case of keys that are
  equal only when they are the same.
-/
namespace Formula.Assoc

/-- The last item with a property splits the list. -/
theorem exists_last {α : Type} {p : α → Prop} {xs : List α} (h : ∃ x ∈ xs, p x) :
    ∃ before x after, xs = before ++ x :: after ∧ p x ∧ ∀ y ∈ after, ¬ p y := by
  induction xs with
  | nil => simp at h
  | cons x xs ih =>
    by_cases hrest : ∃ y ∈ xs, p y
    · obtain ⟨before, y, after, rfl, hy, hafter⟩ := ih hrest
      exact ⟨x :: before, y, after, rfl, hy, hafter⟩
    · obtain ⟨y, hy, hpy⟩ := h
      rcases List.mem_cons.1 hy with rfl | hy
      · exact ⟨[], y, xs, rfl, hpy, fun z hz hpz => hrest ⟨z, hz, hpz⟩⟩
      · exact absurd ⟨y, hy, hpy⟩ hrest

variable {κ ν : Type} [BEq κ]

/-- `==` is symmetric and transitive among the keys with `P`. -/
structure Coherent (P : κ → Prop) : Prop where
  symm : ∀ {a b : κ}, P a → P b → (a == b) = true → (b == a) = true
  trans : ∀ {a b c : κ}, P a → P b → P c → (a == b) = true → (b == c) = true → (a == c) = true

/-- No two entries have equal keys, whichever comes first. -/
def Distinct (es : List (κ × ν)) : Prop :=
  es.Pairwise fun e f => (e.1 == f.1) = false ∧ (f.1 == e.1) = false

/-! ## Entries found -/

theorem get?_eq_none_iff (es : List (κ × ν)) (k : κ) :
    get? es k = none ↔ ∀ e ∈ es, (e.1 == k) = false := by
  simp [get?]

/-- The first match splits the list. -/
theorem exists_split_of_get? {es : List (κ × ν)} {k : κ} {v : ν} (h : get? es k = some v) :
    ∃ pre key post, es = pre ++ (key, v) :: post ∧ (key == k) = true ∧
      ∀ e ∈ pre, (e.1 == k) = false := by
  unfold get? at h
  rw [Option.map_eq_some_iff] at h
  obtain ⟨⟨key, w⟩, hf, rfl⟩ := h
  rw [List.find?_eq_some_iff_append] at hf
  obtain ⟨hk, pre, post, rfl, hpre⟩ := hf
  exact ⟨pre, key, post, rfl, hk, by simpa using hpre⟩

theorem get?_cons (e : κ × ν) (es : List (κ × ν)) (k : κ) :
    get? (e :: es) k = if e.1 == k then some e.2 else get? es k := by
  unfold get?
  rw [List.find?_cons]
  cases e.1 == k <;> rfl

theorem get?_append (es fs : List (κ × ν)) (k : κ) :
    get? (es ++ fs) k = (get? es k).or (get? fs k) := by
  unfold get?
  rw [List.find?_append, Option.map_or]

theorem isSome_get? (es : List (κ × ν)) (k : κ) :
    (get? es k).isSome = es.any fun e => e.1 == k := by
  induction es with
  | nil => rfl
  | cons e es ih =>
    rw [get?_cons, List.any_cons, ← ih]
    cases e.1 == k <;> rfl

theorem mem_of_get? {es : List (κ × ν)} {k : κ} {v : ν} (h : get? es k = some v) :
    ∃ e ∈ es, (e.1 == k) = true ∧ e.2 = v := by
  obtain ⟨pre, key, post, rfl, hk, -⟩ := exists_split_of_get? h
  exact ⟨(key, v), by simp, hk, rfl⟩

section Coherent

variable {P : κ → Prop} {es : List (κ × ν)}

theorem Coherent.comm (hP : Coherent P) {a b : κ} (ha : P a) (hb : P b) : (a == b) = (b == a) :=
  Bool.eq_iff_iff.2 ⟨hP.symm ha hb, hP.symm hb ha⟩

/-- Where one key equals `a`, the keys equal to `a` are those equal to it. -/
theorem Coherent.beq_congr (hP : Coherent P) {a b c : κ} (ha : P a) (hb : P b) (hc : P c)
    (h : (a == b) = true) : (c == a) = (c == b) :=
  Bool.eq_iff_iff.2
    ⟨fun hca => hP.trans hc ha hb hca h, fun hcb => hP.trans hc hb ha hcb (hP.symm ha hb h)⟩

/-- Two keys that some key equals are equal. -/
theorem Coherent.beq_of_common (hP : Coherent P) {a b c : κ} (ha : P a) (hb : P b) (hc : P c)
    (hac : (a == c) = true) (hbc : (b == c) = true) : (a == b) = true :=
  hP.trans ha hc hb hac (hP.symm hb hc hbc)

/-- Entries with equal keys are one entry. -/
theorem Distinct.eq_of_beq (hd : Distinct es) {e f : κ × ν} (he : e ∈ es) (hf : f ∈ es)
    (h : (e.1 == f.1) = true) : e = f := by
  by_contra hne
  have hsymm : Std.Symm fun e f : κ × ν => (e.1 == f.1) = false ∧ (f.1 == e.1) = false :=
    ⟨fun _ _ h => ⟨h.2, h.1⟩⟩
  have := (hd.forall he hf hne).1
  rw [h] at this
  cases this

/-- Among distinct keys every match is the first. -/
theorem get?_eq_some_iff (hP : Coherent P) (hd : Distinct es) (hes : ∀ e ∈ es, P e.1) {k : κ}
    (hk : P k) (v : ν) : get? es k = some v ↔ ∃ e ∈ es, (e.1 == k) = true ∧ e.2 = v := by
  refine ⟨mem_of_get?, ?_⟩
  rintro ⟨e, he, hek, rfl⟩
  cases hg : get? es k with
  | none =>
    have := (get?_eq_none_iff es k).1 hg e he
    rw [hek] at this; cases this
  | some w =>
    obtain ⟨f, hf, hfk, rfl⟩ := mem_of_get? hg
    have hfe := hP.beq_of_common (hes f hf) (hes e he) hk hfk hek
    rw [hd.eq_of_beq hf he hfe]

theorem get?_congr (hP : Coherent P) (hes : ∀ e ∈ es, P e.1) {k k' : κ} (hk : P k) (hk' : P k')
    (h : (k == k') = true) : get? es k = get? es k' := by
  unfold get?
  rw [List.find?_congr fun e he => hP.beq_congr hk hk' (hes e he) h]

end Coherent

/-! ## What becomes of the list -/

section Lists

variable {es : List (κ × ν)} {k : κ}

theorem put_append {pre : List (κ × ν)} (hpre : ∀ e ∈ pre, (e.1 == k) = false)
    (es : List (κ × ν)) (v : ν) : put (pre ++ es) k v = ((put es k v).1, pre ++ (put es k v).2) := by
  induction pre with
  | nil => rfl
  | cons e pre ih =>
    have he := hpre e (by simp)
    have ih := ih fun f hf => hpre f (List.mem_cons_of_mem _ hf)
    simp [put, he, ih]

theorem take_append {pre : List (κ × ν)} (hpre : ∀ e ∈ pre, (e.1 == k) = false)
    (es : List (κ × ν)) : take (pre ++ es) k = ((take es k).1, pre ++ (take es k).2) := by
  induction pre with
  | nil => rfl
  | cons e pre ih =>
    have he := hpre e (by simp)
    have ih := ih fun f hf => hpre f (List.mem_cons_of_mem _ hf)
    simp [take, he, ih]

/-- A key that is not there goes last. -/
theorem put_of_none (h : get? es k = none) (v : ν) : put es k v = (none, es ++ [(k, v)]) := by
  have := put_append ((get?_eq_none_iff es k).1 h) [] v
  rwa [List.append_nil] at this

/-- A key that is there keeps its slot, and the slot its key. -/
theorem put_of_some {old : ν} (h : get? es k = some old) (v : ν) :
    ∃ pre key post, es = pre ++ (key, old) :: post ∧ (key == k) = true ∧
      (∀ e ∈ pre, (e.1 == k) = false) ∧ put es k v = (some old, pre ++ (key, v) :: post) := by
  obtain ⟨pre, key, post, rfl, hk, hpre⟩ := exists_split_of_get? h
  refine ⟨pre, key, post, rfl, hk, hpre, ?_⟩
  rw [put_append hpre]
  simp [put, hk]

theorem take_of_none (h : get? es k = none) : take es k = (none, es) := by
  have := take_append ((get?_eq_none_iff es k).1 h) []
  simpa [take] using this

theorem take_of_some {old : ν} (h : get? es k = some old) :
    ∃ pre key post, es = pre ++ (key, old) :: post ∧ (key == k) = true ∧
      (∀ e ∈ pre, (e.1 == k) = false) ∧ take es k = (some old, pre ++ post) := by
  obtain ⟨pre, key, post, rfl, hk, hpre⟩ := exists_split_of_get? h
  refine ⟨pre, key, post, rfl, hk, hpre, ?_⟩
  rw [take_append hpre]
  simp [take, hk]

/-- Every entry after `put` has a key that was there or the new one, and a value that was there or the
new one. -/
theorem mem_put {v : ν} {e : κ × ν} (h : e ∈ (put es k v).2) :
    e ∈ es ∨ e.2 = v ∧ (e.1 = k ∨ ∃ f ∈ es, f.1 = e.1) := by
  cases hg : get? es k with
  | none =>
    rw [put_of_none hg, List.mem_append, List.mem_singleton] at h
    rcases h with h | rfl
    · exact .inl h
    · exact .inr ⟨rfl, .inl rfl⟩
  | some old =>
    obtain ⟨pre, key, post, rfl, -, -, hput⟩ := put_of_some hg v
    rw [hput, List.mem_append, List.mem_cons] at h
    rcases h with h | rfl | h
    · exact .inl (by simp [h])
    · exact .inr ⟨rfl, .inr ⟨(key, old), by simp, rfl⟩⟩
    · exact .inl (by simp [h])

end Lists

/-! ## What becomes of lookups -/

section Lookups

variable {P : κ → Prop} {es : List (κ × ν)} {k k' : κ}

theorem get?_put (hP : Coherent P) (hes : ∀ e ∈ es, P e.1) (hk : P k) (hk' : P k') (v : ν) :
    get? (put es k v).2 k' = if k' == k then some v else get? es k' := by
  cases hg : get? es k with
  | none =>
    rw [put_of_none hg, get?_append, get?_cons, hP.comm hk hk']
    by_cases h : (k' == k) = true
    · rw [get?_congr hP hes hk' hk h, hg, if_pos h, if_pos h]
      rfl
    · rw [if_neg h, if_neg h]
      simp [get?]
  | some old =>
    obtain ⟨pre, key, post, rfl, hkey, hpre, hput⟩ := put_of_some hg v
    have hPkey : P key := hes (key, old) (by simp)
    have hPpre : ∀ e ∈ pre, P e.1 := fun e he => hes e (by simp [he])
    -- The slot answers to `k'` exactly when `k'` equals `k`.
    rw [hput, get?_append, get?_append, get?_cons, get?_cons, hP.comm hPkey hk',
      hP.beq_congr hPkey hk hk' hkey]
    by_cases h : (k' == k) = true
    · rw [get?_congr hP hPpre hk' hk h, (get?_eq_none_iff pre k).2 hpre, if_pos h, if_pos h]
      rfl
    · rw [if_neg h, if_neg h, if_neg h]

theorem get?_take (hP : Coherent P) (hd : Distinct es) (hes : ∀ e ∈ es, P e.1) (hk : P k)
    (hk' : P k') : get? (take es k).2 k' = if k' == k then none else get? es k' := by
  cases hg : get? es k with
  | none =>
    rw [take_of_none hg]
    split
    · next h => rw [get?_congr hP hes hk' hk h, hg]
    · rfl
  | some old =>
    obtain ⟨pre, key, post, rfl, hkey, hpre, htake⟩ := take_of_some hg
    have hPkey : P key := hes (key, old) (by simp)
    have hPpre : ∀ e ∈ pre, P e.1 := fun e he => hes e (by simp [he])
    rw [htake, get?_append, get?_append, get?_cons, hP.comm hPkey hk',
      hP.beq_congr hPkey hk hk' hkey]
    by_cases h : (k' == k) = true
    · -- No entry after the slot has its key, so none has a key equal to `k'`.
      have hpost : get? post k' = none := by
        rw [get?_eq_none_iff]
        intro e he
        have hPe : P e.1 := hes e (by simp [he])
        have hslot := (List.pairwise_cons.1 (List.pairwise_append.1 hd).2.1).1 e he
        rw [hP.beq_congr hk' hk hPe h, ← hP.beq_congr hPkey hk hPe hkey]
        exact hslot.2
      rw [get?_congr hP hPpre hk' hk h, (get?_eq_none_iff pre k).2 hpre, hpost, if_pos h]
      rfl
    · rw [if_neg h, if_neg h]

end Lookups

/-! ## Keys that are equal only when they are the same -/

section Lawful

variable [LawfulBEq κ] {es : List (κ × ν)}

theorem coherent_of_lawful : Coherent fun _ : κ => True where
  symm _ _ h := by rwa [beq_iff_eq, eq_comm, ← beq_iff_eq]
  trans _ _ _ h h' := by
    rw [beq_iff_eq] at *
    exact h.trans h'

theorem get?_put_of_lawful (es : List (κ × ν)) (k k' : κ) (v : ν) [DecidableEq κ] :
    get? (put es k v).2 k' = if k' = k then some v else get? es k' := by
  rw [get?_put coherent_of_lawful (fun _ _ => trivial) trivial trivial]
  simp only [beq_iff_eq]

/-- When no key comes twice, every entry is found under its key. -/
theorem get?_of_mem (hd : (es.map (·.1)).Nodup) {e : κ × ν} (he : e ∈ es) :
    get? es e.1 = some e.2 := by
  cases hg : get? es e.1 with
  | none =>
    have hne := (get?_eq_none_iff es e.1).1 hg e he
    rw [beq_self_eq_true] at hne
    cases hne
  | some v =>
    have heq : (e.1, v) = e :=
      List.inj_on_of_nodup_map hd (mem_of_get?_eq_some hg) he rfl
    rw [← heq]

theorem get?_eq_some_iff_mem (hd : (es.map (·.1)).Nodup) {k : κ} {v : ν} :
    get? es k = some v ↔ (k, v) ∈ es :=
  ⟨mem_of_get?_eq_some, fun h => get?_of_mem hd h⟩

/-- The order of the entries does not matter then. -/
theorem get?_perm {fs : List (κ × ν)} (h : es.Perm fs) (hd : (es.map (·.1)).Nodup) (k : κ) :
    get? es k = get? fs k := by
  have hd' : (fs.map (·.1)).Nodup := (h.map _).nodup_iff.1 hd
  refine Option.ext fun v => ?_
  rw [get?_eq_some_iff_mem hd, get?_eq_some_iff_mem hd', h.mem_iff]

theorem distinct_of_nodup (hd : (es.map (·.1)).Nodup) : Distinct es := by
  refine (List.pairwise_map.1 hd).imp ?_
  intro e f hef
  exact ⟨beq_eq_false_iff_ne.2 hef, beq_eq_false_iff_ne.2 hef.symm⟩

theorem get?_take_of_lawful (hd : (es.map (·.1)).Nodup) (k k' : κ) [DecidableEq κ] :
    get? (take es k).2 k' = if k' = k then none else get? es k' := by
  rw [get?_take coherent_of_lawful (distinct_of_nodup hd) (fun _ _ => trivial) trivial trivial]
  simp only [beq_iff_eq]

end Lawful

/-! ## Keys stay distinct -/

section Distinct

variable {P : κ → Prop} {es : List (κ × ν)}

theorem distinct_nil : Distinct ([] : List (κ × ν)) := .nil

theorem Distinct.sublist {fs : List (κ × ν)} (h : Distinct es) (hs : fs.Sublist es) : Distinct fs :=
  List.Pairwise.sublist hs h

theorem distinct_take (h : Distinct es) (k : κ) : Distinct (take es k).2 :=
  h.sublist (take_sublist es k)

theorem distinct_append_singleton (h : Distinct es) {k : κ} (v : ν)
    (hk : ∀ e ∈ es, (e.1 == k) = false ∧ (k == e.1) = false) : Distinct (es ++ [(k, v)]) := by
  refine List.pairwise_append.2 ⟨h, List.pairwise_singleton _ _, ?_⟩
  intro e he f hf
  rw [List.mem_singleton] at hf
  exact hf ▸ hk e he

/-- Distinctness is a matter of the keys alone. -/
theorem distinct_iff_map : Distinct es ↔
    (es.map (·.1)).Pairwise fun a b => (a == b) = false ∧ (b == a) = false := by
  rw [List.pairwise_map]
  rfl

theorem distinct_put (hP : Coherent P) (hd : Distinct es) (hes : ∀ e ∈ es, P e.1) {k : κ}
    (hk : P k) (v : ν) : Distinct (put es k v).2 := by
  cases hg : get? es k with
  | none =>
    rw [put_of_none hg]
    refine distinct_append_singleton hd v fun e he => ?_
    have hek := (get?_eq_none_iff es k).1 hg e he
    exact ⟨hek, hP.comm (hes e he) hk ▸ hek⟩
  | some old =>
    obtain ⟨pre, key, post, rfl, -, -, hput⟩ := put_of_some hg v
    rw [hput]
    rw [distinct_iff_map] at hd ⊢
    simpa using hd

end Distinct

end Formula.Assoc
