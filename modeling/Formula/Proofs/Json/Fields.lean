import Formula.Json
import Formula.Proofs.Assoc
import Formula.Proofs.Text.Utf8
import Mathlib.Data.List.Induction
/-!
# Fields in order

The fields of an object come in the order of their names, and no name comes twice. An insertion keeps
them so, and what a field holds after a number of insertions is what was inserted last under its name.

Results:
* `ordered_insert`, `ordered_ofList`: fields inserted one after the other are in order.
* `ofList_eq_self`: fields that are in order stay as they are.
* `perm_ofList`: fields with different names only change places.
* `ofList_map`: the names alone decide about the places.
* `get?_ofList`, `get?_map`, `rel_get?`: what the fields hold under a name.
* `mem_ofList_iff`: which fields are left.
* `Ordered.ext`: fields in order are known by what they hold.
-/
namespace Formula.Fields

variable {α β : Type} {fs : List (String × α)} {name : String} {value : α}

/-- The fields are ordered by the bytes of their names, and no name comes twice. -/
def Ordered (fs : List (String × α)) : Prop :=
  fs.Pairwise fun f g => Utf8.bytes f.1 < Utf8.bytes g.1

theorem ordered_iff : Ordered fs ↔ fs.Pairwise fun f g => f.1 < g.1 := by
  simp only [Ordered, Utf8.lt_iff_bytes_lt]

/-- Only the names matter. -/
theorem Ordered.of_names {gs : List (String × β)} (h : Ordered fs)
    (hnames : gs.map (·.1) = fs.map (·.1)) : Ordered gs := by
  have hfs : (fs.map (·.1)).Pairwise fun s t => Utf8.bytes s < Utf8.bytes t :=
    List.pairwise_map.2 h
  rw [← hnames, List.pairwise_map] at hfs
  exact hfs

theorem Ordered.nodup (h : Ordered fs) : (fs.map (·.1)).Nodup := by
  rw [ordered_iff] at h
  refine List.pairwise_map.2 (h.imp ?_)
  intro f g hlt heq
  exact String.lt_irrefl _ (heq ▸ hlt)

theorem Ordered.sublist {gs : List (String × α)} (h : Ordered fs) (hs : gs.Sublist fs) : Ordered gs :=
  List.Pairwise.sublist hs h

theorem Ordered.map (h : Ordered fs) (f : α → β) : Ordered (fs.map fun g => (g.1, f g.2)) :=
  h.of_names (by rw [List.map_map]; rfl)

/-! ## One insertion -/

theorem ordered_insert (h : Ordered fs) : Ordered (insert name value fs) := by
  rw [ordered_iff] at h ⊢
  induction fs with
  | nil => exact List.pairwise_singleton _ _
  | cons f fs ih =>
    obtain ⟨hf, hfs⟩ := List.pairwise_cons.1 h
    rw [insert]
    split
    · next heq =>
      subst heq
      exact List.pairwise_cons.2 ⟨hf, hfs⟩
    · next hne =>
      split
      · next hlt =>
        refine List.pairwise_cons.2 ⟨?_, h⟩
        intro g hg
        rcases List.mem_cons.1 hg with rfl | hg
        · exact hlt
        · exact String.lt_trans hlt (hf g hg)
      · next hnlt =>
        -- Neither the same name nor one before `f`, so the new one is after `f`.
        have hlt : f.1 < name := by
          by_contra hge
          exact hne (String.le_antisymm (String.not_lt.1 hge) (String.not_lt.1 hnlt))
        refine List.pairwise_cons.2 ⟨?_, ih hfs⟩
        intro g hg
        rcases mem_insert hg with rfl | hg
        · exact hlt
        · exact hf g hg

/-- A name after all others goes last. -/
theorem insert_eq_append (h : ∀ f ∈ fs, f.1 < name) : insert name value fs = fs ++ [(name, value)] := by
  induction fs with
  | nil => rfl
  | cons f fs ih =>
    rw [List.forall_mem_cons] at h
    have hne : name ≠ f.1 := fun heq => String.lt_irrefl _ (heq ▸ h.1)
    rw [insert, if_neg hne, if_neg (String.lt_asymm h.1), ih h.2]
    rfl

/-- A new name takes its place among the others. -/
theorem perm_insert (h : name ∉ fs.map (·.1)) : (insert name value fs).Perm ((name, value) :: fs) := by
  induction fs with
  | nil => exact .refl _
  | cons f fs ih =>
    rw [List.map_cons, List.mem_cons, not_or] at h
    rw [insert, if_neg h.1]
    split
    · exact .refl _
    · exact ((ih h.2).cons f).trans (.swap _ _ _)

theorem insert_map (f : α → β) : insert name (f value) (fs.map fun g => (g.1, f g.2)) =
    (insert name value fs).map fun g => (g.1, f g.2) := by
  induction fs with
  | nil => rfl
  | cons g fs ih =>
    simp only [List.map_cons, insert]
    split
    · rfl
    · split
      · rfl
      · rw [ih]
        rfl

/-! ## All insertions -/

theorem ofList_append_singleton (fs : List (String × α)) (f : String × α) :
    ofList (fs ++ [f]) = insert f.1 f.2 (ofList fs) := by
  rw [ofList, List.foldl_append]
  rfl

theorem ordered_ofList (fs : List (String × α)) : Ordered (ofList fs) := by
  induction fs using List.reverseRecOn with
  | nil => exact .nil
  | append_singleton fs f ih =>
    rw [ofList_append_singleton]
    exact ordered_insert ih

theorem mem_ofList {f : String × α} (h : f ∈ ofList fs) : f ∈ fs := by
  induction fs using List.reverseRecOn with
  | nil => exact h
  | append_singleton fs g ih =>
    rw [ofList_append_singleton] at h
    rcases mem_insert h with rfl | h
    · simp
    · exact List.mem_append_left _ (ih h)

theorem ofList_eq_self (h : Ordered fs) : ofList fs = fs := by
  rw [ordered_iff] at h
  induction fs using List.reverseRecOn with
  | nil => rfl
  | append_singleton fs f ih =>
    obtain ⟨hfs, -, hf⟩ := List.pairwise_append.1 h
    rw [ofList_append_singleton, ih hfs, insert_eq_append]
    intro g hg
    exact hf g hg f (by simp)

theorem perm_ofList (h : (fs.map (·.1)).Nodup) : (ofList fs).Perm fs := by
  induction fs using List.reverseRecOn with
  | nil => exact .refl _
  | append_singleton fs f ih =>
    rw [List.map_append, List.nodup_append] at h
    have hperm := ih h.1
    rw [ofList_append_singleton]
    refine (perm_insert ?_).trans ((hperm.cons f).trans (List.perm_append_singleton f fs).symm)
    rw [(hperm.map (·.1)).mem_iff]
    intro hmem
    exact h.2.2 _ hmem _ (by simp) rfl

theorem ofList_map (f : α → β) :
    ofList (fs.map fun g => (g.1, f g.2)) = (ofList fs).map fun g => (g.1, f g.2) := by
  induction fs using List.reverseRecOn with
  | nil => rfl
  | append_singleton fs g ih =>
    rw [List.map_append, List.map_singleton, ofList_append_singleton, ofList_append_singleton, ih]
    exact insert_map f

/-! ## Lookups -/

theorem get?_insert (fs : List (String × α)) (name : String) (value : α) (n : String) :
    Assoc.get? (insert name value fs) n = if name == n then some value else Assoc.get? fs n := by
  induction fs with
  | nil => rw [insert, Assoc.get?_cons]
  | cons f fs ih =>
    rw [insert]
    split
    · next heq =>
      subst heq
      rw [Assoc.get?_cons, Assoc.get?_cons]
      cases f.1 == n <;> rfl
    split
    · rw [Assoc.get?_cons]
    · next hne _ =>
      rw [Assoc.get?_cons, Assoc.get?_cons, ih]
      by_cases hf : f.1 = n
      · subst hf
        simp [hne]
      · simp [hf]

/-- Of several fields with one name the last one counts. -/
theorem get?_ofList (fs : List (String × α)) (n : String) :
    Assoc.get? (ofList fs) n = Assoc.get? fs.reverse n := by
  induction fs using List.reverseRecOn with
  | nil => rfl
  | append_singleton fs f ih =>
    rw [ofList_append_singleton, get?_insert, ih, List.reverse_append, List.reverse_singleton,
      List.singleton_append, Assoc.get?_cons]

theorem mem_ofList_iff_get? {f : String × α} :
    f ∈ ofList fs ↔ Assoc.get? fs.reverse f.1 = some f.2 := by
  rw [← get?_ofList, Assoc.get?_eq_some_iff_mem (ordered_ofList fs).nodup]

theorem exists_mem_ofList_iff {n : String} :
    (∃ v, (n, v) ∈ ofList fs) ↔ ∃ f ∈ fs, f.1 = n := by
  simp only [mem_ofList_iff_get?]
  rw [← Option.isSome_iff_exists, Assoc.isSome_get?, List.any_reverse, List.any_eq_true]
  simp only [beq_iff_eq]

/-- What is left under a name comes last under it. -/
theorem mem_ofList_iff {f : String × α} : f ∈ ofList fs ↔
    ∃ before after, fs = before ++ f :: after ∧ ∀ g ∈ after, g.1 ≠ f.1 := by
  rw [mem_ofList_iff_get?]
  constructor
  · intro h
    obtain ⟨pre, key, post, hsplit, hkey, hpre⟩ := Assoc.exists_split_of_get? h
    obtain rfl : key = f.1 := by simpa using hkey
    refine ⟨post.reverse, pre.reverse, ?_, fun g hg => ?_⟩
    · rw [← List.reverse_reverse fs, hsplit]
      simp
    · exact beq_eq_false_iff_ne.1 (hpre g (List.mem_reverse.1 hg))
  · rintro ⟨before, after, rfl, hafter⟩
    have hnone : Assoc.get? after.reverse f.1 = none := by
      refine (Assoc.get?_eq_none_iff _ _).2 fun g hg => ?_
      exact beq_eq_false_iff_ne.2 (hafter g (List.mem_reverse.1 hg))
    rw [List.reverse_append, List.reverse_cons, List.append_assoc, Assoc.get?_append, hnone,
      Option.none_or, List.singleton_append, Assoc.get?_cons, if_pos (beq_self_eq_true f.1)]

/-- Fields with the same names, one by one, hold related values. -/
theorem rel_get? {R : α → β → Prop} {gs : List (String × β)}
    (h : List.Forall₂ (fun f g => f.1 = g.1 ∧ R f.2 g.2) fs gs) (name : String) :
    Option.Rel R (Assoc.get? fs name) (Assoc.get? gs name) := by
  induction h with
  | nil => exact .none
  | cons hfg _ ih =>
    rw [Assoc.get?_cons, Assoc.get?_cons, hfg.1]
    split
    · exact .some hfg.2
    · exact ih

theorem get?_map (f : α → β) (fs : List (String × α)) (name : String) :
    Assoc.get? (fs.map fun g => (g.1, f g.2)) name = (Assoc.get? fs name).map f := by
  induction fs with
  | nil => rfl
  | cons g fs ih =>
    rw [List.map_cons, Assoc.get?_cons, Assoc.get?_cons, ih]
    split <;> rfl

/-- Fields in order are known by what they hold. -/
theorem Ordered.ext {gs : List (String × α)} (hfs : Ordered fs) (hgs : Ordered gs)
    (h : ∀ name, Assoc.get? fs name = Assoc.get? gs name) : fs = gs := by
  have hmem : ∀ f, f ∈ fs ↔ f ∈ gs := by
    intro f
    rw [← Assoc.get?_eq_some_iff_mem hfs.nodup, ← Assoc.get?_eq_some_iff_mem hgs.nodup, h]
  have hperm : fs.Perm gs :=
    (List.perm_ext_iff_of_nodup (.of_map _ hfs.nodup) (.of_map _ hgs.nodup)).2 hmem
  rw [ordered_iff] at hfs hgs
  refine List.Perm.eq_of_pairwise ?_ hfs hgs hperm
  intro f g _ _ hlt hgt
  exact absurd hgt (String.lt_asymm hlt)

end Formula.Fields
