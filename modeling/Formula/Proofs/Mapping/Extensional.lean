import Formula.Proofs.Mapping.WellKeyed
import Formula.Proofs.Value.Alike
/-!
# Mappings through their lookups

What a mapping finds after a merge or after removals is known key by key, and mappings that find the
same are equal, in whatever order they list their entries. So merging and removing respect equality.

Results:
* `get?_merge`, `get?_eraseAll`: lookups after all the writing and removing.
* `alike_get?`, `alike_of_get?`: equality of mappings is equality of what they find.
* `alike_merge`, `alike_eraseAll`: equal mappings and keys, equal results.
-/
namespace Formula.Mapping

open Assoc (Distinct)
open Value (Alike coherent_wellKeyed wellKeyed_mapping defined_mapping)

variable {m m' n n' : Mapping} {k k' v : Value}

/-! ## Lookups -/

theorem get?_insert (hm : (Value.mapping m).WellKeyed) (hk : k.WellKeyed) (hk' : k'.WellKeyed)
    (v : Value) : get? (insert m k v) k' = if k' == k then some v else get? m k' := by
  have hkeys : ∀ e ∈ m, e.1.WellKeyed := wellKeyed_keys hm
  exact Assoc.get?_put coherent_wellKeyed hkeys hk hk' v

theorem get?_erase (hm : (Value.mapping m).WellKeyed) (hk : k.WellKeyed) (hk' : k'.WellKeyed) :
    get? (erase m k) k' = if k' == k then none else get? m k' := by
  obtain ⟨hd, hes⟩ := (wellKeyed_mapping m).1 hm
  exact Assoc.get?_take coherent_wellKeyed hd (fun e he => (hes e he).1) hk hk'

theorem get?_merge (hm : (Value.mapping m).WellKeyed) (hn : (Value.mapping n).WellKeyed)
    (hk : k.WellKeyed) : get? (merge m n) k = (get? n k).or (get? m k) := by
  unfold merge
  induction n generalizing m with
  | nil => rfl
  | cons e n ih =>
    obtain ⟨hd, hes⟩ := (wellKeyed_mapping (e :: n)).1 hn
    obtain ⟨he, hd⟩ := List.pairwise_cons.1 hd
    rw [List.forall_mem_cons] at hes
    have hn : (Value.mapping n).WellKeyed := (wellKeyed_mapping n).2 ⟨hd, hes.2⟩
    have hcons : get? (e :: n) k = if e.1 == k then some e.2 else get? n k := Assoc.get?_cons e n k
    rw [List.foldl_cons, ih (wellKeyed_insert hm hes.1.1 hes.1.2) hn, get?_insert hm hes.1.1 hk,
      hcons, coherent_wellKeyed.comm hk hes.1.1]
    by_cases hek : (e.1 == k) = true
    · -- The key of `e` comes only once, so the rest of `n` does not override it.
      have hnone : get? n k = none := by
        refine (Assoc.get?_eq_none_iff n k).2 ?_
        intro f hf
        rw [← coherent_wellKeyed.beq_congr hes.1.1 hk (hes.2 f hf).1 hek]
        exact (he f hf).2
      rw [if_pos hek, if_pos hek, hnone]
      rfl
    · rw [if_neg hek, if_neg hek]

theorem get?_eraseAll (hm : (Value.mapping m).WellKeyed) {keys : List Value}
    (hkeys : ∀ x ∈ keys, x.WellKeyed) (hk : k.WellKeyed) :
    get? (eraseAll m keys) k = if keys.any (· == k) then none else get? m k := by
  unfold eraseAll
  induction keys generalizing m with
  | nil => rfl
  | cons x keys ih =>
    rw [List.forall_mem_cons] at hkeys
    rw [List.foldl_cons, ih (wellKeyed_erase hm x) hkeys.2, get?_erase hm hkeys.1 hk, List.any_cons,
      coherent_wellKeyed.comm hk hkeys.1]
    cases x == k <;> cases keys.any (· == k) <;> rfl

/-! ## Keys that come from somewhere -/

theorem eraseAll_sublist (m : Mapping) (keys : List Value) : (eraseAll m keys).Sublist m := by
  unfold eraseAll
  induction keys generalizing m with
  | nil => exact .refl m
  | cons x keys ih => exact (ih (erase m x)).trans (Assoc.take_sublist m x)

section Keys

variable {p : Value → Prop}

theorem keys_insert (hm : ∀ e ∈ m, p e.1) (hk : p k) (v : Value) : ∀ e ∈ insert m k v, p e.1 := by
  intro e he
  rcases Assoc.mem_put he with he | ⟨-, hek | ⟨f, hf, hfe⟩⟩
  · exact hm e he
  · exact hek ▸ hk
  · exact hfe ▸ hm f hf

theorem keys_merge (hm : ∀ e ∈ m, p e.1) (hn : ∀ e ∈ n, p e.1) : ∀ e ∈ merge m n, p e.1 := by
  unfold merge
  induction n generalizing m with
  | nil => exact hm
  | cons e n ih =>
    rw [List.forall_mem_cons] at hn
    exact ih (keys_insert hm hn.1 e.2) hn.2

end Keys

theorem defined_keys (h : Alike (.mapping m) (.mapping n)) : ∀ e ∈ m, e.1.Defined := by
  intro e he
  exact ((defined_mapping m).1 h.defined e he).1

/-! ## Equality -/

theorem exists_get?_of_alike (h : Alike (.mapping m) (.mapping n)) (hk : k.WellKeyed)
    (hv : get? m k = some v) : ∃ w, get? n k = some w ∧ Alike v w := by
  obtain ⟨hdm, hm⟩ := (wellKeyed_mapping m).1 h.left
  obtain ⟨hdn, hn⟩ := (wellKeyed_mapping n).1 h.right
  have hcovers := ((Value.beq_mapping_iff coherent_wellKeyed (fun e he => (hm e he).1)
    (fun f hf => (hn f hf).1) hdn).1 h.equal).2
  obtain ⟨e, he, hek, rfl⟩ := Assoc.mem_of_get? hv
  obtain ⟨f, hf, hfe, hvalue⟩ := hcovers e he
  have hfk : (f.1 == k) = true :=
    coherent_wellKeyed.trans (hn f hf).1 (hm e he).1 hk hfe hek
  have hfound : get? n k = some f.2 :=
    (Assoc.get?_eq_some_iff coherent_wellKeyed hdn (fun f hf => (hn f hf).1) hk f.2).2
      ⟨f, hf, hfk, rfl⟩
  have hfe : Alike f.2 e.2 := ⟨(hn f hf).2, (hm e he).2, hvalue⟩
  exact ⟨f.2, hfound, hfe.symm⟩

/-- Equal mappings find equal values under one key. -/
theorem rel_get?_of_alike (h : Alike (.mapping m) (.mapping n)) (hk : k.WellKeyed) :
    Option.Rel Alike (get? m k) (get? n k) := by
  cases hm : get? m k with
  | some v =>
    obtain ⟨w, hw, hvw⟩ := exists_get?_of_alike h hk hm
    rw [hw]
    exact .some hvw
  | none =>
    cases hn : get? n k with
    | none => exact .none
    | some w =>
      obtain ⟨v, hv, -⟩ := exists_get?_of_alike h.symm hk hn
      rw [hm] at hv
      cases hv

theorem alike_get? (h : Alike (.mapping m) (.mapping n)) (hk : Alike k k') :
    Option.Rel Alike (get? m k) (get? n k') := by
  have hkeys : ∀ e ∈ n, e.1.WellKeyed := fun e he => (((wellKeyed_mapping n).1 h.right).2 e he).1
  have hcongr : get? n k = get? n k' :=
    Assoc.get?_congr coherent_wellKeyed hkeys hk.left hk.right hk.equal
  exact hcongr ▸ rel_get?_of_alike h hk.left

/-- Each entry is found under its key, when nothing undefined is in the key. -/
theorem covers_of_get? (hm : (Value.mapping m).WellKeyed) (hdm : ∀ e ∈ m, e.1.Defined)
    (h : ∀ k, k.WellKeyed → Option.Rel Alike (get? m k) (get? n k)) : Value.Covers m n := by
  obtain ⟨hd, hes⟩ := (wellKeyed_mapping m).1 hm
  intro e he
  have hself : (e.1 == e.1) = true := (Value.beq_self_iff_defined (hes e he).1).2 (hdm e he)
  have hfound : get? m e.1 = some e.2 :=
    (Assoc.get?_eq_some_iff coherent_wellKeyed hd (fun f hf => (hes f hf).1) (hes e he).1 e.2).2
      ⟨e, he, hself, rfl⟩
  have hrel := h e.1 (hes e he).1
  rw [hfound] at hrel
  cases hw : get? n e.1 with
  | none =>
    rw [hw] at hrel
    cases hrel
  | some w =>
    rw [hw] at hrel
    obtain ⟨f, hf, hkey, rfl⟩ := Assoc.mem_of_get? hw
    cases hrel with
    | some hvw => exact ⟨f, hf, hkey, hvw.symm.equal⟩

theorem rel_symm {v? w? : Option Value} (h : Option.Rel Alike v? w?) : Option.Rel Alike w? v? := by
  cases h with
  | some h => exact .some h.symm
  | none => exact .none

theorem rel_or {v? w? v'? w'? : Option Value} (h : Option.Rel Alike v? w?)
    (h' : Option.Rel Alike v'? w'?) : Option.Rel Alike (v?.or v'?) (w?.or w'?) := by
  cases h with
  | some h => exact .some h
  | none => exact h'

/-- Mappings that find equal values under all keys are equal. -/
theorem alike_of_get? (hm : (Value.mapping m).WellKeyed) (hn : (Value.mapping n).WellKeyed)
    (hdm : ∀ e ∈ m, e.1.Defined) (hdn : ∀ e ∈ n, e.1.Defined)
    (h : ∀ k, k.WellKeyed → Option.Rel Alike (get? m k) (get? n k)) :
    Alike (.mapping m) (.mapping n) := by
  obtain ⟨hd, hes⟩ := (wellKeyed_mapping m).1 hm
  obtain ⟨hd', hfs⟩ := (wellKeyed_mapping n).1 hn
  have hkm : ∀ e ∈ m, e.1.WellKeyed := fun e he => (hes e he).1
  have hkn : ∀ f ∈ n, f.1.WellKeyed := fun f hf => (hfs f hf).1
  have hcovers := covers_of_get? hm hdm h
  have hback := covers_of_get? hn hdn fun k hk => rel_symm (h k hk)
  refine ⟨hm, hn, (Value.beq_mapping_iff coherent_wellKeyed hkm hkn hd').2 ⟨?_, hcovers⟩⟩
  exact Nat.le_antisymm (hcovers.length_le coherent_wellKeyed hkm hkn hd)
    (hback.length_le coherent_wellKeyed hkn hkm hd')

/-! ## Merging and removing -/

theorem alike_merge (hm : Alike (.mapping m) (.mapping m')) (hn : Alike (.mapping n) (.mapping n')) :
    Alike (.mapping (merge m n)) (.mapping (merge m' n')) := by
  have hleft := wellKeyed_merge hm.left ((wellKeyed_mapping n).1 hn.left).2
  have hright := wellKeyed_merge hm.right ((wellKeyed_mapping n').1 hn.right).2
  refine alike_of_get? hleft hright (keys_merge (defined_keys hm) (defined_keys hn))
    (keys_merge (defined_keys hm.symm) (defined_keys hn.symm)) ?_
  intro k hk
  rw [get?_merge hm.left hn.left hk, get?_merge hm.right hn.right hk]
  exact rel_or (rel_get?_of_alike hn hk) (rel_get?_of_alike hm hk)

theorem alike_eraseAll (hm : Alike (.mapping m) (.mapping n)) {keys keys' : List Value}
    (hkeys : List.Forall₂ Alike keys keys') :
    Alike (.mapping (eraseAll m keys)) (.mapping (eraseAll n keys')) := by
  have hwell := Value.alike_sequence.2 hkeys
  refine alike_of_get? (wellKeyed_eraseAll hm.left keys) (wellKeyed_eraseAll hm.right keys') ?_ ?_ ?_
  · intro e he
    exact defined_keys hm e ((eraseAll_sublist m keys).subset he)
  · intro e he
    exact defined_keys hm.symm e ((eraseAll_sublist n keys').subset he)
  · intro k hk
    have hrel := rel_get?_of_alike hm hk
    rw [get?_eraseAll hm.left ((Value.wellKeyed_sequence keys).1 hwell.left) hk,
      get?_eraseAll hm.right ((Value.wellKeyed_sequence keys').1 hwell.right) hk]
    cases hv : get? m k with
    | none =>
      cases hw : get? n k with
      | none => simp only [ite_self]; exact .none
      | some w =>
        rw [hv, hw] at hrel
        cases hrel
    | some v =>
      -- A key that is found has nothing undefined in it, so both lists of keys say the same of it.
      have hdk : k.Defined := by
        obtain ⟨e, he, hek, -⟩ := Assoc.mem_of_get? hv
        exact (Value.defined_of_beq (((wellKeyed_mapping m).1 hm.left).2 e he).1 hk hek).2
      rw [Value.any_beq_congr hkeys (Value.alike_self hk hdk), ← hv]
      split
      · exact .none
      · exact hrel

end Formula.Mapping
