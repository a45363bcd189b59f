import Formula.Proofs.Mapping.Extensional
/-!
# Mappings entry by entry

What merging and removing make of the list of entries. A merge keeps the entries of the left mapping in
place, with the values that the right one has for their keys, and puts the entries with other keys
after them; removing keys is a filter. So merging is associative on the lists themselves, however equal
keys are spelled.

Results:
* `merge_eq`: the entries of a merge.
* `merge_assoc`: merging three mappings.
* `eraseAll_eq_filter`: the entries that removals leave.
* `eraseAll_merge`: removing the keys that were merged.
-/
namespace Formula.Assoc

variable {κ ν : Type} [BEq κ] {P : κ → Prop} {e : κ × ν} {es : List (κ × ν)} {k : κ}

/-- When the first key equals `k`, no other key does. -/
theorem Distinct.ne_of_head (hd : Distinct (e :: es)) (hP : Coherent P) (he : P e.1)
    (hes : ∀ f ∈ es, P f.1) (hk : P k) (hek : (e.1 == k) = true) : ∀ f ∈ es, (f.1 == k) = false := by
  intro f hf
  rw [← hP.beq_congr he hk (hes f hf) hek]
  exact ((List.pairwise_cons.1 hd).1 f hf).2

/-- Writing changes the value under the equal key, and adds an entry when there is none. -/
theorem put_snd_eq (hP : Coherent P) (hd : Distinct es) (hes : ∀ e ∈ es, P e.1) (hk : P k) (v : ν) :
    (put es k v).2 = (es.map fun e => (e.1, if e.1 == k then v else e.2)) ++
      if (get? es k).isNone then [(k, v)] else [] := by
  induction es with
  | nil => rfl
  | cons e es ih =>
    obtain ⟨he, hes⟩ := List.forall_mem_cons.1 hes
    rw [get?_cons]
    by_cases hek : (e.1 == k) = true
    · have hrest : (es.map fun f => (f.1, if f.1 == k then v else f.2)) = es := by
        refine (List.map_congr_left fun f hf => ?_).trans (List.map_id es)
        rw [hd.ne_of_head hP he hes hk hek f hf]
        rfl
      simp [put, hek, hrest]
    · simp [put, hek, ih (List.pairwise_cons.1 hd).2 hes]

/-- Removing a key leaves the entries whose keys do not equal it. -/
theorem take_eq_filter (hP : Coherent P) (hd : Distinct es) (hes : ∀ e ∈ es, P e.1) (hk : P k) :
    (take es k).2 = es.filter fun e => !(e.1 == k) := by
  induction es with
  | nil => rfl
  | cons e es ih =>
    obtain ⟨he, hes⟩ := List.forall_mem_cons.1 hes
    by_cases hek : (e.1 == k) = true
    · have hrest : ∀ f ∈ es, (!(f.1 == k)) = true := by
        intro f hf
        rw [hd.ne_of_head hP he hes hk hek f hf]
        rfl
      simp [take, hek, List.filter_eq_self.2 hrest]
    · simp [take, hek, ih (List.pairwise_cons.1 hd).2 hes]

end Formula.Assoc

namespace Formula.Mapping

open Assoc (Distinct)
open Value (coherent_wellKeyed wellKeyed_mapping)

variable {m n p : Mapping} {k v : Value}

/-! ## Merging -/

/-- The entry with the value that `n` has for its key, if it has one. -/
def overridden (n : Mapping) (e : Value × Value) : Value × Value := (e.1, (get? n e.1).getD e.2)

/-- The entries of `n` whose keys equal no key of `m`. -/
def added (m n : Mapping) : Mapping := n.filter fun e => !m.any fun f => f.1 == e.1

theorem added_eq_filter (m n : Mapping) : added m n = n.filter fun e => (get? m e.1).isNone := by
  refine List.filter_congr fun e _ => ?_
  rw [← Assoc.isSome_get?, ← Option.not_isSome]
  rfl

theorem added_append (m n p : Mapping) : added m (n ++ p) = added m n ++ added m p :=
  List.filter_append n p

theorem overridden_cons {e f : Value × Value} (hn : (Value.mapping (e :: n)).WellKeyed)
    (hf : f.1.WellKeyed) :
    overridden (e :: n) f = overridden n (f.1, if f.1 == e.1 then e.2 else f.2) := by
  obtain ⟨hd, hes⟩ := (wellKeyed_mapping (e :: n)).1 hn
  obtain ⟨he, hes⟩ := List.forall_mem_cons.1 hes
  have hcons : get? (e :: n) f.1 = if e.1 == f.1 then some e.2 else get? n f.1 :=
    Assoc.get?_cons e n f.1
  unfold overridden
  rw [hcons, coherent_wellKeyed.comm hf he.1]
  by_cases hef : (e.1 == f.1) = true
  · -- The key of `e` comes only once, so `n` has no value for it.
    have hnone : get? n f.1 = none :=
      (Assoc.get?_eq_none_iff n f.1).2
        (hd.ne_of_head coherent_wellKeyed he.1 (fun g hg => (hes g hg).1) hf hef)
    simp [hef, hnone]
  · simp [hef]

theorem overridden_eq_self {e : Value × Value} (h : get? n e.1 = none) : overridden n e = e := by
  rw [overridden, h]
  rfl

/-- **The entries of a merge.** Those of `m` stay in place with their keys, and those of `n` that have
other keys follow. -/
theorem merge_eq (hm : (Value.mapping m).WellKeyed) (hn : (Value.mapping n).WellKeyed) :
    merge m n = m.map (overridden n) ++ added m n := by
  induction n generalizing m with
  | nil =>
    have hself : m.map (overridden []) = m :=
      (List.map_congr_left fun _ _ => overridden_eq_self rfl).trans (List.map_id m)
    rw [hself]
    exact (List.append_nil m).symm
  | cons e n ih =>
    obtain ⟨hd, hes⟩ := (wellKeyed_mapping (e :: n)).1 hn
    obtain ⟨he, hes⟩ := List.forall_mem_cons.1 hes
    obtain ⟨hne, hd⟩ := List.pairwise_cons.1 hd
    obtain ⟨hdm, hem⟩ := (wellKeyed_mapping m).1 hm
    have hinsert : insert m e.1 e.2 = (m.map fun f => (f.1, if f.1 == e.1 then e.2 else f.2)) ++
        if (get? m e.1).isNone then [e] else [] :=
      Assoc.put_snd_eq coherent_wellKeyed hdm (fun f hf => (hem f hf).1) he.1 e.2
    -- Writing `e` makes no difference to which of the later keys are there, and they differ from `e`.
    have hadded : added (insert m e.1 e.2) n = added m n := by
      rw [added_eq_filter, added_eq_filter]
      refine List.filter_congr fun f hf => ?_
      rw [get?_insert hm he.1 (hes f hf).1, (hne f hf).2]
      rfl
    have hself : overridden n e = e :=
      overridden_eq_self ((Assoc.get?_eq_none_iff n e.1).2 fun f hf => (hne f hf).2)
    have hmap : m.map (overridden (e :: n)) =
        (m.map fun f => (f.1, if f.1 == e.1 then e.2 else f.2)).map (overridden n) := by
      rw [List.map_map]
      exact List.map_congr_left fun f hf => overridden_cons hn (hem f hf).1
    have hmerge : merge m (e :: n) = merge (insert m e.1 e.2) n := rfl
    rw [hmerge, ih (wellKeyed_insert hm he.1 he.2) ((wellKeyed_mapping n).2 ⟨hd, hes⟩), hadded,
      hinsert, hmap, List.map_append, List.append_assoc, added_eq_filter m (e :: n),
      List.filter_cons, added_eq_filter m n]
    cases (get? m e.1).isNone with
    | false => rfl
    | true => simp [hself]

theorem merge_assoc (hm : (Value.mapping m).WellKeyed) (hn : (Value.mapping n).WellKeyed)
    (hp : (Value.mapping p).WellKeyed) : merge (merge m n) p = merge m (merge n p) := by
  have hmn := wellKeyed_merge hm ((wellKeyed_mapping n).1 hn).2
  have hnp := wellKeyed_merge hn ((wellKeyed_mapping p).1 hp).2
  -- What `m` keeps is overridden by `n` and then by `p`, or at once by their merge.
  have hkept : (m.map (overridden n)).map (overridden p) = m.map (overridden (merge n p)) := by
    rw [List.map_map]
    refine List.map_congr_left fun e he => ?_
    simp [overridden, get?_merge hn hp (wellKeyed_keys hm e he), Option.getD_or]
  have hmiddle : (added m n).map (overridden p) = added m (n.map (overridden p)) := by
    rw [added, added, List.filter_map]
    rfl
  have hlast : added (merge m n) p = added m (added n p) := by
    rw [added_eq_filter, added_eq_filter, added_eq_filter, List.filter_filter]
    refine List.filter_congr fun e he => ?_
    rw [get?_merge hm hn (wellKeyed_keys hp e he)]
    cases get? n e.1 <;> cases get? m e.1 <;> rfl
  calc merge (merge m n) p
    _ = (m.map (overridden n) ++ added m n).map (overridden p) ++ added (merge m n) p := by
      rw [merge_eq hmn hp, merge_eq hm hn]
    _ = m.map (overridden (merge n p)) ++ added m (n.map (overridden p) ++ added n p) := by
      rw [List.map_append, hkept, hmiddle, hlast, List.append_assoc, added_append]
    _ = merge m (merge n p) := by rw [merge_eq hm hnp, merge_eq hn hp]

/-! ## Removing -/

theorem eraseAll_eq_filter (hm : (Value.mapping m).WellKeyed) {keys : List Value}
    (hkeys : ∀ k ∈ keys, k.WellKeyed) :
    eraseAll m keys = m.filter fun e => !keys.any (e.1 == ·) := by
  unfold eraseAll
  induction keys generalizing m with
  | nil => exact (List.filter_eq_self.2 fun _ _ => rfl).symm
  | cons k keys ih =>
    obtain ⟨hk, hkeys⟩ := List.forall_mem_cons.1 hkeys
    obtain ⟨hd, hes⟩ := (wellKeyed_mapping m).1 hm
    have herase : erase m k = m.filter fun e => !(e.1 == k) :=
      Assoc.take_eq_filter coherent_wellKeyed hd (fun e he => (hes e he).1) hk
    rw [List.foldl_cons, ih (wellKeyed_erase hm k) hkeys, herase, List.filter_filter]
    refine List.filter_congr fun e _ => ?_
    rw [List.any_cons, Bool.not_or, Bool.and_comm]

/-- Removing the keys of `n` from a merge undoes it, but for the entries whose keys equal nothing. -/
theorem eraseAll_merge (hm : (Value.mapping m).WellKeyed) (hn : (Value.mapping n).WellKeyed) :
    eraseAll (merge m n) (n.map (·.1)) =
      eraseAll m (n.map (·.1)) ++ n.filter fun e => ¬ e.1.Defined := by
  obtain ⟨-, hes⟩ := (wellKeyed_mapping n).1 hn
  have hkeys : ∀ k ∈ n.map (·.1), k.WellKeyed := List.forall_mem_map.2 (wellKeyed_keys hn)
  -- The entries of `m` that are left have keys that `n` does not have.
  have hkept : ((m.map (overridden n)).filter fun e => !(n.map (·.1)).any (e.1 == ·)) =
      m.filter fun e => !(n.map (·.1)).any (e.1 == ·) := by
    rw [List.filter_map]
    refine (List.map_congr_left fun e he => ?_).trans (List.map_id _)
    obtain ⟨he, hleft⟩ := List.mem_filter.1 he
    refine overridden_eq_self ((Assoc.get?_eq_none_iff n e.1).2 fun f hf => ?_)
    rw [coherent_wellKeyed.comm (hes f hf).1 (wellKeyed_keys hm e he)]
    simp at hleft
    exact hleft f.1 f.2 hf
  have hnew : ((added m n).filter fun e => !(n.map (·.1)).any (e.1 == ·)) =
      n.filter fun e => ¬ e.1.Defined := by
    rw [added, List.filter_filter]
    refine List.filter_congr fun e he => ?_
    rw [Value.any_beq_eq_defined hkeys (List.mem_map_of_mem he)]
    by_cases hdefined : e.1.Defined
    · simp [hdefined]
    · have hnone : (m.any fun f => f.1 == e.1) = false := by
        refine List.any_eq_false.2 fun f hf hfe => ?_
        exact hdefined (Value.defined_of_beq (wellKeyed_keys hm f hf) (hes e he).1 hfe).2
      simp [hdefined, hnone]
  rw [eraseAll_eq_filter (wellKeyed_merge hm hes) hkeys, eraseAll_eq_filter hm hkeys,
    merge_eq hm hn, List.filter_append, hkept, hnew]

end Formula.Mapping
