import Formula.Proofs.Mapping.Entries
import Formula.Proofs.Mapping.Refinement
/-!
# Equality through lookups, and mappings collected from pairs

Two mappings whose keys are defined are equal exactly when they have as many entries and find equal
values under every key that is defined. The order of entries does not count, and how a key is spelled
does not either: equal keys have one slot.

A list of pairs may have several with equal keys. Collecting it leaves one entry for them, with the key
of the first of them, in the place of the first, and with the value of the last.

Results:
* `beq_mapping_iff_get?`: equality is equality of what is found.
* `slot?_congr`: equal keys have one slot.
* `beq_ofList_of_perm`: permuted pairs give equal mappings.
* `exists_merge_eq`, `get?_merge_reverse`: merging with pairs whose keys may be equal.
* `exists_entry`: the entry that pairs with equal keys leave.
-/
namespace Formula.Assoc

variable {κ ν : Type} [BEq κ]

/-- From behind, the first pair is found last. -/
theorem get?_reverse_cons (e : κ × ν) (es : List (κ × ν)) (k : κ) :
    get? (e :: es).reverse k = (get? es.reverse k).or (if e.1 == k then some e.2 else none) := by
  rw [List.reverse_cons, get?_append, get?_cons]
  rfl

theorem Distinct.perm {es fs : List (κ × ν)} (hd : Distinct es) (h : es.Perm fs) : Distinct fs :=
  (h.pairwise_iff fun hef => ⟨hef.2, hef.1⟩).1 hd

end Formula.Assoc

namespace Formula.Mapping

open Assoc (Distinct)
open Value (Alike coherent_wellKeyed wellKeyed_mapping)

variable {m n : Mapping} {k k' v : Value}

/-! ## Equality -/

/-- Both absent, or both present and equal. -/
abbrev SameFound (v? w? : Option Value) : Prop := Option.Rel (fun v w => (v == w) = true) v? w?

theorem sameFound_of_rel {v? w? : Option Value} (h : Option.Rel Alike v? w?) : SameFound v? w? := by
  cases h with
  | some h => exact .some h.equal
  | none => exact .none

theorem rel_of_sameFound {v? w? : Option Value} (hv : ∀ v, v? = some v → v.WellKeyed)
    (hw : ∀ w, w? = some w → w.WellKeyed) (h : SameFound v? w?) : Option.Rel Alike v? w? := by
  cases h with
  | some h => exact .some ⟨hv _ rfl, hw _ rfl, h⟩
  | none => exact .none

theorem beq_mapping_iff_get? (hm : (Value.mapping m).WellKeyed) (hn : (Value.mapping n).WellKeyed)
    (hdm : ∀ e ∈ m, e.1.Defined) (hdn : ∀ e ∈ n, e.1.Defined) :
    (Value.mapping m == Value.mapping n) = true ↔ m.length = n.length ∧
      ∀ k : Value, k.WellKeyed → k.Defined → SameFound (get? m k) (get? n k) := by
  constructor
  · intro h
    have hlen := ((Value.beq_mapping_iff coherent_wellKeyed (wellKeyed_keys hm) (wellKeyed_keys hn)
      ((wellKeyed_mapping n).1 hn).1).1 h).1
    have hmn : Alike (.mapping m) (.mapping n) := ⟨hm, hn, h⟩
    exact ⟨hlen, fun k hk _ => sameFound_of_rel (rel_get?_of_alike hmn hk)⟩
  · intro ⟨_, h⟩
    refine (alike_of_get? hm hn hdm hdn fun k hk => ?_).equal
    by_cases hdk : k.Defined
    · exact rel_of_sameFound (fun _ => wellKeyed_of_get? hm) (fun _ => wellKeyed_of_get? hn)
        (h k hk hdk)
    · -- Neither mapping finds a key with an undefined number in it.
      rw [get?_of_not_defined hm hk hdk, get?_of_not_defined hn hk hdk]
      exact .none

/-! ## Slots -/

/-- The place of the entry found under a key. -/
def slot? (m : Mapping) (k : Value) : Option Nat := m.findIdx? fun e => e.1 == k

/-- What is found under a key is the value in its slot. -/
theorem get?_eq_slot? (m : Mapping) (k : Value) :
    get? m k = ((slot? m k).bind fun i => m[i]?).map (·.2) := by
  have hfound : m.find? (fun e => e.1 == k) = (slot? m k).bind fun i => m[i]? := by
    unfold slot?
    induction m with
    | nil => rfl
    | cons e m ih =>
      rw [List.find?_cons, List.findIdx?_cons, ih]
      cases e.1 == k with
      | true => rfl
      | false => cases m.findIdx? fun e => e.1 == k <;> rfl
  rw [← hfound]
  rfl

theorem slot?_congr (hm : (Value.mapping m).WellKeyed) (hk : k.WellKeyed) (hk' : k'.WellKeyed)
    (h : (k == k') = true) : slot? m k = slot? m k' := by
  have hkeys := wellKeyed_keys hm
  have hmap : m.map (fun e => e.1 == k) = m.map fun e => e.1 == k' :=
    List.map_congr_left fun e he => coherent_wellKeyed.beq_congr hk hk' (hkeys e he) h
  have hslot : ∀ k, slot? m k = (m.map fun e => e.1 == k).findIdx? id := by
    intro k
    rw [List.findIdx?_map]
    rfl
  rw [hslot, hslot, hmap]

/-! ## Permuted pairs -/

theorem beq_ofList_of_perm {es fs : List (Value × Value)} (h : es.Perm fs) (hd : Distinct es)
    (hes : ∀ e ∈ es, e.1.WellKeyed ∧ e.2.WellKeyed) (hdef : ∀ e ∈ es, e.1.Defined ∧ e.2.Defined) :
    (Value.mapping (ofList es) == Value.mapping (ofList fs)) = true := by
  have hd' := hd.perm h
  have hfs : ∀ f ∈ fs, f.1.WellKeyed := fun f hf => (hes f (h.mem_iff.2 hf)).1
  rw [ofList_eq_self hd, ofList_eq_self hd',
    Value.beq_mapping_iff coherent_wellKeyed (fun e he => (hes e he).1) hfs hd']
  refine ⟨h.length_eq, fun e he => ⟨e, h.mem_iff.1 he, ?_, ?_⟩⟩
  · exact (Value.beq_self_iff_defined (hes e he).1).2 (hdef e he).1
  · exact (Value.beq_self_iff_defined (hes e he).2).2 (hdef e he).2

/-! ## Pairs with equal keys -/

section Pairs

variable {es : List (Value × Value)}

/-- Of several pairs with equal keys the last is found, and that is the first from behind. -/
theorem get?_merge_reverse (hm : (Value.mapping m).WellKeyed)
    (hes : ∀ e ∈ es, e.1.WellKeyed ∧ e.2.WellKeyed) (hk : k.WellKeyed) :
    get? (merge m es) k = (get? es.reverse k).or (get? m k) := by
  induction es generalizing m with
  | nil => rfl
  | cons e es ih =>
    obtain ⟨he, hes⟩ := List.forall_mem_cons.1 hes
    have hmerge : merge m (e :: es) = merge (insert m e.1 e.2) es := rfl
    have hlast : get? (e :: es).reverse k = _ := Assoc.get?_reverse_cons e es k
    rw [hmerge, ih (wellKeyed_insert hm he.1 he.2) hes, get?_insert hm he.1 hk, hlast,
      coherent_wellKeyed.comm hk he.1, Option.or_assoc]
    cases e.1 == k <;> rfl

theorem any_ofList (hes : ∀ e ∈ es, e.1.WellKeyed ∧ e.2.WellKeyed) (hk : k.WellKeyed) :
    ((ofList es).any fun e => e.1 == k) = es.any fun e => e.1 == k := by
  have hfound : get? (ofList es) k = get? es.reverse k := by
    unfold ofList
    rw [get?_merge_reverse wellKeyed_nil hes hk]
    exact Option.or_none
  rw [← Assoc.isSome_get?, ← List.any_reverse, ← Assoc.isSome_get? es.reverse]
  exact congrArg Option.isSome hfound

/-- The entries of a mapping stay in place in a merge, each with the last value written under its
key. -/
theorem exists_merge_eq (hm : (Value.mapping m).WellKeyed)
    (hes : ∀ e ∈ es, e.1.WellKeyed ∧ e.2.WellKeyed) :
    ∃ rest, merge m es = m.map (overridden es.reverse) ++ rest := by
  induction es generalizing m with
  | nil =>
    have hself : m.map (overridden []) = m :=
      (List.map_congr_left fun _ _ => overridden_eq_self rfl).trans (List.map_id m)
    exact ⟨[], by rw [List.reverse_nil, hself, List.append_nil]; rfl⟩
  | cons e es ih =>
    obtain ⟨he, hes⟩ := List.forall_mem_cons.1 hes
    obtain ⟨hd, hem⟩ := (wellKeyed_mapping m).1 hm
    have hinsert : insert m e.1 e.2 = (m.map fun f => (f.1, if f.1 == e.1 then e.2 else f.2)) ++
        if (get? m e.1).isNone then [e] else [] :=
      Assoc.put_snd_eq coherent_wellKeyed hd (fun f hf => (hem f hf).1) he.1 e.2
    have hmap : m.map (overridden (e :: es).reverse) =
        (m.map fun f => (f.1, if f.1 == e.1 then e.2 else f.2)).map (overridden es.reverse) := by
      rw [List.map_map]
      refine List.map_congr_left fun f hf => ?_
      have hlast : get? (e :: es).reverse f.1 = _ := Assoc.get?_reverse_cons e es f.1
      rw [Function.comp_apply, overridden, overridden, hlast, Option.getD_or,
        coherent_wellKeyed.comm (hem f hf).1 he.1]
      cases e.1 == f.1 <;> rfl
    obtain ⟨rest, hrest⟩ := ih (wellKeyed_insert hm he.1 he.2) hes
    have hmerge : merge m (e :: es) = merge (insert m e.1 e.2) es := rfl
    rw [hmerge, hrest, hinsert, List.map_append, hmap, List.append_assoc]
    exact ⟨_, rfl⟩

/-- A pair whose key no earlier pair has gets an entry after those of the earlier pairs. Later pairs
change values, and add their entries behind. -/
theorem exists_ofList_append_cons {before after : List (Value × Value)} {first : Value}
    (hbefore : ∀ e ∈ before, e.1.WellKeyed ∧ e.2.WellKeyed) (hfirst : first.WellKeyed)
    (hv : v.WellKeyed) (hafter : ∀ e ∈ after, e.1.WellKeyed ∧ e.2.WellKeyed)
    (hnew : ∀ e ∈ before, (e.1 == first) = false) :
    ∃ rest, ofList (before ++ (first, v) :: after) =
      (ofList before).map (overridden after.reverse) ++
        overridden after.reverse (first, v) :: rest := by
  have hnew : ∀ e ∈ ofList before, (e.1 == first) = false :=
    keys_merge (p := fun k => (k == first) = false) (by simp) hnew
  have hsteps : ofList (before ++ (first, v) :: after) =
      merge (insert (ofList before) first v) after :=
    List.foldl_append
  obtain ⟨rest, hrest⟩ :=
    exists_merge_eq (wellKeyed_insert (wellKeyed_ofList hbefore) hfirst hv) hafter
  rw [insert_eq_append hnew, List.map_append, List.append_assoc, ← insert_eq_append hnew] at hrest
  exact ⟨rest, hsteps.trans hrest⟩

/-- The other entries of a well-keyed mapping have other keys. -/
theorem ne_of_split {pre post : List (Value × Value)} {key w : Value}
    (hm : (Value.mapping (pre ++ (key, w) :: post)).WellKeyed) :
    ∀ e ∈ pre ++ post, (e.1 == key) = false := by
  obtain ⟨-, hcons, hpre⟩ := List.pairwise_append.1 ((wellKeyed_mapping _).1 hm).1
  intro e he
  rcases List.mem_append.1 he with he | he
  · exact (hpre e he (key, w) List.mem_cons_self).1
  · exact ((List.pairwise_cons.1 hcons).1 e he).2

/-- The last pair whose key equals `k` has the value `w`. -/
def LastUnder (es : List (Value × Value)) (k w : Value) : Prop :=
  ∃ front key back, es = front ++ (key, w) :: back ∧ (key == k) = true ∧
    ∀ e ∈ back, (e.1 == k) = false

theorem lastUnder_of_get?_reverse {w : Value} (h : get? es.reverse k = some w) :
    LastUnder es k w := by
  obtain ⟨pre, key, post, hsplit, hkey, hpre⟩ := Assoc.exists_split_of_get? h
  refine ⟨post.reverse, key, pre.reverse, ?_, hkey, fun e he => hpre e (List.mem_reverse.1 he)⟩
  rw [← List.reverse_reverse es, hsplit]
  simp

/-- The pairs of `es` with keys equal to `k` have left one entry, `(first, w)` between `pre` and
`post`. The first of these pairs comes after `before`. -/
structure Entry (es : List (Value × Value)) (k : Value) (before pre post : List (Value × Value))
    (first w : Value) : Prop where
  first_pair : ∃ v after, es = before ++ (first, v) :: after
  key_eq : (first == k) = true
  not_before : ∀ e ∈ before, (e.1 == k) = false
  collected : ofList es = pre ++ (first, w) :: post
  only : ∀ e ∈ pre ++ post, (e.1 == k) = false
  last : LastUnder es k w
  /-- the keys in front of the entry are those that the pairs before the first one leave -/
  keys_before : pre.map (·.1) = (ofList before).map (·.1)
  /-- so a key comes in front of the entry when a pair with it comes before the first one -/
  place : ∀ k' : Value, k'.WellKeyed →
    (pre.any fun e => e.1 == k') = before.any fun e => e.1 == k'

theorem exists_entry (hes : ∀ e ∈ es, e.1.WellKeyed ∧ e.2.WellKeyed) {e : Value × Value}
    (he : e ∈ es) (hdef : e.1.Defined) :
    ∃ before pre post first w, Entry es e.1 before pre post first w := by
  have hk := (hes e he).1
  have hself : (e.1 == e.1) = true := (Value.beq_self_iff_defined hk).2 hdef
  have hfound : (get? es e.1).isSome = true :=
    (Assoc.isSome_get? es e.1).trans (List.any_eq_true.2 ⟨e, he, hself⟩)
  obtain ⟨v, hv⟩ := Option.isSome_iff_exists.1 hfound
  obtain ⟨before, first, after, rfl, hkey, hbefore⟩ := Assoc.exists_split_of_get? hv
  have hwell := wellKeyed_ofList hes
  rw [List.forall_mem_append, List.forall_mem_cons] at hes
  obtain ⟨hwbefore, ⟨hwfirst, hwv⟩, hwafter⟩ := hes
  -- Keys differ from the key in question when they differ from the first one equal to it.
  have hsame : ∀ k : Value, k.WellKeyed → (k == first) = (k == e.1) := fun k hwk =>
    coherent_wellKeyed.beq_congr hwfirst hk hwk hkey
  obtain ⟨rest, hcollected⟩ := exists_ofList_append_cons hwbefore hwfirst hwv hwafter
    fun f hf => (hsame f.1 (hwbefore f hf).1).trans (hbefore f hf)
  have hkeys : ((ofList before).map (overridden after.reverse)).map (·.1) =
      (ofList before).map (·.1) := by
    rw [List.map_map]
    rfl
  refine ⟨before, (ofList before).map (overridden after.reverse), rest, first,
    (get? after.reverse first).getD v, ⟨v, after, rfl⟩, hkey, hbefore, hcollected, ?_, ?_, hkeys, ?_⟩
  · rw [hcollected] at hwell
    intro f hf
    have hwf : f.1.WellKeyed := by
      refine wellKeyed_keys hwell f ?_
      rcases List.mem_append.1 hf with hf | hf
      · exact List.mem_append_left _ hf
      · exact List.mem_append_right _ (List.mem_cons_of_mem _ hf)
    exact (hsame f.1 hwf).symm.trans (ne_of_split hwell f hf)
  · have hlater : get? after.reverse first = get? after.reverse e.1 :=
      Assoc.get?_congr coherent_wellKeyed (fun f hf => (hwafter f (List.mem_reverse.1 hf)).1)
        hwfirst hk hkey
    refine lastUnder_of_get?_reverse ?_
    rw [hlater]
    unfold get?
    rw [List.reverse_append, Assoc.get?_append, Assoc.get?_reverse_cons, if_pos hkey]
    cases Assoc.get? after.reverse e.1 <;> rfl
  · intro k' hk'
    rw [← any_ofList hwbefore hk']
    have hany : ∀ m : Mapping, (m.any fun e => e.1 == k') = (m.map (·.1)).any (· == k') := by
      intro m
      rw [List.any_map]
      rfl
    rw [hany, hkeys, hany]

end Pairs

/-- **Equality of mappings is extensional.** Mappings with defined keys are equal when they have as many
entries and find equal values under every defined key; equal keys have one slot; pairs with distinct
keys and nothing undefined make equal mappings in every order; and pairs in general leave, for each
defined key among them, one entry with the first spelling, the first place and the last value. -/
theorem equality_extensional :
    (∀ m n : Mapping, (Value.mapping m).WellKeyed → (Value.mapping n).WellKeyed →
      (∀ e ∈ m, e.1.Defined) → (∀ e ∈ n, e.1.Defined) →
      ((Value.mapping m == Value.mapping n) = true ↔ m.length = n.length ∧
        ∀ k : Value, k.WellKeyed → k.Defined → SameFound (get? m k) (get? n k))) ∧
    (∀ (m : Mapping) (k k' : Value), (Value.mapping m).WellKeyed → k.WellKeyed → k'.WellKeyed →
      (k == k') = true → slot? m k = slot? m k' ∧ get? m k = get? m k') ∧
    (∀ es fs : List (Value × Value), es.Perm fs → Distinct es →
      (∀ e ∈ es, e.1.WellKeyed ∧ e.2.WellKeyed) → (∀ e ∈ es, e.1.Defined ∧ e.2.Defined) →
      (Value.mapping (ofList es) == Value.mapping (ofList fs)) = true) ∧
    (∀ es : List (Value × Value), (∀ e ∈ es, e.1.WellKeyed ∧ e.2.WellKeyed) →
      ∀ e ∈ es, e.1.Defined → ∃ before pre post first w, Entry es e.1 before pre post first w) := by
  refine ⟨?_, ?_, ?_, ?_⟩
  · intro m n hm hn hdm hdn
    exact beq_mapping_iff_get? hm hn hdm hdn
  · intro m k k' hm hk hk' h
    have hslot := slot?_congr hm hk hk' h
    exact ⟨hslot, by rw [get?_eq_slot?, get?_eq_slot?, hslot]⟩
  · intro es fs h hd hes hdef
    exact beq_ofList_of_perm h hd hes hdef
  · intro es hes e he hdef
    exact exists_entry hes he hdef

/-- A zero of either sign, a mapping in two orders and an undefined number as keys, some of them
twice. -/
theorem equality_extensional_spelled :
    let k : Value := .mapping [(.number 0.0, .text "a"), (.boolean true, .text "b")]
    let k' : Value := .mapping [(.boolean true, .text "b"), (.number (-0.0), .text "a")]
    let undefined : Value := .number Number.undefined
    let m : Mapping := [(k, .number 1.0), (.number 0.0, .text "zero")]
    let n : Mapping := [(.number (-0.0), .text "zero"), (k', .number 1.0)]
    let pairs : Mapping := [(undefined, .text "c"), (k, .text "d"), (undefined, .text "e"),
      (k', undefined)]
    SameFound (get? m k') (get? n k') ∧ slot? m k = slot? m k' ∧
      (Value.mapping (ofList m) == Value.mapping (ofList m.reverse)) = true ∧
      ∃ before pre post first w, Entry pairs k' before pre post first w := by
  intro k k' undefined m n pairs
  obtain ⟨hequal, hslot, hperm, hentry⟩ := equality_extensional
  have hm : (Value.mapping m).WellKeyed := by simp [m, k, Distinct]; decide
  have hn : (Value.mapping n).WellKeyed := by simp [n, k', Distinct]; decide
  have hdm : ∀ e ∈ m, e.1.Defined ∧ e.2.Defined := by decide
  have hdn : ∀ e ∈ n, e.1.Defined ∧ e.2.Defined := by decide
  have hk : k.WellKeyed := by simp [k, Distinct]; decide
  have hk' : k'.WellKeyed := by simp [k', Distinct]; decide
  have hmn : (Value.mapping m == Value.mapping n) = true := by decide
  obtain ⟨hd, hes⟩ := (wellKeyed_mapping m).1 hm
  have hpairs : ∀ e ∈ pairs, e.1.WellKeyed ∧ e.2.WellKeyed := by
    simp only [pairs, List.forall_mem_cons]
    simp [hk, hk', undefined]
  have hfound := ((hequal m n hm hn (fun e he => (hdm e he).1) fun e he => (hdn e he).1).1 hmn).2
  exact ⟨hfound k' hk' (by decide), (hslot m k k' hm hk hk' (by decide)).1,
    hperm m m.reverse (List.reverse_perm m).symm hd hes hdm,
    hentry pairs hpairs (k', undefined) (by simp [pairs]) (by decide)⟩

end Formula.Mapping
