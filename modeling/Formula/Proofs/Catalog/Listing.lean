import Formula.Proofs.Catalog.Slots
import Formula.Proofs.Text.Utf8
import Mathlib.Data.List.Sort
import Mathlib.Data.Prod.Basic
/-!
# Listings of a catalog

A listing is sorted by three things in turn, and no two operators of a catalog agree in the last two of
them. So there is one way to list the operators, and it depends neither on the order in which the slots
come nor on what was registered and replaced before.

Results:
* `listedBefore_iff`: the comparison of listings is the complement of a strict total order.
* `pairwise_listing`: a listing is strictly increasing.
* `eq_listing_of_mem_iff`: it is the only such list of the same operators.
* `listing_canonical`: listings by what was registered.
-/
namespace Formula

namespace Operator

/-- The order of listings: the tighter operator first, then by the bytes of the symbols, then the one
with fewer operands. -/
def Precedes (a b : Operator) : Prop :=
  b.signature.precedence < a.signature.precedence ∨
    a.signature.precedence = b.signature.precedence ∧
      (Utf8.bytes a.symbol < Utf8.bytes b.symbol ∨ a.symbol = b.symbol ∧ a.arity < b.arity)

def rank (op : Operator) : Int × String × Nat := (op.signature.precedence, op.symbol, op.arity)

/-- The order of ranks: descending first, then ascending. -/
def RankLt : Int × String × Nat → Int × String × Nat → Prop :=
  Prod.Lex (fun m n => n < m) (Prod.Lex (fun s t => s < t) (fun m n => m < n))

instance : IsTrans _ RankLt := inferInstanceAs (IsTrans _ (Prod.Lex _ _))

instance : Std.Asymm RankLt := inferInstanceAs (Std.Asymm (Prod.Lex _ _))

instance : Std.Trichotomous RankLt := inferInstanceAs (Std.Trichotomous (Prod.Lex _ _))

variable {a b : Operator}

theorem rankLt_iff : RankLt a.rank b.rank ↔ a.Precedes b := by
  simp only [RankLt, Prod.lex_def, rank, Precedes, Utf8.lt_iff_bytes_lt]

theorem Precedes.asymm (h : a.Precedes b) : ¬ b.Precedes a := by
  rw [← rankLt_iff] at h ⊢
  exact Std.Asymm.asymm _ _ h

instance : Std.Irrefl Precedes := ⟨fun _ h => h.asymm h⟩

instance : Std.Antisymm Precedes := ⟨fun _ _ h h' => absurd h' h.asymm⟩

theorem precedes_or_precedes (h : a.key ≠ b.key) : a.Precedes b ∨ b.Precedes a := by
  rw [← rankLt_iff, ← rankLt_iff]
  rcases trichotomous_of RankLt a.rank b.rank with hab | heq | hba
  · exact .inl hab
  · exact absurd (congrArg Prod.snd heq) h
  · exact .inr hba

theorem listedBefore_iff : a.listedBefore b = true ↔ ¬ b.Precedes a := by
  rw [listedBefore, Precedes, ← Utf8.lt_iff_bytes_lt]
  split_ifs with hp hs
  · have hne : b.signature.precedence ≠ a.signature.precedence := Ne.symm hp
    simp only [hne, false_and, or_false, decide_eq_true_eq]
    omega
  · have heq : a.signature.precedence = b.signature.precedence := not_not.1 hp
    simp only [heq, Ne.symm hs, Int.lt_irrefl, false_or, true_and, false_and, or_false,
      decide_eq_true_eq]
    exact ⟨String.lt_asymm, fun h => (trichotomous_of _ a.symbol b.symbol).resolve_right (not_or.2 ⟨hs, h⟩)⟩
  · have heq : a.signature.precedence = b.signature.precedence := not_not.1 hp
    have hsymbol : a.symbol = b.symbol := not_not.1 hs
    simp only [heq, hsymbol, Int.lt_irrefl, String.lt_irrefl, false_or, true_and, decide_eq_true_eq]
    omega

theorem listedBefore_trans (a b c : Operator) (hab : a.listedBefore b = true)
    (hbc : b.listedBefore c = true) : a.listedBefore c = true := by
  rw [listedBefore_iff, ← rankLt_iff] at hab hbc ⊢
  intro hca
  rcases trichotomous_of RankLt a.rank b.rank with h | h | h
  · exact hbc (IsTrans.trans _ _ _ hca h)
  · exact hbc (h ▸ hca)
  · exact hab h

theorem listedBefore_total (a b : Operator) :
    (a.listedBefore b || b.listedBefore a) = true := by
  rw [Bool.or_eq_true, listedBefore_iff, listedBefore_iff]
  by_cases h : b.Precedes a
  · exact .inr h.asymm
  · exact .inl h

end Operator

/-! ## The listing -/

namespace Catalog

variable {c : Catalog}

theorem perm_listing (c : Catalog) : c.listing.Perm c.operators := List.mergeSort_perm _ _

/-- Sorting operators no two of which have the same symbol and arity leaves no ties. -/
theorem pairwise_mergeSort {ops : List Operator} (hd : (ops.map Operator.key).Nodup) :
    (ops.mergeSort Operator.listedBefore).Pairwise Operator.Precedes := by
  have hperm := List.mergeSort_perm ops Operator.listedBefore
  have hsorted : (ops.mergeSort Operator.listedBefore).Pairwise fun a b => a.listedBefore b = true :=
    List.pairwise_mergeSort Operator.listedBefore_trans Operator.listedBefore_total ops
  have hkeys := List.pairwise_map.1 ((hperm.map Operator.key).nodup_iff.2 hd)
  refine (hsorted.and hkeys).imp fun ⟨hle, hne⟩ => ?_
  exact (Operator.precedes_or_precedes hne).resolve_right (Operator.listedBefore_iff.1 hle)

/-- There is one increasing list of given operators. -/
theorem eq_listing_of_mem_iff {ops : List Operator} (hd : (ops.map Operator.key).Nodup)
    (h : ∀ op, op ∈ ops ↔ op ∈ c.operators) : ops.mergeSort Operator.listedBefore = c.listing := by
  refine List.Pairwise.eq_of_mem_iff (pairwise_mergeSort hd) (pairwise_mergeSort c.nodup_keys) ?_
  intro op
  exact (List.mergeSort_perm _ _).mem_iff.trans ((h op).trans c.perm_listing.mem_iff.symm)

/-- What a list of operators has to do with the operators that were registered in a catalog. -/
structure Lists (h ops : List Operator) : Prop where
  mem_iff : ∀ op, op ∈ ops ↔ ∃ symbol n, (ofList h).find? symbol n = some op
  registered : ∀ key, key ∈ ops.map Operator.key ↔ key ∈ h.map Operator.key
  once : (ops.map Operator.key).Nodup
  increasing : ops.Pairwise Operator.Precedes
  /-- the slots of any history that ends alike, in any order, are listed alike -/
  unique : ∀ (h' : List Operator) (slots : List (String × List Operator)),
    (∀ symbol n op, Latest h' symbol n op ↔ Latest h symbol n op) →
    slots.Perm (ofList h').slots →
    (slots.flatMap fun slot => slot.2).mergeSort Operator.listedBefore = ops

/-- **Canonical listings.** Whatever was registered and in which order, the listing has each operator
that can be found just once and nothing else, and it is strictly increasing. It is determined by the
last operator of each symbol and arity. -/
theorem listing_canonical (h : List Operator) : Lists h (ofList h).listing where
  mem_iff _ := (perm_listing _).mem_iff.trans mem_operators_iff
  registered _ := ((perm_listing _).map Operator.key).mem_iff.trans mem_keys_ofList
  once := ((perm_listing _).map Operator.key).nodup_iff.2 (nodup_keys _)
  increasing := pairwise_mergeSort (nodup_keys _)
  unique h' slots hlatest hslots := by
    have hperm : (slots.flatMap fun slot => slot.2).Perm (ofList h').operators :=
      hslots.flatMap_right _
    refine eq_listing_of_mem_iff ((hperm.map Operator.key).nodup_iff.2 (nodup_keys _)) ?_
    intro op
    rw [hperm.mem_iff, mem_operators_iff, mem_operators_iff]
    simp only [find?_ofList, hlatest]

end Catalog

end Formula
