import Mathlib.Tactic.SplitIfs
/-!
# Texts are ordered as their bytes

Core compares texts by their code points. Listings and the fields of JSON objects are ordered by the
bytes that UTF-8 spells a text with, and this is the same order: the first byte tells how many there
are, and more of them means a greater code point; the bytes after it hold six bits each, most
significant first.

Results:
* `ordered_encode`: the bytes of two code points first differ in the order of the code points.
* `lt_iff_bytes_lt`: `s < t` says that the bytes of `s` are before those of `t`.
-/
namespace Formula.Utf8

/-- The bytes of a text in UTF-8. -/
def bytes (s : String) : List UInt8 := s.toByteArray.data.toList

theorem bytes_eq_flatMap (s : String) : bytes s = s.toList.flatMap String.utf8EncodeChar := by
  unfold bytes
  rw [← String.utf8Encode_toList]
  exact List.toList_data_toByteArray

/-! ## The bytes of code points -/

/-- The lists `f v` of the `v` below `n` are ordered as the `v` are, and none of them begins another. -/
def Ordered (f : Nat → List UInt8) (n : Nat) : Prop :=
  ∀ v w, v < w → w < n → ∀ bs bs', f v ++ bs < f w ++ bs'

theorem cons_lt_of_lt {m n : Nat} (hm : m < n) (hn : n < 256) (bs bs' : List UInt8) :
    UInt8.ofNat m :: bs < UInt8.ofNat n :: bs' := by
  apply List.Lex.rel
  rw [UInt8.lt_iff_toNat_lt, UInt8.toNat_ofNat', UInt8.toNat_ofNat']
  omega

/-- A first byte: as many bits of `v` as leave room for the mark. -/
def lead (size mark v : Nat) : List UInt8 := [UInt8.ofNat (v % size + mark)]

theorem ordered_lead {size mark : Nat} (h : size + mark ≤ 256) : Ordered (lead size mark) size := by
  intro v w hvw hw bs bs'
  have hv : v < size := by omega
  rw [lead, lead, Nat.mod_eq_of_lt hv, Nat.mod_eq_of_lt hw]
  exact cons_lt_of_lt (by omega) (by omega) bs bs'

/-- One more byte, for the last six bits of `v`. -/
def continued (f : Nat → List UInt8) (v : Nat) : List UInt8 :=
  f (v / 0x40) ++ [UInt8.ofNat (v % 0x40 + 0x80)]

theorem Ordered.continued {f : Nat → List UInt8} {n : Nat} (hf : Ordered f n) :
    Ordered (continued f) (0x40 * n) := by
  intro v w hvw hw bs bs'
  simp only [Utf8.continued, List.append_assoc]
  rcases Nat.lt_or_ge (v / 0x40) (w / 0x40) with hlt | hge
  · exact hf _ _ hlt (by omega) _ _
  · have heq : v / 0x40 = w / 0x40 := by omega
    rw [heq]
    exact List.append_left_lt (cons_lt_of_lt (by omega) (by omega) bs bs')

theorem Ordered.piecewise {f g : Nat → List UInt8} {m n : Nat} (hf : Ordered f m)
    (hg : Ordered g n)
    (hfg : ∀ v w, v < m → m ≤ w → w < n → ∀ bs bs', f v ++ bs < g w ++ bs') :
    Ordered (fun v => if v < m then f v else g v) n := by
  intro v w hvw hw bs bs'
  by_cases hwm : w < m
  · have hvm : v < m := by omega
    simp only [if_pos hvm, if_pos hwm]
    exact hf v w hvw hwm bs bs'
  · by_cases hvm : v < m
    · simp only [if_pos hvm, if_neg hwm]
      exact hfg v w hvm (by omega) hw bs bs'
    · simp only [if_neg hvm, if_neg hwm]
      exact hg v w hvw hw bs bs'

/-- The bytes of a code point: the more it has, the greater is the first of them. -/
def encode (v : Nat) : List UInt8 :=
  if v < 0x80 then lead 0x80 0 v
  else if v < 0x800 then continued (lead 0x20 0xc0) v
  else if v < 0x10000 then continued (continued (lead 0x10 0xe0)) v
  else continued (continued (continued (lead 0x08 0xf0))) v

theorem utf8EncodeChar_eq (c : Char) : String.utf8EncodeChar c = encode c.val.toNat := by
  simp only [String.utf8EncodeChar, encode, lead, continued, List.cons_append, List.nil_append,
    Nat.div_div_eq_div_mul, Nat.add_zero, Nat.lt_succ_iff]
  split
  · next h => rw [Nat.mod_eq_of_lt (by omega)]
  · rfl

theorem ordered_encode : Ordered encode 0x200000 := by
  have h₁ : Ordered (lead 0x80 0) 0x80 := ordered_lead (by decide)
  have h₂ : Ordered (continued (lead 0x20 0xc0)) 0x800 := (ordered_lead (by decide)).continued
  have h₃ : Ordered (continued (continued (lead 0x10 0xe0))) 0x10000 :=
    (ordered_lead (by decide)).continued.continued
  have h₄ : Ordered (continued (continued (continued (lead 0x08 0xf0)))) 0x200000 :=
    (ordered_lead (by decide)).continued.continued.continued
  refine h₁.piecewise (h₂.piecewise (h₃.piecewise h₄ ?_) ?_) ?_
  · intro v w hv hm hw bs bs'
    exact cons_lt_of_lt (by omega) (by omega) _ _
  · intro v w hv hm hw bs bs'
    split_ifs <;> exact cons_lt_of_lt (by omega) (by omega) _ _
  · intro v w hv hm hw bs bs'
    split_ifs <;> exact cons_lt_of_lt (by omega) (by omega) _ _

theorem encode_ne_nil (v : Nat) : encode v ≠ [] := by
  unfold encode
  split_ifs <;> simp [lead, continued]

/-! ## Texts -/

theorem flatMap_lt_flatMap {cs ds : List Char} (h : cs < ds) :
    cs.flatMap String.utf8EncodeChar < ds.flatMap String.utf8EncodeChar := by
  induction h with
  | @nil d ds =>
    have hd := encode_ne_nil d.val.toNat
    rw [List.flatMap_nil, List.flatMap_cons, utf8EncodeChar_eq]
    cases hb : encode d.val.toNat with
    | nil => exact absurd hb hd
    | cons b bs => exact .nil
  | @rel c cs d ds hcd =>
    have hd : d.val.toNat < 0x200000 := by
      have hvalid := d.valid
      simp only [UInt32.isValidChar, Nat.isValidChar] at hvalid
      omega
    rw [List.flatMap_cons, List.flatMap_cons, utf8EncodeChar_eq, utf8EncodeChar_eq]
    exact ordered_encode _ _ hcd hd _ _
  | @cons c cs ds _ ih =>
    rw [List.flatMap_cons, List.flatMap_cons]
    exact List.append_left_lt ih

/-- The order of texts is the order of their bytes. -/
theorem lt_iff_bytes_lt (s t : String) : s < t ↔ bytes s < bytes t := by
  rw [bytes_eq_flatMap, bytes_eq_flatMap]
  refine ⟨flatMap_lt_flatMap, ?_⟩
  intro h
  rcases Std.lt_trichotomy s t with hlt | rfl | hgt
  · exact hlt
  · exact absurd h (List.lt_irrefl _)
  · exact absurd (flatMap_lt_flatMap hgt) (List.lt_asymm h)

end Formula.Utf8
