import QueryOptimizer.Datum
import QueryOptimizer.Proofs.Number.Rounding

/-!
# The order of strings on the numeric axis

A string is placed on the numeric axis by its first eight bytes. Strings are compared by their
characters, but a character that comes first also has bytes that come first
(`Text.utf8EncodeChar_append_lt`), so strings are in the order of their bytes
(`Text.toUTF8_lt_iff`).

Reading one byte more never turns the order of two byte strings round (`Datum.InOrder.succ`):
as long as their numbers are equal, what is left of the strings is in order, and once a number
is smaller it stays smaller. The end of a string counts as a zero, which is not above any byte.
So the places of strings are in order as well, but only weakly: what lies behind the first
eight bytes is lost, and so are zeros at the end, and large numbers are rounded.

## Main results

* `Text.toUTF8_lt_iff`: the order of strings is that of their bytes.
* `Datum.leadingBytes_mono`: the number of the first eight bytes keeps the order
  of byte strings.
* `Datum.axis_keeps_text_order`: the numeric axis keeps the order of strings of one type.
-/

namespace QueryOptimizer

/-! ### Strings as bytes -/

namespace Text

/-- A character that comes first has bytes that come first, whatever follows. -/
theorem utf8EncodeChar_append_lt {c d : Char} (h : c < d) (u v : List UInt8) :
    String.utf8EncodeChar c ++ u < String.utf8EncodeChar d ++ v := by
  have less : c.val.toNat < d.val.toNat := h
  have last : d.val.toNat < 0x110000 := by
    rcases d.valid with low | high
    · exact low.trans (by decide)
    · exact high.2
  have twice (n : Nat) : n / 4096 = n / 64 / 64 := by omega
  have thrice (n : Nat) : n / 262144 = n / 64 / 64 / 64 := by omega
  -- With different numbers of bytes the first ones differ, with equal numbers the
  -- digits to the base 64.
  fun_cases String.utf8EncodeChar c <;> fun_cases String.utf8EncodeChar d <;>
    simp only [List.cons_append, List.nil_append, List.cons_lt_cons_iff, UInt8.lt_iff_toNat_lt,
      ← UInt8.toNat_inj, UInt8.toNat_ofNat', twice, thrice] <;>
    omega

/-- Every character has a byte. -/
theorem nil_lt_utf8EncodeChar_append (c : Char) (u : List UInt8) :
    [] < String.utf8EncodeChar c ++ u := by
  fun_cases String.utf8EncodeChar c <;> exact List.nil_lt_cons _ _

/-- The bytes of texts are in the order of the texts. -/
theorem flatMap_utf8EncodeChar_lt {cs ds : List Char} (h : cs < ds) :
    cs.flatMap String.utf8EncodeChar < ds.flatMap String.utf8EncodeChar := by
  induction ds generalizing cs with
  | nil => cases h
  | cons d ds ih =>
    cases cs with
    | nil => exact nil_lt_utf8EncodeChar_append d _
    | cons c cs =>
      rw [List.flatMap_cons, List.flatMap_cons]
      rcases List.cons_lt_cons_iff.1 h with less | ⟨rfl, rest⟩
      · exact utf8EncodeChar_append_lt less _ _
      · exact List.append_left_lt (ih rest)

/-- The bytes of an array are collected one after the other. -/
theorem toList_loop (bytes : ByteArray) (i : Nat) (acc : List UInt8) :
    ByteArray.toList.loop bytes i acc = acc.reverse ++ bytes.data.toList.drop i := by
  fun_induction ByteArray.toList.loop bytes i acc with
  | case1 i acc inside ih =>
    have bound : i < bytes.data.toList.length := inside
    have byte : bytes.get! i = bytes.data.toList[i] := getElem!_pos bytes.data i inside
    rw [ih, List.drop_eq_getElem_cons bound, List.reverse_cons, List.append_assoc,
      List.singleton_append, byte]
  | case2 i acc outside =>
    rw [List.drop_eq_nil_of_le (Nat.le_of_not_lt outside), List.append_nil]

/-- The bytes of a string are those of its characters. -/
theorem toList_toUTF8 (s : String) :
    s.toUTF8.toList = s.toList.flatMap String.utf8EncodeChar := by
  have bytes : s.toUTF8 = (s.toList.flatMap String.utf8EncodeChar).toByteArray :=
    String.utf8Encode_toList.symm
  rw [ByteArray.toList, toList_loop, bytes, List.toList_data_toByteArray]
  rfl

/-- The order of strings is that of their bytes. -/
theorem toUTF8_lt_iff {s t : String} : s.toUTF8.toList < t.toUTF8.toList ↔ s < t := by
  have rises {s t : String} (h : s < t) : s.toUTF8.toList < t.toUTF8.toList := by
    rw [toList_toUTF8, toList_toUTF8]
    exact flatMap_utf8EncodeChar_lt h
  refine ⟨fun less => ?_, rises⟩
  rcases lt_trichotomy s t with before | rfl | behind
  · exact before
  · exact absurd less (List.lt_irrefl _)
  · exact absurd less (List.lt_asymm (rises behind))

end Text

/-! ### Leading bytes -/

namespace Datum

open Number Binary64

/-- The first `n` bytes, filled up with zeros, as a big-endian number. -/
def leadingNumber (n : Nat) (bytes : List UInt8) : Nat :=
  (List.range n).foldl (fun acc i => acc * 256 + (bytes.getD i 0).toNat) 0

/-- One more byte is the last digit of the number. -/
theorem leadingNumber_succ (n : Nat) (bytes : List UInt8) :
    leadingNumber (n + 1) bytes =
      leadingNumber n bytes * 256 + ((bytes.drop n).headD 0).toNat := by
  rw [leadingNumber, List.range_succ, List.foldl_concat, leadingNumber]
  simp

/-- A number of so many bytes is less than the power of 256. -/
theorem leadingNumber_lt (n : Nat) (bytes : List UInt8) : leadingNumber n bytes < 256 ^ n := by
  induction n with
  | zero => exact Nat.one_pos
  | succ n ih =>
    have byte := ((bytes.drop n).headD 0).toNat_lt
    rw [leadingNumber_succ, Nat.pow_succ]
    omega

/-- The number has the bytes, filled up with zeros, as its digits to the base 256. -/
theorem leadingNumber_eq_ofDigits {n m : Nat} (h : n ≤ m) (bytes : List UInt8) :
    leadingNumber n bytes =
    Nat.ofDigits 256 (((bytes ++ .replicate m 0).take n).reverse.map (·.toNat)) := by
  induction n with
  | zero => rfl
  | succ n ih =>
    have byte : (bytes ++ .replicate m 0)[n]? = some ((bytes.drop n).headD 0) := by
      rw [List.getElem?_append]
      split
      · rename_i inside
        simp [inside]
      · rename_i outside
        have zero : (List.replicate m (0 : UInt8))[n - bytes.length]? = some 0 :=
          List.getElem?_replicate_of_lt (by omega)
        simp [zero, outside]
    rw [leadingNumber_succ, ih (by omega), List.take_add_one, byte, Option.toList_some,
      List.reverse_concat, List.map_cons, Nat.ofDigits_cons]
    omega

/-- The first bytes of byte strings in order are in order, and if they are
equal, so is the rest. -/
theorem headD_lt_or_tail_le {s t : List UInt8} (h : s ≤ t) :
    s.headD 0 < t.headD 0 ∨ s.headD 0 = t.headD 0 ∧ s.tail ≤ t.tail := by
  cases s with
  | nil =>
    rcases Nat.eq_zero_or_pos (t.headD 0).toNat with zero | more
    · exact .inr ⟨(UInt8.toNat_inj.1 zero).symm, List.nil_le _⟩
    · exact .inl (UInt8.lt_iff_toNat_lt.2 more)
  | cons a s =>
    cases t with
    | nil => cases List.le_nil.1 h
    | cons b t => exact List.cons_le_cons_iff.1 h

/-- Whether two byte strings are still in order when `n` bytes have been read. -/
def InOrder (n : Nat) (s t : List UInt8) : Prop :=
  leadingNumber n s < leadingNumber n t ∨ leadingNumber n s = leadingNumber n t ∧
    s.drop n ≤ t.drop n

/-- What is in order up to a byte is so up to the next one. -/
theorem InOrder.succ {n : Nat} {s t : List UInt8} (h : InOrder n s t) :
    InOrder (n + 1) s t := by
  have byte := ((s.drop n).headD 0).toNat_lt
  unfold InOrder
  rw [leadingNumber_succ, leadingNumber_succ]
  rcases h with less | ⟨same, rest⟩
  · exact .inl (by omega)
  · rcases headD_lt_or_tail_le rest with first | ⟨first, rest⟩
    · rw [UInt8.lt_iff_toNat_lt] at first
      exact .inl (by omega)
    · rw [List.tail_drop, List.tail_drop] at rest
      exact .inr ⟨by rw [same, first], rest⟩

/-- Lists of bytes that are in order are so up to any byte. -/
theorem inOrder_of_le {s t : List UInt8} (h : s ≤ t) (n : Nat) : InOrder n s t := by
  induction n with
  | zero => exact .inr ⟨rfl, h⟩
  | succ n ih => exact ih.succ

/-- The number of the first eight bytes keeps the order of byte strings. -/
theorem leadingBytes_mono {s t : List UInt8} (h : s ≤ t) :
    leadingBytes s ≤ leadingBytes t := by
  rcases inOrder_of_le h 8 with less | ⟨same, -⟩
  · exact less.le
  · exact same.le

/-! ### The numeric axis -/

/-- Strings of one type are compared by their bytes. -/
theorem isLE_compare_text (type : TextType) (s t : String) :
    ((text type s).compare (text type t)).isLE = true ↔ s.toUTF8.toList ≤ t.toUTF8.toList := by
  have strings : (text type s).compare (text type t) = Ord.compare s t := by
    simp [compare, isNull, compareWithin?]
  rw [strings, Ordering.isLE_iff_ne_gt, compare_gt_iff_gt, ← Text.toUTF8_lt_iff, List.not_lt]

/-- Byte strings in order have numbers of their first eight bytes, filled up with zeros, in
order. These numbers have 64 bits. So the order of strings of one type, which is that of their
bytes, is kept on the numeric axis. -/
theorem axis_keeps_text_order :
    (∀ s : List UInt8, leadingBytes s =
      Nat.ofDigits 256 (((s ++ .replicate 8 0).take 8).reverse.map (·.toNat)) ∧
        leadingBytes s < 2 ^ 64) ∧
    (∀ s t : List UInt8, s ≤ t → leadingBytes s ≤ leadingBytes t) ∧
    ∀ (type : TextType) (s t : String),
      (((text type s).compare (text type t)).isLE = true ↔ s.toUTF8.toList ≤ t.toUTF8.toList) ∧
      ∃ x y : Binary64, (text type s).position? = some x ∧ (text type t).position? = some y ∧
        (((text type s).compare (text type t)).isLE = true → x ≤ y) := by
  refine ⟨fun s => ⟨leadingNumber_eq_ofDigits le_rfl s, leadingNumber_lt 8 s⟩, fun s t =>
    leadingBytes_mono, ?_⟩
  intro type s t
  refine ⟨isLE_compare_text type s t, _, _, rfl, rfl, fun first => ?_⟩
  exact ofNat_le_ofNat (leadingBytes_mono ((isLE_compare_text type s t).1 first))

/-- A prefix, a byte of zero, and a character of two bytes. -/
theorem axis_keeps_text_order_samples :
    ([0x61] : List UInt8) ≤ [0x61, 0, 0x62] ∧ leadingBytes [0x61] ≤ leadingBytes
    [0x61, 0, 0x62] ∧
    ((text .utf8 "z\x00").compare (text .utf8 "é")).isLE = true ∧
    ∃ x y : Binary64, (text .utf8 "z\x00").position? = some x ∧
      (text .utf8 "é").position? = some y ∧
      x ≤ y := by
  obtain ⟨-, bytes, strings⟩ := axis_keeps_text_order
  obtain ⟨-, x, y, hx, hy, le⟩ := strings .utf8 "z\x00" "é"
  have inOrder : ([0x61] : List UInt8) ≤ [0x61, 0, 0x62] := by decide
  have first : ((text .utf8 "z\x00").compare (text .utf8 "é")).isLE = true := by decide +kernel
  exact ⟨inOrder, bytes _ _ inOrder, first, x, y, hx, hy, le first⟩

end Datum

end QueryOptimizer
