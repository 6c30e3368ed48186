import Lox.Proofs.Bytes.Scanner

set_option autoImplicit false

/-! # Characters and their bytes

A character below 128 is stored as one byte, which is the character (`utf8EncodeChar_ascii`), and
all bytes of any other character are above (`le_of_mem_utf8EncodeChar`). So a test that only such
characters pass (`OnlyAscii`) says the same of a character and of its first byte
(`OnlyAscii.of_first`), and the search for such a byte finds the first such character
(`memchr_eq_some`).

`Scanner.At` is the dictionary between a scanner and the characters it was through: its index is
the number of their bytes.
-/

namespace Lox.Bytes

/-- The bytes of some characters. -/
def encode (cs : List Char) : List UInt8 := cs.flatMap String.utf8EncodeChar

section

variable {c d : Char} {cs ds : List Char} {b : UInt8} {bs : List UInt8}

@[simp] theorem encode_nil : encode [] = [] := rfl

@[simp] theorem encode_cons (c : Char) (cs : List Char) :
    encode (c :: cs) = String.utf8EncodeChar c ++ encode cs := List.flatMap_cons

@[simp] theorem encode_append (cs ds : List Char) :
    encode (cs ++ ds) = encode cs ++ encode ds := List.flatMap_append

theorem toList_toUTF8 (text : String) : text.toUTF8.data.toList = encode text.toList := by
  rw [String.toUTF8_eq_toByteArray, ← String.utf8Encode_toList, List.utf8Encode,
    List.data_toByteArray]
  rfl

theorem utf8ByteSize_ofList (cs : List Char) :
    (String.ofList cs).utf8ByteSize = (encode cs).length := by
  rw [← String.size_toByteArray, ← ByteArray.size_data, ← Array.length_toList,
    ← String.toUTF8_eq_toByteArray, toList_toUTF8, String.toList_ofList]

theorem length_utf8EncodeChar_pos (c : Char) : 0 < (String.utf8EncodeChar c).length := by
  rw [String.length_utf8EncodeChar]
  exact c.utf8Size_pos

theorem length_le_length_encode (cs : List Char) : cs.length ≤ (encode cs).length := by
  induction cs with
  | nil => exact Nat.le_refl 0
  | cons c cs ih =>
      have hpos := length_utf8EncodeChar_pos c
      rw [encode_cons, List.length_append, List.length_cons]
      omega

/-! ## Characters of one byte -/

theorem utf8EncodeChar_ascii (h : c.toNat < 128) : String.utf8EncodeChar c = [c.toUInt8] := by
  refine String.utf8EncodeChar_eq_singleton (Char.utf8Size_eq_one_iff.2 ?_)
  rw [UInt32.le_iff_toNat_le]
  exact Nat.le_of_lt_succ h

theorem char_toUInt8 (h : c.toNat < 128) : char c.toUInt8 = c := by
  refine Char.ext (UInt32.toNat_inj.1 ?_)
  show c.val.toUInt8.toUInt32.toNat = c.val.toNat
  have hlt : c.val.toNat < 128 := h
  rw [UInt8.toNat_toUInt32, UInt32.toNat_toUInt8]
  omega

/-- The bytes of a character that takes more than one of them are no characters of one byte. -/
theorem le_of_mem_utf8EncodeChar (h : 128 ≤ c.toNat) (hb : b ∈ String.utf8EncodeChar c) :
    128 ≤ (char b).toNat := by
  have hle : ¬ c.val.toNat ≤ 127 := by
    show ¬ c.toNat ≤ 127
    omega
  show 128 ≤ b.toUInt32.toNat
  rw [UInt8.toNat_toUInt32]
  rw [String.utf8EncodeChar, if_neg hle] at hb
  split at hb
  · simp only [List.mem_cons, List.not_mem_nil, or_false] at hb
    rcases hb with rfl | rfl <;> rw [UInt8.toNat_ofNat'] <;> omega
  · split at hb
    · simp only [List.mem_cons, List.not_mem_nil, or_false] at hb
      rcases hb with rfl | rfl | rfl <;> rw [UInt8.toNat_ofNat'] <;> omega
    · simp only [List.mem_cons, List.not_mem_nil, or_false] at hb
      rcases hb with rfl | rfl | rfl | rfl <;> rw [UInt8.toNat_ofNat'] <;> omega

/-- Only characters of one byte pass the test. -/
def OnlyAscii (test : Char → Bool) : Prop := ∀ c, test c = true → c.toNat < 128

variable {test : Char → Bool}

theorem OnlyAscii.beq (hd : d.toNat < 128) : OnlyAscii (· == d) := by
  intro c hc
  rw [beq_iff_eq.1 hc]
  exact hd

theorem OnlyAscii.eq_false (h : OnlyAscii test) (hc : 128 ≤ c.toNat) : test c = false := by
  rw [Bool.eq_false_iff]
  intro htest
  have hlt := h c htest
  omega

/-- A test says the same of a character and of its first byte. -/
theorem OnlyAscii.of_first (h : OnlyAscii test) (hb : String.utf8EncodeChar c = b :: bs) :
    test (char b) = test c := by
  by_cases hc : c.toNat < 128
  · rw [utf8EncodeChar_ascii hc, List.cons.injEq] at hb
    rw [← hb.1, char_toUInt8 hc]
  · have hc' := Nat.le_of_not_lt hc
    rw [h.eq_false hc', h.eq_false (le_of_mem_utf8EncodeChar hc' (hb ▸ List.mem_cons_self))]

/-- No byte of a character passes the test, if the character does not. -/
theorem OnlyAscii.of_mem (h : OnlyAscii test) (hc : test c = false)
    (hb : b ∈ String.utf8EncodeChar c) : test (char b) = false := by
  by_cases hlt : c.toNat < 128
  · rw [utf8EncodeChar_ascii hlt, List.mem_singleton] at hb
    rw [hb, char_toUInt8 hlt, hc]
  · exact h.eq_false (le_of_mem_utf8EncodeChar (Nat.le_of_not_lt hlt) hb)

theorem exists_first (c : Char) : ∃ b bs, String.utf8EncodeChar c = b :: bs :=
  List.exists_cons_of_length_pos (length_utf8EncodeChar_pos c)

/-! ## Searching and counting -/

/-- A byte that is a character is in a text only if the character is. -/
theorem beq_eq_false_of_mem_encode (hd : d.toNat < 128) (h : d ∉ cs) (hb : b ∈ encode cs) :
    (char b == d) = false := by
  obtain ⟨c, hc, hb⟩ := List.mem_flatMap.1 hb
  exact (OnlyAscii.beq hd).of_mem (beq_false_of_ne fun heq => h (heq ▸ hc)) hb

theorem memchr_eq_none (hd : d.toNat < 128) (h : d ∉ cs) : memchr d (encode cs) = none :=
  List.findIdx?_eq_none_iff.2 fun _ hb => beq_eq_false_of_mem_encode hd h hb

/-- The search for a byte finds the first such character. -/
theorem memchr_eq_some (hd : d.toNat < 128) (h : d ∉ cs) (ds : List Char) :
    memchr d (encode (cs ++ d :: ds)) = some (encode cs).length := by
  have hfound : (char d.toUInt8 == d) = true := by rw [char_toUInt8 hd, beq_self_eq_true]
  have hnone : (encode cs).findIdx? (char · == d) = none := memchr_eq_none hd h
  rw [memchr, encode_append, List.findIdx?_append, hnone, encode_cons, utf8EncodeChar_ascii hd,
    List.singleton_append, List.findIdx?_cons, if_pos hfound, Option.map_some, Nat.zero_add]
  rfl

theorem countP_encode (hd : d.toNat < 128) (cs : List Char) :
    (encode cs).countP (char · == d) = cs.count d := by
  induction cs with
  | nil => rfl
  | cons c cs ih =>
      rw [encode_cons, List.countP_append, ih, List.count_cons, Nat.add_comm]
      congr 1
      by_cases hc : c = d
      · subst hc
        rw [utf8EncodeChar_ascii hd, List.countP_singleton, char_toUInt8 hd]
      · rw [List.countP_eq_zero.2 fun b hb => ?_, if_neg (by simpa using hc)]
        rw [(OnlyAscii.beq hd).of_mem (beq_false_of_ne hc) hb]
        exact Bool.false_ne_true

end

/-! ## Slices -/

section

variable {source : String} {read text after : List Char}

/-- The place after the first characters of a source is between two of its characters. -/
theorem isValid_length_encode (h : source.toList = read ++ after) :
    (String.Pos.Raw.mk (encode read).length).IsValid source := by
  refine String.Pos.Raw.isValid_iff_exists_append.2
    ⟨String.ofList read, String.ofList after, ?_, ?_⟩
  · rw [← String.ofList_append, ← h, String.ofList_toList]
  · rw [← utf8ByteSize_ofList]
    rfl

/-- The bytes of a part of a source. -/
theorem extract_toByteArray (h : source.toList = read ++ text ++ after) :
    source.toByteArray.extract (encode read).length (encode (read ++ text)).length =
      (String.ofList text).toByteArray := by
  have hsource : source = String.ofList read ++ (String.ofList text ++ String.ofList after) := by
    rw [← String.ofList_append, ← String.ofList_append, ← List.append_assoc, ← h,
      String.ofList_toList]
  have hsize : ∀ cs, (String.ofList cs).toByteArray.size = (encode cs).length := fun cs => by
    rw [String.size_toByteArray, utf8ByteSize_ofList]
  have hread := hsize read
  rw [hsource, String.toByteArray_append, String.toByteArray_append, encode_append,
    List.length_append, ← hread, ← hsize text]
  exact (ByteArray.extract_append_size_add (i := 0)).trans
    (ByteArray.extract_append_eq_left rfl)

/-- What is cut off between two characters. -/
theorem slice?_eq (h : source.toList = read ++ text ++ after) :
    slice? source (encode read).length (encode (read ++ text)).length =
      some (String.ofList text) := by
  have hstart := isValid_length_encode (h.trans (List.append_assoc read text after))
  have hstop := isValid_length_encode h
  have hle : (encode read).length ≤ (encode (read ++ text)).length := by
    rw [encode_append, List.length_append]
    exact Nat.le_add_right _ _
  rw [slice?, dif_pos ⟨hstart, hstop, hle⟩, Option.some.injEq, ← String.toByteArray_inj,
    String.toByteArray_extract]
  exact extract_toByteArray h

end

end Lox.Bytes
