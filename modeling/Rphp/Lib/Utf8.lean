import Mathlib.Data.List.Basic

namespace Rphp.Lib
set_option autoImplicit true

/-- The bytes of a text. -/
def utf8 (text : List Char) : List UInt8 :=
  text.flatMap String.utf8EncodeChar

def isContinuation (byte : UInt8) : Bool := 0x80 ≤ byte ∧ byte ≤ 0xbf

/-- Whether bytes are the text of characters: no overlong forms, no surrogates. -/
def isUtf8 : List UInt8 → Bool
  | [] => true
  | a :: rest =>
    if a < 0x80 then isUtf8 rest
    else if 0xc2 ≤ a ∧ a ≤ 0xdf then
      match rest with
      | b :: rest => isContinuation b && isUtf8 rest
      | _ => false
    else if 0xe0 ≤ a ∧ a ≤ 0xef then
      match rest with
      | b :: c :: rest =>
        (isContinuation b && (a != 0xe0 || 0xa0 ≤ b) && (a != 0xed || b ≤ 0x9f)) &&
          isContinuation c && isUtf8 rest
      | _ => false
    else if 0xf0 ≤ a ∧ a ≤ 0xf4 then
      match rest with
      | b :: c :: d :: rest =>
        (isContinuation b && (a != 0xf0 || 0x90 ≤ b) && (a != 0xf4 || b ≤ 0x8f)) &&
          isContinuation c && isContinuation d && isUtf8 rest
      | _ => false
    else false

/-- The part of a text from a byte offset on, when the offset is a character boundary. -/
def sliceFrom : List Char → Nat → Option (List Char)
  | text, 0 => some text
  | [], _ + 1 => none
  | c :: text, offset + 1 =>
    if (String.utf8EncodeChar c).length ≤ offset + 1 then
      sliceFrom text (offset + 1 - (String.utf8EncodeChar c).length)
    else none

def isAsciiChar (c : Char) : Bool := c.toNat < 128

theorem utf8_cons (c : Char) (text : List Char) :
    utf8 (c :: text) = String.utf8EncodeChar c ++ utf8 text := rfl

theorem utf8_append (a b : List Char) : utf8 (a ++ b) = utf8 a ++ utf8 b :=
  List.flatMap_append

theorem utf8EncodeChar_ascii (h : isAsciiChar c = true) :
    String.utf8EncodeChar c = [UInt8.ofNat c.toNat] := by
  have hc : c.val.toNat ≤ 0x7f := by
    have : c.toNat < 128 := by simpa [isAsciiChar] using h
    exact Nat.le_of_lt_succ this
  rw [String.utf8EncodeChar, if_pos hc]
  rfl

theorem toNat_ofNat_add (h : n + base < 256) : (UInt8.ofNat (n + base)).toNat = n + base :=
  UInt8.toNat_ofNat_of_lt' h

/-- A character outside ASCII takes several bytes, all outside ASCII. -/
theorem utf8EncodeChar_wide (h : isAsciiChar c = false) :
    1 < (String.utf8EncodeChar c).length ∧
      ∀ byte ∈ String.utf8EncodeChar c, 128 ≤ byte.toNat := by
  have hc : ¬ c.val.toNat ≤ 0x7f := by
    have : ¬ c.toNat < 128 := by simpa [isAsciiChar] using h
    intro hle
    exact this (Nat.lt_succ_of_le hle)
  simp only [String.utf8EncodeChar, if_neg hc]
  generalize c.val.toNat = v
  split
  · refine ⟨by simp, ?_⟩
    simp only [List.forall_mem_cons, List.not_mem_nil, false_imp_iff, implies_true, and_true]
    rw [toNat_ofNat_add (by omega), toNat_ofNat_add (by omega)]
    omega
  · split
    · refine ⟨by simp, ?_⟩
      simp only [List.forall_mem_cons, List.not_mem_nil, false_imp_iff, implies_true, and_true]
      rw [toNat_ofNat_add (by omega), toNat_ofNat_add (by omega), toNat_ofNat_add (by omega)]
      omega
    · refine ⟨by simp, ?_⟩
      simp only [List.forall_mem_cons, List.not_mem_nil, false_imp_iff, implies_true, and_true]
      rw [toNat_ofNat_add (by omega), toNat_ofNat_add (by omega), toNat_ofNat_add (by omega),
        toNat_ofNat_add (by omega)]
      omega

/-- Past a prefix of ASCII characters an offset is a boundary. -/
theorem sliceFrom_ascii {before : List Char} (h : ∀ c ∈ before, isAsciiChar c = true)
    (after : List Char) : sliceFrom (before ++ after) before.length = some after := by
  induction before with
  | nil => rw [List.nil_append, List.length_nil, sliceFrom]
  | cons c before ih =>
    have hc : (String.utf8EncodeChar c).length = 1 := by
      rw [utf8EncodeChar_ascii (h c (by simp))]
      rfl
    rw [List.cons_append, List.length_cons, sliceFrom, hc, if_pos (by omega), Nat.add_sub_cancel]
    exact ih fun d hd => h d (by simp [hd])

/-- Bytes inside ASCII at the front of a text are characters of it. -/
theorem exists_ascii_of_take {text : List Char} (hk : k ≤ (utf8 text).length)
    (h : ∀ byte ∈ (utf8 text).take k, byte.toNat < 128) :
    ∃ before after, text = before ++ after ∧ before.length = k ∧
      ∀ c ∈ before, isAsciiChar c = true := by
  induction text generalizing k with
  | nil =>
    have hzero : k = 0 := Nat.le_zero.mp hk
    exact ⟨[], [], rfl, hzero.symm, nofun⟩
  | cons c text ih =>
    cases k with
    | zero => exact ⟨[], c :: text, rfl, rfl, nofun⟩
    | succ k =>
      cases hc : isAsciiChar c with
      | true =>
        have hbytes : utf8 (c :: text) = UInt8.ofNat c.toNat :: utf8 text := by
          rw [utf8_cons, utf8EncodeChar_ascii hc]
          rfl
        rw [hbytes, List.length_cons] at hk
        rw [hbytes, List.take_succ_cons, List.forall_mem_cons] at h
        obtain ⟨before, after, rfl, hlength, hascii⟩ := ih (by omega) h.2
        refine ⟨c :: before, after, rfl, by simp [hlength], ?_⟩
        exact List.forall_mem_cons.mpr ⟨hc, hascii⟩
      | false =>
        obtain ⟨hlength, hwide⟩ := utf8EncodeChar_wide hc
        cases hbytes : String.utf8EncodeChar c with
        | nil => simp [hbytes] at hlength
        | cons lead tail =>
          rw [utf8_cons, hbytes, List.cons_append, List.take_succ_cons, List.forall_mem_cons] at h
          have := hwide lead (by simp [hbytes])
          omega

/-- An offset of one byte into a wide character is no boundary. -/
theorem sliceFrom_one_wide (h : isAsciiChar c = false) (text : List Char) :
    sliceFrom (c :: text) 1 = none := by
  rw [sliceFrom, if_neg (by have := (utf8EncodeChar_wide h).1; omega)]

end Rphp.Lib
