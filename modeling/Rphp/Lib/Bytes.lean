import Mathlib.Data.List.Basic
import Mathlib.Tactic.Ring

namespace Rphp.Lib
set_option autoImplicit true

/-- Consecutive pieces of a given positive length; the last one may be shorter. -/
def chunks (n : Nat) (l : List α) : List (List α) :=
  if _h : 0 < n ∧ l ≠ [] then l.take n :: chunks n (l.drop n) else []
termination_by l.length
decreasing_by
  have := List.length_pos_of_ne_nil _h.2
  simp only [List.length_drop]
  omega

@[simp] theorem chunks_nil (n : Nat) : chunks n ([] : List α) = [] := by
  rw [chunks]
  simp

theorem chunks_of_ne_nil {l : List α} (hn : 0 < n) (hl : l ≠ []) :
    chunks n l = l.take n :: chunks n (l.drop n) := by
  rw [chunks, dif_pos ⟨hn, hl⟩]

/-- Induction over a list by whole pieces. -/
theorem chunks_induction {motive : List α → Prop} (n : Nat) (hn : 0 < n) (nil : motive [])
    (step : ∀ l, l ≠ [] → motive (l.drop n) → motive l) (l : List α) : motive l := by
  induction hk : l.length using Nat.strongRecOn generalizing l with
  | ind k ih =>
    by_cases hl : l = []
    · rw [hl]
      exact nil
    · have hpos := List.length_pos_of_ne_nil hl
      apply step l hl
      apply ih (l.drop n).length _ _ rfl
      simp only [List.length_drop]
      omega

/-- A part of a list, when its bounds are in order and in range. -/
def slice (l : List α) (start stop : Nat) : Option (List α) :=
  if start ≤ stop ∧ stop ≤ l.length then some ((l.drop start).take (stop - start)) else none

theorem slice_eq_some : slice l start stop = some part ↔
    start ≤ stop ∧ stop ≤ l.length ∧ (l.drop start).take (stop - start) = part := by
  unfold slice
  split
  · rename_i h
    rw [Option.some.injEq, ← and_assoc, and_iff_right h]
  · rename_i h
    simp only [reduceCtorEq, false_iff, ← and_assoc]
    exact fun hpart => h hpart.1

theorem slice_add {l : List α} (h : start + n ≤ l.length) :
    slice l start (start + n) = some ((l.drop start).take n) :=
  slice_eq_some.mpr ⟨Nat.le_add_right _ _, h, by rw [Nat.add_sub_cancel_left]⟩

theorem slice_length (h : slice l start stop = some part) : part.length = stop - start := by
  obtain ⟨hle, hstop, rfl⟩ := slice_eq_some.mp h
  rw [List.length_take, List.length_drop]
  omega

theorem slice_append (before middle after : List α) :
    slice (before ++ middle ++ after) before.length (before.length + middle.length) =
      some middle := by
  rw [slice_add (by simp), List.append_assoc, List.drop_left, List.take_left]

/-- A decidable fact about every byte is checked on the 256 values. -/
theorem forall_byte {p : UInt8 → Prop} (h : ∀ i : Fin 256, p (UInt8.ofFin i)) (byte : UInt8) :
    p byte := by
  rw [← UInt8.ofFin_toFin byte]
  exact h byte.toFin

inductive ByteOrder
  | little
  | big
  deriving DecidableEq, Repr

/-- The low bytes of a number, the lowest first. -/
def littleBytes : Nat → Nat → List UInt8
  | 0, _ => []
  | width + 1, n => UInt8.ofNat n :: littleBytes width (n / 256)

/-- The number that bytes stand for, the lowest first. -/
def ofLittleBytes : List UInt8 → Nat
  | [] => 0
  | byte :: bytes => byte.toNat + 256 * ofLittleBytes bytes

def toBytes (order : ByteOrder) (width n : Nat) : List UInt8 :=
  match order with
  | .little => littleBytes width n
  | .big => (littleBytes width n).reverse

def ofBytes (order : ByteOrder) (bytes : List UInt8) : Nat :=
  match order with
  | .little => ofLittleBytes bytes
  | .big => ofLittleBytes bytes.reverse

theorem littleBytes_length (width n : Nat) : (littleBytes width n).length = width := by
  induction width generalizing n with
  | zero => rfl
  | succ width ih => rw [littleBytes, List.length_cons, ih]

theorem ofLittleBytes_littleBytes (width n : Nat) :
    ofLittleBytes (littleBytes width n) = n % 256 ^ width := by
  induction width generalizing n with
  | zero => simp [littleBytes, ofLittleBytes, Nat.mod_one]
  | succ width ih =>
    have hpow : 256 ^ (width + 1) = 256 * 256 ^ width := by rw [Nat.pow_succ, Nat.mul_comm]
    rw [littleBytes, ofLittleBytes, ih, UInt8.toNat_ofNat', hpow, Nat.mod_mul]

theorem ofLittleBytes_lt (bytes : List UInt8) : ofLittleBytes bytes < 256 ^ bytes.length := by
  induction bytes with
  | nil => exact Nat.one_pos
  | cons byte bytes ih =>
    have hbyte := byte.toNat_lt
    rw [ofLittleBytes, List.length_cons, Nat.pow_succ]
    omega

theorem littleBytes_ofLittleBytes (bytes : List UInt8) :
    littleBytes bytes.length (ofLittleBytes bytes) = bytes := by
  induction bytes with
  | nil => rfl
  | cons byte bytes ih =>
    have hbyte := byte.toNat_lt
    have hdiv : (byte.toNat + 256 * ofLittleBytes bytes) / 256 = ofLittleBytes bytes := by omega
    have hlow : UInt8.ofNat (byte.toNat + 256 * ofLittleBytes bytes) = byte := by
      apply UInt8.toNat.inj
      rw [UInt8.toNat_ofNat']
      omega
    rw [List.length_cons, ofLittleBytes, littleBytes, hdiv, ih, hlow]

@[simp] theorem toBytes_length (order : ByteOrder) (width n : Nat) :
    (toBytes order width n).length = width := by
  cases order with
  | little => exact littleBytes_length width n
  | big => rw [toBytes, List.length_reverse, littleBytes_length]

/-- A number is read back modulo the width it was written with. -/
@[simp] theorem ofBytes_toBytes (order : ByteOrder) (width n : Nat) :
    ofBytes order (toBytes order width n) = n % 256 ^ width := by
  cases order with
  | little => exact ofLittleBytes_littleBytes width n
  | big =>
    rw [toBytes, ofBytes, List.reverse_reverse]
    exact ofLittleBytes_littleBytes width n

theorem ofBytes_lt (order : ByteOrder) (bytes : List UInt8) :
    ofBytes order bytes < 256 ^ bytes.length := by
  cases order with
  | little => exact ofLittleBytes_lt bytes
  | big =>
    rw [ofBytes, ← List.length_reverse]
    exact ofLittleBytes_lt bytes.reverse

/-- Bytes are the only ones of their number that stand for the number they stand for. -/
theorem toBytes_ofBytes (order : ByteOrder) (bytes : List UInt8) :
    toBytes order bytes.length (ofBytes order bytes) = bytes := by
  cases order with
  | little => exact littleBytes_ofLittleBytes bytes
  | big =>
    have h := littleBytes_ofLittleBytes bytes.reverse
    rw [List.length_reverse] at h
    rw [toBytes, ofBytes, h, List.reverse_reverse]

/-! Finding a byte in a word without looking at its bytes one by one. -/

/-- A number of bytes with one value. -/
def repeatedByte (byte : UInt8) (n : Nat) : Nat := ofLittleBytes (List.replicate n byte)

/-- The high bits that are set by the subtraction of one from every byte, outside bytes with a high
bit of their own. -/
def zeroFlags (n x : Nat) : Nat :=
  (x + 256 ^ n - repeatedByte 1 n) % 256 ^ n &&& (256 ^ n - 1 - x) &&& repeatedByte 128 n

section Numbers

theorem repeatedByte_succ (byte : UInt8) (n : Nat) :
    repeatedByte byte (n + 1) = byte.toNat + 256 * repeatedByte byte n := rfl

theorem repeatedByte_lt (byte : UInt8) (n : Nat) : repeatedByte byte n < 256 ^ n := by
  have h := ofLittleBytes_lt (List.replicate n byte)
  rwa [List.length_replicate] at h

theorem xor_split {a c : Nat} (hb : b < 256) (hd : d < 256) :
    (b + 256 * a) ^^^ (d + 256 * c) = (b ^^^ d) + 256 * (a ^^^ c) := by
  have hxor : b ^^^ d < 2 ^ 8 := Nat.xor_lt_two_pow hb hd
  have hdiv := Nat.xor_div_two_pow (a := b + 256 * a) (b := d + 256 * c) (n := 8)
  have hmod := Nat.xor_mod_two_pow (a := b + 256 * a) (b := d + 256 * c) (n := 8)
  rw [show (2 : Nat) ^ 8 = 256 from rfl] at hdiv hmod hxor
  rw [show (b + 256 * a) / 256 = a by omega, show (d + 256 * c) / 256 = c by omega] at hdiv
  rw [show (b + 256 * a) % 256 = b by omega, show (d + 256 * c) % 256 = d by omega] at hmod
  omega

theorem and_split {a c : Nat} (hb : b < 256) (hd : d < 256) :
    (b + 256 * a) &&& (d + 256 * c) = (b &&& d) + 256 * (a &&& c) := by
  have hand : b &&& d < 2 ^ 8 := Nat.and_lt_two_pow b hd
  have hdiv := Nat.and_div_two_pow (a := b + 256 * a) (b := d + 256 * c) (n := 8)
  have hmod := Nat.and_mod_two_pow (a := b + 256 * a) (b := d + 256 * c) (n := 8)
  rw [show (2 : Nat) ^ 8 = 256 from rfl] at hdiv hmod hand
  rw [show (b + 256 * a) / 256 = a by omega, show (d + 256 * c) / 256 = c by omega] at hdiv
  rw [show (b + 256 * a) % 256 = b by omega, show (d + 256 * c) % 256 = d by omega] at hmod
  omega

end Numbers

section Flags

/-- The byte after the subtraction of one, outside a high bit of its own, has no high bit. -/
theorem byte_flag_eq_zero (byte : UInt8) (h : byte ≠ 0) :
    (byte.toNat - 1) &&& (255 - byte.toNat) &&& 128 = 0 := by
  revert byte
  exact forall_byte (by decide +kernel)

/-- The lowest byte sets its flag when it is zero; otherwise it leaves no borrow, and the flags
above are those of the bytes above. -/
theorem zeroFlags_succ (byte : UInt8) (hx : x < 256 ^ n) :
    zeroFlags (n + 1) (byte.toNat + 256 * x) ≠ 0 ↔ byte = 0 ∨ zeroFlags n x ≠ 0 := by
  have hbyte := byte.toNat_lt
  have hone : (1 : UInt8).toNat = 1 := rfl
  have hhigh : (128 : UInt8).toNat = 128 := rfl
  have hones := repeatedByte_lt 1 n
  have hpow : 256 ^ (n + 1) = 256 * 256 ^ n := by rw [Nat.pow_succ, Nat.mul_comm]
  have hnot : 256 ^ (n + 1) - 1 - (byte.toNat + 256 * x) =
      (255 - byte.toNat) + 256 * (256 ^ n - 1 - x) := by omega
  have hsub : (byte.toNat + 256 * x + 256 ^ (n + 1) - repeatedByte 1 (n + 1)) % 256 ^ (n + 1) =
      (byte.toNat + 256 * (x + 256 ^ n - repeatedByte 1 n) - 1) % (256 * 256 ^ n) := by
    rw [hpow, repeatedByte_succ, hone]
    congr 1
    omega
  rw [zeroFlags, hsub, hnot, repeatedByte_succ, hhigh, Nat.mod_mul]
  by_cases hzero : byte = 0
  · have hnat : byte.toNat = 0 := by rw [hzero]; rfl
    have hlow : (byte.toNat + 256 * (x + 256 ^ n - repeatedByte 1 n) - 1) % 256 = 255 := by omega
    rw [hlow, hnat, and_split (by decide) (by decide), and_split (by decide) (by decide)]
    simp only [hzero, true_or, iff_true]
    have hflag : 255 &&& (255 - 0) &&& 128 = 128 := by decide
    omega
  · have hpos : 0 < byte.toNat := by
      rcases Nat.eq_zero_or_pos byte.toNat with h | h
      · exact absurd (UInt8.toNat_inj.mp h) hzero
      · exact h
    have hlow : (byte.toNat + 256 * (x + 256 ^ n - repeatedByte 1 n) - 1) % 256 =
        byte.toNat - 1 := by omega
    have hhigher : (byte.toNat + 256 * (x + 256 ^ n - repeatedByte 1 n) - 1) / 256 =
        x + 256 ^ n - repeatedByte 1 n := by omega
    have hand : (byte.toNat - 1) &&& (255 - byte.toNat) < 256 :=
      lt_of_le_of_lt Nat.and_le_left (by omega)
    rw [hlow, hhigher, and_split (by omega) (by omega), and_split hand (by decide),
      byte_flag_eq_zero byte hzero, ← zeroFlags]
    simp only [hzero, false_or]
    omega

theorem xor_lt (bytes : List UInt8) (byte : UInt8) :
    ofLittleBytes bytes ^^^ repeatedByte byte bytes.length < 256 ^ bytes.length := by
  have hbytes := ofLittleBytes_lt bytes
  have hbyte := repeatedByte_lt byte bytes.length
  rw [show 256 = 2 ^ 8 from rfl, ← Nat.pow_mul] at *
  exact Nat.xor_lt_two_pow hbytes hbyte

/-- The flags find out whether a byte occurs. -/
theorem zeroFlags_xor_ne_zero (byte : UInt8) (bytes : List UInt8) :
    zeroFlags bytes.length (ofLittleBytes bytes ^^^ repeatedByte byte bytes.length) ≠ 0 ↔
      byte ∈ bytes := by
  induction bytes with
  | nil => simp [zeroFlags, repeatedByte, ofLittleBytes]
  | cons first bytes ih =>
    have hsplit := xor_split (a := ofLittleBytes bytes) (c := repeatedByte byte bytes.length)
      first.toNat_lt byte.toNat_lt
    rw [List.length_cons, ofLittleBytes, repeatedByte_succ, hsplit, ← UInt8.toNat_xor,
      zeroFlags_succ _ (xor_lt bytes byte), ih, List.mem_cons, UInt8.xor_eq_zero_iff, eq_comm]

end Flags

/-! Numbers written with a fixed number of hexadecimal digits. -/

def hexCharacter (digit : Nat) : UInt8 :=
  UInt8.ofNat (if digit < 10 then 48 + digit else 87 + digit)

/-- The value of a hexadecimal digit in either case. -/
def hexValue (byte : UInt8) : Option Nat :=
  if 48 ≤ byte ∧ byte ≤ 57 then some (byte.toNat - 48)
  else if 65 ≤ byte ∧ byte ≤ 70 then some (byte.toNat - 55)
  else if 97 ≤ byte ∧ byte ≤ 102 then some (byte.toNat - 87)
  else none

/-- The low digits of a number, the highest of them first. -/
def toHex : Nat → Nat → List UInt8
  | 0, _ => []
  | width + 1, n => toHex width (n / 16) ++ [hexCharacter (n % 16)]

def ofHex (digits : List UInt8) : Option Nat :=
  digits.foldlM (fun n digit => (hexValue digit).map (16 * n + ·)) 0

theorem hexValue_hexCharacter (h : digit < 16) : hexValue (hexCharacter digit) = some digit := by
  revert digit
  decide

@[simp] theorem toHex_length (width n : Nat) : (toHex width n).length = width := by
  induction width generalizing n with
  | zero => rfl
  | succ width ih => rw [toHex, List.length_append, ih, List.length_singleton]

theorem toHex_all (width n : Nat) : (toHex width n).all (fun digit => (hexValue digit).isSome) := by
  induction width generalizing n with
  | zero => rfl
  | succ width ih =>
    have hlast := hexValue_hexCharacter (Nat.mod_lt n (show 0 < 16 by decide))
    rw [toHex, List.all_append, ih, List.all_cons, hlast]
    rfl

/-- A number is read back modulo the width it was written with. -/
theorem ofHex_toHex (width n : Nat) : ofHex (toHex width n) = some (n % 16 ^ width) := by
  induction width generalizing n with
  | zero => simp [toHex, ofHex, Nat.mod_one]
  | succ width ih =>
    have hlast := hexValue_hexCharacter (Nat.mod_lt n (show 0 < 16 by decide))
    have hpow : 16 ^ (width + 1) = 16 * 16 ^ width := by rw [Nat.pow_succ, Nat.mul_comm]
    simp only [ofHex] at ih ⊢
    rw [toHex, List.foldlM_append, ih, hpow, Nat.mod_mul, Nat.add_comm]
    simp [hlast]

end Rphp.Lib
