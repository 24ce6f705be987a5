import Mathlib.Tactic.IntervalCases
import Rphp.Lib.Bytes

namespace Rphp.Codec.Base64
set_option autoImplicit true

open Rphp.Lib

/-- The alphabet: capital letters, small letters, digits, plus and slash. -/
def table : List UInt8 :=
  [65, 66, 67, 68, 69, 70, 71, 72, 73, 74, 75, 76, 77, 78, 79, 80, 81, 82, 83, 84, 85, 86, 87, 88,
    89, 90, 97, 98, 99, 100, 101, 102, 103, 104, 105, 106, 107, 108, 109, 110, 111, 112, 113, 114,
    115, 116, 117, 118, 119, 120, 121, 122, 48, 49, 50, 51, 52, 53, 54, 55, 56, 57, 43, 47]

/-- The value of each byte of the alphabet at that byte, and 255 at every other one. -/
def decodeTable : List UInt8 :=
  (List.range table.length).foldl
    (fun values index => values.set (table.getD index 0).toNat (UInt8.ofNat index))
    (List.replicate 256 255)

def tableAt (index : UInt32) : UInt8 := table.getD index.toNat 0

def decodeTableAt (byte : UInt8) : UInt8 := decodeTable.getD byte.toNat 255

def triple (chunk : List UInt8) : UInt32 :=
  let b0 := (chunk.getD 0 0).toUInt32
  let b1 := (chunk.getD 1 0).toUInt32
  let b2 := (chunk.getD 2 0).toUInt32
  b0 <<< 16 ||| b1 <<< 8 ||| b2

/-- The four characters of a chunk of up to three bytes. -/
def encodeChunk (chunk : List UInt8) : List UInt8 :=
  [tableAt ((triple chunk >>> 18) &&& 0x3f),
    tableAt ((triple chunk >>> 12) &&& 0x3f),
    if chunk.length > 1 then tableAt ((triple chunk >>> 6) &&& 0x3f) else 61,
    if chunk.length > 2 then tableAt (triple chunk &&& 0x3f) else 61]

def encode (data : List UInt8) : List UInt8 := (chunks 3 data).flatMap encodeChunk

/-- The bytes written so far and the bits that do not fill a byte yet. -/
structure Accumulator where
  out : List UInt8
  buf : UInt32
  bits : UInt32
deriving DecidableEq, Repr

def Accumulator.push (a : Accumulator) (val : UInt8) : Accumulator :=
  let buf := a.buf <<< 6 ||| val.toUInt32
  let bits := a.bits + 6
  if bits ≥ 8 then
    ⟨a.out ++ [(buf >>> (bits - 8)).toUInt8], buf &&& (1 <<< (bits - 8) - 1), bits - 8⟩
  else ⟨a.out, buf, bits⟩

def looseStep (a : Accumulator) (byte : UInt8) : Accumulator :=
  if decodeTableAt byte = 255 then a else a.push (decodeTableAt byte)

def decodeLoose (input : List UInt8) : List UInt8 := (input.foldl looseStep ⟨[], 0, 0⟩).out

structure StrictState where
  acc : Accumulator
  digits : Nat
  padding : Nat
  sawPadding : Bool
deriving DecidableEq, Repr

def isWhitespace (byte : UInt8) : Bool := byte = 10 || byte = 13 || byte = 32 || byte = 9

/-- One byte of the loop of `decodeStrict`; no state is left once the input is refused. -/
def strictStep (s : StrictState) (byte : UInt8) : Option StrictState :=
  if decodeTableAt byte = 255 then
    if isWhitespace byte then some s
    else if byte = 61 then some { s with sawPadding := true, padding := s.padding + 1 }
    else none
  else if s.sawPadding then none
  else some { s with digits := s.digits + 1, acc := s.acc.push (decodeTableAt byte) }

/-- The number of padding characters that completes a run of digits. -/
def expectedPadding (remainder : Nat) : Option Nat :=
  match remainder with
  | 2 => some 2
  | 3 => some 1
  | _ => none

def strictFinish (s : StrictState) : Option (List UInt8) :=
  let remainder := s.digits % 4
  if remainder = 1 then none
  else if s.padding ≠ 0 then
    match expectedPadding remainder with
    | none => none
    | some expected => if s.padding ≠ expected then none else some s.acc.out
  else some s.acc.out

def decodeStrict (input : List UInt8) : Option (List UInt8) :=
  (input.foldlM strictStep ⟨⟨[], 0, 0⟩, 0, 0, false⟩).bind strictFinish

def decode (input : List UInt8) (strict : Bool) : Option (List UInt8) :=
  if !strict then some (decodeLoose input) else decodeStrict input

def IsDigit (byte : UInt8) : Prop := decodeTableAt byte ≠ 255

instance : DecidablePred IsDigit := fun _ => inferInstanceAs (Decidable (_ ≠ _))

theorem decodeTableAt_tableAt (x : UInt32) :
    decodeTableAt (tableAt (x &&& 0x3f)) = (x &&& 0x3f).toUInt8 := by
  have hcheck : ∀ i : Fin 64, decodeTableAt (table.getD i 0) = UInt8.ofNat i := by
    decide +kernel
  have hlt : (x &&& 0x3f).toNat < 64 := by
    rw [UInt32.toNat_and]
    exact Nat.lt_of_le_of_lt Nat.and_le_right (by decide)
  rw [tableAt, hcheck ⟨_, hlt⟩]
  rfl

/-- The bytes of a chunk, from the word they are packed into. -/
theorem triple_bytes (chunk : List UInt8) :
    (triple chunk >>> 16).toUInt8 = chunk.getD 0 0 ∧
    (triple chunk >>> 8).toUInt8 = chunk.getD 1 0 ∧
    (triple chunk).toUInt8 = chunk.getD 2 0 := by
  unfold triple
  generalize chunk.getD 0 0 = a
  generalize chunk.getD 1 0 = b
  generalize chunk.getD 2 0 = c
  refine ⟨?_, ?_, ?_⟩
  all_goals
    apply UInt8.eq_of_toBitVec_eq
    apply BitVec.eq_of_getLsbD_eq
    intro i hi
    interval_cases i <;> simp

/-- The low six bits of a word, as the value of a digit. -/
def sextet (x : UInt32) : UInt8 := (x &&& 0x3f).toUInt8

theorem toUInt32_sextet (x : UInt32) : (sextet x).toUInt32 = x &&& 0x3f := by
  have hlt : (x &&& 0x3f).toNat < 64 := by
    rw [UInt32.toNat_and]
    exact Nat.lt_of_le_of_lt Nat.and_le_right (by decide)
  apply UInt32.toNat.inj
  unfold sextet
  rw [UInt8.toNat_toUInt32, UInt32.toNat_toUInt8]
  omega

theorem join_first (t : UInt32) :
    ((((t >>> 18) &&& 0x3f) <<< 6 ||| ((t >>> 12) &&& 0x3f)) >>> 4).toUInt8 =
      (t >>> 16).toUInt8 := by
  apply UInt8.eq_of_toBitVec_eq
  apply BitVec.eq_of_getLsbD_eq
  intro i hi
  interval_cases i <;> simp

theorem join_second (x t : UInt32) :
    ((((x <<< 6 ||| ((t >>> 12) &&& 0x3f)) &&& 15) <<< 6 ||| ((t >>> 6) &&& 0x3f)) >>> 2).toUInt8 =
      (t >>> 8).toUInt8 := by
  apply UInt8.eq_of_toBitVec_eq
  apply BitVec.eq_of_getLsbD_eq
  intro i hi
  interval_cases i <;> simp

theorem join_third (x t : UInt32) :
    ((((x <<< 6 ||| ((t >>> 6) &&& 0x3f)) &&& 3) <<< 6 ||| (t &&& 0x3f)) >>> 0).toUInt8 =
      t.toUInt8 := by
  apply UInt8.eq_of_toBitVec_eq
  apply BitVec.eq_of_getLsbD_eq
  intro i hi
  interval_cases i <;> simp

theorem push_zero (out : List UInt8) (buf : UInt32) (val : UInt8) :
    (Accumulator.mk out buf 0).push val = ⟨out, buf <<< 6 ||| val.toUInt32, 6⟩ := by
  simp [Accumulator.push]

theorem push_six (out : List UInt8) (buf : UInt32) (val : UInt8) :
    (Accumulator.mk out buf 6).push val =
      ⟨out ++ [((buf <<< 6 ||| val.toUInt32) >>> 4).toUInt8],
        (buf <<< 6 ||| val.toUInt32) &&& 15, 4⟩ := by
  have hmask : (1 : UInt32) <<< 4 - 1 = 15 := rfl
  simp [Accumulator.push, hmask]

theorem push_four (out : List UInt8) (buf : UInt32) (val : UInt8) :
    (Accumulator.mk out buf 4).push val =
      ⟨out ++ [((buf <<< 6 ||| val.toUInt32) >>> 2).toUInt8],
        (buf <<< 6 ||| val.toUInt32) &&& 3, 2⟩ := by
  have hmask : (1 : UInt32) <<< 2 - 1 = 3 := rfl
  simp [Accumulator.push, hmask]

theorem push_two (out : List UInt8) (buf : UInt32) (val : UInt8) :
    (Accumulator.mk out buf 2).push val =
      ⟨out ++ [((buf <<< 6 ||| val.toUInt32) >>> 0).toUInt8], 0, 0⟩ := by
  simp [Accumulator.push]

/-- The values of digits, pushed one after the other. -/
def pushAll (a : Accumulator) (digits : List UInt8) : Accumulator :=
  digits.foldl (fun a byte => a.push (decodeTableAt byte)) a

theorem pushAll_append (a : Accumulator) (digits more : List UInt8) :
    pushAll a (digits ++ more) = pushAll (pushAll a digits) more := List.foldl_append

theorem pushAll_tableAt (a : Accumulator) (x : UInt32) :
    pushAll a [tableAt (x &&& 0x3f)] = a.push (sextet x) := by
  rw [pushAll, List.foldl_cons, decodeTableAt_tableAt]
  rfl

theorem pushAll_two (chunk out : List UInt8) :
    pushAll ⟨out, 0, 0⟩ ((encodeChunk chunk).take 2) =
      ⟨out ++ [chunk.getD 0 0],
        ((triple chunk >>> 18 &&& 0x3f) <<< 6 ||| (triple chunk >>> 12 &&& 0x3f)) &&& 15, 4⟩ := by
  have htake : (encodeChunk chunk).take 2 = [tableAt ((triple chunk >>> 18) &&& 0x3f)] ++
      [tableAt ((triple chunk >>> 12) &&& 0x3f)] := rfl
  rw [htake, pushAll_append, pushAll_tableAt, pushAll_tableAt, push_zero, push_six,
    toUInt32_sextet, toUInt32_sextet, UInt32.zero_shiftLeft, UInt32.zero_or, join_first,
    (triple_bytes chunk).1]

theorem pushAll_three (chunk out : List UInt8) (h : chunk.length > 1) :
    ∃ buf : UInt32, pushAll ⟨out, 0, 0⟩ ((encodeChunk chunk).take 3) =
      ⟨out ++ [chunk.getD 0 0, chunk.getD 1 0],
        (buf <<< 6 ||| (triple chunk >>> 6 &&& 0x3f)) &&& 3, 2⟩ := by
  have htake : (encodeChunk chunk).take 3 =
      (encodeChunk chunk).take 2 ++ [tableAt ((triple chunk >>> 6) &&& 0x3f)] := by
    simp [encodeChunk, h]
  rw [htake, pushAll_append, pushAll_two, pushAll_tableAt, push_four, toUInt32_sextet, join_second,
    (triple_bytes chunk).2.1, List.append_assoc]
  exact ⟨_, rfl⟩

theorem pushAll_four (chunk out : List UInt8) (h : chunk.length > 2) :
    pushAll ⟨out, 0, 0⟩ (encodeChunk chunk) =
      ⟨out ++ [chunk.getD 0 0, chunk.getD 1 0, chunk.getD 2 0], 0, 0⟩ := by
  have happ : encodeChunk chunk =
      (encodeChunk chunk).take 3 ++ [tableAt (triple chunk &&& 0x3f)] := by
    simp [encodeChunk, h]
  obtain ⟨buf, hthree⟩ := pushAll_three chunk out (by omega)
  rw [happ, pushAll_append, hthree, pushAll_tableAt, push_two, toUInt32_sextet, join_third,
    (triple_bytes chunk).2.2, List.append_assoc]
  rfl

/-- Writing values that are not 255 marks the positions they are written to. -/
theorem getD_foldl_set_ne (positions : Nat → Nat) (value : Nat → UInt8) {indices : List Nat}
    (hvalue : ∀ i ∈ indices, value i ≠ 255) {values : List UInt8}
    (hpositions : ∀ i ∈ indices, positions i < values.length) (k : Nat) :
    (indices.foldl (fun values i => values.set (positions i) (value i)) values).getD k 255 ≠ 255 ↔
      (∃ i ∈ indices, positions i = k) ∨ values.getD k 255 ≠ 255 := by
  induction indices generalizing values with
  | nil => simp
  | cons i indices ih =>
    obtain ⟨hvalue, hvalues⟩ := List.forall_mem_cons.mp hvalue
    obtain ⟨hposition, hothers⟩ := List.forall_mem_cons.mp hpositions
    rw [List.foldl_cons, ih hvalues (by simpa using hothers)]
    by_cases hk : positions i = k
    · subst hk
      simp [List.getD_eq_getElem?_getD, List.getElem?_set_self hposition, hvalue]
    · simp [List.getD_eq_getElem?_getD, List.getElem?_set_ne hk, hk]

theorem mem_table_iff (byte : UInt8) : byte ∈ table ↔ IsDigit byte := by
  have hvalue : ∀ i ∈ List.range table.length, UInt8.ofNat i ≠ 255 := by decide +kernel
  have hposition : ∀ i ∈ List.range table.length,
      (table.getD i 0).toNat < (List.replicate 256 (255 : UInt8)).length := by
    intro i _
    rw [List.length_replicate]
    exact UInt8.toNat_lt _
  have hempty : (List.replicate 256 (255 : UInt8)).getD byte.toNat 255 = 255 := by
    rw [List.getD_eq_getElem?_getD, List.getElem?_replicate_of_lt (UInt8.toNat_lt byte)]
    rfl
  have hget : ∀ {i} (hi : i < table.length), table.getD i 0 = table[i] := fun hi => by
    rw [List.getD_eq_getElem?_getD, List.getElem?_eq_getElem hi]
    rfl
  unfold IsDigit decodeTableAt decodeTable
  rw [getD_foldl_set_ne (fun i => (table.getD i 0).toNat) UInt8.ofNat hvalue hposition, hempty]
  simp only [ne_eq, not_true_eq_false, or_false, List.mem_range]
  constructor
  · intro hmem
    obtain ⟨i, hi, hbyte⟩ := List.getElem_of_mem hmem
    exact ⟨i, hi, by rw [hget hi, hbyte]⟩
  · rintro ⟨i, hi, hbyte⟩
    rw [hget hi] at hbyte
    rw [← UInt8.toNat_inj.mp hbyte]
    exact List.getElem_mem hi

theorem tableAt_mem (x : UInt32) : tableAt (x &&& 0x3f) ∈ table := by
  have hlt : (x &&& 0x3f).toNat < table.length := by
    rw [UInt32.toNat_and]
    exact Nat.lt_of_le_of_lt Nat.and_le_right (by decide)
  rw [tableAt, List.getD_eq_getElem?_getD, List.getElem?_eq_getElem hlt]
  exact List.getElem_mem hlt

/-- The padding, if any, completes the last four digits. -/
def Padded (digits padding : Nat) : Prop :=
  digits % 4 ≠ 1 ∧ (padding = 0 ∨ digits % 4 ≠ 0 ∧ digits % 4 + padding = 4)

/-- What is left of an input without its whitespace: a run of digits and its padding. -/
structure Shape (stripped run : List UInt8) (padding : Nat) : Prop where
  eq : stripped = run ++ List.replicate padding 61
  digits : ∀ byte ∈ run, byte ∈ table
  padded : Padded run.length padding

theorem mem_table_of_full (chunk : List UInt8) (h : chunk.length > 2) :
    ∀ byte ∈ encodeChunk chunk, byte ∈ table := by
  have hmore : chunk.length > 1 := by omega
  simp [encodeChunk, tableAt_mem, h, hmore]

/-- An encoded string is a padded run of digits whose values rebuild the bytes. -/
theorem encode_shape (x out : List UInt8) : ∃ run padding, Shape (encode x) run padding ∧
    (pushAll ⟨out, 0, 0⟩ run).out = out ++ x := by
  induction x using chunks_induction 3 (by decide) generalizing out with
  | nil =>
    refine ⟨[], 0, ⟨by simp [encode], nofun, by simp [Padded]⟩, by simp [pushAll]⟩
  | step x hx ih =>
    have hencode : encode x = encodeChunk (x.take 3) ++ encode (x.drop 3) := by
      unfold encode
      rw [chunks_of_ne_nil (by decide) hx, List.flatMap_cons]
    match x, hx with
    | [a], _ =>
      refine ⟨(encodeChunk [a]).take 2, 2, ⟨?_, ?_, ?_⟩, ?_⟩
      · rw [hencode]
        simp [encode, encodeChunk]
      · simp [encodeChunk, tableAt_mem]
      · simp [Padded, encodeChunk]
      · rw [pushAll_two]
        rfl
    | [a, b], _ =>
      obtain ⟨buf, hthree⟩ := pushAll_three [a, b] out (by simp)
      refine ⟨(encodeChunk [a, b]).take 3, 1, ⟨?_, ?_, ?_⟩, ?_⟩
      · rw [hencode]
        simp [encode, encodeChunk]
      · simp [encodeChunk, tableAt_mem]
      · simp [Padded, encodeChunk]
      · rw [hthree]
        rfl
    | a :: b :: c :: rest, _ =>
      obtain ⟨run, padding, hshape, hrun⟩ := ih (out ++ [a, b, c])
      have hfour := pushAll_four [a, b, c] out (by simp)
      refine ⟨encodeChunk [a, b, c] ++ run, padding, ⟨?_, ?_, ?_⟩, ?_⟩
      · rw [hencode, hshape.eq, List.append_assoc]
        rfl
      · intro byte hbyte
        rcases List.mem_append.1 hbyte with h | h
        · exact mem_table_of_full [a, b, c] (by simp) byte h
        · exact hshape.digits byte h
      · have hpad := hshape.padded
        have hlen : (encodeChunk [a, b, c] ++ run).length = run.length + 4 := by
          rw [List.length_append, Nat.add_comm]
          rfl
        unfold Padded at hpad ⊢
        rw [hlen]
        omega
      · rw [pushAll_append, hfour]
        exact hrun.trans (by simp)

/-! The loops over an arbitrary input. -/

def stripped (input : List UInt8) : List UInt8 := input.filter fun byte => !isWhitespace byte

theorem not_isWhitespace_of_mem (byte : UInt8) (h : byte ∈ table) :
    isWhitespace byte = false := by
  have hall : ∀ byte ∈ table, isWhitespace byte = false := by decide +kernel
  exact hall byte h

theorem not_isDigit_of_isWhitespace (byte : UInt8) (h : isWhitespace byte = true) :
    decodeTableAt byte = 255 := by
  by_contra hdigit
  have hmem := (mem_table_iff byte).mpr hdigit
  rw [not_isWhitespace_of_mem byte hmem] at h
  cases h

theorem strictStep_whitespace (s : StrictState) (h : isWhitespace byte = true) :
    strictStep s byte = some s := by
  rw [strictStep, if_pos (not_isDigit_of_isWhitespace byte h), if_pos h]

theorem strictStep_digit (s : StrictState) (h : byte ∈ table) (hs : s.sawPadding = false) :
    strictStep s byte =
      some { s with digits := s.digits + 1, acc := s.acc.push (decodeTableAt byte) } := by
  rw [strictStep, if_neg ((mem_table_iff byte).1 h), hs]
  rfl

theorem strictStep_padding (s : StrictState) :
    strictStep s 61 = some { s with sawPadding := true, padding := s.padding + 1 } := rfl

/-- What a byte that is neither whitespace nor refused can be. -/
theorem strictStep_cases (h : strictStep s byte = some t) (hw : isWhitespace byte = false) :
    (byte = 61 ∧ t = { s with sawPadding := true, padding := s.padding + 1 }) ∨
    (byte ∈ table ∧ s.sawPadding = false ∧
      t = { s with digits := s.digits + 1, acc := s.acc.push (decodeTableAt byte) }) := by
  unfold strictStep at h
  split at h
  · rw [hw] at h
    split at h
    · contradiction
    · split at h
      · rename_i hb
        exact .inl ⟨hb, (Option.some.inj h).symm⟩
      · cases h
  · rename_i hdigit
    split at h
    · cases h
    · rename_i hpad
      exact .inr ⟨(mem_table_iff byte).2 hdigit, by simpa using hpad, (Option.some.inj h).symm⟩

theorem foldlM_stripped (input : List UInt8) (s : StrictState) :
    input.foldlM strictStep s = (stripped input).foldlM strictStep s := by
  induction input generalizing s with
  | nil => rfl
  | cons byte input ih =>
    cases hw : isWhitespace byte with
    | true =>
      have hskip : stripped (byte :: input) = stripped input := by simp [stripped, hw]
      rw [hskip, List.foldlM_cons, strictStep_whitespace s hw]
      exact ih s
    | false =>
      have hkeep : stripped (byte :: input) = byte :: stripped input := by simp [stripped, hw]
      rw [hkeep, List.foldlM_cons, List.foldlM_cons]
      cases strictStep s byte with
      | none => rfl
      | some t => exact ih t

/-- A run of digits goes through the accumulator. -/
theorem foldlM_digits (run : List UInt8) (s : StrictState) (h : ∀ byte ∈ run, byte ∈ table)
    (hs : s.sawPadding = false) :
    run.foldlM strictStep s =
      some { s with digits := s.digits + run.length, acc := pushAll s.acc run } := by
  induction run generalizing s with
  | nil => rfl
  | cons byte run ih =>
    rw [List.foldlM_cons, strictStep_digit s (h byte List.mem_cons_self) hs]
    have hrest := ih { s with digits := s.digits + 1, acc := s.acc.push (decodeTableAt byte) }
      (fun b hb => h b (List.mem_cons_of_mem _ hb)) hs
    refine Eq.trans hrest ?_
    simp only [List.length_cons, pushAll, List.foldl_cons, Option.some.injEq,
      StrictState.mk.injEq, true_and, and_true]
    omega

theorem foldlM_padding (padding : Nat) (s : StrictState) :
    (List.replicate padding 61).foldlM strictStep s =
      some { s with
        padding := s.padding + padding, sawPadding := s.sawPadding || decide (0 < padding) } := by
  induction padding generalizing s with
  | zero => simp
  | succ padding ih =>
    rw [List.replicate_succ, List.foldlM_cons, strictStep_padding]
    refine Eq.trans (ih _) ?_
    simp
    omega

/-- After the first padding character only padding characters are taken. -/
theorem foldlM_sawPadding (rest : List UInt8) (h : rest.foldlM strictStep s = some t)
    (hw : ∀ byte ∈ rest, isWhitespace byte = false) (hs : s.sawPadding = true) :
    rest = List.replicate rest.length 61 := by
  induction rest generalizing s with
  | nil => rfl
  | cons byte rest ih =>
    rw [List.foldlM_cons] at h
    obtain ⟨u, hu, h⟩ := Option.bind_eq_some_iff.1 h
    obtain ⟨rfl, rfl⟩ | ⟨-, hpad, -⟩ := strictStep_cases hu (hw byte List.mem_cons_self)
    · rw [List.length_cons, List.replicate_succ,
        ← ih h (fun b hb => hw b (List.mem_cons_of_mem _ hb)) rfl]
    · rw [hs] at hpad
      cases hpad

/-- What the loop takes is digits and then padding. -/
theorem foldlM_shape (rest : List UInt8) (h : rest.foldlM strictStep s = some t)
    (hw : ∀ byte ∈ rest, isWhitespace byte = false) (hs : s.sawPadding = false) :
    ∃ run padding, rest = run ++ List.replicate padding 61 ∧ ∀ byte ∈ run, byte ∈ table := by
  induction rest generalizing s with
  | nil => exact ⟨[], 0, rfl, nofun⟩
  | cons byte rest ih =>
    have hrest := fun b hb => hw b (List.mem_cons_of_mem byte hb)
    rw [List.foldlM_cons] at h
    obtain ⟨u, hu, h⟩ := Option.bind_eq_some_iff.1 h
    obtain ⟨rfl, rfl⟩ | ⟨hmem, -, rfl⟩ := strictStep_cases hu (hw byte List.mem_cons_self)
    · refine ⟨[], rest.length + 1, ?_, nofun⟩
      rw [List.replicate_succ, ← foldlM_sawPadding rest h hrest rfl]
      rfl
    · obtain ⟨run, padding, hrun, hdigits⟩ := ih h hrest hs
      refine ⟨byte :: run, padding, by rw [hrun]; rfl, ?_⟩
      intro b hb
      rcases List.mem_cons.1 hb with rfl | hb
      · exact hmem
      · exact hdigits b hb

instance : Decidable (Padded digits padding) := inferInstanceAs (Decidable (_ ∧ _))

theorem strictFinish_eq (acc : Accumulator) (digits padding : Nat) (sawPadding : Bool) :
    strictFinish ⟨acc, digits, padding, sawPadding⟩ =
      if Padded digits padding then some acc.out else none := by
  have hcases : digits % 4 = 0 ∨ digits % 4 = 1 ∨ digits % 4 = 2 ∨ digits % 4 = 3 := by omega
  by_cases hp : Padded digits padding
  · rw [if_pos hp]
    unfold Padded at hp
    rcases hcases with h | h | h | h <;> simp only [h] at hp
    · simp [strictFinish, h, show padding = 0 by omega]
    · exact absurd rfl hp.1
    · by_cases hz : padding = 0
      · simp [strictFinish, h, hz]
      · simp [strictFinish, h, expectedPadding, show padding = 2 by omega]
    · by_cases hz : padding = 0
      · simp [strictFinish, h, hz]
      · simp [strictFinish, h, expectedPadding, show padding = 1 by omega]
  · rw [if_neg hp]
    unfold Padded at hp
    rcases hcases with h | h | h | h <;> simp only [h] at hp
    · simp [strictFinish, h, expectedPadding, show padding ≠ 0 by omega]
    · simp [strictFinish, h]
    · simp [strictFinish, h, expectedPadding, show padding ≠ 0 by omega,
        show padding ≠ 2 by omega]
    · simp [strictFinish, h, expectedPadding, show padding ≠ 0 by omega,
        show padding ≠ 1 by omega]

/-- Strict decoding of digits and padding, wherever whitespace stands between them. -/
theorem decodeStrict_eq (h : stripped input = run ++ List.replicate padding 61)
    (hdigits : ∀ byte ∈ run, byte ∈ table) :
    decodeStrict input =
      if Padded run.length padding then some (pushAll ⟨[], 0, 0⟩ run).out else none := by
  rw [decodeStrict, foldlM_stripped, h, List.foldlM_append, foldlM_digits run _ hdigits rfl]
  simp only [bind, Option.bind_some, foldlM_padding, strictFinish_eq, Nat.zero_add]

theorem decodeStrict_isSome_iff (input : List UInt8) :
    (decodeStrict input).isSome ↔ ∃ run padding, Shape (stripped input) run padding := by
  constructor
  · intro h
    obtain ⟨z, hz⟩ := Option.isSome_iff_exists.1 h
    obtain ⟨t, ht, -⟩ := Option.bind_eq_some_iff.1 hz
    rw [foldlM_stripped] at ht
    obtain ⟨run, padding, hrun, hdigits⟩ := foldlM_shape (stripped input) ht
      (by simp [stripped]) rfl
    refine ⟨run, padding, hrun, hdigits, ?_⟩
    rw [decodeStrict_eq hrun hdigits] at h
    by_contra hp
    rw [if_neg hp] at h
    cases h
  · rintro ⟨run, padding, hshape⟩
    rw [decodeStrict_eq hshape.eq hshape.digits, if_pos hshape.padded]
    rfl

theorem foldl_looseStep_stripped (input : List UInt8) (a : Accumulator) :
    input.foldl looseStep a = (stripped input).foldl looseStep a := by
  induction input generalizing a with
  | nil => rfl
  | cons byte input ih =>
    cases hw : isWhitespace byte with
    | true =>
      have hskip : stripped (byte :: input) = stripped input := by simp [stripped, hw]
      have hstep : looseStep a byte = a := if_pos (not_isDigit_of_isWhitespace byte hw)
      rw [hskip, List.foldl_cons, hstep, ih]
    | false =>
      have hkeep : stripped (byte :: input) = byte :: stripped input := by simp [stripped, hw]
      rw [hkeep, List.foldl_cons, List.foldl_cons, ih]

theorem foldl_looseStep_digits (run : List UInt8) (a : Accumulator)
    (h : ∀ byte ∈ run, byte ∈ table) : run.foldl looseStep a = pushAll a run := by
  induction run generalizing a with
  | nil => rfl
  | cons byte run ih =>
    have hstep : looseStep a byte = a.push (decodeTableAt byte) :=
      if_neg ((mem_table_iff byte).1 (h byte List.mem_cons_self))
    rw [List.foldl_cons, hstep, ih _ fun b hb => h b (List.mem_cons_of_mem _ hb)]
    rfl

theorem foldl_looseStep_padding (padding : Nat) (a : Accumulator) :
    (List.replicate padding 61).foldl looseStep a = a := by
  induction padding with
  | zero => rfl
  | succ padding ih => rw [List.replicate_succ, List.foldl_cons, show looseStep a 61 = a from rfl, ih]

theorem decodeLoose_eq (h : stripped input = run ++ List.replicate padding 61)
    (hdigits : ∀ byte ∈ run, byte ∈ table) :
    decodeLoose input = (pushAll ⟨[], 0, 0⟩ run).out := by
  rw [decodeLoose, foldl_looseStep_stripped, h, List.foldl_append, foldl_looseStep_padding,
    foldl_looseStep_digits run _ hdigits]

/-- Both decoders give back the bytes of an encoding with whitespace anywhere in it. -/
theorem decode_of_stripped (x y : List UInt8) (strict : Bool) (h : stripped y = encode x) :
    decode y strict = some x := by
  obtain ⟨run, padding, hshape, hout⟩ := encode_shape x []
  have hy := h.trans hshape.eq
  cases strict with
  | false => simp [decode, decodeLoose_eq hy hshape.digits, hout]
  | true => simp [decode, decodeStrict_eq hy hshape.digits, hshape.padded, hout]

theorem stripped_encode (x : List UInt8) : stripped (encode x) = encode x := by
  obtain ⟨run, padding, hshape, -⟩ := encode_shape x []
  rw [stripped, List.filter_eq_self, hshape.eq]
  intro byte hbyte
  rcases List.mem_append.1 hbyte with h | h
  · simp [not_isWhitespace_of_mem byte (hshape.digits byte h)]
  · rw [(List.mem_replicate.1 h).2]
    rfl

theorem decode_loose_of_strict (h : decode y true = some z) : decode y false = some z := by
  have hs : decodeStrict y = some z := h
  obtain ⟨run, padding, hshape⟩ := (decodeStrict_isSome_iff y).1 (by simp [hs])
  rw [decodeStrict_eq hshape.eq hshape.digits, if_pos hshape.padded] at hs
  simpa [decode, decodeLoose_eq hshape.eq hshape.digits] using hs

/-- Round trip through both decoders with whitespace anywhere, the language of the strict
decoder, and the agreement of the loose one with it. -/
theorem base64_roundTrip_and_language :
    (∀ x strict, decode (encode x) strict = some x) ∧
    (∀ x y strict, stripped y = encode x → decode y strict = some x) ∧
    (∀ y, (decode y true).isSome ↔
      ∃ run padding, stripped y = run ++ List.replicate padding 61 ∧
        (∀ byte ∈ run, byte ∈ table) ∧ run.length % 4 ≠ 1 ∧
        (padding = 0 ∨ run.length % 4 ≠ 0 ∧ run.length % 4 + padding = 4)) ∧
    (∀ y z, decode y true = some z → decode y false = some z) := by
  refine ⟨?_, decode_of_stripped, ?_, fun y z => decode_loose_of_strict⟩
  · intro x strict
    exact decode_of_stripped x _ strict (stripped_encode x)
  · intro y
    refine (decodeStrict_isSome_iff y).trans ?_
    constructor
    · rintro ⟨run, padding, heq, hdigits, hpadded⟩
      exact ⟨run, padding, heq, hdigits, hpadded⟩
    · rintro ⟨run, padding, heq, hdigits, hpadded⟩
      exact ⟨run, padding, heq, hdigits, hpadded⟩

end Rphp.Codec.Base64
