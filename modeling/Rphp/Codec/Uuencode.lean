import Mathlib.Tactic.IntervalCases
import Rphp.Lib.Bytes

namespace Rphp.Codec.Uuencode
set_option autoImplicit true

open Rphp.Lib

def inputBytesPerLine : Nat := 45

def sixBitCharacter (value : UInt8) : UInt8 :=
  if value &&& 0x3f = 0 then 96 else (value &&& 0x3f) + 32

/-- The four characters of a group of up to three bytes. -/
def encodeGroup (group : List UInt8) : List UInt8 :=
  let first := group.getD 0 0
  let second := group.getD 1 0
  let third := group.getD 2 0
  [sixBitCharacter (first >>> 2),
    sixBitCharacter ((first <<< 4 ||| second >>> 4) &&& 0x3f),
    sixBitCharacter ((second <<< 2 ||| third >>> 6) &&& 0x3f),
    sixBitCharacter (third &&& 0x3f)]

def encodeLine (line : List UInt8) : List UInt8 :=
  sixBitCharacter (UInt8.ofNat line.length) :: ((chunks 3 line).flatMap encodeGroup ++ [10])

def encode (input : List UInt8) : List UInt8 :=
  (chunks inputBytesPerLine input).flatMap encodeLine ++ [96, 10]

def sixBitValue (byte : UInt8) : UInt8 := (byte - 32) &&& 0x3f

/-- The bytes of the whole groups of a line of which `remaining` bytes are still declared. -/
def decodeGroups : List UInt8 → Nat → List UInt8
  | a :: b :: c :: d :: rest, remaining =>
    let first := sixBitValue a
    let second := sixBitValue b
    let third := sixBitValue c
    let fourth := sixBitValue d
    (first <<< 2 ||| second >>> 4) ::
      ((if remaining > 1 then [second <<< 4 ||| third >>> 2] else []) ++
        ((if remaining > 2 then [third <<< 6 ||| fourth] else []) ++
          decodeGroups rest (remaining - 3)))
  | _, _ => []

/-- An index outside the slice it is applied to. -/
structure OutOfRange where
  index : Nat
  length : Nat
deriving DecidableEq, Repr

def index (input : List UInt8) (position : Nat) : Except OutOfRange UInt8 :=
  match input[position]? with
  | some byte => .ok byte
  | none => .error ⟨position, input.length⟩

def encodedLength (lineLength : Nat) : Nat := (lineLength + 2) / 3 * 4

/-- What one turn of the loop of `decode` leads to. -/
inductive Turn where
  | finished
  | malformed
  | last (bytes : List UInt8)
  | next (bytes : List UInt8) (position : Nat)
deriving DecidableEq, Repr

def lineLength (byte : UInt8) : Nat := (sixBitValue byte).toNat

/-- One turn of the loop, at the position of a line's length character. -/
def turn (input : List UInt8) (position : Nat) : Except OutOfRange Turn :=
  match index input position with
  | .error e => .error e
  | .ok byte =>
    if lineLength byte = 0 then .ok .finished
    else
      let lineEnd := position + 1 + encodedLength (lineLength byte)
      match slice input (position + 1) lineEnd with
      | none => .ok .malformed
      | some encoded =>
        let bytes := decodeGroups encoded (lineLength byte)
        if lineLength byte < inputBytesPerLine ∨ lineEnd ≥ input.length then .ok (.last bytes)
        else if lineEnd + 1 ≥ input.length then .ok (.last bytes)
        else .ok (.next bytes (lineEnd + 1))

/-- Every way a turn at a readable position can end. -/
theorem turn_cases (h : input[position]? = some byte) :
    (lineLength byte = 0 ∧ turn input position = .ok .finished) ∨
    (0 < lineLength byte ∧
      slice input (position + 1) (position + 1 + encodedLength (lineLength byte)) = none ∧
      turn input position = .ok .malformed) ∨
    ∃ encoded, 0 < lineLength byte ∧
      slice input (position + 1) (position + 1 + encodedLength (lineLength byte)) = some encoded ∧
      ((lineLength byte < inputBytesPerLine ∨
          input.length ≤ position + 1 + encodedLength (lineLength byte) + 1) ∧
        turn input position = .ok (.last (decodeGroups encoded (lineLength byte))) ∨
        inputBytesPerLine ≤ lineLength byte ∧
        position + 1 + encodedLength (lineLength byte) + 1 < input.length ∧
        turn input position = .ok (.next (decodeGroups encoded (lineLength byte))
          (position + 1 + encodedLength (lineLength byte) + 1))) := by
  simp only [turn, index, h]
  by_cases hzero : lineLength byte = 0
  · exact .inl ⟨hzero, if_pos hzero⟩
  · rw [if_neg hzero]
    right
    cases hs : slice input (position + 1) (position + 1 + encodedLength (lineLength byte)) with
    | none => exact .inl ⟨Nat.pos_of_ne_zero hzero, rfl, rfl⟩
    | some encoded =>
      refine .inr ⟨encoded, Nat.pos_of_ne_zero hzero, rfl, ?_⟩
      dsimp only
      by_cases hshort : lineLength byte < inputBytesPerLine ∨
          position + 1 + encodedLength (lineLength byte) ≥ input.length
      · exact .inl ⟨by omega, if_pos hshort⟩
      · rw [if_neg hshort]
        by_cases hend : position + 1 + encodedLength (lineLength byte) + 1 ≥ input.length
        · exact .inl ⟨.inr hend, if_pos hend⟩
        · exact .inr ⟨by omega, by omega, if_neg hend⟩

/-- A turn that continues does so further on and inside the input. -/
theorem turn_next (h : turn input position = .ok (.next bytes next)) :
    position < next ∧ next < input.length := by
  cases hp : input[position]? with
  | none => simp only [turn, index, hp, reduceCtorEq] at h
  | some byte =>
    obtain ⟨-, ht⟩ | ⟨-, -, ht⟩ | ⟨encoded, -, -, ⟨-, ht⟩ | ⟨-, hlt, ht⟩⟩ :=
      turn_cases hp
    all_goals simp only [ht, reduceCtorEq, Except.ok.injEq, Turn.next.injEq] at h
    omega

/-- The loop of `decode` from the position of a length character. -/
def decodeFrom (input : List UInt8) (position : Nat) (output : List UInt8) :
    Except OutOfRange (Option (List UInt8)) :=
  match _h : turn input position with
  | .error e => .error e
  | .ok .finished => .ok (some output)
  | .ok .malformed => .ok none
  | .ok (.last bytes) => .ok (some (output ++ bytes))
  | .ok (.next bytes next) => decodeFrom input next (output ++ bytes)
termination_by input.length - position
decreasing_by
  have := turn_next _h
  omega

def decode (input : List UInt8) : Except OutOfRange (Option (List UInt8)) :=
  if input = [] then .ok none else decodeFrom input 0 []

/-- The lengths declared by the lines that the loop of `decode` reads. -/
def declaredFrom (input : List UInt8) (position : Nat) : List Nat :=
  match _h : turn input position with
  | .ok (.last _) => [lineLength (input.getD position 0)]
  | .ok (.next _ next) => lineLength (input.getD position 0) :: declaredFrom input next
  | _ => []
termination_by input.length - position
decreasing_by
  have := turn_next _h
  omega

def declaredLengths (input : List UInt8) : List Nat :=
  if input = [] then [] else declaredFrom input 0

theorem decodeFrom_eq (input : List UInt8) (position : Nat) (output : List UInt8) :
    decodeFrom input position output =
      match turn input position with
      | .error e => .error e
      | .ok .finished => .ok (some output)
      | .ok .malformed => .ok none
      | .ok (.last bytes) => .ok (some (output ++ bytes))
      | .ok (.next bytes next) => decodeFrom input next (output ++ bytes) := by
  rw [decodeFrom]
  split <;> simp_all only

theorem declaredFrom_eq (input : List UInt8) (position : Nat) :
    declaredFrom input position =
      match turn input position with
      | .ok (.last _) => [lineLength (input.getD position 0)]
      | .ok (.next _ next) => lineLength (input.getD position 0) :: declaredFrom input next
      | _ => [] := by
  rw [declaredFrom]
  split <;> simp_all only

theorem decodeGroups_length (encoded : List UInt8) (n : Nat)
    (h : encoded.length = encodedLength n) : (decodeGroups encoded n).length = n := by
  induction encoded, n using decodeGroups.induct with
  | case1 a b c d rest remaining ih =>
    simp only [encodedLength, List.length_cons] at h ih
    have hrest := ih (by omega)
    simp only [decodeGroups, List.length_cons, List.length_append, hrest]
    split <;> split <;> simp only [List.length_cons, List.length_nil] <;> omega
  | case2 encoded n hshort =>
    have hlt : encoded.length < 4 := by
      match encoded, hshort with
      | [], _ | [_], _ | [_, _], _ | [_, _, _], _ => simp
      | a :: b :: c :: d :: rest, hshort => exact absurd rfl (hshort a b c d rest)
    have hn : n = 0 := by
      unfold encodedLength at h
      omega
    rw [hn, decodeGroups]
    · rfl
    · exact hshort

/-- From a readable position the loop ends, and returns at most what its lines declared. -/
theorem decodeFrom_bounded (input : List UInt8) (position : Nat) (output : List UInt8)
    (h : position < input.length) : ∃ r, decodeFrom input position output = .ok r ∧
      ∀ z, r = some z → z.length = output.length + (declaredFrom input position).sum := by
  induction hk : input.length - position using Nat.strongRecOn generalizing position output with
  | ind k ih =>
    have hp : input[position]? = some input[position] := List.getElem?_eq_getElem h
    have hd : input.getD position 0 = input[position] := by simp [h]
    rw [decodeFrom_eq, declaredFrom_eq]
    obtain ⟨-, ht⟩ | ⟨-, -, ht⟩ | ⟨encoded, -, hs, ⟨-, ht⟩ | ⟨-, hlt, ht⟩⟩ := turn_cases hp
    · simp [ht]
    · simp [ht]
    · have hlen := decodeGroups_length _ _ (by simpa using slice_length hs)
      simp [ht, h, hlen]
    · have hlen := decodeGroups_length _ _ (by simpa using slice_length hs)
      obtain ⟨r, hr, hz⟩ := ih _ (by omega) _
        (output ++ decodeGroups encoded (lineLength input[position])) hlt rfl
      refine ⟨r, ?_, ?_⟩
      · rw [ht]
        exact hr
      · intro z hrz
        rw [hz z hrz, ht, List.length_append, hlen, List.sum_cons, hd]
        omega

theorem sixBitValue_sixBitCharacter (value : UInt8) :
    sixBitValue (sixBitCharacter value) = value &&& 0x3f := by
  rw [sixBitCharacter, sixBitValue]
  split
  · rename_i hzero
    rw [hzero]
    decide
  · rw [UInt8.add_sub_cancel, UInt8.and_assoc]
    rfl

/-- Two shifted six-bit values give back the byte they were cut from. -/
theorem join_first (a b : UInt8) :
    ((a >>> 2 &&& 0x3f) <<< 2 ||| ((a <<< 4 ||| b >>> 4) &&& 0x3f) >>> 4) = a := by
  apply UInt8.eq_of_toBitVec_eq
  apply BitVec.eq_of_getLsbD_eq
  intro i hi
  interval_cases i <;> simp

theorem join_second (a b c : UInt8) :
    (((a <<< 4 ||| b >>> 4) &&& 0x3f) <<< 4 ||| ((b <<< 2 ||| c >>> 6) &&& 0x3f) >>> 2) = b := by
  apply UInt8.eq_of_toBitVec_eq
  apply BitVec.eq_of_getLsbD_eq
  intro i hi
  interval_cases i <;> simp

theorem join_third (b c : UInt8) :
    (((b <<< 2 ||| c >>> 6) &&& 0x3f) <<< 6 ||| (c &&& 0x3f)) = c := by
  apply UInt8.eq_of_toBitVec_eq
  apply BitVec.eq_of_getLsbD_eq
  intro i hi
  interval_cases i <;> simp

theorem decodeGroups_encodeGroup (group rest : List UInt8) (remaining : Nat) :
    decodeGroups (encodeGroup group ++ rest) remaining =
      group.getD 0 0 :: ((if remaining > 1 then [group.getD 1 0] else []) ++
        ((if remaining > 2 then [group.getD 2 0] else []) ++
          decodeGroups rest (remaining - 3))) := by
  simp only [encodeGroup, List.cons_append, List.nil_append, decodeGroups,
    sixBitValue_sixBitCharacter, UInt8.and_assoc, UInt8.and_self, join_first, join_second,
    join_third]

theorem encodeGroup_length (group : List UInt8) : (encodeGroup group).length = 4 := rfl

theorem encodeGroups_length (line : List UInt8) :
    ((chunks 3 line).flatMap encodeGroup).length = encodedLength line.length := by
  induction line using chunks_induction 3 (by decide) with
  | nil => simp [encodedLength]
  | step l hl ih =>
    have hpos := List.length_pos_of_ne_nil hl
    rw [chunks_of_ne_nil (by decide) hl, List.flatMap_cons, List.length_append, ih,
      encodeGroup_length, List.length_drop]
    unfold encodedLength
    omega

/-- The groups of a line decode to the line. -/
theorem decodeGroups_encodeGroups (line : List UInt8) :
    decodeGroups ((chunks 3 line).flatMap encodeGroup) line.length = line := by
  induction line using chunks_induction 3 (by decide) with
  | nil => simp [decodeGroups]
  | step l hl ih =>
    rw [chunks_of_ne_nil (by decide) hl, List.flatMap_cons, decodeGroups_encodeGroup]
    rw [List.length_drop] at ih
    rw [ih]
    match l, hl with
    | [a], _ => rfl
    | [a, b], _ => rfl
    | a :: b :: c :: rest, _ => simp

theorem lineLength_sixBitCharacter (h : n ≤ inputBytesPerLine) :
    lineLength (sixBitCharacter (UInt8.ofNat n)) = n := by
  unfold inputBytesPerLine at h
  unfold lineLength
  rw [sixBitValue_sixBitCharacter]
  interval_cases n <;> rfl

theorem encode_nil : encode [] = [96, 10] := by
  simp [encode]

theorem encode_of_ne_nil (h : x ≠ []) :
    encode x = encodeLine (x.take inputBytesPerLine) ++ encode (x.drop inputBytesPerLine) := by
  unfold encode
  rw [chunks_of_ne_nil (by decide) h, List.flatMap_cons, List.append_assoc]

/-- At an encoded line the loop takes its bytes and either ends or passes its delimiter. -/
theorem turn_encodeLine (pre line rest : List UInt8) (hne : line ≠ [])
    (hle : line.length ≤ inputBytesPerLine) (hrest : rest ≠ []) :
    turn (pre ++ (encodeLine line ++ rest)) pre.length =
      .ok (if line.length < inputBytesPerLine then .last line
        else .next line (pre ++ encodeLine line).length) := by
  have hlen := lineLength_sixBitCharacter hle
  have hpos := List.length_pos_of_ne_nil hne
  have hrestpos := List.length_pos_of_ne_nil hrest
  have hgroups := encodeGroups_length line
  have hp : (pre ++ (encodeLine line ++ rest))[pre.length]? =
      some (sixBitCharacter (UInt8.ofNat line.length)) := by simp [encodeLine]
  have hs : slice (pre ++ (encodeLine line ++ rest)) (pre.length + 1)
      (pre.length + 1 + encodedLength line.length) =
        some ((chunks 3 line).flatMap encodeGroup) := by
    have happ := slice_append (pre ++ [sixBitCharacter (UInt8.ofNat line.length)])
      ((chunks 3 line).flatMap encodeGroup) (10 :: rest)
    rw [hgroups, List.length_append, List.length_singleton] at happ
    simpa [encodeLine] using happ
  have hend : pre.length + 1 + encodedLength line.length + 1 = (pre ++ encodeLine line).length := by
    simp only [encodeLine, List.length_append, List.length_cons, hgroups, List.length_nil]
    omega
  have hall : (pre ++ encodeLine line).length < (pre ++ (encodeLine line ++ rest)).length := by
    simp only [List.length_append]
    omega
  have hcases := turn_cases hp
  rw [hlen, hs, hend] at hcases
  obtain ⟨hzero, -⟩ | ⟨-, hnone, -⟩ | ⟨encoded, -, henc, ⟨hlt, ht⟩ | ⟨hge, -, ht⟩⟩ := hcases
  · omega
  · cases hnone
  · cases henc
    rw [ht, if_pos (by omega), decodeGroups_encodeGroups]
  · cases henc
    rw [ht, if_neg (by omega), decodeGroups_encodeGroups]

/-- After any bytes already read, the loop decodes an encoded string. -/
theorem decodeFrom_encode (x pre output : List UInt8) :
    decodeFrom (pre ++ encode x) pre.length output = .ok (some (output ++ x)) := by
  induction x using chunks_induction inputBytesPerLine (by decide) generalizing pre output with
  | nil =>
    have hp : (pre ++ encode [])[pre.length]? = some 96 := by simp [encode_nil]
    obtain ⟨-, ht⟩ | ⟨hpos, -⟩ | ⟨encoded, hpos, -⟩ := turn_cases hp
    · rw [decodeFrom_eq, ht, List.append_nil]
    · exact absurd hpos (by decide)
    · exact absurd hpos (by decide)
  | step x hx ih =>
    have hpos := List.length_pos_of_ne_nil hx
    have hne : x.take inputBytesPerLine ≠ [] := by simp [hx, inputBytesPerLine]
    have hrest : encode (x.drop inputBytesPerLine) ≠ [] := by simp [encode]
    have ht := turn_encodeLine pre _ _ hne (by simp) hrest
    rw [encode_of_ne_nil hx, decodeFrom_eq, ht]
    by_cases hshort : (x.take inputBytesPerLine).length < inputBytesPerLine
    · have htake : x.take inputBytesPerLine = x := by
        apply List.take_of_length_le
        rw [List.length_take] at hshort
        omega
      rw [if_pos hshort, htake]
    · rw [if_neg hshort, ← List.append_assoc]
      dsimp only
      rw [ih, List.append_assoc, List.take_append_drop]

theorem decode_encode (x : List UInt8) : decode (encode x) = .ok (some x) := by
  have hne : encode x ≠ [] := by simp [encode]
  rw [decode, if_neg hne]
  exact decodeFrom_encode x [] []

theorem decode_bounded (y : List UInt8) : ∃ r, decode y = .ok r ∧
    ∀ z, r = some z → z.length ≤ (declaredLengths y).sum := by
  unfold decode declaredLengths
  by_cases hy : y = []
  · rw [if_pos hy]
    exact ⟨none, rfl, nofun⟩
  · rw [if_neg hy, if_neg hy]
    obtain ⟨r, hr, hz⟩ := decodeFrom_bounded y 0 [] (List.length_pos_of_ne_nil hy)
    refine ⟨r, hr, ?_⟩
    intro z hrz
    rw [hz z hrz]
    simp

/-- Encoded strings decode to themselves, and no input makes the decoder read outside it or
return more bytes than its lines declared. -/
theorem uuencode_roundTrip_and_bounded :
    (∀ x, decode (encode x) = .ok (some x)) ∧
    ∀ y, ∃ r, decode y = .ok r ∧ ∀ z, r = some z → z.length ≤ (declaredLengths y).sum :=
  ⟨decode_encode, decode_bounded⟩

end Rphp.Codec.Uuencode
