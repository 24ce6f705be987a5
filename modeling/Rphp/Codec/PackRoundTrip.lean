import Rphp.Codec.UnpackSafety
import Rphp.Lib.Bytes
import Rphp.Value.Array.CachedLong

namespace Rphp.Codec.Pack
open Rphp.Lib
set_option autoImplicit true

section Integers

def isSignedCode (code : Char) : Bool :=
  code = 'c' || code = 's' || code = 'i' || code = 'l' || code = 'q'

/-- What an integer becomes: its value modulo the width of the code, read as signed or as
unsigned and then as a machine integer. -/
def project (code : Char) (n : I64) : I64 :=
  let modulus := 256 ^ (integerWidth code).getD 0
  if isSignedCode code then I64.wrap (n.val.bmod modulus) else I64.wrap (n.val % modulus)

theorem castBits_mod (n : I64) (width : Nat) :
    ((castBits (8 * width) n % 256 ^ width : Nat) : Int) = n.val % (256 ^ width : Nat) := by
  have hpow : (2 : Int) ^ (8 * width) = ((256 ^ width : Nat) : Int) := by
    rw [pow_mul]
    norm_num
  have hnonneg : 0 ≤ n.val % (2 : Int) ^ (8 * width) :=
    Int.emod_nonneg _ (by positivity)
  unfold castBits
  rw [Int.natCast_emod, Int.toNat_of_nonneg hnonneg, hpow, Int.emod_emod]

theorem readUnsigned_toBytes (order : ByteOrder) (width : Nat) (n : I64) :
    readUnsigned order width (toBytes order width (castBits (8 * width) n)) =
      some (I64.wrap (n.val % (256 ^ width : Nat))) := by
  rw [readUnsigned, exactly, if_pos (toBytes_length ..), Option.map_some, ofBytes_toBytes,
    castBits_mod]

theorem readSigned_toBytes (order : ByteOrder) (width : Nat) (n : I64) :
    readSigned order width (toBytes order width (castBits (8 * width) n)) =
      some (I64.wrap (n.val.bmod (256 ^ width : Nat))) := by
  rw [readSigned, exactly, if_pos (toBytes_length ..), Option.map_some, ofBytes_toBytes, asSigned,
    castBits_mod, Int.emod_bmod]

theorem readByte (order : ByteOrder) (n : I64) (read : List UInt8 → Option I64) :
    ((toBytes order 1 (castBits 8 n)).head?.bind fun byte => read [byte]) =
      read (toBytes order 1 (castBits 8 n)) := by
  obtain ⟨byte, hbyte⟩ := List.length_eq_one_iff.mp (toBytes_length order 1 (castBits 8 n))
  rw [hbyte]
  rfl

theorem toBytes_one (order other : ByteOrder) (n : Nat) :
    toBytes order 1 n = toBytes other 1 n := by
  cases order <;> cases other <;> rfl

theorem project_signed (hwidth : integerWidth code = some width) (hcode : isSignedCode code = true)
    (n : I64) : project code n = I64.wrap (n.val.bmod (256 ^ width : Nat)) := by
  simp only [project, hwidth, hcode, Option.getD_some, if_true]

theorem project_unsigned (hwidth : integerWidth code = some width)
    (hcode : isSignedCode code = false) (n : I64) :
    project code n = I64.wrap (n.val % (256 ^ width : Nat)) := by
  simp only [project, hwidth, hcode, Option.getD_some, Bool.false_eq_true, if_false]

/-- A code writes an integer of its width and reads such bytes back as the projection. -/
structure RoundTrips (native : ByteOrder) (code : Char) (width : Nat) (n : I64) : Prop where
  length : (pushInteger native code n).length = width
  read : readInteger native code (pushInteger native code n) = some (project code n)

theorem roundTrips_signed {order : ByteOrder} (hwidth : integerWidth code = some width)
    (hcode : isSignedCode code = true)
    (hpush : pushInteger native code n = toBytes order width (castBits (8 * width) n))
    (hread : ∀ bytes, readInteger native code bytes = readSigned order width bytes) :
    RoundTrips native code width n := by
  refine ⟨by rw [hpush, toBytes_length], ?_⟩
  rw [hread, hpush, readSigned_toBytes, project_signed hwidth hcode]

theorem roundTrips_unsigned {order : ByteOrder} (hwidth : integerWidth code = some width)
    (hcode : isSignedCode code = false)
    (hpush : pushInteger native code n = toBytes order width (castBits (8 * width) n))
    (hread : ∀ bytes, readInteger native code bytes = readUnsigned order width bytes) :
    RoundTrips native code width n := by
  refine ⟨by rw [hpush, toBytes_length], ?_⟩
  rw [hread, hpush, readUnsigned_toBytes, project_unsigned hwidth hcode]

/-- What a code writes has its width and is read back by the same code. -/
theorem readInteger_pushInteger (native : ByteOrder) (hwidth : integerWidth code = some width)
    (n : I64) : RoundTrips native code width n := by
  have h := hwidth
  unfold integerWidth at hwidth
  split at hwidth <;> cases hwidth
  case h_1 =>
    refine ⟨toBytes_length .little 1 _, ?_⟩
    simp only [pushInteger, readInteger]
    rw [toBytes_one .little native, readByte native n (readSigned native 1), project_signed h rfl]
    exact readSigned_toBytes native 1 n
  case h_2 =>
    refine ⟨toBytes_length .little 1 _, ?_⟩
    simp only [pushInteger, readInteger]
    rw [toBytes_one .little native, readByte native n (readUnsigned native 1),
      project_unsigned h rfl]
    exact readUnsigned_toBytes native 1 n
  case h_3 | h_7 | h_9 | h_13 => exact roundTrips_signed h rfl rfl fun _ => rfl
  all_goals exact roundTrips_unsigned h rfl rfl fun _ => rfl

end Integers

section Packs

/-- The arguments that a code with a repeat count takes. -/
def share (r : Repeat) (arguments : List I64) : List I64 :=
  arguments.take (r.countOr arguments.length)

def afterShare (r : Repeat) (arguments : List I64) : List I64 :=
  arguments.drop (r.countOr arguments.length)

/-- A list of arguments matches the counts: every count finds its arguments, and none are
left. -/
def Matches : List (Char × Repeat) → List I64 → Prop
  | [], arguments => arguments = []
  | (_, r) :: items, arguments =>
    r.countOr arguments.length ≤ arguments.length ∧ Matches items (afterShare r arguments)

instance decidableMatches : ∀ (items : List (Char × Repeat)) (arguments : List I64),
    Decidable (Matches items arguments)
  | [], arguments => inferInstanceAs (Decidable (arguments = []))
  | (_, r) :: items, arguments =>
    have := decidableMatches items (afterShare r arguments)
    inferInstanceAs (Decidable (_ ∧ _))

def encodeItems (native : ByteOrder) : List (Char × Repeat) → List I64 → List UInt8
  | [], _ => []
  | (code, r) :: items, arguments =>
    (share r arguments).flatMap (pushInteger native code) ++
      encodeItems native items (afterShare r arguments)

variable {native : ByteOrder} {C : Conversions P}

theorem packItem_integer (hcode : (integerWidth code).isSome) (r : Repeat) (s : PackState P) :
    packItem native C s (code, r) =
      packNumbers code r (fun value => pushInteger native code (C.explicitLongConversion value))
        C.explicitNumericCastWarning s := by
  unfold integerWidth at hcode
  split at hcode
  case h_17 => cases hcode
  all_goals rfl

theorem packNumbers_longs (hcount : r.countOr arguments.length ≤ arguments.length) (code : Char)
    (output : List UInt8) :
    packNumbers code r (fun value => pushInteger native code (C.explicitLongConversion value))
        C.explicitNumericCastWarning ⟨arguments.map Value.long, output, []⟩ =
      .ok ⟨(afterShare r arguments).map Value.long,
        output ++ (share r arguments).flatMap (pushInteger native code), []⟩ := by
  have hwarnings : ∀ longs : List I64,
      (longs.map Value.long).filterMap C.explicitNumericCastWarning = [] := by
    intro longs
    induction longs with
    | nil => rfl
    | cons n longs ih => exact ih
  unfold packNumbers
  simp only [List.length_map, Nat.not_lt.mpr hcount, if_false, ← List.map_take, ← List.map_drop,
    hwarnings, List.flatMap_map]
  rfl

/-- Integers are packed one after the other, without a warning. -/
theorem packItems_longs (hcodes : ∀ item ∈ items, (integerWidth item.1).isSome)
    (hmatch : Matches items arguments) (output : List UInt8) :
    packItems native C items ⟨arguments.map Value.long, output, []⟩ =
      .success (output ++ encodeItems native items arguments) [] := by
  induction items generalizing arguments output with
  | nil =>
    have hnone : arguments = [] := hmatch
    subst hnone
    simp [packItems, encodeItems]
  | cons item items ih =>
    obtain ⟨code, r⟩ := item
    obtain ⟨hcount, hrest⟩ := hmatch
    rw [packItems, packItem_integer (hcodes (code, r) (by simp)), packNumbers_longs hcount]
    dsimp only
    rw [ih (fun i hi => hcodes i (by simp [hi])) hrest, encodeItems, List.append_assoc]

theorem encodeItems_nil (items : List (Char × Repeat)) : encodeItems native items [] = [] := by
  induction items with
  | nil => rfl
  | cons item items ih => simp [encodeItems, share, afterShare, ih]

theorem flatMap_pushInteger_length (hwidth : integerWidth code = some width)
    (longs : List I64) :
    (longs.flatMap (pushInteger native code)).length = longs.length * width := by
  induction longs with
  | nil => simp
  | cons n longs ih =>
    rw [List.flatMap_cons, List.length_append, ih, (readInteger_pushInteger native hwidth n).length,
      List.length_cons, Nat.add_one_mul, Nat.add_comm]

end Packs

section Unpacks

/-- A segment of an unpack format: code, repeat count and name. -/
structure UnpackItem where
  code : Char
  r : Repeat
  name : List Char
  deriving DecidableEq

def UnpackItem.packItem (item : UnpackItem) : Char × Repeat := (item.code, item.r)

def segmentItem (segment : List Char) : Option UnpackItem :=
  match utf8 segment with
  | [] => none
  | first :: raw =>
    (sliceFrom segment (1 + (parseRepeat raw).2)).map fun name =>
      ⟨Char.ofNat first.toNat, (parseRepeat raw).1, name⟩

/-- The items of an unpack format; empty segments are skipped. -/
def segmentItems : List (List Char) → Option (List UnpackItem)
  | [] => some []
  | segment :: segments =>
    if segment = [] then segmentItems segments
    else (segmentItem segment).bind fun item => (segmentItems segments).map (item :: ·)

/-- The entries of the values of one item. -/
def itemEntries (item : UnpackItem) : Nat → List I64 → List (Entry P)
  | _, [] => []
  | index, n :: longs =>
    (resultKey item.name item.r.isRepeated index, .long (project item.code n)) ::
      itemEntries item (index + 1) longs

/-- The entries of a whole format: for each argument its key and what it becomes. -/
def unpackEntries : List UnpackItem → List I64 → List (Entry P)
  | [], _ => []
  | item :: items, arguments =>
    itemEntries item 1 (share item.r arguments) ++ unpackEntries items (afterShare item.r arguments)

variable {native : ByteOrder} {C : Conversions P} {data : List UInt8}

theorem new_sound : (PhpArray.new : PhpArray P).Sound :=
  (PhpArray.make_refines .new).toSound

/-- A new key is appended to the array. -/
theorem insertResult_new {a : PhpArray P} (h : a.Sound) (hfits : a.iter.length + 1 ≤ i64Max)
    (hnew : resultKey name repeated index ∉ keysOf a.iter) (value : Value P) :
    (insertResult a name repeated index value).Sound ∧
      (insertResult a name repeated index value).iter =
        a.iter ++ [(resultKey name repeated index, value)] := by
  unfold insertResult
  have hput := PhpArray.putKey_of_new (positionOf_eq_none.2 hnew) value
  cases hkey : resultKey name repeated index with
  | int key =>
    rw [hkey] at hput
    have hlength := PhpArray.setInt_length_le h.wf h.fits key value
    obtain ⟨hsound, hiter⟩ := PhpArray.setInt_sound h key value (by unfold Fits; omega)
    exact ⟨hsound, hiter.trans hput⟩
  | string key =>
    rw [hkey] at hput
    have hwritten := PhpArray.setStr_written h.wf.storage h.fits key value
    have hfit : Fits (a.setStr key value).iter := by
      unfold Fits
      rw [hwritten.iter, hput, List.length_append, List.length_singleton]
      exact_mod_cast hfits
    obtain ⟨hsound, hiter⟩ := PhpArray.setStr_sound h key value hfit
    exact ⟨hsound, hiter.trans hput⟩

theorem itemEntries_length (item : UnpackItem) (index : Nat) (longs : List I64) :
    (itemEntries item index longs : List (Entry P)).length = longs.length := by
  induction longs generalizing index with
  | nil => rfl
  | cons n longs ih => rw [itemEntries, List.length_cons, List.length_cons, ih]

/-- The values of one item are read in order and entered under their keys. -/
theorem unpackNumbers_longs {item : UnpackItem} (hwidth : integerWidth item.code = some width)
    (hdata : data.length ≤ usizeMax) {s : UnpackState P} (hs : s.position ≤ data.length)
    (hbytes : data.drop s.position = longs.flatMap (pushInteger native item.code) ++ after)
    (hsound : s.result.Sound) (hfits : (s.result.iter.length + longs.length : Int) ≤ i64Max)
    (hnodup : (keysOf (s.result.iter ++ itemEntries item index longs)).Nodup) :
    ∃ result, unpackNumbers native C data item.code width item.name item.r.isRepeated
        longs.length index s =
        some (.next ⟨result, s.position + longs.length * width, s.warnings⟩) ∧
      result.Sound ∧ result.iter = s.result.iter ++ itemEntries item index longs := by
  induction longs generalizing index s with
  | nil =>
    refine ⟨s.result, ?_, hsound, by simp [itemEntries]⟩
    simp [unpackNumbers]
  | cons n longs ih =>
    obtain ⟨hlength, hread⟩ := readInteger_pushInteger native hwidth n
    have hdrop : data.length - s.position =
        width + (longs.flatMap (pushInteger native item.code) ++ after).length := by
      rw [← List.length_drop, hbytes, List.flatMap_cons, List.append_assoc, List.length_append,
        hlength]
    have hstop : s.position + width ≤ data.length := by omega
    have htake : (data.drop s.position).take width = pushInteger native item.code n := by
      rw [hbytes, List.flatMap_cons, List.append_assoc, List.take_append_of_le_length hlength.ge,
        List.take_of_length_le hlength.le]
    have hrest : data.drop (s.position + width) =
        longs.flatMap (pushInteger native item.code) ++ after := by
      rw [← List.drop_drop, hbytes, List.flatMap_cons, List.append_assoc, List.drop_append_of_le_length
        hlength.ge, List.drop_of_length_le hlength.le, List.nil_append]
    have hvalue : readValue native C item.code (pushInteger native item.code n) =
        some (.long (project item.code n)) := by
      simp [readValue, hwidth, hread]
    have hkeys : keysOf (s.result.iter ++ itemEntries item index (n :: longs)) =
        keysOf (s.result.iter ++ [(resultKey item.name item.r.isRepeated index,
          Value.long (project item.code n))] ++ itemEntries item (index + 1) longs) := by
      simp [itemEntries]
    rw [hkeys] at hnodup
    have hnew : resultKey item.name item.r.isRepeated index ∉ keysOf s.result.iter := by
      rw [keysOf_append, keysOf_append] at hnodup
      have := (List.nodup_append.mp (List.nodup_append.mp hnodup).1).2.2
      intro hmem
      exact this _ hmem _ (by simp) rfl
    simp only [List.length_cons, Nat.cast_add, Nat.cast_one] at hfits
    obtain ⟨hinsert, hiter⟩ := insertResult_new hsound (by omega) hnew
      (Value.long (project item.code n))
    obtain ⟨result, hrun, hresult, hresultIter⟩ : ∃ result,
        unpackNumbers native C data item.code width item.name item.r.isRepeated longs.length
          (index + 1) ⟨insertResult s.result item.name item.r.isRepeated index
            (.long (project item.code n)), s.position + width, s.warnings⟩ =
          some (.next ⟨result, s.position + width + longs.length * width, s.warnings⟩) ∧
        result.Sound ∧ result.iter = (insertResult s.result item.name item.r.isRepeated index
          (.long (project item.code n))).iter ++ itemEntries item (index + 1) longs :=
      ih hstop hrest hinsert
        (by rw [hiter]; simp only [List.length_append, List.length_singleton]; push_cast; omega)
        (by rw [hiter]; exact hnodup)
    refine ⟨result, ?_, hresult, ?_⟩
    · rw [List.length_cons, unpackNumbers]
      have havailable : ¬ data.length - s.position < width := by omega
      simp only [if_neg havailable, addUsize_eq (hstop.trans hdata), slice_add hstop, htake, hvalue,
        Option.bind_eq_bind, Option.bind_some]
      rw [hrun, Nat.add_one_mul]
      simp only [Nat.add_assoc, Nat.add_comm width]
    · rw [hresultIter, hiter]
      simp [itemEntries]

theorem countOverflows_eq_false (h : ∀ n, (parseRepeat raw).1 = .count n → n ≤ i32Max) :
    countOverflows raw = false := by
  unfold countOverflows
  unfold parseRepeat at h ⊢
  by_cases hstar : raw.head? = some 42
  · simp [hstar]
  · simp only [if_neg hstar] at h ⊢
    by_cases hdigits : (raw.takeWhile isDigit).length = 0
    · simp [hdigits]
    · simp only [if_neg hdigits] at h ⊢
      have htake : raw.take (raw.takeWhile isDigit).length = raw.takeWhile isDigit :=
        (List.prefix_iff_eq_take.mp (List.takeWhile_prefix _)).symm
      have := h _ rfl
      simp only [htake, Bool.and_eq_false_iff, decide_eq_false_iff_not]
      exact .inr (by omega)

theorem unpackSegment_item {segment : List Char} (hitem : segmentItem segment = some item)
    (hcount : ∀ n, item.r = .count n → n ≤ i32Max) (s : UnpackState P) :
    unpackSegment native C data offset s segment =
      unpackCode native C data offset item.code item.r item.name s := by
  unfold segmentItem at hitem
  unfold unpackSegment
  cases hbytes : utf8 segment with
  | nil =>
    rw [hbytes] at hitem
    cases hitem
  | cons first raw =>
    rw [hbytes] at hitem
    obtain ⟨name, hname, rfl⟩ := Option.map_eq_some_iff.mp hitem
    simp only [countOverflows_eq_false hcount, hname, Bool.false_eq_true, if_false,
      Option.bind_eq_bind, Option.bind_some]

theorem share_length (h : r.countOr arguments.length ≤ arguments.length) :
    (share r arguments).length = r.countOr arguments.length := by
  rw [share, List.length_take, Nat.min_eq_left h]

/-- The values that a count asks for are those that were packed for it. -/
theorem countOr_available (hwidth : integerWidth code = some width) (hpos : 0 < width)
    (h : r.countOr arguments.length ≤ arguments.length)
    (hbytes : data.drop position = encodeItems native ((code, r) :: items) arguments) :
    r.countOr ((data.length - position) / width) = (share r arguments).length := by
  rw [share_length h]
  cases r with
  | count n => rfl
  | star =>
    have hrest : afterShare .star arguments = [] := by simp [afterShare, Repeat.countOr]
    have hshare : share .star arguments = arguments := by simp [share, Repeat.countOr]
    rw [encodeItems, hrest, encodeItems_nil, List.append_nil, hshare] at hbytes
    have hlength := congrArg List.length hbytes
    rw [List.length_drop, flatMap_pushInteger_length hwidth] at hlength
    rw [hlength]
    exact Nat.mul_div_cancel _ hpos

theorem integerWidth_pos (h : integerWidth code = some width) : 0 < width := by
  unfold integerWidth at h
  split at h <;> cases h <;> decide

theorem unpackCode_integer (hwidth : integerWidth code = some width) (r : Repeat)
    (name : List Char) (s : UnpackState P) :
    unpackCode native C data offset code r name s =
      unpackNumbers native C data code width name r.isRepeated
        (r.countOr ((data.length - s.position) / width)) 1 s := by
  unfold unpackCode
  rw [hwidth]
  rfl

/-- Packed integers are unpacked item by item. -/
theorem unpackSegments_longs (hitems : segmentItems segments = some items)
    (hcodes : ∀ item ∈ items, (integerWidth item.code).isSome)
    (hcounts : ∀ item ∈ items, ∀ n, item.r = .count n → n ≤ i32Max)
    (hmatch : Matches (items.map UnpackItem.packItem) arguments)
    (hdata : data.length ≤ usizeMax) {s : UnpackState P} (hs : s.position ≤ data.length)
    (hbytes : data.drop s.position =
      encodeItems native (items.map UnpackItem.packItem) arguments)
    (hsound : s.result.Sound)
    (hfits : (s.result.iter.length + arguments.length : Int) ≤ i64Max)
    (hnodup : (keysOf (s.result.iter ++ unpackEntries items arguments)).Nodup) :
    ∃ result, unpackSegments native C data offset segments s =
        some (.success (some result) s.warnings) ∧
      result.iter = s.result.iter ++ unpackEntries items arguments := by
  induction segments generalizing items arguments s with
  | nil =>
    cases hitems
    exact ⟨s.result, rfl, by simp [unpackEntries]⟩
  | cons segment segments ih =>
    rw [segmentItems] at hitems
    by_cases hsegment : segment = []
    · rw [if_pos hsegment] at hitems
      subst hsegment
      exact ih hitems hcodes hcounts hmatch hs hbytes hsound hfits hnodup
    · rw [if_neg hsegment] at hitems
      obtain ⟨item, hitem, hitems⟩ := Option.bind_eq_some_iff.mp hitems
      obtain ⟨rest, hrest, rfl⟩ := Option.map_eq_some_iff.mp hitems
      obtain ⟨hcount, hmatch⟩ := hmatch
      obtain ⟨width, hwidth⟩ := Option.isSome_iff_exists.mp (hcodes item (by simp))
      have hcounted : item.r.countOr ((data.length - s.position) / width) =
          (share item.r arguments).length :=
        countOr_available hwidth (integerWidth_pos hwidth) hcount hbytes
      have hshare : (share item.r arguments).length + (afterShare item.r arguments).length =
          arguments.length := by
        rw [← List.length_append, share, afterShare, List.take_append_drop]
      rw [unpackEntries, ← List.append_assoc, keysOf_append] at hnodup
      obtain ⟨result, hrun, hresult, hiter⟩ := unpackNumbers_longs (C := C) hwidth hdata hs hbytes
        hsound (by omega) (List.nodup_append.mp hnodup).1
      have hstep : unpackSegment native C data offset s segment =
          some (.next ⟨result, s.position + (share item.r arguments).length * width,
            s.warnings⟩) := by
        rw [unpackSegment_item hitem (hcounts item (by simp)), unpackCode_integer hwidth, hcounted,
          hrun]
      have hlength : (share item.r arguments).length * width =
          ((share item.r arguments).flatMap (pushInteger native item.code)).length :=
        (flatMap_pushInteger_length hwidth _).symm
      have hdrop : data.drop (s.position + (share item.r arguments).length * width) =
          encodeItems native (rest.map UnpackItem.packItem) (afterShare item.r arguments) := by
        rw [← List.drop_drop, hbytes, List.map_cons, hlength]
        exact List.drop_left
      have hposition : s.position + (share item.r arguments).length * width ≤ data.length := by
        have htotal := congrArg List.length hbytes
        rw [List.length_drop, List.map_cons, UnpackItem.packItem, encodeItems, List.length_append,
          ← hlength] at htotal
        omega
      have hleft : (result.iter.length + (afterShare item.r arguments).length : Int) ≤ i64Max := by
        rw [hiter, List.length_append, itemEntries_length]
        push_cast
        omega
      have hkeys : (keysOf (result.iter ++
          unpackEntries rest (afterShare item.r arguments))).Nodup := by
        rw [hiter, keysOf_append]
        exact hnodup
      obtain ⟨final, hfinal, hfinalIter⟩ := ih (s := ⟨result, _, s.warnings⟩) hrest
        (fun i hi => hcodes i (by simp [hi])) (fun i hi => hcounts i (by simp [hi])) hmatch hposition
        hdrop hresult hleft hkeys
      refine ⟨final, ?_, ?_⟩
      · rw [unpackSegments, hstep]
        exact hfinal
      · rw [hfinalIter]
        dsimp only
        rw [hiter, unpackEntries, List.append_assoc]

end Unpacks

section Hex

def isLowerHex (digit : UInt8) : Bool := 48 ≤ digit && digit ≤ 57 || 97 ≤ digit && digit ≤ 102

def isHexPackCode (code : Char) : Prop := code = 'H' ∨ code = 'h'

theorem hexDigit_of_lower (h : isLowerHex digit = true) :
    ∃ nibble : Fin 16, digit = hexDigit (UInt8.ofNat nibble) ∧
      hexNibble digit = some (UInt8.ofNat nibble) := by
  have hall : ∀ digit : UInt8, isLowerHex digit = true →
      ∃ nibble : Fin 16, digit = hexDigit (UInt8.ofNat nibble) ∧
        hexNibble digit = some (UInt8.ofNat nibble) := by
    apply forall_byte
    decide +kernel
  exact hall digit h

theorem hexPair_join (hcode : isHexPackCode code) (first second : Fin 16) :
    hexPair code (if code = 'H' then UInt8.ofNat first <<< 4 ||| UInt8.ofNat second
        else UInt8.ofNat first ||| UInt8.ofNat second <<< 4) =
      [hexDigit (UInt8.ofNat first), hexDigit (UInt8.ofNat second)] := by
  rcases hcode with rfl | rfl
  · revert first second
    decide +kernel
  · revert first second
    decide +kernel

/-- Digits in pairs are written back as they were. -/
theorem flatMap_hexPair (hcode : isHexPackCode code) {digits : List UInt8}
    (heven : digits.length % 2 = 0) (hlower : ∀ digit ∈ digits, isLowerHex digit = true) :
    (hexBytes code digits).flatMap (hexPair code) = digits ∧
      (hexBytes code digits).length = digits.length / 2 := by
  fun_induction hexBytes code digits with
  | case1 => exact ⟨rfl, rfl⟩
  | case2 digit => simp at heven
  | case3 first second rest a b ih =>
    simp only [List.forall_mem_cons, List.length_cons] at hlower heven
    obtain ⟨hrest, hlength⟩ := ih (by omega) hlower.2.2
    obtain ⟨i, hi, hia⟩ := hexDigit_of_lower hlower.1
    obtain ⟨j, hj, hjb⟩ := hexDigit_of_lower hlower.2.1
    have ha : a = UInt8.ofNat i := by simp only [a, hia, Option.getD_some]
    have hb : b = UInt8.ofNat j := by simp only [b, hjb, Option.getD_some]
    refine ⟨?_, by simp only [List.length_cons, hlength]; omega⟩
    rw [List.flatMap_cons, hrest, ha, hb, hexPair_join hcode, ← hi, ← hj]
    rfl

theorem illegalDigit_of_lower (code : Char) (h : isLowerHex digit = true) :
    illegalDigit code digit = none := by
  obtain ⟨nibble, -, hnibble⟩ := hexDigit_of_lower h
  simp [illegalDigit, hnibble]

variable {native : ByteOrder} {C : Conversions P}

theorem packValues_hex (hcode : isHexPackCode code) {value : Value P}
    (harray : C.isArray value = false)
    (hlower : ∀ digit ∈ C.valueBytes value, isLowerHex digit = true) :
    packValues native C [code, '*'] [value] = .success (hexBytes code (C.valueBytes value)) [] := by
  have hitems : formatItems (utf8 [code, '*']) = [(code, .star)] := by
    rcases hcode with rfl | rfl <;> decide
  have hpack : ∀ s : PackState P, packItem native C s (code, .star) = packString C code .star s := by
    rcases hcode with rfl | rfl <;> exact fun s => rfl
  have hpush : pushHex code (C.valueBytes value) .star = (hexBytes code (C.valueBytes value), []) := by
    have hwarnings : (C.valueBytes value).filterMap (illegalDigit code) = [] := by
      rw [List.filterMap_eq_nil_iff]
      exact fun digit hdigit => illegalDigit_of_lower code (hlower digit hdigit)
    simp [pushHex, Repeat.countOr, hwarnings]
  have hstring : packString C code .star ⟨[value], [], []⟩ =
      .ok ⟨[], hexBytes code (C.valueBytes value), []⟩ := by
    rcases hcode with rfl | rfl <;> simp [packString, harray, hpush]
  rw [packValues, hitems, packItems, hpack, hstring]
  rfl

theorem unpackValues_hex (hcode : isHexPackCode code) {digits : List UInt8}
    (heven : digits.length % 2 = 0) (hlower : ∀ digit ∈ digits, isLowerHex digit = true)
    (hlength : digits.length ≤ i64Max) :
    ∃ result, unpackValues native C (hexBytes code digits) 0 [code, '*'] =
        some (.success (some result) []) ∧
      result.iter = [(.int (I64.wrap 1), .other (C.binaryString digits))] := by
  obtain ⟨hpairs, hbytes⟩ := flatMap_hexPair hcode heven hlower
  have hsegments : formatSegments [code, '*'] = [[code, '*']] := by
    rcases hcode with rfl | rfl <;> decide
  have hitem : segmentItem [code, '*'] = some ⟨code, .star, []⟩ := by
    rcases hcode with rfl | rfl <;> decide
  have hstring : ∀ s : UnpackState P, unpackCode native C (hexBytes code digits) 0 code .star [] s =
      unpackString C (hexBytes code digits) code .star [] s := by
    rcases hcode with rfl | rfl <;> exact fun s => rfl
  have hhex : isHexCode code = true := by
    rcases hcode with rfl | rfl <;> rfl
  have hmax : digits.length ≤ 9223372036854775807 := by
    unfold i64Max at hlength
    omega
  have hrequested : saturatingMul (hexBytes code digits).length 2 = digits.length := by
    rw [saturatingMul, hbytes, usizeMax]
    omega
  have hneeded : saturatingAdd digits.length 1 / 2 = (hexBytes code digits).length := by
    rw [saturatingAdd, hbytes, usizeMax]
    omega
  have hdecode : stringBytes code digits.length (hexBytes code digits) = digits := by
    have hother : stringBytes code digits.length (hexBytes code digits) =
        ((hexBytes code digits).flatMap (hexPair code)).take digits.length := by
      rcases hcode with rfl | rfl <;> rfl
    rw [hother, hpairs, List.take_length]
  have hroom : ((PhpArray.new : PhpArray P).iter.length + 1 : Int) ≤ i64Max := by
    rw [show (PhpArray.new : PhpArray P).iter = [] from rfl]
    simp [i64Max]
  have hinsert := insertResult_new new_sound hroom
    (show resultKey [] false 1 ∉ keysOf (PhpArray.new : PhpArray P).iter from List.not_mem_nil)
    (.other (C.binaryString digits))
  refine ⟨insertResult .new [] false 1 (.other (C.binaryString digits)), ?_, hinsert.2⟩
  rw [unpackValues, hsegments, unpackSegments, unpackSegment_item hitem (fun _ hcount => by cases hcount),
    hstring]
  have hfits : (hexBytes code digits).length ≤ usizeMax := by
    rw [hbytes, usizeMax]
    omega
  simp only [unpackString, Nat.sub_zero, requestedBy, hhex, if_true, hrequested, bytesNeeded,
    hneeded, Nat.lt_irrefl, if_false, Nat.zero_add, addUsize, hfits, slice, Nat.zero_le,
    Nat.le_refl, and_self, List.drop_zero, List.take_length, Option.bind_eq_bind, Option.bind_some,
    hdecode]
  rfl

end Hex

section RoundTrip

/-- An array of results under distinct keys, one for each packed integer. -/
def UnpacksTo (native : ByteOrder) (C : Conversions P) (packFormat unpackFormat : List Char)
    (arguments : List (Value P)) (entries : List (Entry P)) : Prop :=
  ∃ bytes result, packValues native C packFormat arguments = .success bytes [] ∧
    unpackValues native C bytes 0 unpackFormat = some (.success (some result) []) ∧
    result.iter = entries

theorem encodeItems_length (native : ByteOrder)
    (hcodes : ∀ item ∈ items, (integerWidth item.1).isSome) (hmatch : Matches items arguments) :
    (encodeItems native items arguments).length ≤ 8 * arguments.length := by
  induction items generalizing arguments with
  | nil => simp [encodeItems]
  | cons item items ih =>
    obtain ⟨code, r⟩ := item
    obtain ⟨-, hrest⟩ := hmatch
    obtain ⟨width, hwidth⟩ := Option.isSome_iff_exists.mp (hcodes (code, r) (by simp))
    have hwide : width ≤ 8 := by
      unfold integerWidth at hwidth
      split at hwidth <;> cases hwidth <;> decide
    have htail := ih (fun i hi => hcodes i (by simp [hi])) hrest
    have hshare : (share r arguments).length + (afterShare r arguments).length =
        arguments.length := by
      rw [← List.length_append, share, afterShare, List.take_append_drop]
    have hhead : (share r arguments).length * width ≤ (share r arguments).length * 8 :=
      Nat.mul_le_mul_left _ hwide
    rw [encodeItems, List.length_append, flatMap_pushInteger_length hwidth]
    omega

/-- Integers that are packed and unpacked with the same codes come back, projected by their
code, under their keys, when the keys differ and the counts suit the unpack format; and a
string of pairs of hexadecimal digits comes back as it is. -/
theorem unpackValues_packValues (native : ByteOrder) (C : Conversions P) :
    (∀ (packFormat unpackFormat : List Char) (items : List UnpackItem) (arguments : List I64),
      segmentItems (formatSegments unpackFormat) = some items →
      formatItems (utf8 packFormat) = items.map UnpackItem.packItem →
      (∀ item ∈ items, (integerWidth item.code).isSome) →
      (∀ item ∈ items, ∀ n, item.r = .count n → n ≤ i32Max) →
      Matches (items.map UnpackItem.packItem) arguments →
      8 * (arguments.length : Int) ≤ i64Max →
      (keysOf (unpackEntries items arguments : List (Entry P))).Nodup →
      UnpacksTo native C packFormat unpackFormat (arguments.map Value.long)
        (unpackEntries items arguments)) ∧
    ∀ (code : Char) (value : Value P), isHexPackCode code →
      C.isArray value = false →
      (C.valueBytes value).length % 2 = 0 →
      (∀ digit ∈ C.valueBytes value, isLowerHex digit = true) →
      ((C.valueBytes value).length : Int) ≤ i64Max →
      UnpacksTo native C [code, '*'] [code, '*'] [value]
        [(.int (I64.wrap 1), .other (C.binaryString (C.valueBytes value)))] := by
  refine ⟨?_, ?_⟩
  · intro packFormat unpackFormat items arguments hunpack hpack hcodes hcounts hmatch hroom hnodup
    have hpackCodes : ∀ item ∈ items.map UnpackItem.packItem, (integerWidth item.1).isSome := by
      intro item hitem
      obtain ⟨item, hmem, rfl⟩ := List.mem_map.mp hitem
      exact hcodes item hmem
    have hlength := encodeItems_length native hpackCodes hmatch
    have hdata : (encodeItems native (items.map UnpackItem.packItem) arguments).length ≤ usizeMax := by
      unfold i64Max at hroom
      rw [usizeMax]
      omega
    have hempty : (PhpArray.new : PhpArray P).iter = [] := rfl
    obtain ⟨result, hrun, hiter⟩ := unpackSegments_longs (s := ⟨PhpArray.new, 0, []⟩) (C := C)
      hunpack hcodes hcounts hmatch hdata (Nat.zero_le _) List.drop_zero new_sound
      (by rw [hempty, List.length_nil]; omega) (by rw [hempty]; exact hnodup)
    refine ⟨encodeItems native (items.map UnpackItem.packItem) arguments, result, ?_, hrun, ?_⟩
    · rw [packValues, hpack, packItems_longs hpackCodes hmatch, List.nil_append]
    · rw [hiter, hempty, List.nil_append]
  · intro code value hcode harray heven hlower hroom
    obtain ⟨result, hrun, hiter⟩ := unpackValues_hex hcode heven hlower hroom
    exact ⟨_, result, packValues_hex hcode harray hlower, hrun, hiter⟩

/-- The entries of a call, when it returns an array. -/
def unpackedEntries (native : ByteOrder) (C : Conversions P) (data : List UInt8)
    (format : List Char) : Option (List (Entry P)) :=
  match unpackValues native C data 0 format with
  | some ⟨.ok (some result), _⟩ => some result.iter
  | _ => none

theorem unpackValues_packValues_words :
    UnpacksTo .big byteStrings ['c', 'n', '2', 'q', '*'] ['c', 'a', '/', 'n', '2', 'b', '/', 'q', '*']
        ([I64.wrap 200, I64.wrap 70000, I64.wrap 3, I64.wrap (-5)].map Value.long)
        [(.string "a", .long (I64.wrap (-56))), (.string "b1", .long (I64.wrap 4464)),
          (.string "b2", .long (I64.wrap 3)), (.int (I64.wrap 1), .long (I64.wrap (-5)))] ∧
      UnpacksTo .big byteStrings ['h', '*'] ['h', '*'] [.other [97, 49, 102, 48]]
        [(.int (I64.wrap 1), .other [97, 49, 102, 48])] := by
  have hentries : (unpackEntries [⟨'c', .count 1, ['a']⟩, ⟨'n', .count 2, ['b']⟩, ⟨'q', .star, []⟩]
      [I64.wrap 200, I64.wrap 70000, I64.wrap 3, I64.wrap (-5)] : List (Entry (List UInt8))) =
      [(.string "a", .long (I64.wrap (-56))), (.string "b1", .long (I64.wrap 4464)),
        (.string "b2", .long (I64.wrap 3)), (.int (I64.wrap 1), .long (I64.wrap (-5)))] := by
    decide
  rw [← hentries]
  exact ⟨(unpackValues_packValues .big byteStrings).1 _ _
      [⟨'c', .count 1, ['a']⟩, ⟨'n', .count 2, ['b']⟩, ⟨'q', .star, []⟩] _ (by decide +kernel)
      (by decide +kernel) (by decide +kernel) (by simp [i32Max]) (by decide +kernel) (by decide)
      (by rw [hentries]; decide +kernel),
    (unpackValues_packValues .big byteStrings).2 'h' (.other [97, 49, 102, 48]) (.inr rfl) rfl
      (by decide) (by decide +kernel) (by decide)⟩

theorem unpacksTo_unpackedEntries {native : ByteOrder} {C : Conversions P}
    (h : UnpacksTo native C packFormat unpackFormat arguments entries)
    (hpack : packValues native C packFormat arguments = .success bytes []) :
    unpackedEntries native C bytes unpackFormat = some entries := by
  obtain ⟨bytes', result, hpacked, hrun, hiter⟩ := h
  rw [hpack] at hpacked
  cases hpacked
  rw [unpackedEntries, hrun, ← hiter]
  rfl

/-- Distinct names do not give distinct keys, and a count past the format's limit is packed but
not unpacked. -/
theorem unpackValues_packValues_collide :
    ¬ UnpacksTo .little byteStrings ['C', '2', 'C'] ['C', '2', 'a', '/', 'C', 'a', '1']
        ([I64.wrap 7, I64.wrap 8, I64.wrap 9].map Value.long)
        (unpackEntries [⟨'C', .count 2, ['a']⟩, ⟨'C', .count 1, ['a', '1']⟩]
          [I64.wrap 7, I64.wrap 8, I64.wrap 9]) ∧
      ¬ UnpacksTo .little byteStrings ['C', '2', '1', '4', '7', '4', '8', '3', '6', '4', '8']
        ['C', '2', '1', '4', '7', '4', '8', '3', '6', '4', '8']
        ((List.replicate 2147483648 I64.zero).map Value.long)
        (unpackEntries [⟨'C', .count 2147483648, []⟩] (List.replicate 2147483648 I64.zero)) := by
  refine ⟨fun h => ?_, fun h => ?_⟩
  · have hpack : packValues .little byteStrings ['C', '2', 'C']
        ([I64.wrap 7, I64.wrap 8, I64.wrap 9].map Value.long) = .success [7, 8, 9] [] := by
      have hitems : formatItems (utf8 ['C', '2', 'C']) = [('C', .count 2), ('C', .count 1)] := by
        decide
      rw [packValues, hitems, packItems_longs (by decide) (by decide)]
      exact congrArg (Outcome.success · []) (by decide)
    have hentries := unpacksTo_unpackedEntries h hpack
    revert hentries
    decide
  · obtain ⟨bytes, result, -, hrun, -⟩ := h
    have hsegments : formatSegments ['C', '2', '1', '4', '7', '4', '8', '3', '6', '4', '8'] =
        [['C', '2', '1', '4', '7', '4', '8', '3', '6', '4', '8']] := by
      decide
    have hraw : utf8 ['C', '2', '1', '4', '7', '4', '8', '3', '6', '4', '8'] =
        67 :: [50, 49, 52, 55, 52, 56, 51, 54, 52, 56] := by
      decide
    have hoverflow : countOverflows [50, 49, 52, 55, 52, 56, 51, 54, 52, 56] = true := by
      decide
    rw [unpackValues, hsegments, unpackSegments, unpackSegment, hraw] at hrun
    simp [hoverflow, UnpackState.giveUp, Outcome.success] at hrun

end RoundTrip

end Rphp.Codec.Pack
