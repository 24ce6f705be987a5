import Rphp.Lib.Outcome
import Rphp.Stdlib.Unserialize.Parser

namespace Rphp.Stdlib.Unserialize
open Rphp.Lib
open Rphp.Lib (isDigit isUtf8)
set_option autoImplicit true

/-! The parser stays inside its input, whatever the input and the world are. -/

section Cursors

/-- No slice is longer than `isize` can say. -/
structure Cursor.Valid (c : Cursor) : Prop where
  inside : c.position ≤ c.input.length
  addressable : c.input.length ≤ isizeMax

/-- The same input, read on. -/
structure Ahead (c d : Cursor) : Prop where
  input : d.input = c.input
  le : c.position ≤ d.position
  inside : d.position ≤ d.input.length

theorem Ahead.refl (h : c.Valid) : Ahead c c := ⟨rfl, le_rfl, h.inside⟩

theorem Ahead.trans (h : Ahead c d) (h' : Ahead d e) : Ahead c e :=
  ⟨h'.input.trans h.input, h.le.trans h'.le, h'.inside⟩

theorem Ahead.valid (h : Ahead c d) (hc : c.Valid) : d.Valid :=
  ⟨h.inside, by rw [h.input]; exact hc.addressable⟩

theorem Ahead.left_le (h : Ahead c d) : d.left ≤ c.left := by
  have hinput := h.input
  have hle := h.le
  rw [Cursor.left, Cursor.left, hinput]
  omega

/-- A reader that stays inside the input, with what it promises of its answer. -/
def Reads (m : Reader α) (Q : Cursor → α → Cursor → Prop) : Prop :=
  ∀ c : Cursor, c.Valid →
    Post (fun a d => Ahead c d ∧ Q c a d) (fun e d => e = .rejected ∧ Ahead c d) (m c)

/-- A reader that stays inside the input. -/
abbrev Stays (m : Reader α) : Prop := Reads m fun _ _ _ => True

variable {Q Q' : Cursor → α → Cursor → Prop} {R : α → Cursor → β → Cursor → Prop}
  {m : Reader α} {f : α → Reader β}

theorem Reads.mono (h : Reads m Q) (hQ : ∀ c a d, Q c a d → Q' c a d) : Reads m Q' := by
  intro c hc
  apply (h c hc).mono
  · intro a d hd
    exact ⟨hd.1, hQ c a d hd.2⟩
  · intro e d hd
    exact hd

theorem Reads.stays (h : Reads m Q) : Stays m := h.mono fun _ _ _ _ => trivial

theorem Reads.pure (a : α) : Reads (pure a) fun c b d => b = a ∧ d = c :=
  fun _ hc => ⟨.refl hc, rfl, rfl⟩

theorem Reads.bind (h : Reads m Q) (hf : ∀ a, Reads (f a) (R a)) :
    Reads (m >>= f) fun c b e => ∃ a d, (Ahead c d ∧ Q c a d) ∧ Ahead d e ∧ R a d b e := by
  intro c hc
  have hm := h c hc
  simp only [Bind.bind, EStateM.bind]
  cases hrun : m c with
  | ok a d =>
    rw [hrun] at hm
    apply (hf a d (hm.1.valid hc)).mono
    · intro b e he
      exact ⟨hm.1.trans he.1, a, d, hm, he⟩
    · intro e t ht
      exact ⟨ht.1, hm.1.trans ht.2⟩
  | error e d =>
    rw [hrun] at hm
    exact hm

theorem Stays.pure (a : α) : Stays (pure a) := (Reads.pure a).stays

theorem Stays.bind (h : Stays m) (hf : ∀ a, Stays (f a)) : Stays (m >>= f) :=
  (Reads.bind h hf).stays

theorem Stays.rejected : Stays (throw .rejected : Reader α) := fun _ hc => ⟨rfl, .refl hc⟩

end Cursors

section Tokens

theorem Cursor.Valid.add_le {c : Cursor} (hc : c.Valid) (h : n ≤ c.input.length + 1) :
    n ≤ usizeMax := by
  have haddressable := hc.addressable
  simp only [isizeMax, usizeMax] at *
  omega

theorem add_eq {c : Cursor} (hc : c.Valid) (h : a + b ≤ c.input.length + 1) :
    add a b c = .ok (a + b) c := by
  rw [add, if_pos (hc.add_le h)]
  rfl

theorem subtract_eq (h : b ≤ a) (c : Cursor) : subtract a b c = .ok (a - b) c := by
  rw [subtract, if_pos h]
  rfl

theorem moveTo_eq (n : Nat) (c : Cursor) : moveTo n c = .ok ⟨⟩ ⟨c.input, n⟩ := rfl

theorem slice_eq {c : Cursor} (h : start ≤ stop) (hstop : stop ≤ c.input.length) :
    slice start stop c = .ok ((c.input.drop start).take (stop - start)) c := by
  rw [slice, get_bind_apply, Lib.slice, if_pos ⟨h, hstop⟩]
  rfl

theorem byte_eq {c : Cursor} (hc : c.Valid) (hbyte : c.input[c.position]? = some b) :
    byte c = .ok b ⟨c.input, c.position + 1⟩ := by
  obtain ⟨hlt, -⟩ := List.getElem?_eq_some_iff.mp hbyte
  have hadd : add c.position 1 c = .ok (c.position + 1) c := add_eq hc (by omega)
  rw [byte, get_bind_apply, hbyte]
  simp only [bind, EStateM.bind, hadd, moveTo_eq]
  rfl

theorem byte_end {c : Cursor} (hbyte : c.input[c.position]? = none) :
    byte c = .error .rejected c := by
  rw [byte, get_bind_apply, hbyte]
  rfl

theorem ahead_of_le {c : Cursor} (hle : c.position ≤ n) (hn : n ≤ c.input.length) :
    Ahead c ⟨c.input, n⟩ :=
  ⟨rfl, hle, hn⟩

theorem byte_reads : Reads byte fun c _ d => d.left + 1 ≤ c.left := by
  intro c hc
  cases hbyte : c.input[c.position]? with
  | none =>
    rw [byte_end hbyte]
    exact ⟨rfl, .refl hc⟩
  | some b =>
    obtain ⟨hlt, -⟩ := List.getElem?_eq_some_iff.mp hbyte
    rw [byte_eq hc hbyte]
    constructor
    · exact ahead_of_le (by omega) hlt
    · simp only [Cursor.left]
      omega

theorem expect_reads (expected : UInt8) :
    Reads (expect expected) fun c _ d => d.left + 1 ≤ c.left := by
  intro c hc
  cases hbyte : c.input[c.position]? with
  | none =>
    simp only [expect, bind, EStateM.bind, byte_end hbyte]
    exact ⟨rfl, .refl hc⟩
  | some b =>
    obtain ⟨hlt, -⟩ := List.getElem?_eq_some_iff.mp hbyte
    apply Post.bind_ok (byte_eq hc hbyte)
    by_cases hb : b = expected
    · rw [if_pos hb]
      constructor
      · exact ahead_of_le (by omega) hlt
      · simp only [Cursor.left]
        omega
    · rw [if_neg hb]
      apply Post.get_bind
      apply Post.bind_ok (subtract_eq (show 1 ≤ c.position + 1 by omega) _)
      apply Post.bind_ok (moveTo_eq _ _)
      exact ⟨rfl, ahead_of_le le_rfl hc.inside⟩

theorem expect_stays (expected : UInt8) : Stays (expect expected) := (expect_reads expected).stays

theorem token_stays (delimiter : UInt8) : Stays (token delimiter) := by
  intro c hc
  have hinside := hc.inside
  apply Post.get_bind
  rw [if_neg (Nat.not_lt.mpr hinside)]
  cases hfind : (c.input.drop c.position).findIdx? (· = delimiter) with
  | none => exact ⟨rfl, .refl hc⟩
  | some length =>
    obtain ⟨hlt, -⟩ := List.findIdx?_eq_some_iff_getElem.mp hfind
    rw [List.length_drop] at hlt
    apply Post.bind_ok (add_eq hc (by omega))
    apply Post.bind_ok (add_eq hc (by omega))
    apply Post.bind_ok (moveTo_eq _ _)
    have hslice := slice_eq (c := ⟨c.input, c.position + length + 1⟩)
      (show c.position ≤ c.position + length by omega)
      (show c.position + length ≤ c.input.length by omega)
    rw [hslice]
    exact ⟨ahead_of_le (by omega) (by omega), trivial⟩

theorem take_reads (length : Nat) :
    Reads (take length) fun c bytes d => bytes.length + d.left ≤ c.left := by
  intro c hc
  have hinside := hc.inside
  apply Post.get_bind
  by_cases hfits : usizeMax < c.position + length ∨ c.input.length < c.position + length
  · rw [if_pos hfits]
    exact ⟨rfl, .refl hc⟩
  · rw [if_neg hfits]
    apply Post.bind_ok (moveTo_eq _ _)
    constructor
    · exact ahead_of_le (by omega) (by omega)
    · simp only [List.length_take, List.length_drop, Cursor.left]
      omega

theorem peek_stays : Stays peek := fun _ hc => ⟨.refl hc, trivial⟩

theorem integer_stays (delimiter : UInt8) : Stays (integer delimiter) := by
  apply (token_stays delimiter).bind
  intro text
  cases parseI64 text with
  | none => exact .rejected
  | some n => exact .pure n

theorem size_stays (delimiter : UInt8) : Stays (size delimiter) := by
  apply (integer_stays delimiter).bind
  intro n
  cases n.toUsize? with
  | none => exact .rejected
  | some length => exact .pure length

theorem take_stays (length : Nat) : Stays (take length) := (take_reads length).stays

theorem key_stays : Stays key := by
  apply byte_reads.stays.bind
  intro tag
  by_cases hint : tag = ascii 'i'
  · rw [if_pos hint]
    exact (expect_stays _).bind fun _ => (integer_stays _).bind fun n => .pure (Key.int n)
  · rw [if_neg hint]
    by_cases hstring : tag = ascii 's'
    · rw [if_pos hstring]
      exact (expect_stays _).bind fun _ => (size_stays _).bind fun _ => (expect_stays _).bind
        fun _ => (take_stays _).bind fun bytes => (expect_stays _).bind fun _ =>
          (expect_stays _).bind fun _ => .pure (Key.string bytes)
    · rw [if_neg hstring]
      exact .rejected

end Tokens

section Headers

theorem parseNull_stays : Stays parseNull := (expect_stays _).bind fun _ => .pure _

theorem parseBool_stays : Stays parseBool := by
  apply (expect_stays _).bind
  intro _
  apply (integer_stays _).bind
  intro value
  by_cases hfalse : value.val = 0
  · rw [if_pos hfalse]
    exact .pure _
  · rw [if_neg hfalse]
    by_cases htrue : value.val = 1
    · rw [if_pos htrue]
      exact .pure _
    · rw [if_neg htrue]
      exact .rejected

theorem parseLong_stays : Stays parseLong :=
  (expect_stays _).bind fun _ => (integer_stays _).bind fun _ => .pure _

theorem parseDouble_stays (env : Environment ω) : Stays (parseDouble env) := by
  apply (expect_stays _).bind
  intro _
  apply (token_stays _).bind
  intro text
  cases doubleBits env text with
  | none => exact .rejected
  | some bits => exact .pure _

theorem quoted_stays : Stays quoted :=
  (expect_stays _).bind fun _ => (size_stays _).bind fun length => (expect_stays _).bind fun _ =>
    (take_stays length).bind fun _ => (expect_stays _).bind fun _ => .pure _

theorem parseString_stays : Stays parseString :=
  quoted_stays.bind fun _ => (expect_stays _).bind fun _ => .pure _

theorem arrayHeader_stays : Stays arrayHeader :=
  (expect_stays _).bind fun _ => (size_stays _).bind fun _ => (expect_stays _).bind fun _ => .pure _

theorem objectHeader_stays : Stays objectHeader := by
  apply quoted_stays.bind
  intro className
  apply (expect_stays _).bind
  intro _ c hc
  apply Post.get_bind
  apply Post.bind_ok (slice_eq hc.inside le_rfl)
  by_cases hdigits : ((c.input.drop c.position).take (c.input.length - c.position)).all isDigit
  · rw [if_pos hdigits]
    exact ⟨rfl, .refl hc⟩
  · rw [if_neg hdigits]
    have hrest : Stays (do
        let propertyCount ← size (ascii ':')
        expect (ascii '{')
        if isUtf8 className then return (className, propertyCount) else throw .rejected) := by
      apply (size_stays _).bind
      intro propertyCount
      apply (expect_stays _).bind
      intro _
      by_cases hutf8 : isUtf8 className
      · rw [if_pos hutf8]
        exact .pure _
      · rw [if_neg hutf8]
        exact .rejected
    exact hrest c hc

/-- The index is in range as long as the payload has not ended. -/
theorem colon_post {c : Cursor} (hc : c.Valid) (hlt : c.position < c.input.length) :
    Post (fun _ d => Ahead c d ∧ d.left + 1 ≤ c.left) (fun e d => e = .rejected ∧ Ahead c d)
      (colon c) := by
  apply Post.get_bind
  rw [List.getElem?_eq_getElem hlt]
  by_cases hcolon : c.input[c.position] = ascii ':'
  · simp only [if_pos hcolon]
    apply Post.bind_ok (add_eq hc (by omega))
    rw [moveTo_eq]
    constructor
    · exact ahead_of_le (by omega) hlt
    · simp only [Cursor.left]
      omega
  · simp only [if_neg hcolon]
    exact ⟨rfl, .refl hc⟩

theorem closing_stays : Stays closing := by
  intro c hc
  apply Post.get_bind
  by_cases hclose : c.input[c.position]? = some (ascii '}')
  · obtain ⟨hlt, -⟩ := List.getElem?_eq_some_iff.mp hclose
    rw [if_pos hclose]
    apply Post.bind_ok (add_eq hc (by omega))
    apply Post.bind_ok (moveTo_eq _ _)
    exact ⟨ahead_of_le (by omega) hlt, trivial⟩
  · rw [if_neg hclose]
    exact ⟨.refl hc, trivial⟩

/-- The bytes of a payload are behind the cursor when it has been read. -/
theorem customHeader_reads :
    Reads customHeader fun c header d => header.2.length + d.left ≤ c.left := by
  have hpayload (className : Name) (length : Nat) : Reads (do
      let payload ← take length
      expect (ascii '}')
      return (className, payload)) fun c header d => header.2.length + d.left ≤ c.left := by
    apply (Reads.bind (take_reads length) fun payload => Reads.bind (expect_stays _) fun _ =>
      Reads.pure (className, payload)).mono
    rintro c header e ⟨payload, d, ⟨-, htaken⟩, hahead, _, d', -, -, rfl, -⟩
    exact (Nat.add_le_add_left hahead.left_le _).trans htaken
  have hbody (className : Name) : Reads (if isUtf8 className then do
        expect (ascii ':')
        let payloadLength ← size (ascii ':')
        expect (ascii '{')
        let payload ← take payloadLength
        expect (ascii '}')
        return (className, payload)
      else throw .rejected) fun c header d => header.2.length + d.left ≤ c.left := by
    by_cases hutf8 : isUtf8 className
    · rw [if_pos hutf8]
      apply (Reads.bind (expect_stays _) fun _ => Reads.bind (size_stays _) fun length =>
        Reads.bind (expect_stays _) fun _ => hpayload className length).mono
      rintro c header e ⟨_, d, ⟨hfirst, -⟩, -, length, d', ⟨hsecond, -⟩, -, _, d'', ⟨hthird, -⟩, -,
        hheader⟩
      have hleft := hfirst.left_le
      have hleft' := hsecond.left_le
      have hleft'' := hthird.left_le
      omega
    · rw [if_neg hutf8]
      intro c hc
      exact ⟨rfl, .refl hc⟩
  apply (Reads.bind quoted_stays hbody).mono
  rintro c header e ⟨className, d, ⟨hahead, -⟩, -, hheader⟩
  have hleft := hahead.left_le
  omega

theorem enumName_stays : Stays enumName := by
  apply quoted_stays.bind
  intro bytes
  apply (expect_stays _).bind
  intro _
  by_cases hutf8 : isUtf8 bytes
  · rw [if_pos hutf8]
    exact .pure _
  · rw [if_neg hutf8]
    exact .rejected

theorem referenceTarget_stays : Stays referenceTarget :=
  (expect_stays _).bind fun _ => size_stays _

theorem membersHeader_stays : Stays membersHeader :=
  (expect_stays _).bind fun _ => (expect_stays _).bind fun _ => peek_stays

end Headers

end Rphp.Stdlib.Unserialize
