import Rphp.Lib.Assoc
import Rphp.Lib.Run
import Rphp.Machine

namespace Rphp.Value
open Rphp.Lib
set_option autoImplicit true

/-- A by-reference foreach position, with the positions remembered for copies of the array. -/
structure Cursor where
  array : Option Nat
  position : Nat
  copies : AList (fun _ : Nat => Nat)
deriving DecidableEq

namespace Cursor

def start (array : Nat) : Cursor := ⟨some array, 0, ∅⟩

/-- The cursor iterates the array or remembers a position in it. -/
def Refers (c : Cursor) (array : Nat) : Prop := c.array = some array ∨ array ∈ c.copies

instance (c : Cursor) (array : Nat) : Decidable (c.Refers array) :=
  inferInstanceAs (Decidable (_ ∨ _))

end Cursor

structure Registry where
  cursors : AList (fun _ : Nat => Cursor)
  byArray : AList (fun _ : Nat => List Nat)

def link (byArray : AList (fun _ : Nat => List Nat)) (array key : Nat) :
    AList (fun _ : Nat => List Nat) :=
  byArray.insert array ((byArray.lookup array).getD [] ++ [key])

def unlinkOne (byArray : AList (fun _ : Nat => List Nat)) (array key : Nat) :
    AList (fun _ : Nat => List Nat) :=
  match byArray.lookup array with
  | some keys =>
    let keys := keys.filter (· ≠ key)
    if keys = [] then byArray.erase array else byArray.insert array keys
  | none => byArray

def unlink (byArray : AList (fun _ : Nat => List Nat)) (key : Nat) (cursor : Cursor) :
    AList (fun _ : Nat => List Nat) :=
  let byArray :=
    match cursor.array with
    | some array => unlinkOne byArray array key
    | none => byArray
  cursor.copies.keys.foldl (fun byArray array => unlinkOne byArray array key) byArray

namespace Registry

def empty : Registry := ⟨∅, ∅⟩

def register (r : Registry) (key array : Nat) : Registry :=
  let byArray :=
    match r.cursors.lookup key with
    | some previous => unlink r.byArray key previous
    | none => r.byArray
  ⟨r.cursors.insert key (.start array), link byArray array key⟩

/-- The position at which the cursor continues on the array. A cursor that is not live panics. -/
def resolve (r : Registry) (key array fallback : Nat) : Option (Nat × Registry) :=
  match r.cursors.lookup key with
  | none => none
  | some cursor =>
    if cursor.array ≠ some array then
      let position := (cursor.copies.lookup array).getD fallback
      some (position,
        ⟨r.cursors.insert key ⟨some array, position, ∅⟩,
          link (unlink r.byArray key cursor) array key⟩)
    else
      some (cursor.position, r)

def advance (r : Registry) (key position : Nat) : Registry :=
  { r with cursors := modifyKey r.cursors key fun c => { c with position := position } }

/-- The position a cursor holds on an array it refers to. -/
def positionOn (cursor : Cursor) (source : Nat) : Option Nat :=
  if cursor.array = some source then some cursor.position else cursor.copies.lookup source

/-- Remember the copy for one interested cursor, and whether it was new there. -/
def copyOne (source target : Nat) (s : AList (fun _ : Nat => Cursor) × List Nat) (key : Nat) :
    AList (fun _ : Nat => Cursor) × List Nat :=
  match s.1.lookup key with
  | none => s
  | some cursor =>
    match positionOn cursor source with
    | none => s
    | some position =>
      (s.1.insert key { cursor with copies := cursor.copies.insert target position },
        if target ∈ cursor.copies then s.2 else s.2 ++ [key])

def copied (r : Registry) (source target : Nat) : Bool × Registry :=
  match r.byArray.lookup source with
  | none => (false, r)
  | some keys =>
    let s := keys.foldl (copyOne source target) (r.cursors, [])
    (true,
      ⟨s.1,
        if s.2 = [] then r.byArray
        else r.byArray.insert target ((r.byArray.lookup target).getD [] ++ s.2)⟩)

/-- Forget the array in one cursor. -/
def forget (array : Nat) (cursor : Cursor) : Cursor :=
  { cursor with
    array := if cursor.array = some array then none else cursor.array
    copies := cursor.copies.erase array }

def releaseArray (r : Registry) (array : Nat) : Registry :=
  match r.byArray.lookup array with
  | none => r
  | some keys =>
    ⟨keys.foldl (fun cursors key => modifyKey cursors key (forget array)) r.cursors,
      r.byArray.erase array⟩

def adjust (start removed inserted position : Nat) : Nat :=
  if start < position then
    let removedBefore := min (saturatingAdd start removed) position - start
    saturatingAdd (position - removedBefore) inserted
  else
    position

/-- Move the positions one cursor holds on the array. -/
def shiftCursor (array start removed inserted : Nat) (cursor : Cursor) : Cursor :=
  { cursor with
    position :=
      if cursor.array = some array then adjust start removed inserted cursor.position
      else cursor.position
    copies := modifyKey cursor.copies array (adjust start removed inserted) }

def splice (r : Registry) (array start removed inserted : Nat) : Registry :=
  match r.byArray.lookup array with
  | none => r
  | some keys =>
    { r with
      cursors := keys.foldl
        (fun cursors key => modifyKey cursors key (shiftCursor array start removed inserted))
        r.cursors }

def releaseCursor (r : Registry) (key : Nat) : Registry :=
  match r.cursors.lookup key with
  | some cursor => ⟨r.cursors.erase key, unlink r.byArray key cursor⟩
  | none => r

end Registry

theorem occurrences_link (m : AList (fun _ : Nat => List Nat)) (array key a c : Nat) :
    occurrences (link m array key) a c =
      occurrences m a c + if a = array ∧ c = key then 1 else 0 := by
  unfold occurrences link
  rw [lookup_insert_eq]
  by_cases ha : a = array
  · subst ha
    by_cases hc : c = key
    · simp [hc]
    · simp [hc, Ne.symm hc]
  · simp [ha]

theorem noEmpty_link (h : NoEmpty m) : NoEmpty (link m array key) := by
  intro a
  unfold link
  rw [lookup_insert_eq]
  split
  · simp
  · exact h a

theorem occurrences_unlinkOne (m : AList (fun _ : Nat => List Nat)) (array key a c : Nat) :
    occurrences (unlinkOne m array key) a c =
      if a = array ∧ c = key then 0 else occurrences m a c := by
  unfold occurrences unlinkOne
  have hcount : ∀ keys : List Nat, (keys.filter (· ≠ key)).count c =
      if c = key then 0 else keys.count c := by
    intro keys
    split
    · rename_i hc
      exact List.count_eq_zero.2 (by simp [hc])
    · rename_i hc
      exact List.count_filter (by simpa using hc)
  by_cases ha : a = array
  · subst ha
    cases hm : m.lookup a with
    | none => simp [hm]
    | some keys =>
      simp only [true_and, Option.getD_some, ← hcount keys]
      split
      · rename_i he
        rw [AList.lookup_erase, he]
        rfl
      · rw [AList.lookup_insert]
        rfl
  · cases hm : m.lookup array with
    | none => simp [ha]
    | some keys =>
      simp only [ha, false_and, ↓reduceIte]
      split
      · rw [AList.lookup_erase_ne ha]
      · rw [AList.lookup_insert_ne ha]

theorem noEmpty_unlinkOne (h : NoEmpty m) : NoEmpty (unlinkOne m array key) := by
  intro a
  unfold unlinkOne
  split
  · simp only
    split
    · rw [lookup_erase_eq]
      split
      · simp
      · exact h a
    · rename_i hne
      rw [lookup_insert_eq]
      split
      · simpa using hne
      · exact h a
  · exact h a

theorem occurrences_foldl_unlinkOne (arrays : List Nat) (m : AList (fun _ : Nat => List Nat))
    (key a c : Nat) :
    occurrences (arrays.foldl (fun m array => unlinkOne m array key) m) a c =
      if a ∈ arrays ∧ c = key then 0 else occurrences m a c := by
  induction arrays generalizing m with
  | nil => simp
  | cons array arrays ih =>
    rw [List.foldl_cons, ih, occurrences_unlinkOne]
    simp only [List.mem_cons]
    by_cases h1 : a = array <;> by_cases h2 : c = key <;> by_cases h3 : a ∈ arrays <;>
      simp [h1, h2, h3]

theorem noEmpty_foldl_unlinkOne (arrays : List Nat) (h : NoEmpty m) :
    NoEmpty (arrays.foldl (fun m array => unlinkOne m array key) m) := by
  induction arrays generalizing m with
  | nil => exact h
  | cons array arrays ih => exact ih (noEmpty_unlinkOne h)

/-- Unlinking takes a key out of the lists of exactly the arrays its cursor refers to. -/
theorem occurrences_unlink (m : AList (fun _ : Nat => List Nat)) (key : Nat) (cursor : Cursor)
    (a c : Nat) :
    occurrences (unlink m key cursor) a c =
      if cursor.Refers a ∧ c = key then 0 else occurrences m a c := by
  have hr : cursor.Refers a ↔ cursor.array = some a ∨ a ∈ cursor.copies := .rfl
  unfold unlink
  rw [occurrences_foldl_unlinkOne]
  simp only [hr, ← AList.mem_keys]
  cases h : cursor.array with
  | none => simp
  | some array =>
    simp only [occurrences_unlinkOne, Option.some.injEq]
    by_cases h1 : array = a
    · by_cases h2 : c = key <;> simp [h1, h2]
    · simp [h1, Ne.symm h1]

theorem noEmpty_unlink (h : NoEmpty m) : NoEmpty (unlink m key cursor) := by
  unfold unlink
  refine noEmpty_foldl_unlinkOne _ ?_
  split
  · exact noEmpty_unlinkOne h
  · exact h

end Rphp.Value
