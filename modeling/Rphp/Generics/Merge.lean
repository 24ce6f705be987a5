import Rphp.Generics.Transitivity
import Rphp.Lib.SortedKeys
import Mathlib.Data.List.Lex
import Mathlib.Data.Char

namespace Rphp.Generics
open Lib
set_option autoImplicit true

namespace GenericMetadata
open GenericType

section SortKey

variable (m : GenericMetadata)

/-- A decimal number, filled up with zeros to three digits. -/
def threeDigits (index : UInt8) : List Char :=
  let digits := Nat.toDigits 10 index.toNat
  List.replicate (3 - digits.length) '0' ++ digits

mutual
def genericTypeSortKey : GenericType → List Char
  | .int => "01:int".toList
  | .float => "02:float".toList
  | .string => "03:string".toList
  | .bool => "04:bool".toList
  | .array => "05:array".toList
  | .callable => "06:callable".toList
  | .null => "07:null".toList
  | .void => "08:void".toList
  | .mixed => "09:mixed".toList
  | .never => "10:never".toList
  | .named name arguments =>
    "11:".toList ++ ((m.symbol name).getD ['?']).map Char.toLower ++ ['<'] ++
      List.intercalate [','] (genericTypeSortKeys arguments) ++ ['>']
  | .parameter index => "12:".toList ++ threeDigits index
  | .nullable inner => "13:?".toList ++ genericTypeSortKey inner
  | .union parts =>
    "14:".toList ++
      List.intercalate ['|'] ((genericTypeSortKeys parts).insertionSort (· ≤ ·))
  | .intersection parts =>
    "15:".toList ++
      List.intercalate ['&'] ((genericTypeSortKeys parts).insertionSort (· ≤ ·))

def genericTypeSortKeys : List GenericType → List (List Char)
  | [] => []
  | part :: parts => genericTypeSortKey part :: genericTypeSortKeys parts
end

theorem genericTypeSortKeys_eq_map (l : List GenericType) :
    m.genericTypeSortKeys l = l.map m.genericTypeSortKey := by
  induction l with
  | nil => rfl
  | cons part parts ih => rw [genericTypeSortKeys, ih, List.map_cons]

end SortKey

section Merge

variable (m : GenericMetadata)

/-- What a value adds to a union; `mixed` ends the merge. -/
def unionPart : GenericType → Option (List GenericType)
  | .mixed => none
  | .never => some []
  | .union nested => some nested
  | value => some [value]

/-- What a value adds to an intersection; `never` ends the merge. -/
def intersectionPart : GenericType → Option (List GenericType)
  | .never => none
  | .mixed => some []
  | .intersection nested => some nested
  | value => some [value]

/-- The parts of all values, unless one of them ends the merge. -/
def mergeParts (part : GenericType → Option (List GenericType)) :
    List GenericType → Option (List GenericType)
  | [] => some []
  | value :: values =>
    match part value with
    | none => none
    | some nested => (mergeParts part values).map (nested ++ ·)

/-- The type of the parts that are left. -/
def wrapParts (intersection : Bool) : List GenericType → GenericType
  | [] => if intersection then .mixed else .never
  | [part] => part
  | parts => if intersection then .intersection parts else .union parts

def finishGenericMerge (parts : List GenericType) (intersection : Bool) : GenericType :=
  wrapParts intersection (sortDedup m.genericTypeSortKey parts)

def mergeWith (part : GenericType → Option (List GenericType)) (absorbing : GenericType)
    (intersection : Bool) (values : List GenericType) : GenericType :=
  match mergeParts part values with
  | none => absorbing
  | some parts => m.finishGenericMerge parts intersection

def mergeGenericUnion (values : List GenericType) : GenericType :=
  m.mergeWith unionPart .mixed false values

def mergeGenericIntersection (values : List GenericType) : GenericType :=
  m.mergeWith intersectionPart .never true values

end Merge

section Parts

variable {part : GenericType → Option (List GenericType)} {parts values : List GenericType}

theorem mergeParts_eq_none : mergeParts part values = none ↔ ∃ v ∈ values, part v = none := by
  induction values with
  | nil => simp [mergeParts]
  | cons value values ih =>
    cases hpart : part value with
    | none => simp [mergeParts, hpart]
    | some nested => simp [mergeParts, hpart, ih]

/-- The parts of a merge are those of its values. -/
theorem mem_mergeParts (h : mergeParts part values = some parts) :
    p ∈ parts ↔ ∃ v ∈ values, ∃ nested, part v = some nested ∧ p ∈ nested := by
  induction values generalizing parts with
  | nil =>
    cases h
    simp
  | cons value values ih =>
    cases hpart : part value with
    | none => simp [mergeParts, hpart] at h
    | some nested =>
      rw [mergeParts, hpart] at h
      obtain ⟨later, hlater, rfl⟩ := Option.map_eq_some_iff.mp h
      simp [hpart, ih hlater]

theorem part_of_mergeParts (h : mergeParts part values = some parts) (hv : v ∈ values) :
    ∃ nested, part v = some nested ∧ ∀ p ∈ nested, p ∈ parts := by
  cases hpart : part v with
  | none =>
    rw [mergeParts_eq_none.mpr ⟨v, hv, hpart⟩] at h
    cases h
  | some nested =>
    exact ⟨nested, rfl, fun p hp => (mem_mergeParts h).mpr ⟨v, hv, nested, hpart, hp⟩⟩

end Parts

section Bounds

variable {m : GenericMetadata} {classIsA : Name → Name → Bool} {parts values : List GenericType}

variable (m classIsA) in
/-- Accepted, unless the check starts an endless chain of nested checks. -/
def Accepted (a b : GenericType) : Prop :=
  Acc (m.Tries classIsA) (a, b) → m.IsSubtype classIsA a b

theorem Derivable.accepted (h : m.Derivable false classIsA a b) (hm : m.Acyclic) :
    m.Accepted classIsA a b :=
  fun hends => h.isSubtype hm hends nofun

/-- A type that is no intersection, among the parts of a type through nested intersections. -/
inductive Conjunct (w : GenericType) : GenericType → Prop
  | self (hw : w.isIntersection = false) : Conjunct w w
  | part (hp : p ∈ ps) (h : Conjunct w p) : Conjunct w (.intersection ps)

theorem Conjunct.not_intersection (h : Conjunct w y) : w.isIntersection = false := by
  induction h with
  | self hw => exact hw
  | part _ _ ih => exact ih

variable (m classIsA) in
/-- The check against each union among the parts ends and overlooks nothing. -/
def UnionsClear (a b : GenericType) : Prop :=
  ∀ u, Conjunct u b → u.isUnion = true → m.Clear classIsA a u

variable (m) in
/-- Each part of a value is related to the part that is kept for its sort key. -/
def KeysAgree (part : GenericType → Option (List GenericType))
    (R : GenericType → GenericType → Prop) (values : List GenericType) (v : GenericType) : Prop :=
  ∀ parts nested, mergeParts part values = some parts → part v = some nested → ∀ p ∈ nested,
    ∀ q ∈ sortDedup m.genericTypeSortKey parts,
      m.genericTypeSortKey q = m.genericTypeSortKey p → R p q

/-- Values of which no two parts share a sort key. -/
theorem KeysAgree.of_injective {part : GenericType → Option (List GenericType)}
    {R : GenericType → GenericType → Prop} (hR : ∀ x, R x x)
    (hv : v ∈ values) (hparts : mergeParts part values = some parts)
    (hinj : ∀ p ∈ parts, ∀ q ∈ parts, m.genericTypeSortKey q = m.genericTypeSortKey p → q = p) :
    m.KeysAgree part R values v := by
  intro parts' nested hparts' hpart p hp q hq hkey
  rw [hparts, Option.some.injEq] at hparts'
  subst hparts'
  obtain ⟨nested', hpart', hsub⟩ := part_of_mergeParts hparts hv
  rw [hpart, Option.some.injEq] at hpart'
  subst hpart'
  rw [hinj p (hsub p hp) q (mem_of_mem_sortDedup hq) hkey]
  exact hR p

namespace Derivable

theorem never (b : GenericType) : m.Derivable false classIsA .never b := ⟨1, .never⟩

theorem mixed (a : GenericType) : m.Derivable false classIsA a .mixed := ⟨1, .mixed⟩

/-- In the wide sense a type is accepted for all that its supertype is an intersection of. -/
theorem conjunct (hw : Conjunct w y) (h : m.Derivable true classIsA x y) :
    m.Derivable true classIsA x w := by
  induction hw with
  | self _ => exact h
  | part hp _ ih => exact ih (.of_intersection (.intersectionLeft _ (.refl _) hp) hp x h)

theorem refl_conjunct (hw : Conjunct w y) (hunion : w.isUnion = false) :
    m.Derivable false classIsA y w := by
  induction hw with
  | self _ => exact .refl w
  | part hp hw ih => exact .ofPart (by simp [hunion]) hw.not_intersection hp ih

theorem narrow_part (hw : Conjunct w p) (hp : p ∈ ps) (hunion : w.isUnion = false)
    (hx : x.isUnion = false)
    (hpart : m.Derivable false classIsA x p → m.Derivable false classIsA x w)
    (h : m.Derivable false classIsA x (.intersection ps)) : m.Derivable false classIsA x w := by
  obtain ⟨n, h⟩ := h
  cases h with
  | refl => exact .refl_conjunct (.part hp hw) hunion
  | never => exact .never w
  | unionLeft _ => cases hx
  | intersectionRight _ h => exact hpart ⟨_, h p hp⟩
  | intersectionLeft _ hb _ _ => cases hb

/-- In the narrow sense it is accepted for those that are no unions. -/
theorem narrow_conjunct (hw : Conjunct w y) (hunion : w.isUnion = false) (x : GenericType)
    (h : m.Derivable false classIsA x y) : m.Derivable false classIsA x w := by
  induction hw generalizing x with
  | self _ => exact h
  | part hp hw ih =>
    induction x using inductionOn with
    | union xs ihx => exact .unionLeft fun z hz => ihx z hz (h.of_union hz)
    | _ => exact narrow_part hw hp hunion rfl (ih _) h

/-- A type is accepted for another one if it is for all that this is an intersection of. -/
theorem of_conjuncts (y : GenericType)
    (h : ∀ w, Conjunct w y → m.Derivable false classIsA x w) : m.Derivable false classIsA x y := by
  induction y using inductionOn with
  | intersection ys ih => exact .intersectionOf x fun z hz => ih z hz fun w hw => h w (.part hz hw)
  | _ => exact h _ (.self rfl)

end Derivable

section Finish

theorem wrapParts_intersection (kept : List GenericType) :
    kept = [] ∧ wrapParts true kept = .mixed ∨ (∃ p, kept = [p] ∧ wrapParts true kept = p) ∨
      wrapParts true kept = .intersection kept := by
  cases kept with
  | nil => exact .inl ⟨rfl, rfl⟩
  | cons p rest =>
    cases rest with
    | nil => exact .inr (.inl ⟨p, rfl, rfl⟩)
    | cons q rest => exact .inr (.inr rfl)

/-- A part is accepted for the union of the parts. -/
theorem derivable_finishUnion (hp : p ∈ parts)
    (hsame : ∀ q ∈ sortDedup m.genericTypeSortKey parts,
      m.genericTypeSortKey q = m.genericTypeSortKey p → m.IsSubtype classIsA p q) :
    m.Derivable false classIsA p (m.finishGenericMerge parts false) := by
  obtain ⟨q, hq, hkey⟩ : ∃ q ∈ sortDedup m.genericTypeSortKey parts,
      m.genericTypeSortKey q = m.genericTypeSortKey p := exists_mem_sortDedup hp
  have hpq : m.Derivable false classIsA p q := (hsame q hq hkey).derivable
  unfold finishGenericMerge wrapParts
  split
  · rename_i hkept
    rw [hkept] at hq
    cases hq
  · rename_i only hkept
    rw [hkept, List.mem_singleton] at hq
    rwa [hq] at hpq
  · exact hpq.unionRight _ hq

/-- The intersection of the parts is accepted for a part. A union in it is reached in the wide
sense, and so needs the check to overlook nothing. -/
theorem derivable_finishIntersection (hm : m.Acyclic) (hp : p ∈ parts)
    (hsame : ∀ q ∈ sortDedup m.genericTypeSortKey parts,
      m.genericTypeSortKey q = m.genericTypeSortKey p → m.IsSubtype classIsA q p)
    (hclear : m.UnionsClear classIsA (m.finishGenericMerge parts true) p) :
    m.Derivable false classIsA (m.finishGenericMerge parts true) p := by
  obtain ⟨q, hq, hkey⟩ : ∃ q ∈ sortDedup m.genericTypeSortKey parts,
      m.genericTypeSortKey q = m.genericTypeSortKey p := exists_mem_sortDedup hp
  have hqp := hsame q hq hkey
  unfold finishGenericMerge at hclear ⊢
  rcases wrapParts_intersection (sortDedup m.genericTypeSortKey parts) with
    ⟨hkept, -⟩ | ⟨only, hkept, hwrap⟩ | hwrap
  · rw [hkept] at hq
    cases hq
  · rw [hkept, List.mem_singleton] at hq
    rw [hwrap, ← hq]
    exact hqp.derivable
  · rw [hwrap] at hclear ⊢
    refine .of_conjuncts p fun w hw => ?_
    cases hunion : w.isUnion with
    | true =>
      have hwide := (Derivable.intersectionLeft p hqp.derivable hq).conjunct hw
      exact (hwide.isSubtype_of_clear hm (hclear w hw hunion)).derivable
    | false =>
      exact .ofPart (by simp [hunion]) hw.not_intersection hq
        (.narrow_conjunct hw hunion q hqp.derivable)

end Finish

theorem finishUnion_derivable (h : ∀ p ∈ parts, m.Derivable false classIsA p s) :
    m.Derivable false classIsA (m.finishGenericMerge parts false) s := by
  have hkept : ∀ p ∈ sortDedup m.genericTypeSortKey parts, m.Derivable false classIsA p s :=
    fun p hp => h p (mem_of_mem_sortDedup hp)
  unfold finishGenericMerge wrapParts
  split
  · exact .never s
  · rename_i only heq
    exact hkept only (heq ▸ List.mem_singleton_self only)
  · exact .unionLeft hkept

theorem finishIntersection_derivable
    (h : ∀ p ∈ parts, (∀ w, Conjunct w p → Conjunct w (m.finishGenericMerge parts true)) →
      m.Derivable false classIsA t p) :
    m.Derivable false classIsA t (m.finishGenericMerge parts true) := by
  have hkept : ∀ p ∈ sortDedup m.genericTypeSortKey parts,
      (∀ w, Conjunct w p → Conjunct w (m.finishGenericMerge parts true)) →
        m.Derivable false classIsA t p := fun p hp => h p (mem_of_mem_sortDedup hp)
  unfold finishGenericMerge at hkept ⊢
  rcases wrapParts_intersection (sortDedup m.genericTypeSortKey parts) with
    ⟨-, hwrap⟩ | ⟨only, heq, hwrap⟩ | hwrap
  · rw [hwrap]
    exact .mixed t
  · rw [hwrap] at hkept ⊢
    exact hkept only (heq ▸ List.mem_singleton_self only) fun w hw => hw
  · rw [hwrap] at hkept ⊢
    exact .intersectionOf t fun p hp => hkept p hp fun w hw => .part hp hw

/-- A value whose parts are all accepted is accepted, for whatever the merge is. -/
theorem derivable_of_unionPart (hpart : unionPart v = some nested)
    (h : ∀ p ∈ nested, m.Derivable false classIsA p u) : m.Derivable false classIsA v u := by
  cases v with
  | mixed => cases hpart
  | never => exact .never u
  | union ps =>
    cases hpart
    exact .unionLeft h
  | _ =>
    cases hpart
    exact h _ (List.mem_singleton_self _)

theorem derivable_of_mem_unionPart (hpart : unionPart v = some nested) (hp : p ∈ nested)
    (h : m.Derivable false classIsA v s) : m.Derivable false classIsA p s := by
  cases v with
  | mixed => cases hpart
  | never =>
    cases hpart
    cases hp
  | union ps =>
    cases hpart
    exact h.of_union hp
  | _ =>
    cases hpart
    rwa [List.mem_singleton.mp hp]

theorem derivable_of_intersectionPart (hpart : intersectionPart v = some nested)
    (h : ∀ p ∈ nested, m.Derivable false classIsA u p) : m.Derivable false classIsA u v := by
  cases v with
  | never => cases hpart
  | mixed => exact .mixed u
  | intersection ps =>
    cases hpart
    exact .intersectionOf u h
  | _ =>
    cases hpart
    exact h _ (List.mem_singleton_self _)

/-- The parts that a value adds to an intersection are among its own. -/
theorem conjunct_of_mem_intersectionPart (hpart : intersectionPart v = some nested)
    (hp : p ∈ nested) (hw : Conjunct w p) : Conjunct w v := by
  cases v with
  | never => cases hpart
  | mixed =>
    cases hpart
    cases hp
  | intersection ps =>
    cases hpart
    exact .part hp hw
  | _ =>
    cases hpart
    rwa [List.mem_singleton.mp hp] at hw

theorem mergeGenericUnion_upper (hv : v ∈ values)
    (hkeys : m.KeysAgree unionPart (m.IsSubtype classIsA) values v) :
    m.Derivable false classIsA v (m.mergeGenericUnion values) := by
  unfold mergeGenericUnion mergeWith
  split
  · exact .mixed v
  · rename_i parts hparts
    obtain ⟨nested, hpart, hsub⟩ := part_of_mergeParts hparts hv
    exact derivable_of_unionPart hpart fun p hp =>
      derivable_finishUnion (hsub p hp) (hkeys parts nested hparts hpart p hp)

theorem mergeGenericUnion_least (h : ∀ v ∈ values, m.IsSubtype classIsA v s) :
    m.Derivable false classIsA (m.mergeGenericUnion values) s := by
  unfold mergeGenericUnion mergeWith
  split
  · rename_i hparts
    obtain ⟨v, hv, hpart⟩ := mergeParts_eq_none.mp hparts
    cases v with
    | mixed => exact (h _ hv).derivable
    | _ => cases hpart
  · rename_i parts hparts
    refine finishUnion_derivable fun p hp => ?_
    obtain ⟨v, hv, nested, hpart, hmem⟩ := (mem_mergeParts hparts).mp hp
    exact derivable_of_mem_unionPart hpart hmem (h v hv).derivable

theorem mergeGenericIntersection_lower (hm : m.Acyclic) (hv : v ∈ values)
    (hkeys : m.KeysAgree intersectionPart (fun p q => m.IsSubtype classIsA q p) values v)
    (hclear : m.UnionsClear classIsA (m.mergeGenericIntersection values) v) :
    m.Derivable false classIsA (m.mergeGenericIntersection values) v := by
  unfold mergeGenericIntersection mergeWith at hclear ⊢
  split
  · exact .never v
  · rename_i parts hparts
    rw [hparts] at hclear
    obtain ⟨nested, hpart, hsub⟩ := part_of_mergeParts hparts hv
    exact derivable_of_intersectionPart hpart fun p hp =>
      derivable_finishIntersection hm (hsub p hp) (hkeys parts nested hparts hpart p hp)
        fun w hw => hclear w (conjunct_of_mem_intersectionPart hpart hp hw)

theorem mergeGenericIntersection_greatest (hm : m.Acyclic)
    (h : ∀ v ∈ values, m.IsSubtype classIsA t v)
    (hclear : m.UnionsClear classIsA t (m.mergeGenericIntersection values)) :
    m.Derivable false classIsA t (m.mergeGenericIntersection values) := by
  unfold mergeGenericIntersection mergeWith at hclear ⊢
  split
  · rename_i hparts
    obtain ⟨v, hv, hpart⟩ := mergeParts_eq_none.mp hparts
    cases v with
    | never => exact (h _ hv).derivable
    | _ => cases hpart
  · rename_i parts hparts
    rw [hparts] at hclear
    refine finishIntersection_derivable fun p hp hconjunct => .of_conjuncts p fun w hw => ?_
    obtain ⟨v, hv, nested, hpart, hmem⟩ := (mem_mergeParts hparts).mp hp
    have hwv := conjunct_of_mem_intersectionPart hpart hmem hw
    cases hunion : w.isUnion with
    | true =>
      have hwide := (h v hv).derivable.conjunct hwv
      exact (hwide.isSubtype_of_clear hm (hclear w (hconjunct w hw) hunion)).derivable
    | false => exact .narrow_conjunct hwv hunion t (h v hv).derivable

end Bounds

section Keys

variable {m : GenericMetadata} {parts parts' : List GenericType} {intersection : Bool}

variable (m) in
/-- The sort key of a merge of parts with such increasing keys. -/
def finishKey (intersection : Bool) : List (List Char) → List Char
  | [] => m.genericTypeSortKey (if intersection then .mixed else .never)
  | [key] => key
  | keys =>
    if intersection then "15:".toList ++ List.intercalate ['&'] keys
    else "14:".toList ++ List.intercalate ['|'] keys

theorem sortKey_wrapParts {kept : List GenericType}
    (hsorted : (kept.map m.genericTypeSortKey).Pairwise (· < ·)) :
    m.genericTypeSortKey (wrapParts intersection kept) =
      m.finishKey intersection (kept.map m.genericTypeSortKey) := by
  have hkeys : (m.genericTypeSortKeys kept).insertionSort (· ≤ ·) =
      kept.map m.genericTypeSortKey := by
    rw [genericTypeSortKeys_eq_map]
    exact (hsorted.imp le_of_lt).insertionSort_eq
  match kept with
  | [] => rfl
  | [part] => rfl
  | part :: next :: kept =>
    cases intersection with
    | false => exact congrArg (fun keys => "14:".toList ++ List.intercalate ['|'] keys) hkeys
    | true => exact congrArg (fun keys => "15:".toList ++ List.intercalate ['&'] keys) hkeys

/-- The sort key of a merge depends only on which sort keys its parts have. -/
theorem sortKey_finish_congr
    (h : ∀ key, key ∈ parts.map m.genericTypeSortKey ↔ key ∈ parts'.map m.genericTypeSortKey) :
    m.genericTypeSortKey (m.finishGenericMerge parts intersection) =
      m.genericTypeSortKey (m.finishGenericMerge parts' intersection) := by
  rw [finishGenericMerge, finishGenericMerge, sortKey_wrapParts (sortDedup_sorted parts),
    sortKey_wrapParts (sortDedup_sorted parts'), map_sortDedup_congr h]

section Grouping

variable {part : GenericType → Option (List GenericType)} {absorbing : GenericType}
  {values values' : List GenericType} {groups : List (List GenericType)}

variable (m part) in
/-- A value of the list has a part with the sort key. -/
def HasPartKey (values : List GenericType) (key : List Char) : Prop :=
  ∃ v ∈ values, ∃ nested, part v = some nested ∧ key ∈ nested.map m.genericTypeSortKey

theorem mem_sortKeys_mergeParts (h : mergeParts part values = some parts) :
    key ∈ parts.map m.genericTypeSortKey ↔ m.HasPartKey part values key := by
  simp only [HasPartKey, List.mem_map, mem_mergeParts h]
  constructor
  · rintro ⟨p, ⟨v, hv, nested, hpart, hp⟩, hkey⟩
    exact ⟨v, hv, nested, hpart, p, hp, hkey⟩
  · rintro ⟨v, hv, nested, hpart, p, hp, hkey⟩
    exact ⟨p, ⟨v, hv, nested, hpart, hp⟩, hkey⟩

/-- The sort key depends on whether a value ends the merge, and else on the keys of the parts. -/
theorem sortKey_mergeWith_of_keys
    (hends : (∃ v ∈ values, part v = none) ↔ ∃ v ∈ values', part v = none)
    (hkeys : (∀ v ∈ values, part v ≠ none) →
      ∀ key, m.HasPartKey part values key ↔ m.HasPartKey part values' key) :
    m.genericTypeSortKey (m.mergeWith part absorbing intersection values) =
      m.genericTypeSortKey (m.mergeWith part absorbing intersection values') := by
  unfold mergeWith
  rw [← mergeParts_eq_none, ← mergeParts_eq_none] at hends
  cases hparts : mergeParts part values with
  | none => rw [hends.mp hparts]
  | some parts =>
    cases hparts' : mergeParts part values' with
    | none =>
      rw [hends.mpr hparts'] at hparts
      cases hparts
    | some parts' =>
      have hgoes : ∀ v ∈ values, part v ≠ none := fun v hv hnone => by
        rw [mergeParts_eq_none.mpr ⟨v, hv, hnone⟩] at hparts
        cases hparts
      exact sortKey_finish_congr fun key => by
        rw [mem_sortKeys_mergeParts hparts, mem_sortKeys_mergeParts hparts', hkeys hgoes]

/-- The order and the repetition of the values do not matter. -/
theorem sortKey_mergeWith_congr (h : ∀ v, v ∈ values ↔ v ∈ values') :
    m.genericTypeSortKey (m.mergeWith part absorbing intersection values) =
      m.genericTypeSortKey (m.mergeWith part absorbing intersection values') :=
  sortKey_mergeWith_of_keys (by simp only [h]) fun _ key => by simp only [HasPartKey, h]

/-- How a merge reads its own results: the neutral type adds nothing, the combined type its parts,
and the absorbing type ends the merge. -/
structure ReadsMerged (part : GenericType → Option (List GenericType)) (absorbing : GenericType)
    (intersection : Bool) : Prop where
  absorbing : part absorbing = none
  neutral : part (wrapParts intersection []) = some []
  combined : ∀ p q rest, part (wrapParts intersection (p :: q :: rest)) = some (p :: q :: rest)

variable (m part) in
/-- A group of which a single part is left keeps it: the part is a single part for itself. -/
def SingleKept (values : List GenericType) : Prop :=
  ∀ parts p, mergeParts part values = some parts → sortDedup m.genericTypeSortKey parts = [p] →
    part p = some [p]

theorem ReadsMerged.wrapParts (h : ReadsMerged part absorbing intersection)
    {kept : List GenericType} (hsingle : ∀ p, kept = [p] → part p = some [p]) :
    part (GenericMetadata.wrapParts intersection kept) = some kept := by
  match kept with
  | [] => exact h.neutral
  | [p] => exact hsingle p rfl
  | p :: q :: rest => exact h.combined p q rest

/-- A merged group ends the merge, or adds parts with the sort keys of the group's parts. -/
theorem ReadsMerged.group (h : ReadsMerged part absorbing intersection)
    (hsingle : m.SingleKept part values) :
    (mergeParts part values = none ∧
        part (m.mergeWith part absorbing intersection values) = none) ∨
      ∃ parts kept, mergeParts part values = some parts ∧
        part (m.mergeWith part absorbing intersection values) = some kept ∧
        ∀ key, key ∈ kept.map m.genericTypeSortKey ↔ key ∈ parts.map m.genericTypeSortKey := by
  unfold mergeWith
  cases hparts : mergeParts part values with
  | none => exact .inl ⟨rfl, h.absorbing⟩
  | some parts =>
    refine .inr ⟨parts, sortDedup m.genericTypeSortKey parts, rfl,
      h.wrapParts fun p hp => hsingle parts p hparts hp, fun key => ?_⟩
    simp only [List.mem_map]
    constructor
    · rintro ⟨p, hp, rfl⟩
      exact ⟨p, mem_of_mem_sortDedup hp, rfl⟩
    · rintro ⟨p, hp, rfl⟩
      exact exists_mem_sortDedup hp

/-- Merging groups first does not change the sort key. -/
theorem ReadsMerged.sortKey_groups (h : ReadsMerged part absorbing intersection)
    (hsingle : ∀ g ∈ groups, m.SingleKept part g) :
    m.genericTypeSortKey (m.mergeWith part absorbing intersection
        (groups.map (m.mergeWith part absorbing intersection))) =
      m.genericTypeSortKey (m.mergeWith part absorbing intersection groups.flatten) := by
  have hgroup : ∀ g ∈ groups, _ := fun g hg => h.group (hsingle g hg)
  refine sortKey_mergeWith_of_keys ⟨?_, ?_⟩ fun hgoes key => ⟨?_, ?_⟩
  · rintro ⟨v, hv, hnone⟩
    obtain ⟨g, hg, rfl⟩ := List.mem_map.mp hv
    rcases hgroup g hg with ⟨hparts, -⟩ | ⟨parts, kept, -, hkept, -⟩
    · obtain ⟨w, hw, hnone⟩ := mergeParts_eq_none.mp hparts
      exact ⟨w, List.mem_flatten.mpr ⟨g, hg, hw⟩, hnone⟩
    · rw [hnone] at hkept
      cases hkept
  · rintro ⟨v, hv, hnone⟩
    obtain ⟨g, hg, hmem⟩ := List.mem_flatten.mp hv
    rcases hgroup g hg with ⟨-, hmerged⟩ | ⟨parts, kept, hparts, -, -⟩
    · exact ⟨_, List.mem_map_of_mem hg, hmerged⟩
    · rw [mergeParts_eq_none.mpr ⟨v, hmem, hnone⟩] at hparts
      cases hparts
  · rintro ⟨v, hv, nested, hpart, hkey⟩
    obtain ⟨g, hg, rfl⟩ := List.mem_map.mp hv
    rcases hgroup g hg with ⟨-, hmerged⟩ | ⟨parts, kept, hparts, hkept, hkeys⟩
    · exact absurd hmerged (hgoes _ hv)
    · rw [hpart] at hkept
      cases hkept
      obtain ⟨w, hw, nested', hpart', hkey'⟩ :=
        (mem_sortKeys_mergeParts hparts).mp ((hkeys key).mp hkey)
      exact ⟨w, List.mem_flatten.mpr ⟨g, hg, hw⟩, nested', hpart', hkey'⟩
  · rintro ⟨v, hv, nested, hpart, hkey⟩
    obtain ⟨g, hg, hmem⟩ := List.mem_flatten.mp hv
    rcases hgroup g hg with ⟨-, hmerged⟩ | ⟨parts, kept, hparts, hkept, hkeys⟩
    · exact absurd hmerged (hgoes _ (List.mem_map_of_mem hg))
    · have hmember : key ∈ parts.map m.genericTypeSortKey :=
        (mem_sortKeys_mergeParts hparts).mpr ⟨v, hmem, nested, hpart, hkey⟩
      exact ⟨_, List.mem_map_of_mem hg, kept, hkept, (hkeys key).mpr hmember⟩

theorem readsMerged_union : ReadsMerged unionPart .mixed false :=
  ⟨rfl, rfl, fun _ _ _ => rfl⟩

theorem readsMerged_intersection : ReadsMerged intersectionPart .never true :=
  ⟨rfl, rfl, fun _ _ _ => rfl⟩

end Grouping

end Keys

/-- The interfaces `X`, `P`, `Q` and a class `L` that no declaration describes. -/
def plainMetadata : GenericMetadata where
  symbols := [['X'], ['P'], ['Q'], ['L']]
  declarations := []
  inheritances := []

theorem plainMetadata_acyclic : plainMetadata.Acyclic :=
  acyclic_of_symbols nofun

theorem plainMetadata_ends (c : GenericType × GenericType) :
    Acc (plainMetadata.Tries Name.eqIgnoreAsciiCase) c :=
  acc_tries (varianceAt_ne_contravariant (by decide)) c

/-- The check of `P&(P|Q)` for `P|Q`: `P` accepts it. -/
theorem plainMetadata_clear : plainMetadata.Clear Name.eqIgnoreAsciiCase
    (.intersection [.named 1 [], .union [.named 1 [], .named 2 []]])
    (.union [.named 1 [], .named 2 []]) := by
  have hpart : ∀ b, plainMetadata.Clear Name.eqIgnoreAsciiCase
      (.intersection [.named 1 [], .union [.named 1 [], .named 2 []]]) (.named b []) := fun b =>
    .intersectionLeft rfl rfl (forall_mem_pair (.classes 1 b)
      (.unionLeft (forall_mem_pair (.classes 1 b) (.classes 2 b))))
  exact .unionRight List.mem_cons_self (.ofPart (fun _ => rfl) rfl List.mem_cons_self (.refl _))
    (forall_mem_pair (hpart 1) (hpart 2))

end GenericMetadata

end Rphp.Generics
