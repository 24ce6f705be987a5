import Rphp.Generics.Ancestors

namespace Rphp.Generics
open Lib Relation
set_option autoImplicit true

namespace GenericType

def isUnion : GenericType → Bool
  | .union _ => true
  | _ => false

def isIntersection : GenericType → Bool
  | .intersection _ => true
  | _ => false

def isNullable : GenericType → Bool
  | .nullable _ => true
  | _ => false

theorem isUnion_eq_false {a : GenericType} (h : ∀ ps, a = .union ps → False) :
    a.isUnion = false := by
  cases a with
  | union ps => exact (h ps rfl).elim
  | _ => rfl

theorem isIntersection_eq_false {a : GenericType} (h : ∀ ps, a = .intersection ps → False) :
    a.isIntersection = false := by
  cases a with
  | intersection ps => exact (h ps rfl).elim
  | _ => rfl

theorem isNullable_eq_false {a : GenericType} (h : ∀ inner, a = .nullable inner → False) :
    a.isNullable = false := by
  cases a with
  | nullable inner => exact (h inner rfl).elim
  | _ => rfl

end GenericType

namespace GenericMetadata
open GenericType

/-- The rules by which a type is accepted, with the height of the derivation. In the narrow sense
they are the arms of the check, in which a part of an intersection is not tried for a union; in the
wide sense it is. -/
inductive Derives (m : GenericMetadata) (wide : Bool) (classIsA : Name → Name → Bool) :
    Nat → GenericType → GenericType → Prop
  | refl : Derives m wide classIsA (n + 1) a a
  | never : Derives m wide classIsA (n + 1) .never b
  | mixed : Derives m wide classIsA (n + 1) a .mixed
  | unionLeft (h : ∀ p ∈ ps, Derives m wide classIsA n p b) :
    Derives m wide classIsA (n + 1) (.union ps) b
  | intersectionRight (ha : a.isUnion = false) (h : ∀ p ∈ ps, Derives m wide classIsA n a p) :
    Derives m wide classIsA (n + 1) a (.intersection ps)
  | unionRight (ha : a.isUnion = false) (hp : p ∈ ps) (h : Derives m wide classIsA n a p) :
    Derives m wide classIsA (n + 1) a (.union ps)
  | intersectionLeft (hb : b.isUnion = true → wide = true) (hb' : b.isIntersection = false)
    (hp : p ∈ ps) (h : Derives m wide classIsA n p b) :
    Derives m wide classIsA (n + 1) (.intersection ps) b
  | null : Derives m wide classIsA (n + 1) .null (.nullable b)
  | nullables (h : Derives m wide classIsA n a b) :
    Derives m wide classIsA (n + 1) (.nullable a) (.nullable b)
  | nullable (ha : a.isUnion = false) (ha' : a.isIntersection = false) (ha'' : a.isNullable = false)
    (h : Derives m wide classIsA n a b) : Derives m wide classIsA (n + 1) a (.nullable b)
  | arguments (ha : m.symbol a = some s) (hb : m.symbol b = some t)
    (hst : s.eqIgnoreAsciiCase t = true) (hlen : as.length = bs.length)
    (hcov : ∀ k x y, as[k]? = some x → bs[k]? = some y → m.varianceAt s k = .covariant →
      Derives m wide classIsA n x y)
    (hcontra : ∀ k x y, as[k]? = some x → bs[k]? = some y → m.varianceAt s k = .contravariant →
      Derives m wide classIsA n y x)
    (hinv : ∀ k x y, as[k]? = some x → bs[k]? = some y → m.varianceAt s k = .invariant → x = y) :
    Derives m wide classIsA (n + 1) (.named a as) (.named b bs)
  | object (ha : m.symbol a = some s) (hb : m.symbol b = some t)
    (hst : s.eqIgnoreAsciiCase t = false) (hobject : t.eqIgnoreAsciiCase objectName = true) :
    Derives m wide classIsA (n + 1) (.named a as) (.named b bs)
  | ancestor (ha : m.symbol a = some s) (hb : m.symbol b = some t)
    (hst : s.eqIgnoreAsciiCase t = false) (hbs : bs ≠ []) (hd : m.findClassLike s = some d)
    (hlen : (effectiveInheritanceArguments d as).length = d.parameters.length)
    (hanc : TransGen m.Inherits (d, effectiveInheritanceArguments d as) (e, γ))
    (he : m.symbol e.owner = some u) (hu : u.eqIgnoreAsciiCase t = true)
    (h : Derives m wide classIsA n (.named b γ) (.named b bs)) :
    Derives m wide classIsA (n + 1) (.named a as) (.named b bs)
  | classIsA (ha : m.symbol a = some s) (hb : m.symbol b = some t)
    (hst : s.eqIgnoreAsciiCase t = false) (h : classIsA s t = true) :
    Derives m wide classIsA (n + 1) (.named a as) (.named b [])

variable {m : GenericMetadata} {wide : Bool} {classIsA : Name → Name → Bool}

theorem Derives.succ (h : m.Derives wide classIsA n a b) : m.Derives wide classIsA (n + 1) a b := by
  induction h with
  | refl => exact .refl
  | never => exact .never
  | mixed => exact .mixed
  | unionLeft _ ih => exact .unionLeft ih
  | intersectionRight ha _ ih => exact .intersectionRight ha ih
  | unionRight ha hp _ ih => exact .unionRight ha hp ih
  | intersectionLeft hb hb' hp _ ih => exact .intersectionLeft hb hb' hp ih
  | null => exact .null
  | nullables _ ih => exact .nullables ih
  | nullable ha ha' ha'' _ ih => exact .nullable ha ha' ha'' ih
  | arguments ha hb hst hlen _ _ hinv ihcov ihcontra =>
    exact .arguments ha hb hst hlen ihcov ihcontra hinv
  | object ha hb hst hobject => exact .object ha hb hst hobject
  | ancestor ha hb hst hbs hd hlen hanc he hu _ ih =>
    exact .ancestor ha hb hst hbs hd hlen hanc he hu ih
  | classIsA ha hb hst h => exact .classIsA ha hb hst h

/-- What is accepted in the narrow sense is accepted in the wide one. -/
theorem Derives.widen (h : m.Derives false classIsA n a b) : m.Derives true classIsA n a b := by
  induction h with
  | refl => exact .refl
  | never => exact .never
  | mixed => exact .mixed
  | unionLeft _ ih => exact .unionLeft ih
  | intersectionRight ha _ ih => exact .intersectionRight ha ih
  | unionRight ha hp _ ih => exact .unionRight ha hp ih
  | intersectionLeft _ hb' hp _ ih => exact .intersectionLeft (fun _ => rfl) hb' hp ih
  | null => exact .null
  | nullables _ ih => exact .nullables ih
  | nullable ha ha' ha'' _ ih => exact .nullable ha ha' ha'' ih
  | arguments ha hb hst hlen _ _ hinv ihcov ihcontra =>
    exact .arguments ha hb hst hlen ihcov ihcontra hinv
  | object ha hb hst hobject => exact .object ha hb hst hobject
  | ancestor ha hb hst hbs hd hlen hanc he hu _ ih =>
    exact .ancestor ha hb hst hbs hd hlen hanc he hu ih
  | classIsA ha hb hst h => exact .classIsA ha hb hst h

/-- Arguments of one class that are related in the direction of their parameters. -/
structure Compared (m : GenericMetadata) (R : GenericType → GenericType → Prop) (s : Name)
    (as bs : List GenericType) : Prop where
  length : as.length = bs.length
  covariant : ∀ k x y, as[k]? = some x → bs[k]? = some y → m.varianceAt s k = .covariant → R x y
  contravariant : ∀ k x y, as[k]? = some x → bs[k]? = some y →
    m.varianceAt s k = .contravariant → R y x
  invariant : ∀ k x y, as[k]? = some x → bs[k]? = some y → m.varianceAt s k = .invariant → x = y

theorem Compared.imp {R R' : GenericType → GenericType → Prop} (h : m.Compared R s as bs)
    (himp : ∀ x y, R x y → R' x y) : m.Compared R' s as bs :=
  ⟨h.length, fun k x y hx hy hv => himp x y (h.covariant k x y hx hy hv),
    fun k x y hx hy hv => himp y x (h.contravariant k x y hx hy hv), h.invariant⟩

/-- How a named type can be accepted for another, with derivations below a height. -/
inductive NamedStep (m : GenericMetadata) (wide : Bool) (classIsA : Name → Name → Bool) (n : Nat)
    (b : Nat) (as bs : List GenericType) (s t : Name) : Prop
  | arguments (hst : s.eqIgnoreAsciiCase t = true)
    (h : m.Compared (m.Derives wide classIsA n) s as bs)
  | object (hst : s.eqIgnoreAsciiCase t = false) (hobject : t.eqIgnoreAsciiCase objectName = true)
  | ancestor (hst : s.eqIgnoreAsciiCase t = false) (hbs : bs ≠ [])
    (hd : m.findClassLike s = some d)
    (hlen : (effectiveInheritanceArguments d as).length = d.parameters.length)
    (hanc : TransGen m.Inherits (d, effectiveInheritanceArguments d as) (e, γ))
    (he : m.symbol e.owner = some u) (hu : u.eqIgnoreAsciiCase t = true)
    (h : m.Derives wide classIsA n (.named b γ) (.named b bs))
  | classIsA (hst : s.eqIgnoreAsciiCase t = false) (hbs : bs = []) (h : classIsA s t = true)

theorem Derives.named_inv (h : m.Derives wide classIsA k (.named a as) (.named b bs))
    (hne : named a as ≠ named b bs) : ∃ n s t, k = n + 1 ∧ m.symbol a = some s ∧
      m.symbol b = some t ∧ m.NamedStep wide classIsA n b as bs s t := by
  cases h with
  | refl => exact absurd rfl hne
  | arguments ha hb hst hlen hcov hcontra hinv =>
    exact ⟨_, _, _, rfl, ha, hb, .arguments hst ⟨hlen, hcov, hcontra, hinv⟩⟩
  | object ha hb hst hobject => exact ⟨_, _, _, rfl, ha, hb, .object hst hobject⟩
  | ancestor ha hb hst hbs hd hlen hanc he hu h =>
    exact ⟨_, _, _, rfl, ha, hb, .ancestor hst hbs hd hlen hanc he hu h⟩
  | classIsA ha hb hst h => exact ⟨_, _, _, rfl, ha, hb, .classIsA hst rfl h⟩

theorem NamedStep.derives (h : m.NamedStep wide classIsA n b as bs s t) (ha : m.symbol a = some s)
    (hb : m.symbol b = some t) : m.Derives wide classIsA (n + 1) (.named a as) (.named b bs) := by
  cases h with
  | arguments hst h => exact .arguments ha hb hst h.length h.covariant h.contravariant h.invariant
  | object hst hobject => exact .object ha hb hst hobject
  | ancestor hst hbs hd hlen hanc he hu h => exact .ancestor ha hb hst hbs hd hlen hanc he hu h
  | classIsA hst hbs h =>
    subst hbs
    exact .classIsA ha hb hst h

theorem compareArguments_eq_true {p : GenericType → GenericType → Option Bool} :
    m.compareArguments p s as bs = some true ↔
      m.Compared (fun x y => p x y = some true) s as bs := by
  have hmem : ∀ {x y k}, ((x, y), k) ∈ (as.zip bs).zipIdx ↔ as[k]? = some x ∧ bs[k]? = some y := by
    intro x y k
    rw [List.mk_mem_zipIdx_iff_getElem?, List.getElem?_zip_eq_some]
  simp only [compareArguments, Option.map_eq_some_iff, Bool.and_eq_true, decide_eq_true_eq]
  constructor
  · rintro ⟨all, hall, rfl, hlen⟩
    have hargs : ∀ k x y, as[k]? = some x → bs[k]? = some y → _ :=
      fun k x y hx hy => allM_eq_true.1 hall _ (hmem.2 ⟨hx, hy⟩)
    refine ⟨hlen, fun k x y hx hy hv => ?_, fun k x y hx hy hv => ?_, fun k x y hx hy hv => ?_⟩
    · simpa [hv] using hargs k x y hx hy
    · simpa [hv] using hargs k x y hx hy
    · simpa [hv] using hargs k x y hx hy
  · intro h
    refine ⟨true, allM_eq_true.2 ?_, rfl, h.length⟩
    rintro ⟨⟨x, y⟩, k⟩ hk
    obtain ⟨hx, hy⟩ := hmem.1 hk
    cases hv : m.varianceAt s k with
    | covariant => simpa [hv] using h.covariant k x y hx hy hv
    | contravariant => simpa [hv] using h.contravariant k x y hx hy hv
    | invariant => simpa [hv] using h.invariant k x y hx hy hv

section Named
variable {p : GenericType → GenericType → Option Bool}

theorem compareNamed_sound (htrue : ∀ x y, p x y = some true → m.Derives wide classIsA n x y)
    (h : m.compareNamed classIsA fuel p a as b bs = some true) :
    m.Derives wide classIsA (n + 1) (.named a as) (.named b bs) := by
  unfold compareNamed at h
  split at h
  · next s t ha hb =>
    refine NamedStep.derives ?_ ha hb
    split_ifs at h with hst hobject hbs
    · exact .arguments hst ((compareArguments_eq_true.1 h).imp htrue)
    · exact .object (Bool.eq_false_iff.2 hst) hobject
    · split at h
      · cases h
      · next d hd =>
        dsimp only at h
        split_ifs at h with hlen
        · cases h
        obtain ⟨l, hl, h⟩ := Option.bind_eq_some_iff.1 h
        obtain ⟨⟨e, γ⟩, he, hp⟩ := exists_of_anyM_eq_true h
        obtain ⟨hmem, hname⟩ := List.mem_filter.1 he
        obtain ⟨u, hu, hut⟩ := (Option.any_eq_true _ _).1 hname
        exact .ancestor (Bool.eq_false_iff.2 hst) hbs hd (not_not.1 hlen)
          ((mem_ancestorBindingsFrom hl).1 hmem) hu hut (htrue _ _ hp)
    · exact .classIsA (Bool.eq_false_iff.2 hst) (not_not.1 hbs) (Option.some.inj h)
  · cases h

end Named

/-- What the check accepts has a derivation. -/
theorem genericTypeIsSubtype_sound (fuel : Nat) {a b : GenericType}
    (h : m.genericTypeIsSubtype classIsA fuel a b = some true) :
    m.Derives wide classIsA fuel a b := by
  induction fuel generalizing a b with
  | zero => simp [genericTypeIsSubtype] at h
  | succ fuel ih =>
    unfold genericTypeIsSubtype at h
    split_ifs at h with htriv
    · rcases htriv with rfl | rfl | rfl
      · exact .refl
      · exact .never
      · exact .mixed
    · split at h
      · exact .unionLeft fun p hp => ih (allM_eq_true.1 h p hp)
      · next ps hu =>
        refine .intersectionRight ?_ fun p hp => ih (allM_eq_true.1 h p hp)
        exact isUnion_eq_false (by assumption)
      · next ps hu hi =>
        obtain ⟨p, hp, h⟩ := exists_of_anyM_eq_true h
        refine .unionRight ?_ hp (ih h)
        exact isUnion_eq_false (by assumption)
      · next ps hu hi =>
        obtain ⟨p, hp, h⟩ := exists_of_anyM_eq_true h
        refine .intersectionLeft ?_ ?_ hp (ih h)
        · exact fun hb => absurd hb (Bool.eq_false_iff.1 (isUnion_eq_false (by assumption)))
        · exact isIntersection_eq_false (by assumption)
      · exact .null
      · exact .nullables (ih h)
      · next hu hi hnull hnullable =>
        refine .nullable ?_ ?_ ?_ (ih h)
        · exact isUnion_eq_false (by assumption)
        · exact isIntersection_eq_false (by assumption)
        · exact isNullable_eq_false (by assumption)
      · exact compareNamed_sound (fun x y => ih) h
      · cases h

variable (m wide classIsA) in
def Derivable (a b : GenericType) : Prop := ∃ n, m.Derives wide classIsA n a b

theorem IsSubtype.derivable (h : m.IsSubtype classIsA a b) : m.Derivable wide classIsA a b := by
  obtain ⟨fuel, h⟩ := h
  exact ⟨fuel, genericTypeIsSubtype_sound fuel h⟩

end GenericMetadata

end Rphp.Generics
