import Rphp.Generics.Congruence
import Rphp.Lib.Faults

namespace Rphp.Generics
open Lib Relation
set_option autoImplicit true

namespace GenericMetadata
open GenericType
variable {m : GenericMetadata} {classIsA : Name → Name → Bool}

/-- The position of an argument inside a named type. -/
def nestedPosition (position : GenericTypePosition) (parameters : List GenericParameterMetadata)
    (k : Nat) : GenericTypePosition :=
  match parameters[k]? with
  | none => .invariant
  | some p => position.compose p.variance

theorem validateParts_ok {l : List GenericType} (h : m.validateParts d position l = .ok ())
    (hx : x ∈ l) : m.validateTypePosition d position x = .ok () := by
  induction l with
  | nil => cases hx
  | cons t l ih =>
    rw [validateParts] at h
    obtain ⟨⟨⟩, ht, hl⟩ := except_bind_eq_ok.mp h
    rcases List.mem_cons.1 hx with rfl | hx
    · exact ht
    · exact ih hl hx

theorem validateArguments_ok {l : List GenericType} {parameters : List GenericParameterMetadata}
    {k : Nat} (h : m.validateArguments d position parameters l = .ok ()) (hx : l[k]? = some x) :
    m.validateTypePosition d (nestedPosition position parameters k) x = .ok () := by
  induction l generalizing k parameters with
  | nil => cases hx
  | cons t l ih =>
    rw [validateArguments] at h
    obtain ⟨⟨⟩, ht, hl⟩ := except_bind_eq_ok.mp h
    cases k with
    | zero =>
      cases hx
      rw [List.head?_eq_getElem?] at ht
      unfold nestedPosition
      cases hp : parameters[0]? <;> rw [hp] at ht <;> exact ht
    | succ k =>
      have := ih hl hx
      simpa [nestedPosition] using this

/-- Every named type with arguments has a target. -/
def declared (m : GenericMetadata) : GenericType → Bool :=
  everyNode fun
    | .named name arguments => arguments = [] || (m.target name).isSome
    | _ => true

theorem varianceAt_of_find {s : Name} (h : m.findClassLike s = some d) (k : Nat) :
    m.varianceAt s k = match d.parameters[k]? with
      | some p => p.variance
      | none => .invariant := by
  cases hk : d.parameters[k]? with
  | none => simp [varianceAt, h, hk]
  | some p => simp [varianceAt, h, hk]

section Position
variable (m) (R : GenericType → GenericType → Prop)

/-- How two types compare that differ inside a position. -/
def Varies : GenericTypePosition → GenericType → GenericType → Prop
  | .covariant, x, y => m.Lifted R x y
  | .contravariant, x, y => m.Lifted R y x
  | .invariant, x, y => x = y

variable {m R}

theorem Varies.refl (position : GenericTypePosition) (x : GenericType) :
    m.Varies R position x x := by
  cases position with
  | covariant => exact Lifted.refl
  | contravariant => exact Lifted.refl
  | invariant => rfl

theorem Varies.nullable (h : m.Varies R position x y) :
    m.Varies R position (.nullable x) (.nullable y) := by
  cases position with
  | covariant => exact Lifted.nullable h
  | contravariant => exact Lifted.nullable h
  | invariant => exact congrArg _ h

theorem map_eq_of_varies {f g : GenericType → GenericType} {l : List GenericType}
    (h : ∀ x ∈ l, m.Varies R .invariant (f x) (g x)) : l.map f = l.map g :=
  List.map_congr_left h

theorem getElem?_map_map {f g : α → β} {l : List α} {k : Nat} (hx : (l.map f)[k]? = some x)
    (hy : (l.map g)[k]? = some y) : ∃ t ∈ l, l[k]? = some t ∧ f t = x ∧ g t = y := by
  rw [List.getElem?_map, Option.map_eq_some_iff] at hx
  obtain ⟨t, ht, rfl⟩ := hx
  rw [List.getElem?_map, ht, Option.map_some, Option.some.injEq] at hy
  exact ⟨t, List.mem_of_getElem? ht, ht, rfl, hy⟩

variable {f g : GenericType → GenericType}

theorem Varies.union {ps : List GenericType} (h : ∀ p ∈ ps, m.Varies R position (f p) (g p)) :
    m.Varies R position (.union (ps.map f)) (.union (ps.map g)) := by
  cases position with
  | covariant =>
    refine Lifted.union (by simp) fun k p q hp hq => ?_
    obtain ⟨t, ht, -, rfl, rfl⟩ := getElem?_map_map hp hq
    exact h t ht
  | contravariant =>
    refine Lifted.union (by simp) fun k p q hp hq => ?_
    obtain ⟨t, ht, -, rfl, rfl⟩ := getElem?_map_map hp hq
    exact h t ht
  | invariant => exact congrArg _ (map_eq_of_varies h)

theorem Varies.intersection {ps : List GenericType}
    (h : ∀ p ∈ ps, m.Varies R position (f p) (g p)) :
    m.Varies R position (.intersection (ps.map f)) (.intersection (ps.map g)) := by
  cases position with
  | covariant =>
    refine Lifted.intersection (by simp) fun k p q hp hq => ?_
    obtain ⟨t, ht, -, rfl, rfl⟩ := getElem?_map_map hp hq
    exact h t ht
  | contravariant =>
    refine Lifted.intersection (by simp) fun k p q hp hq => ?_
    obtain ⟨t, ht, -, rfl, rfl⟩ := getElem?_map_map hp hq
    exact h t ht
  | invariant => exact congrArg _ (map_eq_of_varies h)

theorem Varies.named {as : List GenericType} (hn : m.symbol n = some s)
    (h : ∀ (k : Nat) x, as[k]? = some x →
      m.Varies R (position.compose (m.varianceAt s k)) (f x) (g x)) :
    m.Varies R position (.named n (as.map f)) (.named n (as.map g)) := by
  cases position with
  | covariant =>
    refine Lifted.arguments hn hn (by simp) (by simp) ?_ ?_ ?_
    all_goals
      intro k x y hx hy hv
      obtain ⟨t, ht, hk, rfl, rfl⟩ := getElem?_map_map hx hy
      simpa [hv, GenericTypePosition.compose, Varies] using h k t hk
  | contravariant =>
    refine Lifted.arguments hn hn (by simp) (by simp) ?_ ?_ ?_
    all_goals
      intro k x y hx hy hv
      obtain ⟨t, ht, hk, rfl, rfl⟩ := getElem?_map_map hy hx
      simpa [hv, GenericTypePosition.compose, Varies, eq_comm] using h k t hk
  | invariant =>
    refine congrArg _ (map_eq_of_varies (m := m) (R := R) fun x hx => ?_)
    obtain ⟨k, hk⟩ := List.getElem?_of_mem hx
    simpa [GenericTypePosition.compose] using h k x hk

end Position

/-- A type depends on type arguments as its position says. -/
theorem varies_of_position {R : GenericType → GenericType → Prop} (t : GenericType)
    (hdeclared : m.declared t = true) (hR : Related d R lower upper)
    (hposition : m.validateTypePosition d position t = .ok ()) :
    m.Varies R position (substituteGenericParameters lower t)
      (substituteGenericParameters upper t) := by
  induction t using inductionOn generalizing position with
  | parameter i =>
    simp only [substituteGenericParameters]
    split
    · exact .refl _ _
    · cases hp : d.parameters[i.toNat]? with
      | none =>
        rw [show (lower[i.toNat]?).getD .mixed = (upper[i.toNat]?).getD .mixed from hR.beyond _ hp]
        exact .refl _ _
      | some p =>
        simp only [validateTypePosition, hp] at hposition
        split_ifs at hposition with hallows
        cases hv : p.variance with
        | invariant =>
          rw [show (lower[i.toNat]?).getD .mixed = (upper[i.toNat]?).getD .mixed from
            hR.invariant _ p hp hv]
          exact .refl _ _
        | covariant =>
          obtain rfl : position = .covariant := by
            simpa [hv, GenericTypePosition.allows] using hallows
          exact Lifted.base (hR.covariant _ p hp hv)
        | contravariant =>
          obtain rfl : position = .contravariant := by
            simpa [hv, GenericTypePosition.allows] using hallows
          exact Lifted.base (hR.contravariant _ p hp hv)
  | named n as ih =>
    simp only [substituteGenericParameters, substituteAll_eq_map]
    have hnode := everyNode_self hdeclared
    simp only [Bool.or_eq_true, decide_eq_true_eq, Option.isSome_iff_exists] at hnode
    rcases hnode with rfl | ⟨target, htarget⟩
    · exact .refl _ _
    obtain ⟨s, hs, hfind⟩ := target_eq_some.1 htarget
    refine .named hs fun k x hx => ?_
    simp only [validateTypePosition, htarget] at hposition
    have hmem := List.mem_of_getElem? hx
    refine ih x hmem (everyNode_named hdeclared hmem) ?_
    have hnested := validateArguments_ok hposition hx
    rw [varianceAt_of_find hfind]
    unfold nestedPosition at hnested
    split at hnested
    · next hnone =>
      rw [hnone]
      cases position <;> exact hnested
    · next p hp =>
      rw [hp]
      exact hnested
  | nullable t ih =>
    refine .nullable (ih (everyNode_nullable hdeclared) ?_)
    simpa [validateTypePosition] using hposition
  | union ps ih =>
    simp only [substituteGenericParameters, substituteAll_eq_map]
    rw [validateTypePosition] at hposition
    exact .union fun p hp => ih p hp (everyNode_union hdeclared hp) (validateParts_ok hposition hp)
  | intersection ps ih =>
    simp only [substituteGenericParameters, substituteAll_eq_map]
    rw [validateTypePosition] at hposition
    exact .intersection fun p hp =>
      ih p hp (everyNode_intersection hdeclared hp) (validateParts_ok hposition hp)
  | _ => exact .refl _ _

theorem forM_ok {f : α → Except ε Unit} {l : List α} (h : l.forM f = .ok ()) (hx : x ∈ l) :
    f x = .ok () := by
  induction l with
  | nil => cases hx
  | cons a l ih =>
    change (f a >>= fun _ => l.forM f) = .ok () at h
    obtain ⟨⟨⟩, ha, hl⟩ := except_bind_eq_ok.mp h
    rcases List.mem_cons.1 hx with rfl | hx
    · exact ha
    · exact ih hl hx

theorem validateUse_ok (h : m.validateVariance = .ok ()) (hd : d ∈ m.declarations)
    (huse : use ∈ d.varianceUses) :
    m.validateTypePosition d use.position use.valueType = .ok () := by
  have hdecl : m.validateDeclarationVariance d = .ok () := forM_ok h hd
  obtain ⟨_, -, hdecl⟩ := except_bind_eq_ok.mp hdecl
  obtain ⟨⟨⟩, huses, -⟩ := except_bind_eq_ok.mp hdecl
  have := forM_ok huses huse
  unfold validateUse at this
  split_ifs at this with hstatic
  exact this

/-- Every parameter stands for itself but one. -/
def instantiate (d : GenericDeclaration) (i : Nat) (a : GenericType) : List GenericType :=
  ((List.range d.parameters.length).map fun k => .parameter k.toUInt8).set i a

theorem argument_instantiate_of_ne (h : j ≠ i) :
    argument (instantiate d i a) j = argument (instantiate d i b) j := by
  simp only [argument, instantiate, List.getElem?_set_ne (Ne.symm h)]

theorem argument_instantiate_self (h : d.parameters[i]? = some p) :
    argument (instantiate d i a) i = a := by
  have hlt : i < d.parameters.length := (List.getElem?_eq_some_iff.1 h).1
  simp [argument, instantiate, hlt]

/-- A parameter that is given a subtype, or a supertype, in the direction of its variance. -/
theorem related_instantiate {R : GenericType → GenericType → Prop} (hrefl : ∀ x, R x x)
    (hp : d.parameters[i]? = some p) (hcov : p.variance = .covariant → R a b)
    (hcontra : p.variance = .contravariant → R b a) (hinv : p.variance ≠ .invariant) :
    Related d R (instantiate d i a) (instantiate d i b) := by
  have hself : ∀ c, argument (instantiate d i c) i = c := fun c => argument_instantiate_self hp
  refine ⟨fun j q hq hv => ?_, fun j q hq hv => ?_, fun j q hq hv => ?_, fun j hq => ?_⟩
  · by_cases hj : j = i
    · subst hj
      rw [hp, Option.some.injEq] at hq
      rw [hself, hself]
      exact hcov (hq ▸ hv)
    · rw [argument_instantiate_of_ne (a := a) (b := b) hj]
      exact hrefl _
  · by_cases hj : j = i
    · subst hj
      rw [hp, Option.some.injEq] at hq
      rw [hself, hself]
      exact hcontra (hq ▸ hv)
    · rw [argument_instantiate_of_ne (a := a) (b := b) hj]
      exact hrefl _
  · by_cases hj : j = i
    · subst hj
      rw [hp, Option.some.injEq] at hq
      exact absurd (hq ▸ hv) hinv
    · exact argument_instantiate_of_ne hj
  · by_cases hj : j = i
    · rw [hj, hp] at hq
      cases hq
    · exact argument_instantiate_of_ne hj

section Use
variable {d : GenericDeclaration} {p : GenericParameterMetadata} {use : GenericVarianceUse}
  {a b : GenericType} {i : Nat}

theorem derivable_of_use (hvalid : m.validateVariance = .ok ()) (hd : d ∈ m.declarations)
    (huse : use ∈ d.varianceUses) (hdeclared : m.declared use.valueType = true)
    (hcov : use.position = .covariant →
      Related d (m.Derivable true classIsA) (instantiate d i a) (instantiate d i b))
    (hcontra : use.position = .contravariant →
      Related d (m.Derivable true classIsA) (instantiate d i b) (instantiate d i a))
    (hposition : use.position ≠ .invariant) :
    m.Derivable true classIsA (substituteGenericParameters (instantiate d i a) use.valueType)
      (substituteGenericParameters (instantiate d i b) use.valueType) := by
  have hok := validateUse_ok hvalid hd huse
  refine Lifted.derivable (R := m.Derivable true classIsA) ?_ fun _ _ h => h
  cases hp : use.position with
  | covariant =>
    rw [hp] at hok
    exact varies_of_position _ hdeclared (hcov hp) hok
  | contravariant =>
    rw [hp] at hok
    exact varies_of_position _ hdeclared (hcontra hp) hok
  | invariant => exact absurd hp hposition

/-- A use in a covariant position follows its covariant parameters and goes against its
contravariant ones; in a contravariant position it is the other way round. -/
theorem validated_use_is_monotone (hvalid : m.validateVariance = .ok ()) (hm : m.Acyclic)
    (hd : d ∈ m.declarations) (hp : d.parameters[i]? = some p) (huse : use ∈ d.varianceUses)
    (hdeclared : m.declared use.valueType = true) (hab : m.IsSubtype classIsA a b) :
    (p.variance = .covariant ∧ use.position = .covariant ∨
        p.variance = .contravariant ∧ use.position = .contravariant →
      m.Clear classIsA (substituteGenericParameters (instantiate d i a) use.valueType)
        (substituteGenericParameters (instantiate d i b) use.valueType) →
      m.IsSubtype classIsA (substituteGenericParameters (instantiate d i a) use.valueType)
        (substituteGenericParameters (instantiate d i b) use.valueType)) ∧
    (p.variance = .covariant ∧ use.position = .contravariant ∨
        p.variance = .contravariant ∧ use.position = .covariant →
      m.Clear classIsA (substituteGenericParameters (instantiate d i b) use.valueType)
        (substituteGenericParameters (instantiate d i a) use.valueType) →
      m.IsSubtype classIsA (substituteGenericParameters (instantiate d i b) use.valueType)
        (substituteGenericParameters (instantiate d i a) use.valueType)) := by
  have hR : m.Derivable true classIsA a b := hab.derivable
  constructor
  · rintro (⟨hv, hpos⟩ | ⟨hv, hpos⟩) hclear
    · refine (derivable_of_use hvalid hd huse hdeclared (fun _ => ?_) ?_ ?_).isSubtype_of_clear hm
        hclear
      · exact related_instantiate .refl hp (fun _ => hR) (by simp [hv]) (by simp [hv])
      · simp [hpos]
      · simp [hpos]
    · refine (derivable_of_use hvalid hd huse hdeclared ?_ (fun _ => ?_) ?_).isSubtype_of_clear hm
        hclear
      · simp [hpos]
      · exact related_instantiate .refl hp (by simp [hv]) (fun _ => hR) (by simp [hv])
      · simp [hpos]
  · rintro (⟨hv, hpos⟩ | ⟨hv, hpos⟩) hclear
    · refine (derivable_of_use hvalid hd huse hdeclared ?_ (fun _ => ?_) ?_).isSubtype_of_clear hm
        hclear
      · simp [hpos]
      · exact related_instantiate .refl hp (fun _ => hR) (by simp [hv]) (by simp [hv])
      · simp [hpos]
    · refine (derivable_of_use hvalid hd huse hdeclared (fun _ => ?_) ?_ ?_).isSubtype_of_clear hm
        hclear
      · exact related_instantiate .refl hp (by simp [hv]) (fun _ => hR) (by simp [hv])
      · simp [hpos]
      · simp [hpos]

end Use

/-- `class Box<+T>` with members of the types `Box<T>&X` and `T&X`. -/
def boxMetadata : GenericMetadata where
  symbols := [['X'], ['P'], ['Q'], ['R'], ['B', 'o', 'x'], ['T']]
  declarations := [⟨.interface, 0, [], []⟩, ⟨.interface, 1, [], []⟩, ⟨.interface, 2, [], []⟩,
    ⟨.interface, 3, [], []⟩,
    ⟨.class, 4, [⟨5, .covariant, none, none⟩],
      [⟨.intersection [.named 4 [.parameter 0], .named 0 []], .covariant, false⟩,
        ⟨.intersection [.parameter 0, .named 0 []], .covariant, false⟩]⟩]
  inheritances := []

theorem boxMetadata_acyclic : boxMetadata.Acyclic := acyclic_of_symbols nofun

theorem boxMetadata_clear : boxMetadata.Clear Name.eqIgnoreAsciiCase
    (.intersection [.union [.named 1 [], .named 2 []], .named 0 []])
    (.intersection [.mixed, .named 0 []]) := by
  refine .intersectionRight rfl (forall_mem_pair (.settled (.inr (.inr rfl))) ?_)
  refine .intersectionLeft rfl rfl (forall_mem_pair ?_ (.classes 0 0))
  exact .unionLeft (forall_mem_pair (.classes 1 0) (.classes 2 0))

/-- `(P|Q)&X` is accepted for `mixed&X`. -/
theorem box_of_part_accepted :
    boxMetadata.IsSubtype Name.eqIgnoreAsciiCase
      (.intersection [.union [.named 1 [], .named 2 []], .named 0 []])
      (.intersection [.mixed, .named 0 []]) :=
  (validated_use_is_monotone (m := boxMetadata) (i := 0) (a := .union [.named 1 [], .named 2 []])
    (b := .mixed) rfl boxMetadata_acyclic (List.mem_of_getElem? (i := 4) rfl) rfl
    (List.mem_of_getElem? (i := 1) rfl) (by decide) ⟨1, by decide +kernel⟩).1
    (.inl ⟨rfl, rfl⟩) boxMetadata_clear

/-- `P|Q` is accepted for `P|Q|R`, but `(P|Q)&X` is not accepted for `(P|Q|R)&X`. -/
theorem intersection_use_not_monotone :
    ¬∀ (m : GenericMetadata) (classIsA : Name → Name → Bool) (d : GenericDeclaration) (i : Nat)
      (p : GenericParameterMetadata) (use : GenericVarianceUse) (a b : GenericType),
      m.validateVariance = .ok () → d ∈ m.declarations → d.parameters[i]? = some p →
      p.variance = .covariant → use ∈ d.varianceUses → use.position = .covariant →
      m.declared use.valueType = true → m.IsSubtype classIsA a b →
      m.IsSubtype classIsA (substituteGenericParameters (instantiate d i a) use.valueType)
        (substituteGenericParameters (instantiate d i b) use.valueType) := by
  intro h
  obtain ⟨fuel, hyes⟩ := h boxMetadata Name.eqIgnoreAsciiCase _ 0 _ _
    (.union [.named 1 [], .named 2 []]) (.union [.named 1 [], .named 2 [], .named 3 []]) rfl
    (List.mem_of_getElem? (i := 4) rfl) rfl rfl (List.mem_of_getElem? (i := 1) rfl) rfl (by decide)
    ⟨3, by decide +kernel⟩
  have hno : boxMetadata.genericTypeIsSubtype Name.eqIgnoreAsciiCase 5
      (.intersection [.union [.named 1 [], .named 2 []], .named 0 []])
      (.intersection [.union [.named 1 [], .named 2 [], .named 3 []], .named 0 []]) =
        some false := by decide +kernel
  cases IsSubtype.answer ⟨fuel, hyes⟩ hno

end GenericMetadata

end Rphp.Generics
