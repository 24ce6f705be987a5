import Rphp.Generics.VarianceSoundness

namespace Rphp.Generics
open Lib Relation
set_option autoImplicit true

namespace GenericType

theorem everyNode_imp {f g : GenericType → Bool} (hfg : ∀ t, f t = true → g t = true)
    (t : GenericType) (h : everyNode f t = true) : everyNode g t = true := by
  induction t using inductionOn with
  | named n as ih =>
    simp only [everyNode, everyPart_eq_all, Bool.and_eq_true, List.all_eq_true] at h ⊢
    exact ⟨hfg _ h.1, fun x hx => ih x hx (h.2 x hx)⟩
  | nullable t ih =>
    simp only [everyNode, Bool.and_eq_true] at h ⊢
    exact ⟨hfg _ h.1, ih h.2⟩
  | union ps ih =>
    simp only [everyNode, everyPart_eq_all, Bool.and_eq_true, List.all_eq_true] at h ⊢
    exact ⟨hfg _ h.1, fun x hx => ih x hx (h.2 x hx)⟩
  | intersection ps ih =>
    simp only [everyNode, everyPart_eq_all, Bool.and_eq_true, List.all_eq_true] at h ⊢
    exact ⟨hfg _ h.1, fun x hx => ih x hx (h.2 x hx)⟩
  | _ => exact hfg _ h

/-- A test that only looks at the shape of a node survives a substitution. -/
theorem everyNode_substitute {f : GenericType → Bool} {arguments : List GenericType}
    (hparameter : ∀ i, f (.parameter i) = true) (hmixed : f .mixed = true)
    (hf : ∀ t, f t = true → f (substituteGenericParameters arguments t) = true ∨
      ∃ i, t = .parameter i)
    (t : GenericType) (ht : everyNode f t = true)
    (harguments : ∀ a ∈ arguments, everyNode f a = true) :
    everyNode f (substituteGenericParameters arguments t) = true := by
  have hself : ∀ t, (∀ i, t ≠ .parameter i) → f t = true →
      f (substituteGenericParameters arguments t) = true := by
    intro t hne h
    rcases hf t h with h | ⟨i, rfl⟩
    · exact h
    · exact absurd rfl (hne i)
  induction t using inductionOn with
  | parameter i =>
    simp only [substituteGenericParameters]
    split
    · exact hparameter i
    · cases hi : arguments[i.toNat]? with
      | none => exact hmixed
      | some a => exact harguments a (List.mem_of_getElem? hi)
  | named n as ih =>
    have hroot := hself _ (fun _ hp => by cases hp) (everyNode_self ht)
    simp only [everyNode, everyPart_eq_all, substituteGenericParameters, substituteAll_eq_map,
      Bool.and_eq_true, List.all_map, List.all_eq_true, Function.comp_apply] at hroot ⊢
    exact ⟨hroot, fun x hx => ih x hx (everyNode_named ht hx)⟩
  | nullable t ih =>
    have hroot := hself _ (fun _ hp => by cases hp) (everyNode_self ht)
    simp only [everyNode, substituteGenericParameters, Bool.and_eq_true] at hroot ⊢
    exact ⟨hroot, ih (everyNode_nullable ht)⟩
  | union ps ih =>
    have hroot := hself _ (fun _ hp => by cases hp) (everyNode_self ht)
    simp only [everyNode, everyPart_eq_all, substituteGenericParameters, substituteAll_eq_map,
      Bool.and_eq_true, List.all_map, List.all_eq_true, Function.comp_apply] at hroot ⊢
    exact ⟨hroot, fun x hx => ih x hx (everyNode_union ht hx)⟩
  | intersection ps ih =>
    have hroot := hself _ (fun _ hp => by cases hp) (everyNode_self ht)
    simp only [everyNode, everyPart_eq_all, substituteGenericParameters, substituteAll_eq_map,
      Bool.and_eq_true, List.all_map, List.all_eq_true, Function.comp_apply] at hroot ⊢
    exact ⟨hroot, fun x hx => ih x hx (everyNode_intersection ht hx)⟩
  | _ => exact ht

end GenericType

namespace GenericMetadata
open GenericType

/-- A node whose class is declared and given all its type arguments, or that has parts. The type
`object` has no declaration. -/
def wellFormedNode (m : GenericMetadata) : GenericType → Bool
  | .named name arguments =>
    (m.symbol name).any fun s =>
      (s.eqIgnoreAsciiCase objectName && arguments.length = 0) ||
        (m.findClassLike s).any fun d => arguments.length = d.parameters.length
  | .union parts | .intersection parts => parts ≠ []
  | _ => true

def wellFormed (m : GenericMetadata) : GenericType → Bool := everyNode m.wellFormedNode

variable {m : GenericMetadata} {classIsA : Name → Name → Bool}

theorem noEmpty_of_wellFormed {t : GenericType} (h : m.wellFormed t = true) : t.noEmpty = true := by
  refine everyNode_imp (fun t ht => ?_) t h
  cases t <;> first | rfl | exact ht

theorem declared_of_wellFormed {t : GenericType} (h : m.wellFormed t = true) :
    m.declared t = true := by
  refine everyNode_imp (fun t ht => ?_) t h
  cases t with
  | named n as =>
    obtain ⟨s, hs, hnode⟩ := (Option.any_eq_true _ _).1 ht
    rw [Bool.or_eq_true] at hnode
    rcases hnode with hobject | hfind
    · rw [Bool.and_eq_true, decide_eq_true_eq] at hobject
      simp [List.length_eq_zero_iff.1 hobject.2]
    · obtain ⟨d, hd, -⟩ := (Option.any_eq_true _ _).1 hfind
      simp [target, hs, hd]
  | _ => rfl

theorem wellFormed_substitute {arguments : List GenericType} (t : GenericType)
    (ht : m.wellFormed t = true) (harguments : ∀ a ∈ arguments, m.wellFormed a = true) :
    m.wellFormed (substituteGenericParameters arguments t) = true := by
  refine everyNode_substitute (fun _ => rfl) rfl (fun t ht => ?_) t ht harguments
  cases t with
  | parameter i => exact .inr ⟨i, rfl⟩
  | named n as =>
    left
    simpa [wellFormedNode, substituteGenericParameters] using ht
  | union ps =>
    left
    simpa [wellFormedNode, substituteGenericParameters] using ht
  | intersection ps =>
    left
    simpa [wellFormedNode, substituteGenericParameters] using ht
  | _ => exact .inl ht

variable (m classIsA) in
/-- Metadata that was linked: variances hold, no class is its own ancestor, clauses name declared
classes with all their arguments, the runtime relation of classes is the one that is declared, and
no class took the reserved name. -/
structure Linked : Prop where
  valid : m.validateVariance = .ok ()
  acyclic : m.Acyclic
  clause : ∀ inheritance ∈ m.inheritances, ∀ e ∈ m.target inheritance.ancestor,
    inheritance.arguments.length = e.parameters.length
  arguments : ∀ inheritance ∈ m.inheritances, ∀ a ∈ inheritance.arguments, m.wellFormed a = true
  classIsA : ∀ s t, classIsA s t = true ↔ s.eqIgnoreAsciiCase t = true ∨
    ∃ d e u, m.findClassLike s = some d ∧ TransGen m.Extends d e ∧ m.symbol e.owner = some u ∧
      u.eqIgnoreAsciiCase t = true
  object : m.findClassLike objectName = none

theorem fillDefaults_nil (effective : List GenericType) :
    fillDefaults [] effective = effective := rfl

theorem effectiveInheritanceArguments_full {e : GenericDeclaration} {l : List GenericType}
    (h : l.length = e.parameters.length) : effectiveInheritanceArguments e l = l := by
  rw [effectiveInheritanceArguments, h, List.drop_length, fillDefaults_nil]

theorem Lifted.join {R : GenericType → GenericType → Prop} (h : m.Lifted (m.Lifted R) a b) :
    m.Lifted R a b := by
  induction h with
  | base h => exact h
  | refl => exact .refl
  | nullable _ ih => exact .nullable ih
  | union hlen _ ih => exact .union hlen ih
  | intersection hlen _ ih => exact .intersection hlen ih
  | arguments ha hb hst hlen _ _ hinv ihcov ihcontra =>
    exact .arguments ha hb hst hlen ihcov ihcontra hinv

theorem argument_of_lt {l : List GenericType} {i : Nat} (h : l[i]? = some x) :
    argument l i = x := by
  rw [argument, h, Option.getD_some]

theorem related_of_compared {R : GenericType → GenericType → Prop} {s : Name}
    (hd : m.findClassLike s = some d) (hlen : as.length = d.parameters.length)
    (h : m.Compared R s as bs) : Related d R as bs := by
  have hargs : ∀ i p, d.parameters[i]? = some p →
      as[i]? = some (argument as i) ∧ bs[i]? = some (argument bs i) ∧
        m.varianceAt s i = p.variance := by
    intro i p hp
    have hlt : i < as.length := hlen ▸ (List.getElem?_eq_some_iff.1 hp).1
    have hlt' : i < bs.length := h.length ▸ hlt
    have hx := List.getElem?_eq_getElem hlt
    have hy := List.getElem?_eq_getElem hlt'
    refine ⟨by rw [argument_of_lt hx, hx], by rw [argument_of_lt hy, hy], ?_⟩
    rw [varianceAt_of_find hd, hp]
  refine ⟨fun i p hp hv => ?_, fun i p hp hv => ?_, fun i p hp hv => ?_, fun i hp => ?_⟩
  · obtain ⟨hx, hy, hvar⟩ := hargs i p hp
    exact h.covariant i _ _ hx hy (hvar.trans hv)
  · obtain ⟨hx, hy, hvar⟩ := hargs i p hp
    exact h.contravariant i _ _ hx hy (hvar.trans hv)
  · obtain ⟨hx, hy, hvar⟩ := hargs i p hp
    exact h.invariant i _ _ hx hy (hvar.trans hv)
  · have hge : as.length ≤ i := hlen ▸ List.getElem?_eq_none_iff.1 hp
    rw [argument, argument, List.getElem?_eq_none hge, List.getElem?_eq_none (h.length ▸ hge)]

theorem validateInheritance_ok (h : m.validateVariance = .ok ()) (hd : d ∈ m.declarations)
    (hi : inheritance ∈ m.inheritances) (ho : inheritance.owner = d.owner)
    (ht : m.target inheritance.ancestor = some e) {k : Nat} {a : GenericType}
    (ha : inheritance.arguments[k]? = some a) (hp : e.parameters[k]? = some p) :
    m.validateTypePosition d (.fromVariance p.variance) a = .ok () := by
  have hdecl : m.validateDeclarationVariance d = .ok () := forM_ok h hd
  obtain ⟨_, -, hdecl⟩ := except_bind_eq_ok.mp hdecl
  obtain ⟨⟨⟩, -, hinheritances⟩ := except_bind_eq_ok.mp hdecl
  have hclause := forM_ok hinheritances (List.mem_filter.2 ⟨hi, by simpa using ho⟩)
  simp only [validateInheritance, ht] at hclause
  have hargument := forM_ok hclause (List.mk_mem_zipIdx_iff_getElem?.2 ha)
  simpa [hp] using hargument

theorem exists_name_of_target {name : Nat} (h : m.target name = some e) :
    ∃ u, m.symbol e.owner = some u ∧ m.findClassLike u = some e := by
  obtain ⟨n, -, hn⟩ := target_eq_some.1 h
  obtain ⟨-, u, hu, -⟩ := findClassLike_spec hn
  exact ⟨u, hu, findClassLike_owner hn hu⟩

namespace Linked
variable (hm : m.Linked classIsA)
include hm

theorem clause_arguments (hi : inheritance ∈ m.inheritances)
    (ht : m.target inheritance.ancestor = some e) :
    effectiveInheritanceArguments e inheritance.arguments = inheritance.arguments :=
  effectiveInheritanceArguments_full (hm.clause inheritance hi e ht)

/-- An ancestor of a bound class is bound as it should be. -/
theorem ancestor_spec {x y : GenericDeclaration × List GenericType} (h : TransGen m.Inherits x y)
    (hx : ∀ a ∈ x.2, m.wellFormed a = true) :
    y.2.length = y.1.parameters.length ∧ (∀ a ∈ y.2, m.wellFormed a = true) ∧
      ∃ u, m.symbol y.1.owner = some u ∧ m.findClassLike u = some y.1 := by
  have hstep : ∀ {x y : GenericDeclaration × List GenericType}, m.Inherits x y →
      (∀ a ∈ x.2, m.wellFormed a = true) →
      y.2.length = y.1.parameters.length ∧ (∀ a ∈ y.2, m.wellFormed a = true) ∧
        ∃ u, m.symbol y.1.owner = some u ∧ m.findClassLike u = some y.1 := by
    rintro x y ⟨inheritance, hi, -, ht, ha⟩ hx
    rw [hm.clause_arguments hi ht] at ha
    rw [ha, List.length_map]
    refine ⟨hm.clause _ hi _ ht, fun a hmem => ?_, exists_name_of_target ht⟩
    obtain ⟨t, ht, rfl⟩ := List.mem_map.1 hmem
    exact wellFormed_substitute t (hm.arguments _ hi t ht) hx
  induction h with
  | single h => exact hstep h hx
  | tail _ h ih => exact hstep h ih.2.1

/-- A class that differs from another in its type arguments has ancestors that differ so too. -/
theorem lift_inherits {R : GenericType → GenericType → Prop} {s : Name}
    (hd : m.findClassLike s = some d) (hlen : as.length = d.parameters.length)
    (hcmp : m.Compared (m.Lifted R) s as bs) (h : m.Inherits (d, bs) (e, γ)) :
    ∃ γ' u, m.Inherits (d, as) (e, γ') ∧ m.symbol e.owner = some u ∧
      m.findClassLike u = some e ∧ γ'.length = e.parameters.length ∧
      m.Compared (m.Lifted R) u γ' γ := by
  obtain ⟨inheritance, hi, ho, ht, hγ⟩ := h
  obtain ⟨u, hu, hfind⟩ := exists_name_of_target ht
  have hR := related_of_compared hd hlen hcmp
  have hdecl := (findClassLike_spec hd).1
  have harguments := hm.clause_arguments hi ht
  simp only [harguments] at hγ
  refine ⟨inheritance.arguments.map (substituteGenericParameters as), u,
    ⟨inheritance, hi, ho, ht, by rw [harguments]⟩, hu, hfind, ?_, ?_⟩
  · rw [List.length_map]
    exact hm.clause _ hi _ ht
  have hvaries : ∀ (k : Nat) x y,
      (inheritance.arguments.map (substituteGenericParameters as))[k]? = some x →
      γ[k]? = some y →
      m.Varies (m.Lifted R) (.fromVariance (m.varianceAt u k)) x y := by
    intro k x y hx hy
    rw [hγ] at hy
    obtain ⟨t, hmem, hk, rfl, rfl⟩ := getElem?_map_map hx hy
    have hlt : k < e.parameters.length :=
      hm.clause _ hi _ ht ▸ (List.getElem?_eq_some_iff.1 hk).1
    have hp := List.getElem?_eq_getElem hlt
    have hposition := validateInheritance_ok hm.valid hdecl hi ho ht hk hp
    rw [varianceAt_of_find hfind, hp]
    exact varies_of_position t (declared_of_wellFormed (hm.arguments _ hi t hmem)) hR hposition
  refine ⟨by rw [hγ, List.length_map, List.length_map], fun k x y hx hy hv => ?_,
    fun k x y hx hy hv => ?_, fun k x y hx hy hv => ?_⟩
  · have := hvaries k x y hx hy
    rw [hv] at this
    exact Lifted.join this
  · have := hvaries k x y hx hy
    rw [hv] at this
    exact Lifted.join this
  · have := hvaries k x y hx hy
    rw [hv] at this
    exact this

theorem lift_ancestor {R : GenericType → GenericType → Prop} {s : Name}
    (hd : m.findClassLike s = some d) (hlen : as.length = d.parameters.length)
    (hcmp : m.Compared (m.Lifted R) s as bs) {y : GenericDeclaration × List GenericType}
    (h : TransGen m.Inherits (d, bs) y) :
    ∃ γ u, TransGen m.Inherits (d, as) (y.1, γ) ∧ m.symbol y.1.owner = some u ∧
      m.findClassLike u = some y.1 ∧ γ.length = y.1.parameters.length ∧
      m.Compared (m.Lifted R) u γ y.2 := by
  induction h with
  | single h =>
    obtain ⟨γ, u, hγ, hrest⟩ := hm.lift_inherits hd hlen hcmp h
    exact ⟨γ, u, .single hγ, hrest⟩
  | tail _ h ih =>
    obtain ⟨γ, u, hγ, hu, hfind, hlen', hcmp'⟩ := ih
    obtain ⟨γ', u', hγ', hrest⟩ := hm.lift_inherits hfind hlen' hcmp' h
    exact ⟨γ', u', hγ.tail hγ', hrest⟩

end Linked

theorem extends_of_inherits {x y : GenericDeclaration × List GenericType}
    (h : TransGen m.Inherits x y) : TransGen m.Extends x.1 y.1 :=
  h.lift Prod.fst fun _ _ ⟨inheritance, hi, ho, ht, _⟩ => ⟨inheritance, hi, ho, ht⟩

theorem inherits_of_extends (h : TransGen m.Extends d e) (γ : List GenericType) :
    ∃ ε, TransGen m.Inherits (d, γ) (e, ε) := by
  induction h with
  | @single e h =>
    obtain ⟨inheritance, hi, ho, ht⟩ := h
    refine ⟨(effectiveInheritanceArguments e inheritance.arguments).map
      (substituteGenericParameters γ), .single ?_⟩
    exact ⟨inheritance, hi, ho, ht, rfl⟩
  | @tail _ e _ h ih =>
    obtain ⟨ε, hε⟩ := ih
    obtain ⟨inheritance, hi, ho, ht⟩ := h
    refine ⟨(effectiveInheritanceArguments e inheritance.arguments).map
      (substituteGenericParameters ε), hε.tail ?_⟩
    exact ⟨inheritance, hi, ho, ht, rfl⟩

theorem Acyclic.irrefl (hm : m.Acyclic) : ¬TransGen m.Extends d d := by
  intro h
  have hswap : TransGen (fun e d => m.Extends d e) d d := transGen_swap.1 h
  exact (WellFounded.transGen hm).asymmetric d d hswap hswap

end GenericMetadata

end Rphp.Generics
