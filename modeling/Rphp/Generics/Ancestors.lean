import Rphp.Generics.Subtype

namespace Rphp.Generics
open Lib Relation
set_option autoImplicit true

theorem Name.eqIgnoreAsciiCase_iff (a b : Name) :
    a.eqIgnoreAsciiCase b = true ↔ a.map Char.toLower = b.map Char.toLower := by
  simp [Name.eqIgnoreAsciiCase]

@[simp] theorem Name.eqIgnoreAsciiCase_refl (a : Name) : a.eqIgnoreAsciiCase a = true := by
  simp [Name.eqIgnoreAsciiCase]

theorem Name.eqIgnoreAsciiCase_symm {a b : Name} (h : a.eqIgnoreAsciiCase b = true) :
    b.eqIgnoreAsciiCase a = true := by
  rw [eqIgnoreAsciiCase_iff] at h ⊢
  exact h.symm

theorem Name.eqIgnoreAsciiCase_trans {a b c : Name} (h : a.eqIgnoreAsciiCase b = true)
    (h' : b.eqIgnoreAsciiCase c = true) : a.eqIgnoreAsciiCase c = true := by
  rw [eqIgnoreAsciiCase_iff] at h h' ⊢
  exact h.trans h'

theorem Name.eqIgnoreAsciiCase_congr {a b : Name} (c : Name) (h : a.eqIgnoreAsciiCase b = true) :
    c.eqIgnoreAsciiCase a = c.eqIgnoreAsciiCase b := by
  rw [eqIgnoreAsciiCase_iff] at h
  simp only [Name.eqIgnoreAsciiCase, h]

namespace GenericMetadata
variable {m : GenericMetadata}

/-- Spelling does not matter where a class is looked up. -/
theorem findClassLike_congr {a b : Name} (h : a.eqIgnoreAsciiCase b = true) :
    m.findClassLike a = m.findClassLike b := by
  simp only [findClassLike, findClassLikeIndex, Name.eqIgnoreAsciiCase_congr _ h]

theorem findClassLike_spec {n : Name} (h : m.findClassLike n = some d) :
    d ∈ m.declarations ∧ ∃ t, m.symbol d.owner = some t ∧ t.eqIgnoreAsciiCase n = true := by
  obtain ⟨index, hindex, hd⟩ := Option.bind_eq_some_iff.1 h
  refine ⟨List.mem_of_getElem? hd, ?_⟩
  obtain ⟨hlt, hpred, -⟩ := List.findIdx?_eq_some_iff_getElem.1 hindex
  rw [List.getElem?_eq_getElem hlt, Option.some.injEq] at hd
  rw [hd, Bool.and_eq_true, Option.any_eq_true] at hpred
  exact hpred.2

/-- A class that is looked up under its own name. -/
theorem findClassLike_owner {n t : Name} (h : m.findClassLike n = some d)
    (ht : m.symbol d.owner = some t) : m.findClassLike t = some d := by
  obtain ⟨-, t', ht', hn⟩ := findClassLike_spec h
  rw [ht, Option.some.injEq] at ht'
  subst ht'
  rw [findClassLike_congr hn, h]

theorem findClassLike_injective {n n' : Name} (h : m.findClassLike n = some d)
    (h' : m.findClassLike n' = some d') (ho : d.owner = d'.owner) : d = d' := by
  obtain ⟨-, t, ht, hn⟩ := findClassLike_spec h
  rw [ho] at ht
  obtain ⟨-, t', ht', hn'⟩ := findClassLike_spec h'
  rw [ht, Option.some.injEq] at ht'
  subst ht'
  rw [findClassLike_congr (Name.eqIgnoreAsciiCase_trans (Name.eqIgnoreAsciiCase_symm hn) hn'),
    h'] at h
  exact (Option.some.inj h).symm

theorem target_eq_some {name : Nat} : m.target name = some d ↔
    ∃ n, m.symbol name = some n ∧ m.findClassLike n = some d := by
  simp [target, Option.bind_eq_some_iff]

variable (m) in
/-- One inheritance clause, with the type arguments of the child put into it. -/
def Inherits (x y : GenericDeclaration × List GenericType) : Prop :=
  ∃ inheritance ∈ m.inheritances, inheritance.owner = x.1.owner ∧
    m.target inheritance.ancestor = some y.1 ∧
    y.2 = (effectiveInheritanceArguments y.1 inheritance.arguments).map
      (substituteGenericParameters x.2)

theorem mem_directAncestors {x y : Binding} : y ∈ m.directAncestors x ↔
    ∃ inheritance ∈ m.inheritances, inheritance.owner = x.declaration.owner ∧
      m.target inheritance.ancestor = some y.declaration ∧
      y.arguments = (effectiveInheritanceArguments y.declaration inheritance.arguments).map
        (substituteGenericParameters x.arguments) ∧ y.scope = x.scopeOf y.declaration := by
  simp only [directAncestors, List.mem_filterMap, List.mem_filter, Option.map_eq_some_iff,
    decide_eq_true_eq]
  constructor
  · rintro ⟨inheritance, ⟨hi, ho⟩, ancestor, ht, rfl⟩
    exact ⟨inheritance, hi, ho, ht, rfl, rfl⟩
  · rintro ⟨inheritance, hi, ho, ht, ha, hs⟩
    refine ⟨inheritance, ⟨hi, ho⟩, y.declaration, ht, ?_⟩
    cases y
    simp only at ha hs
    rw [ha, hs]

/-- What an ancestor is bound to does not depend on the scope in which it is reached. -/
theorem exists_scope_iff {d : GenericDeclaration} {γ : List GenericType} {s : Nat}
    {y : GenericDeclaration × List GenericType} :
    (∃ t, TransGen (fun x y => y ∈ m.directAncestors x) ⟨d, γ, s⟩ ⟨y.1, y.2, t⟩) ↔
      TransGen m.Inherits (d, γ) y := by
  constructor
  · rintro ⟨t, h⟩
    have hstep : ∀ a b : Binding, b ∈ m.directAncestors a →
        m.Inherits (a.declaration, a.arguments) (b.declaration, b.arguments) := by
      intro a b hb
      obtain ⟨inheritance, hi, ho, ht, ha, -⟩ := mem_directAncestors.1 hb
      exact ⟨inheritance, hi, ho, ht, ha⟩
    exact h.lift _ hstep
  · intro h
    induction h with
    | @single z hy =>
      obtain ⟨inheritance, hi, ho, ht, ha⟩ := hy
      refine ⟨Binding.scopeOf ⟨d, γ, s⟩ z.1, .single ?_⟩
      exact mem_directAncestors.2 ⟨inheritance, hi, ho, ht, ha, rfl⟩
    | @tail x z _ hy ih =>
      obtain ⟨t, ih⟩ := ih
      obtain ⟨inheritance, hi, ho, ht, ha⟩ := hy
      refine ⟨Binding.scopeOf ⟨x.1, x.2, t⟩ z.1, ih.tail ?_⟩
      exact mem_directAncestors.2 ⟨inheritance, hi, ho, ht, ha, rfl⟩

theorem exists_find_of_reached {x y : Binding}
    (h : TransGen (fun x y => y ∈ m.directAncestors x) x y) :
    ∃ n, m.findClassLike n = some y.declaration := by
  obtain ⟨z, -, hy⟩ := TransGen.tail'_iff.1 h
  obtain ⟨_, -, -, ht, -⟩ := mem_directAncestors.1 hy
  obtain ⟨n, -, hn⟩ := target_eq_some.1 ht
  exact ⟨n, hn⟩

theorem mem_ancestorBindingsScopedFrom
    (h : m.ancestorBindingsScopedFrom fuel d γ = some found) {y : Binding} :
    y ∈ found ↔ TransGen (fun x y => y ∈ m.directAncestors x) ⟨d, γ, d.owner⟩ y := by
  refine mem_collect h fun x y hx hy hkey => ?_
  obtain ⟨n, hn⟩ := exists_find_of_reached hx
  obtain ⟨n', hn'⟩ := exists_find_of_reached hy
  simp only [Binding.key, Prod.mk.injEq] at hkey
  have hd := findClassLike_injective hn hn' hkey.1
  cases x
  cases y
  simp only at hd hkey
  rw [hd, hkey.2.1, hkey.2.2]

theorem mem_forgetScopes {bs : List Binding} {seen : List (Nat × List GenericType)}
    (hbs : ∀ b ∈ bs, ∃ n, m.findClassLike n = some b.declaration)
    (hd : ∃ n, m.findClassLike n = some d) :
    (d, γ) ∈ forgetScopes seen bs ↔ (d.owner, γ) ∉ seen ∧ ∃ s, ⟨d, γ, s⟩ ∈ bs := by
  induction bs generalizing seen with
  | nil => simp [forgetScopes]
  | cons b bs ih =>
    have hih : ∀ seen, (d, γ) ∈ forgetScopes seen bs ↔
        (d.owner, γ) ∉ seen ∧ ∃ s, ⟨d, γ, s⟩ ∈ bs :=
      fun seen => ih fun c hc => hbs c (List.mem_cons_of_mem _ hc)
    obtain ⟨n, hn⟩ := hd
    obtain ⟨n', hn'⟩ := hbs b List.mem_cons_self
    have hsame : (d.owner, γ) = (b.declaration.owner, b.arguments) →
        ∃ s, (⟨d, γ, s⟩ : Binding) = b := by
      intro he
      rw [Prod.mk.injEq] at he
      refine ⟨b.scope, ?_⟩
      rw [findClassLike_injective hn hn' he.1, he.2]
    unfold forgetScopes
    split
    · next hseen =>
      rw [hih]
      refine and_congr_right fun hns => ⟨fun ⟨s, hs⟩ => ⟨s, List.mem_cons_of_mem _ hs⟩, ?_⟩
      rintro ⟨s, hs⟩
      rcases List.mem_cons.1 hs with rfl | hs
      · exact absurd hseen hns
      · exact ⟨s, hs⟩
    · next hseen =>
      rw [List.mem_cons, hih, List.mem_append, List.mem_singleton, not_or]
      constructor
      · rintro (he | ⟨⟨hns, -⟩, s, hs⟩)
        · rw [Prod.mk.injEq] at he
          refine ⟨?_, b.scope, ?_⟩
          · rw [he.1, he.2]
            exact hseen
          · rw [he.1, he.2]
            exact List.mem_cons_self
        · exact ⟨hns, s, List.mem_cons_of_mem _ hs⟩
      · rintro ⟨hns, s, hs⟩
        by_cases he : (d.owner, γ) = (b.declaration.owner, b.arguments)
        · obtain ⟨t, ht⟩ := hsame he
          exact .inl (by rw [← ht])
        · rcases List.mem_cons.1 hs with rfl | hs
          · exact absurd rfl he
          · exact .inr ⟨⟨hns, he⟩, s, hs⟩

/-- The search finds just the ancestors that the inheritance clauses lead to. -/
theorem mem_ancestorBindingsFrom (h : m.ancestorBindingsFrom fuel d γ = some l)
    {y : GenericDeclaration × List GenericType} : y ∈ l ↔ TransGen m.Inherits (d, γ) y := by
  obtain ⟨found, hfound, rfl⟩ := Option.map_eq_some_iff.1 h
  have hmem := @mem_ancestorBindingsScopedFrom _ _ _ _ _ hfound
  have hbs : ∀ b ∈ found, ∃ n, m.findClassLike n = some b.declaration := fun b hb =>
    exists_find_of_reached (hmem.1 hb)
  rw [← exists_scope_iff (s := d.owner)]
  constructor
  · intro hy
    have hd : ∃ n, m.findClassLike n = some y.1 := by
      have hsub : ∀ {seen bs}, y ∈ forgetScopes seen bs → ∃ b ∈ bs, b.declaration = y.1 := by
        intro seen bs
        induction bs generalizing seen with
        | nil => exact fun h => nomatch h
        | cons b bs ih =>
          unfold forgetScopes
          split
          · exact fun h => (ih h).imp fun c hc => ⟨List.mem_cons_of_mem _ hc.1, hc.2⟩
          · intro h
            rcases List.mem_cons.1 h with rfl | h
            · exact ⟨b, List.mem_cons_self, rfl⟩
            · exact (ih h).imp fun c hc => ⟨List.mem_cons_of_mem _ hc.1, hc.2⟩
      obtain ⟨b, hb, he⟩ := hsub hy
      exact he ▸ hbs b hb
    obtain ⟨-, s, hs⟩ := (mem_forgetScopes (γ := y.2) hbs hd).1 hy
    exact ⟨s, hmem.1 hs⟩
  · rintro ⟨s, hs⟩
    have hin := hmem.2 hs
    exact (mem_forgetScopes (γ := y.2) hbs (hbs _ hin)).2 ⟨by simp, s, hin⟩

variable (m) in
/-- One inheritance clause, type arguments aside. -/
def Extends (d e : GenericDeclaration) : Prop :=
  ∃ inheritance ∈ m.inheritances, inheritance.owner = d.owner ∧
    m.target inheritance.ancestor = some e

variable (m) in
/-- No class is its own ancestor, whatever its type arguments. -/
def Acyclic : Prop := WellFounded fun e d => m.Extends d e

theorem ancestorBindingsFrom_mono (h : m.ancestorBindingsFrom fuel d γ = some l) :
    m.ancestorBindingsFrom (fuel + 1) d γ = some l := by
  obtain ⟨found, hfound, rfl⟩ := Option.map_eq_some_iff.1 h
  exact Option.map_eq_some_iff.2 ⟨found, collect_mono hfound, rfl⟩

theorem ancestorBindingsFrom_returns (hm : m.Acyclic) (d : GenericDeclaration)
    (γ : List GenericType) : ∃ fuel l, m.ancestorBindingsFrom fuel d γ = some l := by
  have hacc : ∀ b : Binding, Acc (fun y x => y ∈ m.directAncestors x) b := by
    intro b
    refine Subrelation.accessible ?_ (InvImage.accessible Binding.declaration (hm.apply _))
    intro x y hxy
    obtain ⟨inheritance, hi, ho, ht, -⟩ := mem_directAncestors.1 hxy
    exact ⟨inheritance, hi, ho, ht⟩
  obtain ⟨fuel, hfuel⟩ := @collect_returns _ _ _ Binding.key _ _ (hacc ⟨d, γ, d.owner⟩)
  obtain ⟨found, hfound⟩ := hfuel []
  exact ⟨fuel, _, Option.map_eq_some_iff.2 ⟨found, hfound, rfl⟩⟩

end GenericMetadata

end Rphp.Generics
