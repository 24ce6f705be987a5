import Rphp.Generics.Linking

namespace Rphp.Generics
open Lib Relation
set_option autoImplicit true

namespace GenericMetadata
open GenericType
variable {m : GenericMetadata} {classIsA : Name → Name → Bool}

namespace Derivable

theorem nullables (h : m.Derivable true classIsA a b) :
    m.Derivable true classIsA (.nullable a) (.nullable b) := by
  obtain ⟨n, h⟩ := h
  exact ⟨n + 1, .nullables h⟩

theorem nullable (ha : a.isUnion = false) (ha' : a.isIntersection = false)
    (ha'' : a.isNullable = false) (h : m.Derivable true classIsA a b) :
    m.Derivable true classIsA a (.nullable b) := by
  obtain ⟨n, h⟩ := h
  exact ⟨n + 1, .nullable ha ha' ha'' h⟩

theorem ancestor (ha : m.symbol a = some s) (hb : m.symbol b = some t)
    (hst : s.eqIgnoreAsciiCase t = false) (hbs : bs ≠ []) (hd : m.findClassLike s = some d)
    (hlen : as.length = d.parameters.length) (hanc : TransGen m.Inherits (d, as) (e, γ))
    (he : m.symbol e.owner = some u) (hu : u.eqIgnoreAsciiCase t = true)
    (h : m.Derivable true classIsA (.named b γ) (.named b bs)) :
    m.Derivable true classIsA (.named a as) (.named b bs) := by
  obtain ⟨n, h⟩ := h
  refine ⟨n + 1, .ancestor ha hb hst hbs hd ?_ ?_ he hu h⟩
  · rwa [effectiveInheritanceArguments_full hlen]
  · rwa [effectiveInheritanceArguments_full hlen]

/-- The spelling of the subtype's class does not matter. -/
theorem rename (hb : m.symbol b = some s) (hc : m.symbol c = some t)
    (hst : s.eqIgnoreAsciiCase t = true)
    (h : m.Derivable true classIsA (.named b as) (.named c cs)) :
    m.Derivable true classIsA (.named c as) (.named c cs) := by
  obtain ⟨n, h⟩ := h
  by_cases hne : named b as = named c cs
  · rw [named.injEq] at hne
    rw [hne.2]
    exact .refl _
  · obtain ⟨n, s', t', -, hb', hc', hstep⟩ := h.named_inv hne
    rw [hb, Option.some.injEq] at hb'
    rw [hc, Option.some.injEq] at hc'
    subst hb' hc'
    cases hstep with
    | arguments _ hcmp =>
      have hvar : ∀ k, m.varianceAt t k = m.varianceAt s k := fun k => by
        rw [varianceAt, varianceAt, findClassLike_congr hst]
      refine .arguments hc hc (by simp) ⟨hcmp.length, fun k x y hx hy hv => ?_,
        fun k x y hx hy hv => ?_, fun k x y hx hy hv => ?_⟩
      · exact ⟨n, hcmp.covariant k x y hx hy (hvar k ▸ hv)⟩
      · exact ⟨n, hcmp.contravariant k x y hx hy (hvar k ▸ hv)⟩
      · exact hcmp.invariant k x y hx hy (hvar k ▸ hv)
    | object hst' _ => rw [hst] at hst'; cases hst'
    | ancestor hst' _ _ _ _ _ _ _ => rw [hst] at hst'; cases hst'
    | classIsA hst' _ _ => rw [hst] at hst'; cases hst'

/-- What `mixed` is accepted for, everything is. -/
theorem of_mixed (z : GenericType) (h : m.Derivable true classIsA .mixed z) (x : GenericType)
    (hx : x.noEmpty = true) : m.Derivable true classIsA x z := by
  induction z using inductionOn generalizing x with
  | mixed => exact ⟨1, .mixed⟩
  | union zs ih =>
    obtain ⟨n, h⟩ := h
    cases h with
    | unionRight _ hp h => exact unionRight x (ih _ hp ⟨_, h⟩ x hx) hp
  | intersection zs ih =>
    obtain ⟨n, h⟩ := h
    cases h with
    | intersectionRight _ h => exact intersectionOf x fun z hz => ih z hz ⟨_, h z hz⟩ x hx
  | nullable z ih =>
    obtain ⟨n, h⟩ := h
    cases h with
    | nullable _ _ _ h =>
    have hall := ih ⟨_, h⟩
    induction x using inductionOn with
    | union xs ihx => exact .unionLeft fun p hp => ihx p hp (everyNode_union hx hp)
    | intersection xs ihx =>
      obtain ⟨hne, hparts⟩ := noEmpty_intersection.1 hx
      obtain ⟨p, hp⟩ := List.exists_mem_of_ne_nil xs hne
      exact .intersectionLeft _ (ihx p hp (hparts p hp)) hp
    | nullable x _ => exact .nullables (hall x (everyNode_nullable hx))
    | _ => exact .nullable rfl rfl rfl (hall _ hx)
  | _ =>
    obtain ⟨n, h⟩ := h
    cases h

/-- What is accepted for `never` is accepted for everything. -/
theorem of_never (x : GenericType) (h : m.Derivable true classIsA x .never) (z : GenericType) :
    m.Derivable true classIsA x z := by
  induction x using inductionOn with
  | never => exact ⟨1, .never⟩
  | union xs ih => exact .unionLeft fun p hp => ih p hp (h.of_union hp)
  | intersection xs ih =>
    obtain ⟨n, h⟩ := h
    cases h with
    | intersectionLeft _ _ hp h => exact .intersectionLeft z (ih _ hp ⟨_, h⟩) hp
  | _ =>
    obtain ⟨n, h⟩ := h
    cases h

end Derivable

section Steps
variable (m classIsA) in
/-- Transitivity for derivations of a smaller total height, one of them put into a context. -/
def TransBelow (N : Nat) : Prop :=
  ∀ n k, n + k < N → ∀ x y z, m.wellFormed x = true → m.wellFormed y = true →
    m.wellFormed z = true →
    (m.Lifted (m.Derives true classIsA n) x y → m.Derives true classIsA k y z →
      m.Derivable true classIsA x z) ∧
    (m.Derives true classIsA k x y → m.Lifted (m.Derives true classIsA n) y z →
      m.Derivable true classIsA x z)

theorem TransBelow.left (h : m.TransBelow classIsA N) (hlt : n + k < N)
    (hx : m.wellFormed x = true) (hy : m.wellFormed y = true) (hz : m.wellFormed z = true)
    (hxy : m.Lifted (m.Derives true classIsA n) x y) (hyz : m.Derives true classIsA k y z) :
    m.Derivable true classIsA x z := (h n k hlt x y z hx hy hz).1 hxy hyz

theorem TransBelow.right (h : m.TransBelow classIsA N) (hlt : n + k < N)
    (hx : m.wellFormed x = true) (hy : m.wellFormed y = true) (hz : m.wellFormed z = true)
    (hxy : m.Derives true classIsA k x y) (hyz : m.Lifted (m.Derives true classIsA n) y z) :
    m.Derivable true classIsA x z := (h n k hlt x y z hx hy hz).2 hxy hyz

theorem TransBelow.base (h : m.TransBelow classIsA N) (hlt : n + k < N)
    (hx : m.wellFormed x = true) (hy : m.wellFormed y = true) (hz : m.wellFormed z = true)
    (hxy : m.Derives true classIsA n x y) (hyz : m.Derives true classIsA k y z) :
    m.Derivable true classIsA x z := h.left hlt hx hy hz (.base hxy) hyz

theorem TransBelow.mono (h : m.TransBelow classIsA N) (hle : M ≤ N) : m.TransBelow classIsA M :=
  fun n k hlt => h n k (hlt.trans_le hle)

end Steps

/-- A derivation between types of one class compares their arguments. -/
theorem compared_of_derives {b : Nat} (hb : m.symbol b = some t)
    (h : m.Derives true classIsA n (.named b as) (.named b bs)) :
    m.Compared (m.Lifted (m.Derives true classIsA n)) t as bs := by
  by_cases hne : named b as = named b bs
  · rw [named.injEq] at hne
    obtain rfl := hne.2
    refine ⟨rfl, fun k x y hx hy _ => ?_, fun k x y hx hy _ => ?_, fun k x y hx hy _ => ?_⟩
    · rw [hx, Option.some.injEq] at hy
      exact hy ▸ .refl
    · rw [hx, Option.some.injEq] at hy
      exact hy ▸ .refl
    · rw [hx, Option.some.injEq] at hy
      exact hy
  · obtain ⟨k, s', t', rfl, hs', ht', hstep⟩ := h.named_inv hne
    rw [hb, Option.some.injEq] at hs' ht'
    subst hs' ht'
    cases hstep with
    | arguments _ hcmp => exact hcmp.imp fun x y hxy => .base hxy.succ
    | object hst _ => simp at hst
    | ancestor hst _ _ _ _ _ _ _ => simp at hst
    | classIsA hst _ _ => simp at hst

/-- An ancestor as a type. -/
theorem ancestor_wellFormed {name : Nat} (hs : m.symbol name = some s)
    (hus : u.eqIgnoreAsciiCase s = true) (hfind : m.findClassLike u = some e)
    (hlen : γ.length = e.parameters.length) (hγ : ∀ a ∈ γ, m.wellFormed a = true) :
    m.wellFormed (.named name γ) = true := by
  simp only [wellFormed, everyNode, everyPart_eq_all, Bool.and_eq_true, List.all_eq_true]
  refine ⟨?_, hγ⟩
  have hfind' : m.findClassLike s = some e := by rw [← findClassLike_congr hus, hfind]
  simp [wellFormedNode, hs, hfind', hlen]

namespace Linked
variable (hm : m.Linked classIsA)
include hm

/-- A class relation does not depend on the spelling of the names. -/
theorem classIsA_congr {s s' t t' : Name} (hs : s.eqIgnoreAsciiCase s' = true)
    (ht : t.eqIgnoreAsciiCase t' = true) (h : classIsA s t = true) : classIsA s' t' = true := by
  rw [hm.classIsA] at h ⊢
  rcases h with h | ⟨d, e, u, hd, hde, hu, hut⟩
  · exact .inl (Name.eqIgnoreAsciiCase_trans (Name.eqIgnoreAsciiCase_symm hs)
      (Name.eqIgnoreAsciiCase_trans h ht))
  · exact .inr ⟨d, e, u, findClassLike_congr hs ▸ hd, hde, hu, Name.eqIgnoreAsciiCase_trans hut ht⟩

theorem not_object {s : Name} (hd : m.findClassLike s = some d) :
    s.eqIgnoreAsciiCase objectName = false := by
  rw [Bool.eq_false_iff]
  intro h
  rw [findClassLike_congr h, hm.object] at hd
  cases hd

/-- A declared class that is related to another one is a proper descendant of it. -/
theorem classIsA_inv {s t : Name} (hst : s.eqIgnoreAsciiCase t = false)
    (h : classIsA s t = true) : ∃ d e, m.findClassLike s = some d ∧ TransGen m.Extends d e ∧
      m.findClassLike t = some e := by
  rw [hm.classIsA, hst] at h
  rcases h with h | ⟨d, e, u, hd, hde, hu, hut⟩
  · cases h
  · refine ⟨d, e, hd, hde, ?_⟩
    obtain ⟨x, -, inheritance, -, -, ht⟩ := TransGen.tail'_iff.1 hde
    obtain ⟨u', hu', hfind⟩ := exists_name_of_target ht
    rw [hu, Option.some.injEq] at hu'
    rw [← findClassLike_congr hut, hu', hfind]

theorem classIsA_of_extends {s t : Name} (hs : m.findClassLike s = some d)
    (ht : m.findClassLike t = some e) (h : TransGen m.Extends d e) : classIsA s t = true := by
  obtain ⟨-, u, hu, hut⟩ := findClassLike_spec ht
  exact (hm.classIsA s t).2 (.inr ⟨d, e, u, hs, h, hu, hut⟩)

/-- A proper descendant of a class has another name. -/
theorem ne_of_extends {s t : Name} (hs : m.findClassLike s = some d)
    (ht : m.findClassLike t = some e) (h : TransGen m.Extends d e) :
    s.eqIgnoreAsciiCase t = false := by
  rw [Bool.eq_false_iff]
  intro hst
  rw [findClassLike_congr hst, ht, Option.some.injEq] at hs
  subst hs
  exact hm.acyclic.irrefl h

theorem named_wellFormed {name : Nat} (h : m.wellFormed (.named name as) = true)
    (hs : m.symbol name = some s) (hd : m.findClassLike s = some d) :
    as.length = d.parameters.length := by
  have hnode := everyNode_self h
  obtain ⟨s', hs', hnode⟩ := (Option.any_eq_true _ _).1 hnode
  rw [hs, Option.some.injEq] at hs'
  subst hs'
  rw [Bool.or_eq_true, hm.not_object hd] at hnode
  rcases hnode with h | h
  · cases h
  · simpa [hd] using h

/-- Arguments that are related to those of a class reach the ancestors of the class. -/
theorem lifted_ancestor (IH : m.TransBelow classIsA (n + k + 1)) {s : Name} {c : Nat}
    (hd : m.findClassLike s = some d) (hlen : as.length = d.parameters.length)
    (has : ∀ a ∈ as, m.wellFormed a = true) (hbs : ∀ a ∈ bs, m.wellFormed a = true)
    (hcmp : m.Compared (m.Lifted (m.Derives true classIsA n)) s as bs)
    (hanc : TransGen m.Inherits (d, bs) (f, φ)) (hc : m.symbol c = some t)
    (hu : m.symbol f.owner = some u) (hut : u.eqIgnoreAsciiCase t = true)
    (hcs : m.wellFormed (.named c cs) = true)
    (h : m.Derives true classIsA k (.named c φ) (.named c cs)) :
    ∃ γ, TransGen m.Inherits (d, as) (f, γ) ∧
      m.Derivable true classIsA (.named c γ) (.named c cs) := by
  obtain ⟨γ, u', hγ, hu', hfind, -, hcmp'⟩ := hm.lift_ancestor hd hlen hcmp hanc
  rw [hu, Option.some.injEq] at hu'
  subst hu'
  obtain ⟨hlen, hwf, -⟩ := hm.ancestor_spec hγ has
  obtain ⟨hlen', hwf', -⟩ := hm.ancestor_spec hanc hbs
  have hvar : ∀ i, m.varianceAt t i = m.varianceAt u i := fun i => by
    rw [varianceAt, varianceAt, findClassLike_congr hut]
  have hlifted : m.Lifted (m.Derives true classIsA n) (.named c γ) (.named c φ) := by
    refine .arguments hc hc (by simp) hcmp'.length (fun i x y hx hy hv => ?_)
      (fun i x y hx hy hv => ?_) fun i x y hx hy hv => ?_
    · exact hcmp'.covariant i x y hx hy (hvar i ▸ hv)
    · exact hcmp'.contravariant i x y hx hy (hvar i ▸ hv)
    · exact hcmp'.invariant i x y hx hy (hvar i ▸ hv)
  exact ⟨γ, hγ, IH.left (Nat.lt_succ_self _) (ancestor_wellFormed hc hut hfind hlen hwf)
    (ancestor_wellFormed hc hut hfind hlen' hwf') hcs hlifted h⟩

/-- The types of one class with related arguments have the same supertypes among the classes. -/
theorem named_left (IH : m.TransBelow classIsA (n + k)) {a b c : Nat}
    (ha : m.symbol a = some s) (hb : m.symbol b = some t) (hst : s.eqIgnoreAsciiCase t = true)
    (hcmp : m.Compared (m.Lifted (m.Derives true classIsA n)) s as bs)
    (hx : m.wellFormed (.named a as) = true) (hy : m.wellFormed (.named b bs) = true)
    (hz : m.wellFormed (.named c cs) = true)
    (h : m.Derives true classIsA k (.named b bs) (.named c cs)) :
    m.Derivable true classIsA (.named a as) (.named c cs) := by
  have hmem : ∀ {l : List GenericType} {i : Nat} {x : GenericType} {name : Nat},
      m.wellFormed (.named name l) = true → l[i]? = some x → m.wellFormed x = true :=
    fun h hx => everyNode_named h (List.mem_of_getElem? hx)
  by_cases hne : named b bs = named c cs
  · rw [named.injEq] at hne
    obtain ⟨rfl, rfl⟩ := hne
    exact Lifted.derivable (.arguments ha hb hst hcmp.length hcmp.covariant hcmp.contravariant
      hcmp.invariant) fun x y hxy => ⟨n, hxy⟩
  obtain ⟨k, t', r, rfl, hb', hc, hstep⟩ := h.named_inv hne
  rw [hb, Option.some.injEq] at hb'
  subst hb'
  have hsr : t.eqIgnoreAsciiCase r = s.eqIgnoreAsciiCase r := by
    rw [Name.eqIgnoreAsciiCase_iff] at hst
    simp only [Name.eqIgnoreAsciiCase, hst]
  cases hstep with
  | arguments htr hcmp' =>
    have hvar : ∀ i, m.varianceAt s i = m.varianceAt t i := fun i => by
      rw [varianceAt, varianceAt, findClassLike_congr hst]
    have hmid : ∀ {i : Nat} {x : GenericType}, as[i]? = some x → ∃ y, bs[i]? = some y := by
      intro i x hx
      have hlt : i < bs.length := hcmp.length ▸ (List.getElem?_eq_some_iff.1 hx).1
      exact ⟨_, List.getElem?_eq_getElem hlt⟩
    refine .arguments ha hc (hsr ▸ htr) ⟨hcmp.length.trans hcmp'.length, fun i u w hu hw hv => ?_,
      fun i u w hu hw hv => ?_, fun i u w hu hw hv => ?_⟩
    · obtain ⟨v, hv'⟩ := hmid hu
      exact IH.left (by omega) (hmem hx hu) (hmem hy hv') (hmem hz hw)
        (hcmp.covariant i u v hu hv' hv) (hcmp'.covariant i v w hv' hw (hvar i ▸ hv))
    · obtain ⟨v, hv'⟩ := hmid hu
      exact IH.right (by omega) (hmem hz hw) (hmem hy hv') (hmem hx hu)
        (hcmp'.contravariant i v w hv' hw (hvar i ▸ hv)) (hcmp.contravariant i u v hu hv' hv)
    · obtain ⟨v, hv'⟩ := hmid hu
      rw [hcmp.invariant i u v hu hv' hv, hcmp'.invariant i v w hv' hw (hvar i ▸ hv)]
  | object htr hobject => exact ⟨1, .object ha hc (hsr ▸ htr) hobject⟩
  | ancestor htr hcs hd hlen hanc he hu hD =>
    have hlen' := hm.named_wellFormed hy hb hd
    rw [← findClassLike_congr hst] at hd
    have hlen := hm.named_wellFormed hx ha hd
    rw [effectiveInheritanceArguments_full hlen'] at hanc
    obtain ⟨γ, hγ, hD⟩ := hm.lifted_ancestor (k := k) IH hd hlen (fun _ => everyNode_named hx)
      (fun _ => everyNode_named hy) hcmp hanc hc he hu hz hD
    exact .ancestor ha hc (hsr ▸ htr) hcs hd hlen hγ he hu hD
  | classIsA htr hcs hisA =>
    subst hcs
    exact ⟨1, .classIsA ha hc (hsr ▸ htr)
      (hm.classIsA_congr (Name.eqIgnoreAsciiCase_symm hst) (by simp) hisA)⟩

/-- What is accepted for a type is accepted for the type of the same class with related
arguments. -/
theorem named_right (IH : m.TransBelow classIsA (n + k)) {a b c : Nat}
    (hb : m.symbol b = some t) (hc : m.symbol c = some r) (htr : t.eqIgnoreAsciiCase r = true)
    (hcmp : m.Compared (m.Lifted (m.Derives true classIsA n)) t bs cs)
    (hx : m.wellFormed (.named a as) = true) (hy : m.wellFormed (.named b bs) = true)
    (hz : m.wellFormed (.named c cs) = true)
    (h : m.Derives true classIsA k (.named a as) (.named b bs)) :
    m.Derivable true classIsA (.named a as) (.named c cs) := by
  have hmem : ∀ {l : List GenericType} {i : Nat} {x : GenericType} {name : Nat},
      m.wellFormed (.named name l) = true → l[i]? = some x → m.wellFormed x = true :=
    fun h hx => everyNode_named h (List.mem_of_getElem? hx)
  have hlifted : m.Lifted (m.Derives true classIsA n) (.named b bs) (.named c cs) :=
    .arguments hb hc htr hcmp.length hcmp.covariant hcmp.contravariant hcmp.invariant
  by_cases hne : named a as = named b bs
  · rw [named.injEq] at hne
    obtain ⟨rfl, rfl⟩ := hne
    exact hlifted.derivable fun x y hxy => ⟨n, hxy⟩
  obtain ⟨k, s, t', rfl, ha, hb', hstep⟩ := h.named_inv hne
  rw [hb, Option.some.injEq] at hb'
  subst hb'
  have hsr : s.eqIgnoreAsciiCase t = s.eqIgnoreAsciiCase r := Name.eqIgnoreAsciiCase_congr s htr
  cases hstep with
  | arguments hst hcmp' =>
    have hvar : ∀ i, m.varianceAt s i = m.varianceAt t i := fun i => by
      rw [varianceAt, varianceAt, findClassLike_congr hst]
    have hmid : ∀ {i : Nat} {x : GenericType}, as[i]? = some x → ∃ y, bs[i]? = some y := by
      intro i x hx
      have hlt : i < bs.length := hcmp'.length ▸ (List.getElem?_eq_some_iff.1 hx).1
      exact ⟨_, List.getElem?_eq_getElem hlt⟩
    refine .arguments ha hc (hsr ▸ hst) ⟨hcmp'.length.trans hcmp.length, fun i u w hu hw hv => ?_,
      fun i u w hu hw hv => ?_, fun i u w hu hw hv => ?_⟩
    · obtain ⟨v, hv'⟩ := hmid hu
      exact IH.right (by omega) (hmem hx hu) (hmem hy hv') (hmem hz hw)
        (hcmp'.covariant i u v hu hv' hv) (hcmp.covariant i v w hv' hw (hvar i ▸ hv))
    · obtain ⟨v, hv'⟩ := hmid hu
      exact IH.left (by omega) (hmem hz hw) (hmem hy hv') (hmem hx hu)
        (hcmp.contravariant i v w hv' hw (hvar i ▸ hv)) (hcmp'.contravariant i u v hu hv' hv)
    · obtain ⟨v, hv'⟩ := hmid hu
      rw [hcmp'.invariant i u v hu hv' hv, hcmp.invariant i v w hv' hw (hvar i ▸ hv)]
  | object hst hobject =>
    exact ⟨1, .object ha hc (hsr ▸ hst)
      (Name.eqIgnoreAsciiCase_trans (Name.eqIgnoreAsciiCase_symm htr) hobject)⟩
  | ancestor hst hbs hd hlen hanc he hu hD =>
    have hlen := hm.named_wellFormed hx ha hd
    rw [effectiveInheritanceArguments_full hlen] at hanc
    obtain ⟨hlen', hwf, u', hu', hfind⟩ := hm.ancestor_spec hanc fun _ => everyNode_named hx
    rw [he, Option.some.injEq] at hu'
    subst hu'
    have hD' := IH.right (by omega) (ancestor_wellFormed hb hu hfind hlen' hwf) hy hz hD hlifted
    refine .ancestor ha hc (hsr ▸ hst) ?_ hd hlen hanc he (Name.eqIgnoreAsciiCase_trans hu htr)
      (hD'.rename hb hc htr)
    rintro rfl
    exact hbs (List.length_eq_zero_iff.1 hcmp.length)
  | classIsA hst hbs hisA =>
    subst hbs
    obtain rfl : cs = [] := List.length_eq_zero_iff.1 hcmp.length.symm
    exact ⟨1, .classIsA ha hc (hsr ▸ hst) (hm.classIsA_congr (by simp) htr hisA)⟩

/-- A proper descendant, an ancestor of it, and what the ancestor is accepted for. -/
theorem named_ancestor (IH : m.TransBelow classIsA (n + k + 1)) {a b c : Nat}
    (ha : m.symbol a = some s) (hb : m.symbol b = some t) (hst : s.eqIgnoreAsciiCase t = false)
    (hd : m.findClassLike s = some d) (hanc : TransGen m.Inherits (d, as) (e, γ))
    (he : m.findClassLike t = some e)
    (hcmp : m.Compared (m.Lifted (m.Derives true classIsA n)) t γ bs)
    (hx : m.wellFormed (.named a as) = true) (hy : m.wellFormed (.named b bs) = true)
    (hz : m.wellFormed (.named c cs) = true) (hne : named b bs ≠ named c cs)
    (h : m.Derives true classIsA k (.named b bs) (.named c cs)) (hbs : bs ≠ []) :
    m.Derivable true classIsA (.named a as) (.named c cs) := by
  have hlen := hm.named_wellFormed hx ha hd
  obtain ⟨hlenγ, hwfγ, -⟩ := hm.ancestor_spec hanc fun _ => everyNode_named hx
  obtain ⟨k, t', r, rfl, hb', hc, hstep⟩ := h.named_inv hne
  rw [hb, Option.some.injEq] at hb'
  subst hb'
  cases hstep with
  | arguments htr hcmp' =>
    have hrt := Name.eqIgnoreAsciiCase_symm htr
    have hvar : ∀ i, m.varianceAt r i = m.varianceAt t i := fun i => by
      rw [varianceAt, varianceAt, findClassLike_congr hrt]
    have hcmp'' : m.Compared (m.Lifted (m.Derives true classIsA n)) r γ bs :=
      ⟨hcmp.length, fun i x y hx hy hv => hcmp.covariant i x y hx hy (hvar i ▸ hv),
        fun i x y hx hy hv => hcmp.contravariant i x y hx hy (hvar i ▸ hv),
        fun i x y hx hy hv => hcmp.invariant i x y hx hy (hvar i ▸ hv)⟩
    obtain ⟨-, u, hu, hut⟩ := findClassLike_spec he
    have hur := Name.eqIgnoreAsciiCase_trans hut htr
    have hfind := findClassLike_owner he hu
    have hD := hm.named_left (IH.mono (Nat.le_succ _)) hc hb hrt hcmp''
      (ancestor_wellFormed hc hur hfind hlenγ hwfγ) hy hz h
    refine .ancestor ha hc (Name.eqIgnoreAsciiCase_congr s htr ▸ hst) ?_ hd hlen hanc hu hur hD
    rintro rfl
    exact hbs (List.length_eq_zero_iff.1 hcmp'.length)
  | object htr hobject =>
    refine ⟨1, .object ha hc ?_ hobject⟩
    rw [Name.eqIgnoreAsciiCase_congr s hobject, hm.not_object hd]
  | ancestor htr hcs hd' hlen' hanc' hu hut hD =>
    rw [he, Option.some.injEq] at hd'
    subst hd'
    rw [effectiveInheritanceArguments_full (hm.named_wellFormed hy hb he)] at hanc'
    obtain ⟨γ', hγ', hD⟩ := hm.lifted_ancestor (IH.mono (Nat.le_succ _)) he hlenγ hwfγ
      (fun _ => everyNode_named hy) hcmp hanc' hc hu hut hz hD
    obtain ⟨-, -, u', hu', hfind⟩ := hm.ancestor_spec hγ' hwfγ
    rw [hu, Option.some.injEq] at hu'
    subst hu'
    have hchain := hanc.trans hγ'
    have hsr := hm.ne_of_extends hd (findClassLike_congr hut ▸ hfind) (extends_of_inherits hchain)
    exact .ancestor ha hc hsr hcs hd hlen hchain hu hut hD
  | classIsA htr hcs hisA =>
    subst hcs
    obtain ⟨e', f, he', hext, hf⟩ := hm.classIsA_inv htr hisA
    rw [he, Option.some.injEq] at he'
    subst he'
    have hchain := (extends_of_inherits hanc).trans hext
    exact ⟨1, .classIsA ha hc (hm.ne_of_extends hd hf hchain) (hm.classIsA_of_extends hd hf hchain)⟩

theorem named_trans (IH : m.TransBelow classIsA (n + k)) {a b c : Nat}
    (hx : m.wellFormed (.named a as) = true) (hy : m.wellFormed (.named b bs) = true)
    (hz : m.wellFormed (.named c cs) = true)
    (h : m.Derives true classIsA n (.named a as) (.named b bs))
    (h' : m.Derives true classIsA k (.named b bs) (.named c cs)) :
    m.Derivable true classIsA (.named a as) (.named c cs) := by
  by_cases hab : named a as = named b bs
  · exact ⟨k, hab ▸ h'⟩
  by_cases hbc : named b bs = named c cs
  · exact ⟨n, hbc ▸ h⟩
  obtain ⟨n, s, t, rfl, ha, hb, hstep⟩ := h.named_inv hab
  cases hstep with
  | arguments hst hcmp =>
    exact hm.named_left (IH.mono (by omega)) ha hb hst (hcmp.imp fun x y hxy => .base hxy) hx hy hz
      h'
  | object hst hobject =>
    obtain ⟨k, t', r, rfl, hb', hc, hstep⟩ := h'.named_inv hbc
    rw [hb, Option.some.injEq] at hb'
    subst hb'
    cases hstep with
    | arguments htr _ =>
      exact ⟨1, .object ha hc (Name.eqIgnoreAsciiCase_congr s htr ▸ hst)
        (Name.eqIgnoreAsciiCase_trans (Name.eqIgnoreAsciiCase_symm htr) hobject)⟩
    | object htr hobject' =>
      rw [Name.eqIgnoreAsciiCase_congr t hobject', hobject] at htr
      cases htr
    | ancestor _ _ hd _ _ _ _ _ =>
      rw [hm.not_object hd] at hobject
      cases hobject
    | classIsA htr _ hisA =>
      obtain ⟨d, e, hd, -⟩ := hm.classIsA_inv htr hisA
      rw [hm.not_object hd] at hobject
      cases hobject
  | ancestor hst hbs hd hlen hanc hu hut hD =>
    rw [effectiveInheritanceArguments_full (hm.named_wellFormed hx ha hd)] at hanc
    obtain ⟨-, -, u', hu', hfind⟩ := hm.ancestor_spec hanc fun _ => everyNode_named hx
    rw [hu, Option.some.injEq] at hu'
    subst hu'
    exact hm.named_ancestor (IH.mono (by omega)) ha hb hst hd hanc (findClassLike_congr hut ▸ hfind)
      (compared_of_derives hb hD) hx hy hz hbc h' hbs
  | classIsA hst hbs hisA =>
    subst hbs
    obtain ⟨d, e, hd, hext, he⟩ := hm.classIsA_inv hst hisA
    obtain ⟨k, t', r, rfl, hb', hc, hstep⟩ := h'.named_inv hbc
    rw [hb, Option.some.injEq] at hb'
    subst hb'
    cases hstep with
    | arguments htr hcmp =>
      obtain rfl : cs = [] := List.length_eq_zero_iff.1 hcmp.length.symm
      exact ⟨1, .classIsA ha hc (Name.eqIgnoreAsciiCase_congr s htr ▸ hst)
        (hm.classIsA_congr (by simp) htr hisA)⟩
    | object htr hobject =>
      refine ⟨1, .object ha hc ?_ hobject⟩
      rw [Name.eqIgnoreAsciiCase_congr s hobject, hm.not_object hd]
    | ancestor htr hcs hd' hlen' hanc hu hut hD =>
      rw [he, Option.some.injEq] at hd'
      subst hd'
      have hempty := hm.named_wellFormed hy hb he
      rw [effectiveInheritanceArguments_full hempty] at hanc
      obtain ⟨ε, hε⟩ := inherits_of_extends hext as
      obtain ⟨hlenε, -⟩ := hm.ancestor_spec hε fun _ => everyNode_named hx
      obtain rfl : ε = [] := List.length_eq_zero_iff.1 (hlenε.trans hempty.symm)
      have hchain := hε.trans hanc
      obtain ⟨-, -, u', hu', hfind⟩ := hm.ancestor_spec hchain fun _ => everyNode_named hx
      rw [hu, Option.some.injEq] at hu'
      subst hu'
      have hsr := hm.ne_of_extends hd (findClassLike_congr hut ▸ hfind) (extends_of_inherits hchain)
      exact .ancestor ha hc hsr hcs hd (hm.named_wellFormed hx ha hd) hchain hu hut ⟨_, hD⟩
    | classIsA htr hcs hisA' =>
      subst hcs
      obtain ⟨e', f, he', hext', hf⟩ := hm.classIsA_inv htr hisA'
      rw [he, Option.some.injEq] at he'
      subst he'
      have hchain := hext.trans hext'
      exact ⟨1, .classIsA ha hc (hm.ne_of_extends hd hf hchain)
        (hm.classIsA_of_extends hd hf hchain)⟩

/-- Transitivity through a class to a class. -/
theorem trans_named (IH : m.TransBelow classIsA (n + k)) {b c : Nat}
    (hx : m.wellFormed x = true) (hy : m.wellFormed (.named b bs) = true)
    (hz : m.wellFormed (.named c cs) = true) (h : m.Derives true classIsA n x (.named b bs))
    (h' : m.Derives true classIsA k (.named b bs) (.named c cs)) :
    m.Derivable true classIsA x (.named c cs) := by
  cases hcases : h with
  | refl => exact ⟨k, h'⟩
  | never => exact ⟨1, .never⟩
  | unionLeft hall =>
    exact .unionLeft fun p hp => IH.base (by omega) (everyNode_union hx hp) hy hz (hall p hp) h'
  | intersectionLeft _ _ hp hD =>
    exact .intersectionLeft _ (IH.base (by omega) (everyNode_intersection hx hp) hy hz hD h') hp
  | arguments _ _ _ _ _ _ _ => exact hm.named_trans IH hx hy hz h h'
  | object _ _ _ _ => exact hm.named_trans IH hx hy hz h h'
  | ancestor _ _ _ _ _ _ _ _ _ _ => exact hm.named_trans IH hx hy hz h h'
  | classIsA _ _ _ _ => exact hm.named_trans IH hx hy hz h h'

/-- Transitivity of two derivations, if it holds for smaller ones. -/
theorem base_trans (IH : m.TransBelow classIsA (n + k)) (hx : m.wellFormed x = true)
    (hy : m.wellFormed y = true) (hz : m.wellFormed z = true) (h : m.Derives true classIsA n x y)
    (h' : m.Derives true classIsA k y z) : m.Derivable true classIsA x z := by
  cases hcases : h' with
  | refl => exact ⟨n, h⟩
  | never => exact .of_never x ⟨n, h⟩ z
  | mixed => exact ⟨1, .mixed⟩
  | intersectionRight _ hall =>
    exact .intersectionOf x fun p hp =>
      IH.base (by omega) hx hy (everyNode_intersection hz hp) h (hall p hp)
  | unionRight _ hp hD =>
    exact .unionRight x (IH.base (by omega) hx hy (everyNode_union hz hp) h hD) hp
  | unionLeft hall =>
    cases h with
    | refl => exact ⟨_, h'⟩
    | never => exact ⟨1, .never⟩
    | unionLeft hall' =>
      exact .unionLeft fun p hp => IH.base (by omega) (everyNode_union hx hp) hy hz (hall' p hp) h'
    | unionRight _ hp hD => exact IH.base (by omega) hx (everyNode_union hy hp) hz hD (hall _ hp)
    | intersectionLeft _ _ hp hD =>
      exact .intersectionLeft z (IH.base (by omega) (everyNode_intersection hx hp) hy hz hD h') hp
  | intersectionLeft _ _ hp hD =>
    cases h with
    | refl => exact ⟨_, h'⟩
    | never => exact ⟨1, .never⟩
    | unionLeft hall =>
      exact .unionLeft fun p hp => IH.base (by omega) (everyNode_union hx hp) hy hz (hall p hp) h'
    | intersectionRight _ hall =>
      exact IH.base (by omega) hx (everyNode_intersection hy hp) hz (hall _ hp) hD
    | intersectionLeft _ hb _ _ => cases hb
  | null =>
    cases h with
    | refl => exact ⟨_, h'⟩
    | never => exact ⟨1, .never⟩
    | unionLeft hall =>
      exact .unionLeft fun p hp => IH.base (by omega) (everyNode_union hx hp) hy hz (hall p hp) h'
    | intersectionLeft _ _ hp hD =>
      exact .intersectionLeft _ (IH.base (by omega) (everyNode_intersection hx hp) hy hz hD h') hp
  | nullables hD' =>
    cases h with
    | refl => exact ⟨_, h'⟩
    | never => exact ⟨1, .never⟩
    | unionLeft hall =>
      exact .unionLeft fun p hp => IH.base (by omega) (everyNode_union hx hp) hy hz (hall p hp) h'
    | intersectionLeft _ _ hp hD =>
      exact .intersectionLeft _ (IH.base (by omega) (everyNode_intersection hx hp) hy hz hD h') hp
    | null => exact ⟨1, .null⟩
    | nullables hD =>
      exact .nullables (IH.base (by omega) (everyNode_nullable hx) (everyNode_nullable hy)
        (everyNode_nullable hz) hD hD')
    | nullable ha ha' ha'' hD =>
      exact .nullable ha ha' ha'' (IH.base (by omega) hx (everyNode_nullable hy)
        (everyNode_nullable hz) hD hD')
  | nullable hy₁ hy₂ hy₃ hD' =>
    cases hc : h with
    | refl => exact ⟨_, h'⟩
    | never => exact ⟨1, .never⟩
    | mixed => exact .of_mixed _ ⟨_, h'⟩ x (noEmpty_of_wellFormed hx)
    | unionLeft hall =>
      exact .unionLeft fun p hp => IH.base (by omega) (everyNode_union hx hp) hy hz (hall p hp) h'
    | intersectionLeft _ _ hp hD =>
      exact .intersectionLeft _ (IH.base (by omega) (everyNode_intersection hx hp) hy hz hD h') hp
    | intersectionRight _ _ => cases hy₂
    | unionRight _ _ _ => cases hy₁
    | null => cases hy₃
    | nullables _ => cases hy₃
    | nullable _ _ _ _ => cases hy₃
    | arguments _ _ _ _ _ _ _ =>
      exact .nullable rfl rfl rfl (IH.base (by omega) hx hy (everyNode_nullable hz) h hD')
    | object _ _ _ _ =>
      exact .nullable rfl rfl rfl (IH.base (by omega) hx hy (everyNode_nullable hz) h hD')
    | ancestor _ _ _ _ _ _ _ _ _ _ =>
      exact .nullable rfl rfl rfl (IH.base (by omega) hx hy (everyNode_nullable hz) h hD')
    | classIsA _ _ _ _ =>
      exact .nullable rfl rfl rfl (IH.base (by omega) hx hy (everyNode_nullable hz) h hD')
  | arguments _ _ _ _ _ _ _ => exact hm.trans_named IH hx hy hz h h'
  | object _ _ _ _ => exact hm.trans_named IH hx hy hz h h'
  | ancestor _ _ _ _ _ _ _ _ _ _ => exact hm.trans_named IH hx hy hz h h'
  | classIsA _ _ _ _ => exact hm.trans_named IH hx hy hz h h'

theorem lifted_left (IH : m.TransBelow classIsA (n + k)) (hx : m.wellFormed x = true)
    (hy : m.wellFormed y = true) (hz : m.wellFormed z = true)
    (h : m.Lifted (m.Derives true classIsA n) x y) (h' : m.Derives true classIsA k y z) :
    m.Derivable true classIsA x z := by
  have hmono : m.Derivable true classIsA x y :=
    h.derivable fun _ _ hD => ⟨n, hD⟩
  cases hcases : h with
  | base hD => exact hm.base_trans IH hx hy hz hD h'
  | refl => exact ⟨k, h'⟩
  | union hlen hparts =>
    cases h' with
    | refl => exact hmono
    | mixed => exact ⟨1, .mixed⟩
    | unionLeft hall =>
      refine .unionLeft fun p hp => ?_
      obtain ⟨i, q, hi, hi', hq⟩ := exists_getElem?_of_length_eq hlen hp
      exact IH.left (by omega) (everyNode_union hx hp) (everyNode_union hy hq) hz
        (hparts i p q hi hi') (hall q hq)
    | intersectionRight ha _ => cases ha
    | unionRight ha _ _ => cases ha
    | nullable ha _ _ _ => cases ha
  | intersection hlen hparts =>
    cases h' with
    | refl => exact hmono
    | mixed => exact ⟨1, .mixed⟩
    | intersectionRight _ hall =>
      exact .intersectionRight rfl fun p hp =>
        IH.left (by omega) hx hy (everyNode_intersection hz hp) h (hall p hp)
    | unionRight _ hp hD =>
      exact .unionRight _ (IH.left (by omega) hx hy (everyNode_union hz hp) h hD) hp
    | intersectionLeft hb hb' hq hD =>
      obtain ⟨i, p, hi, hi', hp⟩ := exists_getElem?_of_length_eq hlen.symm hq
      exact .ofPart hb hb' hp (IH.left (by omega) (everyNode_intersection hx hp)
        (everyNode_intersection hy hq) hz (hparts i p _ hi' hi) hD)
    | nullable _ ha _ _ => cases ha
  | nullable hinner =>
    cases h' with
    | refl => exact hmono
    | mixed => exact ⟨1, .mixed⟩
    | intersectionRight _ hall =>
      exact .intersectionRight rfl fun p hp =>
        IH.left (by omega) hx hy (everyNode_intersection hz hp) h (hall p hp)
    | unionRight _ hp hD =>
      exact .unionRight _ (IH.left (by omega) hx hy (everyNode_union hz hp) h hD) hp
    | nullables hD =>
      exact .nullables (IH.left (by omega) (everyNode_nullable hx) (everyNode_nullable hy)
        (everyNode_nullable hz) hinner hD)
    | nullable _ _ ha _ => cases ha
  | arguments ha hb hst hlen hcov hcontra hinv =>
    have hcmp : m.Compared (m.Lifted (m.Derives true classIsA n)) _ _ _ :=
      ⟨hlen, hcov, hcontra, hinv⟩
    cases hc : h' with
    | refl => exact hmono
    | mixed => exact ⟨1, .mixed⟩
    | intersectionRight _ hall =>
      exact .intersectionRight rfl fun p hp =>
        IH.left (by omega) hx hy (everyNode_intersection hz hp) h (hall p hp)
    | unionRight _ hp hD =>
      exact .unionRight _ (IH.left (by omega) hx hy (everyNode_union hz hp) h hD) hp
    | nullable _ _ _ hD =>
      exact .nullable rfl rfl rfl (IH.left (by omega) hx hy (everyNode_nullable hz) h hD)
    | arguments _ _ _ _ _ _ _ => exact hm.named_left IH ha hb hst hcmp hx hy hz h'
    | object _ _ _ _ => exact hm.named_left IH ha hb hst hcmp hx hy hz h'
    | ancestor _ _ _ _ _ _ _ _ _ _ => exact hm.named_left IH ha hb hst hcmp hx hy hz h'
    | classIsA _ _ _ _ => exact hm.named_left IH ha hb hst hcmp hx hy hz h'

theorem lifted_right (IH : m.TransBelow classIsA (n + k)) (hx : m.wellFormed x = true)
    (hy : m.wellFormed y = true) (hz : m.wellFormed z = true) (h : m.Derives true classIsA k x y)
    (h' : m.Lifted (m.Derives true classIsA n) y z) : m.Derivable true classIsA x z := by
  have hmono : m.Derivable true classIsA y z :=
    h'.derivable fun _ _ hD => ⟨n, hD⟩
  cases hcases : h' with
  | base hD => exact hm.base_trans (Nat.add_comm n k ▸ IH) hx hy hz h hD
  | refl => exact ⟨k, h⟩
  | union hlen hparts =>
    cases h with
    | refl => exact hmono
    | never => exact ⟨1, .never⟩
    | unionLeft hall =>
      exact .unionLeft fun p hp => IH.right (by omega) (everyNode_union hx hp) hy hz (hall p hp) h'
    | unionRight _ hp hD =>
      obtain ⟨i, q, hi, hi', hq⟩ := exists_getElem?_of_length_eq hlen hp
      exact .unionRight x (IH.right (by omega) hx (everyNode_union hy hp) (everyNode_union hz hq) hD
        (hparts i _ q hi hi')) hq
    | intersectionLeft _ _ hp hD =>
      exact .intersectionLeft _ (IH.right (by omega) (everyNode_intersection hx hp) hy hz hD h') hp
  | intersection hlen hparts =>
    cases h with
    | refl => exact hmono
    | never => exact ⟨1, .never⟩
    | unionLeft hall =>
      exact .unionLeft fun p hp => IH.right (by omega) (everyNode_union hx hp) hy hz (hall p hp) h'
    | intersectionRight ha hall =>
      refine .intersectionRight ha fun q hq => ?_
      obtain ⟨i, p, hi, hi', hp⟩ := exists_getElem?_of_length_eq hlen.symm hq
      exact IH.right (by omega) hx (everyNode_intersection hy hp) (everyNode_intersection hz hq)
        (hall p hp) (hparts i p q hi' hi)
    | intersectionLeft _ hb _ _ => cases hb
  | nullable hinner =>
    cases h with
    | refl => exact hmono
    | never => exact ⟨1, .never⟩
    | unionLeft hall =>
      exact .unionLeft fun p hp => IH.right (by omega) (everyNode_union hx hp) hy hz (hall p hp) h'
    | intersectionLeft _ _ hp hD =>
      exact .intersectionLeft _ (IH.right (by omega) (everyNode_intersection hx hp) hy hz hD h') hp
    | null => exact ⟨1, .null⟩
    | nullables hD =>
      exact .nullables (IH.right (by omega) (everyNode_nullable hx) (everyNode_nullable hy)
        (everyNode_nullable hz) hD hinner)
    | nullable ha ha' ha'' hD =>
      exact .nullable ha ha' ha'' (IH.right (by omega) hx (everyNode_nullable hy)
        (everyNode_nullable hz) hD hinner)
  | arguments hb hc hbc hlen hcov hcontra hinv =>
    have hcmp : m.Compared (m.Lifted (m.Derives true classIsA n)) _ _ _ :=
      ⟨hlen, hcov, hcontra, hinv⟩
    cases hd : h with
    | refl => exact hmono
    | never => exact ⟨1, .never⟩
    | unionLeft hall =>
      exact .unionLeft fun p hp => IH.right (by omega) (everyNode_union hx hp) hy hz (hall p hp) h'
    | intersectionLeft _ _ hp hD =>
      exact .intersectionLeft _ (IH.right (by omega) (everyNode_intersection hx hp) hy hz hD h') hp
    | arguments _ _ _ _ _ _ _ => exact hm.named_right IH hb hc hbc hcmp hx hy hz h
    | object _ _ _ _ => exact hm.named_right IH hb hc hbc hcmp hx hy hz h
    | ancestor _ _ _ _ _ _ _ _ _ _ => exact hm.named_right IH hb hc hbc hcmp hx hy hz h
    | classIsA _ _ _ _ => exact hm.named_right IH hb hc hbc hcmp hx hy hz h

theorem transBelow (N : Nat) : m.TransBelow classIsA N := by
  induction N with
  | zero => exact fun n k h => absurd h (Nat.not_lt_zero _)
  | succ N ih =>
    intro n k hlt x y z hx hy hz
    have IH : m.TransBelow classIsA (n + k) := ih.mono (Nat.le_of_lt_succ hlt)
    exact ⟨hm.lifted_left IH hx hy hz, hm.lifted_right IH hx hy hz⟩

end Linked

/-- Acceptance is transitive over linked metadata where the check ends and overlooks nothing on its
way, and it is not where the pair itself is overlooked. -/
theorem isSubtype_trans (hm : m.Linked classIsA) {a b c : GenericType}
    (ha : m.wellFormed a = true) (hb : m.wellFormed b = true) (hc : m.wellFormed c = true)
    (hab : m.IsSubtype classIsA a b) (hbc : m.IsSubtype classIsA b c) :
    (m.Clear classIsA a c → m.IsSubtype classIsA a c) ∧
      (m.Overlooks classIsA (a, c) → ¬m.IsSubtype classIsA a c) := by
  refine ⟨fun hclear => ?_, Overlooks.not_isSubtype⟩
  obtain ⟨n, hn⟩ := hab.derivable
  obtain ⟨k, hk⟩ := hbc.derivable
  have hac := (hm.transBelow (n + k + 1)).base (Nat.lt_succ_self _) ha hb hc hn hk
  exact hac.isSubtype_of_clear hm.acyclic hclear

/-- `class Base<+T>` and `class Sub<+T> extends Base<argument>`. -/
def baseMetadata (argument : GenericType) : GenericMetadata where
  symbols := [['X'], ['P'], ['Q'], ['R'], ['B', 'a', 's', 'e'], ['S', 'u', 'b'], ['T']]
  declarations := [⟨.interface, 0, [], []⟩, ⟨.interface, 1, [], []⟩, ⟨.interface, 2, [], []⟩,
    ⟨.interface, 3, [], []⟩, ⟨.class, 4, [⟨6, .covariant, none, none⟩], []⟩,
    ⟨.class, 5, [⟨6, .covariant, none, none⟩], []⟩]
  inheritances := [⟨5, 4, [argument]⟩]

def baseIsA (s t : Name) : Bool :=
  s.eqIgnoreAsciiCase t ||
    (s.eqIgnoreAsciiCase ['S', 'u', 'b'] && t.eqIgnoreAsciiCase ['B', 'a', 's', 'e'])

theorem baseMetadata_classIsA (argument : GenericType) (s t : Name) :
    baseIsA s t = true ↔ s.eqIgnoreAsciiCase t = true ∨
      ∃ d e u, (baseMetadata argument).findClassLike s = some d ∧
        TransGen (baseMetadata argument).Extends d e ∧
        (baseMetadata argument).symbol e.owner = some u ∧ u.eqIgnoreAsciiCase t = true := by
  rw [baseIsA, Bool.or_eq_true, Bool.and_eq_true]
  refine or_congr_right ⟨?_, ?_⟩
  · rintro ⟨hs, ht⟩
    refine ⟨⟨.class, 5, [⟨6, .covariant, none, none⟩], []⟩,
      ⟨.class, 4, [⟨6, .covariant, none, none⟩], []⟩, ['B', 'a', 's', 'e'], ?_,
      .single ⟨⟨5, 4, [argument]⟩, List.mem_cons_self, rfl, rfl⟩, rfl,
      Name.eqIgnoreAsciiCase_symm ht⟩
    rw [findClassLike_congr hs]
    rfl
  · rintro ⟨d, e, u, hd, hext, hu, hut⟩
    obtain ⟨x, ⟨inheritance, hi, ho, -⟩, -⟩ := TransGen.head'_iff.1 hext
    obtain ⟨y, -, inheritance', hi', -, ht⟩ := TransGen.tail'_iff.1 hext
    rw [List.mem_singleton.1 hi] at ho
    rw [List.mem_singleton.1 hi'] at ht
    obtain ⟨-, w, hw, hws⟩ := findClassLike_spec hd
    rw [← ho] at hw
    cases hw
    cases ht
    cases hu
    exact ⟨Name.eqIgnoreAsciiCase_symm hws, Name.eqIgnoreAsciiCase_symm hut⟩

theorem baseMetadata_linked {argument : GenericType}
    (hvalid : (baseMetadata argument).validateVariance = .ok ())
    (hargument : (baseMetadata argument).wellFormed argument = true) :
    (baseMetadata argument).Linked baseIsA where
  valid := hvalid
  acyclic := acyclic_of_symbols fun inheritance hi e he => by
    rw [List.mem_singleton.1 hi] at he ⊢
    cases he
    exact Nat.lt_succ_self 4
  clause := fun inheritance hi e he => by
    rw [List.mem_singleton.1 hi] at he ⊢
    cases he
    rfl
  arguments := fun inheritance hi a ha => by
    rw [List.mem_singleton.1 hi] at ha
    rw [List.mem_singleton.1 ha]
    exact hargument
  classIsA := baseMetadata_classIsA argument
  object := rfl

/-- The only ancestor of `Sub`. -/
theorem baseMetadata_ancestor {argument : GenericType} {as : List GenericType}
    {y : GenericDeclaration × List GenericType}
    (h : TransGen (baseMetadata argument).Inherits (d, as) y) :
    y.2 = [substituteGenericParameters as argument] := by
  have hone : ∀ {x y : GenericDeclaration × List GenericType},
      (baseMetadata argument).Inherits x y →
        x.1.owner = 5 ∧ y.1.owner = 4 ∧ y.2 = [substituteGenericParameters x.2 argument] := by
    rintro x ⟨e, γ⟩ ⟨inheritance, hi, ho, ht, hy⟩
    rw [List.mem_singleton.1 hi] at ho ht hy
    obtain rfl : _ = e := Option.some.inj ht
    exact ⟨ho.symm, rfl, hy⟩
  obtain ⟨x, hx, hxy⟩ := TransGen.head'_iff.1 h
  obtain ⟨-, hx4, hxas⟩ := hone hx
  rcases ReflTransGen.cases_head hxy with rfl | ⟨z, hz, -⟩
  · exact hxas
  · obtain ⟨hx5, -⟩ := hone hz
    rw [hx4] at hx5
    cases hx5

/-- The check of `Sub<P>` for `Base<(P|Q)&X>`, where `Sub<T>` extends `Base<T&X>`. It compares
`P&X` with the union, and `P` accepts it. -/
theorem baseMetadata_clear :
    (baseMetadata (.intersection [.parameter 0, .named 0 []])).Clear baseIsA
    (.named 5 [.named 1 []])
    (.named 4 [.intersection [.union [.named 1 [], .named 2 []], .named 0 []]]) := by
  have hpart : ∀ b, (baseMetadata (.intersection [.parameter 0, .named 0 []])).Clear baseIsA
      (.intersection [.named 1 [], .named 0 []]) (.named b []) := fun b =>
    .intersectionLeft rfl rfl (forall_mem_pair (.classes 1 b) (.classes 0 b))
  have hbound : (baseMetadata (.intersection [.parameter 0, .named 0 []])).Clear baseIsA
      (.intersection [.named 1 [], .named 0 []])
      (.intersection [.union [.named 1 [], .named 2 []], .named 0 []]) := by
    refine .intersectionRight rfl (forall_mem_pair ?_ (hpart 0))
    exact .unionRight List.mem_cons_self (.ofPart (fun _ => rfl) rfl List.mem_cons_self (.refl _))
      (forall_mem_pair (hpart 1) (hpart 2))
  have hbase : (baseMetadata (.intersection [.parameter 0, .named 0 []])).Clear baseIsA
      (.named 4 [.intersection [.named 1 [], .named 0 []]])
      (.named 4 [.intersection [.union [.named 1 [], .named 2 []], .named 0 []]]) := by
    refine .of_nested id fun x y hc => ?_
    cases hc with
    | covariant _ _ _ _ hx hy _ _ =>
      rw [List.mem_singleton.1 (List.mem_of_getElem? hx),
        List.mem_singleton.1 (List.mem_of_getElem? hy)]
      exact hbound
    | contravariant _ _ _ _ _ _ hv _ =>
      exact absurd hv (varianceAt_ne_contravariant (by decide) _ _)
    | ancestor ha hb hst _ _ _ _ _ _ _ =>
      cases ha
      cases hb
      cases hst
  refine .of_nested id fun x y hc => ?_
  cases hc with
  | covariant _ ha hb hst _ _ _ _ =>
    cases ha
    cases hb
    cases hst
  | contravariant _ _ _ _ _ _ hv _ =>
    exact absurd hv (varianceAt_ne_contravariant (by decide) _ _)
  | ancestor ha _ _ _ _ hd _ hl he _ =>
    cases ha
    cases hd
    have hanc := (mem_ancestorBindingsFrom hl).1 (List.mem_filter.1 (List.mem_of_getElem? he)).1
    obtain rfl := baseMetadata_ancestor hanc
    exact hbase

/-- `Sub<P>` is accepted for `Sub<P|Q>`, which is accepted for `Base<(P|Q)&X>`. -/
theorem sub_accepted_for_base :
    (baseMetadata (.intersection [.parameter 0, .named 0 []])).IsSubtype baseIsA
      (.named 5 [.named 1 []])
      (.named 4 [.intersection [.union [.named 1 [], .named 2 []], .named 0 []]]) :=
  (isSubtype_trans (b := .named 5 [.union [.named 1 [], .named 2 []]])
    (baseMetadata_linked rfl (by decide +kernel)) (by decide +kernel) (by decide +kernel)
    (by decide +kernel) ⟨5, by decide +kernel⟩ ⟨5, by decide +kernel⟩).1 baseMetadata_clear

/-- `Sub<P|Q>` is accepted for `Sub<P|Q|R>` and that for `Base<(P|Q|R)&X>`, but the first is not
accepted for the last. -/
theorem subtype_check_not_transitive :
    ¬∀ (m : GenericMetadata) (classIsA : Name → Name → Bool) (a b c : GenericType),
      m.Linked classIsA → m.wellFormed a = true → m.wellFormed b = true →
      m.wellFormed c = true → m.IsSubtype classIsA a b → m.IsSubtype classIsA b c →
      m.IsSubtype classIsA a c := by
  intro h
  obtain ⟨fuel, hyes⟩ := h (baseMetadata (.intersection [.parameter 0, .named 0 []])) baseIsA
    (.named 5 [.union [.named 1 [], .named 2 []]])
    (.named 5 [.union [.named 1 [], .named 2 [], .named 3 []]])
    (.named 4 [.intersection [.union [.named 1 [], .named 2 [], .named 3 []], .named 0 []]])
    (baseMetadata_linked rfl (by decide +kernel)) (by decide +kernel) (by decide +kernel)
    (by decide +kernel) ⟨5, by decide +kernel⟩ ⟨5, by decide +kernel⟩
  have hno : (baseMetadata (.intersection [.parameter 0, .named 0 []])).genericTypeIsSubtype baseIsA
      7 (.named 5 [.union [.named 1 [], .named 2 []]])
      (.named 4 [.intersection [.union [.named 1 [], .named 2 [], .named 3 []], .named 0 []]]) =
        some false := by decide +kernel
  cases IsSubtype.answer ⟨fuel, hyes⟩ hno

end GenericMetadata

end Rphp.Generics
