import Rphp.Generics.Termination

namespace Rphp.Generics
open Lib Relation
set_option autoImplicit true

namespace GenericMetadata
open GenericType

variable {m : GenericMetadata} {wide : Bool} {classIsA : Name → Name → Bool}

/-- Arguments that were refused have a first one that was tried and refused. -/
theorem exists_refused_argument {p : GenericType → GenericType → Option Bool}
    (h : m.compareArguments p s as bs = some false) (hlen : as.length = bs.length) :
    ∃ (k : Nat) (x y : GenericType), as[k]? = some x ∧ bs[k]? = some y ∧
      m.Compared (fun x y => p x y = some true) s (as.take k) (bs.take k) ∧
      (m.varianceAt s k = .covariant → p x y = some false) ∧
      (m.varianceAt s k = .contravariant → p y x = some false) ∧
      (m.varianceAt s k = .invariant → x ≠ y) := by
  obtain ⟨all, hall, hr⟩ := Option.map_eq_some_iff.1 h
  rw [decide_eq_true hlen, Bool.and_true] at hr
  subst hr
  obtain ⟨k, ⟨⟨x, y⟩, i⟩, hk, hp, hbefore⟩ := exists_of_allM_eq_false hall
  rw [List.getElem?_zipIdx, Option.map_eq_some_iff] at hk
  obtain ⟨e, he, hk⟩ := hk
  rw [List.getElem?_zip_eq_some] at he
  cases hk
  rw [Nat.zero_add] at hp
  refine ⟨k, x, y, he.1, he.2, compared_take he.1 he.2 fun i x y hi => ?_, fun hv => ?_,
    fun hv => ?_, fun hv => ?_⟩
  · have hpassed := hbefore _ hi
    refine ⟨fun hv => ?_, fun hv => ?_, fun hv => ?_⟩
    · simpa [hv] using hpassed
    · simpa [hv] using hpassed
    · simpa [hv] using hpassed
  · simpa [hv] using hp
  · simpa [hv] using hp
  · simpa [hv] using hp

section Named
variable {p : GenericType → GenericType → Option Bool}

theorem compareNamed_refuses (hp : ∀ x y r, p x y = some r → ∃ n,
      m.genericTypeIsSubtype classIsA n x y = some r)
    (hfalse : ∀ x y, p x y = some false → m.Tries classIsA (x, y) (.named a as, .named b bs) →
      ∀ k, ¬m.Derives wide classIsA k x y)
    (hs : ¬Settled (.named a as) (.named b bs))
    (h : m.compareNamed classIsA fuel p a as b bs = some false) :
    ¬m.Derives wide classIsA k (.named a as) (.named b bs) := by
  intro hD
  obtain ⟨n, s, t, rfl, ha, hb, hD⟩ := hD.named_inv fun heq => hs (.inl heq)
  simp only [compareNamed, ha, hb] at h
  cases hD with
  | arguments hst hc =>
    rw [if_pos hst] at h
    obtain ⟨i, x, y, hx, hy, hbefore, hcov, hcontra, hinv⟩ := exists_refused_argument h hc.length
    have hbefore := hbefore.imp fun _ _ hxy => hp _ _ _ hxy
    cases hv : m.varianceAt s i with
    | covariant =>
      exact hfalse x y (hcov hv) (.covariant hs ha hb hst hx hy hv hbefore) n
        (hc.covariant i x y hx hy hv)
    | contravariant =>
      exact hfalse y x (hcontra hv) (.contravariant hs ha hb hst hx hy hv hbefore) n
        (hc.contravariant i x y hx hy hv)
    | invariant => exact hinv hv (hc.invariant i x y hx hy hv)
  | object hst hobject => simp [hst, hobject] at h
  | ancestor hst hbs hd hlen hanc he hu hD =>
    rw [if_neg (by simp [hst])] at h
    by_cases hobject : t.eqIgnoreAsciiCase objectName = true
    · simp [hobject] at h
    rw [if_neg hobject, if_pos hbs] at h
    simp only [hd, ne_eq, hlen, not_true_eq_false, if_false] at h
    obtain ⟨l, hl, h⟩ := Option.bind_eq_some_iff.1 h
    have hno := anyM_eq_false.1 h
    have hmem : (_, _) ∈ l.filter fun e => (m.symbol e.1.owner).any fun name =>
        name.eqIgnoreAsciiCase t := List.mem_filter.2
      ⟨(mem_ancestorBindingsFrom hl).2 hanc, (Option.any_eq_true _ _).2 ⟨_, he, hu⟩⟩
    obtain ⟨i, hi⟩ := List.getElem?_of_mem hmem
    refine hfalse _ _ (hno _ (List.mem_of_getElem? hi)) (.ancestor ha hb hst
      (Bool.eq_false_iff.2 hobject) hbs hd hlen hl hi fun f hf => ?_) n hD
    exact hp _ _ _ (hno f (List.mem_of_mem_take hf))
  | classIsA hst hbs hD =>
    rw [if_neg (by simp [hst])] at h
    by_cases hobject : t.eqIgnoreAsciiCase objectName = true
    · simp [hobject] at h
    simp [hobject, hbs, hD] at h

end Named

variable (m classIsA) in
/-- An intersection is accepted for a union because one of its parts is, but for none of the parts
of the union: the arm for unions comes in front of that for the parts of an intersection, and
refuses it. -/
def Overlooks : GenericType × GenericType → Prop
  | (.intersection ps, .union qs) =>
    (∃ p ∈ ps, m.Derivable true classIsA p (.union qs)) ∧
      ∀ q ∈ qs, ¬m.Derivable true classIsA (.intersection ps) q
  | _ => False

variable (m classIsA) in
/-- Nothing is overlooked by the nested checks that a check evaluates. -/
def Sees (a b : GenericType) : Prop :=
  ∀ c, ReflTransGen (m.Tries classIsA) c (a, b) → ¬m.Overlooks classIsA c

theorem Sees.nested (h : m.Sees classIsA a b) (hc : m.Tries classIsA (x, y) (a, b)) :
    m.Sees classIsA x y :=
  fun c hr => h c (hr.tail hc)

/-- What the check refuses has no derivation in the narrow sense, and none in the wide sense where
nothing was overlooked. -/
theorem genericTypeIsSubtype_refuses (fuel : Nat) {a b : GenericType}
    (h : m.genericTypeIsSubtype classIsA fuel a b = some false)
    (hsees : wide = true → m.Sees classIsA a b) (k : Nat) : ¬m.Derives wide classIsA k a b := by
  induction fuel generalizing a b k with
  | zero => simp [genericTypeIsSubtype] at h
  | succ fuel ih =>
    unfold genericTypeIsSubtype at h
    split_ifs at h with hs
    · cases h
    have hnested : ∀ {x y k}, m.genericTypeIsSubtype classIsA fuel x y = some false →
        m.Tries classIsA (x, y) (a, b) → ¬m.Derives wide classIsA k x y :=
      fun hxy hc => ih hxy (fun hw => (hsees hw).nested hc) _
    have hsettled : ¬Settled a b := hs
    rw [not_or, not_or] at hs
    obtain ⟨hne, hnever, hmixed⟩ := hs
    intro hD
    split at h
    · obtain ⟨i, p, hp, h, hbefore⟩ := exists_of_allM_eq_false h
      cases hD with
      | unionLeft hall =>
        exact hnested h (.unionLeft hsettled hp fun q hq => ⟨fuel, hbefore q hq⟩)
          (hall p (List.mem_of_getElem? hp))
      | refl => exact hne rfl
      | mixed => exact hmixed rfl
      | intersectionRight ha _ => simp [isUnion] at ha
      | unionRight ha _ _ => simp [isUnion] at ha
      | nullable ha _ _ _ => simp [isUnion] at ha
    · obtain ⟨i, p, hp, h, hbefore⟩ := exists_of_allM_eq_false h
      cases hD with
      | intersectionRight ha hall =>
        exact hnested h (.intersectionRight hsettled ha hp fun q hq => ⟨fuel, hbefore q hq⟩)
          (hall p (List.mem_of_getElem? hp))
      | refl => exact hne rfl
      | never => exact hnever rfl
      | unionLeft _ => simp_all
      | intersectionLeft _ hb _ _ => simp [isIntersection] at hb
    · next ps hu =>
      have ha : a.isUnion = false := isUnion_eq_false (by assumption)
      have hno := anyM_eq_false.1 h
      have hright : ∀ p ∈ ps, ∀ k, ¬m.Derives wide classIsA k a p := by
        intro p hp k
        obtain ⟨i, hi⟩ := List.getElem?_of_mem hp
        exact hnested (hno p hp) (.unionRight hsettled ha hi fun q hq =>
          ⟨fuel, hno q (List.mem_of_mem_take hq)⟩)
      cases hD with
      | unionRight _ hp h => exact hright _ hp _ h
      | refl => exact hne rfl
      | never => exact hnever rfl
      | unionLeft _ => simp_all
      | intersectionLeft hb _ hp h =>
        -- Only the wide rule is left, so that the pair itself is overlooked.
        obtain rfl : wide = true := hb rfl
        refine hsees rfl _ .refl ⟨⟨_, hp, _, h⟩, fun q hq hD => ?_⟩
        obtain ⟨k, hD⟩ := hD
        exact hright q hq k hD
    · have hno := anyM_eq_false.1 h
      rename_i hu hi
      cases hD with
      | intersectionLeft _ hb' hp h =>
        obtain ⟨i, hi⟩ := List.getElem?_of_mem hp
        have hb : b.isUnion = false := isUnion_eq_false (by assumption)
        exact hnested (hno _ hp) (.intersectionLeft hsettled hb hb' hi fun q hq =>
          ⟨fuel, hno q (List.mem_of_mem_take hq)⟩) h
      | refl => exact hne rfl
      | mixed => exact hmixed rfl
      | intersectionRight _ _ => simp_all
      | unionRight _ _ _ => simp_all
      | nullable _ ha _ _ => simp [isIntersection] at ha
    · cases h
    · cases hD with
      | nullables hD => exact hnested h (.nullables hsettled) hD
      | refl => exact hne rfl
      | nullable _ _ ha _ => simp [isNullable] at ha
    · cases hD with
      | nullable ha ha' ha'' hD =>
        exact hnested h (.nullable hsettled ha ha' ha'' (by rintro rfl; simp_all)) hD
      | refl => exact hne rfl
      | never => exact hnever rfl
      | unionLeft _ => simp_all
      | intersectionLeft _ _ _ _ => simp_all
      | null => simp_all
      | nullables _ => simp_all
    · exact compareNamed_refuses (fun x y r hr => ⟨fuel, hr⟩)
        (fun x y hxy hc k => hnested hxy hc) hsettled h hD
    · rename_i hnamed
      cases hD with
      | refl => exact hne rfl
      | arguments _ _ _ _ _ _ _ => exact hnamed _ _ _ _ rfl rfl
      | object _ _ _ _ => exact hnamed _ _ _ _ rfl rfl
      | ancestor _ _ _ _ _ _ _ _ _ _ => exact hnamed _ _ _ _ rfl rfl
      | classIsA _ _ _ _ => exact hnamed _ _ _ _ rfl rfl
      | _ => simp_all

/-- An overlooked pair is refused. -/
theorem Overlooks.not_isSubtype (h : m.Overlooks classIsA (a, b)) : ¬m.IsSubtype classIsA a b := by
  intro hyes
  cases a with
  | intersection ps =>
    cases b with
    | union qs =>
      obtain ⟨n, hD⟩ : m.Derivable false classIsA _ _ := hyes.derivable
      cases hD with
      | unionRight _ hq hD => exact h.2 _ hq ⟨_, hD.widen⟩
      | intersectionLeft hb _ _ _ => cases hb rfl
    | _ => exact h
  | _ => exact h

/-- No endless chain of nested checks, and a derivation: the check comes back with yes. -/
theorem Derivable.isSubtype (h : m.Derivable wide classIsA a b) (hm : m.Acyclic)
    (hends : Acc (m.Tries classIsA) (a, b)) (hsees : wide = true → m.Sees classIsA a b) :
    m.IsSubtype classIsA a b := by
  obtain ⟨k, hk⟩ := h
  obtain ⟨fuel, r, hr⟩ := genericTypeIsSubtype_returns hm hends
  cases r with
  | true => exact ⟨fuel, hr⟩
  | false => exact absurd hk (genericTypeIsSubtype_refuses fuel hr hsees k)

variable (m classIsA) in
/-- The check ends, and overlooks nothing on its way. -/
structure Clear (a b : GenericType) : Prop where
  ends : Acc (m.Tries classIsA) (a, b)
  sees : m.Sees classIsA a b

namespace Clear

/-- A check is clear if it does not overlook its own pair and all that it evaluates is clear. -/
theorem of_nested (h : ¬m.Overlooks classIsA (a, b))
    (hnested : ∀ x y, m.Tries classIsA (x, y) (a, b) → m.Clear classIsA x y) :
    m.Clear classIsA a b := by
  refine ⟨⟨_, fun c hc => (hnested c.1 c.2 hc).ends⟩, fun c hr => ?_⟩
  rcases ReflTransGen.cases_tail hr with rfl | ⟨d, hcd, hd⟩
  · exact h
  · exact (hnested d.1 d.2 hd).sees c hcd

theorem settled (h : Settled a b) : m.Clear classIsA a b := by
  refine of_nested (fun ho => ?_) fun x y hc => ?_
  · rcases h with rfl | rfl | rfl
    · cases a <;> exact ho
    · exact ho
    · cases a <;> exact ho
  · cases hc with
    | ancestor ha hb hst _ hbs _ _ _ _ _ =>
      rcases h with heq | hnever | hmixed
      · cases heq
        rw [ha, Option.some.injEq] at hb
        subst hb
        simp at hst
      · cases hnever
      · cases hmixed
    | _ => contradiction

/-- Two classes without type arguments. -/
theorem classes (a b : Nat) : m.Clear classIsA (.named a []) (.named b []) := by
  refine of_nested id fun x y hc => ?_
  cases hc with
  | covariant _ _ _ _ hx _ _ _ => cases hx
  | contravariant _ _ _ _ hx _ _ _ => cases hx
  | ancestor _ _ _ _ hbs _ _ _ _ _ => exact absurd rfl hbs

theorem unionLeft (h : ∀ p ∈ ps, m.Clear classIsA p b) : m.Clear classIsA (.union ps) b := by
  refine of_nested id fun x y hc => ?_
  cases hc with
  | unionLeft _ hp _ => exact h _ (List.mem_of_getElem? hp)
  | intersectionRight _ ha _ _ => cases ha
  | unionRight _ ha _ _ => cases ha
  | nullable _ ha _ _ _ => cases ha

theorem intersectionRight (ha : a.isUnion = false) (h : ∀ p ∈ ps, m.Clear classIsA a p) :
    m.Clear classIsA a (.intersection ps) := by
  refine of_nested (fun ho => ?_) fun x y hc => ?_
  · cases a <;> exact ho
  · cases hc with
    | unionLeft _ _ _ => cases ha
    | intersectionRight _ _ hp _ => exact h _ (List.mem_of_getElem? hp)
    | intersectionLeft _ _ hb _ _ => cases hb

/-- An intersection against a union, one part of which accepts it. -/
theorem unionRight (hq : q ∈ qs) (hD : m.Derivable true classIsA (.intersection ps) q)
    (h : ∀ q ∈ qs, m.Clear classIsA (.intersection ps) q) :
    m.Clear classIsA (.intersection ps) (.union qs) := by
  refine of_nested (fun ho => ho.2 q hq hD) fun x y hc => ?_
  cases hc with
  | unionRight _ _ hp _ => exact h _ (List.mem_of_getElem? hp)
  | intersectionLeft _ hb _ _ _ => cases hb

theorem intersectionLeft (hb : b.isUnion = false) (hb' : b.isIntersection = false)
    (h : ∀ p ∈ ps, m.Clear classIsA p b) : m.Clear classIsA (.intersection ps) b := by
  refine of_nested (fun ho => ?_) fun x y hc => ?_
  · cases b with
    | union qs => cases hb
    | _ => exact ho
  · cases hc with
    | intersectionRight _ _ _ _ => cases hb'
    | unionRight _ _ _ _ => cases hb
    | intersectionLeft _ _ _ hp _ => exact h _ (List.mem_of_getElem? hp)
    | nullable _ _ ha' _ _ => cases ha'

end Clear

theorem Derivable.isSubtype_of_clear (h : m.Derivable true classIsA a b) (hm : m.Acyclic)
    (hclear : m.Clear classIsA a b) : m.IsSubtype classIsA a b :=
  h.isSubtype hm hclear.ends fun _ => hclear.sees

end GenericMetadata

end Rphp.Generics
