import Rphp.Generics.Derivation

namespace Rphp.Generics
open Lib Relation
set_option autoImplicit true

namespace GenericMetadata
open GenericType

variable {m : GenericMetadata} {classIsA : Name → Name → Bool}

section Named
variable {p q : GenericType → GenericType → Option Bool}

theorem compareArguments_mono (hpq : ∀ x y r, p x y = some r → q x y = some r)
    (h : m.compareArguments p s as bs = some r) : m.compareArguments q s as bs = some r := by
  obtain ⟨all, hall, rfl⟩ := Option.map_eq_some_iff.1 h
  refine Option.map_eq_some_iff.2 ⟨all, allM_mono ?_ hall, rfl⟩
  rintro ⟨⟨x, y⟩, k⟩ - r hr
  cases hv : m.varianceAt s k with
  | covariant => simpa [hv] using hpq _ _ _ (by simpa [hv] using hr)
  | contravariant => simpa [hv] using hpq _ _ _ (by simpa [hv] using hr)
  | invariant => simpa [hv] using hr

theorem compareNamed_mono (hpq : ∀ x y r, p x y = some r → q x y = some r)
    (h : m.compareNamed classIsA fuel p a as b bs = some r) :
    m.compareNamed classIsA (fuel + 1) q a as b bs = some r := by
  unfold compareNamed at h ⊢
  split at h
  · next s t ha hb =>
    split_ifs at h ⊢
    · exact compareArguments_mono hpq h
    · exact h
    · split at h
      · exact h
      · next d hd =>
        dsimp only at h ⊢
        split_ifs at h ⊢
        · exact h
        · obtain ⟨l, hl, h⟩ := Option.bind_eq_some_iff.1 h
          rw [ancestorBindingsFrom_mono hl]
          exact anyM_mono (fun x _ r => hpq _ _ r) h
    · exact h
  · exact h

end Named

theorem genericTypeIsSubtype_succ (fuel : Nat) {a b : GenericType}
    (h : m.genericTypeIsSubtype classIsA fuel a b = some r) :
    m.genericTypeIsSubtype classIsA (fuel + 1) a b = some r := by
  induction fuel generalizing a b r with
  | zero => simp [genericTypeIsSubtype] at h
  | succ fuel ih =>
    unfold genericTypeIsSubtype at h ⊢
    split_ifs at h ⊢
    · exact h
    · split at h
      · exact allM_mono (fun p _ r => ih) h
      · exact allM_mono (fun p _ r => ih) h
      · exact anyM_mono (fun p _ r => ih) h
      · exact anyM_mono (fun p _ r => ih) h
      · exact h
      · exact ih h
      · exact ih h
      · exact compareNamed_mono (fun x y r => ih) h
      · exact h

theorem genericTypeIsSubtype_le (h : m.genericTypeIsSubtype classIsA n a b = some r) (hle : n ≤ k) :
    m.genericTypeIsSubtype classIsA k a b = some r :=
  of_le (P := fun n => m.genericTypeIsSubtype classIsA n a b = some r)
    (fun n => genericTypeIsSubtype_succ n) h hle

/-- One answer does not depend on the fuel. -/
theorem IsSubtype.answer (h : m.IsSubtype classIsA a b)
    (hr : m.genericTypeIsSubtype classIsA n a b = some r) : r = true := by
  obtain ⟨k, hk⟩ := h
  have hr := genericTypeIsSubtype_le hr (Nat.le_max_left n k)
  rw [genericTypeIsSubtype_le hk (Nat.le_max_right n k)] at hr
  exact (Option.some.inj hr).symm

variable (m classIsA) in
/-- The check comes back with no. -/
def Refuses (a b : GenericType) : Prop :=
  ∃ fuel, m.genericTypeIsSubtype classIsA fuel a b = some false

/-- The check is answered in front of its arms. -/
def Settled (a b : GenericType) : Prop := a = b ∨ a = .never ∨ b = .mixed

/-- The nested checks that a check evaluates, the nested one first. Parts of which all have to be
accepted are tried as long as those in front are, parts of which one is enough as long as those in
front are not. -/
inductive Tries (m : GenericMetadata) (classIsA : Name → Name → Bool) :
    GenericType × GenericType → GenericType × GenericType → Prop
  | unionLeft (hs : ¬Settled (.union ps) b) (hp : ps[k]? = some p)
    (hbefore : ∀ q ∈ ps.take k, m.IsSubtype classIsA q b) :
    Tries m classIsA (p, b) (.union ps, b)
  | intersectionRight (hs : ¬Settled a (.intersection ps)) (ha : a.isUnion = false)
    (hp : ps[k]? = some p) (hbefore : ∀ q ∈ ps.take k, m.IsSubtype classIsA a q) :
    Tries m classIsA (a, p) (a, .intersection ps)
  | unionRight (hs : ¬Settled a (.union ps)) (ha : a.isUnion = false)
    (hp : ps[k]? = some p) (hbefore : ∀ q ∈ ps.take k, m.Refuses classIsA a q) :
    Tries m classIsA (a, p) (a, .union ps)
  | intersectionLeft (hs : ¬Settled (.intersection ps) b) (hb : b.isUnion = false)
    (hb' : b.isIntersection = false) (hp : ps[k]? = some p)
    (hbefore : ∀ q ∈ ps.take k, m.Refuses classIsA q b) :
    Tries m classIsA (p, b) (.intersection ps, b)
  | nullables (hs : ¬Settled (.nullable a) (.nullable b)) :
    Tries m classIsA (a, b) (.nullable a, .nullable b)
  | nullable (hs : ¬Settled a (.nullable b)) (ha : a.isUnion = false)
    (ha' : a.isIntersection = false) (ha'' : a.isNullable = false) (hnull : a ≠ .null) :
    Tries m classIsA (a, b) (a, .nullable b)
  | covariant (hs : ¬Settled (.named a as) (.named b bs)) (ha : m.symbol a = some s)
    (hb : m.symbol b = some t) (hst : s.eqIgnoreAsciiCase t = true) (hx : as[k]? = some x)
    (hy : bs[k]? = some y) (hv : m.varianceAt s k = .covariant)
    (hbefore : m.Compared (m.IsSubtype classIsA) s (as.take k) (bs.take k)) :
    Tries m classIsA (x, y) (.named a as, .named b bs)
  | contravariant (hs : ¬Settled (.named a as) (.named b bs)) (ha : m.symbol a = some s)
    (hb : m.symbol b = some t) (hst : s.eqIgnoreAsciiCase t = true) (hx : as[k]? = some x)
    (hy : bs[k]? = some y) (hv : m.varianceAt s k = .contravariant)
    (hbefore : m.Compared (m.IsSubtype classIsA) s (as.take k) (bs.take k)) :
    Tries m classIsA (y, x) (.named a as, .named b bs)
  | ancestor (ha : m.symbol a = some s) (hb : m.symbol b = some t)
    (hst : s.eqIgnoreAsciiCase t = false) (hobject : t.eqIgnoreAsciiCase objectName = false)
    (hbs : bs ≠ []) (hd : m.findClassLike s = some d)
    (hlen : (effectiveInheritanceArguments d as).length = d.parameters.length)
    (hl : m.ancestorBindingsFrom fuel d (effectiveInheritanceArguments d as) = some l)
    (he : (l.filter fun e => (m.symbol e.1.owner).any fun name =>
      name.eqIgnoreAsciiCase t)[k]? = some (e, γ))
    (hbefore : ∀ f ∈ (l.filter fun e => (m.symbol e.1.owner).any fun name =>
      name.eqIgnoreAsciiCase t).take k, m.Refuses classIsA (.named b f.2) (.named b bs)) :
    Tries m classIsA (.named b γ, .named b bs) (.named a as, .named b bs)

/-- The arguments in front of an index are related if the tests of them say so. -/
theorem compared_take {R : GenericType → GenericType → Prop} {as bs : List GenericType} {k : Nat}
    (hx : as[k]? = some x) (hy : bs[k]? = some y)
    (h : ∀ i u v, ((u, v), i) ∈ (as.zip bs).zipIdx.take k →
      (m.varianceAt s i = .covariant → R u v) ∧ (m.varianceAt s i = .contravariant → R v u) ∧
        (m.varianceAt s i = .invariant → u = v)) :
    m.Compared R s (as.take k) (bs.take k) := by
  have hlt : k < as.length := (List.getElem?_eq_some_iff.1 hx).1
  have hlt' : k < bs.length := (List.getElem?_eq_some_iff.1 hy).1
  have hmem : ∀ i u v, (as.take k)[i]? = some u → (bs.take k)[i]? = some v →
      ((u, v), i) ∈ (as.zip bs).zipIdx.take k := by
    intro i u v hu hv
    rw [List.getElem?_take] at hu hv
    split_ifs at hu hv with hi
    refine List.mem_of_getElem? (i := i) ?_
    have hzip : (as.zip bs)[i]? = some (u, v) := List.getElem?_zip_eq_some.2 ⟨hu, hv⟩
    rw [List.getElem?_take_of_lt hi, List.getElem?_zipIdx, hzip]
    simp
  refine ⟨by simp [Nat.min_eq_left hlt.le, Nat.min_eq_left hlt'.le], fun i u v hu hv => ?_,
    fun i u v hu hv => ?_, fun i u v hu hv => ?_⟩
  · exact (h i u v (hmem i u v hu hv)).1
  · exact (h i u v (hmem i u v hu hv)).2.1
  · exact (h i u v (hmem i u v hu hv)).2.2

/-- The comparison of arguments comes back if it does for those it comes to. -/
theorem compareArguments_returns {p : GenericType → GenericType → Option Bool}
    (h : ∀ (k : Nat) x y, as[k]? = some x → bs[k]? = some y →
      m.Compared (fun x y => p x y = some true) s (as.take k) (bs.take k) →
      (m.varianceAt s k = .covariant → ∃ r, p x y = some r) ∧
        (m.varianceAt s k = .contravariant → ∃ r, p y x = some r)) :
    ∃ r, m.compareArguments p s as bs = some r := by
  apply exists_map_eq_some
  apply allM_returns
  rintro k ⟨⟨x, y⟩, i⟩ he hbefore
  rw [List.getElem?_zipIdx, Option.map_eq_some_iff] at he
  obtain ⟨e, huv, he⟩ := he
  rw [List.getElem?_zip_eq_some] at huv
  cases he
  rw [Nat.zero_add]
  obtain ⟨hcov, hcontra⟩ := h k x y huv.1 huv.2 (compared_take huv.1 huv.2 fun i x y he => by
    have hpassed := hbefore _ he
    refine ⟨fun hv => ?_, fun hv => ?_, fun hv => ?_⟩
    · simpa [hv] using hpassed
    · simpa [hv] using hpassed
    · simpa [hv] using hpassed)
  cases hv : m.varianceAt s k with
  | covariant => simpa [hv] using hcov hv
  | contravariant => simpa [hv] using hcontra hv
  | invariant => exact ⟨decide (x = y), by simp [hv]⟩

variable (m classIsA) in
/-- The nested check comes back, if it is evaluated at all. -/
def TriedReturns (parent : GenericType × GenericType) (fuel : Nat)
    (c : GenericType × GenericType) : Prop :=
  m.Tries classIsA c parent → ∃ r, m.genericTypeIsSubtype classIsA fuel c.1 c.2 = some r

theorem exists_triedReturns (l : List (GenericType × GenericType))
    (ih : ∀ c, m.Tries classIsA c parent →
      ∃ n r, m.genericTypeIsSubtype classIsA n c.1 c.2 = some r) :
    ∃ fuel, ∀ c ∈ l, m.TriedReturns classIsA parent fuel c := by
  refine exists_bound (fun n c h hc => (h hc).imp fun _ => genericTypeIsSubtype_succ n)
    fun c _ => ?_
  by_cases hc : m.Tries classIsA c parent
  · obtain ⟨n, hn⟩ := ih c hc
    exact ⟨n, fun _ => hn⟩
  · exact ⟨0, fun h => absurd h hc⟩

theorem TriedReturns.mono (h : m.TriedReturns classIsA parent n c) (hle : n ≤ k) :
    m.TriedReturns classIsA parent k c :=
  fun hc => (h hc).imp fun _ hr => genericTypeIsSubtype_le hr hle

theorem ancestorBindingsFrom_le (h : m.ancestorBindingsFrom n d γ = some l) (hle : n ≤ k) :
    m.ancestorBindingsFrom k d γ = some l :=
  of_le (P := fun n => m.ancestorBindingsFrom n d γ = some l)
    (fun _ => ancestorBindingsFrom_mono) h hle

theorem compareNamed_returns (hm : m.Acyclic) (hs : ¬Settled (.named a as) (.named b bs))
    (ih : ∀ c, m.Tries classIsA c (.named a as, .named b bs) →
      ∃ n r, m.genericTypeIsSubtype classIsA n c.1 c.2 = some r) :
    ∃ fuel r, m.compareNamed classIsA fuel (m.genericTypeIsSubtype classIsA fuel) a as b bs =
      some r := by
  cases ha : m.symbol a with
  | none => exact ⟨0, false, by simp [compareNamed, ha]⟩
  | some s =>
  cases hb : m.symbol b with
  | none => exact ⟨0, false, by simp [compareNamed, ha, hb]⟩
  | some t =>
  simp only [compareNamed, ha, hb]
  by_cases hst : s.eqIgnoreAsciiCase t = true
  · obtain ⟨n, hn⟩ := exists_triedReturns (as.zip bs ++ bs.zip as) ih
    have hmem : ∀ {k : Nat} {x y}, as[k]? = some x → bs[k]? = some y →
        (x, y) ∈ as.zip bs ∧ (y, x) ∈ bs.zip as := fun {k} {x} {y} hx hy =>
      ⟨List.mem_of_getElem? (i := k) (List.getElem?_zip_eq_some.2 ⟨hx, hy⟩),
        List.mem_of_getElem? (i := k) (List.getElem?_zip_eq_some.2 ⟨hy, hx⟩)⟩
    refine ⟨n, ?_⟩
    simp only [if_pos hst]
    refine compareArguments_returns fun k x y hx hy hbefore => ⟨fun hv => ?_, fun hv => ?_⟩
    · exact hn _ (List.mem_append_left _ (hmem hx hy).1)
        (.covariant hs ha hb hst hx hy hv (hbefore.imp fun _ _ h => ⟨n, h⟩))
    · exact hn _ (List.mem_append_right _ (hmem hx hy).2)
        (.contravariant hs ha hb hst hx hy hv (hbefore.imp fun _ _ h => ⟨n, h⟩))
  · simp only [if_neg hst]
    have hst := Bool.eq_false_iff.2 hst
    split_ifs with hobject hbs
    · exact ⟨0, true, rfl⟩
    · split
      · exact ⟨0, false, rfl⟩
      · next d hd =>
        split_ifs with hlen
        · exact ⟨0, false, rfl⟩
        · obtain ⟨k, l, hl⟩ :=
            ancestorBindingsFrom_returns hm d (effectiveInheritanceArguments d as)
          obtain ⟨n, hn⟩ := exists_triedReturns (l.map fun e => (.named b e.2, .named b bs)) ih
          refine ⟨max k n, ?_⟩
          rw [ancestorBindingsFrom_le hl (Nat.le_max_left k n), Option.bind_some]
          refine anyM_returns fun i e he hbefore => ?_
          have hmem := (List.mem_filter.1 (List.mem_of_getElem? he)).1
          exact (hn _ (List.mem_map_of_mem hmem)).mono (Nat.le_max_right k n)
            (.ancestor ha hb hst (Bool.eq_false_iff.2 hobject) hbs hd (not_not.1 hlen) hl he
              fun f hf => ⟨_, hbefore f hf⟩)
    · exact ⟨0, _, rfl⟩

theorem compareNamed_le
    (h : m.compareNamed classIsA n (m.genericTypeIsSubtype classIsA n) a as b bs = some r)
    (hle : n ≤ k) :
    m.compareNamed classIsA k (m.genericTypeIsSubtype classIsA k) a as b bs = some r :=
  of_le (P := fun n => m.compareNamed classIsA n (m.genericTypeIsSubtype classIsA n) a as b bs =
    some r) (fun _ => compareNamed_mono fun _ _ _ => genericTypeIsSubtype_succ _) h hle

/-- The members of a union or an intersection. -/
def parts : GenericType → List GenericType
  | .union ps | .intersection ps => ps
  | _ => []

def inner : GenericType → List GenericType
  | .nullable a => [a]
  | _ => []

/-- The nested checks that come from the shape of the two types alone. -/
def structuralCalls (a b : GenericType) : List (GenericType × GenericType) :=
  (parts a).map (·, b) ++ (parts b).map (a, ·) ++ (inner b).map (a, ·) ++
    (inner a).flatMap fun x => (inner b).map (x, ·)

/-- The check comes back where no chain of nested checks that it evaluates is endless. -/
theorem genericTypeIsSubtype_returns (hm : m.Acyclic) (h : Acc (m.Tries classIsA) c) :
    ∃ fuel r, m.genericTypeIsSubtype classIsA fuel c.1 c.2 = some r := by
  induction h with
  | intro c _ ih =>
    obtain ⟨a, b⟩ := c
    by_cases hs : Settled a b
    · exact ⟨1, true, if_pos hs⟩
    obtain ⟨fuel, hfuel⟩ := exists_triedReturns (structuralCalls a b) ih
    obtain ⟨k, hk⟩ : ∃ k, ∀ x xs y ys, a = .named x xs → b = .named y ys →
        ∃ r, m.compareNamed classIsA k (m.genericTypeIsSubtype classIsA k) x xs y ys = some r := by
      by_cases hnamed : ∃ x xs y ys, a = .named x xs ∧ b = .named y ys
      · obtain ⟨x, xs, y, ys, rfl, rfl⟩ := hnamed
        obtain ⟨k, hk⟩ := compareNamed_returns hm hs ih
        refine ⟨k, ?_⟩
        rintro _ _ _ _ ⟨rfl, rfl⟩ ⟨rfl, rfl⟩
        exact hk
      · exact ⟨0, fun x xs y ys ha hb => absurd ⟨x, xs, y, ys, ha, hb⟩ hnamed⟩
    have hcalls : ∀ c ∈ structuralCalls a b, m.TriedReturns classIsA (a, b) (max fuel k) c :=
      fun c hc => (hfuel c hc).mono (Nat.le_max_left fuel k)
    refine ⟨max fuel k + 1, ?_⟩
    dsimp only
    unfold genericTypeIsSubtype
    split_ifs with hsettled
    · exact absurd hsettled hs
    · split
      · exact allM_returns fun i p hp hbefore =>
          hcalls (p, b) (by simp [structuralCalls, parts, List.mem_of_getElem? hp])
            (.unionLeft hs hp fun q hq => ⟨_, hbefore q hq⟩)
      · exact allM_returns fun i p hp hbefore =>
          hcalls (a, p) (by simp [structuralCalls, parts, List.mem_of_getElem? hp])
            (.intersectionRight hs (isUnion_eq_false (by assumption)) hp
              fun q hq => ⟨_, hbefore q hq⟩)
      · exact anyM_returns fun i p hp hbefore =>
          hcalls (a, p) (by simp [structuralCalls, parts, List.mem_of_getElem? hp])
            (.unionRight hs (isUnion_eq_false (by assumption)) hp fun q hq => ⟨_, hbefore q hq⟩)
      · exact anyM_returns fun i p hp hbefore =>
          hcalls (p, b) (by simp [structuralCalls, parts, List.mem_of_getElem? hp])
            (.intersectionLeft hs (isUnion_eq_false (by assumption))
              (isIntersection_eq_false (by assumption)) hp fun q hq => ⟨_, hbefore q hq⟩)
      · exact ⟨true, rfl⟩
      · exact hcalls _ (by simp [structuralCalls, parts, inner]) (.nullables hs)
      · exact hcalls _ (by simp [structuralCalls, parts, inner])
          (.nullable hs (isUnion_eq_false (by assumption))
            (isIntersection_eq_false (by assumption)) (isNullable_eq_false (by assumption))
            (by rintro rfl; simp_all))
      · obtain ⟨r, hr⟩ := hk _ _ _ _ rfl rfl
        exact ⟨r, compareNamed_le hr (Nat.le_max_right fuel k)⟩
      · exact ⟨false, rfl⟩

/-- Without contravariant parameters no chain of nested checks is endless: the supertype shrinks,
or it stays and the subtype shrinks, or a class is replaced by its ancestor once. -/
theorem acc_tries (hm : ∀ s k, m.varianceAt s k ≠ .contravariant)
    (c : GenericType × GenericType) : Acc (m.Tries classIsA) c := by
  have hsize : ∀ {ps : List GenericType} {k : Nat} {p : GenericType}, ps[k]? = some p →
      sizeOf p < sizeOf ps := fun hp => List.sizeOf_lt_of_mem (List.mem_of_getElem? hp)
  have hall : ∀ n l a b, sizeOf b ≤ n → sizeOf a ≤ l → Acc (m.Tries classIsA) (a, b) := by
    intro n
    induction n with
    | zero =>
      intro l a b hb
      cases b <;> simp at hb
    | succ n ihn =>
      intro l
      induction l with
      | zero =>
        intro a b _ ha
        cases a <;> simp at ha
      | succ l ihl =>
        intro a b hb ha
        refine ⟨_, fun c hc => ?_⟩
        cases hc with
        | unionLeft _ hp _ =>
          have := hsize hp
          exact ihl _ _ hb (by simp at ha; omega)
        | intersectionRight _ _ hp _ =>
          have := hsize hp
          exact ihn _ _ _ (by simp at hb; omega) le_rfl
        | unionRight _ _ hp _ =>
          have := hsize hp
          exact ihn _ _ _ (by simp at hb; omega) le_rfl
        | intersectionLeft _ _ _ hp _ =>
          have := hsize hp
          exact ihl _ _ hb (by simp at ha; omega)
        | nullables _ => exact ihn _ _ _ (by simp at hb; omega) le_rfl
        | nullable _ _ _ _ _ => exact ihn _ _ _ (by simp at hb; omega) le_rfl
        | covariant _ _ _ _ _ hy _ _ =>
          have := hsize hy
          exact ihn _ _ _ (by simp at hb; omega) le_rfl
        | contravariant _ _ _ _ _ _ hv _ => exact absurd hv (hm _ _)
        | ancestor _ hb' _ _ _ _ _ _ _ _ =>
          refine ⟨_, fun c hc => ?_⟩
          cases hc with
          | covariant _ _ _ _ _ hy _ _ =>
            have := hsize hy
            exact ihn _ _ _ (by simp at hb; omega) le_rfl
          | contravariant _ _ _ _ _ _ hv _ => exact absurd hv (hm _ _)
          | ancestor ha' hb'' hst _ _ _ _ _ _ _ =>
            rw [ha', Option.some.injEq] at hb''
            subst hb''
            simp at hst
  exact hall _ _ c.1 c.2 le_rfl le_rfl

theorem varianceAt_ne_contravariant
    (h : ∀ d ∈ m.declarations, ∀ p ∈ d.parameters, p.variance ≠ .contravariant) (s : Name)
    (k : Nat) : m.varianceAt s k ≠ .contravariant := by
  unfold varianceAt
  split
  · next p hp =>
    obtain ⟨d, hd, hp⟩ := Option.bind_eq_some_iff.1 hp
    exact h d (findClassLike_spec hd).1 p (List.mem_of_getElem? hp)
  · nofun

/-- Metadata in which every ancestor has a smaller symbol than its child. -/
theorem acyclic_of_symbols (h : ∀ inheritance ∈ m.inheritances,
    ∀ e ∈ m.target inheritance.ancestor, e.owner < inheritance.owner) : m.Acyclic := by
  refine Subrelation.wf ?_ (measure GenericDeclaration.owner).wf
  rintro e d ⟨inheritance, hi, ho, he⟩
  have hlt := h inheritance hi e he
  rwa [ho] at hlt

end GenericMetadata

end Rphp.Generics
