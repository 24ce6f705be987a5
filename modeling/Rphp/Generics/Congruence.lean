import Rphp.Generics.Overlooked

namespace Rphp.Generics
open Lib Relation
set_option autoImplicit true

namespace GenericType

mutual
/-- A test holds of a type and of everything nested in it. -/
def everyNode (f : GenericType → Bool) : GenericType → Bool
  | .named name arguments => f (.named name arguments) && everyPart f arguments
  | .nullable inner => f (.nullable inner) && everyNode f inner
  | .union parts => f (.union parts) && everyPart f parts
  | .intersection parts => f (.intersection parts) && everyPart f parts
  | t => f t

def everyPart (f : GenericType → Bool) : List GenericType → Bool
  | [] => true
  | t :: l => everyNode f t && everyPart f l
end

theorem everyPart_eq_all (f : GenericType → Bool) (l : List GenericType) :
    everyPart f l = l.all (everyNode f) := by
  induction l with
  | nil => rfl
  | cons t l ih => rw [everyPart, ih, List.all_cons]

section

variable (f : GenericType → Bool)

theorem everyNode_named_eq :
    everyNode f (.named n as) = (f (.named n as) && as.all (everyNode f)) := by
  rw [← everyPart_eq_all]
  rfl

theorem everyNode_union_eq : everyNode f (.union ps) = (f (.union ps) && ps.all (everyNode f)) := by
  rw [← everyPart_eq_all]
  rfl

theorem everyNode_intersection_eq :
    everyNode f (.intersection ps) = (f (.intersection ps) && ps.all (everyNode f)) := by
  rw [← everyPart_eq_all]
  rfl

theorem everyNode_nullable_eq :
    everyNode f (.nullable x) = (f (.nullable x) && everyNode f x) := rfl

end

theorem everyNode_self {f : GenericType → Bool} {t : GenericType} (h : everyNode f t = true) :
    f t = true := by
  cases t <;> simp_all [everyNode]

theorem everyNode_named {f : GenericType → Bool} (h : everyNode f (.named n as) = true)
    (hx : x ∈ as) : everyNode f x = true := by
  rw [everyNode_named_eq, Bool.and_eq_true, List.all_eq_true] at h
  exact h.2 x hx

theorem everyNode_union {f : GenericType → Bool} (h : everyNode f (.union ps) = true)
    (hx : x ∈ ps) : everyNode f x = true := by
  rw [everyNode_union_eq, Bool.and_eq_true, List.all_eq_true] at h
  exact h.2 x hx

theorem everyNode_intersection {f : GenericType → Bool} (h : everyNode f (.intersection ps) = true)
    (hx : x ∈ ps) : everyNode f x = true := by
  rw [everyNode_intersection_eq, Bool.and_eq_true, List.all_eq_true] at h
  exact h.2 x hx

theorem everyNode_nullable {f : GenericType → Bool} (h : everyNode f (.nullable x) = true) :
    everyNode f x = true := by
  rw [everyNode_nullable_eq, Bool.and_eq_true] at h
  exact h.2

/-- Every union and every intersection has a part. -/
def noEmpty : GenericType → Bool :=
  everyNode fun
    | .union parts | .intersection parts => parts ≠ []
    | _ => true

theorem noEmpty_intersection :
    noEmpty (.intersection ps) = true ↔ ps ≠ [] ∧ ∀ p ∈ ps, noEmpty p = true := by
  simp only [noEmpty, everyNode_intersection_eq, Bool.and_eq_true, decide_eq_true_eq,
    List.all_eq_true]

end GenericType

namespace GenericMetadata
open GenericType
variable {m : GenericMetadata} {wide : Bool} {classIsA : Name → Name → Bool}

theorem exists_derives {l : List α} {f g : α → GenericType}
    (h : ∀ x ∈ l, m.Derivable wide classIsA (f x) (g x)) :
    ∃ n, ∀ x ∈ l, m.Derives wide classIsA n (f x) (g x) :=
  exists_bound (fun _ _ => Derives.succ) h

namespace Derivable

theorem refl (a : GenericType) : m.Derivable wide classIsA a a := ⟨1, .refl⟩

theorem unionLeft (h : ∀ p ∈ ps, m.Derivable wide classIsA p b) :
    m.Derivable wide classIsA (.union ps) b := by
  obtain ⟨n, hn⟩ := exists_derives h
  exact ⟨n + 1, .unionLeft hn⟩

theorem intersectionRight (ha : a.isUnion = false) (h : ∀ p ∈ ps, m.Derivable wide classIsA a p) :
    m.Derivable wide classIsA a (.intersection ps) := by
  obtain ⟨n, hn⟩ := exists_derives h
  exact ⟨n + 1, .intersectionRight ha hn⟩

theorem arguments (ha : m.symbol a = some s) (hb : m.symbol b = some t)
    (hst : s.eqIgnoreAsciiCase t = true) (h : m.Compared (m.Derivable wide classIsA) s as bs) :
    m.Derivable wide classIsA (.named a as) (.named b bs) := by
  obtain ⟨n, hn⟩ : ∃ n, ∀ k ∈ List.range as.length, ∀ x y, as[k]? = some x → bs[k]? = some y →
      (m.varianceAt s k = .covariant → m.Derives wide classIsA n x y) ∧
      (m.varianceAt s k = .contravariant → m.Derives wide classIsA n y x) := by
    refine exists_bound ?_ ?_
    · intro n k hk x y hx hy
      obtain ⟨hcov, hcontra⟩ := hk x y hx hy
      exact ⟨fun hv => (hcov hv).succ, fun hv => (hcontra hv).succ⟩
    · intro k hk
      have hlt : k < as.length := List.mem_range.1 hk
      have hlt' : k < bs.length := h.length ▸ hlt
      have hx : as[k]? = some as[k] := List.getElem?_eq_getElem hlt
      have hy : bs[k]? = some bs[k] := List.getElem?_eq_getElem hlt'
      cases hv : m.varianceAt s k with
      | covariant =>
        obtain ⟨n, hn⟩ := h.covariant k _ _ hx hy hv
        refine ⟨n, fun x y hx' hy' => ?_⟩
        rw [hx, Option.some.injEq] at hx'
        rw [hy, Option.some.injEq] at hy'
        exact ⟨fun _ => hx' ▸ hy' ▸ hn, nofun⟩
      | contravariant =>
        obtain ⟨n, hn⟩ := h.contravariant k _ _ hx hy hv
        refine ⟨n, fun x y hx' hy' => ?_⟩
        rw [hx, Option.some.injEq] at hx'
        rw [hy, Option.some.injEq] at hy'
        exact ⟨nofun, fun _ => hx' ▸ hy' ▸ hn⟩
      | invariant => exact ⟨0, fun x y _ _ => ⟨nofun, nofun⟩⟩
  have hk : ∀ {k x}, as[k]? = some x → k ∈ List.range as.length := fun hx =>
    List.mem_range.2 (List.getElem?_eq_some_iff.1 hx).1
  exact ⟨n + 1, .arguments ha hb hst h.length (fun k x y hx hy hv => (hn k (hk hx) x y hx hy).1 hv)
    (fun k x y hx hy hv => (hn k (hk hx) x y hx hy).2 hv) h.invariant⟩

/-- What is accepted for a part of a union is accepted for the union. -/
theorem unionRight (x : GenericType) (h : m.Derivable wide classIsA x y) (hy : y ∈ ps) :
    m.Derivable wide classIsA x (.union ps) := by
  induction x using inductionOn generalizing y ps with
  | union xs ih =>
    refine .unionLeft fun z hz => ih z hz ?_ hy
    obtain ⟨n, h⟩ := h
    cases h with
    | refl => exact ih z hz (.refl z) hz
    | mixed => exact ⟨1, .mixed⟩
    | unionLeft h => exact ⟨_, h z hz⟩
    | intersectionRight ha _ => cases ha
    | unionRight ha _ _ => cases ha
    | nullable ha _ _ _ => cases ha
  | _ =>
    obtain ⟨n, h⟩ := h
    exact ⟨n + 1, .unionRight rfl hy h⟩

theorem of_union (h : m.Derivable wide classIsA (.union xs) y) (hx : x ∈ xs) :
    m.Derivable wide classIsA x y := by
  obtain ⟨n, h⟩ := h
  cases h with
  | refl => exact unionRight x (.refl x) hx
  | mixed => exact ⟨1, .mixed⟩
  | unionLeft h => exact ⟨_, h x hx⟩
  | intersectionRight ha _ => cases ha
  | unionRight ha _ _ => cases ha
  | nullable ha _ _ _ => cases ha

theorem intersectionOf (x : GenericType) (h : ∀ p ∈ ps, m.Derivable wide classIsA x p) :
    m.Derivable wide classIsA x (.intersection ps) := by
  induction x using inductionOn with
  | union xs ih => exact .unionLeft fun z hz => ih z hz fun p hp => (h p hp).of_union hz
  | _ => exact .intersectionRight rfl h

/-- What is accepted for an intersection is accepted for a part that the intersection itself is
accepted for. -/
theorem of_intersection (hself : m.Derivable wide classIsA (.intersection ps) p) (hp : p ∈ ps)
    (x : GenericType) (h : m.Derivable wide classIsA x (.intersection ps)) :
    m.Derivable wide classIsA x p := by
  have hsingle : ∀ x, x.isUnion = false → m.Derivable wide classIsA x (.intersection ps) →
      m.Derivable wide classIsA x p := by
    rintro x hx ⟨n, h⟩
    cases h with
    | refl => exact hself
    | never => exact ⟨1, .never⟩
    | unionLeft _ => cases hx
    | intersectionRight _ h => exact ⟨_, h p hp⟩
    | intersectionLeft _ hb _ _ => cases hb
  induction x using inductionOn with
  | union xs ih => exact .unionLeft fun z hz => ih z hz (h.of_union hz)
  | _ => exact hsingle _ rfl h

/-- The rule for one part of an intersection. -/
theorem ofPart (hb : b.isUnion = true → wide = true) (hb' : b.isIntersection = false) (hp : p ∈ ps)
    (h : m.Derivable wide classIsA p b) : m.Derivable wide classIsA (.intersection ps) b := by
  obtain ⟨n, h⟩ := h
  exact ⟨n + 1, .intersectionLeft hb hb' hp h⟩

/-- In the wide sense an intersection is accepted for what one of its parts is. -/
theorem intersectionLeft (y : GenericType) (h : m.Derivable true classIsA x y) (hx : x ∈ ps) :
    m.Derivable true classIsA (.intersection ps) y := by
  induction y using inductionOn generalizing x ps with
  | intersection ys ih =>
    have hself : ∀ z ∈ ys, m.Derivable true classIsA (.intersection ys) z :=
      fun z hz => ih z hz (.refl z) hz
    exact .intersectionRight rfl fun z hz => ih z hz (.of_intersection (hself z hz) hz x h) hx
  | _ => exact .ofPart (fun _ => rfl) rfl hx h

end Derivable

/-- Types that are equal but for nested types that are related, each in the direction of its
position. -/
inductive Lifted (m : GenericMetadata) (R : GenericType → GenericType → Prop) :
    GenericType → GenericType → Prop
  | base (h : R a b) : Lifted m R a b
  | refl : Lifted m R a a
  | nullable (h : Lifted m R a b) : Lifted m R (.nullable a) (.nullable b)
  | union (hlen : ps.length = qs.length)
    (h : ∀ (k : Nat) p q, ps[k]? = some p → qs[k]? = some q → Lifted m R p q) :
    Lifted m R (.union ps) (.union qs)
  | intersection (hlen : ps.length = qs.length)
    (h : ∀ (k : Nat) p q, ps[k]? = some p → qs[k]? = some q → Lifted m R p q) :
    Lifted m R (.intersection ps) (.intersection qs)
  | arguments (ha : m.symbol a = some s) (hb : m.symbol b = some t)
    (hst : s.eqIgnoreAsciiCase t = true) (hlen : as.length = bs.length)
    (hcov : ∀ k x y, as[k]? = some x → bs[k]? = some y → m.varianceAt s k = .covariant →
      Lifted m R x y)
    (hcontra : ∀ k x y, as[k]? = some x → bs[k]? = some y → m.varianceAt s k = .contravariant →
      Lifted m R y x)
    (hinv : ∀ k x y, as[k]? = some x → bs[k]? = some y → m.varianceAt s k = .invariant → x = y) :
    Lifted m R (.named a as) (.named b bs)

theorem exists_getElem?_of_length_eq {l : List α} {l' : List β} (h : l.length = l'.length)
    (hx : x ∈ l) : ∃ (k : Nat) (y : β), l[k]? = some x ∧ l'[k]? = some y ∧ y ∈ l' := by
  obtain ⟨k, hk⟩ := List.getElem?_of_mem hx
  have hlt : k < l'.length := h ▸ (List.getElem?_eq_some_iff.1 hk).1
  exact ⟨k, l'[k], hk, List.getElem?_eq_getElem hlt, List.getElem_mem hlt⟩

/-- Derivations in the wide sense can be put into a context. -/
theorem Lifted.derivable {R : GenericType → GenericType → Prop} (h : m.Lifted R a b)
    (hR : ∀ x y, R x y → m.Derivable true classIsA x y) : m.Derivable true classIsA a b := by
  induction h with
  | base h => exact hR _ _ h
  | refl => exact .refl _
  | nullable _ ih =>
    obtain ⟨n, hn⟩ := ih
    exact ⟨n + 1, .nullables hn⟩
  | union hlen _ ih =>
    refine .unionLeft fun p hp => ?_
    obtain ⟨k, q, hk, hk', hq⟩ := exists_getElem?_of_length_eq hlen hp
    exact .unionRight p (ih k p q hk hk') hq
  | intersection hlen _ ih =>
    refine .intersectionRight rfl fun q hq => ?_
    obtain ⟨k, p, hk, hk', hp⟩ := exists_getElem?_of_length_eq hlen.symm hq
    exact .intersectionLeft q (ih k p q hk' hk) hp
  | arguments hsa hsb hst hlen _ _ hinv ihcov ihcontra =>
    exact .arguments hsa hsb hst ⟨hlen, ihcov, ihcontra, hinv⟩

/-- The type that stands for a parameter. -/
def argument (arguments : List GenericType) (i : Nat) : GenericType := (arguments[i]?).getD .mixed

/-- Type arguments of a declaration that are related in the direction of its parameters. -/
structure Related (d : GenericDeclaration) (R : GenericType → GenericType → Prop)
    (lower upper : List GenericType) : Prop where
  covariant : ∀ i p, d.parameters[i]? = some p → p.variance = .covariant →
    R (argument lower i) (argument upper i)
  contravariant : ∀ i p, d.parameters[i]? = some p → p.variance = .contravariant →
    R (argument upper i) (argument lower i)
  invariant : ∀ i p, d.parameters[i]? = some p → p.variance = .invariant →
    argument lower i = argument upper i
  beyond : ∀ i, d.parameters[i]? = none → argument lower i = argument upper i

end GenericMetadata

end Rphp.Generics
