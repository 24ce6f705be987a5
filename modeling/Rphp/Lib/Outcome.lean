import Mathlib.Logic.Basic

namespace Rphp.Lib
set_option autoImplicit true

/-- A result meets one condition if it is a value, and another if it is an error. -/
def Post (value : α → σ → Prop) (error : ε → σ → Prop) : EStateM.Result ε σ α → Prop
  | .ok a s => value a s
  | .error e s => error e s

section
variable {Q Q' : α → σ → Prop} {E E' : ε → σ → Prop}

@[simp] theorem post_ok {a : α} {s : σ} : Post Q E (.ok a s) ↔ Q a s := Iff.rfl

@[simp] theorem post_error {e : ε} {s : σ} : Post Q E (.error e s) ↔ E e s := Iff.rfl

theorem Post.mono {r : EStateM.Result ε σ α} (h : Post Q E r) (hQ : ∀ a s, Q a s → Q' a s)
    (hE : ∀ e s, E e s → E' e s) : Post Q' E' r := by
  cases r with
  | ok a s => exact hQ a s h
  | error e s => exact hE e s h

end

/-- The second computation starts where the first ended with a value. -/
theorem Post.bind {x : EStateM ε σ α} {f : α → EStateM ε σ β} (h : Post R E (x s))
    (hf : ∀ a t, x s = .ok a t → R a t → Post Q E (f a t)) : Post Q E ((x >>= f) s) := by
  simp only [Bind.bind, EStateM.bind]
  cases hx : x s with
  | ok a t =>
    rw [hx] at h
    exact hf a t hx h
  | error e t =>
    rw [hx] at h
    exact h

theorem Post.get_bind {f : σ → EStateM ε σ β} (h : Post Q E (f s s)) :
    Post Q E ((get >>= f) s) := h

theorem get_bind_apply (f : σ → EStateM ε σ β) (s : σ) : (get >>= f) s = f s s := rfl

theorem Post.set_bind {f : PUnit → EStateM ε σ β} (h : Post Q E (f ⟨⟩ t)) :
    Post Q E ((set t >>= f) s) := h

theorem Post.modify_bind {g : σ → σ} {f : PUnit → EStateM ε σ β} (h : Post Q E (f ⟨⟩ (g s))) :
    Post Q E ((modify g >>= f) s) := h

/-- A first computation that is known to return. -/
theorem Post.bind_ok {x : EStateM ε σ α} {f : α → EStateM ε σ β} (hx : x s = .ok a t)
    (h : Post Q E (f a t)) : Post Q E ((x >>= f) s) := by
  simp only [Bind.bind, EStateM.bind, hx]
  exact h

theorem Post.map {x : EStateM ε σ α} {f : α → β} (h : Post (fun a => Q (f a)) E (x s)) :
    Post Q E ((f <$> x) s) := by
  simp only [Functor.map, EStateM.map]
  cases hx : x s with
  | ok a t =>
    rw [hx] at h
    exact h
  | error e t =>
    rw [hx] at h
    exact h

/-- Every finished run from a state of the precondition ends in the postcondition. -/
def Triple (P : σ → Prop) (m : StateT σ Option α) (Q : α → σ → Prop) : Prop :=
  ∀ s, P s → ∀ a t, m s = some (a, t) → Q a t

theorem bind_eq_some {m : StateT σ Option α} {f : α → StateT σ Option β} :
    (m >>= f) s = some (b, u) ↔ ∃ a t, m s = some (a, t) ∧ f a t = some (b, u) := by
  simp only [Bind.bind, StateT.bind]
  cases hm : m s with
  | none => simp
  | some r =>
    obtain ⟨a, t⟩ := r
    simp [and_assoc]

namespace Triple

theorem pure {P : σ → Prop} {Q : α → σ → Prop} {a : α} (h : ∀ s, P s → Q a s) :
    Triple P (Pure.pure a : StateT σ Option α) Q := by
  rintro s hs _ _ ⟨⟩
  exact h s hs

theorem bind {m : StateT σ Option α} {f : α → StateT σ Option β} (hm : Triple P m R)
    (hf : ∀ a, Triple (R a) (f a) Q) : Triple P (m >>= f) Q := by
  intro s hs b u h
  obtain ⟨a, t, hmt, hft⟩ := bind_eq_some.mp h
  exact hf a t (hm s hs a t hmt) b u hft

theorem conseq {m : StateT σ Option α} (h : Triple P m Q) (hP : ∀ s, P' s → P s)
    (hQ : ∀ a s, Q a s → Q' a s) : Triple P' m Q' :=
  fun s hs a t hm => hQ a t (h s (hP s hs) a t hm)

theorem pre {m : StateT σ Option α} (h : Triple P m Q) (hP : ∀ s, P' s → P s) : Triple P' m Q :=
  h.conseq hP fun _ _ hq => hq

theorem post {m : StateT σ Option α} (h : Triple P m Q) (hQ : ∀ a s, Q a s → Q' a s) :
    Triple P m Q' :=
  h.conseq (fun _ hp => hp) hQ

theorem ite {c : Prop} [Decidable c] {m m' : StateT σ Option α}
    (h : c → Triple P m Q) (h' : ¬c → Triple P m' Q) : Triple P (if c then m else m') Q := by
  split
  · exact h ‹_›
  · exact h' ‹_›

/-- A fact that does not depend on the state may be used to find the triple. -/
theorem of_fact {c : Prop} {m : StateT σ Option α} (h : c → Triple P m Q) :
    Triple (fun s => c ∧ P s) m Q :=
  fun s hs => h hs.1 s hs.2

end Triple

/-- Every run from a state of the precondition finishes, and in the postcondition. -/
def Finishes (P : σ → Prop) (m : StateT σ Option α) (Q : α → σ → Prop) : Prop :=
  ∀ s, P s → ∃ a t, m s = some (a, t) ∧ Q a t

namespace Finishes

theorem pure {P : σ → Prop} {Q : α → σ → Prop} {a : α} (h : ∀ s, P s → Q a s) :
    Finishes P (Pure.pure a : StateT σ Option α) Q :=
  fun s hs => ⟨a, s, rfl, h s hs⟩

theorem bind {m : StateT σ Option α} {f : α → StateT σ Option β} (hm : Finishes P m R)
    (hf : ∀ a, Finishes (R a) (f a) Q) : Finishes P (m >>= f) Q := by
  intro s hs
  obtain ⟨a, t, hmt, hR⟩ := hm s hs
  obtain ⟨b, u, hfu, hQ⟩ := hf a t hR
  exact ⟨b, u, bind_eq_some.mpr ⟨a, t, hmt, hfu⟩, hQ⟩

theorem post {m : StateT σ Option α} (h : Finishes P m Q) (hQ : ∀ a s, Q a s → Q' a s) :
    Finishes P m Q' := by
  intro s hs
  obtain ⟨a, t, hm, hq⟩ := h s hs
  exact ⟨a, t, hm, hQ a t hq⟩

/-- A fact that does not depend on the state may be used to find the run. -/
theorem of_fact {c : Prop} {m : StateT σ Option α} (h : c → Finishes P m Q) :
    Finishes (fun s => c ∧ P s) m Q :=
  fun s hs => h hs.1 s hs.2

end Finishes

end Rphp.Lib
