import Mathlib.Data.Set.Card
import Mathlib.Logic.Equiv.Basic
import Mathlib.Logic.Equiv.Option

namespace Rphp.Lib
set_option autoImplicit true

/-! Programs that draw words, and how many lists of words lead them to a value. -/

/-- A program either has a value, or goes on with the word that it draws. -/
inductive Draw (ω : Type) (α : Type)
  | done (value : α)
  | word (next : ω → Draw ω α)

namespace Draw

def bind : Draw ω α → (α → Draw ω β) → Draw ω β
  | done a, g => g a
  | word next, g => word fun w => (next w).bind g

instance monad : Monad (Draw ω) where
  pure := done
  bind := bind

/-- One word. -/
def draw : Draw ω ω := word done

/-- Draw from a source that never ends. -/
def run (source : σ → ω × σ) : Draw ω α → σ → α × σ
  | done a, s => (a, s)
  | word next, s =>
    let (w, s) := source s
    (next w).run source s

/-- Draw from a list, which may be too short. -/
def consume : Draw ω α → List ω → Option (α × List ω)
  | done a, ws => some (a, ws)
  | word _, [] => none
  | word next, w :: ws => (next w).consume ws

/-- The lists that lead to a value, with no word left. -/
def Runs (d : Draw ω α) (a : α) : Set (List ω) := {ws | d.consume ws = some (a, [])}

/-- The first words of a source. -/
def words (source : σ → ω × σ) : Nat → σ → List ω
  | 0, _ => []
  | n + 1, s => (source s).1 :: words source n (source s).2

def after (source : σ → ω × σ) : Nat → σ → σ
  | 0, s => s
  | n + 1, s => after source n (source s).2

theorem consume_bind (d : Draw ω α) (g : α → Draw ω β) (ws : List ω) :
    (d >>= g).consume ws = (d.consume ws).bind fun r => (g r.1).consume r.2 := by
  induction d generalizing ws with
  | done a => rfl
  | word next ih =>
    cases ws with
    | nil => rfl
    | cons w ws => exact ih w ws

/-- What is behind the words that a program draws does not matter. -/
theorem consume_append (d : Draw ω α) (h : d.consume ws = some (a, rest)) (more : List ω) :
    d.consume (ws ++ more) = some (a, rest ++ more) := by
  induction d generalizing ws with
  | done b =>
    cases h
    rfl
  | word next ih =>
    cases ws with
    | nil => cases h
    | cons w ws => exact ih w h

theorem consume_split (d : Draw ω α) (h : d.consume ws = some (a, rest)) :
    ∃ front, ws = front ++ rest ∧ front ∈ d.Runs a := by
  induction d generalizing ws with
  | done b =>
    cases h
    exact ⟨[], rfl, rfl⟩
  | word next ih =>
    cases ws with
    | nil => cases h
    | cons w ws =>
      obtain ⟨front, hfront, hruns⟩ := ih w h
      exact ⟨w :: front, congrArg (w :: ·) hfront, hruns⟩

theorem consume_runs {d : Draw ω α} (h : front ∈ d.Runs a) (rest : List ω) :
    d.consume (front ++ rest) = some (a, rest) :=
  d.consume_append h rest

theorem mem_runs_bind {d : Draw ω α} {g : α → Draw ω β} :
    ws ∈ (d >>= g).Runs b ↔
      ∃ a front rest, ws = front ++ rest ∧ front ∈ d.Runs a ∧ rest ∈ (g a).Runs b := by
  constructor
  · intro h
    have hbind : (d.consume ws).bind (fun r => (g r.1).consume r.2) = some (b, []) := by
      rw [← consume_bind]
      exact h
    obtain ⟨r, hr, hrest⟩ := Option.bind_eq_some_iff.mp hbind
    obtain ⟨front, hws, hfront⟩ := d.consume_split hr
    exact ⟨r.1, front, r.2, hws, hfront, hrest⟩
  · intro h
    obtain ⟨a, front, rest, rfl, hfront, hrest⟩ := h
    show (d >>= g).consume (front ++ rest) = some (b, [])
    rw [consume_bind, consume_runs hfront, Option.bind_some]
    exact hrest

/-- A program that stops does not go on behind its words. -/
theorem runs_unique {d : Draw ω α} (h : front ∈ d.Runs a) (h' : front' ∈ d.Runs a')
    (heq : front ++ rest = front' ++ rest') : a = a' ∧ front = front' ∧ rest = rest' := by
  have hsame :=
    (consume_runs h rest).symm.trans ((congrArg d.consume heq).trans (consume_runs h' rest'))
  cases hsame
  exact ⟨rfl, List.append_cancel_right heq, rfl⟩

/-- Every run from a source is a run from the first words that it gives. -/
theorem run_words (source : σ → ω × σ) (d : Draw ω α) (s : σ) :
    ∃ n, words source n s ∈ d.Runs (d.run source s).1 ∧
      (d.run source s).2 = after source n s := by
  induction d generalizing s with
  | done a => exact ⟨0, rfl, rfl⟩
  | word next ih =>
    obtain ⟨n, hwords, hafter⟩ := ih (source s).1 (source s).2
    exact ⟨n + 1, hwords, hafter⟩

end Draw

/-! Sets of lists with equally many lists of every length. -/

def Alike (S T : Set (List ω)) : Prop :=
  ∃ e : S ≃ T, ∀ ws : S, (e ws).1.length = ws.1.length

namespace Alike

theorem refl (S : Set (List ω)) : Alike S S := ⟨Equiv.refl S, fun _ => rfl⟩

theorem of_empty (hS : ∀ ws, ws ∉ S) (hT : ∀ ws, ws ∉ T) : Alike S T := by
  have hS' : S = T := Set.ext fun ws => ⟨fun h => absurd h (hS ws), fun h => absurd h (hT ws)⟩
  rw [hS']
  exact refl T

theorem singleton (hlength : front.length = front'.length) :
    Alike ({front} : Set (List ω)) {front'} := by
  refine ⟨⟨fun _ => ⟨front', rfl⟩, fun _ => ⟨front, rfl⟩, ?_, ?_⟩, ?_⟩
  · rintro ⟨ws, rfl⟩
    rfl
  · rintro ⟨ws, rfl⟩
    rfl
  · rintro ⟨ws, rfl⟩
    exact hlength.symm

/-- The number of lists of one length. -/
theorem ncard_eq (h : Alike S T) (n : Nat) :
    {ws ∈ S | ws.length = n}.ncard = {ws ∈ T | ws.length = n}.ncard := by
  obtain ⟨e, he⟩ := h
  refine Set.ncard_congr (fun ws hws => (e ⟨ws, hws.1⟩).1) ?_ ?_ ?_
  · intro ws hws
    exact ⟨(e ⟨ws, hws.1⟩).2, (he ⟨ws, hws.1⟩).trans hws.2⟩
  · intro ws ws' hws hws' heq
    have hsame := e.injective (Subtype.ext heq)
    exact congrArg Subtype.val hsame
  · intro ws hws
    have hlength := he (e.symm ⟨ws, hws.1⟩)
    rw [e.apply_symm_apply] at hlength
    refine ⟨(e.symm ⟨ws, hws.1⟩).1, ⟨(e.symm ⟨ws, hws.1⟩).2, hlength.symm.trans hws.2⟩, ?_⟩
    have hback : e ⟨(e.symm ⟨ws, hws.1⟩).1, (e.symm ⟨ws, hws.1⟩).2⟩ = ⟨ws, hws.1⟩ :=
      e.apply_symm_apply ⟨ws, hws.1⟩
    exact congrArg Subtype.val hback

end Alike

namespace Draw

/-- A run of two programs in a row is a run of each. -/
noncomputable def runsBind (d : Draw ω α) (g : α → Draw ω β) (b : β) :
    (Σ a, d.Runs a × (g a).Runs b) ≃ (d >>= g).Runs b :=
  Equiv.ofBijective
    (fun r => ⟨r.2.1.1 ++ r.2.2.1,
      mem_runs_bind.mpr ⟨r.1, r.2.1.1, r.2.2.1, rfl, r.2.1.2, r.2.2.2⟩⟩)
    (by
      constructor
      · rintro ⟨a, ⟨front, hfront⟩, rest, hrest⟩ ⟨a', ⟨front', hfront'⟩, rest', hrest'⟩ heq
        obtain ⟨rfl, rfl, rfl⟩ := runs_unique hfront hfront' (congrArg Subtype.val heq)
        rfl
      · rintro ⟨ws, hws⟩
        obtain ⟨a, front, rest, rfl, hfront, hrest⟩ := mem_runs_bind.mp hws
        exact ⟨⟨a, ⟨front, hfront⟩, rest, hrest⟩, rfl⟩)

/-- Where both parts of two programs are alike, up to a renaming, so are the programs. -/
theorem alike_bind {d : Draw ω α} {d' : Draw ω α'} {g : α → Draw ω β} {g' : α' → Draw ω β'}
    (π : α ≃ α') (hd : ∀ a, Alike (d.Runs a) (d'.Runs (π a)))
    (hg : ∀ a, (d.Runs a).Nonempty → Alike ((g a).Runs b) ((g' (π a)).Runs b')) :
    Alike ((d >>= g).Runs b) ((d' >>= g').Runs b') := by
  have hpairs : ∀ a, ∃ e : d.Runs a × (g a).Runs b ≃ d'.Runs (π a) × (g' (π a)).Runs b',
      ∀ r, (e r).1.1.length + (e r).2.1.length = r.1.1.length + r.2.1.length := by
    intro a
    obtain ⟨e, he⟩ := hd a
    by_cases hne : (d.Runs a).Nonempty
    · obtain ⟨f, hf⟩ := hg a hne
      refine ⟨Equiv.prodCongr e f, fun r => ?_⟩
      show (e r.1).1.length + (f r.2).1.length = _
      rw [he, hf]
    · have hempty : IsEmpty (d.Runs a) :=
        Set.isEmpty_coe_sort.mpr (Set.not_nonempty_iff_eq_empty.mp hne)
      have hempty' : IsEmpty (d'.Runs (π a)) := e.symm.isEmpty
      refine ⟨Equiv.equivOfIsEmpty _ _, fun r => ?_⟩
      exact (hempty.false r.1).elim
  choose e he using hpairs
  refine ⟨(runsBind d g b).symm.trans ((Equiv.sigmaCongr π e).trans (runsBind d' g' b')),
    fun ws => ?_⟩
  obtain ⟨⟨a, front, rest⟩, rfl⟩ := (runsBind d g b).surjective ws
  rw [Equiv.trans_apply, Equiv.symm_apply_apply]
  show ((e a (front, rest)).1.1 ++ (e a (front, rest)).2.1).length = (front.1 ++ rest.1).length
  rw [List.length_append, List.length_append, he]

theorem alike_done {a b : α} {a' b' : α'} (h : a = b ↔ a' = b') :
    Alike ((done a : Draw ω α).Runs b) ((done a' : Draw ω α').Runs b') := by
  by_cases hab : a = b
  · have hab' : a' = b' := h.mp hab
    subst hab hab'
    have hempty : ∀ {γ : Type} (c : γ), (done c : Draw ω γ).Runs c = {[]} := by
      intro γ c
      ext ws
      constructor
      · intro hws
        cases hws
        rfl
      · rintro rfl
        rfl
    rw [hempty, hempty]
    exact .refl _
  · apply Alike.of_empty
    · intro ws hws
      cases hws
      exact hab rfl
    · intro ws hws
      cases hws
      exact hab (h.mpr rfl)

/-- Goes on with the value of a program that may have none. -/
def andThen (d : Draw ω (Option α)) (g : α → Draw ω (Option β)) : Draw ω (Option β) :=
  d >>= fun
    | some a => g a
    | none => done none

theorem alike_andThen {d : Draw ω (Option α)} {g g' : α → Draw ω (Option β)} (σ : α ≃ α)
    (hd : ∀ a, Alike (d.Runs (some a)) (d.Runs (some (σ a))))
    (hg : ∀ a, (d.Runs (some a)).Nonempty →
      Alike ((g a).Runs (some b)) ((g' (σ a)).Runs (some b'))) :
    Alike ((d.andThen g).Runs (some b)) ((d.andThen g').Runs (some b')) := by
  apply alike_bind (Equiv.optionCongr σ)
  · intro a
    cases a with
    | none => exact .refl _
    | some a => exact hd a
  · intro a hne
    cases a with
    | none => exact alike_done ⟨fun h => absurd h (by simp), fun h => absurd h (by simp)⟩
    | some a => exact hg a hne

theorem mem_runs_andThen {d : Draw ω (Option α)} {g : α → Draw ω (Option β)} :
    ws ∈ (d.andThen g).Runs (some b) ↔ ∃ a front rest,
      ws = front ++ rest ∧ front ∈ d.Runs (some a) ∧ rest ∈ (g a).Runs (some b) := by
  rw [andThen, mem_runs_bind]
  constructor
  · intro h
    obtain ⟨a, front, rest, rfl, hfront, hrest⟩ := h
    cases a with
    | none => cases hrest
    | some a => exact ⟨a, front, rest, rfl, hfront, hrest⟩
  · intro h
    obtain ⟨a, front, rest, rfl, hfront, hrest⟩ := h
    exact ⟨some a, front, rest, rfl, hfront, hrest⟩

/-- A program that favours none of the numbers below a bound, and has no others. -/
structure Uniform (d : Draw ω (Option Nat)) (n : Nat) : Prop where
  below : ∀ ws a, ws ∈ d.Runs (some a) → a < n
  alike : ∀ a a', a < n → a' < n → Alike (d.Runs (some a)) (d.Runs (some a'))

theorem Uniform.permute {d : Draw ω (Option Nat)} (h : Uniform d n) (σ : Nat ≃ Nat)
    (hσ : ∀ a, σ a < n ↔ a < n) (a : Nat) : Alike (d.Runs (some a)) (d.Runs (some (σ a))) := by
  by_cases ha : a < n
  · exact h.alike a (σ a) ha ((hσ a).mpr ha)
  · apply Alike.of_empty
    · exact fun ws hws => ha (h.below ws a hws)
    · exact fun ws hws => ha ((hσ a).mp (h.below ws (σ a) hws))

/-- Two numbers below a bound, exchanged. -/
theorem swap_lt {i j n : Nat} (hi : i < n) (hj : j < n) (a : Nat) :
    Equiv.swap i j a < n ↔ a < n := by
  rw [Equiv.swap_apply_def]
  split
  · rename_i ha
    rw [ha]
    exact ⟨fun _ => hi, fun _ => hj⟩
  · split
    · rename_i ha
      rw [ha]
      exact ⟨fun _ => hj, fun _ => hi⟩
    · rfl

end Draw

end Rphp.Lib
