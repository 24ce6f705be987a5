import Mathlib.Data.List.Basic

namespace Rphp.Lib
set_option autoImplicit true

/-- A part of a text and what stands in its place. -/
structure Edit (α : Type u) where
  start : Nat
  stop : Nat
  insert : List α

/-- Edits in increasing order, none overlapping the one before it, within a length. -/
def Spaced (length : Nat) : Nat → List (Edit α) → Prop
  | offset, [] => offset ≤ length
  | offset, e :: edits => offset ≤ e.start ∧ e.start ≤ e.stop ∧ Spaced length e.stop edits

/-- The text from an offset on with every edit made. -/
def splice (text : List α) : Nat → List (Edit α) → List α
  | offset, [] => text.drop offset
  | offset, e :: edits =>
    (text.drop offset).take (e.start - offset) ++ e.insert ++ splice text e.stop edits

namespace Spaced

theorem le {edits : List (Edit α)} (h : Spaced length offset edits) : offset ≤ length := by
  induction edits generalizing offset with
  | nil => exact h
  | cons e edits ih => exact Nat.le_trans h.1 (Nat.le_trans h.2.1 (ih h.2.2))

theorem mono {edits : List (Edit α)} (h : Spaced length offset edits) (hle : length ≤ length') :
    Spaced length' offset edits := by
  induction edits generalizing offset with
  | nil => exact Nat.le_trans h hle
  | cons e edits ih => exact ⟨h.1, h.2.1, ih h.2.2⟩

theorem concat {edits : List (Edit α)} {e : Edit α} (h : Spaced e.start offset edits)
    (he : e.start ≤ e.stop) : Spaced e.stop offset (edits ++ [e]) := by
  induction edits generalizing offset with
  | nil => exact ⟨h, he, Nat.le_refl _⟩
  | cons first edits ih => exact ⟨h.1, h.2.1, ih h.2.2⟩

/-- Any two edits are apart. -/
theorem pairwise {edits : List (Edit α)} (h : Spaced length offset edits) :
    edits.Pairwise fun a b => a.stop ≤ b.start := by
  have hstarts : ∀ {offset : Nat} {edits : List (Edit α)}, Spaced length offset edits →
      ∀ e ∈ edits, offset ≤ e.start := by
    intro offset edits
    induction edits generalizing offset with
    | nil => exact fun _ => List.forall_mem_nil _
    | cons first edits ih =>
      intro h
      refine List.forall_mem_cons.mpr ⟨h.1, fun e he => ?_⟩
      exact Nat.le_trans (Nat.le_trans h.1 h.2.1) (ih h.2.2 e he)
  induction edits generalizing offset with
  | nil => exact .nil
  | cons e edits ih => exact .cons (hstarts h.2.2) (ih h.2.2)

end Spaced

section Splicing

variable {text : List α}

/-- What is copied behind the last edit extends the spliced text. -/
theorem splice_take {edits : List (Edit α)} (h : Spaced p offset edits) (hle : p ≤ q) :
    splice (text.take q) offset edits =
      splice (text.take p) offset edits ++ (text.drop p).take (q - p) := by
  induction edits generalizing offset with
  | nil =>
    have hoffset : offset ≤ p := h
    have hsplit : text.take q = text.take p ++ (text.drop p).take (q - p) := by
      rw [← List.take_add]
      congr 1
      omega
    by_cases hlength : offset ≤ (text.take p).length
    · rw [splice, splice, hsplit, List.drop_append_of_le_length hlength]
    · have hend : text.length ≤ p := by
        rw [List.length_take] at hlength
        omega
      rw [splice, splice, hsplit, List.drop_eq_nil_of_le hend, List.take_nil, List.append_nil,
        List.append_nil]
  | cons e edits ih =>
    obtain ⟨hstart, hstop, hrest⟩ := h
    have hp : e.start ≤ p := Nat.le_trans hstop hrest.le
    have hcopy : ((text.take q).drop offset).take (e.start - offset) =
        ((text.take p).drop offset).take (e.start - offset) := by
      simp only [List.drop_take, List.take_take]
      congr 1
      omega
    rw [splice, splice, ih hrest, hcopy, List.append_assoc, List.append_assoc, List.append_assoc]

/-- One more edit right behind what is spliced. -/
theorem splice_concat {edits : List (Edit α)} {e : Edit α} (h : Spaced e.start offset edits)
    (he : e.start ≤ e.stop) :
    splice (text.take e.stop) offset (edits ++ [e]) =
      splice (text.take e.start) offset edits ++ e.insert := by
  induction edits generalizing offset with
  | nil =>
    have hdrop : (text.take e.stop).drop e.stop = [] :=
      List.drop_eq_nil_of_le (List.length_take_le _ _)
    have hcopy : ((text.take e.stop).drop offset).take (e.start - offset) =
        (text.take e.start).drop offset := by
      rw [List.drop_take, List.drop_take, List.take_take]
      congr 1
      omega
    rw [List.nil_append, splice, splice, splice, hdrop, List.append_nil, hcopy]
  | cons first edits ih =>
    obtain ⟨hstart, hstop, hrest⟩ := h
    have hp : first.start ≤ e.start := Nat.le_trans hstop hrest.le
    have hcopy : ((text.take e.stop).drop offset).take (first.start - offset) =
        ((text.take e.start).drop offset).take (first.start - offset) := by
      simp only [List.drop_take, List.take_take]
      congr 1
      omega
    rw [List.cons_append, splice, splice, ih hrest, hcopy, ← List.append_assoc]

/-- Edits that insert what they remove change nothing. -/
theorem splice_same {edits : List (Edit α)} (h : Spaced length offset edits)
    (hsame : ∀ e ∈ edits, e.insert = (text.drop e.start).take (e.stop - e.start)) :
    splice text offset edits = text.drop offset := by
  induction edits generalizing offset with
  | nil => rfl
  | cons e edits ih =>
    obtain ⟨hstart, hstop, hrest⟩ := h
    obtain ⟨he, hedits⟩ := List.forall_mem_cons.mp hsame
    have hsecond : (text.drop e.start).take (e.stop - e.start) ++ text.drop e.stop =
        text.drop e.start := by
      have hdrop : text.drop e.stop = (text.drop e.start).drop (e.stop - e.start) := by
        rw [List.drop_drop]
        congr 1
        omega
      rw [hdrop, List.take_append_drop]
    have hfirst : (text.drop offset).take (e.start - offset) ++ text.drop e.start =
        text.drop offset := by
      have hdrop : text.drop e.start = (text.drop offset).drop (e.start - offset) := by
        rw [List.drop_drop]
        congr 1
        omega
      rw [hdrop, List.take_append_drop]
    rw [splice, ih hrest hedits, he, List.append_assoc, hsecond, hfirst]

end Splicing

end Rphp.Lib
