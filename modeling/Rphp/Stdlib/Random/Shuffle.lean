import Mathlib.Data.Bool.Count
import Rphp.Lib.Rearrange
import Rphp.Stdlib.Random.Ranges

namespace Rphp.Stdlib.Random
open Rphp.Lib
set_option autoImplicit true

/-! Shuffled arrays. -/

section Swaps

def swapAt (values : List α) (i j : Nat) : List α :=
  match values[i]?, values[j]? with
  | some a, some b => exchange values i j a b
  | _, _ => values

/-- From the last index down to the second one. -/
def shuffleFrom (attempts : Nat) : Nat → List α → Draw (BitVec 32) (Option (List α))
  | 0, values => .done (some values)
  | index + 1, values => (offset (index + 2) attempts).andThen fun replacement =>
      shuffleFrom attempts index (swapAt values (index + 1) replacement)

def shuffleSlice (attempts : Nat) (values : List α) : Draw (BitVec 32) (Option (List α)) :=
  shuffleFrom attempts (values.length - 1) values

variable {values : List α}

theorem swapAt_eq (hi : i < values.length) (hj : j < values.length) :
    swapAt values i j = exchange values i j values[i] values[j] := by
  rw [swapAt, List.getElem?_eq_getElem hi, List.getElem?_eq_getElem hj]

theorem swapAt_rearranged (hi : i < values.length) (hj : j ≤ i) :
    Rearranged (· ≤ i) values (swapAt values i j) := by
  have hj' : j < values.length := Nat.lt_of_le_of_lt hj hi
  rw [swapAt_eq hi hj']
  exact rearranged_exchange (List.getElem?_eq_getElem hi) (List.getElem?_eq_getElem hj')
    (Nat.le_refl i) hj

theorem swapAt_getElem? (hi : i < values.length) (hj : j < values.length) :
    (swapAt values i j)[i]? = values[j]? := by
  rw [swapAt_eq hi hj,
    getElem?_exchange (List.getElem?_eq_getElem hi) (List.getElem?_eq_getElem hj)]
  by_cases hij : i = j
  · subst hij
    rw [if_pos rfl, List.getElem?_eq_getElem hi]
  · rw [if_neg hij, if_pos rfl, List.getElem?_eq_getElem hj]

/-- A shuffle rearranges the values up to the index that it starts from. -/
theorem shuffleFrom_rearranged (attempts : Nat) (index : Nat) : ∀ {values result : List α}
    {ws : List (BitVec 32)}, index < values.length ∨ index = 0 →
    ws ∈ (shuffleFrom attempts index values).Runs (some result) →
    Rearranged (· ≤ index) values result := by
  induction index with
  | zero =>
    intro values result ws _ h
    cases h
    exact .refl _ _
  | succ index ih =>
    intro values result ws hindex h
    obtain ⟨j, front, rest, rfl, hfront, hrest⟩ := Draw.mem_runs_andThen.mp h
    have hj := offset_lt (Nat.zero_lt_succ _) attempts hfront
    have hlt : index + 1 < values.length := by omega
    have hswap := swapAt_rearranged hlt (Nat.le_of_lt_succ hj)
    have hshuffled := ih (.inl (by rw [hswap.length_eq]; omega)) hrest
    exact hswap.trans (hshuffled.mono fun k hk => Nat.le_succ_of_le hk)

end Swaps

section Arrangements

variable {values result : List α}

/-- An arrangement of the values that keeps those above an index. -/
structure Arranges (index : Nat) (values result : List α) : Prop where
  perm : result.Perm values
  above : ∀ k, index < k → result[k]? = values[k]?

theorem Arranges.length_eq (h : Arranges index values result) :
    result.length = values.length := h.perm.length_eq

/-- The value that an arrangement has at the index stands no higher before. -/
theorem Arranges.source (h : Arranges index values result) (hnodup : values.Nodup)
    (hindex : index < values.length) : ∃ j ≤ index, result[index]? = values[j]? := by
  have hlt : index < result.length := by rw [h.length_eq]; exact hindex
  have hmem : result[index] ∈ values := h.perm.subset (List.getElem_mem hlt)
  obtain ⟨j, hj, heq⟩ := List.getElem_of_mem hmem
  refine ⟨j, ?_, by rw [List.getElem?_eq_getElem hlt, List.getElem?_eq_getElem hj, heq]⟩
  by_contra hgt
  have habove := h.above j (Nat.lt_of_not_le hgt)
  have hj' : j < result.length := by rw [h.length_eq]; exact hj
  rw [List.getElem?_eq_getElem hj', List.getElem?_eq_getElem hj, heq, Option.some_inj] at habove
  have hsame := (h.perm.nodup_iff.mpr hnodup).getElem_inj_iff.mp habove
  omega

/-- After the swap that brings that value to the index, only those below it are left. -/
theorem Arranges.swapped (h : Arranges (index + 1) values result)
    (hindex : index + 1 < values.length) (hj : j ≤ index + 1)
    (hsource : result[index + 1]? = values[j]?) :
    Arranges index (swapAt values (index + 1) j) result where
  perm := h.perm.trans (swapAt_rearranged hindex hj).perm.symm
  above := by
    intro k hk
    by_cases hk' : k = index + 1
    · rw [hk', hsource, swapAt_getElem? hindex (Nat.lt_of_le_of_lt hj hindex)]
    · rw [h.above k (by omega)]
      exact ((swapAt_rearranged hindex hj).outside k (by omega)).symm

theorem Arranges.eq_of_zero (h : Arranges 0 values result) : result = values := by
  cases values with
  | nil => exact h.perm.eq_nil
  | cons a values =>
    cases result with
    | nil => exact h.perm.symm.eq_nil.symm
    | cons b result =>
      obtain rfl : result = values := List.ext_getElem? fun k => h.above (k + 1) (Nat.succ_pos k)
      have hperm : ([b] ++ result).Perm ([a] ++ result) := h.perm
      rw [List.perm_append_right_iff, List.singleton_perm_singleton] at hperm
      rw [hperm]

/-- The index that the value comes from is the only one that leads to the arrangement. -/
theorem source_unique (hnodup : values.Nodup) (hindex : index + 1 < values.length)
    (hj : j ≤ index + 1) (hj' : j' ≤ index + 1) (hsource : result[index + 1]? = values[j]?)
    (hruns : ws ∈ (shuffleFrom attempts index (swapAt values (index + 1) j')).Runs (some result)) :
    j' = j := by
  have hswap := swapAt_rearranged hindex hj'
  have hshuffled := shuffleFrom_rearranged attempts index
    (.inl (by rw [hswap.length_eq]; omega)) hruns
  have hlt : j < values.length := Nat.lt_of_le_of_lt hj hindex
  have hlt' : j' < values.length := Nat.lt_of_le_of_lt hj' hindex
  have hsame : values[j']? = values[j]? := by
    rw [← hsource, ← swapAt_getElem? hindex hlt']
    exact (hshuffled.outside (index + 1) (by omega)).symm
  rw [List.getElem?_eq_getElem hlt, List.getElem?_eq_getElem hlt', Option.some_inj] at hsame
  exact hnodup.getElem_inj_iff.mp hsame

/-- Any two arrangements come from equally many lists of words. -/
theorem alike_shuffleFrom (attempts : Nat) (index : Nat) :
    ∀ {values values' result result' : List α}, values.Nodup → values'.Nodup →
      (index < values.length ∨ index = 0) → values'.length = values.length →
      Arranges index values result → Arranges index values' result' →
      Alike ((shuffleFrom attempts index values).Runs (some result))
        ((shuffleFrom attempts index values').Runs (some result')) := by
  induction index with
  | zero =>
    intro values values' result result' _ _ _ _ h h'
    apply Draw.alike_done
    rw [h.eq_of_zero, h'.eq_of_zero]
    exact ⟨fun _ => rfl, fun _ => rfl⟩
  | succ index ih =>
    intro values values' result result' hnodup hnodup' hindex hlength h h'
    have hlt : index + 1 < values.length := by omega
    have hlt' : index + 1 < values'.length := by omega
    obtain ⟨c, hc, hsource⟩ := h.source hnodup hlt
    obtain ⟨c', hc', hsource'⟩ := h'.source hnodup' hlt'
    have huniform := offset_uniform (Nat.zero_lt_succ (index + 1)) attempts
    apply Draw.alike_andThen (Equiv.swap c c')
    · exact huniform.permute _ (Draw.swap_lt (by omega) (by omega))
    · intro j hne
      obtain ⟨ws, hws⟩ := hne
      have hj := huniform.below ws j hws
      by_cases hjc : j = c
      · rw [hjc, Equiv.swap_apply_left]
        have hswap := swapAt_rearranged hlt hc
        have hswap' := swapAt_rearranged hlt' hc'
        apply ih (hswap.perm.nodup_iff.mpr hnodup) (hswap'.perm.nodup_iff.mpr hnodup')
        · left
          rw [hswap.length_eq]
          omega
        · rw [hswap.length_eq, hswap'.length_eq, hlength]
        · exact h.swapped hlt hc hsource
        · exact h'.swapped hlt' hc' hsource'
      · have hj' : Equiv.swap c c' j < index + 2 := (Draw.swap_lt (by omega) (by omega) j).mpr hj
        apply Alike.of_empty
        · intro ws hruns
          exact hjc (source_unique hnodup hlt hc (by omega) hsource hruns)
        · intro ws hruns
          have heq := source_unique hnodup' hlt' hc' (by omega) hsource' hruns
          exact hjc (Equiv.swap_apply_eq_iff.mp heq |>.trans (Equiv.swap_apply_right c c'))

theorem shuffleFrom_reaches (hattempts : 0 < attempts) (index : Nat) : ∀ values : List α,
    index < 2 ^ 64 → ∃ result ws, ws ∈ (shuffleFrom attempts index values).Runs (some result) := by
  induction index with
  | zero => exact fun values _ => ⟨values, [], rfl⟩
  | succ index ih =>
    intro values hindex
    obtain ⟨front, hfront⟩ := offset_reaches (Nat.zero_lt_succ (index + 1)) (by omega) hattempts
    obtain ⟨result, rest, hrest⟩ := ih (swapAt values (index + 1) 0) (by omega)
    exact ⟨result, front ++ rest, Draw.mem_runs_andThen.mpr ⟨0, front, rest, rfl, hfront, hrest⟩⟩

/-- A shuffle arranges the values, in every order and in none more often than in another. -/
theorem shuffleSlice_fair (hnodup : values.Nodup) (hlength : values.length ≤ 2 ^ 64)
    (hattempts : 0 < attempts) :
    (∀ ws result, ws ∈ (shuffleSlice attempts values).Runs (some result) →
      result.Perm values) ∧
    (∀ result, result.Perm values → ∃ ws, ws ∈ (shuffleSlice attempts values).Runs (some result)) ∧
    ∀ result result', result.Perm values → result'.Perm values → ∀ n,
      {ws ∈ (shuffleSlice attempts values).Runs (some result) | ws.length = n}.ncard =
        {ws ∈ (shuffleSlice attempts values).Runs (some result') | ws.length = n}.ncard := by
  have hindex : values.length - 1 < values.length ∨ values.length - 1 = 0 := by omega
  have harranges : ∀ {result}, result.Perm values → Arranges (values.length - 1) values result := by
    intro result hperm
    refine ⟨hperm, fun k hk => ?_⟩
    have hlength := hperm.length_eq
    rw [List.getElem?_eq_none (by omega), List.getElem?_eq_none (by omega)]
  have halike : ∀ result result', result.Perm values → result'.Perm values →
      Alike ((shuffleSlice attempts values).Runs (some result))
        ((shuffleSlice attempts values).Runs (some result')) := fun result result' h h' =>
    alike_shuffleFrom attempts _ hnodup hnodup hindex rfl (harranges h) (harranges h')
  refine ⟨fun ws result hws => (shuffleFrom_rearranged attempts _ hindex hws).perm, ?_, ?_⟩
  · intro result hperm
    obtain ⟨other, ws, hws⟩ := shuffleFrom_reaches hattempts (values.length - 1) values (by omega)
    have hother := (shuffleFrom_rearranged attempts _ hindex hws).perm
    obtain ⟨e, -⟩ := halike other result hother hperm
    exact ⟨(e ⟨ws, hws⟩).1, (e ⟨ws, hws⟩).2⟩
  · exact fun result result' h h' => (halike result result' h h').ncard_eq

theorem shuffleSlice_fair_three :
    (∀ ws result, ws ∈ (shuffleSlice 5 [1, 2, 3]).Runs (some result) → result.Perm [1, 2, 3]) ∧
    (∀ result, result.Perm [1, 2, 3] → ∃ ws, ws ∈ (shuffleSlice 5 [1, 2, 3]).Runs (some result)) ∧
    ∀ result result', result.Perm [1, 2, 3] → result'.Perm [1, 2, 3] → ∀ n,
      {ws ∈ (shuffleSlice 5 [1, 2, 3]).Runs (some result) | ws.length = n}.ncard =
        {ws ∈ (shuffleSlice 5 [1, 2, 3]).Runs (some result') | ws.length = n}.ncard :=
  shuffleSlice_fair (by decide) (by decide) (by decide)

end Arrangements

section Picks

/-- Marks are set at positions that are drawn again as long as they hit a mark. -/
def markFrom (length attempts target : Nat) : Nat → List Bool → Nat →
    Draw (BitVec 32) (Option (List Bool))
  | 0, _, _ => .done none
  | rounds + 1, marked, count =>
    if count < target then
      (offset length attempts).andThen fun index =>
        if marked.getD index false then markFrom length attempts target rounds marked count
        else markFrom length attempts target rounds (marked.set index true) (count + 1)
    else .done (some marked)

def markPositions (length attempts target rounds : Nat) : Draw (BitVec 32) (Option (List Bool)) :=
  markFrom length attempts target rounds (List.replicate length false) 0

inductive Picked (κ : Type)
  | key (key : κ)
  | keys (keys : List κ)
  deriving DecidableEq, Repr

def selectMarked (keys : List κ) (marked : List Bool) (emitMarked : Bool) : List κ :=
  ((keys.zip marked).filter fun entry => entry.2 == emitMarked).map Prod.fst

/-- The smaller of the chosen keys and the others is marked; they keep their order. -/
def arrayRand (keys : List κ) (num : Int) (attempts rounds : Nat) :
    Except Thrown (Draw (BitVec 32) (Option (Picked κ))) :=
  if keys = [] then
    .error ⟨"ValueError", "array_rand(): Argument #1 ($array) must not be empty"⟩
  else if num < 1 ∨ keys.length < num then
    .error ⟨"ValueError", "array_rand(): Argument #2 ($num) must be between 1 and " ++
      "the number of elements in argument #1 ($array)"⟩
  else
    let num := num.toNat
    if num = 1 then
      .ok ((offset keys.length attempts).andThen fun index => .done (keys[index]?.map .key))
    else
      let target := min num (keys.length - num)
      let emitMarked := decide (num ≤ keys.length - num)
      .ok ((markPositions keys.length attempts target rounds).andThen
        fun marked => .done (some (.keys (selectMarked keys marked emitMarked))))

/-- Marks at positions that are renamed. -/
def Renames (σ : Nat ≃ Nat) (marked marked' : List Bool) : Prop :=
  ∀ i, marked'[σ i]? = marked[i]?

variable {σ : Nat ≃ Nat} {marked marked' : List Bool}

theorem Renames.lt_iff (h : Renames σ marked marked') (i : Nat) :
    σ i < marked'.length ↔ i < marked.length := by
  rw [← not_iff_not, Nat.not_lt, Nat.not_lt, ← List.getElem?_eq_none_iff, h i,
    List.getElem?_eq_none_iff]

theorem Renames.set (h : Renames σ marked marked') (i : Nat) :
    Renames σ (marked.set i true) (marked'.set (σ i) true) := by
  intro j
  rw [List.getElem?_set, List.getElem?_set]
  by_cases hij : i = j
  · rw [if_pos hij, if_pos (congrArg σ hij)]
    by_cases hlt : i < marked.length
    · rw [if_pos hlt, if_pos ((h.lt_iff i).mpr hlt)]
    · rw [if_neg hlt, if_neg (hlt ∘ (h.lt_iff i).mp)]
  · rw [if_neg hij, if_neg fun hσ => hij (σ.injective hσ)]
    exact h j

theorem Renames.eq_iff (h : Renames σ marked marked') (h' : Renames σ result result') :
    marked = result ↔ marked' = result' := by
  constructor
  · rintro rfl
    apply List.ext_getElem?
    intro k
    rw [← σ.apply_symm_apply k, h, h']
  · rintro rfl
    apply List.ext_getElem?
    intro k
    rw [← h, h']

/-- Renaming the positions renames the draws. -/
theorem alike_markFrom (hlength : 0 < length) {σ : Nat ≃ Nat} {result result' : List Bool}
    (hσ : ∀ i, σ i < length ↔ i < length) (hresult : Renames σ result result')
    (attempts target rounds : Nat) : ∀ {marked marked' : List Bool} (count : Nat),
      Renames σ marked marked' →
      Alike ((markFrom length attempts target rounds marked count).Runs (some result))
        ((markFrom length attempts target rounds marked' count).Runs (some result')) := by
  induction rounds with
  | zero =>
    intro marked marked' count _
    exact Draw.alike_done ⟨fun h => absurd h (by simp), fun h => absurd h (by simp)⟩
  | succ rounds ih =>
    intro marked marked' count h
    rw [markFrom, markFrom]
    split
    · apply Draw.alike_andThen σ
      · exact (offset_uniform hlength attempts).permute σ hσ
      · intro i _
        have hsame : marked'.getD (σ i) false = marked.getD i false := by
          rw [List.getD_eq_getElem?_getD, List.getD_eq_getElem?_getD, h i]
        rw [hsame]
        split
        · exact ih count h
        · exact ih (count + 1) (h.set i)
    · apply Draw.alike_done
      rw [Option.some_inj, Option.some_inj]
      exact h.eq_iff hresult

theorem count_mark {marked : List Bool} (hi : i < marked.length)
    (hunmarked : marked.getD i false = false) :
    (marked.set i true).count true = marked.count true + 1 := by
  rw [List.getD_eq_getElem?_getD, List.getElem?_eq_getElem hi] at hunmarked
  have hfalse : marked[i] = false := hunmarked
  rw [List.count_set hi, hfalse]
  rfl

/-- How many marks there are, while and after they are set. -/
theorem markFrom_count (hlength : 0 < length) (attempts target rounds : Nat) :
    ∀ {marked result : List Bool} {count : Nat} {ws : List (BitVec 32)},
      marked.length = length → marked.count true = count → count ≤ target →
      ws ∈ (markFrom length attempts target rounds marked count).Runs (some result) →
      result.length = length ∧ result.count true = target := by
  induction rounds with
  | zero =>
    intro marked result count ws _ _ _ h
    cases h
  | succ rounds ih =>
    intro marked result count ws hmarked hcount hle h
    rw [markFrom] at h
    split at h
    · obtain ⟨i, front, rest, rfl, hfront, hrest⟩ := Draw.mem_runs_andThen.mp h
      have hi := offset_lt hlength attempts hfront
      have hlt : i < marked.length := by rw [hmarked]; exact hi
      split at hrest
      · exact ih hmarked hcount hle hrest
      · rename_i hunmarked
        refine ih (by rw [List.length_set, hmarked]) ?_ (by omega) hrest
        rw [count_mark hlt (Bool.eq_false_of_not_eq_true hunmarked), hcount]
    · cases h
      exact ⟨hmarked, by omega⟩

theorem exists_unmarked {marked : List Bool} (h : marked.count true < marked.length) :
    ∃ i, i < marked.length ∧ marked.getD i false = false := by
  have hmem : false ∈ marked := by
    by_contra hnone
    have hall : ∀ b ∈ marked, true = b := by
      intro b hb
      cases b with
      | true => rfl
      | false => exact absurd hb hnone
    have hcount := List.count_eq_length.mpr hall
    omega
  obtain ⟨i, hi, heq⟩ := List.getElem_of_mem hmem
  exact ⟨i, hi, by rw [List.getD_eq_getElem?_getD, List.getElem?_eq_getElem hi, heq]; rfl⟩

theorem markFrom_reaches (hattempts : 0 < attempts) (hlength : length ≤ 2 ^ 64)
    (htarget : target ≤ length) (rounds : Nat) : ∀ {marked : List Bool} {count : Nat},
      marked.length = length → marked.count true = count → count ≤ target →
      target < rounds + count →
      ∃ result ws,
        ws ∈ (markFrom length attempts target rounds marked count).Runs (some result) := by
  induction rounds with
  | zero =>
    intro marked count _ _ hle hlt
    omega
  | succ rounds ih =>
    intro marked count hmarked hcount hle hlt
    rw [markFrom]
    by_cases hmore : count < target
    · rw [if_pos hmore]
      obtain ⟨i, hi, hunmarked⟩ := exists_unmarked (show marked.count true < marked.length by omega)
      have hset : (marked.set i true).count true = count + 1 := by
        rw [count_mark hi hunmarked, hcount]
      rw [hmarked] at hi
      obtain ⟨front, hfront⟩ := offset_reaches hi hlength hattempts
      obtain ⟨result, rest, hrest⟩ := ih (by rw [List.length_set, hmarked]) hset hmore (by omega)
      refine ⟨result, front ++ rest, Draw.mem_runs_andThen.mpr ⟨i, front, rest, rfl, hfront, ?_⟩⟩
      rw [hunmarked]
      exact hrest
    · rw [if_neg hmore]
      exact ⟨marked, [], rfl⟩

/-- The marks that select some of the keys. -/
def marksOf (keys picked : List κ) [DecidableEq κ] (emitMarked : Bool) : List Bool :=
  keys.map fun key => decide (key ∈ picked) == emitMarked

section Selections

variable {κ : Type} {keys picked : List κ}

theorem selectMarked_cons (key : κ) (keys : List κ) (mark : Bool) (marked : List Bool)
    (emitMarked : Bool) :
    selectMarked (key :: keys) (mark :: marked) emitMarked =
      if mark = emitMarked then key :: selectMarked keys marked emitMarked
      else selectMarked keys marked emitMarked := by
  rw [selectMarked, List.zip_cons_cons, List.filter_cons]
  by_cases hmark : mark = emitMarked
  · simp only [hmark, beq_self_eq_true, if_true, List.map_cons]
    rfl
  · simp only [beq_iff_eq, hmark, if_false]
    rfl

theorem selectMarked_sublist (emitMarked : Bool) (keys : List κ) :
    ∀ marked : List Bool, (selectMarked keys marked emitMarked).Sublist keys := by
  induction keys with
  | nil => exact fun _ => .refl []
  | cons key keys ih =>
    intro marked
    cases marked with
    | nil => exact List.nil_sublist _
    | cons mark marked =>
      rw [selectMarked_cons]
      split
      · exact (ih marked).cons_cons key
      · exact (ih marked).cons key

theorem selectMarked_length (emitMarked : Bool) (keys : List κ) :
    ∀ marked : List Bool, marked.length = keys.length →
      (selectMarked keys marked emitMarked).length = marked.count emitMarked := by
  induction keys with
  | nil =>
    intro marked hlength
    rw [List.eq_nil_of_length_eq_zero hlength]
    rfl
  | cons key keys ih =>
    intro marked hlength
    cases marked with
    | nil => cases hlength
    | cons mark marked =>
      rw [selectMarked_cons, List.count_cons]
      by_cases hmark : mark = emitMarked
      · rw [if_pos hmark, List.length_cons, ih marked (Nat.succ.inj hlength), hmark,
          beq_self_eq_true, if_pos rfl]
      · rw [if_neg hmark, ih marked (Nat.succ.inj hlength), beq_eq_false_iff_ne.mpr hmark,
          if_neg Bool.false_ne_true]
        rfl

variable [DecidableEq κ]

theorem marksOf_length (keys picked : List κ) (emitMarked : Bool) :
    (marksOf keys picked emitMarked).length = keys.length := List.length_map _

theorem marksOf_congr (h : ∀ key ∈ keys, key ∈ picked ↔ key ∈ picked') (emitMarked : Bool) :
    marksOf keys picked emitMarked = marksOf keys picked' emitMarked := by
  apply List.map_congr_left
  intro key hkey
  rw [decide_eq_decide.mpr (h key hkey)]

/-- Only the marks of a selection select it. -/
theorem selectMarked_eq_iff (emitMarked : Bool) (keys : List κ) : ∀ (marked : List Bool)
    (picked : List κ), keys.Nodup → marked.length = keys.length → picked.Sublist keys →
    (selectMarked keys marked emitMarked = picked ↔
      marked = marksOf keys picked emitMarked) := by
  induction keys with
  | nil =>
    intro marked picked _ hlength hpicked
    rw [List.sublist_nil.mp hpicked, List.eq_nil_of_length_eq_zero hlength]
    exact ⟨fun _ => rfl, fun _ => rfl⟩
  | cons key keys ih =>
    intro marked picked hnodup hlength hpicked
    cases marked with
    | nil => cases hlength
    | cons mark marked =>
      obtain ⟨hkey, hnodup⟩ := List.nodup_cons.mp hnodup
      rw [selectMarked_cons, marksOf, List.map_cons, List.cons.injEq]
      cases hpicked with
      | cons _ hpicked =>
        have hnot : key ∉ picked := fun h => hkey (hpicked.subset h)
        rw [decide_eq_false hnot, Bool.false_beq]
        by_cases hmark : mark = emitMarked
        · rw [if_pos hmark, hmark]
          apply iff_of_false
          · rintro rfl
            exact hnot List.mem_cons_self
          · exact fun h => Bool.self_ne_not emitMarked h.1
        · rw [if_neg hmark, ih marked picked hnodup (Nat.succ.inj hlength) hpicked]
          exact ⟨fun h => ⟨Bool.eq_not_of_ne hmark, h⟩, fun h => h.2⟩
      | cons_cons _ hpicked =>
        rename_i picked
        rw [decide_eq_true List.mem_cons_self, Bool.true_beq]
        have hcongr : ∀ other ∈ keys, other ∈ key :: picked ↔ other ∈ picked := by
          intro other hother
          have hne : other ≠ key := fun h => hkey (h ▸ hother)
          rw [List.mem_cons]
          exact ⟨fun h => h.resolve_left hne, .inr⟩
        have hmarks := marksOf_congr hcongr emitMarked
        rw [marksOf] at hmarks
        by_cases hmark : mark = emitMarked
        · rw [if_pos hmark, List.cons.injEq,
            ih marked picked hnodup (Nat.succ.inj hlength) hpicked, hmarks]
          exact ⟨fun h => ⟨hmark, h.2⟩, fun h => ⟨rfl, h.2⟩⟩
        · rw [if_neg hmark]
          apply iff_of_false
          · intro h
            exact hkey ((selectMarked_sublist emitMarked keys marked).subset
              (h ▸ List.mem_cons_self))
          · exact fun h => hmark h.1

theorem marksOf_count (hnodup : keys.Nodup) (hpicked : picked.Sublist keys) (emitMarked : Bool) :
    (marksOf keys picked emitMarked).count emitMarked = picked.length := by
  have hlength := marksOf_length keys picked emitMarked
  rw [← selectMarked_length emitMarked keys _ hlength,
    (selectMarked_eq_iff emitMarked keys _ picked hnodup hlength hpicked).mpr rfl]

theorem perm_of_count {l m : List Bool} (b : Bool) (hlength : l.length = m.length)
    (hcount : l.count b = m.count b) : l.Perm m := by
  rw [List.perm_iff_count]
  intro c
  by_cases hc : c = b
  · rw [hc, hcount]
  · rw [Bool.eq_not_of_ne hc]
    have hl := List.count_not_add_count l b
    have hm := List.count_not_add_count m b
    omega

theorem alike_selection (hnodup : keys.Nodup) (hlength : 0 < keys.length)
    (hpicked : picked.Sublist keys) (hpicked' : picked'.Sublist keys)
    (hsame : picked.length = picked'.length) (emitMarked : Bool) (attempts target rounds : Nat) :
    Alike ((markPositions keys.length attempts target rounds).Runs
        (some (marksOf keys picked emitMarked)))
      ((markPositions keys.length attempts target rounds).Runs
        (some (marksOf keys picked' emitMarked))) := by
  have hperm : (marksOf keys picked emitMarked).Perm (marksOf keys picked' emitMarked) := by
    apply perm_of_count emitMarked
    · rw [marksOf_length, marksOf_length]
    · rw [marksOf_count hnodup hpicked, marksOf_count hnodup hpicked', hsame]
  obtain ⟨σ, hσ⟩ := perm_positions hperm
  have hlt : ∀ i, σ i < keys.length ↔ i < keys.length := by
    intro i
    have hiff := Renames.lt_iff hσ i
    rw [marksOf_length, marksOf_length] at hiff
    exact hiff
  apply alike_markFrom hlength hlt hσ
  intro i
  rw [List.getElem?_replicate, List.getElem?_replicate]
  by_cases hi : i < keys.length
  · rw [if_pos hi, if_pos ((hlt i).mpr hi)]
  · rw [if_neg hi, if_neg (hi ∘ (hlt i).mp)]

theorem markPositions_count (hlength : 0 < length)
    (h : ws ∈ (markPositions length attempts target rounds).Runs (some marked)) :
    marked.length = length ∧ marked.count true = target :=
  markFrom_count hlength attempts target rounds List.length_replicate
    (by rw [List.count_replicate]; rfl) (Nat.zero_le _) h

/-- The keys that a run of marks ends in. -/
theorem runs_selection (hnodup : keys.Nodup) (hlength : 0 < keys.length)
    (hpicked : picked.Sublist keys) (emitMarked : Bool) (attempts target rounds : Nat) :
    ((markPositions keys.length attempts target rounds).andThen fun marked =>
        .done (some (Picked.keys (selectMarked keys marked emitMarked)))).Runs
          (some (Picked.keys picked)) =
      (markPositions keys.length attempts target rounds).Runs
        (some (marksOf keys picked emitMarked)) := by
  ext ws
  rw [Draw.mem_runs_andThen]
  constructor
  · intro h
    obtain ⟨marked, front, rest, rfl, hfront, hrest⟩ := h
    have hmarked := (markPositions_count hlength hfront).1
    cases rest with
    | cons w rest => cases hrest
    | nil =>
      have hselect : selectMarked keys marked emitMarked = picked := by
        cases hrest
        rfl
      rw [selectMarked_eq_iff emitMarked keys marked picked hnodup hmarked hpicked] at hselect
      rw [List.append_nil, ← hselect]
      exact hfront
  · intro h
    refine ⟨_, ws, [], (List.append_nil ws).symm, h, ?_⟩
    have hselect := (selectMarked_eq_iff emitMarked keys _ picked hnodup
      (marksOf_length keys picked emitMarked) hpicked).mpr rfl
    rw [hselect]
    rfl

/-- A draw of keys that keeps their order, and favours no choice of as many of them. -/
structure FairPicks (d : Draw (BitVec 32) (Option (Picked κ))) (keys : List κ) (num : Nat) :
    Prop where
  picks : ∀ ws result, ws ∈ d.Runs (some result) →
    ∃ picked, result = .keys picked ∧ picked.Sublist keys ∧ picked.length = num
  reaches : ∀ picked, picked.Sublist keys → picked.length = num →
    ∃ ws, ws ∈ d.Runs (some (.keys picked))
  ncard_eq : ∀ picked picked', picked.Sublist keys → picked'.Sublist keys →
    picked.length = num → picked'.length = num → ∀ n,
      {ws ∈ d.Runs (some (.keys picked)) | ws.length = n}.ncard =
        {ws ∈ d.Runs (some (.keys picked')) | ws.length = n}.ncard

theorem selection_fair (hnodup : keys.Nodup) (hlength : 0 < keys.length)
    (hbound : keys.length ≤ 2 ^ 64) (hattempts : 0 < attempts) (htarget : target ≤ keys.length)
    (hrounds : target < rounds) (emitMarked : Bool)
    (hnum : num = if emitMarked then target else keys.length - target) :
    FairPicks ((markPositions keys.length attempts target rounds).andThen fun marked =>
        .done (some (Picked.keys (selectMarked keys marked emitMarked)))) keys num := by
  have hselected : ∀ marked ws,
      ws ∈ (markPositions keys.length attempts target rounds).Runs
        (some marked) → (selectMarked keys marked emitMarked).length = num := by
    intro marked ws hws
    obtain ⟨hmarked, htrue⟩ := markPositions_count hlength hws
    rw [selectMarked_length emitMarked keys marked hmarked, hnum]
    cases emitMarked with
    | true => exact htrue
    | false =>
      have hall := List.count_true_add_count_false marked
      rw [if_neg Bool.false_ne_true]
      omega
  have halike : ∀ picked picked', picked.Sublist keys → picked'.Sublist keys →
      picked.length = num → picked'.length = num →
      Alike ((markPositions keys.length attempts target rounds).Runs
          (some (marksOf keys picked emitMarked)))
        ((markPositions keys.length attempts target rounds).Runs
          (some (marksOf keys picked' emitMarked))) := fun picked picked' h h' hlen hlen' =>
    alike_selection hnodup hlength h h' (hlen.trans hlen'.symm) emitMarked attempts target rounds
  refine ⟨?_, ?_, ?_⟩
  · intro ws result hws
    obtain ⟨marked, front, rest, -, hfront, hrest⟩ := Draw.mem_runs_andThen.mp hws
    cases hrest
    exact ⟨_, rfl, selectMarked_sublist emitMarked keys marked, hselected marked front hfront⟩
  · intro picked hpicked hlen
    have hcount : (List.replicate keys.length false).count true = 0 := by
      rw [List.count_replicate]
      rfl
    obtain ⟨marked, ws, hws⟩ := markFrom_reaches hattempts hbound htarget rounds
      List.length_replicate hcount (Nat.zero_le _) hrounds
    have hmarked := (markPositions_count hlength hws).1
    have hmarks := (selectMarked_eq_iff emitMarked keys marked _ hnodup hmarked
      (selectMarked_sublist emitMarked keys marked)).mp rfl
    obtain ⟨e, -⟩ := halike _ picked (selectMarked_sublist emitMarked keys marked) hpicked
      (hselected marked ws hws) hlen
    rw [← hmarks] at e
    rw [runs_selection hnodup hlength hpicked]
    exact ⟨(e ⟨ws, hws⟩).1, (e ⟨ws, hws⟩).2⟩
  · intro picked picked' hpicked hpicked' hlen hlen' n
    rw [runs_selection hnodup hlength hpicked, runs_selection hnodup hlength hpicked']
    exact (halike picked picked' hpicked hpicked' hlen hlen').ncard_eq n

theorem arrayRand_fair (hnodup : keys.Nodup) (hbound : keys.length ≤ 2 ^ 64)
    (hnum : 2 ≤ num) (hle : num ≤ keys.length) (hattempts : 0 < attempts) (hrounds : num < rounds) :
    ∃ d, arrayRand keys num attempts rounds = .ok d ∧ FairPicks d keys num := by
  have hne : keys ≠ [] := by
    rintro rfl
    exact absurd hle (by rw [List.length_nil]; omega)
  have hok : ¬ ((num : Int) < 1 ∨ (keys.length : Int) < num) := by omega
  rw [arrayRand, if_neg hne, if_neg hok]
  simp only [Int.toNat_natCast]
  rw [if_neg (by omega)]
  refine ⟨_, rfl, selection_fair hnodup (by omega) hbound hattempts (by omega) (by omega) _ ?_⟩
  by_cases hsmall : num ≤ keys.length - num
  · rw [decide_eq_true hsmall, if_pos rfl]
    omega
  · rw [decide_eq_false hsmall, if_neg Bool.false_ne_true]
    omega

theorem arrayRand_fair_pairs :
    ∃ d, arrayRand ["a", "b", "c"] (2 : Nat) 1 3 = .ok d ∧ FairPicks d ["a", "b", "c"] 2 :=
  arrayRand_fair (by decide) (by decide) (by decide) (by decide) (by decide) (by decide)

end Selections

end Picks

end Rphp.Stdlib.Random
