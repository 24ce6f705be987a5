import Rphp.Stream.Reads

namespace Rphp.Stream
open Rphp.Lib
set_option autoImplicit true

/-! Reads up to an ending, which may lie across the pieces that are read. -/

variable {s : PhpStream} {t : Logical} {bytes output ending whole : List UInt8}
  {count maximum stop matched : Nat}

section Endings

/-- No occurrence ends in the bytes. -/
def Clear (ending whole : List UInt8) : Prop :=
  ∀ k, 0 < k → k ≤ whole.length → ¬ ending <:+ whole.take k

theorem firstEnding_eq_some (hending : ending ≠ []) (hpos : 0 < stop) (hle : stop ≤ whole.length)
    (hsuffix : ending <:+ whole.take stop)
    (hfirst : ∀ k, 0 < k → k < stop → ¬ ending <:+ whole.take k) :
    firstEnding ending whole = some stop := by
  rw [firstEnding, if_neg hending, List.find?_range'_eq_some]
  refine ⟨List.isSuffixOf_iff_suffix.mpr hsuffix, ?_, ?_⟩
  · rw [List.mem_range'_1]
    omega
  · intro k hk hk'
    rw [Bool.not_eq_true', ← Bool.not_eq_true, List.isSuffixOf_iff_suffix]
    exact hfirst k hk hk'

theorem firstEnding_eq_none (hclear : ending ≠ [] → Clear ending whole) :
    firstEnding ending whole = none := by
  rw [firstEnding]
  split
  · rfl
  · next hending =>
    rw [List.find?_range'_eq_none]
    intro k hk hk'
    rw [Bool.not_eq_true', ← Bool.not_eq_true, List.isSuffixOf_iff_suffix]
    exact hclear hending k hk (by omega)

theorem firstEnding_spec (h : firstEnding ending whole = some stop) :
    0 < stop ∧ stop ≤ whole.length ∧ ending <:+ whole.take stop := by
  rw [firstEnding] at h
  split at h
  · cases h
  · rw [List.find?_range'_eq_some, List.mem_range'_1, List.isSuffixOf_iff_suffix] at h
    exact ⟨h.2.1.1, by omega, h.1⟩

/-- The result that goes on from what was got so far. -/
def Logical.finishUntil (t : Logical) (output : List UInt8) (maximum : Nat)
    (ending : List UInt8) : Option (List UInt8) × Logical :=
  let whole := output ++ t.rest.take (maximum - output.length)
  match firstEnding ending whole with
  | some stop =>
    (some (whole.take (stop - ending.length)), t.reach (stop - output.length) false)
  | none =>
    (if whole = [] then none else some whole,
      t.reach (whole.length - output.length) (decide (whole.length < maximum)))

/-- What the search knows: the ending is not in what was got so far. -/
structure Searching (t : Logical) (ending output : List UInt8) (matched maximum : Nat) : Prop where
  clear : ending ≠ [] → Clear ending output
  longest : ending ≠ [] → Longest ending output matched ∧ matched < ending.length
  length_le : output.length ≤ maximum
  not_ended : output.length = maximum → t.eof = false
  nonempty : 0 < maximum

theorem finishUntil_full (h : Searching t ending output matched maximum)
    (hfull : ¬ output.length < maximum) :
    t.finishUntil output maximum ending = (some output, t) := by
  have heq : output.length = maximum := Nat.le_antisymm h.length_le (Nat.le_of_not_lt hfull)
  have hne : output ≠ [] := by
    rintro rfl
    exact absurd h.nonempty (by rw [← heq]; exact Nat.lt_irrefl 0)
  have hwhole : output ++ t.rest.take (maximum - output.length) = output := by
    rw [heq, Nat.sub_self, List.take_zero, List.append_nil]
  simp only [Logical.finishUntil, hwhole, firstEnding_eq_none h.clear, if_neg hne,
    decide_eq_false hfull, Nat.sub_self]
  rw [Logical.reach_zero (h.not_ended heq)]

theorem finishUntil_ended (h : Searching t ending output matched maximum)
    (hlt : output.length < maximum) (hrest : t.rest = []) :
    t.finishUntil output maximum ending =
      (if output = [] then none else some output, t.reach 0 true) := by
  have hwhole : output ++ t.rest.take (maximum - output.length) = output := by
    rw [hrest, List.take_nil, List.append_nil]
  simp only [Logical.finishUntil, hwhole, firstEnding_eq_none h.clear, decide_eq_true hlt,
    Nat.sub_self]

theorem Takes.whole_eq (h : Takes t count bytes s) (hle : count ≤ maximum - output.length)
    (eof : Bool) : output ++ t.rest.take (maximum - output.length) =
      (output ++ bytes) ++ (t.reach bytes.length eof).rest.take
        (maximum - (output ++ bytes).length) := by
  rw [h.split hle eof, List.append_assoc, List.length_append, Nat.sub_add_eq]

/-- A piece in which the ending ends. -/
theorem finishUntil_found (h : Takes t count bytes s) (hle : count ≤ maximum - output.length)
    (hending : ending ≠ []) (hclear : Clear ending output) (hpos : 0 < stop)
    (hstop : stop ≤ bytes.length) (hsuffix : ending <:+ output ++ bytes.take stop)
    (hfresh : Fresh ending output bytes stop) :
    t.finishUntil output maximum ending =
      (some ((output ++ bytes.take stop).take ((output ++ bytes.take stop).length - ending.length)),
        t.reach stop false) := by
  have hlength : (output ++ bytes.take stop).length = output.length + stop := by
    rw [List.length_append, List.length_take, Nat.min_eq_left hstop]
  have htake : ∀ rest : List UInt8, ∀ k ≤ output.length + stop,
      ((output ++ bytes) ++ rest).take k = (output ++ bytes.take stop).take k := by
    intro rest k hk
    have hsplit : (output ++ bytes.take stop).take k =
        output.take k ++ (bytes.take stop).take (k - output.length) := List.take_append
    rw [List.append_assoc, List.take_append, hsplit]
    congr 1
    rw [List.take_append_of_le_length (by omega), List.take_take, Nat.min_eq_left (by omega)]
  have hfirst : firstEnding ending (output ++ t.rest.take (maximum - output.length)) =
      some (output.length + stop) := by
    rw [h.whole_eq hle false]
    apply firstEnding_eq_some hending
    · omega
    · rw [List.length_append, List.length_append]
      omega
    · rw [htake _ _ (Nat.le_refl _), ← hlength, List.take_length]
      exact hsuffix
    · intro k hk hk'
      rw [htake _ _ (Nat.le_of_lt hk')]
      by_cases hold : k ≤ output.length
      · rw [List.take_append_of_le_length hold]
        exact hclear k hk hold
      · have hnew := hfresh (k - output.length) (by omega) (by omega)
        rw [List.take_append, List.take_of_length_le (by omega), List.take_take,
          Nat.min_eq_left (by omega)]
        exact hnew
  simp only [Logical.finishUntil, hfirst, Nat.add_sub_cancel_left]
  rw [h.whole_eq hle false, htake _ _ (Nat.sub_le _ _), hlength]

/-- A piece in which it does not. -/
theorem finishUntil_more (h : Takes t count bytes s) (hle : count ≤ maximum - output.length)
    (hclear : ending ≠ [] → Clear ending (output ++ bytes)) :
    t.finishUntil output maximum ending =
      (t.reach bytes.length false).finishUntil (output ++ bytes) maximum ending := by
  have hwhole := h.whole_eq hle false
  simp only [Logical.finishUntil, hwhole]
  generalize hrest : (t.reach bytes.length false).rest.take
    (maximum - (output ++ bytes).length) = rest
  cases hfirst : firstEnding ending ((output ++ bytes) ++ rest) with
  | some stop =>
    obtain ⟨hpos, _, hsuffix⟩ := firstEnding_spec hfirst
    have hlate : (output ++ bytes).length < stop := by
      apply Nat.lt_of_not_le
      intro hearly
      have hending : ending ≠ [] := by
        rintro rfl
        cases hfirst
      rw [List.take_append_of_le_length hearly] at hsuffix
      exact hclear hending stop hpos hearly hsuffix
    rw [List.length_append] at hlate
    have hreach : bytes.length + (stop - (output ++ bytes).length) = stop - output.length := by
      rw [List.length_append]
      omega
    simp only [Logical.reach_reach, hreach]
  | none =>
    have hreach : bytes.length + ((output ++ bytes ++ rest).length - (output ++ bytes).length) =
        (output ++ bytes ++ rest).length - output.length := by
      simp only [List.length_append]
      omega
    simp only [Logical.reach_reach, hreach]

theorem Clear.append (h : Clear ending output)
    (hfresh : Fresh ending output bytes (bytes.length + 1)) : Clear ending (output ++ bytes) := by
  intro k hk hk'
  by_cases hold : k ≤ output.length
  · rw [List.take_append_of_le_length hold]
    exact h k hk hold
  · rw [List.length_append] at hk'
    rw [List.take_append, List.take_of_length_le (by omega)]
    exact hfresh (k - output.length) (by omega) (by omega)

end Endings

section Loops

theorem readUntilFrom_views (remaining : Nat) : ∀ {s : PhpStream} {t : Logical}
    {output : List UInt8} {matched : Nat}, Views s t →
    Searching t ending output matched maximum → maximum - output.length = remaining →
    SameLine (PhpStream.readUntilFrom ending (prefixTable ending) s output matched maximum)
      (t.finishUntil output maximum ending) := by
  induction remaining using Nat.strongRecOn with
  | ind remaining ih =>
    intro s t output matched h hsearch hremaining
    rw [PhpStream.readUntilFrom]
    by_cases hlt : output.length < maximum
    · rw [dif_pos hlt]
      have hcount : 0 < min 8192 (maximum - output.length) := by omega
      have htakes := h.readPrefetched hcount
      have hle : min 8192 (maximum - output.length) ≤ maximum - output.length :=
        Nat.min_le_right _ _
      cases hread : s.readPrefetched (min 8192 (maximum - output.length)) with
      | mk bytes s' =>
        rw [hread] at htakes
        cases bytes with
        | nil =>
          rw [finishUntil_ended hsearch hlt (htakes.ended rfl)]
          exact ⟨rfl, htakes.views.with_eof true⟩
        | cons byte bytes =>
          have hlength : (byte :: bytes).length ≤ maximum - output.length :=
            Nat.le_trans htakes.length_le hle
          have hpos : 0 < (byte :: bytes).length := Nat.succ_pos _
          have hshorter : maximum - (output ++ byte :: bytes).length < remaining := by
            rw [List.length_append]
            omega
          have hbound : (output ++ byte :: bytes).length ≤ maximum := by
            rw [List.length_append]
            omega
          by_cases hending : ending = []
          · rw [finishUntil_more htakes hle fun hne => absurd hending hne]
            simp only [if_pos hending]
            exact ih _ hshorter (htakes.views.with_eof false)
              ⟨fun hne => absurd hending hne, fun hne => absurd hending hne, hbound,
                fun _ => rfl, hsearch.nonempty⟩ rfl
          · simp only [if_neg hending]
            obtain ⟨hlongest, hmatched⟩ := hsearch.longest hending
            have hfind := findEnding_spec (prefixTable_bordered ending) (byte :: bytes) output
              matched hlongest hmatched
            cases hfound : findEnding ending (prefixTable ending) (byte :: bytes) matched with
            | mk found matched' =>
              rw [hfound] at hfind
              cases found with
              | some stop =>
                obtain ⟨hfirst, hlast, hsuffix, hfresh⟩ := hfind
                rw [finishUntil_found htakes hle hending (hsearch.clear hending) hfirst hlast
                  hsuffix hfresh]
                exact ⟨rfl, htakes.putBack_drop h.behind hlast⟩
              | none =>
                obtain ⟨hlongest', hmatched', hfresh⟩ := hfind
                have hclear := (hsearch.clear hending).append hfresh
                rw [finishUntil_more htakes hle fun _ => hclear]
                exact ih _ hshorter (htakes.views.with_eof false)
                  ⟨fun _ => hclear, fun _ => ⟨hlongest', hmatched'⟩, hbound, fun _ => rfl,
                    hsearch.nonempty⟩ rfl
    · rw [dif_neg hlt, finishUntil_full hsearch hlt]
      exact ⟨rfl, h⟩

theorem clear_nil (ending : List UInt8) : Clear ending [] := by
  intro k hk hk'
  exact absurd hk (Nat.not_lt.mpr hk')

theorem readUntil_views (h : Views s t) (maximum : Nat) (ending : List UInt8) :
    SameLine (PhpStream.readUntilFrom ending (prefixTable ending) s [] 0 maximum)
      (t.readUntilMax maximum ending) := by
  by_cases hzero : maximum = 0
  · subst hzero
    rw [PhpStream.readUntilFrom, Logical.readUntilMax, if_pos rfl]
    exact ⟨rfl, h⟩
  · have hmaximum := Nat.pos_of_ne_zero hzero
    have hsearch : Searching t ending [] 0 maximum :=
      ⟨fun _ => clear_nil ending, fun hne => ⟨longest_nil ending, List.length_pos_of_ne_nil hne⟩,
        Nat.zero_le _, fun heq => absurd hmaximum (Nat.not_lt.mpr (Nat.le_of_eq heq.symm)),
        hmaximum⟩
    have hresult : t.readUntilMax maximum ending = t.finishUntil [] maximum ending := by
      rw [Logical.readUntilMax, if_neg hzero]
      rfl
    rw [hresult]
    exact readUntilFrom_views _ h hsearch rfl

/-- The chunks of a long read are those of one read. -/
theorem readContentsFrom_views (remaining : Nat) : ∀ {s : PhpStream} {t : Logical}
    {output : List UInt8}, Views s t → output.length ≤ maximum →
    (output.length = maximum → t.eof = false) → maximum - output.length = remaining →
    (s.readContentsFrom output maximum).1 =
        output ++ t.rest.take (maximum - output.length) ∧
      Views (s.readContentsFrom output maximum).2
        (t.reach (t.rest.take (maximum - output.length)).length
          (decide ((t.rest.take (maximum - output.length)).length < maximum - output.length))) := by
  induction remaining using Nat.strongRecOn with
  | ind remaining ih =>
    intro s t output h hle heof hremaining
    rw [PhpStream.readContentsFrom]
    by_cases hlt : output.length < maximum
    · rw [dif_pos hlt]
      have hcount : min 8192 (maximum - output.length) ≠ 0 := by omega
      have hmin : min 8192 (maximum - output.length) ≤ maximum - output.length :=
        Nat.min_le_right _ _
      obtain ⟨hbytes, hviews⟩ := readBytes_views h (min 8192 (maximum - output.length))
      simp only [Logical.readBytes, if_neg hcount] at hbytes hviews
      generalize min 8192 (maximum - output.length) = count at hcount hmin hbytes hviews ⊢
      have hfront : t.rest.take count <+: t.rest := List.take_prefix _ _
      have hshort : (t.rest.take count).length ≤ count := List.length_take_le _ _
      rw [← hbytes] at hviews hfront hshort
      cases hread : s.readBytes count with
      | mk bytes s' =>
        rw [hread] at hbytes hviews hfront hshort
        simp only at hbytes hviews hfront hshort
        cases bytes with
        | nil =>
          have hrest : t.rest = [] := by
            apply List.length_eq_zero_iff.mp
            have hlength := congrArg List.length hbytes
            simp only [List.length_take, List.length_nil] at hlength
            omega
          have hpos : 0 < maximum - output.length := Nat.sub_pos_of_lt hlt
          have hended : decide (([] : List UInt8).length < count) = true :=
            decide_eq_true (Nat.pos_of_ne_zero hcount)
          rw [hended] at hviews
          rw [hrest, List.take_nil, List.append_nil, List.length_nil, decide_eq_true hpos]
          exact ⟨rfl, hviews⟩
        | cons byte bytes =>
          have hle' : (byte :: bytes).length ≤ maximum - output.length := Nat.le_trans hshort hmin
          have hpos : 0 < (byte :: bytes).length := Nat.succ_pos _
          have hlength : (output ++ byte :: bytes).length =
              output.length + (byte :: bytes).length := List.length_append
          have hsub : maximum - output.length - (byte :: bytes).length =
              maximum - (output ++ byte :: bytes).length := by omega
          have hrest := ih (maximum - (output ++ byte :: bytes).length) (by omega) hviews
            (by omega) ?_ rfl
          · rw [Logical.reach_reach] at hrest
            rw [Logical.split_rest hfront hle' (decide ((byte :: bytes).length < count)), hsub,
              ← List.append_assoc]
            generalize (t.reach (byte :: bytes).length
              (decide ((byte :: bytes).length < count))).rest.take
                (maximum - (output ++ byte :: bytes).length) = rest at hrest ⊢
            have hdecide : decide ((byte :: bytes ++ rest).length < maximum - output.length) =
                decide (rest.length < maximum - (output ++ byte :: bytes).length) := by
              apply decide_eq_decide.mpr
              rw [List.length_append]
              omega
            have hsum : (byte :: bytes ++ rest).length = (byte :: bytes).length + rest.length :=
              List.length_append
            rw [hdecide, hsum]
            exact hrest
          · intro hfull
            apply decide_eq_false
            omega
    · have hzero : maximum - output.length = 0 := by omega
      have heq : output.length = maximum := by omega
      have hsame : t.reach 0 (decide (0 < 0)) = t := Logical.reach_zero (heof heq)
      rw [dif_neg hlt, hzero, List.take_zero, List.append_nil, List.length_nil, hsame]
      exact ⟨rfl, h⟩

theorem readContents_views (h : Views s t) (maximum : Nat) :
    (s.readContentsFrom [] maximum).1 = (t.readBytes maximum).1 ∧
      Views (s.readContentsFrom [] maximum).2 (t.readBytes maximum).2 := by
  by_cases hzero : maximum = 0
  · subst hzero
    rw [PhpStream.readContentsFrom, Logical.readBytes, if_pos rfl]
    exact ⟨rfl, h⟩
  · have hloop := readContentsFrom_views (maximum - ([] : List UInt8).length) h (Nat.zero_le _)
      (fun heq => absurd heq.symm hzero) rfl
    rw [List.nil_append, List.length_nil, Nat.sub_zero] at hloop
    simp only [Logical.readBytes, if_neg hzero]
    exact hloop

end Loops

end Rphp.Stream
