import Rphp.Regex.Matcher

set_option autoImplicit true

namespace Rphp.Regex

section FixedLength

/-- The groups a parser has recorded when it validates the lookbehinds. -/
structure ParserGroups where
  subpatternsByIndex : List (Nat × Node)
  namedGroups : GroupName → Option Nat

/-- The length of an alternation whose branches have one length. -/
def commonLength : Option Nat → List (Option Nat) → Option Nat
  | acc, [] => some (acc.getD 0)
  | _, none :: _ => none
  | none, some length :: lengths => commonLength (some length) lengths
  | some acc, some length :: lengths =>
    if acc = length then commonLength (some acc) lengths else none

def sumLengths (acc : Nat) : List (Option Nat) → Option Nat
  | [] => some acc
  | none :: _ => none
  | some length :: lengths =>
    match checkedAdd acc length with
    | some total => sumLengths total lengths
    | none => none

mutual

/-- The length of a node when that of the group at an index is known. -/
def fixedLengthWith (named : GroupName → Option Nat) (indexed : Nat → Option Nat) :
    Node → Option Nat
  | .literal _ | .anyChar | .byteUnit | .notNewline | .charClass .. | .shorthand _ => some 1
  | .graphemeCluster | .linebreak => none
  | .anchor _ | .wordBoundary _ | .lookahead .. | .lookbehind .. | .mark _ | .control ..
  | .resetStart | .captureEnd .. | .captureRestore _ => some 0
  | .sequence nodes => sumLengths 0 (fixedLengthsWith named indexed nodes)
  | .alternation branches => commonLength none (fixedLengthsWith named indexed branches)
  | .quantifier inner min max _ _ =>
    if max = some min then
      match fixedLengthWith named indexed inner with
      | some length => checkedMul length min
      | none => none
    else none
  | .group _ inner | .atomic inner | .scriptRun inner _ | .localFlags _ inner =>
    fixedLengthWith named indexed inner
  | .backreference index => indexed index
  | .namedBackreference n => (named n).bind indexed
  | .conditional _ yes none =>
    match fixedLengthWith named indexed yes with
    | some 0 => some 0
    | _ => none
  | .conditional _ yes (some no) =>
    match fixedLengthWith named indexed yes, fixedLengthWith named indexed no with
    | some yes, some no => if yes = no then some yes else none
    | _, _ => none
  | .subroutine .wholePattern => none
  | .subroutine (.group index) => indexed index
  | .subroutine (.name n) => (named n).bind indexed

def fixedLengthsWith (named : GroupName → Option Nat) (indexed : Nat → Option Nat) :
    List Node → List (Option Nat)
  | [] => []
  | node :: nodes => fixedLengthWith named indexed node :: fixedLengthsWith named indexed nodes

end

namespace ParserGroups

variable (P : ParserGroups)

/-- The groups under visit are refused; the bound on the nested lookups is never reached when
it is at least the number of the groups. -/
def fixedLength : Nat → List Nat → Node → Option Nat
  | 0, _ => fixedLengthWith P.namedGroups fun _ => none
  | lookups + 1, visiting => fixedLengthWith P.namedGroups fun index =>
    if index ∈ visiting then none
    else (P.subpatternsByIndex.lookup index).bind (fixedLength lookups (index :: visiting))

/-- Top-level alternatives may have different fixed lengths. -/
def validateLookbehind (body : Node) : Bool :=
  let length := P.fixedLength P.subpatternsByIndex.length []
  match body with
  | .alternation branches => branches.all fun branch => (length branch).isSome
  | body => (length body).isSome

end ParserGroups

/-- The branches that may have different lengths. -/
def Node.topAlternatives : Node → List Node
  | .alternation branches => branches
  | body => [body]

end FixedLength

section Language

/-- A number of steps in a row. -/
def Repeats (step : Nat → Nat → Prop) : Nat → Nat → Nat → Prop
  | 0, i, j => i = j
  | n + 1, i, j => ∃ k, step i k ∧ Repeats step n k j

variable (T : CharTables) (chars : List Char) (advancing : Bool)

mutual

/-- Whether a pattern of literals, classes, groups and repetitions matches the subject between
two positions. With `advancing`, a repetition taken twice or more has to consume something. -/
def Node.Spans (flags : RegexFlags) : Node → Nat → Nat → Prop
  | .literal c, i, j => chars[i]?.any (charsEqual T · c flags) ∧ j = i + 1
  | .anyChar, i, j => anyCharMatches chars i flags ∧ j = i + 1
  | .byteUnit, i, j => chars[i]?.isSome ∧ j = i + 1
  | .notNewline, i, j => notNewlineMatches chars i flags ∧ j = i + 1
  | .charClass negated items, i, j =>
    chars[i]?.any (classMatches T negated items · flags) ∧ j = i + 1
  | .shorthand sh, i, j =>
    chars[i]?.any (matchShorthand T sh · flags.unicodeMode.ucp) ∧ j = i + 1
  | .sequence nodes, i, j => SpansAll flags nodes i j
  | .alternation branches, i, j => SpansAny flags branches i j
  | .group _ inner, i, j => inner.Spans flags i j
  | .atomic inner, i, j => inner.Spans flags i j
  | .localFlags l inner, i, j => inner.Spans (flags.withLocal l) i j
  | .quantifier inner min max _ _, i, j =>
    ∃ n, min ≤ n ∧ (∀ m ∈ max, n ≤ m) ∧ (advancing → 2 ≤ n → i ≠ j) ∧
      Repeats (fun i j => inner.Spans flags i j) n i j
  | .captureEnd _ _, i, j => i = j
  | _, _, _ => False

def SpansAll (flags : RegexFlags) : List Node → Nat → Nat → Prop
  | [], i, j => i = j
  | node :: nodes, i, j => ∃ k, node.Spans flags i k ∧ SpansAll flags nodes k j

def SpansAny (flags : RegexFlags) : List Node → Nat → Nat → Prop
  | [], _, _ => False
  | node :: nodes, i, j => node.Spans flags i j ∨ SpansAny flags nodes i j

end

end Language

section Lengths

theorem checkedAdd_eq_some : checkedAdd a b = some c ↔ a + b ≤ usizeMax ∧ a + b = c := by
  simp [checkedAdd]

theorem checkedMul_eq_some : checkedMul a b = some c ↔ a * b ≤ usizeMax ∧ a * b = c := by
  simp [checkedMul]

theorem sumLengths_cons : sumLengths acc (length :: lengths) = some total ↔
    ∃ n, length = some n ∧ acc + n ≤ usizeMax ∧ sumLengths (acc + n) lengths = some total := by
  cases length with
  | none => simp [sumLengths]
  | some n =>
    by_cases h : acc + n ≤ usizeMax
    · simp [sumLengths, checkedAdd, h]
    · simp [sumLengths, checkedAdd, h]

theorem commonLength_some_cons : commonLength (some n) (length :: lengths) = some total ↔
    length = some n ∧ commonLength (some n) lengths = some total := by
  cases length with
  | none => simp [commonLength]
  | some m =>
    by_cases h : n = m
    · simp [commonLength, h]
    · simp [commonLength, h, Ne.symm h]

theorem commonLength_some (h : commonLength (some n) lengths = some total) : total = n := by
  induction lengths with
  | nil => simpa [commonLength, eq_comm] using h
  | cons length lengths ih => exact ih (commonLength_some_cons.mp h).2

/-- Every branch of an alternation of one length has that length. -/
theorem commonLength_cons (hacc : acc = none ∨ acc = some total)
    (h : commonLength acc (length :: lengths) = some total) :
    length = some total ∧ commonLength (some total) lengths = some total := by
  rcases hacc with rfl | rfl
  · cases length with
    | none => simp [commonLength] at h
    | some n =>
      have h : commonLength (some n) lengths = some total := h
      obtain rfl := commonLength_some h
      exact ⟨rfl, h⟩
  · exact commonLength_some_cons.mp h

theorem Repeats.length {step : Nat → Nat → Prop} (hstep : ∀ i j, step i j → j = i + n)
    (h : Repeats step k i j) : j = i + n * k := by
  induction k generalizing i with
  | zero => exact h.symm
  | succ k ih =>
    obtain ⟨m, hm, hrest⟩ := h
    rw [ih hrest, hstep i m hm, Nat.mul_succ]
    omega

variable {named : GroupName → Option Nat} {indexed : Nat → Option Nat}

theorem fixedLengthWith_quantifier {inner : Node} {min : Nat} {max : Option Nat}
    (h : fixedLengthWith named indexed (.quantifier inner min max greedy possessive) = some n) :
    max = some min ∧ ∃ m, fixedLengthWith named indexed inner = some m ∧ n = m * min := by
  simp only [fixedLengthWith] at h
  split at h
  · rename_i hfixed
    split at h
    · rename_i m hm
      exact ⟨hfixed, m, hm, (checkedMul_eq_some.mp h).2.symm⟩
    · cases h
  · cases h

section Spans

variable {T : CharTables} {chars : List Char} {advancing : Bool} {flags : RegexFlags}

mutual

/-- What a node of fixed length matches has that length. -/
theorem spans_length {flags : RegexFlags} : ∀ (node : Node) {n i j : Nat},
    fixedLengthWith named indexed node = some n → node.Spans T chars advancing flags i j →
      j = i + n
  | .literal _, _, _, _, hn, h | .anyChar, _, _, _, hn, h | .byteUnit, _, _, _, hn, h
  | .notNewline, _, _, _, hn, h | .charClass .., _, _, _, hn, h
  | .shorthand _, _, _, _, hn, h => by
    cases hn
    exact h.2
  | .sequence nodes, _, _, _, hn, h => by
    have := spansAll_length nodes hn h
    omega
  | .alternation branches, _, _, _, hn, h => spansAny_length branches (.inl rfl) hn h
  | .group _ inner, _, _, _, hn, h => spans_length inner hn h
  | .atomic inner, _, _, _, hn, h => spans_length inner hn h
  | .localFlags _ inner, _, _, _, hn, h => spans_length inner hn h
  | .quantifier inner min _ _ _, _, _, _, hn, h => by
    obtain ⟨k, hmin, hmax, -, hrep⟩ := h
    obtain ⟨rfl, m, hm, rfl⟩ := fixedLengthWith_quantifier hn
    obtain rfl : k = min := Nat.le_antisymm (hmax min rfl) hmin
    exact hrep.length fun _ _ hs => spans_length inner hm hs
  | .captureEnd _ _, _, _, _, hn, h => by
    cases hn
    exact h.symm

theorem spansAll_length {flags : RegexFlags} : ∀ (nodes : List Node) {acc n i j : Nat},
    sumLengths acc (fixedLengthsWith named indexed nodes) = some n →
    SpansAll T chars advancing flags nodes i j → j + acc = i + n
  | [], _, _, _, _, hn, h => by
    cases hn
    have h : _ = _ := h
    omega
  | node :: nodes, _, _, _, _, hn, h => by
    obtain ⟨m, hm, -, hrest⟩ := sumLengths_cons.mp hn
    obtain ⟨k, hk, hnodes⟩ := h
    have := spans_length node hm hk
    have := spansAll_length nodes hrest hnodes
    omega

theorem spansAny_length {flags : RegexFlags} : ∀ (branches : List Node) {acc : Option Nat}
    {n i j : Nat}, acc = none ∨ acc = some n →
    commonLength acc (fixedLengthsWith named indexed branches) = some n →
    SpansAny T chars advancing flags branches i j → j = i + n
  | [], _, _, _, _, _, _, h => h.elim
  | branch :: branches, _, _, _, _, hacc, hn, h => by
    obtain ⟨hm, hrest⟩ := commonLength_cons hacc hn
    rcases h with h | h
    · exact spans_length branch hm h
    · exact spansAny_length branches (.inr rfl) hrest h

end

theorem Repeats.mono {step step' : Nat → Nat → Prop} (hstep : ∀ i j, step i j → step' i j)
    (h : Repeats step k i j) : Repeats step' k i j := by
  induction k generalizing i with
  | zero => exact h
  | succ k ih =>
    obtain ⟨m, hm, hrest⟩ := h
    exact ⟨m, hstep i m hm, ih hrest⟩

mutual

/-- Repetitions that consume something are repetitions. -/
theorem spans_of_advancing {flags : RegexFlags} : ∀ (node : Node) {i j : Nat},
    node.Spans T chars true flags i j → node.Spans T chars false flags i j
  | .literal _, _, _, h | .anyChar, _, _, h | .byteUnit, _, _, h | .notNewline, _, _, h
  | .charClass .., _, _, h | .shorthand _, _, _, h | .captureEnd _ _, _, _, h => h
  | .sequence nodes, _, _, h => spansAll_of_advancing nodes h
  | .alternation branches, _, _, h => spansAny_of_advancing branches h
  | .group _ inner, _, _, h => spans_of_advancing inner h
  | .atomic inner, _, _, h => spans_of_advancing inner h
  | .localFlags _ inner, _, _, h => spans_of_advancing inner h
  | .quantifier inner _ _ _ _, _, _, h => by
    obtain ⟨n, hmin, hmax, -, hrep⟩ := h
    exact ⟨n, hmin, hmax, nofun, hrep.mono fun _ _ hs => spans_of_advancing inner hs⟩

theorem spansAll_of_advancing {flags : RegexFlags} : ∀ (nodes : List Node) {i j : Nat},
    SpansAll T chars true flags nodes i j → SpansAll T chars false flags nodes i j
  | [], _, _, h => h
  | node :: nodes, _, _, h => by
    obtain ⟨k, hk, hrest⟩ := h
    exact ⟨k, spans_of_advancing node hk, spansAll_of_advancing nodes hrest⟩

theorem spansAny_of_advancing {flags : RegexFlags} : ∀ (nodes : List Node) {i j : Nat},
    SpansAny T chars true flags nodes i j → SpansAny T chars false flags nodes i j
  | [], _, _, h => h
  | node :: nodes, _, _, h => h.imp (spans_of_advancing node) (spansAny_of_advancing nodes)

end

theorem spansAny_iff :
    SpansAny T chars advancing flags nodes i j ↔
      ∃ node ∈ nodes, node.Spans T chars advancing flags i j := by
  induction nodes with
  | nil => simp [SpansAny]
  | cons node nodes ih => simp [SpansAny, ih]

theorem spansAll_append :
    SpansAll T chars advancing flags (nodes ++ nodes') i j ↔
      ∃ k, SpansAll T chars advancing flags nodes i k ∧
        SpansAll T chars advancing flags nodes' k j := by
  induction nodes generalizing i with
  | nil => simp [SpansAll]
  | cons node nodes ih =>
    simp only [List.cons_append, SpansAll, ih]
    grind

@[simp] theorem spansAll_singleton :
    SpansAll T chars advancing flags [node] i j ↔ node.Spans T chars advancing flags i j := by
  simp [SpansAll]

theorem spans_iff_topAlternatives {body : Node} :
    body.Spans T chars advancing flags i j ↔
      ∃ branch ∈ body.topAlternatives, branch.Spans T chars advancing flags i j := by
  cases body <;> simp [Node.topAlternatives, Node.Spans, spansAny_iff]

end Spans

section Window

mutual

/-- The range of a node of fixed length has one member. -/
theorem nodeLengthRange_of_fixedLength : ∀ (node : Node) {n : Nat} {range : Nat × Nat},
    fixedLengthWith named indexed node = some n → nodeLengthRange node = some range →
      range = (n, n)
  | .literal _, _, _, hn, h | .anyChar, _, _, hn, h | .byteUnit, _, _, hn, h
  | .notNewline, _, _, hn, h | .charClass .., _, _, hn, h | .shorthand _, _, _, hn, h
  | .anchor _, _, _, hn, h | .wordBoundary _, _, _, hn, h | .lookahead .., _, _, hn, h
  | .lookbehind .., _, _, hn, h | .mark _, _, _, hn, h | .control .., _, _, hn, h
  | .resetStart, _, _, hn, h | .captureEnd .., _, _, hn, h
  | .captureRestore _, _, _, hn, h => by
    cases hn
    cases h
    rfl
  | .sequence nodes, _, _, hn, h => sequenceLengthRange_of_fixedLength nodes hn h
  | .alternation branches, _, _, hn, h =>
    alternationLengthRange_of_fixedLength branches (.inl ⟨rfl, rfl⟩) hn h
  | .group _ inner, _, _, hn, h | .atomic inner, _, _, hn, h | .scriptRun inner _, _, _, hn, h
  | .localFlags _ inner, _, _, hn, h => nodeLengthRange_of_fixedLength inner hn h
  | .quantifier inner min _ _ _, _, _, hn, h => by
    obtain ⟨rfl, m, hm, rfl⟩ := fixedLengthWith_quantifier hn
    simp only [nodeLengthRange] at h
    split at h
    · rename_i lo hi hrange
      obtain ⟨rfl, rfl⟩ : lo = m ∧ hi = m := by
        simpa using nodeLengthRange_of_fixedLength inner hm hrange
      split at h
      · rename_i a b ha hb
        rw [← (checkedMul_eq_some.mp ha).2, ← (checkedMul_eq_some.mp hb).2] at h
        simpa using h.symm
      · cases h
    · cases h
  | .conditional _ yes none, _, _, hn, h => by
    simp only [fixedLengthWith] at hn
    split at hn
    · rename_i hyes
      cases hn
      simp only [nodeLengthRange, optionalLengthRange] at h
      split at h
      · rename_i hrange hno
        cases hno
        cases nodeLengthRange_of_fixedLength yes hyes hrange
        simpa using h.symm
      · cases h
    · cases hn
  | .conditional _ yes (some no), _, _, hn, h => by
    simp only [fixedLengthWith] at hn
    split at hn
    · rename_i a b hyes hno
      split at hn
      · rename_i hab
        cases hn
        simp only [nodeLengthRange, optionalLengthRange] at h
        split at h
        · rename_i hyesRange hnoRange
          cases nodeLengthRange_of_fixedLength yes hyes hyesRange
          cases nodeLengthRange_of_fixedLength no hno hnoRange
          simpa [hab] using h.symm
        · cases h
      · cases hn
    · cases hn
  | .backreference _, _, _, _, h | .namedBackreference _, _, _, _, h
  | .graphemeCluster, _, _, _, h | .linebreak, _, _, _, h | .subroutine _, _, _, _, h => by
    cases h

theorem sequenceLengthRange_of_fixedLength : ∀ (nodes : List Node) {acc n : Nat}
    {range : Nat × Nat}, sumLengths acc (fixedLengthsWith named indexed nodes) = some n →
    sequenceLengthRange (acc, acc) nodes = some range → range = (n, n)
  | [], _, _, _, hn, h => by
    cases hn
    cases h
    rfl
  | node :: nodes, acc, _, _, hn, h => by
    obtain ⟨m, hm, -, hrest⟩ := sumLengths_cons.mp hn
    simp only [sequenceLengthRange] at h
    split at h
    · rename_i lo hi hrange
      obtain ⟨rfl, rfl⟩ : lo = m ∧ hi = m := by
        simpa using nodeLengthRange_of_fixedLength node hm hrange
      split at h
      · rename_i total htotal
        obtain rfl := (checkedAdd_eq_some.mp htotal).2
        exact sequenceLengthRange_of_fixedLength nodes hrest h
      · cases h
    · cases h

theorem alternationLengthRange_of_fixedLength : ∀ (branches : List Node) {acc : Option Nat}
    {range : Option (Nat × Nat)} {n : Nat} {total : Nat × Nat},
    (acc = none ∧ range = none) ∨ (acc = some n ∧ range = some (n, n)) →
    commonLength acc (fixedLengthsWith named indexed branches) = some n →
    alternationLengthRange range branches = some total → total = (n, n)
  | [], _, _, _, _, hacc, hn, h => by
    rcases hacc with ⟨rfl, rfl⟩ | ⟨rfl, rfl⟩
    · cases h
    · simpa [alternationLengthRange, eq_comm] using h
  | branch :: branches, _, _, n, _, hacc, hn, h => by
    obtain ⟨hm, hrest⟩ := commonLength_cons (hacc.imp And.left And.left) hn
    simp only [alternationLengthRange] at h
    split at h
    · rename_i lo hi hrange
      obtain ⟨rfl, rfl⟩ : lo = n ∧ hi = n := by
        simpa using nodeLengthRange_of_fixedLength branch hm hrange
      refine alternationLengthRange_of_fixedLength branches (.inr ⟨rfl, ?_⟩) hrest h
      rcases hacc with ⟨-, rfl⟩ | ⟨-, rfl⟩
      · rfl
      · simp
    · cases h

end

/-- The range of an alternation covers that of what came before and of every branch. -/
theorem alternationLengthRange_covers {branches : List Node} {acc : Option (Nat × Nat)}
    (h : alternationLengthRange acc branches = some total) :
    (∀ range, acc = some range → total.1 ≤ range.1 ∧ range.2 ≤ total.2) ∧
      ∀ branch ∈ branches, ∃ range, nodeLengthRange branch = some range ∧
        total.1 ≤ range.1 ∧ range.2 ≤ total.2 := by
  induction branches generalizing acc with
  | nil =>
    have h : acc = some total := h
    simp [h]
  | cons branch branches ih =>
    simp only [alternationLengthRange] at h
    split at h
    · rename_i lo hi hrange
      obtain ⟨hacc, hbranches⟩ := ih h
      cases acc with
      | none =>
        have := hacc _ rfl
        refine ⟨nofun, List.forall_mem_cons.mpr ⟨⟨_, hrange, this⟩, hbranches⟩⟩
      | some range =>
        have := hacc _ rfl
        simp only [Nat.le_min, Nat.max_le] at this
        refine ⟨?_, List.forall_mem_cons.mpr
          ⟨⟨_, hrange, this.1.2, this.2.2⟩, hbranches⟩⟩
        rintro _ ⟨⟩
        exact ⟨this.1.1, this.2.1⟩
    · cases h

/-- The window of starts holds every start from which an alternative reaches the position. -/
theorem mem_lookbehindStarts {body : Node} (hbranch : branch ∈ body.topAlternatives)
    (hn : fixedLengthWith named indexed branch = some n) (hpos : pos = start + n) :
    start ∈ lookbehindStarts body pos := by
  have hwindow : ∀ lo hi, (nodeLengthRange body).getD (0, pos) = (lo, hi) → lo ≤ n ∧ n ≤ hi := by
    intro lo hi hrange
    cases hbody : nodeLengthRange body with
    | none =>
      obtain ⟨rfl, rfl⟩ : 0 = lo ∧ pos = hi := by simpa [hbody] using hrange
      omega
    | some range =>
      obtain rfl : range = (lo, hi) := by simpa [hbody] using hrange
      cases body with
      | alternation branches =>
        obtain ⟨-, hcovers⟩ := alternationLengthRange_covers hbody
        obtain ⟨range, hrange, hlo, hhi⟩ := hcovers branch hbranch
        cases nodeLengthRange_of_fixedLength branch hn hrange
        exact ⟨hlo, hhi⟩
      | _ =>
        obtain rfl := List.mem_singleton.mp hbranch
        obtain ⟨rfl, rfl⟩ : lo = n ∧ hi = n := by
          simpa using nodeLengthRange_of_fixedLength _ hn hbody
        exact ⟨le_rfl, le_rfl⟩
  obtain ⟨lo, hi, hrange⟩ : ∃ lo hi, (nodeLengthRange body).getD (0, pos) = (lo, hi) :=
    ⟨_, _, rfl⟩
  have hbounds := hwindow lo hi hrange
  simp only [lookbehindStarts, hrange, List.mem_reverse, List.mem_range'_1]
  omega

end Window

end Lengths

end Rphp.Regex
