import Rphp.Lib.Bytes
import Rphp.Stdlib.Random.JumpInverse

namespace Rphp.Stdlib.Random
open Rphp.Lib
set_option autoImplicit true

/-! The native random engine `Xoshiro256StarStar`. -/

/-- The private state of an engine. -/
abbrev State := Registers 64

section Seeds

def splitMix (seed : BitVec 64) : BitVec 64 :=
  let mixed := (seed ^^^ (seed >>> (30 : Nat))) * 0xbf58476d1ce4e5b9#64
  let mixed := (mixed ^^^ (mixed >>> (27 : Nat))) * 0x94d049bb133111eb#64
  mixed ^^^ (mixed >>> (31 : Nat))

def State.integer (seed : BitVec 64) : State :=
  let seed0 := seed + 0x9e3779b97f4a7c15#64
  let seed1 := seed0 + 0x9e3779b97f4a7c15#64
  let seed2 := seed1 + 0x9e3779b97f4a7c15#64
  let seed3 := seed2 + 0x9e3779b97f4a7c15#64
  ⟨splitMix seed0, splitMix seed1, splitMix seed2, splitMix seed3⟩

def wordAt (bytes : List UInt8) (index : Nat) : BitVec 64 :=
  BitVec.ofNat 64 (ofBytes .little ((bytes.drop (8 * index)).take 8))

def State.bytes (bytes : List UInt8) : Option State :=
  if bytes.length ≠ 32 then none
  else
    let words : State := ⟨wordAt bytes 0, wordAt bytes 1, wordAt bytes 2, wordAt bytes 3⟩
    if words.w0 ≠ 0#64 ∨ words.w1 ≠ 0#64 ∨ words.w2 ≠ 0#64 ∨ words.w3 ≠ 0#64 then some words
    else none

end Seeds

section Steps

/-- The bytes of the next number, and the state behind it. -/
def State.next (s : State) : List UInt8 × State :=
  let output := ((s.w1 * 5#64).rotateLeft 7) * 9#64
  let shifted := s.w1 <<< (17 : Nat)
  let w2 := s.w2 ^^^ s.w0
  let w3 := s.w3 ^^^ s.w1
  let w1 := s.w1 ^^^ w2
  let w0 := s.w0 ^^^ w3
  (toBytes .little 8 output.toNat, ⟨w0, w1, w2 ^^^ shifted, w3.rotateLeft 45⟩)

def State.jumpBy (polynomial : List (BitVec 64)) (s : State) : State :=
  Registers.jump (fun s : State => s.next.2) polynomial s

def jumpPolynomial : List (BitVec 64) :=
  [0x180ec6d33cfd0aba#64, 0xd5a61266f0c9392c#64, 0xa9582618e03fc9aa#64, 0x39abdc4529b1661c#64]

def jumpLongPolynomial : List (BitVec 64) :=
  [0x76e15d3efefdcbbf#64, 0xc5004e441c522fb3#64, 0x77710069854ee241#64, 0x39109bb02acbe635#64]

end Steps

section Serialization

inductive DataKey
  | int (key : Int)
  | string (name : List UInt8)
  deriving DecidableEq, Repr

/-- The values that serialized data can hold; what is neither a string nor an array is of no use to
an engine. -/
inductive Data
  | string (bytes : List UInt8)
  | array (entries : List (DataKey × Data))
  | other

def Data.asArray : Data → Option (List (DataKey × Data))
  | .array entries => some entries
  | _ => none

def Data.asStr : Data → Option (List UInt8)
  | .string bytes => some bytes
  | _ => none

def getInt (entries : List (DataKey × Data)) (key : Int) : Option Data :=
  (entries.find? fun entry => entry.1 = .int key).map Prod.snd

def swapBytes (word : BitVec 64) : Nat := ofBytes .big (toBytes .little 8 word.toNat)

def projectedWord (word : BitVec 64) : Data := .string (toHex 16 (swapBytes word))

def State.projection (s : State) : Data :=
  .array [(.int 0, projectedWord s.w0), (.int 1, projectedWord s.w1), (.int 2, projectedWord s.w2),
    (.int 3, projectedWord s.w3)]

def serialize (s : State) : Data := .array [(.int 0, .array []), (.int 1, s.projection)]

/-- The bytes of one word of serialized data. -/
def wordBytes (words : List (DataKey × Data)) (index : Int) : Option (List UInt8) := do
  let hex ← (← getInt words index).asStr
  if hex.length ≠ 16 ∨ ¬ hex.all (fun digit => (hexValue digit).isSome) then none
  else
    let word ← ofHex hex
    if word < 2 ^ 64 then some (toBytes .big 8 word) else none

def unserializeState (data : Data) : Option State := do
  let data ← data.asArray
  if data.length ≠ 2 ∨ ¬ (← (← getInt data 0).asArray).isEmpty then none
  else
    let words ← (← getInt data 1).asArray
    if words.length ≠ 4 then none
    else
      let bytes0 ← wordBytes words 0
      let bytes1 ← wordBytes words 1
      let bytes2 ← wordBytes words 2
      let bytes3 ← wordBytes words 3
      State.bytes (bytes0 ++ bytes1 ++ bytes2 ++ bytes3)

structure Thrown where
  className : String
  message : String
  deriving DecidableEq, Repr

def unserialize (data : Data) : Except Thrown State :=
  match unserializeState data with
  | some state => .ok state
  | none => .error
      ⟨"Exception", "Invalid serialization data for Random\\Engine\\Xoshiro256StarStar object"⟩

end Serialization

section Construction

/-- The seeds that a script can give. -/
inductive Seed
  | long (n : BitVec 64)
  | string (bytes : List UInt8)

def construct : Seed → Except Thrown State
  | .long n => .ok (State.integer n)
  | .string bytes =>
    if bytes.length ≠ 32 then
      .error ⟨"ValueError", "Random\\Engine\\Xoshiro256StarStar::__construct(): " ++
        "Argument #1 ($seed) must be a 32 byte (256 bit) string"⟩
    else
      match State.bytes bytes with
      | some state => .ok state
      | none =>
        .error ⟨"ValueError", "Random\\Engine\\Xoshiro256StarStar::__construct(): " ++
          "Argument #1 ($seed) must not consist entirely of NUL bytes"⟩

/-- Where the state of an engine comes from. -/
inductive Origin
  | constructed (seed : Seed)
  | unserialized (data : Data)

def Origin.start : Origin → Except Thrown State
  | .constructed seed => construct seed
  | .unserialized data => unserialize data

end Construction

section Runs

inductive Op
  | next
  | jump
  | jumpLong
  | reserialize
  deriving DecidableEq, Repr

def step : Op → State → Except Thrown State
  | .next, s => .ok s.next.2
  | .jump, s => .ok (s.jumpBy jumpPolynomial)
  | .jumpLong, s => .ok (s.jumpBy jumpLongPolynomial)
  | .reserialize, s => unserialize (serialize s)

def run : List Op → State → Except Thrown State
  | [], s => .ok s
  | op :: ops, s => do run ops (← step op s)

end Runs

section Seeds

theorem eq_of_mul_eq {x y factor : BitVec 64} (inverse : BitVec 64)
    (hinverse : factor * inverse = 1#64) (h : x * factor = y * factor) : x = y := by
  have hback := congrArg (· * inverse) h
  simpa only [BitVec.mul_assoc, hinverse, BitVec.mul_one] using hback

theorem splitMix_injective : Function.Injective splitMix := by
  intro x y h
  have hlast := xor_ushiftRight_injective (by decide) h
  have hsecond := xor_ushiftRight_injective (by decide)
    (eq_of_mul_eq 0x319642b2d24d8ec3#64 (by decide) hlast)
  exact xor_ushiftRight_injective (by decide)
    (eq_of_mul_eq 0x96de1b173f119089#64 (by decide) hsecond)

/-- The first two words come from different seeds, and only one seed is mixed to zero. -/
theorem integer_ne_zero (seed : BitVec 64) : State.integer seed ≠ 0 := by
  intro h
  have h0 : splitMix (seed + 0x9e3779b97f4a7c15#64) = 0#64 := congrArg Registers.w0 h
  have h1 : splitMix (seed + 0x9e3779b97f4a7c15#64 + 0x9e3779b97f4a7c15#64) = 0#64 :=
    congrArg Registers.w1 h
  have hsame := splitMix_injective (h0.trans h1.symm)
  exact absurd (BitVec.self_eq_add_right.mp hsame) (by decide)

theorem bytes_ne_zero (h : State.bytes bytes = some s) : s ≠ 0 := by
  rintro rfl
  simp only [State.bytes] at h
  split at h
  · cases h
  · split at h
    · next hany =>
      have hzero := Option.some.inj h
      simp only [Registers.zero_def, Registers.mk.injEq] at hzero
      simp [hzero] at hany
    · cases h

end Seeds

section Serialization

def wordLittle (word : BitVec 64) : List UInt8 := toBytes .little 8 word.toNat

theorem wordLittle_length (word : BitVec 64) : (wordLittle word).length = 8 :=
  toBytes_length .little 8 word.toNat

theorem ofBytes_wordLittle (word : BitVec 64) :
    BitVec.ofNat 64 (ofBytes .little (wordLittle word)) = word := by
  have hlt := word.isLt
  rw [wordLittle, ofBytes_toBytes, Nat.mod_eq_of_lt (show word.toNat < 256 ^ 8 from hlt),
    BitVec.ofNat_toNat, BitVec.setWidth_eq]

theorem wordAt_of_eq (front back : List UInt8) (h : bytes = front ++ (wordLittle word ++ back))
    (hfront : front.length = 8 * index) : wordAt bytes index = word := by
  rw [wordAt, h, ← hfront, List.drop_left, ← wordLittle_length word, List.take_left,
    ofBytes_wordLittle]

theorem exists_ne_zero {s : State} (h : s ≠ 0) :
    s.w0 ≠ 0#64 ∨ s.w1 ≠ 0#64 ∨ s.w2 ≠ 0#64 ∨ s.w3 ≠ 0#64 := by
  by_contra hall
  simp only [not_or, not_not] at hall
  obtain ⟨hw0, hw1, hw2, hw3⟩ := hall
  apply h
  cases s
  simp only [Registers.zero_def, Registers.mk.injEq]
  exact ⟨hw0, hw1, hw2, hw3⟩

theorem bytes_wordLittle {s : State} (h : s ≠ 0) :
    State.bytes (wordLittle s.w0 ++ wordLittle s.w1 ++ wordLittle s.w2 ++ wordLittle s.w3) =
      some s := by
  have h0 := wordLittle_length s.w0
  have h1 := wordLittle_length s.w1
  have h2 := wordLittle_length s.w2
  have h3 := wordLittle_length s.w3
  simp only [List.append_assoc]
  generalize hbytes : wordLittle s.w0 ++ (wordLittle s.w1 ++ (wordLittle s.w2 ++ wordLittle s.w3)) =
    bytes
  have hlength : bytes.length = 32 := by
    simp only [← hbytes, List.length_append, h0, h1, h2, h3]
  have hw0 : wordAt bytes 0 = s.w0 := wordAt_of_eq [] _ hbytes.symm rfl
  have hw1 : wordAt bytes 1 = s.w1 := wordAt_of_eq _ _ hbytes.symm h0
  have hw2 : wordAt bytes 2 = s.w2 := by
    refine wordAt_of_eq (wordLittle s.w0 ++ wordLittle s.w1) (wordLittle s.w3) ?_ ?_
    · rw [← hbytes, List.append_assoc]
    · rw [List.length_append, h0, h1]
  have hw3 : wordAt bytes 3 = s.w3 := by
    refine wordAt_of_eq (wordLittle s.w0 ++ (wordLittle s.w1 ++ wordLittle s.w2)) [] ?_ ?_
    · rw [← hbytes, List.append_nil, List.append_assoc, List.append_assoc]
    · rw [List.length_append, List.length_append, h0, h1, h2]
  rw [State.bytes, if_neg (not_not.mpr hlength), hw0, hw1, hw2, hw3, if_pos (exists_ne_zero h)]

theorem toBytes_swapBytes (word : BitVec 64) :
    toBytes .big 8 (swapBytes word) = wordLittle word := by
  have h := toBytes_ofBytes .big (wordLittle word)
  rwa [wordLittle_length] at h

theorem swapBytes_lt (word : BitVec 64) : swapBytes word < 2 ^ 64 := by
  have h := ofBytes_lt .big (wordLittle word)
  rwa [wordLittle_length] at h

theorem wordBytes_projectedWord {words : List (DataKey × Data)}
    (h : getInt words index = some (projectedWord word)) :
    wordBytes words index = some (wordLittle word) := by
  have hlt := swapBytes_lt word
  have hread : ofHex (toHex 16 (swapBytes word)) = some (swapBytes word) := by
    rw [ofHex_toHex, Nat.mod_eq_of_lt (show swapBytes word < 16 ^ 16 from hlt)]
  have hdigits := toHex_all 16 (swapBytes word)
  simp only [wordBytes, h, projectedWord, Data.asStr, Option.bind_eq_bind, Option.bind_some,
    toHex_length, hdigits, hread, hlt, if_pos, toBytes_swapBytes]
  simp

theorem unserializeState_bytes (h : unserializeState data = some s) :
    ∃ bytes, State.bytes bytes = some s := by
  simp only [unserializeState, Option.bind_eq_bind, Option.bind_eq_some_iff] at h
  obtain ⟨entries, -, first, -, empty, -, h⟩ := h
  split at h
  · cases h
  · simp only [Option.bind_eq_some_iff] at h
    obtain ⟨second, -, words, -, h⟩ := h
    split at h
    · cases h
    · simp only [Option.bind_eq_some_iff] at h
      obtain ⟨bytes0, -, bytes1, -, bytes2, -, bytes3, -, h⟩ := h
      exact ⟨_, h⟩

def projectedWords (s : State) : List (DataKey × Data) :=
  [(.int 0, projectedWord s.w0), (.int 1, projectedWord s.w1), (.int 2, projectedWord s.w2),
    (.int 3, projectedWord s.w3)]

/-- Serialized data is read back for every state but the zero one, which no engine has. -/
theorem unserialize_serialize {s : State} (h : s ≠ 0) : unserialize (serialize s) = .ok s := by
  have h0 : wordBytes (projectedWords s) 0 = some (wordLittle s.w0) := wordBytes_projectedWord rfl
  have h1 : wordBytes (projectedWords s) 1 = some (wordLittle s.w1) := wordBytes_projectedWord rfl
  have h2 : wordBytes (projectedWords s) 2 = some (wordLittle s.w2) := wordBytes_projectedWord rfl
  have h3 : wordBytes (projectedWords s) 3 = some (wordLittle s.w3) := wordBytes_projectedWord rfl
  have hlength : (projectedWords s).length = 4 := rfl
  have hprojection : s.projection = .array (projectedWords s) := rfl
  have hstate : unserializeState (serialize s) = some s := by
    rw [← bytes_wordLittle h]
    simp [unserializeState, serialize, hprojection, Data.asArray, getInt, hlength, h0, h1,
      h2, h3]
  rw [unserialize, hstate]

end Serialization

section Steps

/-- The change of the state by one number. -/
abbrev nextMap : AddMonoid.End State := Registers.transitionMap 17 45

def jumpMap : AddMonoid.End State :=
  selectedPowers nextMap (Registers.polynomialBits jumpPolynomial)

def jumpLongMap : AddMonoid.End State :=
  selectedPowers nextMap (Registers.polynomialBits jumpLongPolynomial)

theorem next_state (s : State) : s.next.2 = nextMap s := rfl

theorem jumpBy_jumpPolynomial (s : State) : s.jumpBy jumpPolynomial = jumpMap s :=
  Registers.jump_eq nextMap jumpPolynomial s

theorem jumpBy_jumpLongPolynomial (s : State) : s.jumpBy jumpLongPolynomial = jumpLongMap s :=
  Registers.jump_eq nextMap jumpLongPolynomial s

/-- The polynomial that takes a jump back, as the inverse modulo the polynomial of the engine. -/
def jumpBackPolynomial : List (BitVec 64) :=
  [0xe4f165c97b5587ed#64, 0xd272429846ce3eef#64, 0x227f6f8892c33391#64, 0xda8cc53a9a74b263#64]

def jumpLongBackPolynomial : List (BitVec 64) :=
  [0xdd89caee7494f0dd#64, 0xa3e1251b87ed55eb#64, 0xac085ee412c9dd63#64, 0xb199717cbf73cc84#64]

theorem jumpMap_cancels :
    selectedPowers nextMap (Registers.polynomialBits jumpBackPolynomial) * jumpMap = 1 :=
  Registers.selectedPowers_mul_eq_one (by decide) (by decide +kernel)

theorem jumpLongMap_cancels :
    selectedPowers nextMap (Registers.polynomialBits jumpLongBackPolynomial) * jumpLongMap = 1 :=
  Registers.selectedPowers_mul_eq_one (by decide) (by decide +kernel)

theorem map_ne_zero {f g : AddMonoid.End State} {s : State} (hcancels : g * f = 1) (h : s ≠ 0) :
    f s ≠ 0 := by
  intro hzero
  apply h
  have hback : (g * f) s = g 0 := congrArg g hzero
  rwa [hcancels, map_zero] at hback

theorem nextMap_ne_zero {s : State} (h : s ≠ 0) : nextMap s ≠ 0 :=
  fun hzero => h (Registers.eq_zero_of_transition_eq_zero (by decide) hzero)

theorem jumpMap_commute : Commute jumpMap nextMap := selectedPowers_commute nextMap _

theorem jumpLongMap_commute : Commute jumpLongMap nextMap := selectedPowers_commute nextMap _

theorem jumpMap_jumpLongMap : Commute jumpMap jumpLongMap :=
  selectedPowers_commute_selectedPowers nextMap _ _

end Steps

section Runs

/-- What a sequence of operations makes of a state depends on their numbers only. -/
def effect (ops : List Op) : AddMonoid.End State :=
  nextMap ^ ops.count .next * (jumpMap ^ ops.count .jump * jumpLongMap ^ ops.count .jumpLong)

theorem effect_nil : effect [] = 1 := by
  simp only [effect, List.count_nil, pow_zero, mul_one]

theorem effect_next (ops : List Op) : effect (.next :: ops) = effect ops * nextMap := by
  have hjump := (jumpMap_commute.pow_left (ops.count .jump)).mul_left
    (jumpLongMap_commute.pow_left (ops.count .jumpLong))
  simp only [effect, List.count_cons_self, List.count_cons_of_ne, ne_eq, reduceCtorEq,
    not_false_eq_true, pow_succ]
  rw [mul_assoc, mul_assoc, hjump.eq]

theorem effect_jump (ops : List Op) : effect (.jump :: ops) = effect ops * jumpMap := by
  have hlong := (jumpMap_jumpLongMap.symm.pow_left (ops.count .jumpLong))
  simp only [effect, List.count_cons_self, List.count_cons_of_ne, ne_eq, reduceCtorEq,
    not_false_eq_true, pow_succ]
  rw [mul_assoc, mul_assoc, mul_assoc, hlong.eq]

theorem effect_jumpLong (ops : List Op) : effect (.jumpLong :: ops) = effect ops * jumpLongMap := by
  simp only [effect, List.count_cons_self, List.count_cons_of_ne, ne_eq, reduceCtorEq,
    not_false_eq_true, pow_succ, mul_assoc]

theorem effect_reserialize (ops : List Op) : effect (.reserialize :: ops) = effect ops := by
  simp only [effect, List.count_cons_of_ne, ne_eq, reduceCtorEq, not_false_eq_true]

/-- One step keeps the state away from zero, and the rest of a run has the rest of the effect. -/
theorem step_spec (op : Op) {s : State} (h : s ≠ 0) :
    ∃ t, step op s = .ok t ∧ t ≠ 0 ∧ ∀ ops, effect ops t = effect (op :: ops) s := by
  cases op with
  | next =>
    refine ⟨nextMap s, congrArg Except.ok (next_state s), nextMap_ne_zero h, fun ops => ?_⟩
    rw [effect_next, AddMonoid.End.coe_mul, Function.comp_apply]
  | jump =>
    refine ⟨jumpMap s, congrArg Except.ok (jumpBy_jumpPolynomial s), map_ne_zero jumpMap_cancels h,
      fun ops => ?_⟩
    rw [effect_jump, AddMonoid.End.coe_mul, Function.comp_apply]
  | jumpLong =>
    refine ⟨jumpLongMap s, congrArg Except.ok (jumpBy_jumpLongPolynomial s),
      map_ne_zero jumpLongMap_cancels h, fun ops => ?_⟩
    rw [effect_jumpLong, AddMonoid.End.coe_mul, Function.comp_apply]
  | reserialize =>
    refine ⟨s, ?_, h, fun ops => ?_⟩
    · rw [step, unserialize_serialize h]
    · rw [effect_reserialize]

theorem run_spec (ops : List Op) {s : State} (h : s ≠ 0) :
    run ops s = .ok (effect ops s) ∧ effect ops s ≠ 0 := by
  induction ops generalizing s with
  | nil =>
    rw [effect_nil]
    exact ⟨rfl, h⟩
  | cons op ops ih =>
    obtain ⟨t, hstep, ht, heffect⟩ := step_spec op h
    have hrest := ih ht
    rw [heffect] at hrest
    refine ⟨?_, hrest.2⟩
    rw [run, hstep]
    exact hrest.1

theorem start_ne_zero (origin : Origin) (h : origin.start = .ok s) : s ≠ 0 := by
  cases origin with
  | constructed seed =>
    cases seed with
    | long n =>
      cases h
      exact integer_ne_zero n
    | string bytes =>
      rw [Origin.start, construct] at h
      split at h
      · cases h
      · split at h
        · next hbytes =>
          cases h
          exact bytes_ne_zero hbytes
        · cases h
  | unserialized data =>
    rw [Origin.start, unserialize] at h
    split at h
    · next hstate =>
      cases h
      obtain ⟨bytes, hbytes⟩ := unserializeState_bytes hstate
      exact bytes_ne_zero hbytes
    · cases h

/-- Every engine that a script can make keeps a state that is not zero, is restored from what it is
serialized to, and depends on the numbers of its steps and not on their order. -/
theorem engine_runs (origin : Origin) (s : State) (h : origin.start = .ok s) :
    (∀ ops, ∃ t, run ops s = .ok t ∧ t ≠ ⟨0#64, 0#64, 0#64, 0#64⟩ ∧
      unserialize (serialize t) = .ok t) ∧
    ∀ ops ops', ops.count Op.next = ops'.count Op.next → ops.count Op.jump = ops'.count Op.jump →
      ops.count Op.jumpLong = ops'.count Op.jumpLong → run ops s = run ops' s := by
  have hs := start_ne_zero origin h
  refine ⟨fun ops => ?_, fun ops ops' hnext hjump hlong => ?_⟩
  · have hrun := run_spec ops hs
    exact ⟨effect ops s, hrun.1, hrun.2, unserialize_serialize hrun.2⟩
  · rw [(run_spec ops hs).1, (run_spec ops' hs).1, effect, effect, hnext, hjump, hlong]

theorem engine_runs_zeroSeed :
    (∀ ops, ∃ t, run ops (State.integer 0#64) = .ok t ∧ t ≠ ⟨0#64, 0#64, 0#64, 0#64⟩ ∧
      unserialize (serialize t) = .ok t) ∧
    ∀ ops ops', ops.count Op.next = ops'.count Op.next → ops.count Op.jump = ops'.count Op.jump →
      ops.count Op.jumpLong = ops'.count Op.jumpLong →
        run ops (State.integer 0#64) = run ops' (State.integer 0#64) :=
  engine_runs (.constructed (.long 0#64)) (State.integer 0#64) rfl

end Runs

end Rphp.Stdlib.Random
