import Rphp.Lib.Faults
import Rphp.Vm.CallbackPipeline
import Rphp.Vm.CallbackStages

namespace Rphp.Vm.CallbackPipeline
open Rphp.Lib
set_option autoImplicit true

section Streaming

/-- The callbacks as partial functions of integers. -/
def mapLong (prepared : PreparedCallbackArrayPipeline K) (n : I64) : Option I64 :=
  prepared.mapCallback.evaluateLongs [n]

def keepLong (prepared : PreparedCallbackArrayPipeline K) (n : I64) : Option Bool :=
  (prepared.filterCallback.evaluateLongs [n]).map fun keep => keep.val ≠ 0

def reduceLong (prepared : PreparedCallbackArrayPipeline K) (carry n : I64) : Option I64 :=
  prepared.reduceCallback.evaluateLongs [carry, n]

theorem streamMember_filterFirst {prepared : PreparedCallbackArrayPipeline K}
    (h : streamMember true prepared carry value = some (carry', kept)) :
    ∃ n, value = .long n ∧ keepLong prepared n = some kept ∧
      (kept = true → ∃ m, mapLong prepared n = some m ∧
        reduceLong prepared carry m = some carry') ∧
      (kept = false → carry' = carry) := by
  cases value with
  | long n =>
    simp only [streamMember, if_true, Option.bind_eq_bind, Option.bind_eq_some_iff] at h
    obtain ⟨keep, hkeep, h⟩ := h
    split at h
    · next hkept =>
      simp only [Option.bind_eq_some_iff] at h
      obtain ⟨m, hm, carry'', hcarry, h⟩ := h
      cases h
      refine ⟨n, rfl, ?_, fun _ => ⟨m, hm, hcarry⟩, fun h => absurd h (by decide)⟩
      rw [keepLong, hkeep, Option.map_some, decide_eq_true hkept]
    · next hkept =>
      cases h
      refine ⟨n, rfl, ?_, fun h => absurd h (by decide), fun _ => rfl⟩
      rw [keepLong, hkeep, Option.map_some, decide_eq_false hkept]
  | reference aliased target => cases h
  | other truthy => cases h

theorem streamMember_mapFirst {prepared : PreparedCallbackArrayPipeline K}
    (h : streamMember false prepared carry value = some (carry', kept)) :
    ∃ n m, value = .long n ∧ mapLong prepared n = some m ∧ keepLong prepared m = some kept ∧
      (kept = true → reduceLong prepared carry m = some carry') ∧
      (kept = false → carry' = carry) := by
  cases value with
  | long n =>
    simp only [streamMember, Bool.false_eq_true, if_false, Option.bind_eq_bind,
      Option.bind_eq_some_iff] at h
    obtain ⟨m, hm, keep, hkeep, h⟩ := h
    split at h
    · next hkept =>
      simp only [Option.bind_eq_some_iff] at h
      obtain ⟨carry'', hcarry, h⟩ := h
      cases h
      refine ⟨n, m, rfl, hm, ?_, fun _ => hcarry, fun h => absurd h (by decide)⟩
      rw [keepLong, hkeep, Option.map_some, decide_eq_true hkept]
    · next hkept =>
      cases h
      refine ⟨n, m, rfl, hm, ?_, fun h => absurd h (by decide), fun _ => rfl⟩
      rw [keepLong, hkeep, Option.map_some, decide_eq_false hkept]
  | reference aliased target => cases h
  | other truthy => cases h

theorem streamMembers_cons {prepared : PreparedCallbackArrayPipeline K}
    (h : streamMembers filterFirst interrupt prepared index (value :: values) carry retained =
      .ok (some answer)) :
    ∃ carry' kept, streamMember filterFirst prepared carry value = some (carry', kept) ∧
      streamMembers filterFirst interrupt prepared (index + 1) values carry'
        (if kept then retained + 1 else retained) = .ok (some answer) := by
  cases hmember : streamMember filterFirst prepared carry value with
  | none =>
    rw [streamMembers, hmember] at h
    by_cases hpoll : index &&& 255 = 0
    · rw [if_pos hpoll] at h
      obtain ⟨_, -, h⟩ := except_bind_eq_ok.mp h
      cases h
    · rw [if_neg hpoll] at h
      cases h
  | some member =>
    refine ⟨member.1, member.2, rfl, ?_⟩
    rw [streamMembers, hmember] at h
    by_cases hpoll : index &&& 255 = 0
    · rw [if_pos hpoll] at h
      obtain ⟨_, -, h⟩ := except_bind_eq_ok.mp h
      exact h
    · rw [if_neg hpoll] at h
      exact h

/-- A pass with the filter first that reaches its end has seen integers only. -/
theorem streamMembers_fuseFilterMap {prepared : PreparedCallbackArrayPipeline K}
    (h : streamMembers true interrupt prepared index values carry retained = .ok (some (c, n))) :
    ∃ longs : List I64, values = longs.map .long ∧
      fuseFilterMap (keepLong prepared) (mapLong prepared) (reduceLong prepared) longs carry
        retained = some (c, n) := by
  induction values generalizing index carry retained with
  | nil =>
    cases h
    exact ⟨[], rfl, rfl⟩
  | cons value values ih =>
    obtain ⟨carry', kept, hmember, hrest⟩ := streamMembers_cons h
    obtain ⟨input, rfl, hkeep, htrue, hfalse⟩ := streamMember_filterFirst hmember
    obtain ⟨longs, rfl, hfused⟩ := ih hrest
    refine ⟨input :: longs, rfl, ?_⟩
    cases kept with
    | true =>
      obtain ⟨m, hm, hcarry⟩ := htrue rfl
      simpa [fuseFilterMap, hkeep, hm, hcarry] using hfused
    | false =>
      rw [hfalse rfl] at hfused
      simpa [fuseFilterMap, hkeep] using hfused

theorem streamMembers_fuseMapFilter {prepared : PreparedCallbackArrayPipeline K}
    (h : streamMembers false interrupt prepared index values carry retained = .ok (some (c, n))) :
    ∃ longs : List I64, values = longs.map .long ∧
      fuseMapFilter (mapLong prepared) (keepLong prepared) (reduceLong prepared) longs carry
        retained = some (c, n) := by
  induction values generalizing index carry retained with
  | nil =>
    cases h
    exact ⟨[], rfl, rfl⟩
  | cons value values ih =>
    obtain ⟨carry', kept, hmember, hrest⟩ := streamMembers_cons h
    obtain ⟨input, m, rfl, hm, hkeep, htrue, hfalse⟩ := streamMember_mapFirst hmember
    obtain ⟨longs, rfl, hfused⟩ := ih hrest
    refine ⟨input :: longs, rfl, ?_⟩
    cases kept with
    | true => simpa [fuseMapFilter, hm, hkeep, htrue rfl] using hfused
    | false =>
      rw [hfalse rfl] at hfused
      simpa [fuseMapFilter, hm, hkeep] using hfused

end Streaming

section Stages

variable [DecidableEq K]

omit [DecidableEq K] in
theorem call_longs (callback : ScalarLongCallback) (longs : List I64) :
    callback.call (longs.map .long) = (callback.evaluateLongs longs).map .long := by
  have hlongs : (longs.map Member.long).mapM Member.asLong = some longs := by
    induction longs with
    | nil => rfl
    | cons n longs ih =>
      rw [List.map_cons, List.mapM_cons, ih]
      rfl
  rw [ScalarLongCallback.call, hlongs]
  rfl

theorem PhpArray.set_entries {array : PhpArray K} (value : Member) (h : key ∉ keysOf array.entries) :
    (array.set key value).entries = array.entries ++ [(key, value)] := by
  have hposition := positionOf_eq_none.mpr h
  simp only [PhpArray.set, putKey, hposition]

omit [DecidableEq K] in
theorem key_notMem_of_nodup {key : K}
    (h : (keysOf (entries ++ (key, value) :: rest)).Nodup) : key ∉ keysOf entries := by
  intro hmem
  rw [keysOf, List.map_append, List.map_cons, List.nodup_append] at h
  exact h.2.2 key hmem key List.mem_cons_self rfl

/-- A map of integers keeps the keys and their order, with one call for each entry. -/
theorem arrayMapFrom_longs {callback : ScalarLongCallback} {entries : List (K × Member)}
    {longs mapped : List I64} (result : PhpArray K) (calls : Nat)
    (hvalues : entries.map Prod.snd = longs.map .long)
    (hmapped : longs.mapM (fun n => callback.evaluateLongs [n]) = some mapped)
    (hnodup : (keysOf (result.entries ++ entries)).Nodup) :
    ∃ array : PhpArray K,
      arrayMapFrom callback entries result calls = some (array, calls + entries.length) ∧
      ∃ back, array.entries = result.entries ++ back ∧ keysOf back = keysOf entries ∧
        back.map Prod.snd = mapped.map .long := by
  induction entries generalizing longs mapped result calls with
  | nil =>
    cases longs with
    | nil =>
      cases hmapped
      exact ⟨result, rfl, [], (List.append_nil _).symm, rfl, rfl⟩
    | cons => cases hvalues
  | cons entry entries ih =>
    obtain ⟨key, value⟩ := entry
    cases longs with
    | nil => cases hvalues
    | cons n longs =>
      simp only [List.map_cons, List.cons.injEq] at hvalues
      obtain ⟨rfl, hvalues⟩ := hvalues
      simp only [List.mapM_cons, Option.bind_eq_bind, Option.bind_eq_some_iff, Option.pure_def,
        Option.some.injEq] at hmapped
      obtain ⟨m, hm, rest, hrest, rfl⟩ := hmapped
      have hset := PhpArray.set_entries (.long m) (key_notMem_of_nodup hnodup)
      have hnodup' : (keysOf ((result.set key (.long m)).entries ++ entries)).Nodup := by
        rw [hset]
        simpa [keysOf] using hnodup
      obtain ⟨array, hrun, back, hentries, hkeys, hback⟩ := ih _ (calls + 1) hvalues hrest hnodup'
      have hcall : callback.call [.long n] = (callback.evaluateLongs [n]).map .long :=
        call_longs callback [n]
      refine ⟨array, ?_, (key, .long m) :: back, ?_, ?_, ?_⟩
      · rw [arrayMapFrom]
        simp only [Member.dereferenced, Member.clone, hcall, hm, Option.map_some,
          Option.bind_eq_bind, Option.bind_some, hrun, List.length_cons]
        congr 2
        omega
      · rw [hentries, hset, List.append_assoc, List.singleton_append]
      · exact congrArg (key :: ·) hkeys
      · rw [List.map_cons, hback, List.map_cons]

/-- A filter of integers keeps accepted entries with their keys, with one call for each entry. -/
theorem arrayFilterFrom_longs {callback : ScalarLongCallback} {entries : List (K × Member)}
    {longs kept : List I64} (result : PhpArray K) (calls : Nat)
    (hvalues : entries.map Prod.snd = longs.map .long)
    (hkept : filterStage (fun n => (callback.evaluateLongs [n]).map fun keep => keep.val ≠ 0) longs =
      some kept)
    (hnodup : (keysOf (result.entries ++ entries)).Nodup) :
    ∃ array : PhpArray K,
      arrayFilterFrom callback entries result calls = some (array, calls + entries.length) ∧
      ∃ back, array.entries = result.entries ++ back ∧ back.Sublist entries ∧
        back.map Prod.snd = kept.map .long := by
  induction entries generalizing longs kept result calls with
  | nil =>
    cases longs with
    | nil =>
      cases hkept
      exact ⟨result, rfl, [], (List.append_nil _).symm, List.Sublist.slnil, rfl⟩
    | cons => cases hvalues
  | cons entry entries ih =>
    obtain ⟨key, value⟩ := entry
    cases longs with
    | nil => cases hvalues
    | cons n longs =>
      simp only [List.map_cons, List.cons.injEq] at hvalues
      obtain ⟨rfl, hvalues⟩ := hvalues
      simp only [filterStage, Option.bind_eq_bind, Option.bind_eq_some_iff, Option.some.injEq,
        Option.map_eq_some_iff] at hkept
      obtain ⟨_, ⟨answer, hanswer, rfl⟩, rest, hrest, rfl⟩ := hkept
      have hcall : callback.call [.long n] = (callback.evaluateLongs [n]).map .long :=
        call_longs callback [n]
      by_cases htrue : answer.val ≠ 0
      · have hset := PhpArray.set_entries (.long n) (key_notMem_of_nodup hnodup)
        have hnodup' : (keysOf ((result.set key (.long n)).entries ++ entries)).Nodup := by
          rw [hset]
          simpa [keysOf] using hnodup
        obtain ⟨array, hrun, back, hentries, hsub, hback⟩ :=
          ih _ (calls + 1) hvalues hrest hnodup'
        refine ⟨array, ?_, (key, .long n) :: back, ?_, hsub.cons_cons _, ?_⟩
        · rw [arrayFilterFrom]
          simp only [Member.dereferenced, Member.clone, hcall, hanswer, Option.map_some,
            Option.bind_eq_bind, Option.bind_some, Member.isTruthy, Member.projection,
            decide_eq_true htrue, if_true, hrun, List.length_cons]
          congr 2
          omega
        · rw [hentries, hset, List.append_assoc, List.singleton_append]
        · rw [List.map_cons, hback, decide_eq_true htrue, if_pos rfl, List.map_cons]
      · have hnodup' : (keysOf (result.entries ++ entries)).Nodup :=
          ((List.sublist_cons_self _ _).append_left result.entries |>.map Prod.fst).nodup hnodup
        obtain ⟨array, hrun, back, hentries, hsub, hback⟩ :=
          ih _ (calls + 1) hvalues hrest hnodup'
        refine ⟨array, ?_, back, hentries, hsub.cons _, ?_⟩
        · rw [arrayFilterFrom]
          simp only [Member.dereferenced, Member.clone, hcall, hanswer, Option.map_some,
            Option.bind_eq_bind, Option.bind_some, Member.isTruthy, decide_eq_false htrue,
            Bool.false_eq_true, if_false, hrun, List.length_cons]
          congr 2
          omega
        · rw [hback, decide_eq_false htrue, if_neg Bool.false_ne_true]

omit [DecidableEq K] in
theorem arrayReduceFrom_longs {callback : ScalarLongCallback} {items : List I64}
    (h : items.foldlM (fun carry n => callback.evaluateLongs [carry, n]) carry = some c) :
    arrayReduceFrom callback (items.map .long) (.long carry) calls =
      some (.long c, calls + items.length) := by
  induction items generalizing carry calls with
  | nil =>
    cases h
    rfl
  | cons n items ih =>
    rw [List.foldlM_cons] at h
    simp only [Option.bind_eq_bind, Option.bind_eq_some_iff] at h
    obtain ⟨carry', hcarry, h⟩ := h
    have hcall : callback.call [.long carry, .long n] =
        (callback.evaluateLongs [carry, n]).map .long := call_longs callback [carry, n]
    rw [List.map_cons, arrayReduceFrom]
    simp only [hcall, hcarry, Option.map_some, Option.bind_eq_bind, Option.bind_some, ih h,
      List.length_cons]
    congr 2
    omega

theorem arrayMap_longs {callback : ScalarLongCallback} {array : PhpArray K} {longs mapped : List I64}
    (hvalues : array.values = longs.map .long)
    (hmapped : longs.mapM (fun n => callback.evaluateLongs [n]) = some mapped) :
    ∃ result, arrayMap callback array = some (result, array.len) ∧
      keysOf result.entries = keysOf array.entries ∧ result.values = mapped.map .long := by
  obtain ⟨result, hrun, back, hentries, hkeys, hback⟩ :=
    arrayMapFrom_longs .empty 0 hvalues hmapped array.nodup
  have hresult : result.entries = back := hentries
  refine ⟨result, ?_, ?_, ?_⟩
  · rw [arrayMap, hrun, Nat.zero_add, PhpArray.len]
  · rw [hresult, hkeys]
  · rw [PhpArray.values, hresult, hback]

/-- The result of a filter has some entries of its argument, each with its key. -/
theorem arrayFilter_longs {callback : ScalarLongCallback} {array : PhpArray K}
    {longs kept : List I64} (hvalues : array.values = longs.map .long)
    (hkept : filterStage (fun n => (callback.evaluateLongs [n]).map fun keep => keep.val ≠ 0) longs =
      some kept) :
    ∃ result, arrayFilter callback array = some (result, array.len) ∧
      result.entries.Sublist array.entries ∧ result.values = kept.map .long := by
  obtain ⟨result, hrun, back, hentries, hsub, hback⟩ :=
    arrayFilterFrom_longs .empty 0 hvalues hkept array.nodup
  have hresult : result.entries = back := hentries
  refine ⟨result, ?_, ?_, ?_⟩
  · rw [arrayFilter, hrun, Nat.zero_add, PhpArray.len]
  · rw [hresult]
    exact hsub
  · rw [PhpArray.values, hresult, hback]

omit [DecidableEq K] in
theorem arrayReduce_longs {callback : ScalarLongCallback} {array : PhpArray K} {items : List I64}
    (hvalues : array.values = items.map .long)
    (h : items.foldlM (fun carry n => callback.evaluateLongs [carry, n]) initial = some c) :
    arrayReduce callback array (.long initial) = some (.long c, items.length) := by
  have hclone : (items.map Member.long).map Member.clone = items.map Member.long := by
    rw [List.map_map]
    rfl
  rw [arrayReduce, hvalues, hclone, arrayReduceFrom_longs h, Nat.zero_add]

end Stages

section Equivalence

variable [DecidableEq K]

omit [DecidableEq K] in
theorem len_of_values {array : PhpArray K} {longs : List I64}
    (h : array.values = longs.map Member.long) : array.len = longs.length := by
  have hlength := congrArg List.length h
  simpa only [PhpArray.values, PhpArray.len, List.length_map] using hlength

omit [DecidableEq K] in
theorem len_of_keys {array array' : PhpArray K} (h : keysOf array.entries = keysOf array'.entries) :
    array.len = array'.len := by
  have hlength := congrArg List.length h
  simpa only [PhpArray.len, keysOf_length] using hlength

theorem staged_of_mapFirst {prepared : PreparedCallbackArrayPipeline K}
    (h : evaluateCallbackArrayPipeline false interrupt prepared = .ok (some (c, calls))) :
    stagedEvaluation .mapFilter prepared = some (.long c, calls) := by
  obtain ⟨answer, hstream, h⟩ := except_bind_eq_ok.mp h
  match answer with
  | none => cases h
  | some (carry, retained) =>
    simp only [Bool.false_eq_true, if_false] at h
    cases h
    obtain ⟨longs, hvalues, hfused⟩ := streamMembers_fuseMapFilter hstream
    obtain ⟨mapped, kept, hmapped, hkept, hreduce, hretained⟩ := stages_of_fuseMapFilter hfused
    obtain ⟨mappedArray, hmap, hkeys, hmappedValues⟩ := arrayMap_longs hvalues hmapped
    obtain ⟨filtered, hfilter, -, hfilteredValues⟩ := arrayFilter_longs hmappedValues hkept
    have hreduced := arrayReduce_longs hfilteredValues hreduce
    simp only [stagedEvaluation, hmap, hfilter, hreduced, Option.bind_eq_bind, Option.bind_some,
      len_of_keys hkeys, hretained, Nat.zero_add]

theorem staged_of_filterFirst {prepared : PreparedCallbackArrayPipeline K}
    (h : evaluateCallbackArrayPipeline true interrupt prepared = .ok (some (c, calls))) :
    stagedEvaluation .filterMap prepared = some (.long c, calls) := by
  obtain ⟨answer, hstream, h⟩ := except_bind_eq_ok.mp h
  match answer with
  | none => cases h
  | some (carry, retained) =>
    simp only [if_true] at h
    cases h
    obtain ⟨longs, hvalues, hfused⟩ := streamMembers_fuseFilterMap hstream
    obtain ⟨kept, mapped, hkept, hmapped, hreduce, hretained⟩ := stages_of_fuseFilterMap hfused
    obtain ⟨filtered, hfilter, -, hfilteredValues⟩ := arrayFilter_longs hvalues hkept
    obtain ⟨mappedArray, hmap, hkeys, hmappedValues⟩ := arrayMap_longs hfilteredValues hmapped
    have hreduced := arrayReduce_longs hmappedValues hreduce
    have hlen : filtered.len = retained := by
      rw [len_of_values hfilteredValues, hretained, Nat.zero_add]
    have hitems : mapped.length = retained := by
      rw [← len_of_values hmappedValues, len_of_keys hkeys, hlen]
    simp only [stagedEvaluation, hfilter, hmap, hreduced, Option.bind_eq_bind, Option.bind_some,
      hlen, hitems]

/-- The bare offsets give the program of the structural match, and the streaming loop gives the
result of the three staged calls, with as many calls of each callback. -/
theorem callbackArrayPipeline_correct :
    (∀ (opArray : OpArray) (entryIp : Nat) (order : CallbackArrayPipelineOrder) (staged : Bool)
      (program : CallbackArrayPipelineProgram),
      detectProgram opArray entryIp order staged = some program →
        callbackArrayPipelineProgramFromMetadata opArray entryIp order staged = some program) ∧
    ∀ (interrupt : Nat → Except VmError Unit) (prepared : PreparedCallbackArrayPipeline K) (c : I64)
      (calls : Calls),
      (evaluateCallbackArrayPipeline false interrupt prepared = .ok (some (c, calls)) →
        stagedEvaluation .mapFilter prepared = some (.long c, calls)) ∧
      (evaluateCallbackArrayPipeline true interrupt prepared = .ok (some (c, calls)) →
        stagedEvaluation .filterMap prepared = some (.long c, calls)) :=
  ⟨fun _ _ order staged _ h => metadata_of_detected order staged h,
    fun _ _ _ _ => ⟨staged_of_mapFirst, staged_of_filterFirst⟩⟩

/-- The bytecode of a reduction of a filtered map of a constant array. -/
def nestedBytecode : OpArray where
  name := "f".toList
  instructions := [
    ⟨.initFcall, .unused, .const, .unused, 3, 0, 0, 0, 0⟩,
    ⟨.initFcall, .unused, .const, .unused, 2, 1, 0, 0, 0⟩,
    ⟨.initFcall, .unused, .const, .unused, 2, 2, 0, 0, 0⟩,
    ⟨.sendVal, .const, .unused, .unused, 3, 0, 0, 0, 0⟩,
    ⟨.sendVal, .cv, .unused, .unused, 0, 1, 0, 0, 0⟩,
    ⟨.doFcall, .unused, .unused, .tmp, 0, 0, 1, 0, 0⟩,
    ⟨.sendVal, .tmp, .unused, .unused, 1, 0, 0, 0, 0⟩,
    ⟨.sendVal, .const, .unused, .unused, 3, 1, 0, 0, 0⟩,
    ⟨.doFcall, .unused, .unused, .tmp, 0, 0, 2, 0, 0⟩,
    ⟨.sendVal, .tmp, .unused, .unused, 2, 0, 0, 0, 0⟩,
    ⟨.sendVal, .const, .unused, .unused, 3, 1, 0, 0, 0⟩,
    ⟨.sendVal, .const, .unused, .unused, 4, 2, 0, 0, 0⟩,
    ⟨.doFcall, .unused, .unused, .tmp, 0, 0, 3, 0, 0⟩]
  literals := [.text "array_reduce".toList, .text "array_filter".toList, .text "array_map".toList,
    .text "g".toList, .long I64.zero]

/-- Two members, of which the filter keeps the second. -/
def twoMembers : PreparedCallbackArrayPipeline Nat where
  source := ⟨[(0, .long I64.zero), (1, .long I64.max)], by decide⟩
  mapCallback := ⟨1, List.head?⟩
  filterCallback := ⟨1, List.head?⟩
  reduceCallback := ⟨2, fun words => words[1]?⟩
  initial := I64.zero

theorem callbackArrayPipeline_correct_twoMembers :
    callbackArrayPipelineProgramFromMetadata nestedBytecode 0 .mapFilter false =
      detectProgram nestedBytecode 0 .mapFilter false ∧
    (detectProgram nestedBytecode 0 .mapFilter false).isSome ∧
    stagedEvaluation .mapFilter twoMembers = some (.long I64.max, ⟨2, 2, 1⟩) ∧
    stagedEvaluation .filterMap twoMembers = some (.long I64.max, ⟨1, 2, 1⟩) := by
  have hdetected : (detectProgram nestedBytecode 0 .mapFilter false).isSome := by decide
  obtain ⟨program, hprogram⟩ := Option.isSome_iff_exists.mp hdetected
  have hruns := (callbackArrayPipeline_correct (K := Nat)).2 (fun _ => .ok ()) twoMembers I64.max
  refine ⟨?_, hdetected, (hruns ⟨2, 2, 1⟩).1 rfl, (hruns ⟨1, 2, 1⟩).2 rfl⟩
  rw [hprogram]
  exact (callbackArrayPipeline_correct (K := Nat)).1 nestedBytecode 0 .mapFilter false program hprogram

end Equivalence

end Rphp.Vm.CallbackPipeline
