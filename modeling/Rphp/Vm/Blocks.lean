import Mathlib.Data.List.Basic
import Rphp.Machine

namespace Rphp.Vm
set_option autoImplicit true

inductive OpType
  | const
  | tmp
  | var
  | cv
  | unused
  deriving DecidableEq, Repr

/-- The opcodes that blocks and plans look at; the flag of `jmpFinally` says that it ends the
finally part. -/
inductive OpCode
  | isSmallerOrEqualCvConst
  | isSmallerCvConst
  | subCvConst
  | addTmpTmp
  | initFcall
  | sendVal
  | doFcall
  | ret
  | jmpZ
  | jmpNZ
  | jmp
  | quickLongLoopJmp
  | assertCheck
  | jmpFinally (finallyEnd : Bool)
  | other (code : Nat)
  deriving DecidableEq, Repr

/-- `sendFlagged` is set for an argument that cannot be passed by reference. -/
structure Instruction where
  opcode : OpCode
  op1 : Nat
  op1Type : OpType
  op2 : Nat
  result : Nat
  resultType : OpType
  sendFlagged : Bool
  deriving DecidableEq, Repr

structure BlockInfo where
  startIp : Nat
  endIp : Nat
  deriving DecidableEq, Repr

/-- The target of a jump. -/
def Instruction.target (instr : Instruction) : Option Nat :=
  match instr.opcode with
  | .jmp | .quickLongLoopJmp | .assertCheck | .jmpFinally false => some instr.op1
  | .jmpZ | .jmpNZ => some instr.op2
  | _ => none

/-- Whether the next instruction starts a block. -/
def Instruction.endsBlock (instr : Instruction) : Bool :=
  instr.target.isSome || instr.opcode = .ret

def isLeader (instructions : List Instruction) (i : Nat) : Bool :=
  i = 0 || instructions.any (fun instr => instr.target = some i) ||
    (0 < i && instructions[i - 1]?.any Instruction.endsBlock)

/-- The blocks from an index on, of which `remaining` are left, with the start of the current
one. -/
def blocksFrom (leader : Nat → Bool) : Nat → Nat → Nat → List BlockInfo
  | 0, i, current => [⟨current, i - 1⟩]
  | remaining + 1, i, current =>
    if leader i && 0 < i then ⟨current, i - 1⟩ :: blocksFrom leader remaining (i + 1) i
    else blocksFrom leader remaining (i + 1) current

def computeBlocks (instructions : List Instruction) : List BlockInfo :=
  if instructions = [] then []
  else blocksFrom (isLeader instructions) instructions.length 0 0

/-- A block lies inside the instructions, and none of it but its first instruction is a leader. -/
structure IsBlock (leader : Nat → Bool) (count : Nat) (block : BlockInfo) : Prop where
  inside : block.endIp < count
  ordered : block.startIp ≤ block.endIp
  straight : ∀ i, block.startIp < i → i ≤ block.endIp → leader i = false

theorem blocksFrom_isBlock {leader : Nat → Bool} {remaining i current : Nat}
    (hcount : i + remaining = count) (hcurrent : current < i ∨ i = 0 ∧ current = 0)
    (hpositive : 0 < count) (hstraight : ∀ j, current < j → j < i → leader j = false)
    (hblock : block ∈ blocksFrom leader remaining i current) : IsBlock leader count block := by
  induction remaining generalizing i current with
  | zero =>
    rw [blocksFrom, List.mem_singleton] at hblock
    subst hblock
    exact ⟨by simp only; omega, by simp only; omega,
      fun j hstart hend => hstraight j hstart (by simp only at hend; omega)⟩
  | succ remaining ih =>
    rw [blocksFrom] at hblock
    split at hblock
    · rename_i hleader
      rw [Bool.and_eq_true, decide_eq_true_eq] at hleader
      obtain rfl | hrest := List.mem_cons.mp hblock
      · exact ⟨by simp only; omega, by simp only; omega,
          fun j hstart hend => hstraight j hstart (by simp only at hend; omega)⟩
      · exact ih (by omega) (.inl (by omega)) (fun j hstart hend => by omega) hrest
    · rename_i hleader
      rw [Bool.and_eq_true, decide_eq_true_eq, not_and'] at hleader
      apply ih (by omega) (.inl (by omega)) _ hblock
      intro j hstart hend
      by_cases hj : j = i
      · subst hj
        exact Bool.not_eq_true _ ▸ hleader (by omega)
      · exact hstraight j hstart (by omega)

/-- An instruction that ends a block is the last one of its block. -/
theorem endsBlock_last {instructions : List Instruction}
    (hblock : block ∈ computeBlocks instructions) (hstart : block.startIp ≤ ip)
    (hend : ip < block.endIp) (hinstr : instructions[ip]? = some instr) :
    instr.endsBlock = false := by
  unfold computeBlocks at hblock
  split at hblock
  · cases hblock
  · rename_i hne
    have hpositive : 0 < instructions.length := List.length_pos_iff.mpr hne
    have his := blocksFrom_isBlock (Nat.zero_add _) (.inr ⟨rfl, rfl⟩) hpositive
      (fun j hj hj' => absurd hj' (Nat.not_lt_zero j)) hblock
    have hleader := his.straight (ip + 1) (by omega) (by omega)
    unfold isLeader at hleader
    simp only [Nat.add_sub_cancel, hinstr, Option.any_some, Bool.or_eq_false_iff,
      Bool.and_eq_false_iff] at hleader
    obtain ⟨-, hlast⟩ := hleader
    obtain hzero | hends := hlast
    · simp at hzero
    · exact hends

end Rphp.Vm
