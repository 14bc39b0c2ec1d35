import Nezha.Models.Eth.Interpreter
import Mathlib.Logic.Relation

/-!
# The interpreter decodes at instruction boundaries (`core/vm/interpreter.go`, `contract.go`)

The loop of `Run` steps from an opcode to the next one past the data of a
push, or jumps to a destination that `validJumpdest` accepted; from caches
that hold analyses of the code, that is a `JUMPDEST` at an instruction
boundary. So every position it runs at is a boundary that `codeBitmap` marks
as code: the interpreter never reads push data as an opcode.
-/

namespace Nezha

namespace Analysis

set_option maxRecDepth 2048 in
/-- The data `nextPc` skips after a byte is the data of the opcode `OpCode(b)`:
the pushes are exactly the bytes from `PUSH1` to `PUSH32`. The check runs over
the 256 bytes. -/
theorem pushSize_eq_pushBytes (b : UInt8) : pushSize b = (OpCode.ofByte b).pushBytes := by
  have h : ∀ k : Fin 256, pushSize k.val.toUInt8 = (OpCode.ofByte k.val.toUInt8).pushBytes := by decide
  simpa using h ⟨b.toNat, b.toNat_lt⟩

theorem OpCode.pushBytes_of_jumps {op : OpCode} (h : op.jumps = true) : op.pushBytes = 0 := by
  cases op <;> simp_all [OpCode.jumps, OpCode.pushBytes]

/-- What holds at every pass of the loop of `Run` on `code`: the contract runs
`code`, its caches hold analyses of it, and the counter is at an instruction
boundary. -/
structure RunInv (code : Bytes) (e : Exec) : Prop where
  code_eq : e.contract.code = code
  wellFormed : e.contract.WellFormed fun _ => code
  boundary : IsBoundary code e.frame.pc

/-- The first pass of `Run`, on a contract as `Call` makes it. -/
theorem runInv_start (code : Bytes) (codeHash : Hash) (db : StateDB) (storage : GoMap Address Storage)
    (logger : StructLogger) (gas : UInt64) :
    RunInv code ⟨db, storage, logger, ⟨code, codeHash, .empty, none⟩, ⟨0, [], gas⟩⟩ where
  code_eq := rfl
  wellFormed := ⟨fun _ => rfl, fun _ _ h => by simp at h, fun _ h => by simp at h⟩
  boundary := isBoundary_zero code

/-- A jump taken lands on an instruction boundary, a jump not taken moves past
its opcode, and every other operation moves past its data. -/
theorem RunInv.step {code : Bytes} {addr : Address} {e e' : Exec} (hinv : RunInv code e)
    (h : step addr e = .ok (.next e')) : RunInv code e' := by
  obtain ⟨-, gas, storage, f, hx, hpc⟩ := step_next_inv h
  obtain ⟨hwf, hcode⟩ := wellFormed_execute hinv.wellFormed hx
  have hnext : nextPc code e.frame.pc = e.frame.pc + 1 + (getOp e.contract.code e.frame.pc).pushBytes := by
    rw [nextPc, pushSize_eq_pushBytes, getOp, hinv.code_eq]
  refine ⟨hcode.trans hinv.code_eq, hwf, ?_⟩
  rcases execute_cases hx with ⟨-, -, -, hf | ⟨hj, hf⟩⟩ | ⟨hj, pos, f₀, -, hjump⟩
  · by_cases hj : (getOp e.contract.code e.frame.pc).jumps = true
    · -- a jump on a short stack stays where it is
      rw [hpc, if_pos hj, hf, OpCode.pushBytes_of_jumps hj, Nat.add_zero]
      exact hinv.boundary
    · -- any other operation moves past its data
      rw [hpc, if_neg hj, hf, show e.frame.pc + _ + 1 = nextPc code e.frame.pc by omega]
      exact hinv.boundary.next
  · -- `JUMPI` not taken moves past its opcode
    rw [hpc, if_pos hj, hf, show e.frame.pc + 1 = nextPc code e.frame.pc by
      rw [hnext, OpCode.pushBytes_of_jumps hj, Nat.add_zero]]
    exact hinv.boundary.next
  · -- a jump taken: `validJumpdest` accepted a boundary
    obtain ⟨c₁, f₁, err₁, hj₁, -, -, -, hbound⟩ := jumpTo_spec hinv.wellFormed pos f₀
    rw [hjump] at hj₁
    cases hj₁
    rw [hpc, if_pos hj, ← hinv.code_eq]
    exact hbound rfl

/-- The states the loop of `Run` passes through from `e`. -/
def Passes (addr : Address) : Exec → Exec → Prop :=
  Relation.ReflTransGen fun e e' => step addr e = .ok (.next e')

theorem Passes.runInv {code : Bytes} {addr : Address} {e e' : Exec} (h : Passes addr e e')
    (hinv : RunInv code e) : RunInv code e' := by
  induction h with
  | refl => exact hinv
  | tail _ hstep ih => exact ih.step hstep

/-- `PUSH1 4 JUMP JUMPDEST JUMPDEST PUSH2 0x5B5B STOP`. -/
def jumpOverPush : Bytes := [0x60, 0x04, 0x56, 0x5B, 0x5B, 0x61, 0x5B, 0x5B, 0x00]

end Analysis

end Nezha
