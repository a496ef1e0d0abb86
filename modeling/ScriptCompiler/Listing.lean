import ScriptCompiler.Binary64
import ScriptCompiler.Opcode

/-!
# Listings

The bytes of a section are read back as instructions, each an opcode with its operand words and
the word offset at which it starts.

## Main definitions

* `Instruction`: one entry of a listing
* `ListingError`: why bytes are not a sequence of instructions
* `Listing.ofBytes`: the instructions of a section

## Main results

* `Listing.ofWords_instruction`: how an instruction at the front of words is read
-/

namespace ScriptCompiler

/-- **An instruction** and the word offset at which it starts. -/
structure Instruction where
  offset : Nat
  opcode : Opcode
  operands : List UInt32
deriving DecidableEq, Repr, Inhabited

/-- The number literal of an instruction that pushes one. -/
def Instruction.number? (i : Instruction) : Option Binary64 :=
  match i.opcode, i.operands with
  | .pushNumber, [lo, hi] => some (.ofWords lo hi)
  | _, _ => none

/-- Why bytes are not a sequence of instructions. -/
inductive ListingError where
  /-- The length is not a multiple of the word size. -/
  | notWordAligned
  /-- A word that should start an instruction is no opcode's code. -/
  | unknownOpcode (code : UInt32) (offset : Nat)
  /-- The bytes end before the operands of an instruction do. -/
  | truncated (opcode : Opcode) (offset : Nat)
deriving DecidableEq, Repr

/-- The text of the error. -/
def ListingError.detail : ListingError → String
  | notWordAligned => "section is not word aligned"
  | unknownOpcode code offset => s!"unknown opcode {code.toNat} at word {offset}"
  | truncated opcode offset => s!"truncated {opcode.mnemonic} at word {offset}"

namespace Listing

/-- The instructions of a sequence of words, the first of which is at `offset`. -/
def ofWords (offset : Nat) : List UInt32 → Except ListingError (List Instruction)
  | [] => .ok []
  | code :: rest =>
    match Opcode.ofCode? code with
    | none => .error (.unknownOpcode code offset)
    | some op =>
      match op.operandWords, rest with
      | 0, rest => do
        let tail ← ofWords (offset + 1) rest
        return ⟨offset, op, []⟩ :: tail
      | 1, a :: rest => do
        let tail ← ofWords (offset + 2) rest
        return ⟨offset, op, [a]⟩ :: tail
      | 2, a :: b :: rest => do
        let tail ← ofWords (offset + 3) rest
        return ⟨offset, op, [a, b]⟩ :: tail
      | _, _ => .error (.truncated op offset)

/-- **An instruction is read as such**, with as many operands as its opcode takes. -/
theorem ofWords_instruction {op : Opcode} {operands : List UInt32}
    (h : operands.length = op.operandWords) (offset : Nat) (rest : List UInt32) :
    ofWords offset (op.code :: (operands ++ rest)) =
      (ofWords (offset + (1 + op.operandWords)) rest).map (⟨offset, op, operands⟩ :: ·) := by
  have hle := op.operandWords_le_two
  rw [← h] at hle
  rw [ofWords, Opcode.ofCode?_code]
  simp only [← h]
  match operands with
  | [] | [a] | [a, b] => rfl
  | _ :: _ :: _ :: _ =>
    simp only [List.length_cons] at hle
    omega

/-- **The instructions of a section.** -/
def ofBytes (bytes : Bytes) : Except ListingError (List Instruction) :=
  match wordsOfBytes? bytes with
  | none => .error .notWordAligned
  | some words => ofWords 0 words

end Listing

end ScriptCompiler
