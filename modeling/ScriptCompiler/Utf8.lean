import ScriptCompiler.Bytes

/-!
# Diagnosis of malformed UTF-8

Bytes that are not UTF-8 are reported with the length of the longest well-formed beginning and
with the extent of what follows it: either a sequence that some byte breaks, or a sequence that
the end of the bytes cuts short.

## Main definitions

* `Utf8.Fault`: where and how bytes fail to be UTF-8
* `Utf8.fault`: the first fault of malformed bytes
* `Utf8.encode`, `Utf8.decode?`: the bytes of a text, and the text of well-formed bytes

## Main results

* `Utf8.decode?_encode`: a text is read back from its bytes
-/

namespace ScriptCompiler.Utf8

/-- **The first fault** of bytes that are not UTF-8, with the index at which it starts. -/
inductive Fault where
  /-- So many bytes begin a sequence that the next byte does not continue; a byte that begins no
  sequence counts as one. -/
  | invalid (length index : Nat)
  /-- The bytes end inside a sequence that is well-formed so far. -/
  | incomplete (index : Nat)
deriving DecidableEq, Repr

/-- The text of a fault. -/
def Fault.detail : Fault → String
  | invalid length index => s!"invalid utf-8 sequence of {length} bytes from index {index}"
  | incomplete index => s!"incomplete utf-8 byte sequence from index {index}"

/-- The ranges of the bytes that have to follow a leading byte; a byte in no range leads nothing.
The second byte is narrowed where a wider one would encode a surrogate, a code point beyond the
last, or a code point that has a shorter sequence. -/
def continuation? (lead : UInt8) : Option (List (UInt8 × UInt8)) :=
  if lead < 0x80 then some []
  else if lead < 0xc2 then none
  else if lead < 0xe0 then some [(0x80, 0xbf)]
  else if lead = 0xe0 then some [(0xa0, 0xbf), (0x80, 0xbf)]
  else if lead = 0xed then some [(0x80, 0x9f), (0x80, 0xbf)]
  else if lead < 0xf0 then some [(0x80, 0xbf), (0x80, 0xbf)]
  else if lead = 0xf0 then some [(0x90, 0xbf), (0x80, 0xbf), (0x80, 0xbf)]
  else if lead < 0xf4 then some [(0x80, 0xbf), (0x80, 0xbf), (0x80, 0xbf)]
  else if lead = 0xf4 then some [(0x80, 0x8f), (0x80, 0xbf), (0x80, 0xbf)]
  else none

/-- The first fault, if the sequence that starts at `index` has `taken` bytes so far and the bytes
of the ranges `pending` are still to come. After well-formed bytes a sequence is missing. -/
def faultFrom (index taken : Nat) : (pending : List (UInt8 × UInt8)) → Bytes → Fault
  | [], [] => .incomplete (index + taken)
  | _ :: _, [] => .incomplete index
  | [], lead :: rest =>
    match continuation? lead with
    | some ranges => faultFrom (index + taken) 1 ranges rest
    | none => .invalid 1 (index + taken)
  | (lowest, highest) :: pending, byte :: rest =>
    if lowest ≤ byte ∧ byte ≤ highest then faultFrom index (taken + 1) pending rest
    else .invalid taken index

/-- The first fault of malformed bytes. -/
def fault (bytes : Bytes) : Fault := faultFrom 0 0 [] bytes

/-- The text that bytes encode. -/
def decode? (bytes : Bytes) : Option String := String.fromUTF8? ⟨bytes.toArray⟩

/-- The bytes that encode a text. -/
def encode (text : String) : Bytes := text.toUTF8.data.toList

@[simp] theorem decode?_encode (text : String) : decode? (encode text) = some text := by
  simp [decode?, encode, String.fromUTF8?, text.isValidUTF8, String.fromUTF8]

end ScriptCompiler.Utf8
