import ScriptCompiler.Listing
import ScriptCompiler.Utf8

/-!
# Images

A compiled program is an image: the code of its sections and the strings that the code refers to.
Its binary form starts with a magic number, then come the sections and the strings, each list
behind its count and each element behind its length; a zero byte ends every string.

## Main definitions

* `Image`: sections and strings
* `Image.toBytes`, `Image.ofBytes`: writing and reading the binary form
* `Image.writeWithin`: writing into a buffer of limited capacity
* `Image.instructions`: the listing of a section
* `ImageError`: why bytes are not an image
-/

namespace ScriptCompiler

/-- **A compiled program**: the code of its sections, and the strings that the code refers to. -/
structure Image where
  sections : List Bytes := []
  strings : List String := []
deriving DecidableEq, Repr, Inhabited

/-- Why bytes are not an image, or why a section of one cannot be listed. -/
inductive ImageError where
  /-- The bytes end too early. -/
  | unexpectedEnd
  /-- The bytes do not start with the magic number. -/
  | badMagic
  /-- The byte after a string is not zero. -/
  | missingTerminator
  /-- The bytes of a string are not UTF-8. -/
  | notUtf8 (fault : Utf8.Fault)
  /-- There are bytes after the last string. -/
  | trailing (count : Nat)
  /-- There is no section with this number. -/
  | noSection (id : Nat)
  /-- A section is not a sequence of instructions. -/
  | badListing (error : ListingError)
deriving DecidableEq, Repr

namespace ImageError

/-- The cause of the error, in words. -/
def detail : ImageError → String
  | unexpectedEnd => "unexpected end of module"
  | badMagic => "bad magic"
  | missingTerminator => "string missing terminator"
  | notUtf8 fault => fault.detail
  | trailing count => s!"{count} trailing bytes"
  | noSection id => s!"no section {id}"
  | badListing error => error.detail

/-- The text of the error. -/
def message (e : ImageError) : String := "malformed module: " ++ e.detail

end ImageError

namespace Image

/-- The first bytes of every image. -/
def magic : Bytes := [0x4a, 0x53, 0x58, 0x00]

/-- A count or a length, as a word. -/
def countBytes (n : Nat) : Bytes := wordBytes n.toUInt32

/-- A section behind its length. -/
def sectionBytes (code : Bytes) : Bytes := countBytes code.length ++ code

/-- A string behind its length and before its terminator. -/
def stringBytes (text : String) : Bytes :=
  let bytes := Utf8.encode text
  countBytes bytes.length ++ bytes ++ [0]

/-- **The binary form** of an image. -/
def toBytes (image : Image) : Bytes :=
  magic
    ++ countBytes image.sections.length ++ image.sections.flatMap sectionBytes
    ++ countBytes image.strings.length ++ image.strings.flatMap stringBytes

/-- What becomes of a write into a buffer of limited capacity. -/
structure Written where
  /-- The bytes in the buffer afterwards. -/
  bytes : Bytes
  /-- Whether that is all there was to write. -/
  isComplete : Bool
deriving DecidableEq, Repr

/-- The text of the error when a write is incomplete. -/
def Written.message : String := "failed to write whole buffer"

/-- Writes the binary form into a buffer; what does not fit is lost. -/
def writeWithin (capacity : Nat) (image : Image) : Written :=
  let bytes := image.toBytes
  { bytes := bytes.take capacity, isComplete := decide (bytes.length ≤ capacity) }

/-! ## Reading -/

/-- Reads from the front of a sequence of bytes. -/
abbrev Reader := StateT Bytes (Except ImageError)

/-- Reads so many bytes. -/
def readBytes (count : Nat) : Reader Bytes := fun bytes =>
  let (front, rest) := bytes.splitAt count
  if front.length = count then .ok (front, rest) else .error .unexpectedEnd

/-- Reads a word. -/
def readWord : Reader Nat
  | a :: b :: c :: d :: rest => .ok ((wordOfBytes a b c d).toNat, rest)
  | _ => .error .unexpectedEnd

/-- Reads the magic number. -/
def readMagic : Reader Unit := do
  let bytes ← readBytes magic.length
  if bytes = magic then pure () else throw .badMagic

/-- Reads a section. -/
def readSection : Reader Bytes := do
  let length ← readWord
  readBytes length

/-- Reads the terminator of a string. -/
def readTerminator : Reader Unit := do
  let bytes ← readBytes 1
  if bytes = [0] then pure () else throw .missingTerminator

/-- The text that bytes encode. -/
def decodeText (bytes : Bytes) : Except ImageError String :=
  match Utf8.decode? bytes with
  | some text => .ok text
  | none => .error (.notUtf8 (Utf8.fault bytes))

/-- Reads a string. Its terminator is looked at before its text. -/
def readString : Reader String := do
  let length ← readWord
  let bytes ← readBytes length
  readTerminator
  decodeText bytes

/-- Reads so many elements. -/
def readMany {α : Type} (element : Reader α) : Nat → Reader (List α)
  | 0 => return []
  | count + 1 => do
    let first ← element
    let rest ← readMany element count
    return first :: rest

/-- Reads an image; bytes may be left over. -/
def read : Reader Image := do
  readMagic
  let sectionCount ← readWord
  let sections ← readMany readSection sectionCount
  let stringCount ← readWord
  let strings ← readMany readString stringCount
  return { sections, strings }

/-- **The image with a given binary form**, or what is wrong with the bytes. -/
def ofBytes (bytes : Bytes) : Except ImageError Image := do
  let (image, rest) ← read.run bytes
  if rest.isEmpty then return image else throw (.trailing rest.length)

/-- The instructions of a section. -/
def instructions (image : Image) (id : Nat) : Except ImageError (List Instruction) :=
  match image.sections[id]? with
  | none => .error (.noSection id)
  | some code => (Listing.ofBytes code).mapError .badListing

end Image

end ScriptCompiler
