/-!
# Bytes and words

The code of a section and the binary form of an image are sequences of bytes in which every
number is a 32-bit word, least significant byte first.

## Main definitions

* `Bytes`: a sequence of bytes
* `wordBytes`, `wordOfBytes`: the four bytes of a word, and the word of four bytes
* `wordsOfBytes?`: a sequence of bytes as words, if its length is a multiple of four

## Main results

* `wordOfBytes_wordBytes`, `wordBytes_wordOfBytes`: the two views of a word are inverse
-/

namespace ScriptCompiler

/-- A sequence of bytes. -/
abbrev Bytes := List UInt8

/-- The four bytes of a word, least significant first. -/
def wordBytes (w : UInt32) : Bytes :=
  [w.toUInt8, (w / 256).toUInt8, (w / 65536).toUInt8, (w / 16777216).toUInt8]

/-- The word whose bytes, least significant first, are `a`, `b`, `c` and `d`. -/
def wordOfBytes (a b c d : UInt8) : UInt32 :=
  a.toUInt32 + 256 * b.toUInt32 + 65536 * c.toUInt32 + 16777216 * d.toUInt32

/-- The words of a sequence of bytes; there are none if the length is not a multiple of four. -/
def wordsOfBytes? (bytes : Bytes) : Option (List UInt32) :=
  go #[] bytes
where
  /-- Adds the words of the remaining bytes to those already `read`. -/
  go (read : Array UInt32) : Bytes → Option (List UInt32)
    | [] => some read.toList
    | a :: b :: c :: d :: rest => go (read.push (wordOfBytes a b c d)) rest
    | _ => none

@[simp] theorem length_wordBytes (w : UInt32) : (wordBytes w).length = 4 := rfl

theorem wordOfBytes_wordBytes (w : UInt32) :
    wordOfBytes w.toUInt8 (w / 256).toUInt8 (w / 65536).toUInt8 (w / 16777216).toUInt8 = w := by
  apply UInt32.toNat_inj.1
  have h := w.toNat_lt
  simp only [wordOfBytes, UInt32.toNat_add, UInt32.toNat_mul, UInt8.toNat_toUInt32,
    UInt32.toNat_toUInt8, UInt32.toNat_div, UInt32.reduceToNat]
  omega

theorem wordBytes_wordOfBytes (a b c d : UInt8) :
    wordBytes (wordOfBytes a b c d) = [a, b, c, d] := by
  have ha := a.toNat_lt
  have hb := b.toNat_lt
  have hc := c.toNat_lt
  have hd := d.toNat_lt
  simp only [wordBytes, wordOfBytes, List.cons.injEq, and_true, ← UInt8.toNat_inj,
    UInt32.toNat_add, UInt32.toNat_mul, UInt8.toNat_toUInt32, UInt32.toNat_toUInt8,
    UInt32.toNat_div, UInt32.reduceToNat]
  omega

end ScriptCompiler
