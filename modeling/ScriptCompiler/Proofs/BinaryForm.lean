import Mathlib.Algebra.Ring.Nat
import ScriptCompiler.Image

/-!
# The binary form of images

Reading undoes writing, and what can be read has been written. The parts of an image are read one
after the other, each by a reader that takes from the front of the bytes what the part is written
as and leaves the rest; a list is read element by element behind its count.

## Main definitions

* `Image.Reads`: a reader takes exactly what a writer puts in front of the bytes
* `Image.Fits`: the counts and lengths of an image fit into words

## Main results

* `Image.reads_read`: an image is read from its binary form, whatever comes after it
* `Image.ofBytes_eq_ok_iff`: bytes are read as an image if they are its binary form, and only then
-/

namespace ScriptCompiler

namespace Utf8

theorem length_encode (text : String) : (encode text).length = text.utf8ByteSize := rfl

/-- What is read as a text is its encoding. -/
theorem encode_of_decode? {bytes : Bytes} {text : String} (h : decode? bytes = some text) :
    encode text = bytes := by
  simp only [decode?, String.fromUTF8?] at h
  split at h
  · cases h
    rfl
  · cases h

theorem decode?_eq_some_iff {bytes : Bytes} {text : String} :
    decode? bytes = some text ↔ bytes = encode text := by
  constructor
  · exact fun h => (encode_of_decode? h).symm
  · rintro rfl
    exact decode?_encode text

end Utf8

namespace Image

/-- **A reader takes exactly what a writer puts in front of the bytes**, for all values that fit
into the format. -/
def Reads {α : Type} (reader : Reader α) (write : α → Bytes) (Fits : α → Prop) : Prop :=
  ∀ bytes x rest, reader bytes = .ok (x, rest) ↔ Fits x ∧ bytes = write x ++ rest

/-! ## Steps of reading -/

section Steps

variable {α β : Type}

theorem bind_eq_ok_iff {reader : Reader α} {next : α → Reader β} {bytes rest : Bytes} {y : β} :
    (reader >>= next) bytes = .ok (y, rest) ↔
      ∃ x middle, reader bytes = .ok (x, middle) ∧ next x middle = .ok (y, rest) := by
  change (reader bytes).bind (fun r => next r.1 r.2) = _ ↔ _
  cases reader bytes with
  | error e => simp [Except.bind]
  | ok r =>
    constructor
    · exact fun h => ⟨r.1, r.2, rfl, h⟩
    · rintro ⟨x, middle, hr, h⟩
      cases hr
      exact h

theorem pure_eq_ok_iff {x y : α} {bytes rest : Bytes} :
    (pure x : Reader α) bytes = .ok (y, rest) ↔ x = y ∧ bytes = rest := by
  change Except.ok (x, bytes) = .ok (y, rest) ↔ _
  rw [Except.ok.injEq, Prod.mk.injEq]

theorem readBytes_eq_ok_iff {count : Nat} {bytes front rest : Bytes} :
    readBytes count bytes = .ok (front, rest) ↔ front.length = count ∧ bytes = front ++ rest := by
  simp only [readBytes, List.splitAt_eq]
  constructor
  · intro h
    split at h
    · next hl =>
      cases h
      exact ⟨hl, (List.take_append_drop count bytes).symm⟩
    · cases h
  · rintro ⟨rfl, rfl⟩
    simp

/-- A step that reads fixed bytes and checks them. -/
theorem check_eq_ok_iff {expected bytes rest : Bytes} {error : ImageError} {count : Nat}
    (hc : count = expected.length) :
    (do let front ← readBytes count
        if front = expected then pure () else throw error : Reader Unit) bytes = .ok ((), rest) ↔
      bytes = expected ++ rest := by
  rw [bind_eq_ok_iff]
  constructor
  · rintro ⟨front, middle, hr, hf⟩
    split at hf
    · next he =>
      cases hf
      rw [(readBytes_eq_ok_iff.mp hr).2, he]
    · cases hf
  · rintro rfl
    refine ⟨expected, rest, readBytes_eq_ok_iff.mpr ⟨hc.symm, rfl⟩, ?_⟩
    rw [if_pos rfl]
    rfl

end Steps

/-! ## Parts of an image -/

/-- A count is read from its word. -/
theorem reads_readWord : Reads readWord countBytes (· < 2 ^ 32) := by
  intro bytes n rest
  constructor
  · intro h
    match bytes, h with
    | a :: b :: c :: d :: tail, h =>
      cases h
      refine ⟨UInt32.toNat_lt _, ?_⟩
      rw [countBytes, Nat.toUInt32_eq, UInt32.ofNat_toNat, wordBytes_wordOfBytes]
      rfl
  · rintro ⟨hn, rfl⟩
    simp only [countBytes, wordBytes, List.cons_append, List.nil_append, readWord,
      wordOfBytes_wordBytes]
    rw [Nat.toUInt32_eq, UInt32.toNat_ofNat_of_lt' hn]

theorem reads_readSection : Reads readSection sectionBytes (·.length < 2 ^ 32) := by
  intro bytes code rest
  simp only [readSection, sectionBytes, bind_eq_ok_iff, reads_readWord _ _ _, readBytes_eq_ok_iff]
  constructor
  · rintro ⟨length, middle, ⟨hl, rfl⟩, rfl, rfl⟩
    exact ⟨hl, (List.append_assoc _ _ _).symm⟩
  · rintro ⟨hl, rfl⟩
    exact ⟨_, _, ⟨hl, List.append_assoc _ _ _⟩, rfl, rfl⟩

theorem decodeText_eq_ok_iff {bytes : Bytes} {text : String} :
    decodeText bytes = .ok text ↔ bytes = Utf8.encode text := by
  rw [← Utf8.decode?_eq_some_iff, decodeText]
  cases Utf8.decode? bytes <;> simp

theorem liftM_decodeText_eq_ok_iff {bytes middle rest : Bytes} {text : String} :
    (decodeText bytes : Reader String) middle = .ok (text, rest) ↔
      bytes = Utf8.encode text ∧ middle = rest := by
  rw [← decodeText_eq_ok_iff]
  change ((decodeText bytes).bind fun text => .ok (text, middle)) = _ ↔ _
  cases decodeText bytes <;> simp [Except.bind]

theorem reads_readString : Reads readString stringBytes (·.utf8ByteSize < 2 ^ 32) := by
  intro bytes text rest
  have terminator : ∀ {bytes rest}, readTerminator bytes = .ok ((), rest) ↔ bytes = [0] ++ rest :=
    check_eq_ok_iff rfl
  simp only [readString, stringBytes, bind_eq_ok_iff, reads_readWord _ _ _, readBytes_eq_ok_iff,
    terminator, liftM_decodeText_eq_ok_iff, ← Utf8.length_encode]
  constructor
  · rintro ⟨length, middle, ⟨hl, rfl⟩, _, _, ⟨rfl, rfl⟩, _, _, rfl, rfl, rfl⟩
    exact ⟨hl, by simp⟩
  · rintro ⟨hl, rfl⟩
    exact ⟨_, Utf8.encode text ++ ([0] ++ rest), ⟨hl, by simp⟩, _, _, ⟨rfl, rfl⟩, (), _, rfl, rfl,
      rfl⟩

/-- **A list is read element by element.** -/
theorem readMany_eq_ok_iff {α : Type} {element : Reader α} {write : α → Bytes} {Fits : α → Prop}
    (h : Reads element write Fits) {count : Nat} {bytes rest : Bytes} {xs : List α} :
    readMany element count bytes = .ok (xs, rest) ↔
      xs.length = count ∧ (∀ x ∈ xs, Fits x) ∧ bytes = xs.flatMap write ++ rest := by
  induction count generalizing bytes xs with
  | zero =>
    rw [readMany, pure_eq_ok_iff]
    constructor
    · rintro ⟨rfl, rfl⟩
      simp
    · rintro ⟨hl, -, rfl⟩
      cases List.length_eq_zero_iff.mp hl
      exact ⟨rfl, rfl⟩
  | succ count ih =>
    simp only [readMany, bind_eq_ok_iff, pure_eq_ok_iff, h _ _ _]
    constructor
    · rintro ⟨x, _, ⟨hx, rfl⟩, xs, _, hr, rfl, rfl⟩
      obtain ⟨rfl, hxs, rfl⟩ := ih.mp hr
      exact ⟨rfl, List.forall_mem_cons.mpr ⟨hx, hxs⟩, by simp⟩
    · rintro ⟨hl, hf, rfl⟩
      obtain ⟨x, xs, rfl⟩ := List.exists_cons_of_length_eq_add_one hl
      rw [List.forall_mem_cons] at hf
      exact ⟨x, xs.flatMap write ++ rest, ⟨hf.1, by simp⟩, xs, rest,
        ih.mpr ⟨Nat.succ.inj hl, hf.2, rfl⟩, rfl, rfl⟩

/-! ## Images -/

/-- **The counts and lengths of an image fit into words.** -/
structure Fits (image : Image) : Prop where
  sections : image.sections.length < 2 ^ 32
  codes : ∀ code ∈ image.sections, code.length < 2 ^ 32
  strings : image.strings.length < 2 ^ 32
  texts : ∀ text ∈ image.strings, text.utf8ByteSize < 2 ^ 32

/-- **An image is read from its binary form**, whatever comes after it. -/
theorem reads_read : Reads read toBytes Fits := by
  intro bytes image rest
  have signature : ∀ {bytes rest}, readMagic bytes = .ok ((), rest) ↔ bytes = magic ++ rest :=
    check_eq_ok_iff rfl
  simp only [read, toBytes, bind_eq_ok_iff, pure_eq_ok_iff, signature, reads_readWord _ _ _,
    readMany_eq_ok_iff reads_readSection, readMany_eq_ok_iff reads_readString]
  constructor
  · rintro ⟨_, _, rfl, _, _, ⟨hsections, rfl⟩, sections, _, ⟨rfl, hcodes, rfl⟩, _, _,
      ⟨hstrings, rfl⟩, strings, _, ⟨rfl, htexts, rfl⟩, rfl, rfl⟩
    exact ⟨⟨hsections, hcodes, hstrings, htexts⟩, by simp only [List.append_assoc]⟩
  · rintro ⟨⟨hsections, hcodes, hstrings, htexts⟩, rfl⟩
    refine ⟨(), _, by simp only [List.append_assoc], _, _, ⟨hsections, rfl⟩, image.sections, _,
      ⟨rfl, hcodes, rfl⟩, _, _, ⟨hstrings, rfl⟩, image.strings, _, ⟨rfl, htexts, rfl⟩, rfl, rfl⟩

/-- **The binary form is a bijection.** Bytes are read as an image if they are the binary form of
that image and its counts and lengths fit into words, and only then. -/
theorem ofBytes_eq_ok_iff (bytes : Bytes) (image : Image) :
    ofBytes bytes = .ok image ↔ image.Fits ∧ image.toBytes = bytes := by
  have hr := reads_read bytes image []
  rw [List.append_nil, eq_comm (a := bytes)] at hr
  rw [← hr, ofBytes]
  change ((read bytes).bind fun r => _) = _ ↔ read bytes = _
  cases read bytes with
  | error e => simp [Except.bind]
  | ok r =>
    obtain ⟨other, rest⟩ := r
    cases rest with
    | nil => simp [Except.bind, pure, Except.pure]
    | cons byte rest => simp [Except.bind, throw, throwThe, MonadExceptOf.throw]

/-- Sections and strings may be empty, and a string may hold the byte that ends strings. -/
example :
    let image : Image := { sections := [[], [1, 0, 0, 0]], strings := ["", "a\x00b", "é"] }
    (ofBytes (toBytes image)).toOption = some image := by
  decide +kernel

end Image

end ScriptCompiler
