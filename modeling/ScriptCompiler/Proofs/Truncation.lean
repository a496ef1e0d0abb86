import ScriptCompiler.Proofs.BinaryForm

/-!
# Binary forms that are cut off or go on

The parts of an image are read from the front of the bytes, and no reader looks past what it takes.
So a reader that does not run out of bytes gives the same answer whatever comes after them. Bytes
that are cut off are therefore never read as something else, and what follows an image is left over.

## Main definitions

* `Image.Steady`: a reader that does not run out of bytes does not depend on what comes after them

## Main results

* `Image.Steady.bind`, `Image.steady_readMany`: readers that are run one after the other are steady
* `Image.steady_read`: reading an image is steady
* `Image.resized_refused`: a binary form is refused if it is cut off anywhere, or if it goes on
-/

namespace ScriptCompiler

namespace Image

/-- **A reader does not look past what it takes**: it runs out of bytes, or more bytes behind those
that it has are left over and change nothing else. -/
def Steady {α : Type} (reader : Reader α) : Prop :=
  ∀ bytes more, reader bytes = .error .unexpectedEnd ∨
    reader (bytes ++ more) = (reader bytes).map fun (x, rest) => (x, rest ++ more)

section Steps

variable {α β : Type}

theorem steady_pure (x : α) : Steady (pure x : Reader α) := by
  intro bytes more
  exact .inr rfl

theorem steady_throw (e : ImageError) : Steady (throw e : Reader α) := by
  intro bytes more
  exact .inr rfl

/-- **Readers that are run one after the other are steady** if each of them is. -/
theorem Steady.bind {reader : Reader α} {next : α → Reader β} (h : Steady reader)
    (hn : ∀ x, Steady (next x)) : Steady (reader >>= next) := by
  intro bytes more
  show (reader bytes).bind (fun r => next r.1 r.2) = _ ∨
    (reader (bytes ++ more)).bind (fun r => next r.1 r.2) =
      ((reader bytes).bind fun r => next r.1 r.2).map _
  rcases h bytes more with he | he
  · rw [he]
    exact .inl rfl
  · rw [he]
    cases reader bytes with
    | error e => exact .inr rfl
    | ok r => exact hn r.1 r.2 more

theorem steady_readBytes (count : Nat) : Steady (readBytes count) := by
  intro bytes more
  unfold readBytes
  simp only [List.splitAt_eq, List.length_take]
  by_cases hc : count ≤ bytes.length
  · refine .inr ?_
    rw [if_pos (by rw [List.length_append]; omega), if_pos (by omega),
      List.take_append_of_le_length hc, List.drop_append_of_le_length hc]
    rfl
  · exact .inl (if_neg (by omega))

theorem steady_readWord : Steady readWord := by
  intro bytes more
  match bytes with
  | [] | [_] | [_, _] | [_, _, _] => exact .inl rfl
  | a :: b :: c :: d :: rest => exact .inr rfl

theorem steady_check (expected : Bytes) (error : ImageError) (count : Nat) :
    Steady (do
      let front ← readBytes count
      if front = expected then pure () else throw error : Reader Unit) := by
  refine (steady_readBytes count).bind fun front => ?_
  by_cases hf : front = expected
  · rw [if_pos hf]
    exact steady_pure ()
  · rw [if_neg hf]
    exact steady_throw error

theorem steady_decodeText (bytes : Bytes) : Steady (decodeText bytes : Reader String) := by
  intro front more
  show ((decodeText bytes).bind fun text => .ok (text, front)) = _ ∨
    ((decodeText bytes).bind fun text => .ok (text, front ++ more)) =
      ((decodeText bytes).bind fun text => .ok (text, front)).map _
  refine .inr ?_
  cases decodeText bytes <;> rfl

end Steps

/-! ## Parts of an image -/

theorem steady_readSection : Steady readSection :=
  steady_readWord.bind steady_readBytes

/-- The terminator and the text are looked at only when the bytes of a string are all there. -/
theorem steady_readString : Steady readString := by
  refine steady_readWord.bind fun length => ?_
  refine (steady_readBytes length).bind fun bytes => ?_
  exact (steady_check [0] .missingTerminator 1).bind fun _ => steady_decodeText bytes

/-- **A list is read steadily** if its elements are. -/
theorem steady_readMany {α : Type} {element : Reader α} (h : Steady element) (count : Nat) :
    Steady (readMany element count) := by
  induction count with
  | zero => exact steady_pure []
  | succ count ih =>
    refine h.bind fun first => ?_
    exact ih.bind fun rest => steady_pure (first :: rest)

/-- **Reading an image is steady.** -/
theorem steady_read : Steady read := by
  refine (steady_check magic .badMagic magic.length).bind fun _ => ?_
  refine steady_readWord.bind fun sectionCount => ?_
  refine (steady_readMany steady_readSection sectionCount).bind fun sections => ?_
  refine steady_readWord.bind fun stringCount => ?_
  refine (steady_readMany steady_readString stringCount).bind fun strings => ?_
  exact steady_pure (⟨sections, strings⟩ : Image)

/-! ## Images -/

theorem ofBytes_eq (bytes : Bytes) :
    ofBytes bytes = (read bytes).bind fun (image, rest) =>
      if rest.isEmpty then .ok image else .error (.trailing rest.length) := rfl

variable {image : Image}

/-- What is cut off is an image no more. -/
theorem ofBytes_of_prefix (h : image.Fits) {front : Bytes} (hp : front <+: image.toBytes)
    (hne : front ≠ image.toBytes) : ofBytes front = .error .unexpectedEnd := by
  obtain ⟨lost, hl⟩ := hp
  have hread : read (front ++ lost) = .ok (image, []) :=
    (reads_read _ _ _).mpr ⟨h, by rw [hl, List.append_nil]⟩
  rw [ofBytes_eq]
  rcases steady_read front lost with he | he
  · rw [he]
    rfl
  · rw [hread] at he
    cases hf : read front with
    | error e =>
      rw [hf] at he
      cases he
    | ok r =>
      rw [hf] at he
      have hrest : r.2 ++ lost = [] := (Prod.mk.inj (Except.ok.inj he)).2.symm
      have hlost : lost = [] := (List.append_eq_nil_iff.mp hrest).2
      rw [hlost, List.append_nil] at hl
      exact absurd hl hne

/-- What follows an image is counted. -/
theorem ofBytes_append (h : image.Fits) {more : Bytes} (hm : more ≠ []) :
    ofBytes (image.toBytes ++ more) = .error (.trailing more.length) := by
  have hread : read (image.toBytes ++ more) = .ok (image, more) :=
    (reads_read _ _ _).mpr ⟨h, rfl⟩
  rw [ofBytes_eq, hread]
  exact if_neg (by simpa using hm)

/-- **A binary form is refused if it is cut off anywhere, or if it goes on**, for every image whose
counts and lengths fit into words. The error says which of the two it is, and how many bytes there
are too many. -/
theorem resized_refused (h : image.Fits) :
    (∀ front, front <+: image.toBytes → front ≠ image.toBytes →
      ofBytes front = .error .unexpectedEnd) ∧
    (∀ more, more ≠ [] → ofBytes (image.toBytes ++ more) = .error (.trailing more.length)) ∧
    ImageError.unexpectedEnd.message = "malformed module: unexpected end of module" ∧
    ∀ count, (ImageError.trailing count).message =
      "malformed module: " ++ toString count ++ " trailing bytes" := by
  refine ⟨fun front => ofBytes_of_prefix h, fun more => ofBytes_append h, rfl, fun count => ?_⟩
  rw [String.append_assoc]
  rfl

/-- A text that is cut off inside a character is not taken for malformed, and a byte after the last
terminator is one too many. -/
theorem resized_refused_text :
    Fits { sections := [[]], strings := ["é"] } ∧
      ofBytes ((toBytes { sections := [[]], strings := ["é"] }).take 21) =
        .error .unexpectedEnd ∧
      ofBytes (toBytes { sections := [[]], strings := ["é"] } ++ [0]) = .error (.trailing 1) := by
  have h : Fits { sections := [[]], strings := ["é"] } :=
    ⟨by decide, by decide, by decide, by decide +kernel⟩
  obtain ⟨cut, extended, -⟩ := resized_refused h
  exact ⟨h, cut _ (List.take_prefix _ _) (by decide +kernel), extended [0] (by simp)⟩

end Image

end ScriptCompiler
