import ChainIngest.Proofs.EncodedEvents
import ChainIngest.Trace.Revert
/-!
# Reasons of failure

The return data of a failed root says something if it encodes an error with a text or a
panic with a number, wherever the offset points and whatever follows, or if it is text
itself.  An error's text is reported as it was written.  Where the data says nothing the
tracer's message is reported, so of a failed root there is always a report.
-/

namespace ChainIngest

namespace Abi

variable {data : Bytes} {place : Nat}

theorem bytes?_eq_some_iff_holds {b : Bytes} :
    bytes? data place = some b ↔ Holds data place (.bytes b) := by
  have h := @value?_eq_some_iff data place .bytes (.bytes b)
  simpa [value?, Value.kind] using h

theorem head?_eq_some_iff_holds {w : Word} :
    head? data place = some w ↔ Holds data place (.word w) := by
  have h := @value?_eq_some_iff data place .word (.word w)
  simpa [value?, Value.kind] using h

theorem holds_encode {b : Bytes} (h : b.length < Word.bound) (rest : Bytes) :
    Holds (encode [.bytes b] ++ rest) 0 (.bytes b) := by
  have hoffset : tailOffset [] [.bytes b] < Word.bound := by
    show 32 < Word.bound
    decide
  have hbare : Holds (bare [.bytes b]) 0 (.bytes b) :=
    @holds_of_fits (.bytes b) [] [] (by simp [Value.kind]) hoffset h
  apply hbare.extend
  exact (bare_prefix_encode _).trans (List.prefix_append ..)

end Abi

namespace Trace

open Text

/-! ## What return data says -/

def errorSelector : Bytes := [0x08, 0xc3, 0x79, 0xa0]

def panicSelector : Bytes := [0x4e, 0x48, 0x7b, 0x71]

def EncodesError (output content : Bytes) : Prop :=
  ∃ body, output = errorSelector ++ body ∧ Abi.Holds body 0 (.bytes content)

def EncodesPanic (output : Bytes) (code : Word) : Prop :=
  ∃ body, output = panicSelector ++ body ∧ Abi.Holds body 0 (.word code)

/-- The return data is neither an error nor a panic nor text. -/
structure Mute (output : Bytes) : Prop where
  no_error : ∀ content, ¬ EncodesError output content
  no_panic : ∀ code, ¬ EncodesPanic output code
  no_text : ∀ text, Utf8.encode text ≠ output

def errorReport (text : String) : String :=
  if text = "" then "revert: <empty>" else "revert: " ++ text

def panicReport (code : Word) : String :=
  "panic: " ++ panicText code.toNat ++ " (" ++ panicCode code.toNat ++ ")"

variable {output : Bytes}

theorem errorText?_append (body : Bytes) : errorText? (errorSelector ++ body) =
    (Abi.string? body 0).map fun text =>
      "revert: " ++ (if text.isEmpty then "<empty>" else text) := by
  cases h : Abi.string? body 0 <;> simp [errorSelector, errorText?, h]

theorem panic?_append (body : Bytes) :
    panic? (panicSelector ++ body) = (Abi.head? body 0).map panicReport := by
  cases h : Abi.head? body 0 <;> simp [panicSelector, panic?, panicReport, h]

theorem errorText?_of_encodesError {content : Bytes} (h : EncodesError output content) :
    errorText? output = some (errorReport (Utf8.lossy content)) := by
  obtain ⟨body, rfl, hbody⟩ := h
  have hread : Abi.string? body 0 = some (Utf8.lossy content) := by
    rw [Abi.string?, Abi.bytes?_eq_some_iff_holds.mpr hbody]
    rfl
  rw [errorText?_append, hread, Option.map_some, errorReport]
  by_cases hempty : Utf8.lossy content = ""
  · rw [if_pos hempty, if_pos (String.isEmpty_iff.mpr hempty)]
    rfl
  · rw [if_neg hempty, if_neg (mt String.isEmpty_iff.mp hempty)]

theorem panic?_of_encodesPanic {code : Word} (h : EncodesPanic output code) :
    panic? output = some (panicReport code) := by
  obtain ⟨body, rfl, hbody⟩ := h
  rw [panic?_append, Abi.head?_eq_some_iff_holds.mpr hbody]
  rfl

theorem errorText?_eq_none_iff :
    errorText? output = none ↔ ∀ content, ¬ EncodesError output content := by
  constructor
  · intro hnone content hcontent
    rw [errorText?_of_encodesError hcontent] at hnone
    cases hnone
  · intro hnot
    unfold errorText?
    split
    · next body =>
      cases hread : Abi.string? body 0 with
      | none => rfl
      | some text =>
          obtain ⟨content, hcontent, -⟩ := Option.map_eq_some_iff.mp hread
          exact absurd ⟨body, rfl, Abi.bytes?_eq_some_iff_holds.mp hcontent⟩ (hnot content)
    · rfl

theorem panic?_eq_none_iff : panic? output = none ↔ ∀ code, ¬ EncodesPanic output code := by
  constructor
  · intro hnone code hcode
    rw [panic?_of_encodesPanic hcode] at hnone
    cases hnone
  · intro hnot
    unfold panic?
    split
    · next body =>
      cases hread : Abi.head? body 0 with
      | none => rfl
      | some code =>
          exact absurd ⟨body, rfl, Abi.head?_eq_some_iff_holds.mp hread⟩ (hnot code)
    · rfl

/-- Nothing is said by exactly the data that are no error, no panic and no text. -/
theorem reason?_eq_none_iff : reason? output = none ↔ Mute output := by
  rw [reason?, Option.orElse_eq_orElse, ← Option.or_eq_orElse, ← Option.or_eq_orElse,
    Option.or_eq_none_iff, Option.or_eq_none_iff, errorText?_eq_none_iff, panic?_eq_none_iff,
    Utf8.decode?_eq_none_iff]
  exact ⟨fun h => ⟨h.1, h.2.1, h.2.2⟩, fun h => ⟨h.no_error, h.no_panic, h.no_text⟩⟩

theorem errorReport_ne_empty (text : String) : errorReport text ≠ "" := by
  unfold errorReport
  split
  · decide
  · intro h
    have hlength := congrArg String.length h
    simp at hlength

theorem reason?_nil : reason? [] = some "" := by
  have htext : Utf8.decode? [] = some "" := Utf8.decode?_eq_some_iff.mpr rfl
  rw [reason?, htext]
  rfl

/-! ## Reports -/

section Reports

variable {t : CallTrace} {root : Frame} {message : String}

theorem root?_eq_none_iff : t.root? = none ↔ t.isEmpty = true := by
  simp [CallTrace.root?, CallTrace.frame?, CallTrace.isEmpty]

theorem revertReason?_of_not_failed (hroot : t.root? = some root) (herror : root.error = none) :
    revertReason? t = none := by
  rw [revertReason?, hroot, Option.bind_eq_bind, Option.bind_some, herror]
  rfl

/-- Of a failed root what the return data says is reported, or else the tracer's message. -/
theorem revertReason?_of_failed (hroot : t.root? = some root)
    (herror : root.error = some message) :
    revertReason? t = some (match reason? root.output with
      | some text => if text.isEmpty then message else text
      | none => message) := by
  rw [revertReason?, hroot, Option.bind_eq_bind, Option.bind_some, herror, Option.bind_eq_bind,
    Option.bind_some]
  cases reason? root.output <;> rfl

theorem revertReason?_eq_none_iff : revertReason? t = none ↔
    t.isEmpty = true ∨ ∃ root, t.root? = some root ∧ root.error = none := by
  cases hroot : t.root? with
  | none =>
      rw [revertReason?, hroot]
      exact iff_of_true rfl (.inl (root?_eq_none_iff.mp hroot))
  | some root =>
      have hsome : t.isEmpty ≠ true := by
        intro hempty
        rw [root?_eq_none_iff.mpr hempty] at hroot
        cases hroot
      cases herror : root.error with
      | none =>
          have hnone := revertReason?_of_not_failed hroot herror
          exact iff_of_true hnone (.inr ⟨root, rfl, herror⟩)
      | some message =>
          rw [revertReason?_of_failed hroot herror]
          simp [hsome, herror]

/-- An error's text is reported wherever it stands, with U+FFFD for what is not UTF-8. -/
theorem revertReason?_of_encodesError (hroot : t.root? = some root)
    (herror : root.error = some message) {content : Bytes}
    (h : EncodesError root.output content) :
    revertReason? t = some (errorReport (Utf8.lossy content)) := by
  have hreason : reason? root.output = some (errorReport (Utf8.lossy content)) := by
    rw [reason?, errorText?_of_encodesError h]
    rfl
  rw [revertReason?_of_failed hroot herror, hreason]
  exact congrArg some (if_neg (mt String.isEmpty_iff.mp (errorReport_ne_empty _)))

theorem revertReason?_of_silent (hroot : t.root? = some root)
    (herror : root.error = some message) (h : root.output = [] ∨ Mute root.output) :
    revertReason? t = some message := by
  rw [revertReason?_of_failed hroot herror]
  rcases h with hempty | hmute
  · rw [hempty, reason?_nil]
    rfl
  · rw [reason?_eq_none_iff.mpr hmute]

/-- There is a report exactly of a failed root.  The text of an encoded error is reported as it was
written, whatever follows its encoding, and the tracer's message if the return data is empty or
says nothing. -/
theorem revertReason?_faithful (t : CallTrace) :
    (revertReason? t = none ↔
      t.isEmpty = true ∨ ∃ root, t.root? = some root ∧ root.error = none) ∧
    ∀ root message, t.root? = some root → root.error = some message →
      (∀ (text : String) (rest : Bytes), (Utf8.encode text).length < Word.bound →
        root.output = errorSelector ++ (Abi.encode [.bytes (Utf8.encode text)] ++ rest) →
        revertReason? t =
          some (if text = "" then "revert: <empty>" else "revert: " ++ text)) ∧
      (root.output = [] ∨ Mute root.output → revertReason? t = some message) := by
  refine ⟨revertReason?_eq_none_iff, fun root message hroot herror => ⟨?_, ?_⟩⟩
  · intro text rest hfits houtput
    have hencodes : EncodesError root.output (Utf8.encode text) :=
      ⟨_, houtput, Abi.holds_encode hfits rest⟩
    have hreport := revertReason?_of_encodesError hroot herror hencodes
    rwa [Utf8.lossy_encode] at hreport
  · exact revertReason?_of_silent hroot herror

def failedCall (output : Bytes) : CallTrace :=
  .ofRoot { Frame.plain .call ⟨0xa1⟩ (some ⟨0xb0⟩) 0 with
    output := output, error := some "execution reverted" }

/-- A text beyond ASCII with bytes behind its encoding that are no text, an empty text, no return
data, and a selector without anything behind it. -/
theorem revertReason?_faithful_failed :
    revertReason? CallTrace.empty = none ∧
      revertReason? (failedCall
        (errorSelector ++ (Abi.encode [.bytes (Utf8.encode "né")] ++ [0xff, 0x00]))) =
          some "revert: né" ∧
      revertReason? (failedCall (errorSelector ++ (Abi.encode [.bytes (Utf8.encode "")] ++ []))) =
        some "revert: <empty>" ∧
      revertReason? (failedCall []) = some "execution reverted" ∧
      Mute errorSelector ∧
      revertReason? (failedCall errorSelector) = some "execution reverted" := by
  have hmute : Mute errorSelector := reason?_eq_none_iff.mp (by decide +kernel)
  have htext := ((revertReason?_faithful (failedCall
    (errorSelector ++ (Abi.encode [.bytes (Utf8.encode "né")] ++ [0xff, 0x00])))).2 _ _ rfl rfl).1
    "né" [0xff, 0x00] (by decide +kernel) rfl
  have hempty := ((revertReason?_faithful (failedCall
    (errorSelector ++ (Abi.encode [.bytes (Utf8.encode "")] ++ [])))).2 _ _ rfl rfl).1
    "" [] (by decide +kernel) rfl
  exact ⟨(revertReason?_faithful CallTrace.empty).1.mpr (.inl rfl), htext, hempty,
    ((revertReason?_faithful (failedCall [])).2 _ _ rfl rfl).2 (.inl rfl), hmute,
    ((revertReason?_faithful (failedCall errorSelector)).2 _ _ rfl rfl).2 (.inr hmute)⟩

end Reports

end Trace

end ChainIngest
