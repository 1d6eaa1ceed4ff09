import Crono.WorkerOutput

/-! The loops that cut the tails of an output: after every line in the worker's reader, after every
event in its live snapshot, and once more where the server stores a tail. -/
namespace OutputTails

open BoundaryCuts LossyText RunStore WorkerOutput

section Loops

variable (fuel : ℕ) (redactor : Redactor)

def emitLine (terminated : Bool) (r : Reader) : Option Reader :=
  let line := shown redactor r.line r.oversized
  (cutTail fuel outputLimit (r.tail ++ line ++ if terminated then ['\n'] else [])).map fun tail =>
    { r with tail := tail, events := r.events ++ [line] }

def readByte (r : Reader) (byte : UInt8) : Option Reader :=
  if byte = 10 then
    (emitLine fuel redactor true r).map fun r => { r with line := [], oversized := false }
  else if r.oversized then some r
  else if r.line.length < outputLimit then some { r with line := r.line ++ [byte] }
  else some { r with line := [], oversized := true }

/-- `read_output`. -/
def readOutput (chunks : List (List UInt8)) : Option Reader := do
  let r ← chunks.foldlM (fun r chunk => chunk.foldlM (readByte fuel redactor) r) .start
  if r.line ≠ [] ∨ r.oversized then emitLine fuel redactor false r else some r

/-- `LiveOutput::emit`. -/
def liveEmit (tails : Tails) : Stream × List Char → Option Tails
  | (.stdout, line) => (cutTail fuel liveTailBytes (tails.stdout ++ line ++ ['\n'])).map
      fun tail => { tails with stdout := tail }
  | (.stderr, line) => (cutTail fuel liveTailBytes (tails.stderr ++ line ++ ['\n'])).map
      fun tail => { tails with stderr := tail }

def liveTails (events : List (Stream × List Char)) : Option Tails :=
  events.foldlM (liveEmit fuel) ⟨[], []⟩

/-- `bounded_tail`. -/
def boundedTail (value : List Char) : Option (List Char) := cutTail fuel 65536 value

end Loops

theorem suffixWithin_longest (limit : ℕ) (text : List Char) :
    LongestSuffix limit text (suffixWithin limit text) := by
  refine ⟨suffixWithin_suffix limit text, size_suffixWithin limit text, ?_⟩
  rintro other ⟨before, rfl⟩ hfits
  have hsize : size other ≤ limit := hfits
  rw [suffixWithin_append, if_pos hsize]
  exact List.suffix_append _ other

theorem cutTail_eq {fuel : ℕ} (hfuel : 4 ≤ fuel) (limit : ℕ) (text : List Char) :
    cutTail fuel limit text = some (suffixWithin limit text) := by
  obtain ⟨tail, hcut, hlongest⟩ := cutTail_spec hfuel limit text
  rw [hcut, hlongest.unique (suffixWithin_longest limit text)]

theorem foldlM_some {α β : Type} {f : α → β → Option α} {g : α → β → α}
    (h : ∀ a b, f a b = some (g a b)) (bs : List β) (a : α) :
    bs.foldlM f a = some (bs.foldl g a) := by
  induction bs generalizing a with
  | nil => rfl
  | cons b bs ih =>
    rw [List.foldlM_cons, h]
    exact ih (g a b)

section Reader

variable {fuel : ℕ} (hfuel : 4 ≤ fuel) (redactor : Redactor)

include hfuel

theorem emitLine_eq (terminated : Bool) (r : Reader) :
    emitLine fuel redactor terminated r = some (WorkerOutput.emitLine redactor terminated r) := by
  simp only [emitLine, cutTail_eq hfuel]
  rfl

theorem readByte_eq (r : Reader) (byte : UInt8) :
    readByte fuel redactor r byte = some (WorkerOutput.readByte redactor r byte) := by
  unfold readByte WorkerOutput.readByte
  rw [emitLine_eq hfuel]
  split
  · rfl
  split
  · rfl
  split
  · rfl
  · rfl

theorem readOutput_eq (chunks : List (List UInt8)) :
    readOutput fuel redactor chunks = some (WorkerOutput.readOutput redactor chunks) := by
  have hchunk (r : Reader) (chunk : List UInt8) :
      chunk.foldlM (readByte fuel redactor) r =
        some (chunk.foldl (WorkerOutput.readByte redactor) r) :=
    foldlM_some (readByte_eq hfuel redactor) chunk r
  unfold readOutput
  rw [foldlM_some hchunk, Option.bind_eq_bind, Option.bind_some]
  unfold WorkerOutput.readOutput finish readChunks
  split
  · exact emitLine_eq hfuel redactor false _
  · rfl

theorem liveTails_eq (events : List (Stream × List Char)) :
    liveTails fuel events = some (WorkerOutput.liveTails events) := by
  have hemit (tails : Tails) (e : Stream × List Char) :
      liveEmit fuel tails e = some (tails.emit e) := by
    obtain ⟨stream, line⟩ := e
    cases stream with
    | stdout =>
      rw [liveEmit, cutTail_eq hfuel]
      rfl
    | stderr =>
      rw [liveEmit, cutTail_eq hfuel]
      rfl
  exact foldlM_some hemit events _

theorem boundedTail_eq (value : List Char) :
    boundedTail fuel value = some (suffixWithin 65536 value) := cutTail_eq hfuel 65536 value

end Reader

theorem splitByte_foldl (earlier lines : List (List UInt8)) (line bytes : List UInt8) :
    bytes.foldl splitByte (earlier ++ lines, line) =
      (earlier ++ (bytes.foldl splitByte (lines, line)).1,
        (bytes.foldl splitByte (lines, line)).2) := by
  induction bytes generalizing lines line with
  | nil => rfl
  | cons byte bytes ih =>
    rw [List.foldl_cons, List.foldl_cons]
    unfold splitByte
    split
    · rw [List.append_assoc]
      exact ih _ _
    · exact ih _ _

/-- A newline ends what comes before it: the bytes after it are read as from the start. -/
theorem splitLines_newline (before after : List UInt8) :
    splitLines (before ++ 10 :: after) =
      ((splitLines before).1 ++ [(splitLines before).2] ++ (splitLines after).1,
        (splitLines after).2) := by
  have hlater := splitByte_foldl ((splitLines before).1 ++ [(splitLines before).2]) [] [] after
  rw [List.append_nil] at hlater
  rw [splitLines, List.foldl_append, List.foldl_cons]
  exact hlater

theorem printedLines_newline (redactor : Redactor) (before after : List UInt8) :
    printedLines redactor (before ++ 10 :: after) =
      printedLines redactor (before ++ [10]) ++ printedLines redactor after := by
  unfold printedLines
  rw [splitLines_newline, splitLines_newline]
  simp [splitLines]

/-- The emitted lines, each with its newline: only an unterminated last line has none. -/
theorem linesText_printedLines (redactor : Redactor) (bytes : List UInt8) :
    linesText (printedLines redactor bytes) =
      printedText redactor bytes ++ if (splitLines bytes).2 = [] then [] else ['\n'] := by
  unfold linesText printedLines printedText
  rw [List.flatMap_append, List.flatMap_map]
  split
  · simp
  · simp

/-- A line that is too long, before or after decoding, is shown as its placeholder alone. -/
theorem printed_eq (redactor : Redactor) (line : List UInt8) : printed redactor line =
    if outputLimit < line.length then oversizedLine
    else if outputLimit < size (redactor.text (decodeLossy line)) then oversizedText
    else (redactor.text (decodeLossy line)).rdropWhile fun c => c = '\r' := by
  have hplaceholder : ¬ outputLimit < size oversizedLine := by decide
  have hplain : oversizedLine.rdropWhile (fun c => c = '\r') = oversizedLine := by decide
  unfold printed shown
  by_cases hlong : outputLimit < line.length
  · simp only [hlong, decide_true, if_true, hplaceholder, if_false, hplain]
  · simp only [hlong, decide_false, Bool.false_eq_true, if_false]

/-- However the stream is cut into reads, the tail kept line by line is the tail of everything
printed, as are the live tails; storing it changes nothing, and no loop runs past the end. -/
theorem incremental_tails_are_one_shot_tails {fuel : ℕ} (hfuel : 4 ≤ fuel) (redactor : Redactor) :
    (∀ chunks, ∃ r, readOutput fuel redactor chunks = some r ∧
      r.events = printedLines redactor chunks.flatten ∧
      LongestSuffix outputLimit (printedText redactor chunks.flatten) r.tail ∧
      boundedTail fuel r.tail = some r.tail ∧
      ∀ chunks', chunks'.flatten = chunks.flatten →
        ∃ r', readOutput fuel redactor chunks' = some r' ∧
          r'.events = r.events ∧ r'.tail = r.tail) ∧
    (∀ bytes, linesText (printedLines redactor bytes) =
      printedText redactor bytes ++ if (splitLines bytes).2 = [] then [] else ['\n']) ∧
    (∀ line, printed redactor line =
      if outputLimit < line.length then oversizedLine
      else if outputLimit < size (redactor.text (decodeLossy line)) then oversizedText
      else (redactor.text (decodeLossy line)).rdropWhile fun c => c = '\r') ∧
    (∀ before after, printedLines redactor (before ++ 10 :: after) =
      printedLines redactor (before ++ [10]) ++ printedLines redactor after) ∧
    (∀ events, ∃ tails, liveTails fuel events = some tails ∧
      LongestSuffix liveTailBytes (linesText (linesOf .stdout events)) tails.stdout ∧
      LongestSuffix liveTailBytes (linesText (linesOf .stderr events)) tails.stderr) ∧
    ∀ text start, start ≤ size text → ∃ stop, boundaryFrom text fuel start = some stop ∧
      start ≤ stop ∧ stop ≤ size text ∧ isCharBoundary text stop = true := by
  refine ⟨?_, linesText_printedLines redactor, printed_eq redactor, printedLines_newline redactor,
    ?_, ?_⟩
  · intro chunks
    obtain ⟨hevents, htail⟩ := readOutput_spec redactor chunks
    refine ⟨_, readOutput_eq hfuel redactor chunks, hevents, ?_, ?_, ?_⟩
    · rw [htail]
      exact suffixWithin_longest outputLimit _
    · rw [boundedTail_eq hfuel, htail]
      exact congrArg some (suffixWithin_of_size (size_suffixWithin outputLimit _))
    · intro chunks' hsame
      obtain ⟨hevents', htail'⟩ := readOutput_spec redactor chunks'
      refine ⟨_, readOutput_eq hfuel redactor chunks', ?_, ?_⟩
      · rw [hevents', hevents, hsame]
      · rw [htail', htail, hsame]
  · intro events
    obtain ⟨hstdout, hstderr⟩ := WorkerOutput.liveTails_eq events
    refine ⟨_, liveTails_eq hfuel events, ?_, ?_⟩
    · rw [hstdout]
      exact suffixWithin_longest liveTailBytes _
    · rw [hstderr]
      exact suffixWithin_longest liveTailBytes _
  · intro text start hstart
    obtain ⟨stop, hloop, hle, hwithin, hboundary, _⟩ := boundaryFrom_spec hstart
    exact ⟨stop, hloop fuel hfuel, hle, hwithin, hboundary⟩

/-- One chunk or two, with the cut inside a character. -/
theorem split_character_read_once : ∃ r, readOutput 4 ⟨[], by simp⟩ [[0xC3], [0xA9, 10]] = some r ∧
    r.events = printedLines ⟨[], by simp⟩ [0xC3, 0xA9, 10] := by
  obtain ⟨hread, _⟩ := incremental_tails_are_one_shot_tails (Nat.le_refl 4) ⟨[], by simp⟩
  obtain ⟨r, hr, hevents, _⟩ := hread [[0xC3], [0xA9, 10]]
  exact ⟨r, hr, hevents⟩

end OutputTails
