import Crono.BoundaryCuts
import Crono.LossyText
import Crono.RunStore
import Mathlib.Data.List.DropRight

/-! The output of a child process on its way to the Attempt: read byte by byte, split into lines,
decoded lossily, redacted and kept as bounded tails. -/
namespace WorkerOutput

open RunDomain RunStore LossyText
open BoundaryCuts (size size_append)

def nul : Char := Char.ofNat 0

/-- `OUTPUT_LIMIT`. -/
def outputLimit : ℕ := 65536

/-- `LIVE_TAIL_BYTES`. -/
def liveTailBytes : ℕ := 16384

/-- The values a `Redactor` hides; it collects no empty one. -/
structure Redactor where
  secrets : List (List Char)
  nonempty : ∀ secret ∈ secrets, secret ≠ []

def Redactor.text (redactor : Redactor) (value : List Char) : List Char :=
  redactor.secrets.foldl (fun safe secret => replace secret "<redacted>".toList safe) value

def oversizedLine : List Char := "[output line exceeded 64 KiB; content omitted]".toList

def oversizedText : List Char := "[decoded output line exceeded 64 KiB; content omitted]".toList

/-- The text of a line as `emit_line` shows it. -/
def shown (redactor : Redactor) (bytes : List UInt8) (oversized : Bool) : List Char :=
  let decoded := if oversized then oversizedLine else redactor.text (decodeLossy bytes)
  if outputLimit < size decoded then oversizedText else decoded.rdropWhile fun c => c = '\r'

/-- What `read_output` holds between two bytes, and the lines it has emitted. -/
structure Reader where
  tail : List Char
  line : List UInt8
  oversized : Bool
  events : List (List Char)

def Reader.start : Reader := ⟨[], [], false, []⟩

def emitLine (redactor : Redactor) (terminated : Bool) (r : Reader) : Reader :=
  let line := shown redactor r.line r.oversized
  { r with
    tail := suffixWithin outputLimit (r.tail ++ line ++ if terminated then ['\n'] else [])
    events := r.events ++ [line] }

def readByte (redactor : Redactor) (r : Reader) (byte : UInt8) : Reader :=
  if byte = 10 then { emitLine redactor true r with line := [], oversized := false }
  else if r.oversized then r
  else if r.line.length < outputLimit then { r with line := r.line ++ [byte] }
  else { r with line := [], oversized := true }

def finish (redactor : Redactor) (r : Reader) : Reader :=
  if r.line ≠ [] ∨ r.oversized then emitLine redactor false r else r

/-- The loop of `read_output` over the chunks the pipe delivers. -/
def readChunks (redactor : Redactor) (chunks : List (List UInt8)) : Reader :=
  chunks.foldl (fun r chunk => chunk.foldl (readByte redactor) r) .start

/-- `read_output`. -/
def readOutput (redactor : Redactor) (chunks : List (List UInt8)) : Reader :=
  finish redactor (readChunks redactor chunks)

/-- `LiveOutput`: the tails of stdout and stderr. -/
structure Tails where
  stdout : List Char
  stderr : List Char

inductive Stream where
  | stdout
  | stderr
  deriving DecidableEq, Repr

def pushLine (tail line : List Char) : List Char :=
  suffixWithin liveTailBytes (tail ++ line ++ ['\n'])

def Tails.emit (tails : Tails) : Stream × List Char → Tails
  | (.stdout, line) => { tails with stdout := pushLine tails.stdout line }
  | (.stderr, line) => { tails with stderr := pushLine tails.stderr line }

/-- The tails after a list of output events. -/
def liveTails (events : List (Stream × List Char)) : Tails := events.foldl Tails.emit ⟨[], []⟩

def linesOf (stream : Stream) (events : List (Stream × List Char)) : List (List Char) :=
  (events.filter fun e => e.1 = stream).map Prod.snd

theorem suffixWithin_cons (limit : ℕ) (c : Char) (text : List Char) :
    suffixWithin limit (c :: text) =
      if size (c :: text) ≤ limit then c :: text else suffixWithin limit text := rfl

theorem size_suffixWithin (limit : ℕ) (text : List Char) :
    size (suffixWithin limit text) ≤ limit := by
  induction text with
  | nil => exact Nat.zero_le limit
  | cons c text ih =>
    rw [suffixWithin_cons]
    split
    · assumption
    · exact ih

theorem suffixWithin_of_size {limit : ℕ} {text : List Char} (h : size text ≤ limit) :
    suffixWithin limit text = text := by
  cases text with
  | nil => rfl
  | cons c text => rw [suffixWithin_cons, if_pos h]

theorem suffixWithin_suffix (limit : ℕ) (text : List Char) : suffixWithin limit text <:+ text := by
  induction text with
  | nil => exact List.suffix_refl []
  | cons c text ih =>
    rw [suffixWithin_cons]
    split
    · exact List.suffix_refl _
    · exact ih.trans (List.suffix_cons c text)

theorem suffixWithin_suffixWithin {limit limit' : ℕ} (h : limit ≤ limit') (text : List Char) :
    suffixWithin limit (suffixWithin limit' text) = suffixWithin limit text := by
  induction text with
  | nil => rfl
  | cons c text ih =>
    rw [suffixWithin_cons limit']
    split
    · rfl
    · rename_i hlarge
      rw [ih, suffixWithin_cons limit, if_neg (by omega)]

theorem suffixWithin_mono {limit limit' : ℕ} (h : limit ≤ limit') (text : List Char) :
    suffixWithin limit text <:+ suffixWithin limit' text := by
  rw [← suffixWithin_suffixWithin h]
  exact suffixWithin_suffix limit _

/-- The tail of an append ends with the second text when it fits, and is in it when not. -/
theorem suffixWithin_append (limit : ℕ) (a b : List Char) :
    suffixWithin limit (a ++ b) =
      if size b ≤ limit then suffixWithin (limit - size b) a ++ b else suffixWithin limit b := by
  induction a with
  | nil =>
    split
    · rename_i hfits
      exact suffixWithin_of_size hfits
    · rfl
  | cons c a ih =>
    have hsize : size (c :: (a ++ b)) = size (c :: a) + size b := size_append (c :: a) b
    rw [List.cons_append, suffixWithin_cons, ih]
    by_cases hb : size b ≤ limit
    · rw [if_pos hb, if_pos hb, suffixWithin_cons]
      by_cases hall : size (c :: (a ++ b)) ≤ limit
      · rw [if_pos hall, if_pos (by omega), List.cons_append]
      · rw [if_neg hall, if_neg (by omega)]
    · rw [if_neg hb, if_neg hb, if_neg (by omega)]

theorem suffixWithin_append_right (limit : ℕ) (a b : List Char) :
    suffixWithin limit b <:+ suffixWithin limit (a ++ b) := by
  rw [suffixWithin_append]
  split
  · rename_i hfits
    rw [suffixWithin_of_size hfits]
    exact List.suffix_append _ b
  · exact List.suffix_refl _

theorem suffixWithin_truncate (limit : ℕ) (a b : List Char) :
    suffixWithin limit (suffixWithin limit a ++ b) = suffixWithin limit (a ++ b) := by
  rw [suffixWithin_append, suffixWithin_append, suffixWithin_suffixWithin (Nat.sub_le _ _)]

/-- The terminated lines read so far, and the bytes after the last of them. -/
def splitByte (lines : List (List UInt8) × List UInt8) (byte : UInt8) :
    List (List UInt8) × List UInt8 :=
  if byte = 10 then (lines.1 ++ [lines.2], []) else (lines.1, lines.2 ++ [byte])

def splitLines (bytes : List UInt8) : List (List UInt8) × List UInt8 :=
  bytes.foldl splitByte ([], [])

/-- A line as it is printed, whatever its length. -/
def printed (redactor : Redactor) (line : List UInt8) : List Char :=
  shown redactor line (outputLimit < line.length)

/-- The lines a stream prints; the bytes after its last newline are a line if there are any. -/
def printedLines (redactor : Redactor) (bytes : List UInt8) : List (List Char) :=
  (splitLines bytes).1.map (printed redactor) ++
    if (splitLines bytes).2 = [] then [] else [printed redactor (splitLines bytes).2]

def printedText (redactor : Redactor) (bytes : List UInt8) : List Char :=
  ((splitLines bytes).1.flatMap fun line => printed redactor line ++ ['\n']) ++
    if (splitLines bytes).2 = [] then [] else printed redactor (splitLines bytes).2

/-- The reader has printed the terminated lines and buffers the rest. -/
structure Reads (redactor : Redactor) (r : Reader) (lines : List (List UInt8) × List UInt8) :
    Prop where
  tail : r.tail = suffixWithin outputLimit
    (lines.1.flatMap fun line => printed redactor line ++ ['\n'])
  events : r.events = lines.1.map (printed redactor)
  oversized : r.oversized = decide (outputLimit < lines.2.length)
  line : r.oversized = false → r.line = lines.2

variable {redactor : Redactor}

theorem Reads.shown {r : Reader} {lines : List (List UInt8) × List UInt8}
    (h : Reads redactor r lines) :
    shown redactor r.line r.oversized = printed redactor lines.2 := by
  rw [printed, ← h.oversized]
  cases hlarge : r.oversized with
  | false => rw [h.line hlarge]
  | true => rfl

theorem Reads.readByte {r : Reader} {lines : List (List UInt8) × List UInt8}
    (h : Reads redactor r lines) (byte : UInt8) :
    Reads redactor (readByte redactor r byte) (splitByte lines byte) := by
  unfold WorkerOutput.readByte splitByte
  by_cases hnewline : byte = 10
  · rw [if_pos hnewline, if_pos hnewline]
    constructor
    · simp only [emitLine, if_true, h.shown, h.tail, List.append_assoc, suffixWithin_truncate,
        List.flatMap_append, List.flatMap_singleton]
    · simp only [emitLine, h.shown, h.events, List.map_append, List.map_singleton]
    · rfl
    · exact fun _ => rfl
  · rw [if_neg hnewline, if_neg hnewline]
    have hlength : (lines.2 ++ [byte]).length = lines.2.length + 1 := List.length_append
    by_cases hlarge : r.oversized = true
    · rw [if_pos hlarge]
      have hlong := h.oversized
      rw [hlarge, eq_comm, decide_eq_true_eq] at hlong
      refine ⟨h.tail, h.events, ?_, ?_⟩
      · rw [hlarge, hlength, eq_comm, decide_eq_true_eq]
        omega
      · exact fun hsmall => absurd (hlarge.symm.trans hsmall) Bool.noConfusion
    · have hsmall : r.oversized = false := Bool.eq_false_of_not_eq_true hlarge
      rw [if_neg hlarge, h.line hsmall]
      split
      · rename_i hroom
        refine ⟨h.tail, h.events, ?_, fun _ => rfl⟩
        rw [hsmall, hlength, eq_comm, decide_eq_false_iff_not]
        omega
      · rename_i hfull
        refine ⟨h.tail, h.events, ?_, fun hfalse => absurd hfalse Bool.noConfusion⟩
        rw [hlength, eq_comm, decide_eq_true_eq]
        omega

theorem reads_foldl {r : Reader} {lines : List (List UInt8) × List UInt8}
    (h : Reads redactor r lines) (bytes : List UInt8) :
    Reads redactor (bytes.foldl (readByte redactor) r) (bytes.foldl splitByte lines) := by
  induction bytes generalizing r lines with
  | nil => exact h
  | cons byte bytes ih => exact ih (h.readByte byte)

theorem reads_chunks (redactor : Redactor) (chunks : List (List UInt8)) :
    Reads redactor (readChunks redactor chunks) (splitLines chunks.flatten) := by
  rw [readChunks, ← List.foldl_flatten]
  exact reads_foldl ⟨rfl, rfl, rfl, fun _ => rfl⟩ chunks.flatten

/-- `read_output` emits the lines of the stream and keeps the tail of their text. -/
theorem readOutput_spec (redactor : Redactor) (chunks : List (List UInt8)) :
    (readOutput redactor chunks).events = printedLines redactor chunks.flatten ∧
      (readOutput redactor chunks).tail =
        suffixWithin outputLimit (printedText redactor chunks.flatten) := by
  have hreads := reads_chunks redactor chunks
  unfold readOutput finish printedLines printedText
  by_cases hrest : (splitLines chunks.flatten).2 = []
  · have hsmall := hreads.oversized
    rw [hrest] at hsmall
    have hline := hreads.line hsmall
    rw [if_neg (by simp [hsmall, hline, hrest]), if_pos hrest, if_pos hrest, List.append_nil,
      List.append_nil]
    exact ⟨hreads.events, hreads.tail⟩
  · have hflush : (readChunks redactor chunks).line ≠ [] ∨
        (readChunks redactor chunks).oversized = true := by
      by_contra hnone
      rw [not_or, not_not, Bool.not_eq_true] at hnone
      exact hrest ((hreads.line hnone.2).symm.trans hnone.1)
    rw [if_pos hflush, if_neg hrest, if_neg hrest]
    constructor
    · simp only [emitLine, hreads.shown, hreads.events]
    · simp only [emitLine, hreads.shown, hreads.tail, Bool.false_eq_true, if_false, List.append_nil,
        suffixWithin_truncate]

theorem liveTails_append (events : List (Stream × List Char)) (e : Stream × List Char) :
    liveTails (events ++ [e]) = (liveTails events).emit e := by
  rw [liveTails, List.foldl_append]
  rfl

def linesText (lines : List (List Char)) : List Char := lines.flatMap fun line => line ++ ['\n']

theorem liveTails_eq (events : List (Stream × List Char)) :
    (liveTails events).stdout =
        suffixWithin liveTailBytes (linesText (linesOf .stdout events)) ∧
      (liveTails events).stderr =
        suffixWithin liveTailBytes (linesText (linesOf .stderr events)) := by
  induction events using List.reverseRecOn with
  | nil => exact ⟨rfl, rfl⟩
  | append_singleton events e ih =>
    obtain ⟨stream, line⟩ := e
    rw [liveTails_append]
    cases stream with
    | stdout => simp [Tails.emit, pushLine, ih.1, ih.2, linesOf, linesText, suffixWithin_truncate]
    | stderr => simp [Tails.emit, pushLine, ih.1, ih.2, linesOf, linesText, suffixWithin_truncate]

theorem mem_suffixWithin_linesText {limit : ℕ} {lines : List (List Char)} {c : Char}
    (h : c ∈ suffixWithin limit (linesText lines)) :
    ∃ line ∈ lines, c ∈ suffixWithin limit (line ++ ['\n']) := by
  induction lines using List.reverseRecOn with
  | nil => exact absurd h List.not_mem_nil
  | append_singleton lines line ih =>
    have htext : linesText (lines ++ [line]) = linesText lines ++ (line ++ ['\n']) := by
      simp [linesText]
    have hlast (hc : c ∈ suffixWithin limit (line ++ ['\n'])) :
        ∃ l ∈ lines ++ [line], c ∈ suffixWithin limit (l ++ ['\n']) :=
      ⟨line, List.mem_append_right lines List.mem_cons_self, hc⟩
    rw [htext, suffixWithin_append] at h
    split at h
    · rename_i hfits
      rcases List.mem_append.mp h with hearlier | hc
      · obtain ⟨l, hl, hc⟩ := ih ((suffixWithin_mono (Nat.sub_le _ _) _).subset hearlier)
        exact ⟨l, List.mem_append_left _ hl, hc⟩
      · apply hlast
        rw [suffixWithin_of_size hfits]
        exact hc
    · exact hlast h

theorem suffixWithin_last_line (limit : ℕ) (lines : List (List Char)) (line : List Char) :
    suffixWithin limit (line ++ ['\n']) <:+ suffixWithin limit (linesText (lines ++ [line])) := by
  have htext : linesText (lines ++ [line]) = linesText lines ++ (line ++ ['\n']) := by
    simp [linesText]
  rw [htext]
  exact suffixWithin_append_right limit _ _

end WorkerOutput
