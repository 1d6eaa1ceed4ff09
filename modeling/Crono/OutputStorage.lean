import Crono.WorkerOutput

/-! Storing the output of a child process. A `text` column cannot hold U+0000, and the row bounds
its tails; the worker keeps the bounds and lets U+0000 pass. -/
namespace OutputStorage

open RunDomain ControlPlaneSchema RunStore LossyText WorkerOutput
open BoundaryCuts (size size_append)

/-- PostgreSQL refuses U+0000 in a `text` value, with SQLSTATE 22021. -/
def representable (value : String) : Bool := !value.toList.contains nul

/-- `run_attempts_output_bounded`. -/
def outputBounded (stdoutTail stderrTail : String) (error : Option String) : Bool :=
  size stdoutTail.toList ≤ 65536 && size stderrTail.toList ≤ 65536 &&
    error.all fun e => e.toList.length ≤ 1024

/-- `complete_attempt` with what its statement checks of the texts it binds. -/
def storeCompletion (request : CompletionRequest) (retryAt now : Instant) (s : Store) :
    Outcome Bool :=
  let stdoutTail := boundedTail request.stdoutTail
  let stderrTail := boundedTail request.stderrTail
  let error := request.error.map boundedError
  if request.skipped && !request.succeeded then (.error .internal, s)
  else if !(representable stdoutTail && representable stderrTail && error.all representable) then
    (.error .invalidData, s)
  else
    match completeAttempt request retryAt now s with
    | (.ok true, t) =>
      if outputBounded stdoutTail stderrTail error then (.ok true, t) else (.error .internal, s)
    | outcome => outcome

/-- `record_attempt_output` with what its statement checks of the texts it binds. -/
def storeSnapshot (request : OutputSnapshotRequest) (now : Instant) (s : Store) : Outcome Bool :=
  if 2 ^ 63 ≤ request.sequence then (.error .internal, s)
  else if !(representable request.stdoutTail && representable request.stderrTail) then
    (.error .invalidData, s)
  else
    match recordAttemptOutput request now s with
    | (.ok true, t) =>
      if outputBounded request.stdoutTail request.stderrTail none then (.ok true, t)
      else (.error .internal, s)
    | outcome => outcome

structure ExitStatus where
  success : Bool
  code : Option ℤ

/-- The `CompletionRequest` of a child that has exited. -/
def completion (redactor : Redactor) (attemptId : Uuid) (workerId : String) (status : ExitStatus)
    (stdoutTail stderrTail : List Char) : CompletionRequest where
  attemptId := attemptId
  workerId := workerId
  succeeded := status.success
  skipped := false
  exitCode := status.code
  stdoutTail := String.ofList stdoutTail
  stderrTail := String.ofList stderrTail
  error :=
    if status.success then none
    else some (String.ofList (redactor.text "process exited unsuccessfully".toList))

/-- The `OutputSnapshotRequest` of the live tails. -/
def snapshot (attemptId : Uuid) (workerId : String) (sequence : ℕ) (tails : Tails) :
    OutputSnapshotRequest :=
  ⟨attemptId, workerId, sequence, String.ofList tails.stdout, String.ofList tails.stderr⟩

def Storable (tail : List Char) : Prop := size tail ≤ 65536 ∧ nul ∉ tail

/-- Some order of the lines that both streams have emitted up to now. -/
def Emitted (redactor : Redactor) (stdout stderr : List (List UInt8))
    (events : List (Stream × List Char)) : Prop :=
  linesOf .stdout events <+: (readOutput redactor stdout).events ∧
    linesOf .stderr events <+: (readOutput redactor stderr).events

/-- The completion and every live snapshot of a child can be stored. -/
structure OutputStored (redactor : Redactor) (stdout stderr : List (List UInt8)) : Prop where
  tails : Storable (readOutput redactor stdout).tail ∧ Storable (readOutput redactor stderr).tail
  snapshots : ∀ events, Emitted redactor stdout stderr events →
    Storable (liveTails events).stdout ∧ Storable (liveTails events).stderr
  completes : ∀ attemptId workerId status retryAt now s,
    let request := completion redactor attemptId workerId status (readOutput redactor stdout).tail
      (readOutput redactor stderr).tail
    storeCompletion request retryAt now s = completeAttempt request retryAt now s
  records : ∀ events, Emitted redactor stdout stderr events →
    ∀ attemptId workerId sequence now s,
      let request := snapshot attemptId workerId sequence (liveTails events)
      storeSnapshot request now s = recordAttemptOutput request now s

def lineText (redactor : Redactor) (line : List UInt8) : List Char :=
  redactor.text (decodeLossy line)

def Omitted (redactor : Redactor) (line : List UInt8) : Prop :=
  outputLimit < line.length ∨ outputLimit < size (lineText redactor line)

def withoutReturns (text : List Char) : List Char := text.rdropWhile fun c => c = '\r'

def lineSize (redactor : Redactor) (line : List UInt8) : ℕ :=
  if outputLimit < line.length then size oversizedLine
  else if outputLimit < size (lineText redactor line) then size oversizedText
  else size (withoutReturns (lineText redactor line))

/-- The bytes that some later lines and the bytes after the last newline take. -/
def laterSize (redactor : Redactor) (later : List (List UInt8)) (rest : List UInt8) : ℕ :=
  (later.map fun line => lineSize redactor line + 1).sum + lineSize redactor rest

/-- The line has U+0000 with `k` bytes of text after it. -/
def NulAt (redactor : Redactor) (line : List UInt8) (k : ℕ) : Prop :=
  ∃ after, nul :: after <:+ lineText redactor line ∧ k = size (withoutReturns after)

/-- The line has a zero byte, and the bytes after it make `k` bytes of text. -/
def ZeroAt (redactor : Redactor) (line : List UInt8) (k : ℕ) : Prop :=
  ∃ after, 0 :: after <:+ line ∧ k = size (withoutReturns (lineText redactor after))

/-- At least 16,384 bytes of the same line, newline included, and at least 65,536 bytes of the
stream follow each of the given positions. -/
structure Harmless (redactor : Redactor) (position : List UInt8 → ℕ → Prop)
    (bytes : List UInt8) : Prop where
  terminated : ∀ before line later, (splitLines bytes).1 = before ++ line :: later →
    ¬ Omitted redactor line → ∀ k, position line k →
      liveTailBytes ≤ k + 1 ∧
        outputLimit ≤ k + 1 + laterSize redactor later (splitLines bytes).2
  rest : ¬ Omitted redactor (splitLines bytes).2 → ∀ k,
    position (splitLines bytes).2 k → outputLimit ≤ k

theorem nul_mem_foldl {secrets : List (List Char)} {value : List Char}
    (h : nul ∈ secrets.foldl (fun safe secret => replace secret "<redacted>".toList safe) value) :
    nul ∈ value := by
  induction secrets generalizing value with
  | nil => exact h
  | cons secret secrets ih =>
    rcases mem_replace (ih h) with hmark | hvalue
    · exact absurd hmark (by decide)
    · exact hvalue

theorem nul_mem_text {redactor : Redactor} {value : List Char} (h : nul ∈ redactor.text value) :
    nul ∈ value :=
  nul_mem_foldl h

theorem splitLines_sublist (bytes : List UInt8) :
    ((splitLines bytes).1.flatten ++ (splitLines bytes).2).Sublist bytes := by
  induction bytes using List.reverseRecOn with
  | nil => exact List.Sublist.refl []
  | append_singleton bytes b ih =>
    have hsplit : splitLines (bytes ++ [b]) = splitByte (splitLines bytes) b := by
      rw [splitLines, List.foldl_append]
      rfl
    rw [hsplit, splitByte]
    split
    · rw [List.flatten_append, List.flatten_singleton, List.append_nil]
      exact ih.trans (List.sublist_append_left bytes [b])
    · rw [← List.append_assoc]
      exact ih.append (List.Sublist.refl [b])

theorem zero_of_terminated {bytes line : List UInt8} (hline : line ∈ (splitLines bytes).1)
    (h : 0 ∈ line) : 0 ∈ bytes :=
  (splitLines_sublist bytes).subset
    (List.mem_append_left _ (List.mem_flatten_of_mem hline h))

theorem zero_of_rest {bytes : List UInt8} (h : 0 ∈ (splitLines bytes).2) : 0 ∈ bytes :=
  (splitLines_sublist bytes).subset (List.mem_append_right _ h)

/-- No U+0000 stands where a tail can hold it: at the end of a printed line, or at the end of the
printed text. -/
structure Clean (redactor : Redactor) (bytes : List UInt8) : Prop where
  lines : ∀ line ∈ printedLines redactor bytes,
    nul ∉ suffixWithin liveTailBytes (line ++ ['\n'])
  text : nul ∉ suffixWithin outputLimit (printedText redactor bytes)

variable {redactor : Redactor}

theorem nul_suffix_cons {c : Char} {after text : List Char} :
    nul :: after <:+ c :: text ↔ (c = nul ∧ after = text) ∨ nul :: after <:+ text := by
  rw [List.suffix_cons_iff, List.cons.injEq, eq_comm (a := nul)]

theorem nul_suffix_append {a b after : List Char} :
    nul :: after <:+ a ++ b ↔
      nul :: after <:+ b ∨ ∃ inner, nul :: inner <:+ a ∧ after = inner ++ b := by
  induction a with
  | nil => simp
  | cons c a ih =>
    rw [List.cons_append, nul_suffix_cons, ih]
    constructor
    · rintro (⟨rfl, rfl⟩ | hb | ⟨inner, hinner, rfl⟩)
      · exact .inr ⟨a, List.suffix_refl _, rfl⟩
      · exact .inl hb
      · exact .inr ⟨inner, hinner.trans (List.suffix_cons c a), rfl⟩
    · rintro (hb | ⟨inner, hinner, rfl⟩)
      · exact .inr (.inl hb)
      · rcases nul_suffix_cons.mp hinner with ⟨rfl, rfl⟩ | hinner
        · exact .inl ⟨rfl, rfl⟩
        · exact .inr (.inr ⟨inner, hinner, rfl⟩)

theorem nul_mem_suffixWithin {limit : ℕ} {text : List Char} :
    nul ∈ suffixWithin limit text ↔ ∃ after, nul :: after <:+ text ∧ size after < limit := by
  have hone (after : List Char) : size (nul :: after) = 1 + size after :=
    size_append [nul] after
  constructor
  · intro h
    obtain ⟨before, after, hsplit⟩ := List.append_of_mem h
    have hsize := size_suffixWithin limit text
    rw [hsplit, size_append, hone] at hsize
    have hsuffix : nul :: after <:+ suffixWithin limit text := by
      rw [hsplit]
      exact List.suffix_append before _
    exact ⟨after, hsuffix.trans (suffixWithin_suffix limit text), by omega⟩
  · rintro ⟨after, ⟨before, rfl⟩, hfits⟩
    rw [suffixWithin_append, if_pos (by rw [hone]; omega)]
    exact List.mem_append_right _ List.mem_cons_self

theorem nul_suffix_withoutReturns {text after : List Char} :
    nul :: after <:+ withoutReturns text ↔
      ∃ whole, nul :: whole <:+ text ∧ after = withoutReturns whole := by
  have hnul (before whole : List Char) :
      withoutReturns (before ++ nul :: whole) = before ++ nul :: withoutReturns whole := by
    induction whole using List.reverseRecOn with
    | nil =>
      rw [withoutReturns, List.rdropWhile_concat_neg _ _ _ (by decide)]
      rfl
    | append_singleton whole c ih =>
      have hconcat : before ++ nul :: (whole ++ [c]) = (before ++ nul :: whole) ++ [c] := by simp
      by_cases hc : c = '\r'
      · rw [hconcat, withoutReturns, withoutReturns,
          List.rdropWhile_concat_pos _ _ _ (by simp [hc]),
          List.rdropWhile_concat_pos _ _ _ (by simp [hc])]
        exact ih
      · rw [hconcat, withoutReturns, withoutReturns,
          List.rdropWhile_concat_neg _ _ _ (by simp [hc]),
          List.rdropWhile_concat_neg _ _ _ (by simp [hc]), hconcat]
  constructor
  · intro h
    obtain ⟨returns, hreturns⟩ := List.rdropWhile_prefix (fun c => decide (c = '\r')) text
    have hwhole : nul :: (after ++ returns) <:+ text := by
      obtain ⟨before, hbefore⟩ := h
      refine ⟨before, ?_⟩
      rw [← hreturns]
      change _ = withoutReturns text ++ returns
      rw [← hbefore]
      simp
    refine ⟨after ++ returns, hwhole, ?_⟩
    obtain ⟨before, hbefore⟩ := h
    have hsplit : text = before ++ nul :: (after ++ returns) := by
      rw [← hreturns]
      change withoutReturns text ++ returns = _
      rw [← hbefore]
      simp
    rw [hsplit, hnul] at hbefore
    exact (List.cons.inj (List.append_cancel_left hbefore)).2
  · rintro ⟨whole, ⟨before, rfl⟩, rfl⟩
    rw [hnul]
    exact List.suffix_append before _

theorem printed_eq (redactor : Redactor) (line : List UInt8) :
    printed redactor line =
      if outputLimit < line.length then oversizedLine
      else if outputLimit < size (lineText redactor line) then oversizedText
      else withoutReturns (lineText redactor line) := by
  by_cases hlong : outputLimit < line.length
  · rw [if_pos hlong, printed, decide_eq_true hlong]
    have hfits : ¬ outputLimit < size oversizedLine := by decide
    have hreturns : oversizedLine.rdropWhile (fun c => decide (c = '\r')) = oversizedLine := by
      decide
    simp only [shown, if_true, if_neg hfits, hreturns]
  · rw [if_neg hlong, printed, decide_eq_false hlong]
    rfl

theorem printed_shown {line : List UInt8} (h : ¬ Omitted redactor line) :
    printed redactor line = withoutReturns (lineText redactor line) := by
  rw [Omitted, not_or] at h
  rw [printed_eq, if_neg h.1, if_neg h.2]

theorem nul_not_mem_omitted {line : List UInt8} (h : Omitted redactor line) :
    nul ∉ printed redactor line := by
  rw [printed_eq]
  split_ifs with hlong hlarge
  · decide
  · decide
  · exact absurd h (not_or.mpr ⟨hlong, hlarge⟩)

theorem nul_suffix_printed {line : List UInt8} {after : List Char} :
    nul :: after <:+ printed redactor line ↔ ¬ Omitted redactor line ∧
      ∃ whole, nul :: whole <:+ lineText redactor line ∧ after = withoutReturns whole := by
  by_cases homitted : Omitted redactor line
  · constructor
    · exact fun h => absurd (h.subset List.mem_cons_self) (nul_not_mem_omitted homitted)
    · exact fun h => absurd homitted h.1
  · rw [printed_shown homitted, nul_suffix_withoutReturns]
    exact ⟨fun h => ⟨homitted, h⟩, fun h => h.2⟩

theorem size_printed (redactor : Redactor) (line : List UInt8) :
    size (printed redactor line) = lineSize redactor line := by
  rw [printed_eq, apply_ite size, apply_ite size]
  rfl

theorem printed_nil (redactor : Redactor) : printed redactor [] = [] := by
  have htext : redactor.text [] = [] := by
    unfold Redactor.text
    induction redactor.secrets with
    | nil => rfl
    | cons secret secrets ih => exact ih
  have hdecode : decodeLossy [] = [] := rfl
  simp only [printed, shown, hdecode, htext]
  rfl

theorem printedText_eq (redactor : Redactor) (bytes : List UInt8) :
    printedText redactor bytes =
      ((splitLines bytes).1.flatMap fun line => printed redactor line ++ ['\n']) ++
        printed redactor (splitLines bytes).2 := by
  rw [printedText]
  split
  · rename_i hnil
    rw [hnil, printed_nil]
  · rfl

theorem size_lines (redactor : Redactor) (later : List (List UInt8)) (rest : List UInt8) :
    size ((later.flatMap fun line => printed redactor line ++ ['\n']) ++ printed redactor rest) =
      laterSize redactor later rest := by
  rw [size_append, size_printed, laterSize]
  congr 1
  induction later with
  | nil => rfl
  | cons line later ih =>
    rw [List.flatMap_cons, size_append, size_append, size_printed, ih]
    rfl

/-- U+0000 in the printed text is in one of its lines, before the lines that follow. -/
theorem nul_suffix_lines {lines : List (List UInt8)} {text after : List Char} :
    nul :: after <:+ (lines.flatMap fun line => printed redactor line ++ ['\n']) ++ text ↔
      nul :: after <:+ text ∨ ∃ before line later inner, lines = before ++ line :: later ∧
        nul :: inner <:+ printed redactor line ∧
        after = inner ++ '\n' :: ((later.flatMap fun line => printed redactor line ++ ['\n']) ++
          text) := by
  induction lines with
  | nil => simp
  | cons first lines ih =>
    rw [List.flatMap_cons, List.append_assoc, List.append_assoc, nul_suffix_append,
      List.singleton_append, nul_suffix_cons, ih]
    have hnewline : ¬ '\n' = nul := by decide
    constructor
    · rintro ((⟨h, -⟩ | htext | ⟨before, line, later, inner, rfl, hinner, rfl⟩) |
        ⟨inner, hinner, rfl⟩)
      · exact absurd h hnewline
      · exact .inl htext
      · exact .inr ⟨first :: before, line, later, inner, rfl, hinner, rfl⟩
      · exact .inr ⟨[], first, lines, inner, rfl, hinner, rfl⟩
    · rintro (htext | ⟨before, line, later, inner, hsplit, hinner, rfl⟩)
      · exact .inl (.inr (.inl htext))
      · cases before with
        | nil =>
          obtain ⟨rfl, rfl⟩ := List.cons.inj hsplit
          exact .inr ⟨inner, hinner, rfl⟩
        | cons first' before =>
          obtain ⟨rfl, rfl⟩ := List.cons.inj hsplit
          exact .inl (.inr (.inr ⟨before, line, later, inner, rfl, hinner, rfl⟩))

theorem size_cons_newline (text : List Char) : size ('\n' :: text) = 1 + size text :=
  size_append ['\n'] text

/-- What lies far behind in the bytes has left the tails. -/
theorem Harmless.clean {bytes : List UInt8} (h : Harmless redactor (NulAt redactor) bytes) :
    Clean redactor bytes := by
  constructor
  · intro line hline hnul
    obtain ⟨after, hafter, hfits⟩ := nul_mem_suffixWithin.mp hnul
    rw [nul_suffix_append, nul_suffix_cons] at hafter
    obtain (⟨hnewline, -⟩ | hnil) | ⟨inner, hinner, rfl⟩ := hafter
    · exact absurd hnewline (by decide)
    · exact absurd (hnil.subset List.mem_cons_self) List.not_mem_nil
    rw [size_append, size_cons_newline] at hfits
    have hsize : size ([] : List Char) = 0 := rfl
    rcases List.mem_append.mp hline with hline | hrest
    · obtain ⟨source, hsource, rfl⟩ := List.mem_map.mp hline
      obtain ⟨before, later, hsplit⟩ := List.append_of_mem hsource
      obtain ⟨hshown, whole, hwhole, rfl⟩ := nul_suffix_printed.mp hinner
      have hfar := (h.terminated before source later hsplit hshown _ ⟨whole, hwhole, rfl⟩).1
      omega
    · split at hrest
      · exact absurd hrest List.not_mem_nil
      · rw [List.mem_singleton.mp hrest] at hinner
        obtain ⟨hshown, whole, hwhole, rfl⟩ := nul_suffix_printed.mp hinner
        have hfar := h.rest hshown _ ⟨whole, hwhole, rfl⟩
        unfold outputLimit at hfar
        unfold liveTailBytes at hfits
        omega
  · intro hnul
    obtain ⟨after, hafter, hfits⟩ := nul_mem_suffixWithin.mp hnul
    rw [printedText_eq, nul_suffix_lines] at hafter
    rcases hafter with hrest | ⟨before, line, later, inner, hsplit, hinner, rfl⟩
    · obtain ⟨hshown, whole, hwhole, rfl⟩ := nul_suffix_printed.mp hrest
      have hfar := h.rest hshown _ ⟨whole, hwhole, rfl⟩
      omega
    · obtain ⟨hshown, whole, hwhole, rfl⟩ := nul_suffix_printed.mp hinner
      have hfar := (h.terminated before line later hsplit hshown _ ⟨whole, hwhole, rfl⟩).2
      rw [size_append, size_cons_newline, size_lines] at hfits
      omega

theorem Clean.harmless {bytes : List UInt8} (h : Clean redactor bytes) :
    Harmless redactor (NulAt redactor) bytes := by
  constructor
  · rintro before line later hsplit hshown k ⟨whole, hwhole, rfl⟩
    have hinner : nul :: withoutReturns whole <:+ printed redactor line :=
      nul_suffix_printed.mpr ⟨hshown, whole, hwhole, rfl⟩
    constructor
    · by_contra hnear
      refine h.lines (printed redactor line) ?_ (nul_mem_suffixWithin.mpr ?_)
      · refine List.mem_append_left _ (List.mem_map_of_mem ?_)
        rw [hsplit]
        exact List.mem_append_right before List.mem_cons_self
      · refine ⟨withoutReturns whole ++ ['\n'], nul_suffix_append.mpr (.inr ⟨_, hinner, rfl⟩), ?_⟩
        rw [size_append, size_cons_newline]
        have hsize : size ([] : List Char) = 0 := rfl
        omega
    · by_contra hnear
      refine h.text (nul_mem_suffixWithin.mpr ?_)
      rw [printedText_eq]
      refine ⟨_, nul_suffix_lines.mpr (.inr ⟨before, line, later, _, hsplit, hinner, rfl⟩), ?_⟩
      rw [size_append, size_cons_newline, size_lines]
      omega
  · rintro hshown k ⟨whole, hwhole, rfl⟩
    have hinner : nul :: withoutReturns whole <:+ printed redactor (splitLines bytes).2 :=
      nul_suffix_printed.mpr ⟨hshown, whole, hwhole, rfl⟩
    by_contra hnear
    refine h.text (nul_mem_suffixWithin.mpr ⟨withoutReturns whole, ?_, by omega⟩)
    rw [printedText_eq]
    exact nul_suffix_lines.mpr (.inl hinner)

/-- The condition on the bytes of a stream is the one on its tails. -/
theorem harmless_iff_clean {bytes : List UInt8} :
    Harmless redactor (NulAt redactor) bytes ↔ Clean redactor bytes :=
  ⟨Harmless.clean, Clean.harmless⟩

theorem text_split (h : ∀ secret ∈ redactor.secrets, nul ∉ secret) (a b : List Char) :
    redactor.text (a ++ nul :: b) = redactor.text a ++ nul :: redactor.text b := by
  obtain ⟨secrets, hne⟩ := redactor
  change ∀ secret ∈ secrets, nul ∉ secret at h
  unfold Redactor.text
  induction secrets generalizing a b with
  | nil => rfl
  | cons secret secrets ih =>
    have hfirst : replace secret "<redacted>".toList (a ++ nul :: b) =
        replace secret "<redacted>".toList a ++ nul :: replace secret "<redacted>".toList b :=
      replace_split (hne secret List.mem_cons_self) (h secret List.mem_cons_self) a b
    simp only [List.foldl_cons, hfirst]
    exact ih _ _ (fun s hs => hne s (List.mem_cons_of_mem secret hs))
      (fun s hs => h s (List.mem_cons_of_mem secret hs))

theorem lineText_split (h : ∀ secret ∈ redactor.secrets, nul ∉ secret) (a b : List UInt8) :
    lineText redactor (a ++ 0 :: b) = lineText redactor a ++ nul :: lineText redactor b := by
  have hdecode : decodeLossy (a ++ 0 :: b) = decodeLossy a ++ nul :: decodeLossy b :=
    decodeLossy_zero a b
  rw [lineText, hdecode, text_split h]
  rfl

theorem nul_mem_lineText {line : List UInt8} (h : nul ∈ lineText redactor line) : 0 ∈ line :=
  nul_mem_decodeLossy (nul_mem_text h)

theorem nulAt_iff_zeroAt (h : ∀ secret ∈ redactor.secrets, nul ∉ secret) (line : List UInt8)
    (k : ℕ) : NulAt redactor line k ↔ ZeroAt redactor line k := by
  constructor
  · rintro ⟨after, hafter, rfl⟩
    induction hn : line.length using Nat.strongRecOn generalizing line with
    | ind n ih =>
      obtain ⟨before, later, rfl, hbefore⟩ :=
        List.eq_append_cons_of_mem (nul_mem_lineText (hafter.subset List.mem_cons_self))
      have hlength : (before ++ 0 :: later).length = before.length + (later.length + 1) :=
        List.length_append
      rw [lineText_split h, nul_suffix_append, nul_suffix_cons] at hafter
      rcases hafter with (⟨-, rfl⟩ | hlater) | ⟨inner, hinner, rfl⟩
      · exact ⟨later, List.suffix_append before _, rfl⟩
      · obtain ⟨rest, hrest, hsize⟩ := ih later.length (by omega) later hlater rfl
        exact ⟨rest, hrest.trans ((List.suffix_cons 0 later).trans (List.suffix_append before _)),
          hsize⟩
      · exact absurd (nul_mem_lineText (hinner.subset List.mem_cons_self)) hbefore
  · rintro ⟨after, ⟨before, rfl⟩, rfl⟩
    refine ⟨lineText redactor after, ?_, rfl⟩
    rw [lineText_split h]
    exact List.suffix_append _ _

theorem harmless_zeroAt (h : ∀ secret ∈ redactor.secrets, nul ∉ secret) {bytes : List UInt8} :
    Harmless redactor (NulAt redactor) bytes ↔ Harmless redactor (ZeroAt redactor) bytes := by
  have heq : NulAt redactor = ZeroAt redactor :=
    funext fun line => funext fun k => propext (nulAt_iff_zeroAt h line k)
  rw [heq]

theorem harmless_of_no_zero {bytes : List UInt8} (h : 0 ∉ bytes) :
    Harmless redactor (NulAt redactor) bytes := by
  constructor
  · rintro before line later hsplit - k ⟨after, hafter, -⟩
    have hline : line ∈ (splitLines bytes).1 := by
      rw [hsplit]
      exact List.mem_append_right before List.mem_cons_self
    exact absurd (zero_of_terminated hline
      (nul_mem_lineText (hafter.subset List.mem_cons_self))) h
  · rintro - k ⟨after, hafter, -⟩
    exact absurd (zero_of_rest (nul_mem_lineText (hafter.subset List.mem_cons_self))) h

variable {stdout stderr : List (List UInt8)}

theorem Clean.tail {chunks : List (List UInt8)} (h : Clean redactor chunks.flatten) :
    Storable (readOutput redactor chunks).tail := by
  rw [(readOutput_spec redactor chunks).2]
  exact ⟨size_suffixWithin outputLimit _, h.text⟩

theorem Clean.live {chunks : List (List UInt8)} (h : Clean redactor chunks.flatten)
    {lines : List (List Char)} (hlines : lines <+: (readOutput redactor chunks).events) :
    Storable (suffixWithin liveTailBytes (linesText lines)) := by
  constructor
  · exact (size_suffixWithin liveTailBytes _).trans (by decide)
  · intro hnul
    obtain ⟨line, hline, hnul⟩ := mem_suffixWithin_linesText hnul
    rw [(readOutput_spec redactor chunks).1] at hlines
    exact h.lines line (hlines.subset hline) hnul

theorem clean_of_live {chunks : List (List UInt8)}
    (htail : Storable (readOutput redactor chunks).tail)
    (hlive : ∀ lines, lines <+: (readOutput redactor chunks).events →
      Storable (suffixWithin liveTailBytes (linesText lines))) :
    Clean redactor chunks.flatten := by
  obtain ⟨hevents, htext⟩ := readOutput_spec redactor chunks
  constructor
  · intro line hline hnul
    rw [← hevents] at hline
    obtain ⟨before, after, hsplit⟩ := List.append_of_mem hline
    have hprefix : before ++ [line] <+: (readOutput redactor chunks).events := by
      rw [hsplit]
      exact ⟨after, by simp⟩
    exact (hlive _ hprefix).2 ((suffixWithin_last_line liveTailBytes before line).subset hnul)
  · rw [← htext]
    exact htail.2

theorem linesOf_only (stream : Stream) (lines : List (List Char)) :
    linesOf stream (lines.map fun line => (stream, line)) = lines := by
  simp [linesOf, List.filter_map, Function.comp_def]

theorem linesOf_other {stream other : Stream} (h : other ≠ stream) (lines : List (List Char)) :
    linesOf stream (lines.map fun line => (other, line)) = [] := by
  simp [linesOf, List.filter_map, Function.comp_def, h]

theorem representable_ofList {tail : List Char} (h : nul ∉ tail) :
    representable (String.ofList tail) = true := by
  simp [representable, h]

theorem boundedTail_ofList {tail : List Char} (h : Storable tail) :
    boundedTail (String.ofList tail) = String.ofList tail := by
  rw [boundedTail, String.toList_ofList, suffixWithin_of_size h.1]

theorem completion_error {attemptId : Uuid} {workerId : String} {status : ExitStatus}
    {stdoutTail stderrTail : List Char} {e : String}
    (h : e ∈ ((completion redactor attemptId workerId status stdoutTail stderrTail).error.map
      boundedError)) :
    representable e = true ∧ e.toList.length ≤ 1024 := by
  obtain ⟨value, hvalue, rfl⟩ := Option.mem_map.mp h
  constructor
  · apply representable_ofList
    intro hnul
    have hnul := List.mem_of_mem_take hnul
    simp only [completion] at hvalue
    split at hvalue
    · cases hvalue
    · rw [← Option.mem_some_iff.mp hvalue, String.toList_ofList] at hnul
      exact absurd (nul_mem_text hnul) (by decide)
  · rw [boundedError, String.toList_ofList]
    exact List.length_take_le 1024 _

theorem storeCompletion_eq {attemptId : Uuid} {workerId : String} {status : ExitStatus}
    {stdoutTail stderrTail : List Char} (hout : Storable stdoutTail) (herr : Storable stderrTail)
    (retryAt now : Instant) (s : Store) :
    let request := completion redactor attemptId workerId status stdoutTail stderrTail
    storeCompletion request retryAt now s = completeAttempt request retryAt now s := by
  intro request
  have hstdout : boundedTail request.stdoutTail = String.ofList stdoutTail :=
    boundedTail_ofList hout
  have hstderr : boundedTail request.stderrTail = String.ofList stderrTail :=
    boundedTail_ofList herr
  have herror {e : String} (he : e ∈ request.error.map boundedError) := completion_error he
  have htexts : (representable (String.ofList stdoutTail) &&
      representable (String.ofList stderrTail) &&
      (request.error.map boundedError).all representable) = true := by
    rw [representable_ofList hout.2, representable_ofList herr.2, Bool.true_and, Bool.true_and,
      Option.all_eq_true]
    exact fun e he => (herror he).1
  have hbounded : outputBounded (String.ofList stdoutTail) (String.ofList stderrTail)
      (request.error.map boundedError) = true := by
    simp only [outputBounded, String.toList_ofList, hout.1, herr.1, decide_true, Bool.true_and,
      Option.all_eq_true, decide_eq_true_eq]
    exact fun e he => (herror he).2
  have hskipped : (request.skipped && !request.succeeded) = false := rfl
  simp only [storeCompletion, hskipped, hstdout, hstderr, htexts, hbounded, if_true, Bool.not_true,
    Bool.false_eq_true, if_false]
  split
  · rename_i heq
    exact heq.symm
  · rfl

theorem storeSnapshot_eq {attemptId : Uuid} {workerId : String} {sequence : ℕ} {tails : Tails}
    (hout : Storable tails.stdout) (herr : Storable tails.stderr) (now : Instant) (s : Store) :
    let request := snapshot attemptId workerId sequence tails
    storeSnapshot request now s = recordAttemptOutput request now s := by
  intro request
  by_cases hlarge : 2 ^ 63 ≤ request.sequence
  · rw [storeSnapshot, if_pos hlarge, recordAttemptOutput, if_pos hlarge]
  · have htexts :
        (representable request.stdoutTail && representable request.stderrTail) = true := by
      rw [Bool.and_eq_true]
      exact ⟨representable_ofList hout.2, representable_ofList herr.2⟩
    have hbounded : outputBounded request.stdoutTail request.stderrTail none = true := by
      simp [outputBounded, request, snapshot, hout.1, herr.1]
    simp only [storeSnapshot, if_neg hlarge, htexts, hbounded, if_true, Bool.not_true,
      Bool.false_eq_true, if_false]
    split
    · rename_i heq
      exact heq.symm
    · rfl

theorem output_stored_clean (redactor : Redactor) (stdout stderr : List (List UInt8)) :
    OutputStored redactor stdout stderr ↔
      Clean redactor stdout.flatten ∧ Clean redactor stderr.flatten := by
  constructor
  · intro h
    constructor
    · refine clean_of_live h.tails.1 fun lines hlines => ?_
      have hevents : Emitted redactor stdout stderr (lines.map fun line => (.stdout, line)) := by
        refine ⟨?_, ?_⟩
        · rw [linesOf_only]
          exact hlines
        · rw [linesOf_other (by decide)]
          exact List.nil_prefix
      have hlive := (h.snapshots _ hevents).1
      rwa [(liveTails_eq _).1, linesOf_only] at hlive
    · refine clean_of_live h.tails.2 fun lines hlines => ?_
      have hevents : Emitted redactor stdout stderr (lines.map fun line => (.stderr, line)) := by
        refine ⟨?_, ?_⟩
        · rw [linesOf_other (by decide)]
          exact List.nil_prefix
        · rw [linesOf_only]
          exact hlines
      have hlive := (h.snapshots _ hevents).2
      rwa [(liveTails_eq _).2, linesOf_only] at hlive
  · rintro ⟨hout, herr⟩
    have hsnapshots : ∀ events, Emitted redactor stdout stderr events →
        Storable (liveTails events).stdout ∧ Storable (liveTails events).stderr := by
      intro events hevents
      rw [(liveTails_eq events).1, (liveTails_eq events).2]
      exact ⟨hout.live hevents.1, herr.live hevents.2⟩
    refine ⟨⟨hout.tail, herr.tail⟩, hsnapshots, ?_, ?_⟩
    · intro attemptId workerId status retryAt now s
      exact storeCompletion_eq hout.tail herr.tail retryAt now s
    · intro events hevents attemptId workerId sequence now s
      exact storeSnapshot_eq (hsnapshots events hevents).1 (hsnapshots events hevents).2 now s

/-- The output of a child can be stored, whatever the chunks, exactly when every U+0000 that
redaction leaves in a shown line is out of reach of the tails; without secrets that contain U+0000,
exactly when every zero byte is. -/
theorem output_stored_iff (redactor : Redactor) (stdout stderr : List (List UInt8)) :
    (OutputStored redactor stdout stderr ↔
      Harmless redactor (NulAt redactor) stdout.flatten ∧
        Harmless redactor (NulAt redactor) stderr.flatten) ∧
    ((∀ secret ∈ redactor.secrets, nul ∉ secret) →
      (OutputStored redactor stdout stderr ↔
        Harmless redactor (ZeroAt redactor) stdout.flatten ∧
          Harmless redactor (ZeroAt redactor) stderr.flatten)) ∧
    (0 ∉ stdout.flatten → 0 ∉ stderr.flatten → OutputStored redactor stdout stderr) := by
  have hiff : OutputStored redactor stdout stderr ↔
      Harmless redactor (NulAt redactor) stdout.flatten ∧
        Harmless redactor (NulAt redactor) stderr.flatten := by
    rw [output_stored_clean, harmless_iff_clean, harmless_iff_clean]
  refine ⟨hiff, ?_, ?_⟩
  · intro hsecrets
    rw [hiff, harmless_zeroAt hsecrets, harmless_zeroAt hsecrets]
  · intro hout herr
    exact hiff.mpr ⟨harmless_of_no_zero hout, harmless_of_no_zero herr⟩

def noSecrets : Redactor := ⟨[], fun _ h => absurd h List.not_mem_nil⟩

/-- The successful completion of a child that writes one zero byte to stdout is refused. -/
theorem zero_byte_not_stored :
    ¬ OutputStored noSecrets [[0]] [] ∧
      ∀ s, storeCompletion (completion noSecrets 7 "worker-01" ⟨true, some 0⟩
        (readOutput noSecrets [[0]]).tail (readOutput noSecrets []).tail) 0 0 s =
          (.error .invalidData, s) := by
  constructor
  · intro h
    exact h.tails.1.2 (by decide)
  · intro s
    rw [storeCompletion, if_neg (by decide), if_pos (by decide +kernel)]

theorem splitLines_single {line : List UInt8} (h : 10 ∉ line) :
    splitLines (line ++ [10]) = ([line], []) := by
  have hread (bytes : List UInt8) (hbytes : 10 ∉ bytes) : splitLines bytes = ([], bytes) := by
    induction bytes using List.reverseRecOn with
    | nil => rfl
    | append_singleton bytes b ih =>
      rw [List.mem_append, not_or, List.mem_singleton] at hbytes
      rw [splitLines, List.foldl_append]
      change splitByte (splitLines bytes) b = _
      rw [ih hbytes.1, splitByte, if_neg (Ne.symm hbytes.2)]
  rw [splitLines, List.foldl_append]
  change splitByte (splitLines line) 10 = _
  rw [hread line h]
  rfl

/-- The zero bytes of a line that is too long to be shown. -/
theorem output_stored_iff_demo :
    OutputStored noSecrets [List.replicate 65537 0, [10]] [] := by
  have hsecrets : ∀ secret ∈ noSecrets.secrets, nul ∉ secret := fun secret h =>
    absurd h List.not_mem_nil
  have hsplit : splitLines [List.replicate 65537 0, [10]].flatten =
      ([List.replicate 65537 0], []) := by
    rw [List.flatten_cons, List.flatten_singleton]
    refine splitLines_single fun h => ?_
    exact absurd (List.eq_of_mem_replicate h) (by decide)
  refine ((output_stored_iff noSecrets [List.replicate 65537 0, [10]] []).2.1 hsecrets).mpr ⟨?_, ?_⟩
  · constructor
    · intro before line later hline hshown
      have hmem : line ∈ (splitLines [List.replicate 65537 0, [10]].flatten).1 := by
        rw [hline]
        exact List.mem_append_right before List.mem_cons_self
      rw [hsplit] at hmem
      refine absurd (.inl ?_) hshown
      rw [List.mem_singleton.mp hmem, List.length_replicate]
      decide
    · rw [hsplit]
      rintro - k ⟨after, hafter, -⟩
      exact absurd (hafter.subset List.mem_cons_self) List.not_mem_nil
  · exact (harmless_zeroAt hsecrets).mp (harmless_of_no_zero List.not_mem_nil)

end OutputStorage
