import Crono.RedactedContext

/-! The arguments, the output lines and the output tail of a run hold no collected secret, also
where a secret spans lines. -/
namespace RedactedOutput

open RunDomain ExecutionInputs FencedReplacement LossyText WorkerOutput SecretRedaction
open RedactedContext
open BoundaryCuts (size)

/-- The sensitive key before the sign `d`. -/
def keyBefore (d : Char) (text : List Char) : Option (List Char) :=
  (splitOnce d text).bind fun found => if sensitiveKey found.1 then some found.1 else none

def sanitized (redactor : Redactor) (argument : List Char) : List Char × Bool :=
  let safe := redactor.text argument
  match keyBefore '=' safe with
  | some key => (key ++ "=<redacted>".toList, false)
  | none =>
    match keyBefore ':' safe with
    | some key => (key ++ ": <redacted>".toList, false)
    | none =>
      if sensitiveSwitch safe then (safe, true)
      else if sensitiveKey safe then ("<redacted>".toList, false)
      else (safe, false)

def argumentsFrom (redactor : Redactor) : (hideNext : Bool) → List (List Char) → List (List Char)
  | _, [] => []
  | true, _ :: rest => "<redacted>".toList :: argumentsFrom redactor false rest
  | false, argument :: rest =>
    (sanitized redactor argument).1 :: argumentsFrom redactor (sanitized redactor argument).2 rest

/-- `Redactor::arguments`. -/
def arguments (redactor : Redactor) (args : List (List Char)) : List (List Char) :=
  argumentsFrom redactor false args

/-- A secret that redaction can hide: it shares no sign with the marker, occurs in none of the
worker's own texts, does not end with a space, and is more than line breaks. -/
structure Redactable (s : List Char) : Prop where
  hideable : Hideable s
  notInOversizedLine : ¬ s <:+: oversizedLine
  notInOversizedText : ¬ s <:+: oversizedText
  noSpaceAtEnd : s.getLast? ≠ some ' '
  notOnlyBreaks : ∃ c ∈ s, c ≠ '\n' ∧ c ≠ '\r'

/-- No secret occurs in the text. -/
def Clean (redactor : Redactor) (text : List Char) : Prop :=
  ∀ s ∈ redactor.secrets, ¬ s <:+: text

theorem splitOnce_eq {d : Char} {text a b : List Char} (h : splitOnce d text = some (a, b)) :
    text = a ++ d :: b := by
  induction text generalizing a with
  | nil => cases h
  | cons c rest ih =>
    rw [splitOnce] at h
    split at h
    · rename_i hc
      cases h
      rw [hc]
      rfl
    · obtain ⟨found, hfound, heq⟩ := Option.map_eq_some_iff.mp h
      cases heq
      rw [ih hfound]
      rfl

theorem keyBefore_eq {d : Char} {text key : List Char} (h : keyBefore d text = some key) :
    ∃ rest, text = key ++ d :: rest := by
  obtain ⟨⟨a, b⟩, hsplit, hkey⟩ := Option.bind_eq_some_iff.mp h
  split at hkey
  · cases hkey
    exact ⟨b, splitOnce_eq hsplit⟩
  · cases hkey

section Secrets

variable {redactor : Redactor}

theorem Clean.of_part {text part : List Char} (h : Clean redactor text) (hpart : part <:+: text) :
    Clean redactor part := fun s hs hin => h s hs (hin.trans hpart)

theorem Clean.append_marker (hideable : ∀ s ∈ redactor.secrets, Hideable s) {text : List Char}
    (h : Clean redactor text) : Clean redactor (text ++ "<redacted>".toList) := by
  have hmarker : "<redacted>".toList = '<' :: "redacted>".toList := by decide
  intro s hs hin
  rw [hmarker] at hin
  rcases infix_of_separator (hideable s hs).noLeft hin with hin | hin
  · exact h s hs hin
  · refine (hideable s hs).not_infix_marker (hin.trans ?_)
    rw [hmarker]
    exact (List.suffix_cons '<' _).isInfix

theorem clean_text (hideable : ∀ s ∈ redactor.secrets, Hideable s) (value : List Char) :
    Clean redactor (redactor.text value) := not_infix_text hideable value

theorem clean_marker (hideable : ∀ s ∈ redactor.secrets, Hideable s) :
    Clean redactor "<redacted>".toList := fun s hs => (hideable s hs).not_infix_marker

theorem Clean.append_space (h : ∀ s ∈ redactor.secrets, Redactable s) {text : List Char}
    (hclean : Clean redactor text) : Clean redactor (text ++ [' ']) := by
  intro s hs hin
  rcases List.infix_concat_iff.mp hin with hsuffix | hin
  · obtain ⟨start, hstart⟩ := hsuffix
    have hne := (h s hs).hideable.nonempty
    have hlast : s.getLast? = some ' ' := by
      have hwhole : (start ++ s).getLast? = some ' ' := by rw [hstart]; simp
      rwa [List.getLast?_append_of_ne_nil _ hne] at hwhole
    exact (h s hs).noSpaceAtEnd hlast
  · exact hclean s hs hin

theorem clean_sanitized (h : ∀ s ∈ redactor.secrets, Redactable s) (argument : List Char) :
    Clean redactor (sanitized redactor argument).1 := by
  have hideable : ∀ s ∈ redactor.secrets, Hideable s := fun s hs => (h s hs).hideable
  have hsafe := clean_text hideable argument
  simp only [sanitized]
  split
  · rename_i key hkey
    obtain ⟨rest, hrest⟩ := keyBefore_eq hkey
    have hstart : key ++ ['='] <:+: redactor.text argument := by
      have hsplit : redactor.text argument = (key ++ ['=']) ++ rest := by simp [hrest]
      rw [hsplit]
      exact List.infix_append_left
    have htext : "=<redacted>".toList = ['='] ++ "<redacted>".toList := by decide
    rw [htext, ← List.append_assoc]
    exact (hsafe.of_part hstart).append_marker hideable
  · split
    · rename_i key hkey
      obtain ⟨rest, hrest⟩ := keyBefore_eq hkey
      have hstart : key ++ [':'] <:+: redactor.text argument := by
        have hsplit : redactor.text argument = (key ++ [':']) ++ rest := by simp [hrest]
        rw [hsplit]
        exact List.infix_append_left
      have htext : ": <redacted>".toList = [':'] ++ ([' '] ++ "<redacted>".toList) := by decide
      rw [htext, ← List.append_assoc, ← List.append_assoc]
      exact ((hsafe.of_part hstart).append_space h).append_marker hideable
    · split
      · exact hsafe
      split
      · exact clean_marker hideable
      · exact hsafe

theorem clean_arguments (h : ∀ s ∈ redactor.secrets, Redactable s) (args : List (List Char)) :
    ∀ shown ∈ arguments redactor args, Clean redactor shown := by
  have hfrom (hideNext : Bool) : ∀ shown ∈ argumentsFrom redactor hideNext args,
      Clean redactor shown := by
    induction args generalizing hideNext with
    | nil => simp [argumentsFrom]
    | cons argument rest ih =>
      cases hideNext with
      | true =>
        refine List.forall_mem_cons.mpr ⟨clean_marker fun s hs => (h s hs).hideable, ih false⟩
      | false => exact List.forall_mem_cons.mpr ⟨clean_sanitized h argument, ih _⟩
  exact hfrom false

theorem clean_bounded (h : ∀ s ∈ redactor.secrets, Redactable s) {decoded : List Char}
    (hdecoded : Clean redactor decoded) : Clean redactor
      (if outputLimit < size decoded then oversizedText
        else decoded.rdropWhile fun c => c = '\r') := by
  split
  · exact fun s hs => (h s hs).notInOversizedText
  · have hpart := List.rdropWhile_prefix (fun c => decide (c = '\r')) decoded
    exact hdecoded.of_part hpart.isInfix

theorem clean_shown (h : ∀ s ∈ redactor.secrets, Redactable s) (bytes : List UInt8)
    (oversized : Bool) : Clean redactor (shown redactor bytes oversized) := by
  apply clean_bounded h
  split
  · exact fun s hs => (h s hs).notInOversizedLine
  · exact clean_text (fun s hs => (h s hs).hideable) _

theorem line_of_secret (hcollected : Collected redactor.secrets) {s : List Char}
    (hs : s ∈ redactor.secrets) (h : Redactable s) :
    ∃ line ∈ redactor.secrets, line <:+: s ∧ '\n' ∉ line := by
  obtain ⟨c, hc, hnewline, hreturn⟩ := h.notOnlyBreaks
  obtain ⟨line, hline, hmem⟩ := mem_lines hnewline hreturn hc
  exact ⟨line, hcollected.closed s hs line hline (List.ne_nil_of_mem hmem),
    linesFrom_infix [] s line hline, linesFrom_not_mem (by simp) line hline⟩

/-- Clean lines make a clean text: a secret that spans them would have a line of its own in one. -/
theorem clean_joined (hcollected : Collected redactor.secrets)
    (h : ∀ s ∈ redactor.secrets, Redactable s) {shownLines : List (List Char)} {last : List Char}
    (hlines : ∀ line ∈ shownLines, Clean redactor line) (hlast : Clean redactor last) :
    Clean redactor ((shownLines.flatMap fun line => line ++ ['\n']) ++ last) := by
  have hone {s : List Char} (hs : s ∈ redactor.secrets) (hplain : '\n' ∉ s) :
      ¬ s <:+: (shownLines.flatMap fun line => line ++ ['\n']) ++ last := by
    induction shownLines with
    | nil => exact hlast s hs
    | cons line rest ih =>
      obtain ⟨hline, hrest⟩ := List.forall_mem_cons.mp hlines
      intro hin
      rw [List.flatMap_cons, List.append_assoc, List.append_assoc, List.singleton_append] at hin
      rcases infix_of_separator hplain hin with hin | hin
      · exact hline s hs hin
      · exact ih hrest hin
  intro s hs hin
  obtain ⟨line, hline, hpart, hplain⟩ := line_of_secret hcollected hs (h s hs)
  exact hone hline hplain (hpart.trans hin)

theorem clean_printedText (hcollected : Collected redactor.secrets)
    (h : ∀ s ∈ redactor.secrets, Redactable s) (bytes : List UInt8) :
    Clean redactor (printedText redactor bytes) := by
  have hprinted (line : List UInt8) : Clean redactor (printed redactor line) := clean_shown h line _
  have hlines : ∀ line ∈ (splitLines bytes).1.map (printed redactor), Clean redactor line := by
    intro line hline
    obtain ⟨source, _, rfl⟩ := List.mem_map.mp hline
    exact hprinted source
  have hnil : Clean redactor [] := fun s hs hin =>
    (h s hs).hideable.nonempty (List.infix_nil.mp hin)
  have hlast : Clean redactor
      (if (splitLines bytes).2 = [] then [] else printed redactor (splitLines bytes).2) := by
    split
    · exact hnil
    · exact hprinted _
  have hjoined := clean_joined hcollected h hlines hlast
  rw [List.flatMap_map] at hjoined
  exact hjoined

theorem clean_printedLines (h : ∀ s ∈ redactor.secrets, Redactable s) (bytes : List UInt8) :
    ∀ line ∈ printedLines redactor bytes, Clean redactor line := by
  intro line hline
  rcases List.mem_append.mp hline with hline | hline
  · obtain ⟨source, _, rfl⟩ := List.mem_map.mp hline
    exact clean_shown h source _
  · split at hline
    · cases hline
    · rw [List.mem_singleton.mp hline]
      exact clean_shown h _ _

end Secrets

/-- Under what the marker and the worker's own texts allow, no collected secret is left in a text,
an argument, an output line or the tail, however the output arrives. -/
theorem no_collected_secret_survives (F : FloatFormat) (hF : PlainNumbers F) (inputs : Value)
    (args : List (List Char))
    (h : ∀ s ∈ (fromInputsAndArguments F hF inputs args).secrets, Redactable s) :
    (∀ text, Clean (fromInputsAndArguments F hF inputs args)
      ((fromInputsAndArguments F hF inputs args).text text)) ∧
    (∀ others, ∀ shown ∈ arguments (fromInputsAndArguments F hF inputs args) others,
      Clean (fromInputsAndArguments F hF inputs args) shown) ∧
    ∀ chunks,
      (∀ line ∈ (readOutput (fromInputsAndArguments F hF inputs args) chunks).events,
        Clean (fromInputsAndArguments F hF inputs args) line) ∧
      Clean (fromInputsAndArguments F hF inputs args)
        (readOutput (fromInputsAndArguments F hF inputs args) chunks).tail := by
  have hcollected := fromInputsAndArguments_collected hF inputs args
  generalize fromInputsAndArguments F hF inputs args = redactor at *
  refine ⟨clean_text fun s hs => (h s hs).hideable, clean_arguments h, ?_⟩
  intro chunks
  obtain ⟨hevents, htail⟩ := readOutput_spec redactor chunks
  constructor
  · rw [hevents]
    exact clean_printedLines h _
  · rw [htail]
    exact (clean_printedText hcollected h _).of_part (suffixWithin_suffix _ _).isInfix

def keyInputs : Value := .object [("private_key", .string "AX\nCD")]

theorem redactable_of_mem {s : List Char} {c : Char} (hc : c ∈ s)
    (hown : c ∉ "redacted".toList ++ oversizedLine ++ oversizedText) (hleft : '<' ∉ s)
    (hright : '>' ∉ s) (hend : s.getLast? ≠ some ' ') (hsign : c ≠ '\n' ∧ c ≠ '\r') :
    Redactable s := by
  have hnot {own : List Char} (h : c ∉ own) : ¬ s <:+: own := fun hin => h (hin.subset hc)
  simp only [List.mem_append, not_or] at hown
  exact ⟨⟨List.ne_nil_of_mem hc, hleft, hright, hnot hown.1.1⟩, hnot hown.1.2, hnot hown.2, hend,
    c, hc, hsign⟩

theorem keyInputs_redactable :
    ∀ s ∈ (fromInputsAndArguments plainFormat plainFormat_numbers keyInputs []).secrets,
      Redactable s := by
  have hsecrets : ∀ s ∈ collectedSecrets plainFormat keyInputs [],
      s ∈ ["AX\nCD".toList, "AX".toList, "CD".toList] := by decide
  intro s hs
  rw [fromInputsAndArguments, mem_ordered_secrets] at hs
  simp only [List.mem_cons, List.not_mem_nil, or_false] at hsecrets
  rcases hsecrets s hs with rfl | rfl | rfl
  · exact @redactable_of_mem _ 'X' (by decide) (by decide) (by decide) (by decide) (by decide)
      (by decide)
  · exact @redactable_of_mem _ 'X' (by decide) (by decide) (by decide) (by decide) (by decide)
      (by decide)
  · exact @redactable_of_mem _ 'D' (by decide) (by decide) (by decide) (by decide) (by decide)
      (by decide)

/-- Neither the text nor one of its lines is left, cut inside a line or not. -/
theorem two_line_secret_hidden :
    Clean (fromInputsAndArguments plainFormat plainFormat_numbers keyInputs [])
      (readOutput (fromInputsAndArguments plainFormat plainFormat_numbers keyInputs [])
        [[65, 88, 10, 67], [68]]).tail :=
  ((no_collected_secret_survives plainFormat plainFormat_numbers keyInputs []
    keyInputs_redactable).2.2 [[65, 88, 10, 67], [68]]).2

end RedactedOutput
