import Crono.ArgumentTemplates
import Crono.FencedReplacement
import Crono.InputPaths
import Crono.WorkerOutput

/-! The secrets a redactor collects from inputs and arguments, and the texts, arguments and inputs
it lets through. -/
namespace SecretRedaction

open RunDomain ExecutionInputs FencedReplacement WorkerOutput
open ArgumentTemplates (scalarText trim)
open TextPatterns (whitespace)
open BoundaryCuts (size)

def sensitiveWords : List (List Char) :=
  ["password".toList, "passwd".toList, "secret".toList, "token".toList, "apikey".toList,
    "authorization".toList, "credential".toList, "privatekey".toList]

def normalized (key : List Char) : List Char := (key.filter Char.isAlphanum).map Char.toLower

def sensitiveKey (key : List Char) : Bool :=
  sensitiveWords.any fun needle => decide (needle <:+: normalized key)

def sensitiveSwitch (value : List Char) : Bool :=
  value.head? = some '-' && !(value.any fun c => c ∈ ['=', ':', '/', '?', ' ']) &&
    sensitiveKey value

def splitOnce (d : Char) : List Char → Option (List Char × List Char)
  | [] => none
  | c :: rest =>
    if c = d then some ([], rest)
    else (splitOnce d rest).map fun found => (c :: found.1, found.2)

def stripReturn (line : List Char) : List Char :=
  if line.getLast? = some '\r' then line.dropLast else line

/-- `str::lines` after the start `line` of the current line: a newline ends a line and takes a
carriage return before it along; a text that ends with a newline has no further line. -/
def linesFrom (line : List Char) : List Char → List (List Char)
  | [] => if line = [] then [] else [line]
  | c :: rest =>
    if c = '\n' then stripReturn line :: linesFrom [] rest else linesFrom (line ++ [c]) rest

def lines (text : List Char) : List (List Char) := linesFrom [] text

def collectSecretText (value : List Char) : List (List Char) :=
  if value = [] then [] else value :: (lines value).filter fun line => line ≠ []

/-- What stands after the sign `d` when a sensitive key stands before it. -/
def sensitiveValue (d : Char) (text : List Char) : Option (List Char) :=
  (splitOnce d text).bind fun found => if sensitiveKey found.1 then some found.2 else none

def argumentSecrets (argument : List Char) : List (List Char) :=
  ((argument.splitOnP fun c => c = '?' || c = '&').flatMap fun part =>
    match sensitiveValue '=' part with
    | some value => collectSecretText value
    | none => []) ++
  match sensitiveValue ':' argument with
  | some value => collectSecretText (trim value) ++
      match ((value.splitOnP whitespace).filter fun word => word ≠ []).getLast? with
      | some last => collectSecretText last
      | none => []
  | none => []

def collectArgumentSecrets : (nextIsSecret : Bool) → (arguments : List (List Char)) →
    List (List Char)
  | _, [] => []
  | true, argument :: rest => collectSecretText argument ++ collectArgumentSecrets false rest
  | false, argument :: rest =>
    argumentSecrets argument ++ collectArgumentSecrets (sensitiveSwitch argument) rest

mutual
def collectSecrets (F : FloatFormat) : Value → (inherited : Bool) → List (List Char)
  | .object fields, inherited => collectFieldSecrets F fields inherited
  | .array items, inherited => collectItemSecrets F items inherited
  | .string text, inherited => if inherited then collectSecretText text.toList else []
  | .number n, inherited => if inherited then [numberText F n] else []
  | .bool b, inherited => if inherited then [if b then "true".toList else "false".toList] else []
  | .null, _ => []

def collectItemSecrets (F : FloatFormat) : List Value → (inherited : Bool) → List (List Char)
  | [], _ => []
  | item :: rest, inherited =>
    collectSecrets F item inherited ++ collectItemSecrets F rest inherited

def collectFieldSecrets (F : FloatFormat) : List (String × Value) → (inherited : Bool) →
    List (List Char)
  | [], _ => []
  | (key, value) :: rest, inherited =>
    collectSecrets F value (inherited || sensitiveKey key.toList) ++
      collectFieldSecrets F rest inherited
end

/-- Longer secrets first, and those of one length in order. -/
def before (left right : List Char) : Bool :=
  size right < size left || (size right = size left && decide (left ≤ right))

def dedup : List (List Char) → List (List Char)
  | a :: b :: rest => if a = b then dedup (b :: rest) else a :: dedup (b :: rest)
  | short => short

/-- How `serde_json` prints a number: some characters on one line. -/
structure PlainNumbers (F : FloatFormat) : Prop where
  nonempty : ∀ d, F.text d ≠ []
  oneLine : ∀ d, '\n' ∉ F.text d

theorem linesFrom_not_mem {line text : List Char} (hline : '\n' ∉ line) :
    ∀ found ∈ linesFrom line text, '\n' ∉ found := by
  have hstrip : '\n' ∉ stripReturn line := by
    unfold stripReturn
    split
    · exact fun hmem => hline (List.mem_of_mem_dropLast hmem)
    · exact hline
  induction text generalizing line with
  | nil =>
    rw [linesFrom]
    split
    · simp
    · simpa using hline
  | cons c rest ih =>
    rw [linesFrom]
    split
    · intro found hfound
      rcases List.mem_cons.mp hfound with rfl | hfound
      · exact hstrip
      · exact ih (by simp) (by simp [stripReturn]) found hfound
    · rename_i hc
      have hlonger : '\n' ∉ line ++ [c] := by simpa using ⟨hline, Ne.symm hc⟩
      refine ih hlonger ?_
      unfold stripReturn
      split
      · exact fun hmem => hlonger (List.mem_of_mem_dropLast hmem)
      · exact hlonger

theorem linesFrom_of_not_mem {line text : List Char} (h : '\n' ∉ text) :
    linesFrom line text = if line ++ text = [] then [] else [line ++ text] := by
  induction text generalizing line with
  | nil => rw [linesFrom, List.append_nil]
  | cons c rest ih =>
    rw [List.mem_cons, not_or] at h
    rw [linesFrom, if_neg (Ne.symm h.1), ih h.2, List.append_assoc, List.singleton_append]

theorem stripReturn_start (line : List Char) : stripReturn line <+: line := by
  unfold stripReturn
  split
  · exact List.dropLast_prefix line
  · exact List.prefix_refl line

theorem linesFrom_infix (line text : List Char) :
    ∀ found ∈ linesFrom line text, found <:+: line ++ text := by
  induction text generalizing line with
  | nil =>
    rw [linesFrom, List.append_nil]
    split
    · simp
    · simp
  | cons c rest ih =>
    rw [linesFrom]
    split
    · intro found hfound
      rcases List.mem_cons.mp hfound with rfl | hfound
      · exact (stripReturn_start line).isInfix.trans List.infix_append_left
      · exact (ih [] found hfound).trans
          (List.infix_append_of_infix_right (List.suffix_cons c rest).isInfix)
    · have hlater := ih (line ++ [c])
      rw [List.append_assoc, List.singleton_append] at hlater
      exact hlater

theorem mem_stripReturn {line : List Char} {c : Char} (hc : c ≠ '\r') (h : c ∈ line) :
    c ∈ stripReturn line := by
  unfold stripReturn
  split
  · rename_i hlast
    obtain ⟨start, rfl⟩ := List.getLast?_eq_some_iff.mp hlast
    rw [List.dropLast_concat]
    rcases List.mem_append.mp h with h | h
    · exact h
    · exact absurd (List.mem_singleton.mp h) hc
  · exact h

theorem mem_linesFrom {line text : List Char} {c : Char} (hnewline : c ≠ '\n') (hreturn : c ≠ '\r')
    (h : c ∈ line ++ text) : ∃ found ∈ linesFrom line text, c ∈ found := by
  induction text generalizing line with
  | nil =>
    rw [List.append_nil] at h
    rw [linesFrom, if_neg (List.ne_nil_of_mem h)]
    exact ⟨line, List.mem_cons_self, h⟩
  | cons d rest ih =>
    rw [linesFrom]
    split
    · rename_i hd
      rcases List.mem_append.mp h with hline | hrest
      · exact ⟨_, List.mem_cons_self, mem_stripReturn hreturn hline⟩
      · rcases List.mem_cons.mp hrest with heq | hrest
        · exact absurd (heq.trans hd) hnewline
        · obtain ⟨found, hfound, hc⟩ := @ih [] hrest
          exact ⟨found, List.mem_cons_of_mem _ hfound, hc⟩
    · exact ih (by simpa using h)

theorem mem_lines {text : List Char} {c : Char} (hnewline : c ≠ '\n') (hreturn : c ≠ '\r')
    (h : c ∈ text) : ∃ found ∈ lines text, c ∈ found := mem_linesFrom hnewline hreturn h

structure Collected (secrets : List (List Char)) : Prop where
  nonempty : ∀ s ∈ secrets, s ≠ []
  closed : ∀ s ∈ secrets, ∀ line ∈ lines s, line ≠ [] → line ∈ secrets

theorem Collected.nil : Collected [] := ⟨by simp, by simp⟩

theorem Collected.append {a b : List (List Char)} (ha : Collected a) (hb : Collected b) :
    Collected (a ++ b) := by
  constructor
  · exact List.forall_mem_append.mpr ⟨ha.nonempty, hb.nonempty⟩
  · intro s hs line hline hne
    rcases List.mem_append.mp hs with hs | hs
    · exact List.mem_append_left _ (ha.closed s hs line hline hne)
    · exact List.mem_append_right _ (hb.closed s hs line hline hne)

theorem Collected.flatMap {α : Type} {f : α → List (List Char)} (h : ∀ x, Collected (f x))
    (xs : List α) : Collected (xs.flatMap f) := by
  induction xs with
  | nil => exact .nil
  | cons x rest ih => exact (h x).append ih

theorem lines_of_not_mem {text : List Char} (hne : text ≠ []) (h : '\n' ∉ text) :
    lines text = [text] := by
  rw [lines, linesFrom_of_not_mem h, List.nil_append, if_neg hne]

theorem Collected.singleton {text : List Char} (hne : text ≠ []) (h : '\n' ∉ text) :
    Collected [text] := by
  constructor
  · simpa using hne
  · intro s hs line hline _
    rw [List.mem_singleton.mp hs, lines_of_not_mem hne h] at hline
    exact hline

theorem collectSecretText_collected (value : List Char) : Collected (collectSecretText value) := by
  unfold collectSecretText
  split
  · exact .nil
  · rename_i hvalue
    constructor
    · intro s hs
      rcases List.mem_cons.mp hs with rfl | hs
      · exact hvalue
      · simpa using (List.mem_filter.mp hs).2
    · intro s hs line hline hne
      rcases List.mem_cons.mp hs with rfl | hs
      · exact List.mem_cons_of_mem _ (List.mem_filter.mpr ⟨hline, by simpa using hne⟩)
      · -- a line of the value is its own only line
        obtain ⟨hline', hne'⟩ := List.mem_filter.mp hs
        have hplain : '\n' ∉ s := linesFrom_not_mem (by simp) s hline'
        rw [lines_of_not_mem (by simpa using hne') hplain, List.mem_singleton] at hline
        rw [hline]
        exact List.mem_cons_of_mem _ hs

theorem argumentSecrets_collected (argument : List Char) :
    Collected (argumentSecrets argument) := by
  unfold argumentSecrets
  refine (Collected.flatMap (fun part => ?_) _).append ?_
  · split
    · exact collectSecretText_collected _
    · exact .nil
  · split
    · refine (collectSecretText_collected _).append ?_
      split
      · exact collectSecretText_collected _
      · exact .nil
    · exact .nil

theorem collectArgumentSecrets_collected (arguments : List (List Char)) (nextIsSecret : Bool) :
    Collected (collectArgumentSecrets nextIsSecret arguments) := by
  induction arguments generalizing nextIsSecret with
  | nil => exact .nil
  | cons argument rest ih =>
    cases nextIsSecret with
    | true => exact (collectSecretText_collected argument).append (ih false)
    | false => exact (argumentSecrets_collected argument).append (ih _)

theorem toDigits_plain (n : ℕ) : Nat.toDigits 10 n ≠ [] ∧ '\n' ∉ Nat.toDigits 10 n := by
  constructor
  · exact List.ne_nil_of_length_pos Nat.length_toDigits_pos
  · intro hmem
    exact absurd (Nat.isDigit_of_mem_toDigits (by decide) (by decide) hmem) (by decide)

theorem numberText_plain {F : FloatFormat} (hF : PlainNumbers F) (n : Number) :
    numberText F n ≠ [] ∧ '\n' ∉ numberText F n := by
  cases n with
  | posInt n => exact toDigits_plain n
  | negInt n => exact ⟨List.cons_ne_nil _ _, by simpa [numberText] using (toDigits_plain n).2⟩
  | float d => exact ⟨hF.nonempty d, hF.oneLine d⟩
  | negZero => exact ⟨List.cons_ne_nil _ _, by simp [numberText]⟩

theorem collectSecrets_collected {F : FloatFormat} (hF : PlainNumbers F) (value : Value)
    (inherited : Bool) : Collected (collectSecrets F value inherited) := by
  induction value using InputPaths.value_induction generalizing inherited with
  | null => exact .nil
  | bool b =>
    rw [collectSecrets]
    split
    · exact .singleton (by cases b <;> decide) (by cases b <;> decide)
    · exact .nil
  | number n =>
    rw [collectSecrets]
    split
    · exact .singleton (numberText_plain hF n).1 (numberText_plain hF n).2
    · exact .nil
  | string text =>
    rw [collectSecrets]
    split
    · exact collectSecretText_collected _
    · exact .nil
  | array items ih =>
    rw [collectSecrets]
    induction items with
    | nil => exact .nil
    | cons item rest ihrest =>
      obtain ⟨hitem, hrest⟩ := List.forall_mem_cons.mp ih
      exact (hitem inherited).append (ihrest hrest)
  | object fields ih =>
    rw [collectSecrets]
    induction fields with
    | nil => exact .nil
    | cons field rest ihrest =>
      obtain ⟨key, value⟩ := field
      obtain ⟨hfield, hrest⟩ := List.forall_mem_cons.mp ih
      exact (hfield _).append (ihrest hrest)

theorem mem_dedup {secrets : List (List Char)} {s : List Char} :
    s ∈ dedup secrets ↔ s ∈ secrets := by
  induction secrets with
  | nil => rfl
  | cons a rest ih =>
    cases rest with
    | nil => rfl
    | cons b rest =>
      rw [dedup]
      split
      · rename_i heq
        rw [ih, heq]
        simp
      · rw [List.mem_cons, ih, List.mem_cons (l := b :: rest)]

/-- Everything collected from inputs and arguments, before it is put in order. -/
def collectedSecrets (F : FloatFormat) (inputs : Value) (arguments : List (List Char)) :
    List (List Char) :=
  collectSecrets F inputs false ++ collectArgumentSecrets false arguments

theorem collectedSecrets_collected {F : FloatFormat} (hF : PlainNumbers F) (inputs : Value)
    (arguments : List (List Char)) : Collected (collectedSecrets F inputs arguments) :=
  (collectSecrets_collected hF inputs false).append
    (collectArgumentSecrets_collected arguments false)

theorem mem_ordered_secrets {secrets : List (List Char)} {s : List Char} :
    s ∈ dedup (secrets.mergeSort before) ↔ s ∈ secrets := by
  rw [mem_dedup, List.mem_mergeSort]

def fromInputsAndArguments (F : FloatFormat) (hF : PlainNumbers F) (inputs : Value)
    (arguments : List (List Char)) : Redactor :=
  ⟨dedup ((collectedSecrets F inputs arguments).mergeSort before), fun s hs =>
    (collectedSecrets_collected hF inputs arguments).nonempty s (mem_ordered_secrets.mp hs)⟩

theorem fromInputsAndArguments_collected {F : FloatFormat} (hF : PlainNumbers F) (inputs : Value)
    (arguments : List (List Char)) :
    Collected (fromInputsAndArguments F hF inputs arguments).secrets := by
  have hcollected := collectedSecrets_collected hF inputs arguments
  constructor
  · exact (fromInputsAndArguments F hF inputs arguments).nonempty
  · intro s hs line hline hne
    exact mem_ordered_secrets.mpr (hcollected.closed s (mem_ordered_secrets.mp hs) line hline hne)

end SecretRedaction
