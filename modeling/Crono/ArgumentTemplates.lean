import Crono.DelimiterSearch
import Crono.InputStorage
import Crono.TextPatterns

/-! Argument templates. One loop validates and renders them; what it does is fixed by one split of
the template into literal pieces and placeholders, whatever the inputs are. -/
namespace ArgumentTemplates

open RunDomain ExecutionInputs DelimiterSearch
open FallibleLists
open InputStorage (shortest shortestText)
open TextPatterns (whitespace)

/-- `str::trim`. -/
def trim (text : List Char) : List Char :=
  ((text.dropWhile whitespace).reverse.dropWhile whitespace).reverse

def validPath (path : List Char) : Bool :=
  !path.isEmpty && (path.splitOn '.').all fun segment => validSegment (String.ofList segment)

/-- `validate_path`; `quote` is the debug form of a text. -/
def validatePath (quote : String → String) (path : List Char) : Except InputError Unit :=
  if validPath path then .ok ()
  else .error (.invalidTemplate
    ("template path " ++ quote (String.ofList path) ++ " must contain dot-separated input keys"))

/-- `value.as_object().and_then(|object| object.get(segment))`. -/
def member (segment : List Char) : Value → Option Value
  | .object fields => (fields.find? fun f => f.1 = String.ofList segment).map Prod.snd
  | _ => none

/-- The loop of `render_path`. -/
def resolve : List (List Char) → Value → Option Value
  | [], value => some value
  | segment :: rest, value => (member segment value).bind (resolve rest)

def scalarText (F : FloatFormat) : Value → Option (List Char)
  | .string text => some text.toList
  | .number n => some (numberText F n)
  | .bool b => some (if b then "true".toList else "false".toList)
  | .null | .array _ | .object _ => none

def renderPath (F : FloatFormat) (inputs : Value) (path : List Char) :
    Except InputError (List Char) :=
  match resolve (path.splitOn '.') inputs with
  | none => .error (.missingVariable (String.ofList path))
  | some value =>
    match scalarText F value with
    | some text => .ok text
    | none => .error (.nonScalarVariable (String.ofList path))

def opening : List Char := ['{', '{']

def closing : List Char := ['}', '}']

def placeholderText (F : FloatFormat) (inputs : Option Value) (path : List Char) :
    Except InputError (List Char) :=
  match inputs with
  | some values => renderPath F values path
  | none => .ok (opening ++ path ++ closing)

/-- The loop of `parse_template`. Delimiters are ASCII, so every cut is a character boundary. -/
def parseFrom (quote : String → String) (F : FloatFormat) (inputs : Option Value)
    (output remaining : List Char) : Except InputError (List Char) :=
  match _hopen : findDoubled '{' remaining with
  | none => .ok (output ++ remaining)
  | some (before, afterOpen) =>
    if before.getLast? = some '\\' then
      parseFrom quote F inputs (output ++ before.dropLast ++ opening) afterOpen
    else
      match _hclose : findDoubled '}' afterOpen with
      | none => .error (.invalidTemplate "template placeholder is not closed")
      | some (inner, rest) => do
        validatePath quote (trim inner)
        let text ← placeholderText F inputs (trim inner)
        parseFrom quote F inputs (output ++ before ++ text) rest
termination_by remaining.length
decreasing_by
  · exact findDoubled_length _hopen
  · exact (findDoubled_length _hclose).trans (findDoubled_length _hopen)

def parseTemplate (quote : String → String) (F : FloatFormat) (inputs : Option Value)
    (template : List Char) : Except InputError (List Char) :=
  parseFrom quote F inputs [] template

def validateArgumentTemplates (quote : String → String) (F : FloatFormat)
    (arguments : List (List Char)) : Except InputError Unit :=
  arguments.forM fun argument => (parseTemplate quote F none argument).map fun _ => ()

def renderArguments (quote : String → String) (F : FloatFormat) (arguments : List (List Char))
    (inputs : Value) : Except InputError (List (List Char)) := do
  validateInputs F inputs
  arguments.mapM fun argument => parseTemplate quote F (some inputs) argument

inductive Piece where
  | literal (text : List Char)
  | path (path : List Char)
  deriving DecidableEq, Repr

/-- How a template is read, from left to right: up to its first opening delimiter, which a backslash
makes a literal one, and then up to the first closing one. -/
inductive Splits : List Char → List Piece → Prop where
  | plain {text} : ¬ Doubled '{' text → Splits text [.literal text]
  | escaped {before rest pieces} : ¬ Doubled '{' (before ++ ['\\', '{']) → Splits rest pieces →
      Splits (before ++ '\\' :: '{' :: '{' :: rest) (.literal (before ++ opening) :: pieces)
  | placeholder {before inner rest pieces} : ¬ Doubled '{' (before ++ ['{']) →
      before.getLast? ≠ some '\\' → ¬ Doubled '}' (inner ++ ['}']) → Splits rest pieces →
      Splits (before ++ '{' :: '{' :: (inner ++ '}' :: '}' :: rest))
        (.literal before :: .path (trim inner) :: pieces)

theorem Splits.openless {text : List Char} (h : findDoubled '{' text = none) :
    Splits text [.literal text] := .plain (findDoubled_none.mp h)

theorem getLast?_backslash {before : List Char} (h : before.getLast? = some '\\') :
    before = before.dropLast ++ ['\\'] := by
  obtain ⟨init, hinit⟩ := List.getLast?_eq_some_iff.mp h
  rw [hinit, List.dropLast_concat]

theorem Splits.escape {text before afterOpen : List Char} {pieces : List Piece}
    (hopen : findDoubled '{' text = some (before, afterOpen))
    (hescape : before.getLast? = some '\\') (h : Splits afterOpen pieces) :
    Splits text (.literal (before.dropLast ++ opening) :: pieces) := by
  obtain ⟨rfl, hearlier⟩ := findDoubled_some.mp hopen
  rw [getLast?_backslash hescape] at hearlier ⊢
  rw [List.append_assoc] at hearlier ⊢
  rw [List.dropLast_concat]
  exact .escaped hearlier h

theorem Splits.cut {text before afterOpen inner rest : List Char} {pieces : List Piece}
    (hopen : findDoubled '{' text = some (before, afterOpen))
    (hescape : before.getLast? ≠ some '\\')
    (hclose : findDoubled '}' afterOpen = some (inner, rest)) (h : Splits rest pieces) :
    Splits text (.literal before :: .path (trim inner) :: pieces) := by
  obtain ⟨rfl, hearlier⟩ := findDoubled_some.mp hopen
  obtain ⟨rfl, hinner⟩ := findDoubled_some.mp hclose
  exact .placeholder hearlier hescape hinner h

@[elab_as_elim]
theorem Splits.search {motive : ∀ text pieces, Splits text pieces → Prop}
    (plain : ∀ text (hopen : findDoubled '{' text = none),
      motive text [.literal text] (.openless hopen))
    (escaped : ∀ text before afterOpen pieces
      (hopen : findDoubled '{' text = some (before, afterOpen))
      (hescape : before.getLast? = some '\\') (hrest : Splits afterOpen pieces),
      motive _ _ hrest → motive _ _ (.escape hopen hescape hrest))
    (placeholder : ∀ text before afterOpen inner rest pieces
      (hopen : findDoubled '{' text = some (before, afterOpen))
      (hescape : before.getLast? ≠ some '\\')
      (hclose : findDoubled '}' afterOpen = some (inner, rest)) (hrest : Splits rest pieces),
      motive _ _ hrest → motive _ _ (.cut hopen hescape hclose hrest))
    {text : List Char} {pieces : List Piece} (h : Splits text pieces) : motive text pieces h := by
  induction h with
  | plain hplain => exact plain _ (findDoubled_none.mpr hplain)
  | @escaped before rest pieces hearlier hrest ih =>
    have hfound : findDoubled '{' (before ++ '\\' :: '{' :: '{' :: rest) =
        some (before ++ ['\\'], rest) := by
      rw [findDoubled_some]
      exact ⟨by simp, by simpa using hearlier⟩
    have hpieces := escaped _ _ _ pieces hfound (by simp) hrest ih
    simpa only [List.dropLast_concat] using hpieces
  | @placeholder before inner rest pieces hearlier hescape hinner hrest ih =>
    exact placeholder _ _ _ _ _ _ (findDoubled_append hearlier _) hescape
      (findDoubled_append hinner _) hrest ih

theorem splits_cases {text : List Char} {pieces : List Piece} (h : Splits text pieces) :
    (findDoubled '{' text = none ∧ pieces = [.literal text]) ∨
    (∃ before afterOpen pieces', findDoubled '{' text = some (before, afterOpen) ∧
      before.getLast? = some '\\' ∧ Splits afterOpen pieces' ∧
      pieces = .literal (before.dropLast ++ opening) :: pieces') ∨
    ∃ before afterOpen inner rest pieces', findDoubled '{' text = some (before, afterOpen) ∧
      before.getLast? ≠ some '\\' ∧ findDoubled '}' afterOpen = some (inner, rest) ∧
      Splits rest pieces' ∧ pieces = .literal before :: .path (trim inner) :: pieces' := by
  induction h using Splits.search with
  | plain text hopen => exact .inl ⟨hopen, rfl⟩
  | escaped text before afterOpen pieces hopen hescape hrest _ =>
    exact .inr (.inl ⟨_, _, _, hopen, hescape, hrest, rfl⟩)
  | placeholder text before afterOpen inner rest pieces hopen hescape hclose hrest _ =>
    exact .inr (.inr ⟨_, _, _, _, _, hopen, hescape, hclose, hrest, rfl⟩)

theorem Splits.unique {text : List Char} {pieces pieces' : List Piece} (h : Splits text pieces)
    (h' : Splits text pieces') : pieces = pieces' := by
  induction h using Splits.search generalizing pieces' with
  | plain text hopen =>
    obtain ⟨_, rfl⟩ | ⟨_, _, _, hopen', _⟩ | ⟨_, _, _, _, _, hopen', _⟩ := splits_cases h'
    · rfl
    · rw [hopen] at hopen'; cases hopen'
    · rw [hopen] at hopen'; cases hopen'
  | escaped text before afterOpen pieces hopen hescape _ ih =>
    obtain ⟨hopen', _⟩ | ⟨_, _, _, hopen', _, hrest', rfl⟩ | ⟨_, _, _, _, _, hopen', hescape', _⟩ :=
      splits_cases h'
    · rw [hopen] at hopen'; cases hopen'
    · rw [hopen] at hopen'; cases hopen'
      rw [ih hrest']
    · rw [hopen] at hopen'; cases hopen'
      exact absurd hescape hescape'
  | placeholder text before afterOpen inner rest pieces hopen hescape hclose _ ih =>
    obtain ⟨hopen', _⟩ | ⟨_, _, _, hopen', hescape', _⟩ |
      ⟨_, _, _, _, _, hopen', _, hclose', hrest', rfl⟩ := splits_cases h'
    · rw [hopen] at hopen'; cases hopen'
    · rw [hopen] at hopen'; cases hopen'
      exact absurd hescape' hescape
    · rw [hopen] at hopen'; cases hopen'
      rw [hclose] at hclose'; cases hclose'
      rw [ih hrest']

def readPiece (quote : String → String) (F : FloatFormat) (inputs : Option Value) :
    Piece → Except InputError (List Char)
  | .literal text => .ok text
  | .path path => do
    validatePath quote path
    placeholderText F inputs path

section Loop

variable {quote : String → String} {F : FloatFormat} {inputs : Option Value}

theorem parseFrom_plain {remaining : List Char} (h : findDoubled '{' remaining = none)
    (output : List Char) :
    parseFrom quote F inputs output remaining = .ok (output ++ remaining) := by
  rw [parseFrom]
  split
  · rfl
  · rename_i hopen
    rw [h] at hopen; cases hopen

theorem parseFrom_escaped {remaining before afterOpen : List Char}
    (h : findDoubled '{' remaining = some (before, afterOpen))
    (hescape : before.getLast? = some '\\') (output : List Char) :
    parseFrom quote F inputs output remaining =
      parseFrom quote F inputs (output ++ before.dropLast ++ opening) afterOpen := by
  rw [parseFrom]
  split
  · rename_i hopen
    rw [h] at hopen; cases hopen
  · rename_i hopen
    rw [h] at hopen; cases hopen
    rw [if_pos hescape]

theorem parseFrom_unclosed {remaining before afterOpen : List Char}
    (h : findDoubled '{' remaining = some (before, afterOpen))
    (hescape : before.getLast? ≠ some '\\') (hclose : findDoubled '}' afterOpen = none)
    (output : List Char) : parseFrom quote F inputs output remaining =
      .error (.invalidTemplate "template placeholder is not closed") := by
  rw [parseFrom]
  split
  · rename_i hopen
    rw [h] at hopen; cases hopen
  · rename_i hopen
    rw [h] at hopen; cases hopen
    rw [if_neg hescape]
    split
    · rfl
    · rename_i hclose'
      rw [hclose] at hclose'; cases hclose'

theorem parseFrom_placeholder {remaining before afterOpen inner rest : List Char}
    (h : findDoubled '{' remaining = some (before, afterOpen))
    (hescape : before.getLast? ≠ some '\\')
    (hclose : findDoubled '}' afterOpen = some (inner, rest)) (output : List Char) :
    parseFrom quote F inputs output remaining =
      (readPiece quote F inputs (.path (trim inner))).bind fun text =>
        parseFrom quote F inputs (output ++ before ++ text) rest := by
  rw [parseFrom]
  split
  · rename_i hopen
    rw [h] at hopen; cases hopen
  · rename_i hopen
    rw [h] at hopen; cases hopen
    rw [if_neg hescape]
    split
    · rename_i hclose'
      rw [hclose] at hclose'; cases hclose'
    · rename_i hclose'
      rw [hclose] at hclose'; cases hclose'
      simp only [readPiece, bind]
      cases validatePath quote (trim inner) <;> rfl

theorem parseFrom_splits {remaining : List Char} {pieces : List Piece}
    (h : Splits remaining pieces) (output : List Char) :
    parseFrom quote F inputs output remaining =
      (pieces.mapM (readPiece quote F inputs)).map fun texts => output ++ texts.flatten := by
  induction h using Splits.search generalizing output with
  | plain text hopen =>
    rw [parseFrom_plain hopen]
    simp [readPiece, Except.map, pure, Except.pure, bind, Except.bind]
  | escaped text before afterOpen pieces hopen hescape _ ih =>
    rw [parseFrom_escaped hopen hescape, ih, List.mapM_cons]
    cases pieces.mapM (readPiece quote F inputs) with
    | error e => rfl
    | ok texts => simp [readPiece, Except.map, pure, Except.pure, bind, Except.bind]
  | placeholder text before afterOpen inner rest pieces hopen hescape hclose _ ih =>
    rw [parseFrom_placeholder hopen hescape hclose, List.mapM_cons, List.mapM_cons]
    cases readPiece quote F inputs (.path (trim inner)) with
    | error e => rfl
    | ok text =>
      rw [Except.bind, ih]
      cases pieces.mapM (readPiece quote F inputs) with
      | error e => rfl
      | ok texts => simp [readPiece, Except.map, pure, Except.pure, bind, Except.bind]

theorem splits_of_parseFrom {output remaining result : List Char}
    (h : parseFrom quote F inputs output remaining = .ok result) :
    ∃ pieces, Splits remaining pieces := by
  induction hn : remaining.length using Nat.strongRecOn generalizing output remaining with
  | ind n ih =>
    cases hopen : findDoubled '{' remaining with
    | none => exact ⟨_, .openless hopen⟩
    | some found =>
      obtain ⟨before, afterOpen⟩ := found
      have hshorter := hn ▸ findDoubled_length hopen
      by_cases hescape : before.getLast? = some '\\'
      · rw [parseFrom_escaped hopen hescape] at h
        obtain ⟨pieces, hpieces⟩ := ih _ hshorter h rfl
        exact ⟨_, .escape hopen hescape hpieces⟩
      · cases hclose : findDoubled '}' afterOpen with
        | none =>
          rw [parseFrom_unclosed hopen hescape hclose] at h
          cases h
        | some found =>
          obtain ⟨inner, rest⟩ := found
          rw [parseFrom_placeholder hopen hescape hclose] at h
          obtain ⟨text, _, hrest⟩ := ok_of_bind h
          obtain ⟨pieces, hpieces⟩ := ih _ ((findDoubled_length hclose).trans hshorter) hrest rfl
          exact ⟨_, .cut hopen hescape hclose hpieces⟩

end Loop

def PathsValid (pieces : List Piece) : Prop := ∀ path, .path path ∈ pieces → validPath path = true

def Accepted (template : List Char) : Prop := ∃ pieces, Splits template pieces ∧ PathsValid pieces

def pathText (F : FloatFormat) (inputs : Value) (path : List Char) : Option (List Char) :=
  (resolve (path.splitOn '.') inputs).bind (scalarText F)

def pieceText (F : FloatFormat) (inputs : Value) : Piece → Option (List Char)
  | .literal text => some text
  | .path path => pathText F inputs path

/-- The output of a split: the texts of its pieces, one after the other. -/
def Rendered (F : FloatFormat) (inputs : Value) (pieces : List Piece) (output : List Char) : Prop :=
  ∃ texts, List.Forall₂ (fun piece text => pieceText F inputs piece = some text) pieces texts ∧
    output = texts.flatten

/-- Why a path has no text. -/
def PathError (F : FloatFormat) (inputs : Value) (path : List Char) (e : InputError) : Prop :=
  (resolve (path.splitOn '.') inputs = none ∧ e = .missingVariable (String.ofList path)) ∨
  ∃ value, resolve (path.splitOn '.') inputs = some value ∧ scalarText F value = none ∧
    e = .nonScalarVariable (String.ofList path)

section Rendering

variable {quote : String → String} {F : FloatFormat} {inputs : Value}

theorem renderPath_ok {path text : List Char} :
    renderPath F inputs path = .ok text ↔ pathText F inputs path = some text := by
  unfold renderPath pathText
  cases resolve (path.splitOn '.') inputs with
  | none => simp
  | some value =>
    simp only [Option.bind_some]
    cases scalarText F value with
    | none => simp
    | some text' => simp

theorem renderPath_error {path : List Char} {e : InputError}
    (h : renderPath F inputs path = .error e) : PathError F inputs path e := by
  unfold renderPath at h
  cases hvalue : resolve (path.splitOn '.') inputs with
  | none =>
    rw [hvalue] at h
    cases h
    exact .inl ⟨hvalue, rfl⟩
  | some value =>
    cases htext : scalarText F value with
    | none =>
      simp only [hvalue, htext] at h
      cases h
      exact .inr ⟨value, hvalue, htext, rfl⟩
    | some text =>
      simp only [hvalue, htext] at h
      cases h

theorem validatePath_ok {path : List Char} :
    validatePath quote path = .ok () ↔ validPath path = true := by
  unfold validatePath
  by_cases h : validPath path = true
  · simp [h]
  · simp [h]

theorem readPiece_path {values : Option Value} {path : List Char} (h : validPath path = true) :
    readPiece quote F values (.path path) = placeholderText F values path := by
  rw [readPiece, validatePath_ok.mpr h]
  rfl

theorem readPiece_valid {values : Option Value} {path text : List Char}
    (h : readPiece quote F values (.path path) = .ok text) : validPath path = true := by
  obtain ⟨_, hpath, _⟩ := ok_of_bind h
  exact validatePath_ok.mp hpath

variable (quote F) in
theorem readPiece_validate {piece : Piece} :
    (∃ text, readPiece quote F none piece = .ok text) ↔
      ∀ path, piece = .path path → validPath path = true := by
  cases piece with
  | literal text => exact iff_of_true ⟨text, rfl⟩ (fun _ h => nomatch h)
  | path path =>
    constructor
    · rintro ⟨text, h⟩ path' ⟨⟩
      exact readPiece_valid h
    · intro h
      exact ⟨_, readPiece_path (h path rfl)⟩

theorem parseTemplate_splits {values : Option Value} {template : List Char} {pieces : List Piece}
    (h : Splits template pieces) : parseTemplate quote F values template =
      (pieces.mapM (readPiece quote F values)).map List.flatten := by
  simp only [parseTemplate, parseFrom_splits h, List.nil_append]

theorem accepted_of_parseTemplate {values : Option Value} {template output : List Char}
    (h : parseTemplate quote F values template = .ok output) : Accepted template := by
  obtain ⟨pieces, hsplit⟩ := splits_of_parseFrom h
  refine ⟨pieces, hsplit, fun path hpath => ?_⟩
  rw [parseTemplate_splits hsplit] at h
  cases htexts : pieces.mapM (readPiece quote F values) with
  | error e => rw [htexts] at h; cases h
  | ok texts =>
    obtain ⟨text, htext⟩ := mapM_succeeds_iff.mp ⟨texts, htexts⟩ _ hpath
    exact readPiece_valid htext

variable (quote F) in
theorem parseTemplate_validate {template : List Char} :
    (∃ output, parseTemplate quote F none template = .ok output) ↔ Accepted template := by
  constructor
  · rintro ⟨output, h⟩
    exact accepted_of_parseTemplate h
  · rintro ⟨pieces, hsplit, hvalid⟩
    obtain ⟨texts, htexts⟩ := mapM_succeeds_iff.mpr fun piece (hpiece : piece ∈ pieces) =>
      (readPiece_validate quote F).mpr fun path hpath =>
        hvalid path (hpath ▸ hpiece)
    rw [parseTemplate_splits hsplit, htexts]
    exact ⟨_, rfl⟩

theorem validateArgumentTemplates_ok {templates : List (List Char)} :
    validateArgumentTemplates quote F templates = .ok () ↔
      ∀ template ∈ templates, Accepted template := by
  have hone (template : List Char) :
      (parseTemplate quote F none template).map (fun _ => ()) = .ok () ↔ Accepted template := by
    rw [← parseTemplate_validate quote F]
    cases parseTemplate quote F none template with
    | error e => simp [Except.map]
    | ok output => simp [Except.map]
  rw [validateArgumentTemplates, forM_ok_iff]
  simp only [hone]

theorem readPiece_render {piece : Piece}
    (hvalid : ∀ path, piece = .path path → validPath path = true) {text : List Char} :
    readPiece quote F (some inputs) piece = .ok text ↔ pieceText F inputs piece = some text := by
  cases piece with
  | literal text' => simp [readPiece, pieceText]
  | path path =>
    rw [readPiece_path (hvalid path rfl)]
    exact renderPath_ok

theorem parseTemplate_render {template : List Char} {pieces : List Piece}
    (hsplit : Splits template pieces) (hvalid : PathsValid pieces) {output : List Char} :
    parseTemplate quote F (some inputs) template = .ok output ↔
      Rendered F inputs pieces output := by
  have hpieces (texts : List (List Char)) :
      pieces.mapM (readPiece quote F (some inputs)) = .ok texts ↔
        List.Forall₂ (fun piece text => pieceText F inputs piece = some text) pieces texts := by
    rw [mapM_ok_iff]
    exact forall₂_congr_mem fun piece hpiece text => readPiece_render
      fun path hpath => hvalid path (hpath ▸ hpiece)
  rw [parseTemplate_splits hsplit]
  constructor
  · intro h
    cases htexts : pieces.mapM (readPiece quote F (some inputs)) with
    | error e => rw [htexts] at h; cases h
    | ok texts =>
      rw [htexts] at h
      cases h
      exact ⟨texts, (hpieces texts).mp htexts, rfl⟩
  · rintro ⟨texts, htexts, rfl⟩
    rw [(hpieces texts).mpr htexts]
    rfl

theorem parseTemplate_error {template : List Char} {pieces : List Piece}
    (hsplit : Splits template pieces) (hvalid : PathsValid pieces) {e : InputError}
    (h : parseTemplate quote F (some inputs) template = .error e) :
    ∃ path, .path path ∈ pieces ∧ PathError F inputs path e := by
  rw [parseTemplate_splits hsplit] at h
  cases htexts : pieces.mapM (readPiece quote F (some inputs)) with
  | ok texts => rw [htexts] at h; cases h
  | error e' =>
    rw [htexts] at h
    cases h
    obtain ⟨piece, hpiece, hfail⟩ := mapM_error htexts
    cases piece with
    | literal text => cases hfail
    | path path =>
      rw [readPiece_path (hvalid path hpiece)] at hfail
      exact ⟨path, hpiece, renderPath_error hfail⟩

end Rendering

/-- Not the NUL character. -/
def NulFree (text : List Char) : Prop := Char.ofNat 0 ∉ text

theorem Splits.literal_mem {text : List Char} {pieces : List Piece} (h : Splits text pieces)
    {piece : List Char} (hpiece : .literal piece ∈ pieces) {c : Char} (hc : c ∈ piece) :
    c ∈ text := by
  induction h with
  | plain _ =>
    simp only [List.mem_singleton, Piece.literal.injEq] at hpiece
    exact hpiece ▸ hc
  | escaped _ _ ih =>
    simp only [List.mem_cons, Piece.literal.injEq] at hpiece
    rcases hpiece with rfl | hpiece
    · simp only [opening, List.mem_append, List.mem_cons, List.not_mem_nil, or_false] at hc ⊢
      tauto
    · simp [ih hpiece]
  | placeholder _ _ _ _ ih =>
    simp only [List.mem_cons, Piece.literal.injEq, reduceCtorEq, false_or] at hpiece
    rcases hpiece with rfl | hpiece
    · simp [hc]
    · simp [ih hpiece]

theorem validateFields_mem {fields : List (String × Value)} (h : validateFields fields = .ok ())
    {key : String} {value : Value} (hmem : (key, value) ∈ fields) :
    validateEntries value = .ok () := by
  induction fields with
  | nil => cases hmem
  | cons field rest ih =>
    obtain ⟨key', value'⟩ := field
    rw [validateFields] at h
    split at h
    · cases h
    obtain ⟨_, hvalue, hrest⟩ := ok_of_bind h
    rcases List.mem_cons.mp hmem with heq | hmem
    · cases heq
      exact hvalue
    · exact ih hrest hmem

theorem validateEntries_member {value result : Value} {segment : List Char}
    (h : validateEntries value = .ok ()) (hmember : member segment value = some result) :
    validateEntries result = .ok () := by
  cases value with
  | object fields =>
    simp only [member, Option.map_eq_some_iff] at hmember
    obtain ⟨⟨key, found⟩, hfound, rfl⟩ := hmember
    rw [validateEntries] at h
    exact validateFields_mem h (List.mem_of_find?_eq_some hfound)
  | null => cases hmember
  | bool b => cases hmember
  | number n => cases hmember
  | string text => cases hmember
  | array items => cases hmember

theorem validateEntries_resolve {segments : List (List Char)} {value result : Value}
    (h : validateEntries value = .ok ()) (hresult : resolve segments value = some result) :
    validateEntries result = .ok () := by
  induction segments generalizing value with
  | nil =>
    cases hresult
    exact h
  | cons segment rest ih =>
    rw [resolve, Option.bind_eq_some_iff] at hresult
    obtain ⟨nested, hmember, hrest⟩ := hresult
    exact ih (validateEntries_member h hmember) hrest

theorem toDigits_nulFree (n : ℕ) : NulFree (Nat.toDigits 10 n) := by
  intro hmem
  have hdigit := Nat.isDigit_of_mem_toDigits (by decide) (by decide) hmem
  exact absurd hdigit (by decide)

theorem numberText_nulFree {F : FloatFormat} (hF : ∀ d, NulFree (F.text d)) (n : Number) :
    NulFree (numberText F n) := by
  cases n with
  | posInt n => exact toDigits_nulFree n
  | negInt n =>
    intro hmem
    rcases List.mem_cons.mp hmem with heq | hmem
    · exact absurd heq (by decide)
    · exact toDigits_nulFree n hmem
  | float d => exact hF d
  | negZero => exact (by decide : Char.ofNat 0 ∉ ['-', '0', '.', '0'])

theorem scalarText_nulFree {F : FloatFormat} (hF : ∀ d, NulFree (F.text d)) {value : Value}
    (h : validateEntries value = .ok ()) {text : List Char}
    (htext : scalarText F value = some text) : NulFree text := by
  cases value with
  | string s =>
    cases htext
    rw [validateEntries] at h
    intro hmem
    rw [if_pos (List.contains_iff_mem.mpr hmem)] at h
    cases h
  | number n =>
    cases htext
    exact numberText_nulFree hF n
  | bool b =>
    cases htext
    cases b with
    | false => exact (by decide : Char.ofNat 0 ∉ "false".toList)
    | true => exact (by decide : Char.ofNat 0 ∉ "true".toList)
  | null => cases htext
  | array items => cases htext
  | object fields => cases htext

theorem Rendered.nulFree {F : FloatFormat} (hF : ∀ d, NulFree (F.text d)) {inputs : Value}
    (hinputs : validateEntries inputs = .ok ()) {template : List Char} {pieces : List Piece}
    (hsplit : Splits template pieces) (htemplate : NulFree template) {output : List Char}
    (h : Rendered F inputs pieces output) : NulFree output := by
  obtain ⟨texts, htexts, rfl⟩ := h
  intro hmem
  obtain ⟨text, htext, hnul⟩ := List.mem_flatten.mp hmem
  obtain ⟨piece, hpiece, heq⟩ := forall₂_of_mem htexts.flip htext
  cases piece with
  | literal literal =>
    cases heq
    exact htemplate (hsplit.literal_mem hpiece hnul)
  | path path =>
    obtain ⟨value, hvalue, hscalar⟩ := Option.bind_eq_some_iff.mp heq
    exact scalarText_nulFree hF (validateEntries_resolve hinputs hvalue) hscalar hnul

section Arguments

variable {quote : String → String} {F : FloatFormat} {inputs : Value}

theorem renderArguments_valid (h : validateInputs F inputs = .ok ())
    (templates : List (List Char)) :
    renderArguments quote F templates inputs =
      templates.mapM fun template => parseTemplate quote F (some inputs) template := by
  rw [renderArguments, h]
  rfl

theorem accepted_of_renderArguments {templates outputs : List (List Char)}
    (h : renderArguments quote F templates inputs = .ok outputs) {template : List Char}
    (htemplate : template ∈ templates) : Accepted template := by
  obtain ⟨_, _, h⟩ := ok_of_bind h
  obtain ⟨output, houtput⟩ := mapM_succeeds_iff.mp ⟨outputs, h⟩ template htemplate
  exact accepted_of_parseTemplate houtput

theorem split_unique (template : List Char) : ∃! split : Option (List Piece),
    ∀ pieces, split = some pieces ↔ Splits template pieces := by
  refine existsUnique_of_exists_of_unique ?_ ?_
  · by_cases h : ∃ pieces, Splits template pieces
    · obtain ⟨pieces, hpieces⟩ := h
      refine ⟨some pieces, fun pieces' => ⟨?_, fun h' => congrArg some (hpieces.unique h')⟩⟩
      rintro ⟨⟩
      exact hpieces
    · exact ⟨none, fun pieces => iff_of_false (by simp) fun hpieces => h ⟨pieces, hpieces⟩⟩
  · intro split split' h h'
    exact Option.ext fun pieces => (h pieces).trans (h' pieces).symm

theorem renderArguments_ok (hinputs : validateInputs F inputs = .ok ())
    {templates : List (List Char)} {splits : List (List Piece)}
    (hsplits : List.Forall₂ (fun template pieces => Splits template pieces ∧ PathsValid pieces)
      templates splits) {outputs : List (List Char)} :
    renderArguments quote F templates inputs = .ok outputs ↔
      List.Forall₂ (Rendered F inputs) splits outputs := by
  rw [renderArguments_valid hinputs, mapM_ok_iff]
  induction hsplits generalizing outputs with
  | nil => simp
  | cons hhead _ ih =>
    simp only [List.forall₂_cons_left_iff, parseTemplate_render hhead.1 hhead.2, ih]

theorem renderArguments_error (hinputs : validateInputs F inputs = .ok ())
    {templates : List (List Char)} {splits : List (List Piece)}
    (hsplits : List.Forall₂ (fun template pieces => Splits template pieces ∧ PathsValid pieces)
      templates splits) {e : InputError}
    (h : renderArguments quote F templates inputs = .error e) :
    ∃ pieces ∈ splits, ∃ path, .path path ∈ pieces ∧ PathError F inputs path e := by
  rw [renderArguments_valid hinputs] at h
  obtain ⟨template, htemplate, hfail⟩ := mapM_error h
  obtain ⟨pieces, hpieces, hsplit, hvalid⟩ := forall₂_of_mem hsplits htemplate
  exact ⟨pieces, hpieces, parseTemplate_error hsplit hvalid hfail⟩

theorem renderArguments_nulFree (hF : ∀ d, NulFree (F.text d))
    (hinputs : validateInputs F inputs = .ok ()) {templates outputs : List (List Char)}
    (h : renderArguments quote F templates inputs = .ok outputs)
    (htemplates : ∀ template ∈ templates, NulFree template) :
    ∀ output ∈ outputs, NulFree output := by
  intro output houtput
  rw [renderArguments_valid hinputs, mapM_ok_iff] at h
  obtain ⟨template, htemplate, hparse⟩ := forall₂_of_mem h.flip houtput
  obtain ⟨pieces, hsplit, hvalid⟩ := accepted_of_parseTemplate hparse
  exact ((parseTemplate_render hsplit hvalid).mp hparse).nulFree hF
    (validateInputs_ok_iff.mp hinputs).2.1 hsplit (htemplates template htemplate)

end Arguments

/-- Argument templates are read apart from their inputs: each has at most one split, which decides
whether it is accepted, and the split and the scalars of its paths decide what it renders to. -/
theorem templates_follow_split (quote : String → String) (F : FloatFormat)
    (hF : ∀ d, NulFree (F.text d)) :
    (∀ template, ∃! split : Option (List Piece),
      ∀ pieces, split = some pieces ↔ Splits template pieces) ∧
    (∀ templates, validateArgumentTemplates quote F templates = .ok () ↔
      ∀ template ∈ templates, Accepted template) ∧
    (∀ inputs, validateInputs F inputs = .ok () → ∀ templates splits,
      List.Forall₂ (fun template pieces => Splits template pieces ∧ PathsValid pieces)
        templates splits →
      (∀ outputs, renderArguments quote F templates inputs = .ok outputs ↔
        List.Forall₂ (Rendered F inputs) splits outputs) ∧
      ∀ e, renderArguments quote F templates inputs = .error e →
        ∃ pieces ∈ splits, ∃ path, .path path ∈ pieces ∧ PathError F inputs path e) ∧
    (∀ inputs templates outputs, renderArguments quote F templates inputs = .ok outputs →
      ∀ template ∈ templates, Accepted template) ∧
    ∀ inputs, validateInputs F inputs = .ok () → ∀ templates outputs,
      renderArguments quote F templates inputs = .ok outputs →
      (∀ template ∈ templates, NulFree template) → ∀ output ∈ outputs, NulFree output := by
  refine ⟨split_unique, fun templates => validateArgumentTemplates_ok, ?_,
    fun inputs templates outputs h template => accepted_of_renderArguments h, ?_⟩
  · intro inputs hinputs templates splits hsplits
    exact ⟨fun outputs => renderArguments_ok hinputs hsplits,
      fun e => renderArguments_error hinputs hsplits⟩
  · intro inputs hinputs templates outputs h
    exact renderArguments_nulFree hF hinputs h

theorem toString_nulFree (n : ℤ) : NulFree (toString n).toList := by
  rw [Int.toString_eq_repr, Int.repr_eq_if]
  split
  · rw [Nat.toList_repr]
    exact toDigits_nulFree _
  · rw [String.toList_append, Nat.toList_repr]
    intro hmem
    rcases List.mem_append.mp hmem with hsign | hdigits
    · exact absurd hsign (by decide)
    · exact toDigits_nulFree _ hdigits

theorem shortest_nulFree (d : Decimal) : NulFree ((shortest []).text d) := by
  have hdigits := toDigits_nulFree d.mantissa.natAbs
  unfold NulFree at hdigits ⊢
  simp only [shortest, shortestText]
  generalize Nat.toDigits 10 d.mantissa.natAbs = digits at hdigits ⊢
  have hsigned (text : List Char) (h : Char.ofNat 0 ∉ text) :
      Char.ofNat 0 ∉ if d.mantissa < 0 then '-' :: text else text := by
    split
    · simp only [List.mem_cons, not_or]
      exact ⟨by decide, h⟩
    · exact h
  apply hsigned
  split
  · simp only [List.mem_append, List.mem_cons, not_or]
    exact ⟨fun h => hdigits (List.mem_of_mem_take h), by decide,
      fun h => hdigits (List.mem_of_mem_drop h)⟩
  split
  · simp only [List.mem_append, List.mem_cons, List.mem_replicate, not_or]
    exact ⟨by decide, by decide, fun h => absurd h.2 (by decide), hdigits⟩
  split
  · simp only [List.mem_append, List.mem_cons, not_or, ite_self] at hdigits ⊢
    exact ⟨⟨hdigits.1, by decide, hdigits.2⟩, ⟨by decide, by decide⟩, toString_nulFree _⟩
  · simp only [List.mem_append, List.mem_cons, not_or, ite_self]
    exact ⟨hdigits, ⟨by decide, by decide⟩, toString_nulFree _⟩

def demoTemplate : List Char := "\\\x7b\x7b-\x7b\x7b net.port \x7d\x7d".toList

def demoPieces : List Piece :=
  [.literal opening, .literal ['-'], .path "net.port".toList, .literal []]

def demoInputs : Value :=
  .object [("net", .object [("port", .string "\\\x7b\x7bx\x7d\x7d")])]

theorem demoTemplate_splits : Splits demoTemplate demoPieces := by
  have hescape : findDoubled '{' demoTemplate =
      some (['\\'], "-\x7b\x7b net.port \x7d\x7d".toList) := by decide
  have hopen : findDoubled '{' "-\x7b\x7b net.port \x7d\x7d".toList =
      some (['-'], " net.port \x7d\x7d".toList) := by decide
  have hclose : findDoubled '}' " net.port \x7d\x7d".toList =
      some (" net.port ".toList, []) := by decide
  exact .escape hescape (by decide) (.cut hopen (by decide) hclose (.openless rfl))

/-- A value that holds delimiters is not read again. -/
theorem templates_follow_split_demo : renderArguments id (shortest []) [demoTemplate] demoInputs =
    .ok ["\x7b\x7b-\\\x7b\x7bx\x7d\x7d".toList] := by
  have hvalid : PathsValid demoPieces := by
    intro path hpath
    simp only [demoPieces, List.mem_cons, reduceCtorEq, Piece.path.injEq, List.not_mem_nil,
      false_or, or_false] at hpath
    rw [hpath]
    decide
  refine (((templates_follow_split id (shortest []) shortest_nulFree).2.2.1 demoInputs
    (by decide +kernel) _ _ (.cons ⟨demoTemplate_splits, hvalid⟩ .nil)).1 _).mpr (.cons ?_ .nil)
  exact ⟨_, .cons rfl (.cons rfl (.cons rfl (.cons rfl .nil))), by decide⟩

/-- A backslash before each opening delimiter, from left to right. -/
def escapeOpen : List Char → List Char
  | '{' :: '{' :: rest => '\\' :: '{' :: '{' :: escapeOpen rest
  | c :: rest => c :: escapeOpen rest
  | [] => []

theorem escapeOpen_plain {text : List Char} (h : findDoubled '{' text = none) :
    escapeOpen text = text := by
  fun_induction escapeOpen text with
  | case1 rest ih => simp [findDoubled] at h
  | case2 c rest hne ih =>
    rw [findDoubled_cons hne, Option.map_eq_none_iff] at h
    rw [ih h]
  | case3 => rfl

theorem escapeOpen_open {text before rest : List Char}
    (h : findDoubled '{' text = some (before, rest)) :
    escapeOpen text = before ++ '\\' :: '{' :: '{' :: escapeOpen rest := by
  fun_induction escapeOpen text generalizing before with
  | case1 rest ih =>
    rw [findDoubled, if_pos ⟨rfl, rfl⟩] at h
    cases h
    rfl
  | case2 c tail hne ih =>
    rw [findDoubled_cons hne, Option.map_eq_some_iff] at h
    obtain ⟨⟨before', rest'⟩, hfound, heq⟩ := h
    cases heq
    rw [ih hfound, List.cons_append]
  | case3 => cases h

theorem escapeOpen_splits (text : List Char) :
    ∃ literals : List (List Char), Splits (escapeOpen text) (literals.map .literal) ∧
      literals.flatten = text := by
  induction hn : text.length using Nat.strongRecOn generalizing text with
  | ind n ih =>
    cases hopen : findDoubled '{' text with
    | none =>
      refine ⟨[text], ?_, by simp⟩
      rw [escapeOpen_plain hopen]
      exact .openless hopen
    | some found =>
      obtain ⟨before, rest⟩ := found
      obtain ⟨literals, hrest, hflatten⟩ := ih _ (hn ▸ findDoubled_length hopen) rest rfl
      obtain ⟨htext, hearlier⟩ := findDoubled_some.mp hopen
      refine ⟨(before ++ opening) :: literals, ?_, by simp [hflatten, htext, opening]⟩
      rw [escapeOpen_open hopen]
      refine .escaped ?_ hrest
      rw [doubled_concat, not_or] at hearlier
      rw [List.append_cons, doubled_concat, doubled_concat]
      simp [hearlier.2]

theorem rendered_literals (F : FloatFormat) (inputs : Value) (literals : List (List Char)) :
    Rendered F inputs (literals.map .literal) literals.flatten := by
  refine ⟨literals, ?_, rfl⟩
  rw [List.forall₂_map_left_iff]
  exact List.forall₂_same.mpr fun literal _ => rfl

/-- Every literal argument has a template: its text with each opening delimiter escaped. -/
theorem literal_expressible (quote : String → String) (F : FloatFormat) (text : List Char) :
    validateArgumentTemplates quote F [escapeOpen text] = .ok () ∧
    ∀ inputs, validateInputs F inputs = .ok () →
      renderArguments quote F [escapeOpen text] inputs = .ok [text] := by
  obtain ⟨literals, hsplit, hflatten⟩ := escapeOpen_splits text
  have hvalid : PathsValid (literals.map .literal) := by
    intro path hpath
    simp at hpath
  refine ⟨validateArgumentTemplates_ok.mpr ?_, fun inputs hinputs => ?_⟩
  · simp only [List.mem_singleton, forall_eq]
    exact ⟨_, hsplit, hvalid⟩
  · rw [renderArguments_ok hinputs (.cons ⟨hsplit, hvalid⟩ .nil)]
    exact .cons (hflatten ▸ rendered_literals F inputs literals) .nil

/-- Three braces after a backslash, and a closing delimiter. -/
theorem literal_expressible_demo :
    renderArguments id (shortest []) ["\\\\\x7b\x7b\x7b\x7d\x7d".toList] demoInputs =
      .ok ["\\\x7b\x7b\x7b\x7d\x7d".toList] :=
  (literal_expressible id (shortest []) "\\\x7b\x7b\x7b\x7d\x7d".toList).2 demoInputs
    (by decide +kernel)

end ArgumentTemplates
