import Crono.ArgumentTemplates
import Crono.LiveOutput
import Crono.TextPatterns

/-! The canonical names of resources: the check of the contracts crate, the constraint of the
database, the pattern published for inputs, and the subjects that carry a name. -/
namespace ResourceNames

open ArgumentTemplates (trim)
open LiveOutput (outputSubject subjectToken subjectWorker)
open TextPatterns
open WorkflowStore (isNameBoundary isNameCharacter)

def resourceNameMaxLength : ℕ := 63

inductive ResourceNameError where
  | empty
  | invalidBoundary
  | invalidCharacter (position : ℕ) (character : Char)
  | tooLong
  deriving DecidableEq, Repr

/-- `quote` is the debug form of a character. -/
def ResourceNameError.message (quote : Char → String) : ResourceNameError → String
  | .empty => "name must contain at least one character"
  | .invalidBoundary => "name must start and end with a lowercase letter or number"
  | .invalidCharacter position character =>
      "name contains invalid character " ++ quote character ++ " at byte " ++ toString position ++
        "; use lowercase letters, numbers, and '-'"
  | .tooLong => "name must not exceed " ++ toString resourceNameMaxLength ++ " characters"

/-- `char_indices` of a text whose first character starts at byte `start`. -/
def charIndices (start : ℕ) : List Char → List (ℕ × Char)
  | [] => []
  | c :: rest => (start, c) :: charIndices (start + c.utf8Size) rest

/-- The loop over the characters after the first; the answer is the last one. -/
def lastCharacter (last : Char) : List (ℕ × Char) → Except ResourceNameError Char
  | [] => .ok last
  | (position, character) :: characters =>
      if !isNameCharacter character then .error (.invalidCharacter position character)
      else lastCharacter character characters

def validateResourceName (value : String) : Except ResourceNameError Unit :=
  if value.utf8ByteSize > resourceNameMaxLength then .error .tooLong
  else
    match charIndices 0 value.toList with
    | [] => .error .empty
    | (_, first) :: characters =>
        if !isNameBoundary first then .error .invalidBoundary
        else
          match lastCharacter first characters with
          | .error e => .error e
          | .ok last => if !isNameBoundary last then .error .invalidBoundary else .ok ()

/-- `[a-z0-9]`. -/
def boundaryClass : CharClass := [('a', 'z'), ('0', '9')]

/-- `[a-z0-9-]`. -/
def characterClass : CharClass := [('a', 'z'), ('0', '9'), ('-', '-')]

/-- `[a-z0-9]([a-z0-9-]{0,61}[a-z0-9])?`. -/
def namePattern : Pattern :=
  .seq (.charClass boundaryClass)
    (.optional
      (.seq (.repeated (.charClass characterClass) 0 (some 61)) (.charClass boundaryClass)))

/-- The class that stands on both sides of the name in `resource_name_input_schema`. -/
def paddingClass : CharClass :=
  [('\u0009', '\u000d'), ('\u0020', '\u0020'), ('\u0085', '\u0085'), ('\u00a0', '\u00a0'),
    ('\u1680', '\u1680'), ('\u2000', '\u200a'), ('\u2028', '\u2028'), ('\u2029', '\u2029'),
    ('\u202f', '\u202f'), ('\u205f', '\u205f'), ('\u3000', '\u3000')]

def inputPattern : Pattern :=
  .seq (.star (.charClass paddingClass)) (.seq namePattern (.star (.charClass paddingClass)))

inductive ControlOperation where
  | claim
  | renew
  | complete
  deriving DecidableEq, Repr

def ControlOperation.text : ControlOperation → String
  | .claim => "claim"
  | .renew => "renew"
  | .complete => "complete"

def presenceSubject (worker : String) : String := "crono.worker.presence." ++ worker

def controlSubject (operation : ControlOperation) (worker : String) : String :=
  "crono.worker.control." ++ operation.text ++ "." ++ worker

def queueResolutionSubject (name : String) : String := "crono.worker.queue.resolve." ++ name

/-- The operation and the worker that `handle_control` reads. -/
def controlTokens (subject : String) : String × String :=
  (subjectToken 3 subject, subjectToken 4 subject)

/-- The queue that `handle_queue_resolution` compares the request with. -/
def resolvedQueue (subject : String) : String := subjectToken 4 subject

/-- One token of a subject: no separator, no wildcard, no blank and no control character. -/
structure SingleToken (name : String) : Prop where
  nonempty : name.toList ≠ []
  plain : ∀ c ∈ name.toList, c ≠ '.' ∧ c ≠ '*' ∧ c ≠ '>' ∧ whitespace c = false ∧ 0x20 < c.toNat

/-- The loop passes when every character is allowed, and then answers with the last one. -/
theorem lastCharacter_ok {last result : Char} {start : ℕ} {text : List Char} :
    lastCharacter last (charIndices start text) = .ok result ↔
      text.all isNameCharacter = true ∧ (last :: text).getLast? = some result := by
  induction text generalizing last start with
  | nil => simp [charIndices, lastCharacter]
  | cons c rest ih =>
    rw [charIndices, lastCharacter, List.all_cons, List.getLast?_cons_cons]
    by_cases hc : isNameCharacter c = true
    · rw [if_neg (by simp [hc]), ih, hc, Bool.true_and]
    · rw [if_pos (by simp [hc])]
      simp [hc]

/-- The check with its errors passes where the check that only answers yes or no does. -/
theorem validateResourceName_ok {value : String} :
    validateResourceName value = .ok () ↔ WorkflowStore.validateResourceName value = true := by
  unfold validateResourceName WorkflowStore.validateResourceName resourceNameMaxLength
  by_cases hlength : value.utf8ByteSize > 63
  · rw [if_pos hlength]
    simp [Nat.not_le.mpr hlength]
  rw [if_neg hlength]
  cases htext : value.toList with
  | nil => simp [charIndices]
  | cons first rest =>
    simp only [charIndices, List.head?_cons, Option.any_some, List.tail_cons]
    by_cases hfirst : isNameBoundary first = true
    · rw [if_neg (by simp [hfirst])]
      cases hlast : lastCharacter first (charIndices (0 + first.utf8Size) rest) with
      | ok last =>
        obtain ⟨hall, hend⟩ := lastCharacter_ok.mp hlast
        simp [Nat.le_of_not_lt hlength, hfirst, hall, hend]
      | error e =>
        have hnot : ¬ rest.all isNameCharacter = true := by
          intro hall
          have hend := List.getLast?_eq_some_getLast (List.cons_ne_nil first rest)
          rw [lastCharacter_ok.mpr ⟨hall, hend⟩] at hlast
          cases hlast
        simp [hnot]
    · rw [if_pos (by simp [hfirst])]
      simp [hfirst]

theorem isLower_eq (c : Char) :
    c.isLower = (decide (c.val ≥ 'a'.val) && decide (c.val ≤ 'z'.val)) := rfl

theorem holds_boundaryClass {c : Char} : boundaryClass.Holds c ↔ isNameBoundary c = true := by
  simp only [CharClass.Holds, boundaryClass, isNameBoundary, isLower_eq, Char.isDigit,
    List.mem_cons, List.not_mem_nil, or_false, exists_eq_or_imp, exists_eq_left, Bool.or_eq_true,
    Bool.and_eq_true, decide_eq_true_eq]
  rfl

theorem holds_characterClass {c : Char} : characterClass.Holds c ↔ isNameCharacter c = true := by
  have hhyphen : ('-' ≤ c ∧ c ≤ '-') ↔ c = '-' :=
    ⟨fun h => Char.le_antisymm h.2 h.1, fun h => h ▸ ⟨Char.le_refl _, Char.le_refl _⟩⟩
  have hboundary : characterClass.Holds c ↔ boundaryClass.Holds c ∨ c = '-' := by
    simp only [CharClass.Holds, characterClass, boundaryClass, List.mem_cons, List.not_mem_nil,
      or_false, exists_eq_or_imp, exists_eq_left, hhyphen, or_assoc]
  rw [hboundary, holds_boundaryClass, isNameCharacter, Bool.or_eq_true, decide_eq_true_eq]

theorem holds_paddingClass {c : Char} : paddingClass.Holds c ↔ whitespace c = true := by
  have hone (n : ℕ) : (n ≤ c.toNat ∧ c.toNat ≤ n) ↔ c.toNat = n := by omega
  have hle (a b : Char) : a ≤ b ↔ a.toNat ≤ b.toNat := UInt32.le_iff_toNat_le
  simp only [CharClass.Holds, paddingClass, whitespace, List.mem_cons, List.not_mem_nil, or_false,
    exists_eq_or_imp, exists_eq_left, hle, Bool.or_eq_true, Bool.and_eq_true, decide_eq_true_eq,
    ← hone, or_assoc]
  rfl

theorem name_character_ascii {c : Char} (h : isNameCharacter c = true) :
    0x20 < c.toNat ∧ c.toNat < 0x7f := by
  simp only [isNameCharacter, isNameBoundary, isLower_eq, Char.isDigit, Bool.or_eq_true,
    Bool.and_eq_true, decide_eq_true_eq, ge_iff_le, UInt32.le_iff_toNat_le] at h
  rcases h with (⟨hlow, hhigh⟩ | ⟨hlow, hhigh⟩) | rfl
  · change 97 ≤ c.toNat at hlow
    change c.toNat ≤ 122 at hhigh
    omega
  · change 48 ≤ c.toNat at hlow
    change c.toNat ≤ 57 at hhigh
    omega
  · decide

theorem name_character_size {c : Char} (h : isNameCharacter c = true) : c.utf8Size = 1 := by
  have hascii := name_character_ascii h
  rw [Char.utf8Size_eq_one_iff, UInt32.le_iff_toNat_le]
  change c.toNat ≤ 127
  omega

theorem name_character_not_blank {c : Char} (h : isNameCharacter c = true) :
    whitespace c = false := by
  have hascii := name_character_ascii h
  rw [Bool.eq_false_iff]
  simp only [whitespace, ne_eq, Bool.or_eq_true, Bool.and_eq_true, decide_eq_true_eq]
  omega

theorem size_of_name_characters {text : List Char} (h : ∀ c ∈ text, isNameCharacter c = true) :
    BoundaryCuts.size text = text.length := by
  induction text with
  | nil => rfl
  | cons c rest ih =>
    rw [BoundaryCuts.size_cons, name_character_size (h c List.mem_cons_self),
      ih fun d hd => h d (List.mem_cons_of_mem _ hd), List.length_cons, Nat.add_comm]

theorem isNameCharacter_of_boundary {c : Char} (h : isNameBoundary c = true) :
    isNameCharacter c = true := by
  rw [isNameCharacter, h, Bool.true_or]

/-- What a name is made of: one boundary character, or two with at most 61 others between. -/
theorem matches_namePattern {text : List Char} :
    namePattern.Matches text ↔ ∃ first rest, text = first :: rest ∧ isNameBoundary first = true ∧
      (rest = [] ∨ ∃ middle last, rest = middle ++ [last] ∧
        (∀ c ∈ middle, isNameCharacter c = true) ∧ middle.length ≤ 61 ∧
        isNameBoundary last = true) := by
  constructor
  · rintro ⟨_, rest, rfl, ⟨first, rfl, hfirst⟩, hrest⟩
    refine ⟨first, rest, rfl, holds_boundaryClass.mp hfirst, ?_⟩
    rcases matches_optional.mp hrest with rfl | ⟨middle, _, rfl, hmiddle, last, rfl, hlast⟩
    · exact Or.inl rfl
    · obtain ⟨hall, _, hshort⟩ := matches_repeated_charClass.mp hmiddle
      exact Or.inr ⟨middle, last, rfl, fun c hc => holds_characterClass.mp (hall c hc),
        hshort 61 rfl, holds_boundaryClass.mp hlast⟩
  · rintro ⟨first, rest, rfl, hfirst, hrest⟩
    refine ⟨[first], rest, rfl, ⟨first, rfl, holds_boundaryClass.mpr hfirst⟩, ?_⟩
    apply matches_optional.mpr
    rcases hrest with rfl | ⟨middle, last, rfl, hall, hshort, hlast⟩
    · exact Or.inl rfl
    · refine Or.inr ⟨middle, [last], rfl, matches_repeated_charClass.mpr ⟨?_, ?_, ?_⟩, last, rfl,
        holds_boundaryClass.mpr hlast⟩
      · exact fun c hc => holds_characterClass.mpr (hall c hc)
      · exact Nat.zero_le _
      · rintro _ ⟨⟩
        exact hshort

/-- A name has only ASCII characters, so the bound on its bytes is the bound on its characters. -/
theorem validateResourceName_matches {value : String} :
    WorkflowStore.validateResourceName value = true ↔ namePattern.Matches value.toList := by
  rw [matches_namePattern, WorkflowStore.validateResourceName, LiveOutput.utf8ByteSize_eq]
  simp only [Bool.and_eq_true, decide_eq_true_eq, List.all_eq_true]
  cases value.toList with
  | nil => simp
  | cons first rest =>
    simp only [List.head?_cons, Option.any_some, List.tail_cons]
    constructor
    · rintro ⟨⟨⟨hsize, hfirst⟩, hrest⟩, hlast⟩
      refine ⟨first, rest, rfl, hfirst, ?_⟩
      rcases List.eq_nil_or_concat' rest with rfl | ⟨middle, last, rfl⟩
      · exact Or.inl rfl
      · refine Or.inr ⟨middle, last, rfl, fun c hc => hrest c (by simp [hc]), ?_, ?_⟩
        · have hall : ∀ c ∈ first :: (middle ++ [last]), isNameCharacter c = true := by
            intro c hc
            rcases List.mem_cons.mp hc with rfl | hc
            · exact isNameCharacter_of_boundary hfirst
            · exact hrest c hc
          rw [size_of_name_characters hall, List.length_cons, List.length_append,
            List.length_singleton] at hsize
          omega
        · simpa [List.getLast?_cons] using hlast
    · rintro ⟨_, _, ⟨⟩, hfirst, rfl | ⟨middle, last, rfl, hall, hshort, hlast⟩⟩
      · refine ⟨⟨⟨?_, hfirst⟩, by simp⟩, by simpa using hfirst⟩
        rw [BoundaryCuts.size_cons, name_character_size (isNameCharacter_of_boundary hfirst)]
        decide
      · have hrest : ∀ c ∈ middle ++ [last], isNameCharacter c = true := by
          intro c hc
          rcases List.mem_append.mp hc with hc | hc
          · exact hall c hc
          · rw [List.mem_singleton.mp hc]
            exact isNameCharacter_of_boundary hlast
        refine ⟨⟨⟨?_, hfirst⟩, hrest⟩, by simpa [List.getLast?_cons] using hlast⟩
        rw [BoundaryCuts.size_cons, name_character_size (isNameCharacter_of_boundary hfirst),
          size_of_name_characters hrest, List.length_append, List.length_singleton]
        omega

theorem matches_namePattern_tight {text : List Char} (h : namePattern.Matches text) :
    Tight whitespace text := by
  obtain ⟨first, rest, rfl, hfirst, hrest⟩ := matches_namePattern.mp h
  have hnot {c : Char} (hc : isNameBoundary c = true) : whitespace c = false :=
    name_character_not_blank (isNameCharacter_of_boundary hc)
  constructor
  · rintro c ⟨⟩
    exact hnot hfirst
  · intro c hc
    rcases hrest with rfl | ⟨middle, last, rfl, _, _, hlast⟩
    · cases hc
      exact hnot hfirst
    · simp only [List.getLast?_cons, List.getLast?_append, Option.some_or,
        Option.getD_some, Option.mem_def, Option.some.injEq] at hc
      rw [← hc]
      exact hnot hlast

/-- The published pattern asks of a text what the name pattern asks of the trimmed text. -/
theorem matches_inputPattern {text : List Char} :
    inputPattern.Matches text ↔ namePattern.Matches (trim text) := by
  have hstar {padding : List Char} : (Pattern.charClass paddingClass).star.Matches padding ↔
      ∀ c ∈ padding, whitespace c = true := by
    rw [matches_star_charClass]
    simp only [holds_paddingClass]
  constructor
  · rintro ⟨left, _, rfl, hleft, body, right, rfl, hbody, hright⟩
    have htrim : trim (left ++ (body ++ right)) = body :=
      trimBy_padded (hstar.mp hleft) (hstar.mp hright) (matches_namePattern_tight hbody)
    rw [htrim]
    exact hbody
  · intro h
    obtain ⟨left, right, hsplit, hleft, hright⟩ := trimBy_split whitespace text
    exact ⟨left, trim text ++ right, hsplit, hstar.mpr hleft, trim text, right, rfl, h,
      hstar.mpr hright⟩

theorem name_characters {text : List Char} (h : namePattern.Matches text) :
    ∀ c ∈ text, isNameCharacter c = true := by
  obtain ⟨first, rest, rfl, hfirst, hrest⟩ := matches_namePattern.mp h
  intro c hc
  rcases List.mem_cons.mp hc with rfl | hc
  · exact isNameCharacter_of_boundary hfirst
  · rcases hrest with rfl | ⟨middle, last, rfl, hall, _, hlast⟩
    · cases hc
    · rcases List.mem_append.mp hc with hc | hc
      · exact hall c hc
      · rw [List.mem_singleton.mp hc]
        exact isNameCharacter_of_boundary hlast

theorem singleToken {name : String} (h : namePattern.Matches name.toList) : SingleToken name := by
  constructor
  · obtain ⟨first, rest, hname, _⟩ := matches_namePattern.mp h
    rw [hname]
    exact List.cons_ne_nil first rest
  · intro c hc
    have hchar := name_characters h c hc
    refine ⟨?_, ?_, ?_, name_character_not_blank hchar, (name_character_ascii hchar).1⟩ <;>
      rintro rfl <;> exact absurd hchar (by decide)

theorem SingleToken.splitOn {name : String} (h : SingleToken name) (front : List Char) :
    (front ++ '.' :: name.toList).splitOn '.' = front.splitOn '.' ++ [name.toList] := by
  have hname : name.toList.splitOn '.' = [name.toList] :=
    List.splitOnP_eq_singleton fun c hc => by simpa using (h.plain c hc).1
  rw [← hname]
  exact List.splitOnP_append_cons _ _ (by simp)

theorem SingleToken.tokens {subject name : String} (h : SingleToken name) {front : List Char}
    {before : List (List Char)} (hfront : front.splitOn '.' = before)
    (hsubject : subject.toList = front ++ '.' :: name.toList) :
    subject.toList.splitOn '.' = before ++ [name.toList] := by
  rw [hsubject, h.splitOn, hfront]

theorem SingleToken.presence {name : String} (h : SingleToken name) :
    subjectWorker (presenceSubject name) = name := by
  have hfront : "crono.worker.presence".toList.splitOn '.' =
      ["crono".toList, "worker".toList, "presence".toList] := by decide +kernel
  have hdot : "crono.worker.presence.".toList = "crono.worker.presence".toList ++ ['.'] := by
    decide +kernel
  have hsubject : (presenceSubject name).toList =
      "crono.worker.presence".toList ++ '.' :: name.toList := by
    unfold presenceSubject
    rw [String.toList_append, hdot, List.append_assoc, List.singleton_append]
  have htokens := h.tokens hfront hsubject
  rw [subjectWorker, subjectToken, htokens]
  exact String.ofList_toList

theorem SingleToken.control {name : String} (h : SingleToken name) (operation : ControlOperation) :
    controlTokens (controlSubject operation name) = (operation.text, name) := by
  have hfront : ("crono.worker.control." ++ operation.text).toList.splitOn '.' =
      ["crono".toList, "worker".toList, "control".toList, operation.text.toList] := by
    cases operation <;> decide +kernel
  have hdot : ".".toList = ['.'] := by decide
  have hsubject : (controlSubject operation name).toList =
      ("crono.worker.control." ++ operation.text).toList ++ '.' :: name.toList := by
    unfold controlSubject
    rw [String.toList_append, String.toList_append, hdot, List.append_assoc,
      List.singleton_append]
  have htokens := h.tokens hfront hsubject
  rw [controlTokens, subjectToken, subjectToken, htokens]
  exact Prod.ext String.ofList_toList String.ofList_toList

theorem SingleToken.queue {name : String} (h : SingleToken name) :
    resolvedQueue (queueResolutionSubject name) = name := by
  have hfront : "crono.worker.queue.resolve".toList.splitOn '.' =
      ["crono".toList, "worker".toList, "queue".toList, "resolve".toList] := by decide +kernel
  have hdot : "crono.worker.queue.resolve.".toList =
      "crono.worker.queue.resolve".toList ++ ['.'] := by decide +kernel
  have hsubject : (queueResolutionSubject name).toList =
      "crono.worker.queue.resolve".toList ++ '.' :: name.toList := by
    unfold queueResolutionSubject
    rw [String.toList_append, hdot, List.append_assoc, List.singleton_append]
  have htokens := h.tokens hfront hsubject
  rw [resolvedQueue, subjectToken, htokens]
  exact String.ofList_toList

/-- The check, the constraint of the database and the published pattern accept the same names, and
every handler finds in the subject built from a name that name. -/
theorem every_layer_accepts_the_same_names (text : String) :
    (validateResourceName text = .ok () ↔ namePattern.Matches text.toList) ∧
      (validateResourceName (String.ofList (trim text.toList)) = .ok () ↔
        inputPattern.Matches text.toList) ∧
      (validateResourceName text = .ok () → SingleToken text ∧
        subjectWorker (outputSubject text) = text ∧ subjectWorker (presenceSubject text) = text ∧
        (∀ operation, controlTokens (controlSubject operation text) = (operation.text, text)) ∧
        resolvedQueue (queueResolutionSubject text) = text) := by
  refine ⟨?_, ?_, ?_⟩
  · rw [validateResourceName_ok, validateResourceName_matches]
  · rw [validateResourceName_ok, validateResourceName_matches, String.toList_ofList,
      matches_inputPattern]
  · intro h
    have hname := validateResourceName_ok.mp h
    have htoken := singleToken (validateResourceName_matches.mp hname)
    exact ⟨htoken, LiveOutput.subjectWorker_outputSubject hname, htoken.presence, htoken.control,
      htoken.queue⟩

end ResourceNames
