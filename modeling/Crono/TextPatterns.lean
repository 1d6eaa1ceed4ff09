import Mathlib.Data.List.DropRight

/-! Patterns over characters: classes spelled as ranges, sequence and repetition between two
bounds. A text matches as a whole. Trimming drops the characters of a class at both ends. -/
namespace TextPatterns

abbrev CharClass := List (Char × Char)

def CharClass.Holds (ranges : CharClass) (c : Char) : Prop := ∃ r ∈ ranges, r.1 ≤ c ∧ c ≤ r.2

/-- `repeated p least most` is `p{least,most}`; without a bound above, `p{least,}`. -/
inductive Pattern where
  | charClass (ranges : CharClass)
  | seq (first second : Pattern)
  | repeated (p : Pattern) (least : ℕ) (most : Option ℕ)

def Pattern.star (p : Pattern) : Pattern := .repeated p 0 none

def Pattern.optional (p : Pattern) : Pattern := .repeated p 0 (some 1)

def Pattern.Matches : Pattern → List Char → Prop
  | .charClass ranges, text => ∃ c, text = [c] ∧ ranges.Holds c
  | .seq first second, text =>
      ∃ left right, text = left ++ right ∧ first.Matches left ∧ second.Matches right
  | .repeated p least most, text =>
      ∃ pieces : List (List Char), text = pieces.flatten ∧ (∀ piece ∈ pieces, p.Matches piece) ∧
        least ≤ pieces.length ∧ ∀ bound ∈ most, pieces.length ≤ bound

theorem pieces_of_charClass {ranges : CharClass} {pieces : List (List Char)}
    (h : ∀ piece ∈ pieces, (Pattern.charClass ranges).Matches piece) :
    pieces.flatten.length = pieces.length ∧ ∀ c ∈ pieces.flatten, ranges.Holds c := by
  induction pieces with
  | nil => simp
  | cons piece rest ih =>
    obtain ⟨c, rfl, hc⟩ := h piece List.mem_cons_self
    obtain ⟨hlength, hrest⟩ := ih fun p hp => h p (List.mem_cons_of_mem _ hp)
    constructor
    · simp [hlength]
    · intro d hd
      rcases List.mem_cons.mp hd with rfl | hd
      · exact hc
      · exact hrest d hd

theorem matches_repeated_charClass {ranges : CharClass} {least : ℕ} {most : Option ℕ}
    {text : List Char} :
    (Pattern.repeated (.charClass ranges) least most).Matches text ↔
      (∀ c ∈ text, ranges.Holds c) ∧ least ≤ text.length ∧ ∀ bound ∈ most, text.length ≤ bound := by
  constructor
  · rintro ⟨pieces, rfl, hpieces, hleast, hmost⟩
    obtain ⟨hlength, hall⟩ := pieces_of_charClass hpieces
    rw [hlength]
    exact ⟨hall, hleast, hmost⟩
  · rintro ⟨hall, hleast, hmost⟩
    refine ⟨text.map fun c => [c], ?_, ?_, ?_, ?_⟩
    · rw [← List.flatMap_def, List.flatMap_singleton']
    · intro piece hp
      obtain ⟨c, hc, rfl⟩ := List.mem_map.mp hp
      exact ⟨c, rfl, hall c hc⟩
    · rw [List.length_map]
      exact hleast
    · rw [List.length_map]
      exact hmost

theorem matches_star_charClass {ranges : CharClass} {text : List Char} :
    (Pattern.charClass ranges).star.Matches text ↔ ∀ c ∈ text, ranges.Holds c := by
  unfold Pattern.star
  rw [matches_repeated_charClass]
  simp

theorem matches_optional {p : Pattern} {text : List Char} :
    p.optional.Matches text ↔ text = [] ∨ p.Matches text := by
  constructor
  · rintro ⟨pieces, rfl, hpieces, _, hmost⟩
    have hlength := hmost 1 rfl
    match pieces with
    | [] => exact Or.inl rfl
    | [piece] =>
      rw [List.flatten_singleton]
      exact Or.inr (hpieces piece List.mem_cons_self)
  · rintro (rfl | h)
    · exact ⟨[], rfl, by simp, by simp, by simp⟩
    · exact ⟨[text], by simp, by simpa using h, by simp, by simp⟩

/-- `char::is_whitespace`. -/
def whitespace (c : Char) : Bool :=
  let n := c.toNat
  (9 ≤ n && n ≤ 13) || n = 0x20 || n = 0x85 || n = 0xA0 || n = 0x1680 ||
    (0x2000 ≤ n && n ≤ 0x200A) || n = 0x2028 || n = 0x2029 || n = 0x202F || n = 0x205F || n = 0x3000

section Trim

variable {α : Type*} {p : α → Bool} {text body left right : List α}

def trimBy (p : α → Bool) (text : List α) : List α := (text.dropWhile p).rdropWhile p

/-- What trimming leaves neither starts nor ends with a dropped element. -/
structure Tight (p : α → Bool) (body : List α) : Prop where
  starts : ∀ c ∈ body.head?, p c = false
  ends : ∀ c ∈ body.getLast?, p c = false

theorem trimBy_split (p : α → Bool) (text : List α) : ∃ left right,
    text = left ++ (trimBy p text ++ right) ∧ (∀ c ∈ left, p c = true) ∧
      ∀ c ∈ right, p c = true := by
  refine ⟨text.takeWhile p, (text.dropWhile p).rtakeWhile p, ?_, ?_, ?_⟩
  · rw [trimBy, List.rdropWhile_append_rtakeWhile, List.takeWhile_append_dropWhile]
  · intro c hc
    exact List.mem_takeWhile_imp hc
  · intro c hc
    exact List.mem_rtakeWhile_imp hc

theorem trimBy_tight (p : α → Bool) (text : List α) : Tight p (trimBy p text) := by
  constructor
  · intro c hc
    obtain ⟨rest, hrest⟩ := List.rdropWhile_prefix p (text.dropWhile p)
    have hhead : (text.dropWhile p).head? = some c := by
      rw [← hrest, List.head?_append]
      rw [show (List.rdropWhile p (text.dropWhile p)).head? = some c from hc, Option.some_or]
    have hfalse := List.head?_dropWhile_not p text
    rw [hhead] at hfalse
    exact hfalse
  · intro c hc
    have hne : (text.dropWhile p).rdropWhile p ≠ [] := by
      intro hnil
      rw [trimBy, hnil] at hc
      cases hc
    have hlast := List.rdropWhile_last_not p (text.dropWhile p) hne
    rw [trimBy, List.getLast?_eq_some_getLast hne] at hc
    cases hc
    simpa using hlast

theorem trimBy_padded (hleft : ∀ c ∈ left, p c = true) (hright : ∀ c ∈ right, p c = true)
    (hbody : Tight p body) : trimBy p (left ++ (body ++ right)) = body := by
  unfold trimBy
  rw [List.dropWhile_append_of_pos hleft]
  cases body with
  | nil =>
    rw [List.nil_append, List.dropWhile_eq_nil_iff.mpr hright]
    rfl
  | cons c rest =>
    have hfirst : ¬ p c = true := by simp [hbody.starts c rfl]
    rw [List.cons_append, List.dropWhile_cons_of_neg hfirst, ← List.cons_append]
    have hreverse : ((c :: rest) ++ right).rdropWhile p = (c :: rest).rdropWhile p := by
      unfold List.rdropWhile
      rw [List.reverse_append, List.dropWhile_append_of_pos]
      intro d hd
      exact hright d (List.mem_reverse.mp hd)
    rw [hreverse, List.rdropWhile_eq_self_iff]
    intro hne
    simp [hbody.ends _ (List.getLast?_eq_some_getLast hne)]

theorem trimBy_of_tight (h : Tight p text) : trimBy p text = text := by
  have hpadded : trimBy p ([] ++ (text ++ [])) = text := trimBy_padded (by simp) (by simp) h
  simpa using hpadded

end Trim

end TextPatterns
