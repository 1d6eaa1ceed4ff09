import Mathlib.Data.List.Infix
import Mathlib.Tactic.Tauto

/-! Leftmost search for a doubled character. -/
namespace DelimiterSearch

def findDoubled (d : Char) : List Char → Option (List Char × List Char)
  | a :: b :: rest =>
    if a = d ∧ b = d then some ([], rest)
    else (findDoubled d (b :: rest)).map fun found => (a :: found.1, found.2)
  | _ => none

/-- The text holds the delimiter. -/
def Doubled (d : Char) (text : List Char) : Prop := [d, d] <:+: text

theorem doubled_cons_cons {d a b : Char} {rest : List Char} :
    Doubled d (a :: b :: rest) ↔ (a = d ∧ b = d) ∨ Doubled d (b :: rest) := by
  unfold Doubled
  rw [List.infix_cons_iff]
  constructor
  · rintro (hstart | hlater)
    · obtain ⟨tail, htail⟩ := hstart
      cases htail
      exact .inl ⟨rfl, rfl⟩
    · exact .inr hlater
  · rintro (⟨rfl, rfl⟩ | hlater)
    · exact .inl ⟨rest, rfl⟩
    · exact .inr hlater

theorem not_doubled_short {d : Char} {text : List Char} (h : text.length < 2) :
    ¬ Doubled d text := fun hinfix => absurd hinfix.length_le (Nat.not_le.mpr h)

/-- Where the delimiter does not begin, the search goes on with the next character. -/
theorem findDoubled_cons {d c : Char} {rest : List Char}
    (h : ∀ tail, c = d → rest = d :: tail → False) : findDoubled d (c :: rest) =
      (findDoubled d rest).map fun found => (c :: found.1, found.2) := by
  cases rest with
  | nil => rfl
  | cons b tail =>
    rw [findDoubled, if_neg]
    rintro ⟨hc, rfl⟩
    exact h tail hc rfl

theorem doubled_concat {d c : Char} {text : List Char} :
    Doubled d (text ++ [c]) ↔ (text.getLast? = some d ∧ c = d) ∨ Doubled d text := by
  unfold Doubled
  rw [List.infix_concat_iff]
  refine or_congr_left ?_
  constructor
  · rintro ⟨start, hstart⟩
    have hsplit : (start ++ [d]) ++ [d] = text ++ [c] := by rw [← hstart]; simp
    obtain ⟨rfl, hlast⟩ := List.append_inj' hsplit rfl
    cases hlast
    exact ⟨by simp, rfl⟩
  · rintro ⟨hlast, rfl⟩
    obtain ⟨start, rfl⟩ := List.getLast?_eq_some_iff.mp hlast
    exact ⟨start, by simp⟩

theorem findDoubled_none {d : Char} {text : List Char} :
    findDoubled d text = none ↔ ¬ Doubled d text := by
  induction text with
  | nil => exact iff_of_true rfl (not_doubled_short (by decide))
  | cons a rest ih =>
    cases rest with
    | nil => exact iff_of_true rfl (not_doubled_short (by simp))
    | cons b rest =>
      rw [findDoubled, doubled_cons_cons]
      by_cases hhere : a = d ∧ b = d
      · simp [hhere]
      · rw [if_neg hhere, Option.map_eq_none_iff, ih]
        tauto

theorem first_doubled_here {d : Char} {tail before rest : List Char} :
    some ([], tail) = some (before, rest) ↔
      d :: d :: tail = before ++ d :: d :: rest ∧ ¬ Doubled d (before ++ [d]) := by
  cases before with
  | nil =>
    simp only [Option.some.injEq, Prod.mk.injEq, true_and, List.nil_append, List.cons.injEq]
    exact ⟨fun h => ⟨h, not_doubled_short (by simp)⟩, fun h => h.1⟩
  | cons c before =>
    refine iff_of_false (by simp) ?_
    rintro ⟨htext, hearlier⟩
    rw [List.cons_append, List.cons.injEq] at htext
    obtain ⟨rfl, htext⟩ := htext
    apply hearlier
    cases before with
    | nil => exact doubled_cons_cons.mpr (.inl ⟨rfl, rfl⟩)
    | cons c' before =>
      rw [List.cons_append, List.cons.injEq] at htext
      rw [← htext.1]
      exact doubled_cons_cons.mpr (.inl ⟨rfl, rfl⟩)

theorem doubled_before_cons {d a b : Char} {tail before rest : List Char}
    (hhere : ¬ (a = d ∧ b = d)) (htext : b :: tail = before ++ d :: d :: rest) :
    Doubled d (a :: before ++ [d]) ↔ Doubled d (before ++ [d]) := by
  constructor
  · intro hdoubled
    cases before with
    | nil =>
      rw [List.nil_append, List.cons.injEq] at htext
      rcases doubled_cons_cons.mp hdoubled with hboth | hlater
      · exact absurd ⟨hboth.1, htext.1⟩ hhere
      · exact hlater
    | cons c before =>
      rw [List.cons_append, List.cons.injEq] at htext
      rcases doubled_cons_cons.mp hdoubled with hboth | hlater
      · exact absurd ⟨hboth.1, htext.1.trans hboth.2⟩ hhere
      · exact hlater
  · rintro ⟨head, tail', heq⟩
    exact ⟨a :: head, tail', by rw [List.cons_append, List.cons_append, heq]; rfl⟩

/-- The search stops at the first occurrence: the delimiter does not begin earlier. -/
theorem findDoubled_some {d : Char} {text before rest : List Char} :
    findDoubled d text = some (before, rest) ↔
      text = before ++ d :: d :: rest ∧ ¬ Doubled d (before ++ [d]) := by
  induction text generalizing before with
  | nil => simp [findDoubled]
  | cons a tail ih =>
    cases tail with
    | nil =>
      cases before with
      | nil => simp [findDoubled]
      | cons c before => simp [findDoubled]
    | cons b tail =>
      rw [findDoubled]
      by_cases hhere : a = d ∧ b = d
      · obtain ⟨rfl, rfl⟩ := hhere
        rw [if_pos ⟨rfl, rfl⟩]
        exact first_doubled_here
      · rw [if_neg hhere, Option.map_eq_some_iff]
        cases before with
        | nil =>
          refine iff_of_false ?_ ?_
          · rintro ⟨found, _, heq⟩
            cases heq
          · rintro ⟨htext, _⟩
            cases htext
            exact hhere ⟨rfl, rfl⟩
        | cons c before =>
          have hstep : (∃ found, findDoubled d (b :: tail) = some found ∧
              (a :: found.1, found.2) = (c :: before, rest)) ↔
                a = c ∧ findDoubled d (b :: tail) = some (before, rest) := by
            constructor
            · rintro ⟨found, hfound, heq⟩
              cases heq
              exact ⟨rfl, hfound⟩
            · rintro ⟨rfl, hfound⟩
              exact ⟨_, hfound, rfl⟩
          rw [hstep, ih, List.cons_append, List.cons.injEq]
          constructor
          · rintro ⟨rfl, htext, hearlier⟩
            exact ⟨⟨rfl, htext⟩, fun h => hearlier ((doubled_before_cons hhere htext).mp h)⟩
          · rintro ⟨⟨rfl, htext⟩, hearlier⟩
            exact ⟨rfl, htext, fun h => hearlier ((doubled_before_cons hhere htext).mpr h)⟩

theorem findDoubled_append {d : Char} {before : List Char} (h : ¬ Doubled d (before ++ [d]))
    (rest : List Char) : findDoubled d (before ++ d :: d :: rest) = some (before, rest) :=
  findDoubled_some.mpr ⟨rfl, h⟩

theorem findDoubled_length {d : Char} {text before rest : List Char}
    (h : findDoubled d text = some (before, rest)) : rest.length < text.length := by
  rw [(findDoubled_some.mp h).1, List.length_append, List.length_cons, List.length_cons]
  omega

end DelimiterSearch
