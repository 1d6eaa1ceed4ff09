import Mathlib.Algebra.GroupWithZero.Nat
import Mathlib.Algebra.BigOperators.Group.List.Basic
import Mathlib.Data.List.Infix
import Mathlib.Data.Nat.Find

/-! Cuts of a text at byte positions. A cut in the middle of a character is refused; a position is
moved forward until a character starts there. -/
namespace BoundaryCuts

/-- The bytes of a text in UTF-8. -/
def size (text : List Char) : ℕ := (text.map Char.utf8Size).sum

/-- The text after its first `n` bytes, if a character ends there. -/
def dropBytes : List Char → ℕ → Option (List Char)
  | text, 0 => some text
  | [], _ + 1 => none
  | c :: text, n + 1 => if c.utf8Size ≤ n + 1 then dropBytes text (n + 1 - c.utf8Size) else none

/-- `is_char_boundary`. -/
def isCharBoundary (text : List Char) (n : ℕ) : Bool := (dropBytes text n).isSome

/-- The loop that moves a position to the next boundary, for at most `fuel` rounds. -/
def boundaryFrom (text : List Char) : (fuel start : ℕ) → Option ℕ
  | 0, _ => none
  | fuel + 1, start =>
    if isCharBoundary text start then some start else boundaryFrom text fuel (start + 1)

/-- Keep at most `limit` bytes at the end; absent if the loop does not end or cuts a character. -/
def cutTail (fuel limit : ℕ) (text : List Char) : Option (List Char) :=
  if size text ≤ limit then some text
  else (boundaryFrom text fuel (size text - limit)).bind (dropBytes text)

/-- The longest suffix, on a character boundary, of at most `limit` bytes. -/
structure LongestSuffix (limit : ℕ) (text tail : List Char) : Prop where
  suffix : tail <:+ text
  within : size tail ≤ limit
  longest : ∀ other, other <:+ text → size other ≤ limit → other <:+ tail

theorem size_cons (c : Char) (text : List Char) : size (c :: text) = c.utf8Size + size text := by
  simp [size]

@[simp] theorem size_append (a b : List Char) : size (a ++ b) = size a + size b := by
  simp [size]

theorem eq_nil_of_size {text : List Char} (h : size text = 0) : text = [] := by
  cases text with
  | nil => rfl
  | cons c text =>
    have hc := Char.utf8Size_pos c
    rw [size_cons] at h
    omega

/-- A position is a boundary when it is the size of a first part. -/
theorem dropBytes_eq_some {text rest : List Char} {n : ℕ} :
    dropBytes text n = some rest ↔ ∃ first, text = first ++ rest ∧ size first = n := by
  induction text generalizing n with
  | nil =>
    cases n with
    | zero =>
      simp only [dropBytes, Option.some.injEq]
      constructor
      · rintro rfl
        exact ⟨[], rfl, rfl⟩
      · rintro ⟨first, htext, _⟩
        exact (List.append_eq_nil_iff.mp htext.symm).2.symm
    | succ n =>
      refine iff_of_false (by simp [dropBytes]) ?_
      rintro ⟨first, htext, hsize⟩
      rw [(List.append_eq_nil_iff.mp htext.symm).1] at hsize
      cases hsize
  | cons c text ih =>
    have hc := Char.utf8Size_pos c
    cases n with
    | zero =>
      simp only [dropBytes, Option.some.injEq]
      constructor
      · rintro rfl
        exact ⟨[], rfl, rfl⟩
      · rintro ⟨first, htext, hsize⟩
        rw [eq_nil_of_size hsize] at htext
        exact htext
    | succ n =>
      rw [dropBytes]
      constructor
      · intro h
        split at h
        · rename_i hle
          obtain ⟨first, rfl, hsize⟩ := ih.mp h
          refine ⟨c :: first, rfl, ?_⟩
          rw [size_cons, hsize]
          omega
        · cases h
      · rintro ⟨first, htext, hsize⟩
        cases first with
        | nil => cases hsize
        | cons d first =>
          rw [List.cons_append, List.cons.injEq] at htext
          obtain ⟨rfl, rfl⟩ := htext
          rw [size_cons] at hsize
          rw [if_pos (by omega), ih]
          exact ⟨first, rfl, by omega⟩

theorem isCharBoundary_iff {text : List Char} {n : ℕ} :
    isCharBoundary text n = true ↔ ∃ first rest, text = first ++ rest ∧ size first = n := by
  unfold isCharBoundary
  rw [Option.isSome_iff_exists]
  simp only [dropBytes_eq_some]
  exact exists_comm

theorem isCharBoundary_le {text : List Char} {n : ℕ} (h : isCharBoundary text n = true) :
    n ≤ size text := by
  obtain ⟨first, rest, rfl, rfl⟩ := isCharBoundary_iff.mp h
  rw [size_append]
  omega

/-- From any position inside a text, at most three more bytes end the character there. -/
theorem boundary_near {text : List Char} {start : ℕ} (h : start ≤ size text) :
    ∃ stop, start ≤ stop ∧ stop < start + 4 ∧ isCharBoundary text stop = true := by
  induction text generalizing start with
  | nil => exact ⟨0, h, by omega, rfl⟩
  | cons c text ih =>
    have hc := c.utf8Size_le_four
    rw [size_cons] at h
    rcases Nat.eq_zero_or_pos start with rfl | hpos
    · exact ⟨0, Nat.le_refl 0, by omega, rfl⟩
    · by_cases hinside : start ≤ c.utf8Size
      · refine ⟨c.utf8Size, hinside, by omega, ?_⟩
        exact isCharBoundary_iff.mpr ⟨[c], text, rfl, by simp [size]⟩
      · obtain ⟨stop, hle, hlt, hstop⟩ := ih (show start - c.utf8Size ≤ size text by omega)
        obtain ⟨first, rest, rfl, rfl⟩ := isCharBoundary_iff.mp hstop
        refine ⟨c.utf8Size + size first, by omega, by omega, ?_⟩
        exact isCharBoundary_iff.mpr ⟨c :: first, rest, rfl, size_cons c first⟩

theorem boundaryFrom_of_first {text : List Char} {fuel start stop : ℕ} (hle : start ≤ stop)
    (hfuel : stop < start + fuel) (hstop : isCharBoundary text stop = true)
    (hfirst : ∀ k, start ≤ k → k < stop → isCharBoundary text k = false) :
    boundaryFrom text fuel start = some stop := by
  induction fuel generalizing start with
  | zero => omega
  | succ fuel ih =>
    rw [boundaryFrom]
    rcases Nat.eq_or_lt_of_le hle with rfl | hlt
    · rw [if_pos hstop]
    · rw [if_neg (by rw [hfirst start (Nat.le_refl _) hlt]; exact Bool.false_ne_true)]
      exact ih hlt (by omega) fun k hk => hfirst k (by omega)

/-- The loop ends after at most four rounds, at the first boundary, and never past the end. -/
theorem boundaryFrom_spec {text : List Char} {start : ℕ} (h : start ≤ size text) :
    ∃ stop, (∀ fuel, 4 ≤ fuel → boundaryFrom text fuel start = some stop) ∧ start ≤ stop ∧
      stop ≤ size text ∧ isCharBoundary text stop = true ∧
      ∀ k, start ≤ k → k < stop → isCharBoundary text k = false := by
  have hexists : ∃ stop, start ≤ stop ∧ isCharBoundary text stop = true := by
    obtain ⟨stop, hle, _, hstop⟩ := boundary_near h
    exact ⟨stop, hle, hstop⟩
  obtain ⟨near, hnear, hnearby, hboundary⟩ := boundary_near h
  obtain ⟨hle, hstop⟩ := Nat.find_spec hexists
  have hmin : Nat.find hexists ≤ near := Nat.find_min' hexists ⟨hnear, hboundary⟩
  have hfirst : ∀ k, start ≤ k → k < Nat.find hexists → isCharBoundary text k = false := by
    intro k hk hlt
    have hnot := Nat.find_min hexists hlt
    rw [not_and, Bool.not_eq_true] at hnot
    exact hnot hk
  refine ⟨Nat.find hexists, ?_, hle, isCharBoundary_le hstop, hstop, hfirst⟩
  intro fuel hfuel
  exact boundaryFrom_of_first hle (by omega) hstop hfirst

theorem LongestSuffix.unique {limit : ℕ} {text tail tail' : List Char}
    (h : LongestSuffix limit text tail) (h' : LongestSuffix limit text tail') : tail = tail' := by
  have hone := h'.longest tail h.suffix h.within
  have htwo := h.longest tail' h'.suffix h'.within
  exact hone.eq_of_length_le htwo.length_le

/-- Cutting keeps the longest suffix that fits. -/
theorem cutTail_spec {fuel : ℕ} (hfuel : 4 ≤ fuel) (limit : ℕ) (text : List Char) :
    ∃ tail, cutTail fuel limit text = some tail ∧ LongestSuffix limit text tail := by
  unfold cutTail
  by_cases hsmall : size text ≤ limit
  · rw [if_pos hsmall]
    exact ⟨text, rfl, List.suffix_refl text, hsmall, fun other h _ => h⟩
  · obtain ⟨stop, hloop, hstart, _, hstop, hfirst⟩ :=
      boundaryFrom_spec (show size text - limit ≤ size text by omega)
    obtain ⟨first, tail, rfl, hsize⟩ := isCharBoundary_iff.mp hstop
    rw [if_neg hsmall, hloop fuel hfuel]
    refine ⟨tail, dropBytes_eq_some.mpr ⟨first, rfl, hsize⟩, List.suffix_append _ _, ?_, ?_⟩
    · rw [size_append] at hstart
      omega
    · intro other hother hwithin
      -- a longer suffix that fits would begin at an earlier boundary
      rcases List.suffix_or_suffix_of_suffix hother (List.suffix_append first tail) with h | h
      · exact h
      · obtain ⟨earlier, hearlier⟩ := hother
        obtain ⟨between, rfl⟩ := h
        have hlength :
            size earlier + size (between ++ tail) = size (first ++ tail) := by
          rw [← size_append, hearlier]
        simp only [size_append] at hlength hwithin hstart hfirst
        have hbetween : size between = 0 := by
          by_contra hne
          have hnot := hfirst (size earlier) (by omega) (by omega)
          rw [isCharBoundary_iff.mpr ⟨earlier, between ++ tail, hearlier.symm, rfl⟩] at hnot
          cases hnot
        rw [eq_nil_of_size hbetween]
        exact List.suffix_refl tail

end BoundaryCuts
