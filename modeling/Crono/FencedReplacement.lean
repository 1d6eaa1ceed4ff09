import Crono.LossyText

/-! Replacement by a fenced marker: a word between two characters that no hidden text holds. What
occurs in the result without crossing a fence occurred in the text or occurs in the word. -/
namespace FencedReplacement

open LossyText

variable {l r : Char} {s word text pattern : List Char}

/-- A text that does not cross a fence lies on one side of it. -/
theorem infix_of_separator {d : Char} {a b : List Char} (hd : d ∉ s) (h : s <:+: a ++ d :: b) :
    s <:+: a ∨ s <:+: b := by
  induction a with
  | nil =>
    rcases List.infix_cons_iff.mp h with hstart | hlater
    · rcases List.prefix_cons_iff.mp hstart with rfl | ⟨t, rfl, _⟩
      · exact Or.inl (List.nil_infix)
      · exact absurd List.mem_cons_self hd
    · exact Or.inr hlater
  | cons c a ih =>
    rcases List.infix_cons_iff.mp h with hstart | hlater
    · -- an occurrence at the start ends before the fence
      obtain ⟨rest, hrest⟩ := hstart
      have hsplit : s ++ rest = (c :: a) ++ d :: b := hrest
      rcases List.append_eq_append_iff.mp hsplit with ⟨between, ha, _⟩ | ⟨between, hs, hb⟩
      · rw [ha]
        exact Or.inl List.infix_append_left
      · cases between with
        | nil =>
          rw [hs, List.append_nil]
          exact Or.inl (List.infix_refl _)
        | cons e between =>
          rw [List.cons_append, List.cons.injEq] at hb
          rw [hs, ← hb.1] at hd
          exact absurd (List.mem_append_right _ List.mem_cons_self) hd
    · exact (ih hlater).imp_left fun hin => hin.trans (List.suffix_cons c a).isInfix

def marker (l r : Char) (word : List Char) : List Char := l :: (word ++ [r])

theorem infix_marker_append {rest : List Char} (hl : l ∉ s) (hr : r ∉ s)
    (h : s <:+: marker l r word ++ rest) : s <:+: word ∨ s <:+: rest := by
  have hleft : s <:+: [] ++ l :: (word ++ r :: rest) := by simpa [marker] using h
  rcases infix_of_separator hl hleft with hnil | hin
  · rw [List.infix_nil.mp hnil]
    exact Or.inl List.nil_infix
  · exact infix_of_separator hr hin

/-- What stands at the start of a result without a fence stood at the start of the text. -/
theorem prefix_replaceFrom (hl : l ∉ s)
    (h : s <+: replaceFrom pattern (marker l r word) 0 text) : s <+: text := by
  induction text generalizing s with
  | nil => exact h
  | cons c text ih =>
    rw [replaceFrom] at h
    split at h
    · rcases List.prefix_cons_iff.mp h with rfl | ⟨t, rfl, _⟩
      · exact List.nil_prefix
      · exact absurd List.mem_cons_self hl
    · rcases List.prefix_cons_iff.mp h with rfl | ⟨t, rfl, ht⟩
      · exact List.nil_prefix
      · exact List.cons_prefix_cons.mpr
          ⟨rfl, ih (fun hmem => hl (List.mem_cons_of_mem _ hmem)) ht⟩

theorem infix_replaceFrom (hl : l ∉ s) (hr : r ∉ s) {skip : ℕ}
    (h : s <:+: replaceFrom pattern (marker l r word) skip text) : s <:+: word ∨ s <:+: text := by
  induction text generalizing skip with
  | nil =>
    cases skip with
    | zero => exact Or.inr h
    | succ skip => exact Or.inr h
  | cons c text ih =>
    have hlater {skip : ℕ} (h : s <:+: replaceFrom pattern (marker l r word) skip text) :
        s <:+: word ∨ s <:+: c :: text :=
      (ih h).imp_right fun hin => hin.trans (List.suffix_cons c text).isInfix
    cases skip with
    | succ skip => exact hlater h
    | zero =>
      rw [replaceFrom] at h
      split at h
      · rcases infix_marker_append hl hr h with hword | hrest
        · exact Or.inl hword
        · exact hlater hrest
      · rcases List.infix_cons_iff.mp h with hstart | hrest
        · rcases List.prefix_cons_iff.mp hstart with rfl | ⟨t, rfl, ht⟩
          · exact Or.inl List.nil_infix
          · have hin := prefix_replaceFrom (fun hmem => hl (List.mem_cons_of_mem _ hmem)) ht
            exact Or.inr (List.cons_prefix_cons.mpr ⟨rfl, hin⟩).isInfix
        · exact hlater hrest

/-- Replacing puts nothing together: a text without a fence was there before, or is in the word. -/
theorem infix_replace (hl : l ∉ s) (hr : r ∉ s)
    (h : s <:+: replace pattern (marker l r word) text) : s <:+: word ∨ s <:+: text :=
  infix_replaceFrom hl hr h

theorem not_infix_replaceFrom (hne : s ≠ []) (hl : l ∉ s) (hr : r ∉ s) (hword : ¬ s <:+: word)
    {skip : ℕ} : ¬ s <:+: replaceFrom s (marker l r word) skip text := by
  induction text generalizing skip with
  | nil =>
    intro h
    cases skip with
    | zero => exact hne (List.infix_nil.mp h)
    | succ skip => exact hne (List.infix_nil.mp h)
  | cons c text ih =>
    intro h
    cases skip with
    | succ skip => exact ih h
    | zero =>
      rw [replaceFrom] at h
      split at h
      · rcases infix_marker_append hl hr h with hin | hrest
        · exact hword hin
        · exact ih hrest
      · rename_i hnot
        rcases List.infix_cons_iff.mp h with hstart | hrest
        · rcases List.prefix_cons_iff.mp hstart with rfl | ⟨t, rfl, ht⟩
          · exact hne rfl
          · have hin := prefix_replaceFrom (fun hmem => hl (List.mem_cons_of_mem _ hmem)) ht
            exact hnot (List.isPrefixOf_iff_prefix.mpr (List.cons_prefix_cons.mpr ⟨rfl, hin⟩))
        · exact ih hrest

theorem not_infix_replace (hne : s ≠ []) (hl : l ∉ s) (hr : r ∉ s) (hword : ¬ s <:+: word) :
    ¬ s <:+: replace s (marker l r word) text := not_infix_replaceFrom hne hl hr hword

theorem replace_of_not_infix {replacement : List Char} (h : ¬ pattern <:+: text) :
    replace pattern replacement text = text := by
  unfold replace
  induction text with
  | nil => rfl
  | cons c text ih =>
    rw [replaceFrom, if_neg, ih fun hin => h (hin.trans (List.suffix_cons c text).isInfix)]
    intro hstart
    exact h (List.isPrefixOf_iff_prefix.mp hstart).isInfix

/-- A text that replacement by a fenced marker can hide. -/
structure Hideable (l r : Char) (word s : List Char) : Prop where
  nonempty : s ≠ []
  noLeft : l ∉ s
  noRight : r ∉ s
  notInWord : ¬ s <:+: word

def replaceAll (l r : Char) (word : List Char) (patterns : List (List Char)) (text : List Char) :
    List Char :=
  patterns.foldl (fun safe s => replace s (marker l r word) safe) text

theorem Hideable.infix_replaceAll (h : Hideable l r word s) {patterns : List (List Char)}
    (hin : s <:+: replaceAll l r word patterns text) : s <:+: text := by
  induction patterns generalizing text with
  | nil => exact hin
  | cons pattern rest ih =>
    exact (infix_replace h.noLeft h.noRight (ih hin)).resolve_left h.notInWord

theorem Hideable.not_infix_replaceAll (h : Hideable l r word s) {patterns : List (List Char)}
    (hs : s ∈ patterns) : ¬ s <:+: replaceAll l r word patterns text := by
  induction patterns generalizing text with
  | nil => cases hs
  | cons pattern rest ih =>
    intro hin
    rcases List.mem_cons.mp hs with rfl | hs
    · exact not_infix_replace h.nonempty h.noLeft h.noRight h.notInWord (h.infix_replaceAll hin)
    · exact ih hs hin

theorem replaceAll_of_not_infix {patterns : List (List Char)}
    (h : ∀ pattern ∈ patterns, ¬ pattern <:+: text) : replaceAll l r word patterns text = text := by
  induction patterns with
  | nil => rfl
  | cons pattern rest ih =>
    obtain ⟨hfirst, hrest⟩ := List.forall_mem_cons.mp h
    unfold replaceAll at ih ⊢
    rw [List.foldl_cons, replace_of_not_infix hfirst]
    exact ih hrest

end FencedReplacement
