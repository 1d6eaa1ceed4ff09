import Mathlib.Data.List.Basic

/-! Lossy decoding of UTF-8 and replacement of substrings. Decoding is total: the longest start
of a character that the next bytes cannot complete reads as one U+FFFD. -/
namespace LossyText

inductive Width where
  | one
  | two
  | three
  | four
  | invalid
  deriving DecidableEq, Repr

def between (least greatest : ℕ) (b : UInt8) : Bool := least ≤ b.toNat && b.toNat ≤ greatest

def width (b : UInt8) : Width :=
  if between 0x00 0x7F b then .one
  else if between 0xC2 0xDF b then .two
  else if between 0xE0 0xEF b then .three
  else if between 0xF0 0xF4 b then .four
  else .invalid

def isContinuation : UInt8 → Bool := between 0x80 0xBF

/-- The second bytes after the first byte `b`: the first bytes `lowest` and `highest` allow no
less than `least` and no more than `greatest`. -/
def secondByte (lowest highest : UInt8) (least greatest : ℕ) (b : UInt8) : UInt8 → Bool :=
  if b = lowest then between least 0xBF
  else if b = highest then between 0x80 greatest
  else isContinuation

def secondOfThree : UInt8 → UInt8 → Bool := secondByte 0xE0 0xED 0xA0 0x9F

def secondOfFour : UInt8 → UInt8 → Bool := secondByte 0xF0 0xF4 0x90 0x8F

def replacement : Char := Char.ofNat 0xFFFD

def low (b : UInt8) : ℕ := b.toNat % 64

/-- Read the bytes a character still lacks; the first one it cannot have starts the next. -/
def complete : ℕ → List (UInt8 → Bool) → List UInt8 → Char × List UInt8
  | n, [], rest => (Char.ofNat n, rest)
  | _, _ :: _, [] => (replacement, [])
  | n, expected :: more, b :: rest =>
    if expected b then complete (n * 64 + low b) more rest else (replacement, b :: rest)

/-- The character a nonempty text starts with, and the bytes after it. -/
def decodeOne (b : UInt8) (rest : List UInt8) : Char × List UInt8 :=
  match width b with
  | .one => complete b.toNat [] rest
  | .two => complete (b.toNat % 32) [isContinuation] rest
  | .three => complete (b.toNat % 16) [secondOfThree b, isContinuation] rest
  | .four => complete (b.toNat % 8) [secondOfFour b, isContinuation, isContinuation] rest
  | .invalid => (replacement, rest)

/-- At most `n` characters of a text. -/
def decodeUpTo : ℕ → List UInt8 → List Char
  | 0, _ | _, [] => []
  | n + 1, b :: rest => (decodeOne b rest).1 :: decodeUpTo n (decodeOne b rest).2

/-- `String::from_utf8_lossy`: a text has no more characters than bytes. -/
def decodeLossy (bytes : List UInt8) : List Char := decodeUpTo bytes.length bytes

example : decodeLossy [0x61, 0xE2, 0x82, 0xAC, 0xE2, 0x82, 0x00, 0xFF] =
    ['a', '€', replacement, Char.ofNat 0, replacement] := by decide

theorem complete_rest (n : ℕ) (expected : List (UInt8 → Bool)) (rest : List UInt8) :
    (complete n expected rest).2 <:+ rest := by
  induction expected generalizing n rest with
  | nil => exact List.suffix_refl rest
  | cons p expected ih =>
    cases rest with
    | nil => exact List.suffix_refl []
    | cons b rest =>
      simp only [complete]
      split
      · exact (ih _ rest).trans (List.suffix_cons b rest)
      · exact List.suffix_refl (b :: rest)

theorem decodeOne_rest (b : UInt8) (rest : List UInt8) : (decodeOne b rest).2 <:+ rest := by
  unfold decodeOne
  split
  · exact complete_rest _ _ rest
  · exact complete_rest _ _ rest
  · exact complete_rest _ _ rest
  · exact complete_rest _ _ rest
  · exact List.suffix_refl rest

theorem complete_char (n : ℕ) (expected : List (UInt8 → Bool)) (rest : List UInt8) :
    (complete n expected rest).1 = replacement ∨
      ∃ bytes, List.Forall₂ (fun p b => p b = true) expected bytes ∧
        (complete n expected rest).1 = Char.ofNat (bytes.foldl (fun n b => n * 64 + low b) n) := by
  induction expected generalizing n rest with
  | nil => exact .inr ⟨[], .nil, rfl⟩
  | cons p expected ih =>
    cases rest with
    | nil => exact .inl rfl
    | cons b rest =>
      simp only [complete]
      split
      · rename_i hp
        rcases ih (n * 64 + low b) rest with hinvalid | ⟨bytes, hall, hchar⟩
        · exact .inl hinvalid
        · exact .inr ⟨b :: bytes, .cons hp hall, hchar⟩
      · exact .inl rfl

theorem ofNat_ne_nul {n : ℕ} (hvalid : n.isValidChar) (hn : n ≠ 0) :
    Char.ofNat n ≠ Char.ofNat 0 := by
  intro h
  have hchar : (Char.ofNat n).toNat = n := by
    rw [Char.ofNat, dif_pos hvalid]
    rfl
  rw [h] at hchar
  exact hn hchar.symm

theorem replacement_ne_nul : replacement ≠ Char.ofNat 0 := by decide

theorem between_iff {least greatest : ℕ} {b : UInt8} :
    between least greatest b = true ↔ least ≤ b.toNat ∧ b.toNat ≤ greatest := by
  rw [between, Bool.and_eq_true, decide_eq_true_eq, decide_eq_true_eq]

/-- What each width says of the first byte. -/
theorem width_spec (b : UInt8) :
    match width b with
    | .one => b.toNat ≤ 0x7F
    | .two => 0xC2 ≤ b.toNat ∧ b.toNat ≤ 0xDF
    | .three => 0xE0 ≤ b.toNat ∧ b.toNat ≤ 0xEF
    | .four => 0xF0 ≤ b.toNat ∧ b.toNat ≤ 0xF4
    | .invalid => True := by
  unfold width
  split_ifs with h₁ h₂ h₃ h₄
  · exact (between_iff.mp h₁).2
  · exact between_iff.mp h₂
  · exact between_iff.mp h₃
  · exact between_iff.mp h₄
  · trivial

theorem two_valid {n second : ℕ} (hfirst : 0xC2 ≤ n ∧ n ≤ 0xDF)
    (hsecond : 0x80 ≤ second ∧ second ≤ 0xBF) :
    (n % 32 * 64 + second % 64).isValidChar ∧ n % 32 * 64 + second % 64 ≠ 0 := by
  constructor
  · left
    omega
  · omega

theorem secondByte_spec {lowest highest : UInt8} {least greatest : ℕ} {b second : UInt8}
    (hleast : 0x80 ≤ least) (hgreatest : greatest ≤ 0xBF) (hne : lowest ≠ highest)
    (h : secondByte lowest highest least greatest b second = true) :
    0x80 ≤ second.toNat ∧ second.toNat ≤ 0xBF ∧
      (b.toNat = lowest.toNat → least ≤ second.toNat) ∧
      (b.toNat = highest.toNat → second.toNat ≤ greatest) := by
  rw [UInt8.toNat_inj, UInt8.toNat_inj]
  unfold secondByte at h
  split_ifs at h with h₁ h₂
  · have hsecond := between_iff.mp h
    rw [h₁]
    exact ⟨Nat.le_trans hleast hsecond.1, hsecond.2, fun _ => hsecond.1, fun hb => absurd hb hne⟩
  · have hsecond := between_iff.mp h
    exact ⟨hsecond.1, Nat.le_trans hsecond.2 hgreatest, fun hb => absurd hb h₁, fun _ => hsecond.2⟩
  · have hsecond := between_iff.mp h
    exact ⟨hsecond.1, hsecond.2, fun hb => absurd hb h₁, fun hb => absurd hb h₂⟩

theorem three_valid {n second third : ℕ} (hfirst : 0xE0 ≤ n ∧ n ≤ 0xEF)
    (hsecond : 0x80 ≤ second ∧ second ≤ 0xBF ∧ (n = 0xE0 → 0xA0 ≤ second) ∧
      (n = 0xED → second ≤ 0x9F)) :
    ((n % 16 * 64 + second % 64) * 64 + third % 64).isValidChar ∧
      (n % 16 * 64 + second % 64) * 64 + third % 64 ≠ 0 := by
  constructor
  · by_cases hn : n ≤ 0xED
    · left
      omega
    · right
      omega
  · omega

theorem four_valid {n second third fourth : ℕ} (hfirst : 0xF0 ≤ n ∧ n ≤ 0xF4)
    (hsecond : 0x80 ≤ second ∧ second ≤ 0xBF ∧ (n = 0xF0 → 0x90 ≤ second) ∧
      (n = 0xF4 → second ≤ 0x8F)) :
    (((n % 8 * 64 + second % 64) * 64 + third % 64) * 64 + fourth % 64).isValidChar ∧
      ((n % 8 * 64 + second % 64) * 64 + third % 64) * 64 + fourth % 64 ≠ 0 := by
  constructor
  · right
    omega
  · omega

/-- No byte but zero starts U+0000. -/
theorem decodeOne_nul {b : UInt8} {rest : List UInt8} (h : (decodeOne b rest).1 = Char.ofNat 0) :
    b = 0 := by
  have hspec := width_spec b
  unfold decodeOne at h
  split at h
  · rename_i hwidth
    rw [hwidth] at hspec
    rw [← UInt8.toNat_inj, UInt8.toNat_zero]
    by_contra hb
    refine ofNat_ne_nul (.inl ?_) hb h
    exact Nat.lt_of_le_of_lt hspec (by decide)
  · rename_i hwidth
    rw [hwidth] at hspec
    rcases complete_char (b.toNat % 32) [isContinuation] rest with hinvalid | ⟨bytes, hall, hchar⟩
    · exact absurd (hinvalid.symm.trans h) replacement_ne_nul
    · obtain _ | ⟨hsecond, _ | _⟩ := hall
      obtain ⟨hvalid, hne⟩ := two_valid hspec (between_iff.mp hsecond)
      exact absurd (hchar.symm.trans h) (ofNat_ne_nul hvalid hne)
  · rename_i hwidth
    rw [hwidth] at hspec
    rcases complete_char (b.toNat % 16) [secondOfThree b, isContinuation] rest with
      hinvalid | ⟨bytes, hall, hchar⟩
    · exact absurd (hinvalid.symm.trans h) replacement_ne_nul
    · obtain _ | ⟨hsecond, _ | ⟨_, _ | _⟩⟩ := hall
      obtain ⟨hvalid, hne⟩ := three_valid hspec
        (secondByte_spec (by decide) (by decide) (by decide) hsecond)
      exact absurd (hchar.symm.trans h) (ofNat_ne_nul hvalid hne)
  · rename_i hwidth
    rw [hwidth] at hspec
    rcases complete_char (b.toNat % 8) [secondOfFour b, isContinuation, isContinuation] rest with
      hinvalid | ⟨bytes, hall, hchar⟩
    · exact absurd (hinvalid.symm.trans h) replacement_ne_nul
    · obtain _ | ⟨hsecond, _ | ⟨_, _ | ⟨_, _ | _⟩⟩⟩ := hall
      obtain ⟨hvalid, hne⟩ := four_valid hspec
        (secondByte_spec (by decide) (by decide) (by decide) hsecond)
      exact absurd (hchar.symm.trans h) (ofNat_ne_nul hvalid hne)
  · exact absurd h replacement_ne_nul

theorem nul_mem_decodeUpTo {n : ℕ} {bytes : List UInt8}
    (h : Char.ofNat 0 ∈ decodeUpTo n bytes) : 0 ∈ bytes := by
  induction n generalizing bytes with
  | zero => exact absurd h List.not_mem_nil
  | succ n ih =>
    cases bytes with
    | nil => exact absurd h List.not_mem_nil
    | cons b rest =>
      rcases List.mem_cons.mp h with hfirst | hlater
      · rw [decodeOne_nul hfirst.symm]
        exact List.mem_cons_self
      · exact List.mem_cons_of_mem b ((decodeOne_rest b rest).subset (ih hlater))

theorem nul_mem_decodeLossy {bytes : List UInt8} (h : Char.ofNat 0 ∈ decodeLossy bytes) :
    0 ∈ bytes :=
  nul_mem_decodeUpTo h

theorem decodeUpTo_enough {n m : ℕ} {bytes : List UInt8} (hn : bytes.length ≤ n)
    (hm : bytes.length ≤ m) : decodeUpTo n bytes = decodeUpTo m bytes := by
  induction n generalizing m bytes with
  | zero =>
    rw [List.length_eq_zero_iff.mp (Nat.le_zero.mp hn)]
    cases m <;> rfl
  | succ n ih =>
    cases bytes with
    | nil => cases m <;> rfl
    | cons b rest =>
      have hlength : (b :: rest).length = rest.length + 1 := rfl
      have hrest := (decodeOne_rest b rest).length_le
      cases m with
      | zero => omega
      | succ m =>
        have htail : decodeUpTo n (decodeOne b rest).2 = decodeUpTo m (decodeOne b rest).2 :=
          ih (by omega) (by omega)
        simp only [decodeUpTo, htail]

theorem decodeLossy_cons (b : UInt8) (rest : List UInt8) :
    decodeLossy (b :: rest) = (decodeOne b rest).1 :: decodeLossy (decodeOne b rest).2 := by
  have hrest := (decodeOne_rest b rest).length_le
  have htail : decodeUpTo rest.length (decodeOne b rest).2 = decodeLossy (decodeOne b rest).2 :=
    decodeUpTo_enough hrest (Nat.le_refl _)
  rw [← htail]
  rfl

theorem complete_zero {expected : List (UInt8 → Bool)} (h : ∀ p ∈ expected, p 0 = false) (n : ℕ)
    (rest after : List UInt8) :
    complete n expected (rest ++ 0 :: after) =
      ((complete n expected rest).1, (complete n expected rest).2 ++ 0 :: after) := by
  induction expected generalizing n rest with
  | nil => rfl
  | cons p expected ih =>
    have hmore (p' : UInt8 → Bool) (hp : p' ∈ expected) : p' 0 = false :=
      h p' (List.mem_cons_of_mem p hp)
    cases rest with
    | nil =>
      simp only [List.nil_append, complete, h p List.mem_cons_self, Bool.false_eq_true, if_false]
    | cons b rest =>
      simp only [List.cons_append, complete]
      split
      · exact ih hmore _ rest
      · rfl

theorem secondByte_zero {lowest highest : UInt8} {least greatest : ℕ} (h : 0 < least)
    (b : UInt8) : secondByte lowest highest least greatest b 0 = false := by
  unfold secondByte
  split_ifs
  · simp [between, Nat.pos_iff_ne_zero.mp h]
  · rfl
  · rfl

theorem decodeOne_zero (b : UInt8) (rest after : List UInt8) :
    decodeOne b (rest ++ 0 :: after) =
      ((decodeOne b rest).1, (decodeOne b rest).2 ++ 0 :: after) := by
  have hthree : secondOfThree b 0 = false := secondByte_zero (by decide) b
  have hfour : secondOfFour b 0 = false := secondByte_zero (by decide) b
  have hcontinuation : isContinuation 0 = false := by decide
  unfold decodeOne
  split
  · rfl
  · exact complete_zero (by simp [hcontinuation]) _ rest after
  · exact complete_zero (by simp [hcontinuation, hthree]) _ rest after
  · exact complete_zero (by simp [hcontinuation, hfour]) _ rest after
  · rfl

theorem decodeLossy_zero (bytes after : List UInt8) :
    decodeLossy (bytes ++ 0 :: after) = decodeLossy bytes ++ Char.ofNat 0 :: decodeLossy after := by
  induction hn : bytes.length using Nat.strongRecOn generalizing bytes with
  | ind n ih =>
    cases bytes with
    | nil =>
      rw [List.nil_append, decodeLossy_cons]
      rfl
    | cons b rest =>
      have hlength : (b :: rest).length = rest.length + 1 := rfl
      have hrest := (decodeOne_rest b rest).length_le
      rw [List.cons_append, decodeLossy_cons, decodeLossy_cons, decodeOne_zero, List.cons_append,
        ih _ (by omega) _ rfl]

/-- The text with every occurrence of a nonempty pattern replaced, from left to right; `skip`
characters of the last occurrence are still to be passed over. -/
def replaceFrom (pattern replacement : List Char) : ℕ → List Char → List Char
  | _, [] => []
  | skip + 1, _ :: text => replaceFrom pattern replacement skip text
  | 0, c :: text =>
    if pattern.isPrefixOf (c :: text) then
      replacement ++ replaceFrom pattern replacement (pattern.length - 1) text
    else c :: replaceFrom pattern replacement 0 text

def replace (pattern replacement text : List Char) : List Char :=
  replaceFrom pattern replacement 0 text

example : replace ['a', 'a'] ['x'] ['a', 'a', 'a', 'b'] = ['x', 'a', 'b'] := by decide

theorem mem_replaceFrom {pattern replacement : List Char} {skip : ℕ} {text : List Char} {c : Char}
    (h : c ∈ replaceFrom pattern replacement skip text) : c ∈ replacement ∨ c ∈ text := by
  induction text generalizing skip with
  | nil => cases skip <;> exact absurd h List.not_mem_nil
  | cons d text ih =>
    have hlater {skip : ℕ} (h : c ∈ replaceFrom pattern replacement skip text) :
        c ∈ replacement ∨ c ∈ d :: text := (ih h).imp_right (List.mem_cons_of_mem d)
    cases skip with
    | succ skip => exact hlater h
    | zero =>
      simp only [replaceFrom] at h
      split at h
      · rcases List.mem_append.mp h with hnew | hrest
        · exact .inl hnew
        · exact hlater hrest
      · rcases List.mem_cons.mp h with rfl | hrest
        · exact .inr List.mem_cons_self
        · exact hlater hrest

theorem mem_replace {pattern replacement text : List Char} {c : Char}
    (h : c ∈ replace pattern replacement text) : c ∈ replacement ∨ c ∈ text :=
  mem_replaceFrom h

theorem prefix_before {α : Type*} {p a b : List α} {c : α} (hc : c ∉ p)
    (h : p <+: a ++ c :: b) : p <+: a := by
  rcases List.prefix_or_prefix_of_prefix h (List.prefix_append a (c :: b)) with hshort | hlong
  · exact hshort
  · obtain ⟨more, rfl⟩ := hlong
    rw [List.prefix_append_right_inj] at h
    cases more with
    | nil => exact ⟨[], by simp⟩
    | cons d more =>
      rw [List.cons_prefix_cons] at h
      rw [h.1] at hc
      exact absurd (List.mem_append_right a List.mem_cons_self) hc

theorem replaceFrom_split {pattern replacement a b : List Char} {c : Char} {skip : ℕ}
    (hne : pattern ≠ []) (hc : c ∉ pattern) (hskip : skip ≤ a.length) :
    replaceFrom pattern replacement skip (a ++ c :: b) =
      replaceFrom pattern replacement skip a ++ c :: replaceFrom pattern replacement 0 b := by
  induction a generalizing skip with
  | nil =>
    rw [Nat.le_zero.mp hskip]
    have hstart : ¬ pattern.isPrefixOf (c :: b) = true := by
      rw [List.isPrefixOf_iff_prefix]
      exact fun h => hne (List.prefix_nil.mp (prefix_before hc h))
    simp only [List.nil_append, replaceFrom, if_neg hstart]
  | cons d a ih =>
    have hlength : (d :: a).length = a.length + 1 := rfl
    cases skip with
    | succ skip => exact ih (by omega)
    | zero =>
      simp only [List.cons_append, replaceFrom]
      by_cases hfound : pattern.isPrefixOf (d :: a) = true
      · have hstart := List.isPrefixOf_iff_prefix.mp hfound
        have hshort := hstart.length_le
        have hfound' : pattern.isPrefixOf (d :: (a ++ c :: b)) = true :=
          List.isPrefixOf_iff_prefix.mpr (hstart.trans (List.prefix_append (d :: a) (c :: b)))
        rw [if_pos hfound, if_pos hfound', ih (by omega), List.append_assoc]
      · have hfound' : ¬ pattern.isPrefixOf (d :: (a ++ c :: b)) = true := fun h =>
          hfound (List.isPrefixOf_iff_prefix.mpr
            (prefix_before (a := d :: a) hc (List.isPrefixOf_iff_prefix.mp h)))
        rw [if_neg hfound, if_neg hfound', ih (Nat.zero_le _), List.cons_append]

theorem replace_split {pattern replacement : List Char} {c : Char} (hne : pattern ≠ [])
    (hc : c ∉ pattern) (a b : List Char) :
    replace pattern replacement (a ++ c :: b) =
      replace pattern replacement a ++ c :: replace pattern replacement b :=
  replaceFrom_split hne hc (Nat.zero_le _)

end LossyText
