import Mathlib.Data.List.Basic
import Mathlib.Algebra.Ring.Nat

/-! The texts of 128-bit identifiers: the hyphenated form they are displayed in, and the forms
that are read back. -/
namespace UuidText

def hexDigits : (width n : ℕ) → List Char
  | 0, _ => []
  | width + 1, n => hexDigits width (n / 16) ++ [Nat.digitChar (n % 16)]

def hyphenated (id : ℕ) : List Char :=
  let digits := hexDigits 32 id
  digits.take 8 ++ '-' :: (digits.drop 8).take 4 ++ '-' :: (digits.drop 12).take 4 ++
    '-' :: (digits.drop 16).take 4 ++ '-' :: digits.drop 20

def hexValue (c : Char) : Option ℕ :=
  if '0' ≤ c ∧ c ≤ '9' then some (c.toNat - '0'.toNat)
  else if 'a' ≤ c ∧ c ≤ 'f' then some (c.toNat - 'a'.toNat + 10)
  else if 'A' ≤ c ∧ c ≤ 'F' then some (c.toNat - 'A'.toNat + 10)
  else none

def parseDigits : ℕ → List Char → Option ℕ
  | n, [] => some n
  | n, c :: text => (hexValue c).bind fun d => parseDigits (16 * n + d) text

def parseHyphenated (text : List Char) : Option ℕ :=
  if text.getD 8 ' ' = '-' ∧ text.getD 13 ' ' = '-' ∧ text.getD 18 ' ' = '-' ∧
      text.getD 23 ' ' = '-' then
    parseDigits 0 (text.take 8 ++ (text.drop 9).take 4 ++ (text.drop 14).take 4 ++
      (text.drop 19).take 4 ++ text.drop 24)
  else none

/-- `Uuid::parse_str`: 32 digits, or the hyphenated form, also in braces or as a URN, whose prefix
is read in any case. -/
def parseStr (text : List Char) : Option ℕ :=
  if text.length = 32 then parseDigits 0 text
  else if text.length = 36 then parseHyphenated text
  else if text.length = 38 ∧ text.head? = some '\x7b' ∧ text.getLast? = some '\x7d' then
    parseHyphenated (text.drop 1).dropLast
  else if text.length = 45 ∧ (text.take 9).map Char.toLower = "urn:uuid:".toList then
    parseHyphenated (text.drop 9)
  else none

theorem hexDigits_length (width n : ℕ) : (hexDigits width n).length = width := by
  induction width generalizing n with
  | zero => rfl
  | succ width ih => rw [hexDigits, List.length_append, ih, List.length_singleton]

theorem hyphenated_length (id : ℕ) : (hyphenated id).length = 36 := by
  simp [hyphenated, hexDigits_length]

theorem parseDigits_append (n : ℕ) (text rest : List Char) :
    parseDigits n (text ++ rest) = (parseDigits n text).bind fun m => parseDigits m rest := by
  induction text generalizing n with
  | nil => rfl
  | cons c text ih =>
    rw [List.cons_append, parseDigits, parseDigits]
    cases hexValue c with
    | none => rfl
    | some d => exact ih _

theorem hexValue_digitChar {d : ℕ} (h : d < 16) : hexValue (Nat.digitChar d) = some d := by
  decide +revert

theorem parseDigits_hexDigits (width n m : ℕ) :
    parseDigits m (hexDigits width n) = some (16 ^ width * m + n % 16 ^ width) := by
  induction width generalizing n with
  | zero => simp [hexDigits, parseDigits, Nat.mod_one]
  | succ width ih =>
    have hdigit : n % 16 < 16 := Nat.mod_lt n (by decide)
    rw [hexDigits, parseDigits_append, ih, Option.bind_some, parseDigits, hexValue_digitChar hdigit,
      Option.bind_some, parseDigits, pow_succ', Nat.mod_mul]
    refine congrArg some ?_
    rw [Nat.mul_assoc]
    omega

theorem parseHyphenated_groups {a b c d e : List Char} (ha : a.length = 8) (hb : b.length = 4)
    (hc : c.length = 4) (hd : d.length = 4) :
    parseHyphenated (a ++ '-' :: b ++ '-' :: c ++ '-' :: d ++ '-' :: e) =
      parseDigits 0 (a ++ b ++ c ++ d ++ e) := by
  rw [parseHyphenated, if_pos]
  · simp (disch := omega) [List.drop_append, List.drop_eq_nil_of_le, ha, hb, hc, hd]
  · simp [List.getElem?_append, ha, hb, hc, hd]

theorem parseStr_hyphenated {id : ℕ} (h : id < 2 ^ 128) :
    parseStr (hyphenated id) = some id := by
  have hdigits := hexDigits_length 32 id
  have hgroups : (hexDigits 32 id).take 8 ++ ((hexDigits 32 id).drop 8).take 4 ++
      ((hexDigits 32 id).drop 12).take 4 ++ ((hexDigits 32 id).drop 16).take 4 ++
      (hexDigits 32 id).drop 20 = hexDigits 32 id := by
    simp [← List.take_add]
  rw [parseStr, if_neg (by rw [hyphenated_length]; decide), if_pos (hyphenated_length id),
    hyphenated, parseHyphenated_groups (by simp [hdigits]) (by simp [hdigits]) (by simp [hdigits])
      (by simp [hdigits]), hgroups, parseDigits_hexDigits, Nat.mul_zero, Nat.zero_add]
  exact congrArg some (Nat.mod_eq_of_lt h)

end UuidText
