import Mathlib.Algebra.Order.Ring.Int
import Mathlib.Tactic.Linarith

/-! Integers of a fixed width, as the values of ℤ between two bounds.
An operation that stops the program on overflow returns nothing there; a saturating one returns
the nearest bound. Division truncates toward zero. -/
namespace MachineIntegers

structure Width where
  bits : ℕ
  least : ℤ
  greatest : ℤ
  bounded : least ≤ greatest

def unsigned (bits : ℕ) : Width :=
  ⟨bits, 0, 2 ^ bits - 1, by have := pow_pos (show (0 : ℤ) < 2 by decide) bits; omega⟩

def signed (bits : ℕ) : Width :=
  ⟨bits, -2 ^ (bits - 1), 2 ^ (bits - 1) - 1, by
    have := pow_pos (show (0 : ℤ) < 2 by decide) (bits - 1); omega⟩

def Width.Holds (w : Width) (value : ℤ) : Prop := w.least ≤ value ∧ value ≤ w.greatest

instance (w : Width) (value : ℤ) : Decidable (w.Holds value) :=
  inferInstanceAs (Decidable (_ ≤ _ ∧ _ ≤ _))

def Width.checked (w : Width) (value : ℤ) : Option ℤ := if w.Holds value then some value else none

def Width.saturate (w : Width) (value : ℤ) : ℤ := max w.least (min value w.greatest)

/-- A shift by the width or more stops the program; bits pushed out are lost. -/
def Width.shiftLeft (w : Width) (value : ℤ) (count : ℕ) : Option ℤ :=
  if count < w.bits then some (value * 2 ^ count % 2 ^ w.bits) else none

/-- `clamp` refuses bounds in the wrong order. -/
def clamp (value minimum maximum : ℤ) : Option ℤ :=
  if minimum ≤ maximum then some (max minimum (min value maximum)) else none

def decimal (digits : List Char) : Option ℤ :=
  if digits ≠ [] ∧ digits.all Char.isDigit then
    some (digits.foldl (fun value c => value * 10 + (c.toNat - '0'.toNat : ℕ)) 0)
  else none

/-- Decimal digits after an optional sign; a minus sign only where negative values exist. -/
def Width.parse (w : Width) (text : String) : Option ℤ :=
  match text.toList with
  | '+' :: digits => decimal digits >>= w.checked
  | '-' :: digits =>
      if w.least < 0 then (decimal digits).map (fun value => -value) >>= w.checked else none
  | digits => decimal digits >>= w.checked

theorem checked_of_holds {w : Width} {value : ℤ} (h : w.Holds value) :
    w.checked value = some value := if_pos h

theorem saturate_of_holds {w : Width} {value : ℤ} (h : w.Holds value) :
    w.saturate value = value := by
  obtain ⟨hl, hg⟩ := h
  unfold Width.saturate
  omega

theorem clamp_of_ordered {value minimum maximum : ℤ} (h : minimum ≤ maximum) :
    clamp value minimum maximum = some (max minimum (min value maximum)) := if_pos h

-- Jitter: a value moved by a percentage of itself, the product divided with truncation.

def moved (percent value : ℤ) : ℤ := value + (value * percent).tdiv 100

theorem tdiv_of_nonneg {value : ℤ} (h : 0 ≤ value) : value.tdiv 100 = value / 100 :=
  Int.tdiv_eq_ediv_of_nonneg h

theorem tdiv_of_nonpos {value : ℤ} (h : value ≤ 0) : value.tdiv 100 = -(-value / 100) := by
  have hneg : (-value).tdiv 100 = -value / 100 := Int.tdiv_eq_ediv_of_nonneg (by omega)
  rw [Int.neg_tdiv] at hneg
  omega

theorem moved_near {percent bound value : ℤ} (hv : 0 ≤ value)
    (hlow : -bound ≤ percent) (hhigh : percent ≤ bound) :
    100 * moved percent value ≤ 100 * value + bound * value ∧
      100 * value - bound * value ≤ 100 * moved percent value := by
  have hup : value * percent ≤ bound * value := by nlinarith
  have hdown : -(bound * value) ≤ value * percent := by nlinarith
  unfold moved
  rcases Int.le_total 0 (value * percent) with h | h
  · rw [tdiv_of_nonneg h]
    omega
  · rw [tdiv_of_nonpos h]
    omega

/-- Moving by at most the whole value keeps the order of values: a step up of the value is at least
as long as the step of what is taken from it. -/
theorem moved_mono {percent small large : ℤ} (hs : 0 ≤ small) (h : small ≤ large)
    (hlow : -100 ≤ percent) : moved percent small ≤ moved percent large := by
  unfold moved
  rcases Int.le_total 0 percent with hp | hp
  · have hprod : small * percent ≤ large * percent := Int.mul_le_mul_of_nonneg_right h hp
    have hnonneg : 0 ≤ small * percent := Int.mul_nonneg hs hp
    rw [tdiv_of_nonneg hnonneg, tdiv_of_nonneg (by omega)]
    omega
  · have hstep : -(large * percent) + small * percent ≤ 100 * (large - small) := by nlinarith
    have hsmall : small * percent ≤ 0 := by nlinarith
    have hlarge : large * percent ≤ 0 := by nlinarith
    rw [tdiv_of_nonpos hsmall, tdiv_of_nonpos hlarge]
    omega

end MachineIntegers
