import Mathlib.Data.Rat.Floor
import Mathlib.Order.WithBot
import Mathlib.Tactic.Linarith

/-!
# Doubles with their two infinities

The scheduler computes its tags, times and budgets in `double`. A double is modelled as an exact
rational or one of the two sentinels of the source, `min_tag` (−∞) and `max_tag` (+∞); rounding is
not modelled. The one quotient whose divisor can be `0.0`, a client's per-window `resource`, is an
`Option Dbl` whose `none` is NaN.
-/

namespace DmclockServer

/-- A double as the scheduler uses it: finite, or one of the sentinels `min_tag` and `max_tag`. -/
inductive Dbl where
  | minTag
  | fin (q : ℚ)
  | maxTag
  deriving DecidableEq, Repr

namespace Dbl

/-- The order embedding that gives `Dbl` the order of the extended rationals. -/
def toWB : Dbl → WithBot (WithTop ℚ)
  | minTag => ⊥
  | fin q => ((q : WithTop ℚ) : WithBot (WithTop ℚ))
  | maxTag => ((⊤ : WithTop ℚ) : WithBot (WithTop ℚ))

theorem toWB_injective : Function.Injective toWB := by
  intro a b h
  cases a <;> cases b <;> simp_all [toWB]

instance : LinearOrder Dbl := LinearOrder.lift' toWB toWB_injective

instance : Zero Dbl := ⟨fin 0⟩

@[simp] theorem zero_eq : (0 : Dbl) = fin 0 := rfl

@[simp] theorem fin_le_fin {p q : ℚ} : fin p ≤ fin q ↔ p ≤ q := by
  show toWB (fin p) ≤ toWB (fin q) ↔ p ≤ q
  simp [toWB]

@[simp] theorem fin_lt_fin {p q : ℚ} : fin p < fin q ↔ p < q := by
  simp only [lt_iff_le_not_le, fin_le_fin]

@[simp] theorem minTag_le (a : Dbl) : minTag ≤ a := by
  show toWB minTag ≤ toWB a
  exact bot_le

@[simp] theorem le_maxTag (a : Dbl) : a ≤ maxTag := by
  show toWB a ≤ toWB maxTag
  cases a <;> simp [toWB]

@[simp] theorem not_maxTag_le_fin (q : ℚ) : ¬ maxTag ≤ fin q := by
  show ¬ toWB maxTag ≤ toWB (fin q)
  simp [toWB]

@[simp] theorem not_fin_le_minTag (q : ℚ) : ¬ fin q ≤ minTag := by
  show ¬ toWB (fin q) ≤ toWB minTag
  simp [toWB]

@[simp] theorem minTag_lt_fin (q : ℚ) : minTag < fin q :=
  lt_of_not_le (not_fin_le_minTag q)

@[simp] theorem fin_lt_maxTag (q : ℚ) : fin q < maxTag :=
  lt_of_not_le (not_maxTag_le_fin q)

@[simp] theorem minTag_lt_maxTag : minTag < maxTag :=
  (minTag_lt_fin 0).trans (fin_lt_maxTag 0)

@[simp] theorem not_maxTag_lt (a : Dbl) : ¬ maxTag < a := not_lt.mpr (le_maxTag a)

@[simp] theorem not_lt_minTag (a : Dbl) : ¬ a < minTag := not_lt.mpr (minTag_le a)

theorem lt_maxTag_iff {a : Dbl} : a < maxTag ↔ a ≠ maxTag :=
  ⟨ne_of_lt, fun h => lt_of_le_of_ne (le_maxTag a) h⟩

/-! ## Adding a finite amount -/

/-- `x + d` for a finite `d`: the sentinels absorb it, as `±∞ + d = ±∞`. -/
def addQ : Dbl → ℚ → Dbl
  | minTag, _ => minTag
  | fin p, d => fin (p + d)
  | maxTag, _ => maxTag

instance : HAdd Dbl ℚ Dbl := ⟨addQ⟩

instance : HSub Dbl ℚ Dbl := ⟨fun a d => addQ a (-d)⟩

@[simp] theorem minTag_add (d : ℚ) : minTag + d = minTag := rfl

@[simp] theorem fin_add (p d : ℚ) : fin p + d = fin (p + d) := rfl

@[simp] theorem maxTag_add (d : ℚ) : maxTag + d = maxTag := rfl

@[simp] theorem sub_eq_add_neg (a : Dbl) (d : ℚ) : a - d = a + (-d) := rfl

@[simp] theorem addQ_zero (a : Dbl) : a + (0 : ℚ) = a := by
  cases a <;> simp

theorem addQ_le_addQ_right {a b : Dbl} (h : a ≤ b) (d : ℚ) : a + d ≤ b + d := by
  cases a <;> cases b <;> simp_all

theorem addQ_le_addQ_left (a : Dbl) {d e : ℚ} (h : d ≤ e) : a + d ≤ a + e := by
  cases a <;> simp [h]

theorem le_addQ_of_nonneg (a : Dbl) {d : ℚ} (h : 0 ≤ d) : a ≤ a + d := by
  simpa using addQ_le_addQ_left a h

@[simp] theorem addQ_eq_maxTag {a : Dbl} {d : ℚ} : a + d = maxTag ↔ a = maxTag := by
  cases a <;> simp

@[simp] theorem addQ_lt_maxTag {a : Dbl} {d : ℚ} : a + d < maxTag ↔ a < maxTag := by
  cases a <;> simp

/-! ## The budget quotient -/

/-- `x / y` in double arithmetic where `y` can be `0.0`; `none` is NaN (`0.0 / 0.0`). -/
def quot (x y : ℚ) : Option Dbl :=
  if y = 0 then (if 0 < x then some maxTag else if x < 0 then some minTag else none)
  else some (fin (x / y))

/-- `x - d` on a double that may be NaN. -/
def subQ (x : Option Dbl) (d : ℚ) : Option Dbl := x.map (· - d)

/-- `std::max(x, 0.0)`: the first argument unless it is less than the second, so NaN stays NaN. -/
def maxZero : Option Dbl → Option Dbl
  | none => none
  | some e => some (if e < 0 then 0 else e)

/-- `n < x` for an unsigned counter `n`: false when `x` is NaN. -/
def natLt (n : ℕ) : Option Dbl → Bool
  | none => false
  | some e => decide (fin n < e)

end Dbl

/-- Converting a double to an integer type: truncation towards zero. -/
def truncQ (q : ℚ) : ℤ := if 0 ≤ q then ⌊q⌋ else ⌈q⌉

end DmclockServer
