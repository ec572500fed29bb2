import ClosureLift.Proofs.Machine.Simulation
import Mathlib.Algebra.Group.Int.Defs
import Mathlib.Algebra.Group.Nat.Defs

/-!
Arithmetic on integers. Sums, differences and products are exact up to multiples of `2 ^ 64`.
Division goes toward zero and the remainder takes the sign of the dividend. The one quotient that
does not fit, of the least integer by -1, wraps like a product would; only a zero divisor is an
error.
-/
namespace ClosureLift

/-- The exact result `n`, reduced modulo `2 ^ 64` into the signed range, is `c`. -/
def WrapsTo (n : Int) (c : Int64) : Prop :=
  -2 ^ 63 ≤ c.toInt ∧ c.toInt < 2 ^ 63 ∧ (2 ^ 64 : Int) ∣ c.toInt - n

/-- Quotient and remainder of a division toward zero, and the one exception from it. -/
structure IsDivision (a b quotient remainder : Int64) : Prop where
  restores : (2 ^ 64 : Int) ∣ quotient.toInt * b.toInt + remainder.toInt - a.toInt
  small : remainder.toInt.natAbs < b.toInt.natAbs
  sign : remainder = 0 ∨ remainder.toInt.sign = a.toInt.sign
  truncated : a ≠ Int64.minValue ∨ b ≠ -1 → quotient.toInt = a.toInt.tdiv b.toInt
  wrapped : a = Int64.minValue → b = -1 → quotient = Int64.minValue ∧ remainder = 0

theorem wraps_of_bmod {n : Int} {c : Int64} (same : c.toInt = n.bmod (2 ^ 64)) : WrapsTo n c := by
  refine ⟨c.le_toInt, c.toInt_lt, ?_⟩
  rw [same]
  exact Int.dvd_bmod_sub_self

theorem remainder_sign (a b : Int64) : a % b = 0 ∨ (a % b).toInt.sign = a.toInt.sign := by
  have signed := Int.sign_tmod a.toInt b.toInt
  rw [← Int64.toInt_mod] at signed
  split at signed
  · left
    exact Int64.toInt_inj.mp (Int.sign_eq_zero_iff_zero.mp signed)
  · exact Or.inr signed

theorem division_truncates {a b : Int64} (ordinary : a ≠ Int64.minValue ∨ b ≠ -1) :
    (a / b).toInt = a.toInt.tdiv b.toInt := by
  rcases ordinary with left | right
  · exact Int64.toInt_div_of_ne_left a b left
  · exact Int64.toInt_div_of_ne_right a b right

theorem division_restores (a b : Int64) :
    (2 ^ 64 : Int) ∣ (a / b).toInt * b.toInt + (a % b).toInt - a.toInt := by
  -- What the quotient is off by is lost in a multiple of `2 ^ 64`.
  have whole := Int.mul_tdiv_add_tmod a.toInt b.toInt
  obtain ⟨_, _, k, off⟩ := wraps_of_bmod (Int64.toInt_div a b)
  refine ⟨k * b.toInt, ?_⟩
  calc (a / b).toInt * b.toInt + (a % b).toInt - a.toInt
    _ = (a / b).toInt * b.toInt + a.toInt.tmod b.toInt -
          (b.toInt * a.toInt.tdiv b.toInt + a.toInt.tmod b.toInt) := by
      rw [Int64.toInt_mod, whole]
    _ = ((a / b).toInt - a.toInt.tdiv b.toInt) * b.toInt := by
      rw [Int.sub_mul, Int.mul_comm b.toInt]
      omega
    _ = 2 ^ 64 * (k * b.toInt) := by
      rw [off, Int.mul_assoc]

theorem is_division {a b : Int64} (nonzero : b ≠ 0) : IsDivision a b (a / b) (a % b) where
  restores := division_restores a b
  small := by
    have positive : 0 < b.toInt.natAbs := by
      apply Int.natAbs_pos.mpr
      intro zero
      exact nonzero (Int64.toInt_inj.mp zero)
    rw [Int64.toInt_mod, Int.natAbs_tmod]
    exact Nat.mod_lt _ positive
  sign := remainder_sign a b
  truncated := division_truncates
  wrapped := by
    rintro rfl rfl
    exact ⟨Int64.minValue_div_neg_one, by decide⟩

section

variable {ctx : Context} {f f₁ f₂ : Frame} {left right : Expr} {a b : Int64}

theorem operation_run (first : (left.eval ctx).run.run f = (.ok (.integer a), f₁))
    (second : (right.eval ctx).run.run f₁ = (.ok (.integer b), f₂)) (ty : Ty) {op : Operator}
    (strict : op ≠ .booleanAnd ∧ op ≠ .booleanOr) :
    ((Expr.operation op [left, right] ty).eval ctx).run.run f =
      ((op.apply f₂.heap [.integer a, .integer b]).mapError .fault, f₂) := by
  have both : (Expr.evalAll ctx [left, right]).run.run f =
      (.ok [.integer a, .integer b], f₂) := by
    rw [Expr.evalAll, run_bind, first]
    simp only [Expr.evalAll, run_bind, second]
    rfl
  rw [operation_eval ctx op _ ty fun _ => strict, run_bind, both]
  change (Eval.ofExcept (op.apply f₂.heap _)).run.run f₂ = _
  cases op.apply f₂.heap [.integer a, .integer b] <;> rfl

/-- Operators on two integers, whatever expressions these come from. Addition, subtraction and
multiplication always give the exact result up to a multiple of `2 ^ 64`; division and remainder do
for every divisor but zero, where they fail. -/
theorem integer_arithmetic_exact (first : (left.eval ctx).run.run f = (.ok (.integer a), f₁))
    (second : (right.eval ctx).run.run f₁ = (.ok (.integer b), f₂)) (ty : Ty) :
    let outcome (op : Operator) : Except Stop Value × Frame :=
      ((Expr.operation op [left, right] ty).eval ctx).run.run f
    (∃ c, outcome .add = (.ok (.integer c), f₂) ∧ WrapsTo (a.toInt + b.toInt) c) ∧
    (∃ c, outcome .subtract = (.ok (.integer c), f₂) ∧ WrapsTo (a.toInt - b.toInt) c) ∧
    (∃ c, outcome .multiply = (.ok (.integer c), f₂) ∧ WrapsTo (a.toInt * b.toInt) c) ∧
    (outcome .divide = (.error (.fault .divisionByZero), f₂) ↔ b = 0) ∧
    (outcome .modulus = (.error (.fault .divisionByZero), f₂) ↔ b = 0) ∧
    (b ≠ 0 → ∃ quotient remainder, outcome .divide = (.ok (.integer quotient), f₂) ∧
      outcome .modulus = (.ok (.integer remainder), f₂) ∧ IsDivision a b quotient remainder) := by
  intro outcome
  have run : ∀ op, op ≠ .booleanAnd ∧ op ≠ .booleanOr → outcome op =
      ((op.apply f₂.heap [.integer a, .integer b]).mapError .fault, f₂) :=
    fun op strict => operation_run first second ty strict
  refine ⟨⟨a + b, run .add (by decide), wraps_of_bmod (Int64.toInt_add a b)⟩,
    ⟨a - b, run .subtract (by decide), wraps_of_bmod (Int64.toInt_sub a b)⟩,
    ⟨a * b, run .multiply (by decide), wraps_of_bmod (Int64.toInt_mul a b)⟩, ?_⟩
  by_cases zero : b = 0
  · subst zero
    have quotient : outcome .divide = (.error (.fault .divisionByZero), f₂) :=
      run .divide (by decide)
    have remainder : outcome .modulus = (.error (.fault .divisionByZero), f₂) :=
      run .modulus (by decide)
    exact ⟨iff_of_true quotient rfl, iff_of_true remainder rfl, fun nonzero => absurd rfl nonzero⟩
  · have quotient : outcome .divide = (.ok (.integer (a / b)), f₂) := by
      rw [run .divide (by decide)]
      simp [Operator.apply, Operator.onIntegers, zero, Except.mapError]
    have remainder : outcome .modulus = (.ok (.integer (a % b)), f₂) := by
      rw [run .modulus (by decide)]
      simp [Operator.apply, Operator.onIntegers, zero, Except.mapError]
    refine ⟨iff_of_false ?_ zero, iff_of_false ?_ zero, ?_⟩
    · simp [quotient]
    · simp [remainder]
    · exact fun nonzero => ⟨_, _, quotient, remainder, is_division nonzero⟩

end

/-- The one quotient that does not fit. -/
theorem least_by_minus_one :
    let ctx := Program.outside ⟨"", ⟨[]⟩, []⟩ .standard
    let frame : Frame := ⟨.empty, []⟩
    let least := Expr.literal (.integer Int64.minValue)
    let minusOne := Expr.literal (.integer (-1))
    let outcome (op : Operator) : Except Stop Value × Frame :=
      ((Expr.operation op [least, minusOne] .integer).eval ctx).run.run frame
    (least.eval ctx).run.run frame = (.ok (.integer Int64.minValue), frame) ∧
    (minusOne.eval ctx).run.run frame = (.ok (.integer (-1)), frame) ∧
    outcome .divide = (.ok (.integer Int64.minValue), frame) ∧
    outcome .modulus = (.ok (.integer 0), frame) := by
  intro ctx frame least minusOne outcome
  have first : (least.eval ctx).run.run frame = (.ok (.integer Int64.minValue), frame) := rfl
  have second : (minusOne.eval ctx).run.run frame = (.ok (.integer (-1)), frame) := rfl
  obtain ⟨_, _, _, _, _, division⟩ := integer_arithmetic_exact first second .integer
  obtain ⟨quotient, remainder, divided, left, correct⟩ := division (by decide)
  obtain ⟨rfl, rfl⟩ := correct.wrapped rfl rfl
  exact ⟨first, second, divided, left⟩

end ClosureLift
