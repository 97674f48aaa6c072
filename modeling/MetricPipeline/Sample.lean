/-!
# Samples

The value of a report: an integer, or a double-precision number given by its 64-bit pattern. Doubles are
compared as numbers: a pattern stands for a quantity, and two samples agree when both are integers and the
same, or both are doubles and stand for the same quantity. Not-a-number agrees with nothing, itself included,
and the two zeros stand for one quantity.
-/

namespace MetricPipeline

/-- A double-precision number, by its pattern: sign, eleven bits of exponent, fifty-two of fraction. -/
structure Double where
  bits : UInt64
  deriving DecidableEq, Repr

/-- What a pattern stands for. Every finite double is a whole number of the smallest positive one. -/
inductive Quantity where
  | notANumber
  | infinite (negative : Bool)
  | finite (units : Int)
  deriving DecidableEq, Repr

namespace Double

def isNegative (d : Double) : Bool := decide (1 <<< 63 ≤ d.bits.toNat)
def exponent (d : Double) : Nat := (d.bits.toNat >>> 52) % (1 <<< 11)
def fraction (d : Double) : Nat := d.bits.toNat % (1 <<< 52)

/-- The size of a finite double, counted in units of the smallest positive one. The lowest exponent has no
hidden leading bit and the scale of the next one. -/
def magnitude (d : Double) : Nat :=
  if d.exponent = 0 then d.fraction else ((1 <<< 52) + d.fraction) <<< (d.exponent - 1)

def quantity (d : Double) : Quantity :=
  if d.exponent = (1 <<< 11) - 1 then
    if d.fraction = 0 then .infinite d.isNegative else .notANumber
  else .finite (if d.isNegative then -(d.magnitude : Int) else d.magnitude)

def isNaN (d : Double) : Bool := decide (d.quantity = .notANumber)

def agrees (a b : Double) : Bool := !a.isNaN && decide (a.quantity = b.quantity)

end Double

inductive Sample where
  | int (value : Int64)
  | double (value : Double)
  deriving DecidableEq, Repr

/-- An integer never agrees with a double. -/
def Sample.agrees : Sample → Sample → Bool
  | .int a, .int b => decide (a = b)
  | .double a, .double b => a.agrees b
  | _, _ => false

end MetricPipeline
