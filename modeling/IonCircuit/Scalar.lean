/-! The numbers that gate parameters and amplitudes are made of. Everything below the
text formats is written over any such numbers, so one definition serves the doubles a
backend sends and the reals a proof speaks about. -/
namespace IonCircuit

/-- Ordered numbers with the constants and operations that angles need. -/
class Scalar (α : Type) extends
    Zero α, One α, Add α, Sub α, Mul α, Div α, Neg α, LE α, LT α, OfScientific α where
  decLE : DecidableLE α
  decLT : DecidableLT α
  abs : α → α
  /-- The length of the plane vector with these coordinates. -/
  hypot : α → α → α
  /-- What is left after removing whole multiples of a positive second argument, never
  negative. -/
  remainder : α → α → α
  isFinite : α → Bool
  pi : α

instance Scalar.instDecidableLE {α : Type} [Scalar α] : DecidableLE α := Scalar.decLE

instance Scalar.instDecidableLT {α : Type} [Scalar α] : DecidableLT α := Scalar.decLT

/-- Sine, cosine and the angle of a plane vector, apart from `Scalar` because their last
bits are not fixed by the format of the numbers. -/
class Trig (α : Type) where
  sin : α → α
  cos : α → α
  /-- The angle in `[-π, π]` of the vector with ordinate first and abscissa second. -/
  atan2 : α → α → α

namespace Scalar
variable {α : Type} [Scalar α]

def half (x : α) : α := x / (1 + 1)

/-- A quarter turn is half of `π`. -/
def halfPi : α := half pi

def tau : α := pi + pi

def threeHalfPi : α := (1 + 1 + 1) * halfPi

def powTwo : Nat → α
  | 0 => 1
  | k + 1 => powTwo k + powTwo k

/-- Folded angles this close to zero count as zero: sixty-four times the spacing of
doubles at one. -/
def zeroBand : α := 1 / powTwo 46

end Scalar
end IonCircuit
