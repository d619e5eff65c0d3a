import IonCircuit.Scalar

/-! Doubles as scalars. The remainder and the vector length are computed on the exact
significands and rounded once, so both are the correctly rounded results. -/
namespace IonCircuit.Binary64
open Float.Model (UnpackedFloat)

/-- The double whose fields are given. -/
def ofFields (u : UnpackedFloat) : Float := Float.ofModel (Float.Model.pack u)

/-- The double nearest to `k * 2 ^ e`; a zero takes the given sign. -/
def ofScaled (k e : Int) (zeroSign : UnpackedFloat.Sign) : Float :=
  ofFields (.normalize .binary64 k e zeroSign)

/-- The significand `m * 2 ^ e` counted in units of the smaller power `2 ^ g`. -/
def align (m : Nat) (e g : Int) : Nat := m <<< (e - g).toNat

/-- What is left of `x` after removing as many whole `y` as fit toward zero. The result
has the sign of `x` and is exact. -/
def truncRemainder (x y : Float) : Float :=
  match x.toModel.unpack, y.toModel.unpack with
  | .notANumber, _ | _, .notANumber | .infinity _, _ | _, .zero _ => ofFields .notANumber
  | .zero _, _ | _, .infinity _ => x
  | .finite s m e _, .finite _ n f _ =>
    let g := min e f
    ofScaled (s.apply (align m e g % align n f g : Nat)) g s

/-- The remainder moved into the nonnegative numbers by one more `y`. -/
def remainder (x y : Float) : Float :=
  let r := truncRemainder x y
  if r < 0 then r + y.abs else r

/-- The rounded square root of the exact sum of squares. -/
def hypot (x y : Float) : Float :=
  match x.toModel.unpack, y.toModel.unpack with
  | .infinity _, _ | _, .infinity _ => ofFields (.infinity .positive)
  | .notANumber, _ | _, .notANumber => ofFields .notANumber
  | .zero _, _ => y.abs
  | _, .zero _ => x.abs
  | .finite _ m e _, .finite _ n f _ =>
    let g := min e f
    let a := align m e g
    let b := align n f g
    let sum := a * a + b * b
    if h : 0 < sum then ofFields (.sqrt .binary64 (.finite .positive sum (2 * g) h)) else 0

/-- The double nearest to `π`. -/
def pi : Float := Float.ofBits 0x400921FB54442D18

instance : Scalar Float where
  decLE := inferInstance
  decLT := inferInstance
  abs := Float.abs
  hypot := hypot
  remainder := remainder
  isFinite := Float.isFinite
  pi := pi

instance : Trig Float where
  sin := Float.sin
  cos := Float.cos
  atan2 := Float.atan2

end IonCircuit.Binary64
