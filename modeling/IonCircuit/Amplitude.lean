import IonCircuit.Scalar

/-! Complex amplitudes as pairs of scalars, with the schoolbook operations. -/
namespace IonCircuit

@[ext] structure Amplitude (α : Type) where
  re : α
  im : α
  deriving DecidableEq

namespace Amplitude
variable {α : Type} [Scalar α]

instance : Zero (Amplitude α) := ⟨⟨0, 0⟩⟩
instance : One (Amplitude α) := ⟨⟨1, 0⟩⟩
instance : Add (Amplitude α) := ⟨fun z w => ⟨z.re + w.re, z.im + w.im⟩⟩
instance : Sub (Amplitude α) := ⟨fun z w => ⟨z.re - w.re, z.im - w.im⟩⟩
instance : Neg (Amplitude α) := ⟨fun z => ⟨-z.re, -z.im⟩⟩
instance : Mul (Amplitude α) :=
  ⟨fun z w => ⟨z.re * w.re - z.im * w.im, z.re * w.im + z.im * w.re⟩⟩

instance : Div (Amplitude α) where
  div z w :=
    let square := w.re * w.re + w.im * w.im
    ⟨(z.re * w.re + z.im * w.im) / square, (z.im * w.re - z.re * w.im) / square⟩

/-- The imaginary unit. -/
def i : Amplitude α := ⟨0, 1⟩

def scale (z : Amplitude α) (x : α) : Amplitude α := ⟨z.re * x, z.im * x⟩

def unscale (z : Amplitude α) (x : α) : Amplitude α := ⟨z.re / x, z.im / x⟩

def norm (z : Amplitude α) : α := Scalar.hypot z.re z.im

/-- The unit amplitude at angle `x`. -/
def cis [Trig α] (x : α) : Amplitude α := ⟨Trig.cos x, Trig.sin x⟩

@[simp] theorem add_re (z w : Amplitude α) : (z + w).re = z.re + w.re := rfl
@[simp] theorem add_im (z w : Amplitude α) : (z + w).im = z.im + w.im := rfl
@[simp] theorem mul_re (z w : Amplitude α) : (z * w).re = z.re * w.re - z.im * w.im := rfl
@[simp] theorem mul_im (z w : Amplitude α) : (z * w).im = z.re * w.im + z.im * w.re := rfl

end Amplitude
end IonCircuit
