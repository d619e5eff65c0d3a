import IonCircuit.Evolution

/-! Comparison of matrices and circuits up to a global phase. -/
namespace IonCircuit
variable {α : Type} [Scalar α]

namespace Operator

/-- The last entry that no other exceeds in modulus, with its position. -/
def pivot? (entries : List (Amplitude α)) : Option (Amplitude α × Nat) :=
  entries.zipIdx.foldl
    (fun best next => match best with
      | none => some next
      | some b => if b.1.norm ≤ next.1.norm then some next else some b)
    none

/-- Whether every entry of `b` is `phase` times that of `a` within the tolerance. -/
def isMultiple (a b : Operator (Amplitude α)) (phase : Amplitude α) (tolerance : α) : Bool :=
  (a.data.toList.zip b.data.toList).all fun (x, y) =>
    decide ((y - phase * x).norm ≤ tolerance)

/-- The unit amplitude `p` for which `b` is `p` times `a`, if there is one within the
tolerance. It is read off the largest entry of `a`, which rounding disturbs least, and
then tried on all entries. -/
def phase? (a b : Operator (Amplitude α)) (tolerance : α) : Option (Amplitude α) :=
  if a.SameShape b then
    match pivot? a.data.toList with
    | none => none
    | some (x, k) =>
      let ratio := b.data.getD k 0 / x
      let phase := ratio.unscale ratio.norm
      if x.norm ≤ tolerance ∨ tolerance < Scalar.abs (ratio.norm - 1) then none
      else if a.isMultiple b phase tolerance then some phase else none
  else none

def equalUpToPhase (a b : Operator (Amplitude α)) (tolerance : α) : Bool :=
  (a.phase? b tolerance).isSome

end Operator

/-- The phase between the unitaries of two circuits of one width. -/
def Circuit.phase? [Trig α] (left right : Circuit α) (tolerance : α) :
    Except (Error α) (Option (Amplitude α)) := do
  if left.width ≠ right.width then throw (.widthMismatch left.width right.width)
  let u ← left.unitary
  let v ← right.unitary
  return u.phase? v tolerance

/-- Whether two circuits of one width have the same unitary up to a phase. -/
def Circuit.equivalent [Trig α] (left right : Circuit α) (tolerance : α) :
    Except (Error α) Bool := do
  return (← left.phase? right tolerance).isSome

end IonCircuit
