import IonCircuit.Binary64
import IonCircuit.Random.Circuit

/-! Random choices made from a cycle of 64-bit words. A sequence of words that never repeats is not
among these, but a run that comes out reads finitely many words, and a cycle can begin with them. -/
namespace IonCircuit.Random
attribute [local instance (high)] instPowNat

structure Words where
  cycle : Array UInt64
  used : Nat
  deriving DecidableEq

namespace Words
variable {α : Type}

def ofList (words : List UInt64) : Words := ⟨words.toArray, 0⟩

/-- The next word; after the last comes the first again. -/
def next : Draw Words α Nat := do
  let s ← get
  match s.cycle[s.used % s.cycle.size]? with
  | some w =>
    set { s with used := s.used + 1 }
    return w.toNat
  | none => throw .exhausted

/-- Words whose product with `n` leaves a low half above this are drawn again, so that
every result is met by equally many words. -/
def zone (bits n : Nat) : Nat := n * 2 ^ (bits - 1 - n.log2) - 1

theorem product_lt {bits n : Nat} (hn : 0 < n) (w : Nat) :
    w % 2 ^ bits * n / 2 ^ bits < n := by
  have hw : w % 2 ^ bits < 2 ^ bits := Nat.mod_lt _ (Nat.two_pow_pos bits)
  exact Nat.div_lt_of_lt_mul (Nat.mul_lt_mul_of_pos_right hw hn)

/-- A number below `n` from the low bits of a word. At most so many words are tried. -/
def pick (bits n : Nat) (hn : 0 < n) : (tries : Nat) → Draw Words α (Fin n)
  | 0 => throw .exhausted
  | tries + 1 => do
    let w ← next
    if w % 2 ^ bits * n % 2 ^ bits ≤ zone bits n then
      return ⟨w % 2 ^ bits * n / 2 ^ bits, product_lt hn w⟩
    else pick bits n hn tries

/-- When a whole cycle of words is refused, all further ones are too. -/
def below (bits n : Nat) : Draw Words α (Fin n) := do
  if h : 0 < n then pick bits n h (← get).cycle.size else throw .exhausted

/-- The largest fraction of the range that a word can reach. -/
def topFraction : Float := Binary64.ofScaled (2 ^ (52 : Nat) - 1) (-52) .positive

/-- The largest of the doubles up to the one with these bits for which the top of the
range stays within its end. -/
def fitScale (low high : Float) : (bits : Nat) → Float
  | 0 => 0
  | bits + 1 =>
    let scale := Float.ofBits (bits + 1).toUInt64
    if high < scale * topFraction + low then fitScale low high bits else scale

/-- A double between the bound and its negative, from the upper bits of a word. -/
def angle (bound : Float) : Draw Words Float Float := do
  let low := -bound
  let scale := (bound - low) / topFraction
  if !scale.isFinite then throw (.rangeTooWide bound)
  let scale := fitScale low bound scale.toBits.toNat
  let w ← next
  return Binary64.ofScaled (w >>> 12) (-52) .positive * scale + low

/-- Qubits are drawn with whole words, axes with their lower halves. -/
def source : Source Words Float where
  angle := angle
  below := below 64
  axis := below 32 3

end Words
end IonCircuit.Random
