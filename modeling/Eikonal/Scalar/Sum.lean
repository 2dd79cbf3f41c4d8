import Eikonal.Scalar.Basic

/-! Sums that keep rounding small. A long sequence is split in halves; a short one is added up in
eight lanes, which are joined in pairs at the end. -/

namespace Eikonal.Scalar

variable {α : Type} [Scalar α]

/-- Adds rows of eight to eight lanes, then the joined lanes and what is left of the last row. -/
def sumLanes (lanes : List α) : List α → α
  | a :: b :: c :: d :: e :: f :: g :: h :: rest =>
    sumLanes (List.zipWith (· + ·) lanes [a, b, c, d, e, f, g, h]) rest
  | rest =>
    let joined := match lanes with
      | [a, b, c, d, e, f, g, h] => ((a + b) + (c + d)) + ((e + f) + (g + h))
      | l => l.foldl (· + ·) zero
    rest.foldl (· + ·) joined

/-- The sum of a short sequence. -/
def sumShort : List α → α
  | a :: b :: c :: d :: e :: f :: g :: h :: rest => sumLanes [a, b, c, d, e, f, g, h] rest
  | l => l.foldl (· + ·) zero

/-- The sum of the two halves of a sequence, or that of a short one. -/
def sumHalves (l : List α) : α :=
  if l.length ≤ 128 then sumShort l
  else
    -- the first half has a multiple of eight items
    let half := l.length / 16 * 8
    sumHalves (l.take half) + sumHalves (l.drop half)
termination_by l.length
decreasing_by
  · simp only [List.length_take]
    omega
  · simp only [List.length_drop]
    omega

/-- The sum of a sequence. It is added to zero, so that negative zeros sum up to a positive one. -/
def sum (l : List α) : α := zero + sumHalves l

def mean (l : List α) : α := sum l / natCast l.length

end Eikonal.Scalar
