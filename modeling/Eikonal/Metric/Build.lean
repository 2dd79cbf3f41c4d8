import Eikonal.Metric.Field

/-! Metric fields from slownesses: the same in all directions, or given along a principal direction
and across it. -/

namespace Eikonal

/-- A slowness: one for all cells, or one for each. -/
inductive Slowness (α : Type) where
  | uniform (s : α)
  | perCell (s : Array α)

namespace Slowness

variable {α : Type} [Scalar α]

/-- The squared slownesses times the tensors. A single slowness that overflows when squared is an
error. -/
def weigh (s : Slowness α) (m : Array (Tensor α)) : Except ArrayError (Array (Tensor α)) :=
  match s with
  | uniform s =>
    if Scalar.isFinite s && !Scalar.isFinite (s * s) then .error .overflow
    else .ok (m.map (Tensor.scale (s * s)))
  | perCell l => NdArray.zipSpread (fun s t => t.scale (s * s)) l m

end Slowness

namespace MetricField

variable {α : Type} [Scalar α]

/-- The vector in units of `norm`, or the x axis if `norm` is not positive. -/
def unitIn (norm : α) (d : Vec α) : Vec α :=
  if Scalar.lt Scalar.zero norm then ⟨d.x / norm, d.y / norm⟩ else ⟨Scalar.one, Scalar.zero⟩

/-- The unit vector along `d`; the x axis for a zero vector. -/
def direction (d : Vec α) : Vec α := unitIn d.norm d

/-- The tensors with slowness `along` in the unit directions `u` and slowness `across` in their
quarter turns. -/
def ofUnits (u : Array (Vec α)) (along across : Slowness α) :
    Except ArrayError (MetricField α) := do
  let a ← along.weigh (u.map Tensor.outer)
  let b ← across.weigh (u.map fun d => Tensor.outer d.turned)
  NdArray.zipSpread (· + ·) a b

/-- The tensors with the given principal directions, of any length. -/
def ofDirections (d : Array (Vec α)) (along across : Slowness α) :
    Except ArrayError (MetricField α) :=
  ofUnits (d.map direction) along across

/-- The unit directions in the rows of a table. A row of one number stands for both coordinates of
its direction, and its length is that of the one number. With more axes there are no rows, and the
second axis is too short to hold two coordinates or the last one does not fit. -/
def unitRows (a : NdArray α) : Except ArrayError (Array (Vec α)) :=
  match a.shape with
  | [_, 2] => .ok ((a.groups 2).map fun g =>
      direction ⟨g.getD 0 Scalar.zero, g.getD 1 Scalar.zero⟩)
  | [_, 1] => .ok (a.items.map fun x => unitIn (Scalar.sqrt (x * x)) ⟨x, x⟩)
  | [] => .error .noAxis
  | [_] => .error .noAxis
  | _ :: second :: rest =>
    let last := rest.getLastD second
    if second < 2 && (last = 1 || last = 2) && !rest.isEmpty then .error .outOfRange
    else .error .mismatch

/-- The same tensor in every cell, with its principal direction at the angle `theta`. -/
def constant (memory : Memory) (cells : Int) (along across : Slowness α) (theta : α) :
    Except ArrayError (MetricField α) := do
  if (Memory.addressRange : Int) ≤ cells then throw .overflow
  NdArray.checkSizes memory 16 [cells]
  ofDirections (Array.replicate cells.toNat ⟨Scalar.cos theta, Scalar.sin theta⟩) along across

/-- The same slowness in every direction; one slowness for all cells or one for each. -/
def isotropic (memory : Memory) (cells : Int) (slowness : NdArray α) :
    Except ArrayError (MetricField α) := do
  if cells < 0 then throw .negativeSize
  if slowness.shape = [] || slowness.shape = [1] then NdArray.checkSizes memory 32 [cells]
  let values ← slowness.spread cells.toNat
  return values.map fun s => ⟨s * s, Scalar.zero, Scalar.zero, s * s⟩

end MetricField

end Eikonal
