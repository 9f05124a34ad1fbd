import Midfall.EdwardsCurves
import Midfall.NativeGadget
import Midfall.RegionPrograms

/-!
# The native Edwards chip

Points of a twisted Edwards curve over the native field. A conditional addition
fills one row; a doubling reads its row and writes to the next one, so that the
rows of a multiplication overlap. Scalars are little-endian vectors of bits.
-/

namespace Midfall.EdwardsChip

open CircuitPrograms EdwardsCurves NativeGadget RegionPrograms

variable {modulus : Nat} [Fact modulus.Prime]

/-- The coordinates, and whether the point is constrained to be in the subgroup. -/
@[ext]
structure AssignedNativePoint (modulus : Nat) where
  x : ZMod modulus
  y : ZMod modulus
  inSubgroup : Bool
  deriving DecidableEq

abbrev AssignedScalar (modulus : Nat) := List (ZMod modulus)

/-- `Q = 2 P`, with `Q` in the next row. -/
def doubleGate (d : ZMod modulus) : Gate (ZMod modulus) := fun query =>
  let xp := query 5 0
  let yp := query 6 0
  let xq := query 0 1
  let yq := query 1 1
  let xpXp := query 7 0
  let xpYp := xp * yp
  let ypYp := yp * yp
  let dXpXpYpYp := d * xpXp * ypYp
  [xq * (1 + dXpXpYpYp) - (xpYp + xpYp), yq * (1 - dXpXpYpYp) - (ypYp + xpXp), xp * xp - xpXp]

/-- `R = Q + b S`, in one row. -/
def condAddGate (d : ZMod modulus) : Gate (ZMod modulus) := fun query =>
  let xq := query 0 0
  let yq := query 1 0
  let xs := query 2 0
  let ys := query 3 0
  let xr := query 5 0
  let yr := query 6 0
  let b := query 4 0
  let xqYqXsYs := query 8 0
  let bDXqXsYqYs := b * d * xqYqXsYs
  [xr * (1 + bDXqXsYqYs) - (xq + b * (xq * ys + xs * yq - xq)),
    yr * (1 - bDXqXsYqYs) - (yq + b * (yq * ys + xq * xs - yq)),
    xqYqXsYs - xq * yq * xs * ys]

def membershipGate (d : ZMod modulus) : Gate (ZMod modulus) := fun query =>
  let x := query 0 0
  let y := query 1 0
  let x2 := x * x
  let y2 := y * y
  [y2 - x2 - (1 + d * x2 * y2)]

variable (C : EdwardsCurve (ZMod modulus))

/-- The prover's point of a pair of cells; it panics off the curve. -/
def curveValue (point : AssignedNativePoint modulus) : Option C.Point := C.fromXY point.x point.y

/-- The coordinates of `P + b Q`. -/
def pPlusBQ (p q : Option C.Point) (b : Bool) : Option (ZMod modulus × ZMod modulus) := do
  let p ← p
  let q ← q
  return C.coordinates (if b then p + q else p)

def coordinateProduct (p q : Option C.Point) : Option (ZMod modulus) := do
  let p ← p
  let q ← q
  return (C.coordinates p).1 * (C.coordinates p).2 * (C.coordinates q).1 * (C.coordinates q).2

/-- `R = Q + b S`, for inputs that are already in the row. -/
def condAdd (offset : Nat) (q s : AssignedNativePoint modulus) (b : ZMod modulus) :
    Region (ZMod modulus) (AssignedNativePoint modulus) := do
  enable (condAddGate C.d) offset
  let r := pPlusBQ C (curveValue C q) (curveValue C s) (b ≠ 0)
  let xr ← assignAdvice 5 offset (r.map Prod.fst)
  let yr ← assignAdvice 6 offset (r.map Prod.snd)
  let _ ← assignAdvice 8 offset (coordinateProduct C (curveValue C q) (curveValue C s))
  return { x := xr, y := yr, inSubgroup := q.inSubgroup && s.inSubgroup }

/-- `R = 2 (P + b Q)`, for inputs that are already in the row; `R` goes to the next row. -/
def addThenDouble (offset : Nat) (p q : AssignedNativePoint modulus) (b : ZMod modulus) :
    Region (ZMod modulus) (AssignedNativePoint modulus) := do
  enable (condAddGate C.d) offset
  enable (doubleGate C.d) offset
  let s := pPlusBQ C (curveValue C p) (curveValue C q) (b ≠ 0)
  let _ ← assignAdvice 5 offset (s.map Prod.fst)
  let _ ← assignAdvice 6 offset (s.map Prod.snd)
  let r := do
    let s ← s
    let s ← C.fromXY s.1 s.2
    return C.coordinates (s + s)
  let xr ← assignAdvice 0 (offset + 1) (r.map Prod.fst)
  let yr ← assignAdvice 1 (offset + 1) (r.map Prod.snd)
  let _ ← assignAdvice 7 offset (s.map fun s => s.1 * s.1)
  let _ ← assignAdvice 8 offset (coordinateProduct C (curveValue C p) (curveValue C q))
  return { x := xr, y := yr, inSubgroup := p.inSubgroup && q.inSubgroup }

/-- One bit of a multiplication: the last row adds but does not double. -/
def mulRow (length : Nat) (base acc : AssignedNativePoint modulus) (entry : ZMod modulus × Nat) :
    Region (ZMod modulus) (AssignedNativePoint modulus) := do
  let _ ← copyAdvice base.x 2 entry.2
  let _ ← copyAdvice base.y 3 entry.2
  let _ ← copyAdvice entry.1 4 entry.2
  if entry.2 < length - 1 then addThenDouble C entry.2 acc base entry.1
  else condAdd C entry.2 acc base entry.1

def mulRegion (scalarBe : List (ZMod modulus)) (base identity : AssignedNativePoint modulus) :
    Region (ZMod modulus) (AssignedNativePoint modulus) := do
  let _ ← copyAdvice identity.x 0 0
  let _ ← copyAdvice identity.y 1 0
  scalarBe.zipIdx.foldlM (mulRow C scalarBe.length base) identity

def assignFixedPoint (constant : C.subgroup) : Circuit (AssignedNativePoint modulus) := do
  let x ← assignFixed (C.coordinates constant).1
  let y ← assignFixed (C.coordinates constant).2
  return { x := x, y := y, inSubgroup := true }

/-- Double and add from the most significant bit. -/
def mul (scalar : AssignedScalar modulus) (base : AssignedNativePoint modulus) :
    Circuit (AssignedNativePoint modulus) := do
  let identity ← assignFixedPoint C 0
  assignRegion (mulRegion C scalar.reverse base identity)

def add (p q : AssignedNativePoint modulus) : Circuit (AssignedNativePoint modulus) := do
  let b ← assignFixed (bit true)
  assignRegion do
    let _ ← copyAdvice p.x 0 0
    let _ ← copyAdvice p.y 1 0
    let _ ← copyAdvice q.x 2 0
    let _ ← copyAdvice q.y 3 0
    let _ ← copyAdvice b 4 0
    condAdd C 0 p q b

def double (p : AssignedNativePoint modulus) : Circuit (AssignedNativePoint modulus) := add C p p

def negate (p : AssignedNativePoint modulus) : Circuit (AssignedNativePoint modulus) := do
  let x ← linearCombination [(-1, p.x)] 0
  return { x := x, y := p.y, inSubgroup := p.inSubgroup }

/-- The products of paired scalars and bases, added from the first on; none is a panic. -/
def msm (scalars : List (AssignedScalar modulus)) (bases : List (AssignedNativePoint modulus)) :
    Circuit (AssignedNativePoint modulus) := do
  let scaled ← (scalars.zip bases).mapM fun entry => mul C entry.1 entry.2
  match scaled with
  | [] => panic
  | first :: rest => rest.foldlM (fun acc point => add C acc point) first

def toBitsLe (nbBytes value : Nat) : List Bool :=
  let allBits := (List.range (8 * nbBytes)).map value.testBit
  let last := (allBits.reverse.findIdx? id).elim 0 fun fromEnd => allBits.length - 1 - fromEnd
  allBits.take (last + 1)

def assignFixedScalar (constant : ZMod C.order) : Circuit (AssignedScalar modulus) :=
  (toBitsLe C.scalarBytes constant.val).mapM fun value => assignFixed (bit value)

def mulByConstant (scalar : ZMod C.order) (base : AssignedNativePoint modulus) :
    Circuit (AssignedNativePoint modulus) :=
  if scalar = 0 then assignFixedPoint C 0
  else if scalar = 1 then return base
  else do
    let s ← assignFixedScalar C scalar
    msm C [s] [base]

def clearCofactor (point : AssignedNativePoint modulus) :
    Circuit (AssignedNativePoint modulus) := do
  if point.inSubgroup then panic
  let r ← mulByConstant C (C.cofactor : ZMod C.order) point
  return { x := r.x, y := r.y, inSubgroup := true }

def cofactorRoot (p : C.subgroup) : Option C.Point :=
  if (C.cofactor : ZMod C.order) = 0 then none
  else some (((C.cofactor : ZMod C.order)⁻¹).val • (p : C.Point))

def assignPoint (value : Option C.subgroup) : Circuit (AssignedNativePoint modulus) := do
  let root := (value.bind (cofactorRoot C)).map C.coordinates
  let cfRoot ← assignRegion do
    enable (membershipGate C.d) 0
    let x ← assignAdvice 0 0 (root.map Prod.fst)
    let y ← assignAdvice 1 0 (root.map Prod.snd)
    return { x := x, y := y, inSubgroup := false }
  clearCofactor C cfRoot

/-- The prover's point of the subgroup; it panics elsewhere. -/
def intoSubgroup (p : C.Point) : Option C.subgroup :=
  if member : p ∈ C.subgroup then some ⟨p, member⟩ else none

def pointFromCoordinates (x y : ZMod modulus) : Circuit (AssignedNativePoint modulus) := do
  let value := (C.fromXY x y).bind (intoSubgroup C)
  let point ← assignPoint C value
  assertEqual x point.x
  assertEqual y point.y
  return point

end Midfall.EdwardsChip
