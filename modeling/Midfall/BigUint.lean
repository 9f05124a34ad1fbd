import Midfall.CellPrograms
import Midfall.NativeDecomposition
import Midfall.ProofReadOrder

/-!
# Big unsigned integers

An assigned integer is a list of limbs in base `2^96`, each with a bound on its
size in bits. Constants have cached cells and a linear combination may return a
cell it was given, so operands can share cells; a product of operands whose
cells agree is a square.
-/

namespace Midfall.BigUint

open CircuitPrograms NativeGadget NativeDecomposition
open CellPrograms ProofReadOrder

def log2Base : Nat := 96

def base : Nat := 2 ^ log2Base

variable {modulus : Nat} [Fact modulus.Prime]

abbrev AssignedNative (modulus : Nat) := Assigned (ZMod modulus)

abbrev Program (modulus : Nat) (Result : Type) := Layout (ZMod modulus) Result

/-- Terms with a zero coefficient or the zero cell are dropped; a lone term is returned. -/
def linearCombination (terms : List (ZMod modulus × AssignedNative modulus))
    (constant : ZMod modulus) : Program modulus (AssignedNative modulus) :=
  let terms := terms.filter fun term => term.1 ≠ 0 ∧ term.2.cell ≠ .fixed 0
  match terms with
  | [] => constantCell constant
  | [(coeff, var)] =>
    if coeff = 1 ∧ constant = 0 then return var
    else fillCell (NativeGadget.linearCombination [(coeff, var.value)] constant)
  | _ => fillCell (NativeGadget.linearCombination
      (terms.map fun term => (term.1, term.2.value)) constant)

def add (x y : AssignedNative modulus) : Program modulus (AssignedNative modulus) :=
  linearCombination [(1, x), (1, y)] 0

/-- `x y + z`, with a factor on the product. -/
def addAndMul (x y z : AssignedNative modulus) (m : ZMod modulus) :
    Program modulus (AssignedNative modulus) :=
  fillCell (NativeGadget.addAndMul 0 x.value 0 y.value 1 z.value 0 m)

def mul (x y : AssignedNative modulus) : Program modulus (AssignedNative modulus) :=
  if x.cell = .fixed 1 then return y
  else if y.cell = .fixed 1 then return x
  else fillCell (NativeGadget.mul x.value y.value)

def not (b : AssignedNative modulus) : Program modulus (AssignedNative modulus) :=
  linearCombination [(-1, b)] 1

def foldBits (step : AssignedNative modulus → AssignedNative modulus →
    Program modulus (AssignedNative modulus)) :
    List (AssignedNative modulus) → Program modulus (AssignedNative modulus)
  | [] => stop
  | first :: rest => rest.foldlM step first

def and : List (AssignedNative modulus) → Program modulus (AssignedNative modulus) := foldBits mul

def or : List (AssignedNative modulus) → Program modulus (AssignedNative modulus) :=
  foldBits fun acc b =>
    fillCell (NativeGadget.addAndMul 1 acc.value 1 b.value 0 acc.value 0 (-1))

def assignLowerThanFixed (hint : Nat) (bound : Nat) : Program modulus (AssignedNative modulus) :=
  fillCell (NativeGadget.assignLowerThanFixed ((hint : Nat) : ZMod modulus) bound)

structure AssignedBigUint (modulus : Nat) where
  limbs : List (AssignedNative modulus)
  limbSizeBounds : List Nat

def bigToLimbs : Nat → Nat → Option (List Nat)
  | 0, value => if value = 0 then some [] else none
  | nbLimbs + 1, value => (bigToLimbs nbLimbs (value / base)).map fun limbs => value % base :: limbs

def bigFromLimbs (limbs : List Nat) : Nat :=
  limbs.reverse.foldl (fun acc limb => acc * base + limb) 0

/-- Bounds on two summands give a bound on the sum. -/
def boundOfAddition (bound1 bound2 : Nat) : Nat :=
  if bound1 = 0 then bound2 else if bound2 = 0 then bound1 else 1 + max bound1 bound2

namespace AssignedBigUint

def value (x : AssignedBigUint modulus) : Nat := bigFromLimbs (x.limbs.map fun limb => limb.value.val)

/-- Cell addresses, compared up to the end of the shorter operand. -/
def eq (x y : AssignedBigUint modulus) : Bool :=
  (x.limbs.zip y.limbs).all fun pair => decide (pair.1.cell = pair.2.cell)

/-- The bits of the largest integer with these bounds. -/
def nbBits (x : AssignedBigUint modulus) : Nat :=
  (x.limbSizeBounds.reverse.foldl (fun acc bound => acc * base + 2 ^ bound - 1) 0).size

def isNormalized (x : AssignedBigUint modulus) : Bool :=
  x.limbSizeBounds.all fun bound => decide (bound ≤ log2Base)

end AssignedBigUint

def biguintToLimbs (value : Nat) : List Nat :=
  (bigToLimbs ((value.size + log2Base - 1) / log2Base) value).getD []

/-- Append zeros up to a number of limbs. -/
def resize (n : Nat) (x : AssignedBigUint modulus) : Program modulus (AssignedBigUint modulus) :=
  if n < x.limbs.length then stop
  else do
    let zero ← constantCell 0
    return {
      limbs := x.limbs ++ List.replicate (n - x.limbs.length) zero
      limbSizeBounds := x.limbSizeBounds ++ List.replicate (n - x.limbSizeBounds.length) 0 }

/-- All limbs in the base but the last, which is restricted further. -/
def boundsOfBits (nbBits : Nat) : List Nat :=
  List.replicate ((max nbBits 1 + log2Base - 1) / log2Base - 1) log2Base ++
    [(nbBits - 1) % log2Base + 1]

/-- `nbBits - 1` underflows without bits. -/
def assignBounded (value nbBits : Nat) : Program modulus (AssignedBigUint modulus) :=
  if nbBits = 0 then stop
  else do
    let limbSizeBounds := boundsOfBits nbBits
    let hints := bigToLimbs limbSizeBounds.length value
    proverChecks hints.isSome
    let limbs ← ((hints.getD (List.replicate limbSizeBounds.length 0)).zip limbSizeBounds).mapM
      fun entry => assignLowerThanFixed entry.1 (2 ^ entry.2)
    return { limbs := limbs, limbSizeBounds := limbSizeBounds }

def assignBiguint (value nbBits : Nat) : Program modulus (AssignedBigUint modulus) :=
  assignBounded value nbBits

def assignFixedBiguint (constant : Nat) : Program modulus (AssignedBigUint modulus) := do
  let limbSizeBounds := boundsOfBits (max constant.size 1)
  let limbs ← ((bigToLimbs limbSizeBounds.length constant).getD []).mapM
    fun limb => constantCell ((limb : Nat) : ZMod modulus)
  return { limbs := limbs, limbSizeBounds := limbSizeBounds }

/-- `q base + r`, with bounds that leave no overflow. -/
def divRemNativeByBase (x : AssignedNative modulus) (xSizeBound : Nat) :
    Program modulus (AssignedNative modulus × AssignedNative modulus) :=
  if modulus.size ≤ xSizeBound then stop
  else do
    let q ← assignLowerThanFixed (x.value.val / base) (2 ^ (max xSizeBound log2Base - log2Base))
    let r ← assignLowerThanFixed (x.value.val % base) base
    let sum ← linearCombination [(((base : Nat) : ZMod modulus), q), (1, r)] 0
    emit (NativeGadget.assertEqual x.value sum.value)
    return (q, r)

structure Carrying (modulus : Nat) where
  carry : AssignedNative modulus
  carrySizeBound : Nat
  limbs : List (AssignedNative modulus)

def normalizeLimb (state : Carrying modulus) (limb : AssignedNative modulus × Nat) :
    Program modulus (Carrying modulus) := do
  let payload ← add state.carry limb.1
  let payloadBound := boundOfAddition state.carrySizeBound limb.2
  if modulus.size ≤ payloadBound then stop
  else
    let parts ← divRemNativeByBase payload payloadBound
    return {
      carry := parts.1
      carrySizeBound := max payloadBound log2Base - log2Base
      limbs := state.limbs ++ [parts.2] }

def normalize (x : AssignedBigUint modulus) : Program modulus (AssignedBigUint modulus) :=
  if x.isNormalized then return x
  else do
    let nbLimbsOutput := (x.nbBits + log2Base - 1) / log2Base
    let x ← resize nbLimbsOutput x
    let zero ← constantCell 0
    let outcome ← (x.limbs.zip x.limbSizeBounds).foldlM normalizeLimb
      { carry := zero, carrySizeBound := 0, limbs := [] }
    emit (NativeGadget.assertEqualToFixed outcome.carry.value 0)
    return {
      limbs := outcome.limbs
      limbSizeBounds := List.replicate nbLimbsOutput log2Base }

section

variable (x y : AssignedBigUint modulus)

def addBiguint : Program modulus (AssignedBigUint modulus) := do
  let n := min x.limbs.length y.limbs.length
  let limbs ← (x.limbs.zip y.limbs).mapM fun pair => add pair.1 pair.2
  normalize {
    limbs := limbs ++ x.limbs.drop n ++ y.limbs.drop n
    limbSizeBounds := (x.limbSizeBounds.take n).zipWith boundOfAddition (y.limbSizeBounds.take n) ++
      x.limbSizeBounds.drop n ++ y.limbSizeBounds.drop n }

def assertNormalized (x : AssignedBigUint modulus) : Program modulus Unit :=
  if x.isNormalized then return () else stop

def assertEqual : Program modulus Unit := do
  assertNormalized x
  assertNormalized y
  let n := max x.limbs.length y.limbs.length
  let x ← resize n x
  let y ← resize n y
  (x.limbs.zip y.limbs).forM fun pair => emit (NativeGadget.assertEqual pair.1.value pair.2.value)

def sub : Program modulus (AssignedBigUint modulus) := do
  let res ← assignBounded (x.value - y.value) x.nbBits
  let z ← addBiguint res y
  assertEqual x z
  return res

/-- The limbs of a product and their bounds, updated term by term. -/
structure Product (modulus : Nat) where
  limbs : List (AssignedNative modulus)
  limbSizeBounds : List Nat

/-- `limbs[k] += m x y`, with `bound` on the product. -/
def addProduct (m : ZMod modulus) (state : Product modulus) (position bound : Nat)
    (x y : AssignedNative modulus) : Program modulus (Product modulus) := do
  match state.limbs[position]?, state.limbSizeBounds[position]? with
  | some limb, some limbBound => do
    let sum ← addAndMul x y limb m
    return {
      limbs := state.limbs.set position sum
      limbSizeBounds := state.limbSizeBounds.set position (boundOfAddition limbBound bound) }
  | _, _ => stop

def emptyProduct (nbProdLimbs : Nat) : Program modulus (Product modulus) := do
  let zero ← constantCell 0
  return { limbs := List.replicate nbProdLimbs zero, limbSizeBounds := List.replicate nbProdLimbs 0 }

def Product.toBiguint (state : Product modulus) : AssignedBigUint modulus where
  limbs := state.limbs
  limbSizeBounds := state.limbSizeBounds

def entries (x : AssignedBigUint modulus) : List ((AssignedNative modulus × Nat) × Nat) :=
  (x.limbs.zip x.limbSizeBounds).zipIdx

/-- The products of one limb with a list of limbs. -/
def addRow (m : ZMod modulus) (extra : Nat) (x : (AssignedNative modulus × Nat) × Nat)
    (ys : List ((AssignedNative modulus × Nat) × Nat)) (state : Product modulus) :
    Program modulus (Product modulus) :=
  ys.foldlM (fun state y =>
    addProduct m state (x.2 + y.2) (extra + x.1.2 + y.1.2) x.1.1 y.1.1) state

/-- The number of limbs of a product underflows without limbs. -/
def square (x : AssignedBigUint modulus) : Program modulus (AssignedBigUint modulus) := do
  let x ← normalize x
  if x.limbs.length = 0 then stop
  else
    let start ← emptyProduct (2 * x.limbs.length - 1)
    let product ← (entries x).foldlM (fun state entry => do
      let diagonal ← addProduct 1 state (2 * entry.2) (2 * entry.1.2) entry.1.1 entry.1.1
      addRow ((2 : Nat) : ZMod modulus) 1 entry ((entries x).drop (entry.2 + 1)) diagonal) start
    normalize product.toBiguint

def mulBiguint : Program modulus (AssignedBigUint modulus) :=
  if x.eq y then square x
  else do
    let x ← normalize x
    let y ← normalize y
    if x.limbs.length + y.limbs.length = 0 then stop
    else
      let start ← emptyProduct (x.limbs.length + y.limbs.length - 1)
      let product ← (entries x).foldlM (fun state entry =>
        addRow 1 0 entry (entries y) state) start
      normalize product.toBiguint

/-- The lowest limb first: a later limb decides unless it is equal. -/
def geqLimb (acc : AssignedNative modulus) (pair : AssignedNative modulus × AssignedNative modulus) :
    Program modulus (AssignedNative modulus) := do
  let xiEqYi ← fillCell (NativeGadget.isEqual pair.1.value pair.2.value)
  let xiGreaterThanYi ← fillCell (greaterThan pair.1.value pair.2.value log2Base)
  let acc ← and [xiEqYi, acc]
  or [xiGreaterThanYi, acc]

def geq : Program modulus (AssignedNative modulus) := do
  assertNormalized x
  assertNormalized y
  let n := max x.limbs.length y.limbs.length
  let x ← resize n x
  let y ← resize n y
  let init ← constantCell 1
  (x.limbs.zip y.limbs).foldlM geqLimb init

def lowerThan : Program modulus (AssignedNative modulus) := do
  let isGeq ← geq x y
  not isGeq

def assertLowerThan : Program modulus Unit := do
  let b ← geq x y
  emit (NativeGadget.assertEqualToFixed b.value 0)

/-- Dividing by zero panics in the prover. -/
def divRem :
    Program modulus (AssignedBigUint modulus × AssignedBigUint modulus) := do
  proverChecks (decide (y.value ≠ 0))
  let q ← assignBounded (x.value / y.value) x.nbBits
  let r ← assignBounded (x.value % y.value) y.nbBits
  let qTimesY ← mulBiguint q y
  let qTimesYPlusR ← addBiguint qTimesY r
  assertEqual x qTimesYPlusR
  assertLowerThan r y
  return (q, r)

def isEqual : Program modulus (AssignedNative modulus) := do
  assertNormalized x
  assertNormalized y
  let n := max x.limbs.length y.limbs.length
  let x ← resize n x
  let y ← resize n y
  let bits ← (x.limbs.zip y.limbs).mapM fun pair =>
    fillCell (NativeGadget.isEqual pair.1.value pair.2.value)
  and bits

def isNotEqual : Program modulus (AssignedNative modulus) := do
  let b ← isEqual x y
  not b

end

def isEqualToFixed (x : AssignedBigUint modulus) (constant : Nat) :
    Program modulus (AssignedNative modulus) := do
  assertNormalized x
  let constantLimbs := biguintToLimbs constant
  if x.limbs.length < constantLimbs.length then constantCell 0
  else
    let padded := constantLimbs ++ List.replicate (x.limbs.length - constantLimbs.length) 0
    let bits ← (x.limbs.zip padded).mapM fun pair =>
      fillCell (NativeGadget.isEqualToFixed pair.1.value ((pair.2 : Nat) : ZMod modulus))
    and bits

def isNotEqualToFixed (x : AssignedBigUint modulus) (constant : Nat) :
    Program modulus (AssignedNative modulus) := do
  let b ← isEqualToFixed x constant
  not b

def select (cond : AssignedNative modulus) (x y : AssignedBigUint modulus) :
    Program modulus (AssignedBigUint modulus) := do
  let n := max x.limbs.length y.limbs.length
  let x ← resize n x
  let y ← resize n y
  let limbs ← (x.limbs.zip y.limbs).mapM fun pair =>
    fillCell (NativeGadget.select cond.value pair.1.value pair.2.value)
  return {
    limbs := limbs
    limbSizeBounds := x.limbSizeBounds.zipWith max y.limbSizeBounds }

def toLeBits (x : AssignedBigUint modulus) : Program modulus (List (AssignedNative modulus)) := do
  assertNormalized x
  let bits ← x.limbs.mapM fun limb => fillCells (assignedToLeBits limb.value (some log2Base) true)
  return bits.flatten

def toLeBytes (x : AssignedBigUint modulus) : Program modulus (List (AssignedNative modulus)) := do
  assertNormalized x
  let bytes ← x.limbs.mapM fun limb =>
    fillCells (decomposeFixedLimbSize limb.value (8 * (log2Base / 8)) 8)
  return bytes.flatten

def fromDigits (factor : ZMod modulus) (digits : List (AssignedNative modulus)) :
    Program modulus (AssignedNative modulus) :=
  linearCombination (digits.zipIdx.map fun entry => (factor ^ entry.2, entry.1)) 0

def fromLeBits (bits : List (AssignedNative modulus)) : Program modulus (AssignedBigUint modulus) := do
  let limbs ← (chunks log2Base bits).mapM (fromDigits ((2 : Nat) : ZMod modulus))
  return {
    limbs := limbs
    limbSizeBounds := (chunks log2Base bits).map List.length }

def fromLeBytes (bytes : List (AssignedNative modulus)) :
    Program modulus (AssignedBigUint modulus) := do
  let limbs ← (chunks (log2Base / 8) bytes).mapM (fromDigits ((256 : Nat) : ZMod modulus))
  return {
    limbs := limbs
    limbSizeBounds := (chunks (log2Base / 8) bytes).map fun chunk => 8 * chunk.length }

end Midfall.BigUint
