import Midfall.FieldIdentity

/-!
# The foreign field chip

`foreign/gates`: an element of the emulated field is a list of limbs; the integer
is one more than the limbs show, so that zero has one representation. A product
and a normalization are identities over limbs with bounds.
-/

namespace Midfall.FieldChip

open FieldIdentity

/-- Negative powers of the base are refused. -/
structure EmulationParams where
  emulated : Nat
  log2Base : Nat
  nbLimbs : Nat
  basePowers : List Nat
  doubleBasePowers : List Nat
  moduli : List Nat
  moduli_pos : ∀ mj ∈ moduli, 0 < mj
  maxLimbBound : Nat

def sumBigints (coeffs : List Nat) (values : List Int) : Int :=
  ((values.zip coeffs).map fun entry => (entry.2 : Int) * entry.1).sum

def pairWiseProd {Entry : Type} [Mul Entry] (v w : List Entry) : List Entry :=
  v.flatMap fun vi => w.map fun wj => vi * wj

/-- Panics when the limbs are not enough; no value is negative here. -/
def biToLimbs : Nat → Nat → Nat → Option (List Nat)
  | 0, _, value => if value = 0 then some [] else none
  | nbLimbs + 1, base, value =>
    (biToLimbs nbLimbs base (value / base)).map fun limbs => value % base :: limbs

def biFromLimbs (base : Nat) (limbs : List Int) : Int :=
  limbs.reverse.foldl (fun acc limb => acc * base + limb) 0

namespace EmulationParams

variable (params : EmulationParams)

def base : Nat := 2 ^ params.log2Base

def expectedPowers : List Nat := (List.range params.nbLimbs).map fun i => params.base ^ i

def expectedDoublePowers : List Nat :=
  (List.range params.nbLimbs).flatMap fun i => (List.range params.nbLimbs).map fun j =>
    params.base ^ (i + j)

/-- The powers are only compared modulo the emulated modulus. -/
def checkParams : Bool :=
  decide (1 < params.emulated) && decide (1 < params.base) &&
    decide (params.emulated ≤ params.base ^ params.nbLimbs) &&
      decide (params.basePowers.map (· % params.emulated) =
        params.expectedPowers.map (· % params.emulated)) &&
        decide (params.doubleBasePowers.map (· % params.emulated) =
          params.expectedDoublePowers.map (· % params.emulated))

def shifts : List Int := List.replicate params.nbLimbs (params.maxLimbBound : Int)

def limbsMax : List Int := List.replicate params.nbLimbs ((params.base : Int) - 1)

def basePowersMod (mj : Nat) : List Nat := params.basePowers.map (· % mj)

def doubleBasePowersMod (mj : Nat) : List Nat := params.doubleBasePowers.map (· % mj)

/-! The range of `sum_shifted_x - sum_z - sum_shifts`. -/

def normMin : Int :=
  -(sumBigints params.basePowers params.limbsMax) - sumBigints params.basePowers params.shifts

def normMax : Int :=
  sumBigints params.basePowers params.shifts + sumBigints params.basePowers params.shifts -
    sumBigints params.basePowers params.shifts

def normModMin (mj : Nat) : Int :=
  -(sumBigints (params.basePowersMod mj) params.limbsMax) -
    urem (sumBigints params.basePowers params.shifts) mj

def normModMax (mj : Nat) : Int :=
  sumBigints (params.basePowersMod mj) params.shifts +
    sumBigints (params.basePowersMod mj) params.shifts -
      urem (sumBigints params.basePowers params.shifts) mj

def normBounds (modulus nbParallelRangeChecks maxBitLen : Nat) : Option AuxiliaryBounds :=
  getIdentityAuxiliaryBounds nbParallelRangeChecks maxBitLen modulus params.emulated params.moduli
    (params.normMin, params.normMax)
    (params.moduli.map fun mj => (params.normModMin mj, params.normModMax mj))

/-! The range of `sum_xy + sum_x + sum_y - sum_z`. -/

def productsMax : List Int :=
  List.replicate (params.nbLimbs * params.nbLimbs) (((params.base : Int) - 1) ^ 2)

def mulMin : Int := -(sumBigints params.basePowers params.limbsMax)

def mulMax : Int :=
  sumBigints params.doubleBasePowers params.productsMax +
    sumBigints params.basePowers params.limbsMax + sumBigints params.basePowers params.limbsMax

def mulModMin (mj : Nat) : Int := -(sumBigints (params.basePowersMod mj) params.limbsMax)

def mulModMax (mj : Nat) : Int :=
  sumBigints (params.doubleBasePowersMod mj) params.productsMax +
    sumBigints (params.basePowersMod mj) params.limbsMax +
      sumBigints (params.basePowersMod mj) params.limbsMax

def mulBounds (modulus nbParallelRangeChecks maxBitLen : Nat) : Option AuxiliaryBounds :=
  getIdentityAuxiliaryBounds nbParallelRangeChecks maxBitLen modulus params.emulated params.moduli
    (params.mulMin, params.mulMax)
    (params.moduli.map fun mj => (params.mulModMin mj, params.mulModMax mj))

end EmulationParams

variable {modulus : Nat} (params : EmulationParams)

def sumExprs (coeffs : List Nat) (values : List (ZMod modulus)) : ZMod modulus :=
  ((values.zip coeffs).map fun entry => ((entry.2 : Nat) : ZMod modulus) * entry.1).sum

/-- An identity with its quotients: in the native field and by the auxiliary moduli. -/
def identityHolds (bounds : AuxiliaryBounds) (expr : ZMod modulus) (exprMod : Nat → ZMod modulus)
    (u : ZMod modulus) (vs : List (ZMod modulus)) : Prop :=
  expr - (u + (bounds.kMin : ZMod modulus)) * ((params.emulated : Nat) : ZMod modulus) = 0 ∧
    ∀ entry ∈ (params.moduli.zip bounds.vs).zip vs,
      exprMod entry.1.1 - u * ((urem params.emulated entry.1.1 : Int) : ZMod modulus) -
        ((urem (bounds.kMin * params.emulated) entry.1.1 : Int) : ZMod modulus) -
          (entry.2 + (entry.1.2.1 : ZMod modulus)) * ((entry.1.1 : Nat) : ZMod modulus) = 0

/-- The value of `sum_xy + sum_x + sum_y - sum_z` on integers. -/
def mulExpr (double single : List Nat) (xs ys zs : List Int) : Int :=
  sumBigints double (pairWiseProd xs ys) + sumBigints single xs + sumBigints single ys -
    sumBigints single zs

def mulCells (double single : List Nat) (xs ys zs : List (ZMod modulus)) : ZMod modulus :=
  sumExprs double (pairWiseProd xs ys) + sumExprs single xs + sumExprs single ys -
    sumExprs single zs

end Midfall.FieldChip
