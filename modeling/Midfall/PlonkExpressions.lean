import Midfall.PlonkConstraintSystem

/-!
# Expressions over columns

The identities of a circuit are expressions over queries.
-/

namespace Midfall.PlonkExpressions

open PlonkConstraintSystem

/-- A virtual column before it becomes a fixed one. -/
structure Selector where
  index : Nat
  isSimple : Bool
  deriving DecidableEq, Repr

/-- A query stands for its index among the queries of its kind. -/
inductive Expression (F : Type) where
  | constant (scalar : F)
  | selector (selector : Selector)
  | fixed (query : QueryKey)
  | advice (query : QueryKey)
  | instance (query : QueryKey)
  | challenge (index : Nat)
  | negated (a : Expression F)
  | sum (a b : Expression F)
  | product (a b : Expression F)
  | scaled (a : Expression F) (f : F)
  deriving DecidableEq, Repr

structure Closures (F T : Type) where
  constant : F → T
  selectorColumn : Selector → T
  fixedColumn : QueryKey → T
  adviceColumn : QueryKey → T
  instanceColumn : QueryKey → T
  challenge : Nat → T
  negated : T → T
  sum : T → T → T
  product : T → T → T
  scaled : T → F → T

namespace Expression

variable {F T : Type}

def evaluate (closures : Closures F T) : Expression F → T
  | .constant scalar => closures.constant scalar
  | .selector virtual => closures.selectorColumn virtual
  | .fixed query => closures.fixedColumn query
  | .advice query => closures.adviceColumn query
  | .instance query => closures.instanceColumn query
  | .challenge index => closures.challenge index
  | .negated a => closures.negated (evaluate closures a)
  | .sum a b => closures.sum (evaluate closures a) (evaluate closures b)
  | .product a b => closures.product (evaluate closures a) (evaluate closures b)
  | .scaled a f => closures.scaled (evaluate closures a) f

def degree : Expression F → Nat
  | .constant _ => 0
  | .selector _ => 1
  | .fixed _ => 1
  | .advice _ => 1
  | .instance _ => 1
  | .challenge _ => 0
  | .negated poly => poly.degree
  | .sum a b => max a.degree b.degree
  | .product a b => a.degree + b.degree
  | .scaled poly _ => poly.degree

end Expression

/-- The values of the columns and challenges at a point. -/
structure Point (F : Type) where
  selector : Selector → F
  fixed : QueryKey → F
  advice : QueryKey → F
  instances : QueryKey → F
  challenge : Nat → F

namespace Expression

variable {F : Type} [Field F]

def valueClosures (point : Point F) : Closures F F where
  constant := fun scalar => scalar
  selectorColumn := point.selector
  fixedColumn := point.fixed
  adviceColumn := point.advice
  instanceColumn := point.instances
  challenge := point.challenge
  negated := fun a => -a
  sum := fun a b => a + b
  product := fun a b => a * b
  scaled := fun a scalar => a * scalar

def value (point : Point F) (expression : Expression F) : F := expression.evaluate (valueClosures point)

end Expression

end Midfall.PlonkExpressions
