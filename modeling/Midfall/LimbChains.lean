import Midfall.YulEvaluator

/-!
# Chains of limbs in Yul lines

Seven limbs that are added up by twelve lines are replaced by one call. The
products and the sums before the last one are not assigned any more; they must
not be read by anything else.
-/

namespace Midfall.LimbChains

open ListLoops (mem_of_lookup)
open PlonkExpressions List
open ScalarField (scalarModulus addmod mulmod)
open VerifierData (Ptr Word)
open YulLines YulEvaluator

/-! ### Recognition -/

abbrev ConstVars := List (Name × Nat)

/-- A literal, or what is recorded of a variable. -/
def yulConstValue (value : YulValue) (constVars : ConstVars) : Option Nat :=
  match value with
  | .literal value => some value
  | .name name => constVars.lookup name
  | _ => none

def recordYulConstAssignment (line : Line) (constVars : ConstVars) : ConstVars :=
  match line with
  | .assign dst rhs =>
    match yulConstValue rhs constVars with
    | some value => (dst, value) :: constVars
    | none => constVars
  | .call _ _ _ _ => constVars

def yulMulmodAssignment : Line → Option (Name × YulValue × YulValue)
  | .assign dst (.mulmod lhs rhs) => some (dst, lhs, rhs)
  | _ => none

def yulAddmodAssignment : Line → Option (Name × YulValue × YulValue)
  | .assign dst (.addmod lhs rhs) => some (dst, lhs, rhs)
  | _ => none

def parseLimb7MulAssignment (line : Line) (expectedCoeff : Nat) (constVars : ConstVars) :
    Option (Name × YulValue) := do
  let (dst, lhs, rhs) ← yulMulmodAssignment line
  if yulConstValue lhs constVars = some expectedCoeff then some (dst, rhs)
  else if yulConstValue rhs constVars = some expectedCoeff then some (dst, lhs)
  else none

/-- The lines that are kept before a product, the product, and what follows. -/
structure LimbProduct where
  kept : List Line
  mulDst : Name
  mulArg : YulValue
  rest : List Line
  localConsts : ConstVars

/-- At most four lines are skipped; all of them are assignments. -/
def findLimbProduct (coeff : Nat) (skipped : Nat) (localConsts : ConstVars) : List Line → Option LimbProduct
  | [] => none
  | line :: lines =>
    if skipped > 4 then none
    else
      match parseLimb7MulAssignment line coeff localConsts with
      | some (mulDst, mulArg) => some { kept := [], mulDst, mulArg, rest := lines, localConsts }
      | none =>
        (findLimbProduct coeff (skipped + 1) (recordYulConstAssignment line localConsts) lines).map
          fun product => { product with kept := line :: product.kept }

structure LimbStep where
  kept : List Line
  mulDst : Name
  mulArg : YulValue
  addDst : Name
  deriving DecidableEq, Repr

def otherSummand (mulDst : Name) (lhs rhs : YulValue) : Option YulValue :=
  if lhs = .name mulDst then some rhs
  else if rhs = .name mulDst then some lhs
  else none

/-- A product and the sum after it, with the other summand and what follows. -/
def limbStep (coeff : Nat) (localConsts : ConstVars) (lines : List Line) :
    Option (LimbStep × YulValue × List Line × ConstVars) := do
  let product ← findLimbProduct coeff 0 localConsts lines
  let (addDst, lhs, rhs) ← product.rest.head?.bind yulAddmodAssignment
  let addend ← otherSummand product.mulDst lhs rhs
  return ({ kept := product.kept, mulDst := product.mulDst, mulArg := product.mulArg, addDst }, addend,
    product.rest.tail, product.localConsts)

/-- The steps after the first one continue its sum; the last sum is the one of the chain. -/
def laterLimbSteps (previousAcc : Name) (localConsts : ConstVars) (lines : List Line) :
    List Nat → Option (List LimbStep × Name × List Line × ConstVars)
  | [] => some ([], previousAcc, lines, localConsts)
  | coeff :: coeffs => do
    let (step, addend, rest, localConsts) ← limbStep coeff localConsts lines
    if addend = .name previousAcc then
      let (steps, finalAcc, rest, localConsts) ← laterLimbSteps step.addDst localConsts rest coeffs
      return (step :: steps, finalAcc, rest, localConsts)
    else none

structure LimbChain where
  helper : LimbHelper
  x0 : YulValue
  first : LimbStep
  later : List LimbStep
  finalAcc : Name
  localConsts : ConstVars
  deriving DecidableEq, Repr

namespace LimbChain

def steps (chain : LimbChain) : List LimbStep := chain.first :: chain.later

def consumed (chain : LimbChain) : Nat := (chain.steps.map fun step => step.kept.length + 2).sum

def keep (chain : LimbChain) : List Line := chain.steps.flatMap LimbStep.kept

def call (chain : LimbChain) : Line :=
  .call chain.finalAcc chain.helper chain.x0 (chain.steps.map LimbStep.mulArg)

end LimbChain

def tryLimb7Chain (lines : List Line) (constVars : ConstVars) (helper : LimbHelper) : Option LimbChain :=
  match helper.coeffs with
  | [] => none
  | coeff :: coeffs => do
    let (first, x0, rest, localConsts) ← limbStep coeff constVars lines
    let (later, finalAcc, _, localConsts) ← laterLimbSteps first.addDst localConsts rest coeffs
    return { helper, x0, first, later, finalAcc, localConsts }

/-- A line that is copied, or a chain that is replaced. -/
inductive Segment where
  | line (line : Line)
  | chain (chain : LimbChain)
  deriving DecidableEq, Repr

def Segment.output : Segment → List Line
  | line copied => [copied]
  | chain limbs => limbs.keep ++ [limbs.call]

/-- The loop over the lines; the lines of a chain are skipped. -/
def segments (constVars : ConstVars) (skip : Nat) : List Line → List Segment
  | [] => []
  | line :: lines =>
    match skip with
    | skip + 1 => segments constVars skip lines
    | 0 =>
      match tryLimb7Chain (line :: lines) constVars .limb7 <|>
          tryLimb7Chain (line :: lines) constVars .limb7Wide with
      | some chain => .chain chain :: segments chain.localConsts (chain.consumed - 1) lines
      | none => .line line :: segments (recordYulConstAssignment line constVars) 0 lines

def specializeLimb7Chains (lines : List Line) : List Line := (segments [] 0 lines).flatMap Segment.output

/-! ### What is read outside the sums -/

/-- The sums that are continued, and the products. -/
def intermediates (previousAcc : Name) : List LimbStep → List Name
  | [] => []
  | step :: steps => previousAcc :: step.mulDst :: intermediates step.addDst steps

def Segment.dropped : Segment → List Name
  | line _ => []
  | chain limbs => limbs.first.mulDst :: intermediates limbs.first.addDst limbs.later

/-- What is read besides the sums of a chain and its products. -/
def Segment.reads : Segment → List Name
  | line copied => copied.names
  | chain limbs => limbs.keep.flatMap Line.names ++ (limbs.x0.names ++
      (limbs.steps.map LimbStep.mulArg).flatMap YulValue.names)

/-- Products and partial sums of a chain are read by its sums only. -/
def ChainsPrivate (lines : List Line) (result : Name) : Prop :=
  ∀ name ∈ (segments [] 0 lines).flatMap Segment.dropped,
    name ∉ (segments [] 0 lines).flatMap Segment.reads ∧ name ≠ result

instance (lines : List Line) (result : Name) : Decidable (ChainsPrivate lines result) :=
  inferInstanceAs (Decidable (∀ name ∈ (segments [] 0 lines).flatMap Segment.dropped,
    name ∉ (segments [] 0 lines).flatMap Segment.reads ∧ name ≠ result))

/-- The rewritten lines run, and every variable that they assign has the value it had, the result among
them. -/
def Preserves (lines : List Line) (result : Name) : Prop :=
  ∀ memory, ∃ env after, run memory lines noVariables = some env ∧
    run memory (specializeLimb7Chains lines) noVariables = some after ∧
    (∀ name, (after name).isSome = true → after name = env name) ∧ after result = env result

/-! ### Windows -/

structure StepLines (coeff : Nat) (consts : ConstVars) (step : LimbStep) (addend : YulValue) (lines rest : List Line)
    (later : ConstVars) : Prop where
  consts_later : later = step.kept.foldl (fun consts line => recordYulConstAssignment line consts) consts
  window : ∃ factor product sum, lines = step.kept ++ .assign step.mulDst product :: .assign step.addDst sum :: rest ∧
    yulConstValue factor later = some coeff ∧
    (product = .mulmod factor step.mulArg ∨ product = .mulmod step.mulArg factor) ∧
    (sum = .addmod (.name step.mulDst) addend ∨ sum = .addmod addend (.name step.mulDst))

variable {coeff : Nat} {consts later : ConstVars} {lines rest : List Line}

theorem parse_mul_spec {line : Line} {dst : Name} {arg : YulValue}
    (found : parseLimb7MulAssignment line coeff consts = some (dst, arg)) :
    ∃ factor product, line = .assign dst product ∧ yulConstValue factor consts = some coeff ∧
      (product = .mulmod factor arg ∨ product = .mulmod arg factor) := by
  rcases bind_some_iff.mp found with ⟨⟨name, lhs, rhs⟩, parsed, matched⟩
  have shape : line = .assign name (.mulmod lhs rhs) := by
    unfold yulMulmodAssignment at parsed
    split at parsed
    · cases parsed
      rfl
    · cases parsed
  dsimp only at matched
  split_ifs at matched with left right
  · cases matched
    exact ⟨lhs, _, shape, left, Or.inl rfl⟩
  · cases matched
    exact ⟨rhs, _, shape, right, Or.inr rfl⟩

theorem find_product_spec {skipped : Nat} {product : LimbProduct}
    (found : findLimbProduct coeff skipped consts lines = some product) :
    product.localConsts = product.kept.foldl (fun consts line => recordYulConstAssignment line consts) consts ∧
      ∃ line, lines = product.kept ++ line :: product.rest ∧
        parseLimb7MulAssignment line coeff product.localConsts = some (product.mulDst, product.mulArg) := by
  induction lines generalizing skipped consts product with
  | nil => cases found
  | cons line lines ih =>
    rw [findLimbProduct] at found
    split_ifs at found
    cases parsed : parseLimb7MulAssignment line coeff consts with
    | some pair =>
      rw [parsed] at found
      cases found
      exact ⟨rfl, line, rfl, parsed⟩
    | none =>
      rw [parsed] at found
      rcases Option.map_eq_some_iff.mp found with ⟨later, laterIs, rfl⟩
      rcases ih laterIs with ⟨consts_, next, shape, read⟩
      refine ⟨consts_, next, ?_, read⟩
      rw [shape]
      rfl

variable {addend : YulValue} {step : LimbStep}

theorem limb_step_spec (found : limbStep coeff consts lines = some (step, addend, rest, later)) :
    StepLines coeff consts step addend lines rest later := by
  rcases bind_some_iff.mp found with ⟨product, productIs, sum⟩
  rcases bind_some_iff.mp sum with ⟨⟨addDst, lhs, rhs⟩, added, chosen⟩
  rcases bind_some_iff.mp chosen with ⟨other, otherIs, same⟩
  cases same
  rcases find_product_spec productIs with ⟨consts_, line, shape, parsed⟩
  rcases parse_mul_spec parsed with ⟨factor, value, rfl, constant, multiplied⟩
  rcases bind_some_iff.mp added with ⟨next, nextIs, addParsed⟩
  have addShape : next = .assign addDst (.addmod lhs rhs) := by
    unfold yulAddmodAssignment at addParsed
    split at addParsed
    · cases addParsed
      rfl
    · cases addParsed
  have restShape : product.rest = next :: product.rest.tail := (cons_head?_tail nextIs).symm
  refine ⟨consts_, factor, value, .addmod lhs rhs, ?_, constant, multiplied, ?_⟩
  · rw [shape, restShape, addShape]
    rfl
  · unfold otherSummand at otherIs
    split_ifs at otherIs with left right
    · cases otherIs
      exact Or.inl (by rw [left])
    · cases otherIs
      exact Or.inr (by rw [right])

inductive StepsLines : List Nat → ConstVars → Name → List LimbStep → Name → List Line → List Line → ConstVars → Prop
  | nil (consts : ConstVars) (previous : Name) (lines : List Line) :
      StepsLines [] consts previous [] previous lines lines consts
  | cons {coeff : Nat} {coeffs : List Nat} {consts between later : ConstVars} {previous final : Name} {step : LimbStep}
      {steps : List LimbStep} {lines middle rest : List Line} :
      StepLines coeff consts step (.name previous) lines middle between →
      StepsLines coeffs between step.addDst steps final middle rest later →
      StepsLines (coeff :: coeffs) consts previous (step :: steps) final lines rest later

variable {coeffs : List Nat} {previous final : Name} {steps : List LimbStep}

theorem later_steps_spec
    (found : laterLimbSteps previous consts lines coeffs = some (steps, final, rest, later)) :
    StepsLines coeffs consts previous steps final lines rest later := by
  induction coeffs generalizing consts previous lines steps with
  | nil =>
    cases found
    exact StepsLines.nil _ _ _
  | cons coeff coeffs ih =>
    rcases bind_some_iff.mp found with ⟨⟨step, addend, middle, between⟩, stepIs, next⟩
    dsimp only at next
    split_ifs at next with continued
    rcases bind_some_iff.mp next with ⟨⟨others, last, after, consts_⟩, othersIs, same⟩
    cases same
    have here := limb_step_spec stepIs
    rw [continued] at here
    exact StepsLines.cons here (ih othersIs)

structure ChainLines (consts : ConstVars) (chain : LimbChain) (lines rest : List Line) : Prop where
  steps : ∃ coeff coeffs middle between, chain.helper.coeffs = coeff :: coeffs ∧
    StepLines coeff consts chain.first chain.x0 lines middle between ∧
    StepsLines coeffs between chain.first.addDst chain.later chain.finalAcc middle rest chain.localConsts

theorem try_chain_spec {helper : LimbHelper} {chain : LimbChain}
    (found : tryLimb7Chain lines consts helper = some chain) :
    ∃ rest, ChainLines consts chain lines rest := by
  unfold tryLimb7Chain at found
  split at found
  · cases found
  · rename_i coeff coeffs shape
    rcases bind_some_iff.mp found with ⟨⟨first, x0, middle, between⟩, firstIs, next⟩
    rcases bind_some_iff.mp next with ⟨⟨later, finalAcc, rest, localConsts⟩, laterIs, same⟩
    cases same
    exact ⟨rest, ⟨coeff, coeffs, middle, between, shape, limb_step_spec firstIs, later_steps_spec laterIs⟩⟩

theorem StepLines.rest_eq (here : StepLines coeff consts step addend lines rest later) :
    rest = lines.drop (step.kept.length + 2) := by
  rcases here.window with ⟨factor, product, sum, rfl, -⟩
  rw [drop_length_add_append]
  rfl

theorem StepsLines.rest_eq (here : StepsLines coeffs consts previous steps final lines rest later) :
    rest = lines.drop (steps.map fun step => step.kept.length + 2).sum := by
  induction here with
  | nil consts previous lines => rfl
  | cons step _ ih => rw [map_cons, sum_cons, ih, step.rest_eq, drop_drop]

theorem ChainLines.rest_eq {chain : LimbChain} (here : ChainLines consts chain lines rest) :
    rest = lines.drop chain.consumed := by
  rcases here.steps with ⟨coeff, coeffs, middle, between, -, first, later⟩
  rw [LimbChain.consumed, LimbChain.steps, map_cons, sum_cons, later.rest_eq, first.rest_eq, drop_drop]

inductive Scan : ConstVars → List Line → List Segment → Prop
  | nil (consts : ConstVars) : Scan consts [] []
  | line {consts : ConstVars} {line : Line} {lines : List Line} {others : List Segment} :
      Scan (recordYulConstAssignment line consts) lines others → Scan consts (line :: lines) (.line line :: others)
  | chain {consts : ConstVars} {chain : LimbChain} {lines rest : List Line} {others : List Segment} :
      ChainLines consts chain lines rest → Scan chain.localConsts rest others →
        Scan consts lines (.chain chain :: others)

theorem consumed_pos (chain : LimbChain) : 0 < chain.consumed := by
  rw [LimbChain.consumed, LimbChain.steps, map_cons, sum_cons]
  omega

theorem segments_scan (consts : ConstVars) (skip : Nat) (lines : List Line) :
    Scan consts (lines.drop skip) (segments consts skip lines) := by
  induction lines generalizing consts skip with
  | nil =>
    rw [drop_nil, segments]
    exact Scan.nil consts
  | cons line lines ih =>
    cases skip with
    | succ skip =>
      rw [segments]
      exact ih consts skip
    | zero =>
      rw [segments]
      split
      · rename_i chain found
        have window : ∃ rest, ChainLines consts chain (line :: lines) rest := by
          rcases (Option.orElse_eq_some _ _ _).mp found with narrow | ⟨-, wide⟩
          · exact try_chain_spec narrow
          · exact try_chain_spec wide
        rcases window with ⟨rest, chainIs⟩
        have pos := consumed_pos chain
        have restIs : rest = lines.drop (chain.consumed - 1) := by
          rw [chainIs.rest_eq]
          exact drop_cons pos
        rw [restIs] at chainIs
        exact Scan.chain chainIs (ih _ _)
      · exact Scan.line (ih _ 0)

/-! ### Values -/

section Values

variable {memory : Word → Nat} {env : Env}

def Holds (memory : Word → Nat) (env : Env) (lines : List Line) : Prop :=
  ∀ line ∈ lines, line.eval memory env = env line.name

/-- The recorded constants are the values of the variables. -/
def ConstsSound (env : Env) (consts : ConstVars) : Prop := ∀ entry ∈ consts, env entry.1 = some entry.2

theorem const_value_sound {value : YulValue} {consts : ConstVars} {constant : Nat}
    (sound : ConstsSound env consts) (found : yulConstValue value consts = some constant) :
    value.eval memory env = some constant := by
  cases value with
  | literal value => exact found
  | name name => exact sound _ (mem_of_lookup found)
  | _ => cases found

theorem record_sound {line : Line} (sound : ConstsSound env consts)
    (holds : line.eval memory env = env line.name) :
    ConstsSound env (recordYulConstAssignment line consts) := by
  cases line with
  | call name helper x0 limbs => exact sound
  | assign dst rhs =>
    rw [recordYulConstAssignment]
    cases found : yulConstValue rhs consts with
    | none => exact sound
    | some value =>
      have read := @const_value_sound memory _ _ _ _ sound found
      rw [Line.eval, read] at holds
      exact forall_mem_cons.mpr ⟨holds.symm, sound⟩

theorem record_all_sound (sound : ConstsSound env consts) (holds : Holds memory env lines) :
    ConstsSound env (lines.foldl (fun consts line => recordYulConstAssignment line consts) consts) := by
  induction lines generalizing consts with
  | nil => exact sound
  | cons line lines ih =>
    have both := forall_mem_cons.mp holds
    exact ih (record_sound sound both.1) both.2

theorem addmod_comm (x y : Nat) : addmod x y = addmod y x := by
  unfold addmod
  rw [Nat.add_comm]

theorem mulmod_comm (x y : Nat) : mulmod x y = mulmod y x := by
  unfold mulmod
  rw [Nat.mul_comm]

theorem step_value {coeff : Nat} {later : ConstVars} {step : LimbStep} {addend : YulValue}
    (here : StepLines coeff consts step addend lines rest later) (holds : Holds memory env lines)
    (sound : ConstsSound env consts) :
    ConstsSound env later ∧ Holds memory env step.kept ∧ Holds memory env rest ∧
      env step.addDst = Option.map₂ (fun z x => addmod z (mulmod coeff x)) (addend.eval memory env)
        (step.mulArg.eval memory env) := by
  rcases here.window with ⟨factor, product, sum, rfl, constant, multiplied, added⟩
  rcases forall_mem_append.mp holds with ⟨kept, window⟩
  rcases forall_mem_cons.mp window with ⟨productHolds, afterProduct⟩
  rcases forall_mem_cons.mp afterProduct with ⟨sumHolds, restHolds⟩
  have constsSound : ConstsSound env later := by
    rw [here.consts_later]
    exact record_all_sound sound kept
  refine ⟨constsSound, kept, restHolds, ?_⟩
  have factorIs := @const_value_sound memory _ _ _ _ constsSound constant
  have productIs : env step.mulDst = (step.mulArg.eval memory env).map (mulmod coeff) := by
    have value : env step.mulDst = product.eval memory env := productHolds.symm
    rw [value]
    rcases multiplied with rfl | rfl
    · rw [YulValue.eval, factorIs]
      cases step.mulArg.eval memory env <;> rfl
    · rw [YulValue.eval, factorIs]
      cases step.mulArg.eval memory env with
      | none => rfl
      | some x => exact congrArg some (mulmod_comm x coeff)
  have value : env step.addDst = sum.eval memory env := sumHolds.symm
  have name : (YulValue.name step.mulDst).eval memory env = env step.mulDst := rfl
  rw [value]
  rcases added with rfl | rfl
  · rw [YulValue.eval, name, productIs]
    cases step.mulArg.eval memory env with
    | none => cases addend.eval memory env <;> rfl
    | some x =>
      cases addend.eval memory env with
      | none => rfl
      | some z => exact congrArg some (addmod_comm _ z)
  · rw [YulValue.eval, name, productIs]
    cases step.mulArg.eval memory env with
    | none => cases addend.eval memory env <;> rfl
    | some x => cases addend.eval memory env <;> rfl

theorem eval_all_cons (value : YulValue) (values : List YulValue) (coeff : Nat) (coeffs : List Nat) (z : Option Nat) :
    Option.map₂ (qLimb7 coeffs) (Option.map₂ (fun z x => addmod z (mulmod coeff x)) z (value.eval memory env))
        (evalAll memory env values) =
      Option.map₂ (qLimb7 (coeff :: coeffs)) z (evalAll memory env (value :: values)) := by
  rw [evalAll]
  cases z with
  | none => rfl
  | some z =>
    cases value.eval memory env with
    | none => rfl
    | some x =>
      cases evalAll memory env values with
      | none => rfl
      | some rest => rfl

theorem steps_value {coeffs : List Nat} {later : ConstVars} {previous final : Name}
    {steps : List LimbStep} (here : StepsLines coeffs consts previous steps final lines rest later)
    (holds : Holds memory env lines) (sound : ConstsSound env consts) :
    ConstsSound env later ∧ Holds memory env (steps.flatMap LimbStep.kept) ∧ Holds memory env rest ∧
      env final = Option.map₂ (qLimb7 coeffs) (env previous) (evalAll memory env (steps.map LimbStep.mulArg)) := by
  induction here with
  | nil consts previous lines =>
    refine ⟨sound, fun _ absent => absurd absent not_mem_nil, holds, ?_⟩
    cases env previous <;> rfl
  | cons first _ ih =>
    rcases step_value first holds sound with ⟨between, kept, middle, sum⟩
    rcases ih middle between with ⟨after, others, rest, value⟩
    refine ⟨after, ?_, rest, ?_⟩
    · rw [flatMap_cons]
      exact forall_mem_append.mpr ⟨kept, others⟩
    · rw [value, sum, map_cons, ← eval_all_cons]
      rfl

theorem chain_value {chain : LimbChain} (here : ChainLines consts chain lines rest)
    (holds : Holds memory env lines) (sound : ConstsSound env consts) :
    ConstsSound env chain.localConsts ∧ Holds memory env (chain.keep ++ [chain.call]) ∧ Holds memory env rest := by
  rcases here.steps with ⟨coeff, coeffs, middle, between, shape, first, later⟩
  rcases step_value first holds sound with ⟨betweenSound, kept, middleHolds, sum⟩
  rcases steps_value later middleHolds betweenSound with ⟨after, others, restHolds, value⟩
  refine ⟨after, forall_mem_append.mpr ⟨?_, ?_⟩, restHolds⟩
  · exact forall_mem_append.mpr ⟨kept, others⟩
  · rw [forall_mem_singleton]
    have name : chain.call.name = chain.finalAcc := rfl
    rw [name, value, sum, LimbChain.call, Line.eval, shape, eval_all_cons]
    rfl

theorem scan_holds {scanned : List Segment} (scan : Scan consts lines scanned)
    (holds : Holds memory env lines) (sound : ConstsSound env consts) :
    Holds memory env (scanned.flatMap Segment.output) := by
  induction scan with
  | nil consts => exact holds
  | line _ ih =>
    have both := forall_mem_cons.mp holds
    exact forall_mem_cons.mpr ⟨both.1, ih both.2 (record_sound sound both.1)⟩
  | chain window _ ih =>
    rcases chain_value window holds sound with ⟨after, output, rest⟩
    rw [flatMap_cons]
    exact forall_mem_append.mpr ⟨output, ih rest after⟩

end Values

/-! ### Assigned variables -/

def assignments (name : Name) (lines : List Line) : Nat := (lines.map Line.name).count name

theorem assignments_append (name : Name) (lines others : List Line) :
    assignments name (lines ++ others) = assignments name lines + assignments name others := by
  rw [assignments, map_append, count_append]
  rfl

theorem assignments_cons (name : Name) (line : Line) (lines : List Line) :
    assignments name (line :: lines) = [line.name].count name + assignments name lines :=
  assignments_append name [line] lines

theorem count_cons_split (name first : Name) (names : List Name) :
    (first :: names).count name = [first].count name + names.count name :=
  @count_append _ _ name [first] names

theorem intermediates_count (name previous : Name) (step : LimbStep) (steps : List LimbStep) :
    (intermediates previous (step :: steps)).count name =
      [previous].count name + [step.mulDst].count name + (intermediates step.addDst steps).count name := by
  rw [intermediates, count_cons_split name previous, count_cons_split name step.mulDst, Nat.add_assoc]

theorem dropped_count (name : Name) (chain : LimbChain) : (Segment.chain chain).dropped.count name =
    [chain.first.mulDst].count name + (intermediates chain.first.addDst chain.later).count name :=
  count_cons_split name chain.first.mulDst _

theorem step_assignments {coeff : Nat} (here : StepLines coeff consts step addend lines rest later)
    (name : Name) :
    assignments name lines = assignments name step.kept + [step.mulDst].count name + [step.addDst].count name +
      assignments name rest := by
  rcases here.window with ⟨factor, product, sum, rfl, -⟩
  rw [assignments_append, assignments_cons, assignments_cons]
  simp only [Line.name]
  omega

theorem steps_assignments (here : StepsLines coeffs consts previous steps final lines rest later)
    (name : Name) :
    [previous].count name + assignments name lines = assignments name (steps.flatMap LimbStep.kept) +
      [final].count name + (intermediates previous steps).count name + assignments name rest := by
  induction here with
  | nil consts previous lines =>
    have nothing : assignments name [] = 0 := rfl
    rw [flatMap_nil, intermediates, count_nil, nothing]
    omega
  | cons first _ ih =>
    rw [step_assignments first name, flatMap_cons, assignments_append, intermediates_count]
    omega

/-- A line of the block assigns a variable that is still assigned, or one that is dropped. -/
theorem scan_assignments {scanned : List Segment} (scan : Scan consts lines scanned) (name : Name) :
    assignments name lines =
      assignments name (scanned.flatMap Segment.output) + (scanned.flatMap Segment.dropped).count name := by
  induction scan with
  | nil consts => rfl
  | line _ ih =>
    rw [flatMap_cons, flatMap_cons, Segment.output, Segment.dropped, singleton_append,
      nil_append, assignments_cons, assignments_cons, ih, Nat.add_assoc]
  | chain window _ ih =>
    rcases window.steps with ⟨coeff, coeffs, middle, between, -, first, later⟩
    have others := steps_assignments later name
    rw [flatMap_cons, flatMap_cons, count_append, dropped_count, Segment.output,
      assignments_append, assignments_append, LimbChain.keep, LimbChain.steps, flatMap_cons,
      assignments_append, step_assignments first name]
    have call : ∀ chain : LimbChain, assignments name [chain.call] = [chain.finalAcc].count name := fun _ => rfl
    rw [call]
    omega

/-! ### What is still assigned before it is read -/

/-- Lines are copied, dropped, or replaced by others that read variables that are assigned. -/
inductive Thins (dropped : List Name) : List Name → List Line → List Line → Prop
  | nil (defined : List Name) : Thins dropped defined [] []
  | keep {defined : List Name} {line other : Line} {lines others : List Line} : other.name = line.name →
      (∀ name ∈ other.names, name ∈ defined) → Thins dropped (line.name :: defined) lines others →
        Thins dropped defined (line :: lines) (other :: others)
  | drop {defined : List Name} {line : Line} {lines others : List Line} : line.name ∈ dropped →
      Thins dropped (line.name :: defined) lines others → Thins dropped defined (line :: lines) others

theorem Thins.closed {dropped defined left : List Name} {others : List Line}
    (thins : Thins dropped defined lines others)
    (reads : ∀ line ∈ others, ∀ name ∈ line.names, name ∉ dropped)
    (assigned : ∀ name ∈ defined, name ∈ dropped ∨ name ∈ left) : Closed left others := by
  induction thins generalizing left with
  | nil defined => trivial
  | keep same inside _ ih =>
    rw [forall_mem_cons] at reads
    refine ⟨fun name mem => (assigned name (inside name mem)).resolve_left (reads.1 name mem), ?_⟩
    apply ih reads.2
    rw [forall_mem_cons, same]
    exact ⟨Or.inr mem_cons_self, fun name mem => (assigned name mem).imp_right (mem_cons_of_mem _)⟩
  | drop gone _ ih =>
    apply ih reads
    rw [forall_mem_cons]
    exact ⟨Or.inl gone, assigned⟩

theorem thins_kept {dropped defined : List Name} {kept others : List Line}
    (closed : Closed defined kept)
    (later : Thins dropped ((kept.map Line.name).reverse ++ defined) lines others) :
    Thins dropped defined (kept ++ lines) (kept ++ others) := by
  induction kept generalizing defined with
  | nil => exact later
  | cons line kept ih =>
    rw [map_cons, reverse_cons, append_assoc] at later
    exact Thins.keep rfl closed.1 (ih closed.2 later)

theorem factor_reads {coeff : Nat} (here : StepLines coeff consts step addend lines rest later) :
    ∃ product sum, lines = step.kept ++ .assign step.mulDst product :: .assign step.addDst sum :: rest ∧
      (∀ name ∈ step.mulArg.names, name ∈ product.names) ∧ ∀ name ∈ addend.names, name ∈ sum.names := by
  rcases here.window with ⟨factor, product, sum, shape, -, multiplied, added⟩
  refine ⟨product, sum, shape, ?_, ?_⟩
  · rcases multiplied with rfl | rfl
    · exact fun name mem => mem_append_right _ mem
    · exact fun name mem => mem_append_left _ mem
  · rcases added with rfl | rfl
    · exact fun name mem => mem_append_right _ mem
    · exact fun name mem => mem_append_left _ mem

section Thinning

variable {dropped : List Name}

variable {defined : List Name}

/-- A sum is dropped when it is continued, and replaced by the call when it is the last one. -/
theorem steps_thin {coeffs : List Nat} {later : ConstVars} {previous final : Name}
    {steps : List LimbStep} {rest others : List Line}
    (here : StepsLines coeffs consts previous steps final lines rest later) {seen : List Name}
    {sum : YulValue} {call : Line} (closed : Closed defined (.assign previous sum :: lines))
    (known : ∀ name ∈ seen, name ∈ defined) (callName : call.name = final)
    (reads : ∀ name ∈ call.names, name ∈ seen ∨ name ∈ (steps.map LimbStep.mulArg).flatMap YulValue.names)
    (gone : ∀ name ∈ intermediates previous steps, name ∈ dropped)
    (next : ∀ after, Closed after rest → Thins dropped after rest others) :
    Thins dropped defined (.assign previous sum :: lines) (steps.flatMap LimbStep.kept ++ call :: others) := by
  induction here generalizing defined seen sum with
  | nil consts previous lines =>
    apply Thins.keep callName
    · intro name mem
      rcases reads name mem with before | absent
      · exact known name before
      · exact absurd absent not_mem_nil
    · exact next _ closed.2
  | @cons coeff coeffs consts between later previous final step steps lines middle rest first _ ih =>
    rcases factor_reads first with ⟨product, nextSum, rfl, argIn, -⟩
    rw [intermediates, forall_mem_cons, forall_mem_cons] at gone
    rcases closed_append.mp closed.2 with ⟨keptClosed, window⟩
    rw [flatMap_cons, append_assoc]
    apply Thins.drop gone.1
    apply thins_kept keptClosed
    apply Thins.drop gone.2.1
    apply @ih _ (seen ++ step.mulArg.names) nextSum window.2 _ callName _ gone.2.2 next
    · intro name mem
      rcases mem_append.mp mem with before | argument
      · exact mem_cons_of_mem _ (mem_append_right _ (mem_cons_of_mem _ (known name before)))
      · exact mem_cons_of_mem _ (window.1 name (argIn name argument))
    · intro name mem
      rcases reads name mem with before | later
      · exact Or.inl (mem_append_left _ before)
      · rw [map_cons, flatMap_cons] at later
        rcases mem_append.mp later with argument | others
        · exact Or.inl (mem_append_right _ argument)
        · exact Or.inr others

theorem chain_thins {chain : LimbChain} {rest others : List Line}
    (here : ChainLines consts chain lines rest) (closed : Closed defined lines)
    (gone : ∀ name ∈ (Segment.chain chain).dropped, name ∈ dropped)
    (next : ∀ after, Closed after rest → Thins dropped after rest others) :
    Thins dropped defined lines ((Segment.chain chain).output ++ others) := by
  rcases here.steps with ⟨coeff, coeffs, middle, between, -, first, later⟩
  rcases factor_reads first with ⟨product, sum, rfl, argIn, addendIn⟩
  rw [Segment.dropped, forall_mem_cons] at gone
  rcases closed_append.mp closed with ⟨keptClosed, window⟩
  rw [Segment.output, LimbChain.keep, LimbChain.steps, flatMap_cons, append_assoc, append_assoc,
    singleton_append]
  apply thins_kept keptClosed
  apply Thins.drop gone.1
  have known : ∀ name ∈ chain.x0.names ++ chain.first.mulArg.names,
      name ∈ chain.first.mulDst :: ((chain.first.kept.map Line.name).reverse ++ defined) := by
    rw [forall_mem_append]
    exact ⟨fun name mem => window.2.1 name (addendIn name mem),
      fun name mem => mem_cons_of_mem _ (window.1 name (argIn name mem))⟩
  apply steps_thin later window.2 known rfl _ gone.2 next
  intro name mem
  rw [LimbChain.call, Line.names, LimbChain.steps, map_cons, flatMap_cons, ← append_assoc] at mem
  exact mem_append.mp mem

theorem scan_thins {scanned : List Segment} (scan : Scan consts lines scanned)
    (closed : Closed defined lines)
    (gone : ∀ name ∈ scanned.flatMap Segment.dropped, name ∈ dropped) :
    Thins dropped defined lines (scanned.flatMap Segment.output) := by
  induction scan generalizing defined with
  | nil consts => exact Thins.nil defined
  | line _ ih =>
    rw [flatMap_cons, forall_mem_append] at gone
    exact Thins.keep rfl closed.1 (ih closed.2 gone.2)
  | chain window _ ih =>
    rw [flatMap_cons, forall_mem_append] at gone
    rw [flatMap_cons]
    exact chain_thins window closed gone.1 fun after afterClosed => ih afterClosed gone.2

end Thinning

theorem output_reads (scanned : List Segment) :
    (scanned.flatMap Segment.output).flatMap Line.names = scanned.flatMap Segment.reads := by
  induction scanned with
  | nil => rfl
  | cons segment scanned ih =>
    rw [flatMap_cons, flatMap_cons, flatMap_append, ih]
    cases segment with
    | line copied => rw [Segment.output, Segment.reads, flatMap_singleton]
    | chain limbs =>
      rw [Segment.output, Segment.reads, flatMap_append, flatMap_singleton, LimbChain.call, Line.names]

theorem dropped_unassigned {lines : List Line} (once : (lines.map Line.name).Nodup) {name : Name}
    (gone : name ∈ (segments [] 0 lines).flatMap Segment.dropped) :
    name ∉ (specializeLimb7Chains lines).map Line.name := by
  intro assigned
  have total := scan_assignments (segments_scan [] 0 lines) name
  have most := nodup_iff_count_le_one.mp once name
  have first := count_pos_iff.mpr assigned
  have second := count_pos_iff.mpr gone
  rw [drop_zero] at total
  unfold assignments at total
  unfold specializeLimb7Chains at first
  omega

theorem still_assigned {lines : List Line} {name : Name} (assigned : name ∈ lines.map Line.name)
    (kept : name ∉ (segments [] 0 lines).flatMap Segment.dropped) :
    name ∈ (specializeLimb7Chains lines).map Line.name := by
  have total := scan_assignments (segments_scan [] 0 lines) name
  rw [drop_zero, count_eq_zero_of_not_mem kept] at total
  have pos := count_pos_iff.mpr assigned
  apply count_pos_iff.mp
  unfold assignments at total
  unfold specializeLimb7Chains
  omega

/-- In a block of single assignments, chains are replaced without harm when their variables are private. -/
theorem single_assignment_preserved {lines : List Line} {result : Name} (single : SingleAssignment [] lines)
    (assigned : result ∈ lines.map Line.name) : Preserves lines result ↔ ChainsPrivate lines result := by
  have scan := segments_scan [] 0 lines
  rw [drop_zero] at scan
  constructor
  · intro preserves name gone
    rcases preserves fun _ => 0 with ⟨env, after, ran, rewritten, -, same⟩
    have absent := dropped_unassigned single.once gone
    have closed := (run_closed domain_none).mp ⟨after, rewritten⟩
    constructor
    · intro read
      rw [← output_reads] at read
      rcases mem_flatMap.mp read with ⟨line, lineIn, mem⟩
      rcases closed.reads line lineIn name mem with given | inside
      · exact absurd given not_mem_nil
      · exact absent inside
    · rintro rfl
      have defined_ : (env name).isSome = true :=
        (run_domain domain_none ran name).mpr (mem_append_left _ (mem_reverse.mpr assigned))
      rw [← same] at defined_
      rcases mem_append.mp ((run_domain domain_none rewritten name).mp defined_) with inside | given
      · exact absent (mem_reverse.mp inside)
      · exact absurd given not_mem_nil
  · intro isPrivate memory
    rcases single.run memory domain_none with ⟨env, ran, -, holds⟩
    have thins := scan_thins scan single.closed fun name gone => gone
    have closed : Closed [] (specializeLimb7Chains lines) := by
      apply thins.closed
      · intro line lineIn name mem gone
        apply (isPrivate name gone).1
        rw [← output_reads]
        exact mem_flatMap.mpr ⟨line, lineIn, mem⟩
      · exact fun _ absent => absurd absent not_mem_nil
    rcases (@run_closed memory _ _ _ domain_none).mpr closed with ⟨after, rewritten⟩
    have agrees : ∀ name, (after name).isSome = true → after name = env name := by
      intro name defined_
      have output := scan_holds scan holds fun _ absent => absurd absent not_mem_nil
      apply Eq.symm
      apply run_agrees output _ rewritten name defined_
      intro other absent
      cases absent
    refine ⟨env, after, ran, rewritten, agrees, agrees result ?_⟩
    apply (run_domain domain_none rewritten result).mpr
    apply mem_append_left
    rw [mem_reverse]
    exact still_assigned assigned fun gone => (isPrivate result gone).2 rfl

/-- Chains in the lines of an identity are replaced without harm exactly when their products and partial
sums are read by nothing else. -/
theorem limb_chains_specialized {F : Type} [Field F] [DecidableEq F] (evaluator : Evaluator) (u256 : F → Nat)
    (expression : Expression F) {lines : List Line} {var : Name}
    (evaluated : evaluator.evaluateAndReset u256 expression = some (lines, var)) :
    Preserves lines var ↔ ChainsPrivate lines var :=
  single_assignment_preserved (evaluated_single_assignment evaluated).1 (evaluated_single_assignment evaluated).2

/-! ### Products of linear combinations -/

/-- Advice columns with evaluations in consecutive words. -/
def adviceEvaluator : Evaluator where
  simpleSelectorCols := []
  numCommittedInstances := 0
  fixedEvals := fun _ => none
  adviceEvals := fun query => some ⟨Ptr.at_ (32 * query.column)⟩
  committedInstanceEvals := fun _ => none
  instanceEval := ⟨Ptr.at_ 0⟩
  challenges := []
  usePow5Helper := false

/-- The first column and multiples of the next ones. -/
def limbSum (coeffs : List Nat) : Expression (ZMod scalarModulus) :=
  coeffs.zipIdx.foldl (fun sum coeff => .sum sum (.scaled (.advice ⟨coeff.2 + 1, 0⟩) (coeff.1 : ZMod scalarModulus)))
    (.advice ⟨0, 0⟩)

/-- Lines of a product, and whether the chains in them are private. -/
def productPrivate (lhs rhs : Expression (ZMod scalarModulus)) : Option Bool :=
  (((Expression.product lhs rhs).evaluate (adviceEvaluator.closures ZMod.val)).run .reset).map
    fun result => decide (ChainsPrivate result.1.1 result.1.2)

theorem product_evaluated {lhs rhs : Expression (ZMod scalarModulus)} {answer : Bool}
    (found : productPrivate lhs rhs = some answer) : ∃ lines var,
      adviceEvaluator.evaluateAndReset ZMod.val (.product lhs rhs) = some (lines, var) ∧
        (ChainsPrivate lines var ↔ answer = true) := by
  rcases Option.map_eq_some_iff.mp found with ⟨⟨⟨lines, var⟩, after⟩, ran, rfl⟩
  refine ⟨lines, var, ?_, decide_eq_true_iff.symm⟩
  rw [Evaluator.evaluateAndReset, evaluate_product, evaluate_basic_visitor rfl, ran]
  rfl

/-- The square of a linear combination of seven limbs. -/
theorem limb_chains_specialized_square : ∃ lines var,
    adviceEvaluator.evaluateAndReset ZMod.val
      (.product (limbSum LimbHelper.limb7.coeffs) (limbSum LimbHelper.limb7.coeffs)) = some (lines, var) ∧
    (Preserves lines var ↔ ChainsPrivate lines var) ∧ ChainsPrivate lines var := by
  have square : productPrivate (limbSum LimbHelper.limb7.coeffs) (limbSum LimbHelper.limb7.coeffs) = some true := by
    decide +kernel
  rcases product_evaluated square with ⟨lines, var, evaluated, answer⟩
  exact ⟨lines, var, evaluated, limb_chains_specialized _ _ _ evaluated, answer.mpr rfl⟩

/-- The product with a combination of the first two limbs reads a sum that is not assigned any more. -/
theorem partial_sum_lost : ∃ lines var,
    adviceEvaluator.evaluateAndReset ZMod.val
      (.product (limbSum LimbHelper.limb7.coeffs) (limbSum [0x100000000000000])) = some (lines, var) ∧
    ¬ Preserves lines var := by
  have shared : productPrivate (limbSum LimbHelper.limb7.coeffs) (limbSum [0x100000000000000]) = some false := by
    decide +kernel
  rcases product_evaluated shared with ⟨lines, var, evaluated, answer⟩
  refine ⟨lines, var, evaluated, ?_⟩
  have single := evaluated_single_assignment evaluated
  rw [single_assignment_preserved single.1 single.2, answer]
  exact Bool.false_ne_true

end Midfall.LimbChains
