import Midfall.ListLoops
import Midfall.PlonkExpressions
import Midfall.YulLines

/-!
# The Yul evaluator

The lines of one identity. Every value is bound to a variable; a value that was
bound before is not bound again, and the variable it has is read instead.
-/

namespace Midfall.YulEvaluator

open ListLoops (mem_of_lookup)
open PlonkConstraintSystem (QueryKey)
open PlonkExpressions List
open VerifierData (Word)
open YulLines
open ScalarField (addmod mulmod)

/-- What the evaluator reads of the constraint system and of the proof data. -/
structure Evaluator where
  simpleSelectorCols : List Nat
  numCommittedInstances : Nat
  fixedEvals : QueryKey → Option Word
  adviceEvals : QueryKey → Option Word
  committedInstanceEvals : QueryKey → Option Word
  instanceEval : Word
  challenges : List Word
  usePow5Helper : Bool

structure EvaluatorState where
  varCounter : Nat
  varCache : List (YulValue × Name)
  deriving DecidableEq, Repr

def EvaluatorState.reset : EvaluatorState := { varCounter := 0, varCache := [] }

/-- Lines and the variable of the result; `none` is a panic. -/
abbrev Emission := StateT EvaluatorState Option (List Line × Name)

def Emission.followed (emission : Emission) (next : Name → Emission) : Emission := do
  let (lines, var) ← emission
  let (more, out) ← next var
  return (lines ++ more, out)

def nextVar : StateT EvaluatorState Option Name := do
  let state ← get
  set { state with varCounter := state.varCounter + 1 }
  return .var state.varCounter

def initVar (value : YulValue) (var : Option Name) : Emission := do
  match (← get).varCache.lookup value with
  | some cached => return ([], cached)
  | none =>
    let var ← match var with
      | some var => pure var
      | none => nextVar
    modify fun state => { state with varCache := (value, var) :: state.varCache }
    return ([.assign var value], var)

namespace Evaluator

variable {F : Type} [Field F] [DecidableEq F]

def instanceEvalAt (evaluator : Evaluator) (query : QueryKey) : Option Word :=
  if query.column < evaluator.numCommittedInstances then evaluator.committedInstanceEvals query
  else some evaluator.instanceEval

def wordOf (evaluator : Evaluator) : Name → Option Word
  | .var _ => none
  | .column .fixed query => evaluator.fixedEvals query
  | .column .advice query => evaluator.adviceEvals query
  | .column .instances query => evaluator.instanceEvalAt query
  | .challenge index => evaluator.challenges[index]?

/-- A word is bound to the variable that is named after it. -/
def initWord (evaluator : Evaluator) (name : Name) : Emission := do
  let eval ← StateT.lift (evaluator.wordOf name)
  initVar (.load eval) (some name)

/-- The closures of `evaluate_basic`. -/
def closures (evaluator : Evaluator) (u256 : F → Nat) : Closures F Emission where
  constant := fun scalar => initVar (.literal (u256 scalar)) none
  selectorColumn := fun _ => failure
  fixedColumn := fun query =>
    -- simple selectors have no evaluation
    if query.column ∈ evaluator.simpleSelectorCols then initVar (.literal 1) none
    else evaluator.initWord (.column .fixed query)
  adviceColumn := fun query => evaluator.initWord (.column .advice query)
  instanceColumn := fun query => evaluator.initWord (.column .instances query)
  challenge := fun index => evaluator.initWord (.challenge index)
  negated := fun a => a.followed fun var => initVar (.addmod (.literal 0) (.sub (.name var))) none
  sum := fun lhs rhs => lhs.followed fun lhsVar => rhs.followed fun rhsVar =>
    initVar (.addmod (.name lhsVar) (.name rhsVar)) none
  product := fun lhs rhs => lhs.followed fun lhsVar => rhs.followed fun rhsVar =>
    initVar (.mulmod (.name lhsVar) (.name rhsVar)) none
  scaled := fun a scalar => a.followed fun var => (initVar (.literal (u256 scalar)) none).followed
    fun scalarVar => initVar (.mulmod (.name var) (.name scalarVar)) none

def collectProductFactors : Expression F → List (Expression F)
  | .product lhs rhs => collectProductFactors lhs ++ collectProductFactors rhs
  | expression => [expression]

def pow5BaseExpr (evaluator : Evaluator) (expression : Expression F) : Option (Expression F) :=
  if evaluator.usePow5Helper then
    match collectProductFactors expression with
    | [base, second, third, fourth, fifth] =>
      if second = base ∧ third = base ∧ fourth = base ∧ fifth = base then some base else none
    | _ => none
  else none

omit [Field F] [DecidableEq F] in
theorem factor_size (expression : Expression F) :
    ∀ factor ∈ collectProductFactors expression, sizeOf factor ≤ sizeOf expression := by
  induction expression with
  | product lhs rhs left right =>
    rw [collectProductFactors, forall_mem_append]
    rw [Expression.product.sizeOf_spec]
    exact ⟨fun factor mem => (left factor mem).trans (by omega),
      fun factor mem => (right factor mem).trans (by omega)⟩
  | _ => exact forall_mem_singleton.mpr (Nat.le_refl _)

omit [Field F] in
theorem pow5_base_size {evaluator : Evaluator} {expression base : Expression F}
    (found : evaluator.pow5BaseExpr expression = some base) : sizeOf base < sizeOf expression := by
  have factors : ∃ rest, collectProductFactors expression = base :: rest ∧ rest.length = 4 := by
    unfold pow5BaseExpr at found
    split_ifs at found
    split at found
    · split_ifs at found
      cases found
      exact ⟨_, by assumption, rfl⟩
    · cases found
  rcases factors with ⟨rest, shape, length⟩
  cases expression with
  | product lhs rhs =>
    rw [Expression.product.sizeOf_spec]
    have mem : base ∈ collectProductFactors (.product lhs rhs) := by
      rw [shape]
      exact mem_cons_self
    rw [collectProductFactors] at mem
    rcases mem_append.mp mem with left | right
    · exact (factor_size lhs base left).trans_lt (by omega)
    · exact (factor_size rhs base right).trans_lt (by omega)
  | _ =>
    cases shape
    cases length

def evaluateBasic (evaluator : Evaluator) (u256 : F → Nat) (expression : Expression F) : Emission :=
  match _found : evaluator.pow5BaseExpr expression with
  | some base => (evaluateBasic evaluator u256 base).followed fun baseVar =>
    initVar (.pow5 (.name baseVar)) none
  | none => expression.evaluate (evaluator.closures u256)
termination_by sizeOf expression
decreasing_by exact pow5_base_size _found

def evaluateScaledTerm (evaluator : Evaluator) (u256 : F → Nat) (expression : Expression F) (coeff : F) :
    Emission :=
  match evaluator.pow5BaseExpr expression with
  | some base =>
    (evaluator.evaluateBasic u256 base).followed fun baseVar =>
      (initVar (.pow5 (.name baseVar)) none).followed fun powVar =>
        if coeff = 1 then return ([], powVar)
        else (initVar (.literal (u256 coeff)) none).followed fun coeffVar =>
          initVar (.mulmod (.name powVar) (.name coeffVar)) none
  | none =>
    match expression with
    | .product lhs rhs =>
      (evaluator.evaluateBasic u256 lhs).followed fun lhsVar =>
        (evaluator.evaluateBasic u256 rhs).followed fun rhsVar =>
          if coeff = 1 then initVar (.mulmod (.name lhsVar) (.name rhsVar)) none
          else (initVar (.literal (u256 coeff)) none).followed fun coeffVar =>
            initVar (.mulmod (.mulmod (.name lhsVar) (.name rhsVar)) (.name coeffVar)) none
    | expression =>
      (evaluator.evaluateBasic u256 expression).followed fun var =>
        if coeff = 1 then return ([], var)
        else (initVar (.literal (u256 coeff)) none).followed fun coeffVar =>
          initVar (.mulmod (.name var) (.name coeffVar)) none

def collectSumTerms (coeff : F) : Expression F → F × List (F × Expression F) → F × List (F × Expression F)
  | .constant value, (constant, terms) => (constant + coeff * value, terms)
  | .negated inner, sum => collectSumTerms (-coeff) inner sum
  | .sum lhs rhs, sum => collectSumTerms coeff rhs (collectSumTerms coeff lhs sum)
  | .scaled inner scale, sum => collectSumTerms (coeff * scale) inner sum
  | expression, (constant, terms) => (constant, terms ++ [(coeff, expression)])

def addTerms (evaluator : Evaluator) (u256 : F → Nat) (acc : Name) : List (F × Expression F) → Emission
  | [] => return ([], acc)
  | (coeff, term) :: terms =>
    (evaluator.evaluateScaledTerm u256 term coeff).followed fun termVar =>
      (initVar (.addmod (.name acc) (.name termVar)) none).followed fun addVar =>
        addTerms evaluator u256 addVar terms

def evaluateSumWithCoeffAndConst (evaluator : Evaluator) (u256 : F → Nat) (expression : Expression F) :
    Option Emission :=
  let (constant, collected) := collectSumTerms 1 expression (0, [])
  let terms := collected.filter fun term => term.1 ≠ 0
  if constant ≠ 0 ∨ terms.length > 1 ∨ terms.head?.any (fun term => term.1 ≠ 1) then
    some (
      if constant ≠ 0 then
        (initVar (.literal (u256 constant)) none).followed fun constVar => evaluator.addTerms u256 constVar terms
      else
        match terms with
        | [] => initVar (.literal 0) none
        | (coeff, term) :: terms =>
          (evaluator.evaluateScaledTerm u256 term coeff).followed fun termVar =>
            evaluator.addTerms u256 termVar terms)
  else none

def evaluate (evaluator : Evaluator) (u256 : F → Nat) (expression : Expression F) : Emission :=
  match evaluator.evaluateSumWithCoeffAndConst u256 expression with
  | some result => result
  | none => evaluator.evaluateBasic u256 expression

/-- The lines of one expression from a clean state, and the variable of its value. -/
def evaluateAndReset (evaluator : Evaluator) (u256 : F → Nat) (expression : Expression F) :
    Option (List Line × Name) :=
  ((evaluator.evaluate u256 expression).run .reset).map Prod.fst

end Evaluator

/-- The variables that are assigned, the last one first. -/
def EvaluatorState.defined (state : EvaluatorState) : List Name := state.varCache.map Prod.snd

/-- Variables are numbered in order, or named after the word they stand for. -/
def EvaluatorState.Named (evaluator : Evaluator) (state : EvaluatorState) : Prop :=
  ∀ entry ∈ state.varCache, (∃ count < state.varCounter, entry.2 = .var count) ∨
    ∃ word, evaluator.wordOf entry.2 = some word ∧ entry.1 = .load word

structure Emitted (evaluator : Evaluator) (state : EvaluatorState) (lines : List Line) (var : Name)
    (after : EvaluatorState) : Prop where
  named : after.Named evaluator
  defined : after.defined = (lines.map Line.name).reverse ++ state.defined
  single : SingleAssignment state.defined lines
  result : var ∈ after.defined

/-- Single assignments are emitted where some variables are assigned. -/
def Emission.Sound (evaluator : Evaluator) (reads : List Name) (emission : Emission) : Prop :=
  ∀ state lines var after, state.Named evaluator → (∀ name ∈ reads, name ∈ state.defined) →
    emission.run state = some ((lines, var), after) → Emitted evaluator state lines var after

section Emission

variable {evaluator : Evaluator} {reads : List Name} {state : EvaluatorState}

theorem nothing_emitted {var : Name} (named : state.Named evaluator) (result : var ∈ state.defined) :
    Emitted evaluator state [] var state where
  named := named
  defined := rfl
  single := ⟨trivial, nodup_nil, fun _ absent => absurd absent not_mem_nil⟩
  result := result

variable {value : YulValue}

theorem line_emitted {var : Name} {after : EvaluatorState} (named : after.Named evaluator)
    (cache : after.varCache = (value, var) :: state.varCache)
    (readable : ∀ name ∈ value.names, name ∈ state.defined) (fresh : var ∉ state.defined) :
    Emitted evaluator state [.assign var value] var after where
  named := named
  defined := by
    unfold EvaluatorState.defined
    rw [cache]
    rfl
  single := ⟨⟨readable, trivial⟩, nodup_singleton _, forall_mem_singleton.mpr fresh⟩
  result := by
    unfold EvaluatorState.defined
    rw [cache]
    exact mem_cons_self

theorem lookup_absent {cache : List (YulValue × Name)} (missing : cache.lookup value = none)
    (var : Name) : (value, var) ∉ cache := fun mem =>
  bne_iff_ne.mp (lookup_eq_none_iff.mp missing (value, var) mem) rfl

theorem followed_sound {emission : Emission} {next : Name → Emission} (first : emission.Sound evaluator reads)
    (second : ∀ var, (next var).Sound evaluator (var :: reads)) :
    (emission.followed next).Sound evaluator reads := by
  intro state lines out after named readable ran
  rcases bind_some_iff.mp ran with ⟨⟨⟨firstLines, var⟩, middle⟩, firstRan, rest⟩
  rcases bind_some_iff.mp rest with ⟨⟨⟨moreLines, last⟩, final⟩, secondRan, same⟩
  cases same
  have emitted := first state firstLines var middle named readable firstRan
  have kept : ∀ name ∈ state.defined, name ∈ middle.defined := by
    rw [emitted.defined]
    exact fun name mem => mem_append_right _ mem
  have later := second var middle moreLines out after emitted.named
    (forall_mem_cons.mpr ⟨emitted.result, fun name mem => kept name (readable name mem)⟩) secondRan
  refine ⟨later.named, ?_, ?_, later.result⟩
  · rw [later.defined, emitted.defined, map_append, reverse_append, append_assoc]
  · apply emitted.single.append
    rw [← emitted.defined]
    exact later.single

theorem return_sound (var : Name) (mem : var ∈ reads) :
    Emission.Sound evaluator reads (return ([], var)) := by
  intro state lines out after named readable ran
  cases ran
  exact nothing_emitted named (readable var mem)

theorem numbered_absent (named : state.Named evaluator) : Name.var state.varCounter ∉ state.defined := by
  intro mem
  rcases mem_map.mp mem with ⟨⟨value, name⟩, entry, rfl⟩
  rcases named _ entry with ⟨count, small, same⟩ | ⟨word, found, -⟩
  · cases same
    exact Nat.lt_irrefl _ small
  · cases found

theorem init_var_cached {cached : Name} (found : state.varCache.lookup value = some cached)
    (var : Option Name) : (initVar value var).run state = some (([], cached), state) := by
  unfold initVar
  simp only [StateT.run_bind, StateT.run_get, pure_bind, found]
  rfl

theorem cached_emitted {cached : Name} (named : state.Named evaluator)
    (found : state.varCache.lookup value = some cached) : Emitted evaluator state [] cached state :=
  nothing_emitted named (mem_map_of_mem (mem_of_lookup found))

theorem init_var_sound (readable : ∀ name ∈ value.names, name ∈ reads) :
    (initVar value none).Sound evaluator reads := by
  intro state lines var after named defined ran
  cases found : state.varCache.lookup value with
  | some cached =>
    rw [init_var_cached found] at ran
    cases ran
    exact cached_emitted named found
  | none =>
    have emitted : (initVar value none).run state = some
        (([.assign (.var state.varCounter) value], .var state.varCounter),
          { varCounter := state.varCounter + 1
            varCache := (value, .var state.varCounter) :: state.varCache }) := by
      unfold initVar
      simp only [StateT.run_bind, StateT.run_get, pure_bind, found]
      rfl
    rw [emitted] at ran
    cases ran
    apply line_emitted _ rfl (fun name mem => defined name (readable name mem)) (numbered_absent named)
    intro entry mem
    rcases mem_cons.mp mem with rfl | earlier
    · exact Or.inl ⟨state.varCounter, Nat.lt_succ_self _, rfl⟩
    · rcases named entry earlier with ⟨count, small, same⟩ | worded
      · exact Or.inl ⟨count, Nat.lt_succ_of_lt small, same⟩
      · exact Or.inr worded

theorem worded_absent {name : Name} {word : Word} (named : state.Named evaluator)
    (found : evaluator.wordOf name = some word) (missing : state.varCache.lookup (.load word) = none) :
    name ∉ state.defined := by
  intro mem
  rcases mem_map.mp mem with ⟨⟨value, same⟩, entry, rfl⟩
  rcases named _ entry with ⟨count, -, numbered⟩ | ⟨other, otherIs, loaded⟩
  · cases numbered
    cases found
  · rw [found] at otherIs
    cases otherIs
    cases loaded
    exact lookup_absent missing _ entry

theorem init_named_sound {name : Name} {word : Word} (found : evaluator.wordOf name = some word) :
    (initVar (.load word) (some name)).Sound evaluator reads := by
  intro state lines var after named _ ran
  cases cached : state.varCache.lookup (.load word) with
  | some known =>
    rw [init_var_cached cached] at ran
    cases ran
    exact cached_emitted named cached
  | none =>
    have emitted : (initVar (.load word) (some name)).run state = some (([.assign name (.load word)], name),
        { state with varCache := (.load word, name) :: state.varCache }) := by
      unfold initVar
      simp only [StateT.run_bind, StateT.run_get, pure_bind, cached]
      rfl
    rw [emitted] at ran
    cases ran
    apply line_emitted _ rfl (fun _ absent => absurd absent not_mem_nil) (worded_absent named found cached)
    intro entry mem
    rcases mem_cons.mp mem with rfl | earlier
    · exact Or.inr ⟨word, found, rfl⟩
    · exact named entry earlier

theorem init_word_sound (name : Name) : (evaluator.initWord name).Sound evaluator reads := by
  intro state lines var after named readable ran
  rcases bind_some_iff.mp ran with ⟨⟨word, start⟩, read, bound⟩
  rcases bind_some_iff.mp read with ⟨_, found, same⟩
  cases same
  exact init_named_sound found state lines var after named readable bound

theorem binary_sound {lhs rhs : Name} (left : lhs ∈ reads) (right : rhs ∈ reads) :
    ∀ name ∈ (YulValue.name lhs).names ++ (YulValue.name rhs).names, name ∈ reads := by
  rw [forall_mem_append]
  exact ⟨forall_mem_singleton.mpr left, forall_mem_singleton.mpr right⟩

section Expressions

variable {F : Type} {u256 : F → Nat}

theorem literal_sound (value : Nat) : (initVar (.literal value) none).Sound evaluator reads :=
  init_var_sound fun _ absent => absurd absent not_mem_nil

theorem add_sound {lhs rhs : Name} (left : lhs ∈ reads) (right : rhs ∈ reads) :
    (initVar (.addmod (.name lhs) (.name rhs)) none).Sound evaluator reads :=
  init_var_sound (binary_sound left right)

theorem mul_sound {lhs rhs : Name} (left : lhs ∈ reads) (right : rhs ∈ reads) :
    (initVar (.mulmod (.name lhs) (.name rhs)) none).Sound evaluator reads :=
  init_var_sound (binary_sound left right)

theorem pow5_sound {x : Name} (mem : x ∈ reads) : (initVar (.pow5 (.name x)) none).Sound evaluator reads :=
  init_var_sound (forall_mem_singleton.mpr mem)

theorem fixed_column_sound (query : QueryKey) :
    Emission.Sound evaluator reads ((evaluator.closures u256).fixedColumn query) := by
  dsimp only [Evaluator.closures]
  split_ifs
  · exact literal_sound _
  · exact init_word_sound _

theorem negated_sound {a : Emission} (inner : a.Sound evaluator reads) :
    Emission.Sound evaluator reads ((evaluator.closures u256).negated a) := by
  dsimp only [Evaluator.closures]
  apply followed_sound inner
  intro var
  apply init_var_sound
  exact forall_mem_singleton.mpr mem_cons_self

section Pairs

variable {lhs rhs : Emission} (left : ∀ reads, lhs.Sound evaluator reads)
  (right : ∀ reads, rhs.Sound evaluator reads)

include left right

theorem sum_sound : Emission.Sound evaluator reads ((evaluator.closures u256).sum lhs rhs) := by
  dsimp only [Evaluator.closures]
  apply followed_sound (left reads)
  intro lhsVar
  apply followed_sound (right _)
  intro rhsVar
  exact add_sound (mem_cons_of_mem _ mem_cons_self) mem_cons_self

theorem product_sound : Emission.Sound evaluator reads ((evaluator.closures u256).product lhs rhs) := by
  dsimp only [Evaluator.closures]
  apply followed_sound (left reads)
  intro lhsVar
  apply followed_sound (right _)
  intro rhsVar
  exact mul_sound (mem_cons_of_mem _ mem_cons_self) mem_cons_self

end Pairs

theorem scaled_sound {a : Emission} (inner : a.Sound evaluator reads) (scalar : F) :
    Emission.Sound evaluator reads ((evaluator.closures u256).scaled a scalar) := by
  dsimp only [Evaluator.closures]
  apply followed_sound inner
  intro var
  apply followed_sound (literal_sound _)
  intro scalarVar
  exact mul_sound (mem_cons_of_mem _ mem_cons_self) mem_cons_self

theorem visitor_sound (expression : Expression F) (reads : List Name) :
    Emission.Sound evaluator reads (expression.evaluate (evaluator.closures u256)) := by
  induction expression generalizing reads with
  | constant scalar => exact literal_sound _
  | selector virtual =>
    intro state lines var after named readable ran
    cases ran
  | fixed query => exact fixed_column_sound query
  | advice query => exact init_word_sound _
  | «instance» query => exact init_word_sound _
  | challenge index => exact init_word_sound _
  | negated a ih =>
    rw [Expression.evaluate]
    exact negated_sound (ih reads)
  | sum a b left right =>
    rw [Expression.evaluate]
    exact sum_sound left right
  | product a b left right =>
    rw [Expression.evaluate]
    exact product_sound left right
  | scaled a scalar ih =>
    rw [Expression.evaluate]
    exact scaled_sound (ih reads) scalar

variable [DecidableEq F]

theorem evaluate_basic_pow5 {expression base : Expression F} (found : evaluator.pow5BaseExpr expression = some base) :
    evaluator.evaluateBasic u256 expression = (evaluator.evaluateBasic u256 base).followed fun baseVar =>
      initVar (.pow5 (.name baseVar)) none := by
  rw [Evaluator.evaluateBasic]
  split
  · rename_i other otherIs
    rw [found, Option.some.injEq] at otherIs
    rw [otherIs]
  · rename_i missing
    rw [found] at missing
    cases missing

variable {expression : Expression F}

theorem evaluate_basic_visitor (missing : evaluator.pow5BaseExpr expression = none) :
    evaluator.evaluateBasic u256 expression = expression.evaluate (evaluator.closures u256) := by
  rw [Evaluator.evaluateBasic]
  split
  · rename_i other otherIs
    rw [missing] at otherIs
    cases otherIs
  · rfl

theorem basic_sound (expression : Expression F) (reads : List Name) :
    Emission.Sound evaluator reads (evaluator.evaluateBasic u256 expression) := by
  induction expression using @Evaluator.evaluateBasic.induct F _ evaluator generalizing reads with
  | case1 expression base found ih =>
    rw [evaluate_basic_pow5 found]
    exact followed_sound (ih reads) fun var => pow5_sound mem_cons_self
  | case2 expression missing =>
    rw [evaluate_basic_visitor missing]
    exact visitor_sound expression reads

variable [Field F]

theorem coeff_sound (coeff : F) {value : YulValue} {plain : Emission} (unscaled : plain.Sound evaluator reads)
    (readable : ∀ name ∈ value.names, name ∈ reads) :
    Emission.Sound evaluator reads (if coeff = 1 then plain
      else (initVar (.literal (u256 coeff)) none).followed fun coeffVar =>
        initVar (.mulmod value (.name coeffVar)) none) := by
  split_ifs
  · exact unscaled
  · apply followed_sound (literal_sound _)
    intro coeffVar
    apply init_var_sound
    rw [YulValue.names, forall_mem_append]
    exact ⟨fun name mem => mem_cons_of_mem _ (readable name mem),
      forall_mem_singleton.mpr mem_cons_self⟩

theorem scaled_term_sound (expression : Expression F) (coeff : F) (reads : List Name) :
    Emission.Sound evaluator reads (evaluator.evaluateScaledTerm u256 expression coeff) := by
  unfold Evaluator.evaluateScaledTerm
  split
  · apply followed_sound (basic_sound _ reads)
    intro baseVar
    apply followed_sound (pow5_sound mem_cons_self)
    intro powVar
    exact coeff_sound coeff (return_sound powVar mem_cons_self)
      (forall_mem_singleton.mpr mem_cons_self)
  · split
    · apply followed_sound (basic_sound _ reads)
      intro lhsVar
      apply followed_sound (basic_sound _ _)
      intro rhsVar
      have lhsIn : lhsVar ∈ rhsVar :: lhsVar :: reads := mem_cons_of_mem _ mem_cons_self
      exact coeff_sound coeff (mul_sound lhsIn mem_cons_self) (binary_sound lhsIn mem_cons_self)
    · apply followed_sound (basic_sound _ reads)
      intro var
      exact coeff_sound coeff (return_sound var mem_cons_self)
        (forall_mem_singleton.mpr mem_cons_self)

theorem add_terms_sound (terms : List (F × Expression F)) {acc : Name} (mem : acc ∈ reads) :
    Emission.Sound evaluator reads (evaluator.addTerms u256 acc terms) := by
  induction terms generalizing acc reads with
  | nil => exact return_sound acc mem
  | cons term terms ih =>
    rw [Evaluator.addTerms]
    apply followed_sound (scaled_term_sound term.2 term.1 reads)
    intro termVar
    apply followed_sound (add_sound (mem_cons_of_mem _ mem) mem_cons_self)
    intro addVar
    exact ih mem_cons_self

theorem sum_with_coeff_sound {emission : Emission}
    (found : evaluator.evaluateSumWithCoeffAndConst u256 expression = some emission) :
    emission.Sound evaluator reads := by
  unfold Evaluator.evaluateSumWithCoeffAndConst at found
  dsimp only at found
  split_ifs at found
  · cases found
    exact followed_sound (literal_sound _) fun constVar => add_terms_sound _ mem_cons_self
  · cases found
    split
    · exact literal_sound _
    · exact followed_sound (scaled_term_sound _ _ reads) fun termVar => add_terms_sound _ mem_cons_self

theorem evaluate_product (lhs rhs : Expression F) :
    evaluator.evaluate u256 (.product lhs rhs) = evaluator.evaluateBasic u256 (.product lhs rhs) := by
  have whole : evaluator.evaluateSumWithCoeffAndConst u256 (.product lhs rhs) = none := by
    simp [Evaluator.evaluateSumWithCoeffAndConst, Evaluator.collectSumTerms]
  rw [Evaluator.evaluate, whole]

theorem evaluate_sound (expression : Expression F) (reads : List Name) :
    Emission.Sound evaluator reads (evaluator.evaluate u256 expression) := by
  unfold Evaluator.evaluate
  split
  · rename_i found
    exact sum_with_coeff_sound found
  · exact basic_sound expression reads

theorem evaluated_single_assignment {lines : List Line} {var : Name}
    (evaluated : evaluator.evaluateAndReset u256 expression = some (lines, var)) :
    SingleAssignment [] lines ∧ var ∈ lines.map Line.name := by
  rcases Option.map_eq_some_iff.mp evaluated with ⟨⟨result, after⟩, ran, rfl⟩
  have emitted := evaluate_sound expression [] .reset lines var after
    (fun _ absent => absurd absent not_mem_nil) (fun _ absent => absurd absent not_mem_nil) ran
  refine ⟨emitted.single, ?_⟩
  have mem := emitted.result
  rw [emitted.defined] at mem
  rcases mem_append.mp mem with inside | absent
  · exact mem_reverse.mp inside
  · exact absurd absent not_mem_nil

end Expressions

end Emission

end Midfall.YulEvaluator
