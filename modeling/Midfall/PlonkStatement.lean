import Midfall.ScalarField
import Midfall.TranscriptLog

/-!
# Absorption of the statement

The start of `compute_trace` and of `parse_trace`, up to the first advice
commitment: the verification key digest and the instance columns. The prover
holds every column in clear and works circuit by circuit; the verifier holds
the first columns of each proof as commitments and absorbs all of these before
any plain column. The commitment scheme enters through `commitLagrange` only.
-/

namespace Midfall.PlonkStatement

open TranscriptLog List
open ScalarField (scalarModulus)

/-- The argument of one `transcript.common` call. -/
inductive Absorbed (F Commitment : Type) where
  | scalar (value : F)
  | commitment (value : Commitment)
  deriving DecidableEq, Repr

inductive Error where
  | invalidInstances
  | instanceTooLarge
  deriving DecidableEq, Repr

/-- What the statement needs of a verification key. `keygen` refuses a domain
with fewer than `minimum_rows` rows. -/
structure VerifyingKey (F : Type) where
  n : Nat
  blindingFactors : Nat
  numInstanceColumns : Nat
  transcriptRepr : F
  minimumRows : blindingFactors + 3 ≤ n

section Statement

variable {F Commitment : Type} [NatCast F] [Zero F]

abbrev TranscriptM (F Commitment Value : Type) := Logged (Absorbed F Commitment) Error Value

variable (vk : VerifyingKey F) (commitLagrange : List F → Commitment)

def emptyLagrange : List F := replicate vk.n 0

/-- `for (poly_eval, value) in poly.iter_mut().zip(values.iter()) { *poly_eval = *value }`. -/
def fillInstance : List F → List F → List F
  | _ :: poly, value :: values => value :: fillInstance poly values
  | poly, _ => poly

/-- The prover's filling loop, which absorbs the values of a plain column. -/
def fillAbsorbing (isCommittedInstance : Bool) :
    List F → List F → TranscriptM F Commitment (List F)
  | _ :: poly, value :: values => do
    (if isCommittedInstance then pure () else append (.scalar value))
    let filled ← fillAbsorbing isCommittedInstance poly values
    return value :: filled
  | poly, _ => return poly

def computeInstance (nbCommittedInstances : Nat) (column : List F × Nat) :
    TranscriptM F Commitment (List F) :=
  let isCommittedInstance := decide (column.2 < nbCommittedInstances)
  if (emptyLagrange vk).length - (vk.blindingFactors + 1) < column.1.length then
    reject .instanceTooLarge
  else do
    (if isCommittedInstance then pure () else append (.scalar (column.1.length : F)))
    let poly ← fillAbsorbing isCommittedInstance (emptyLagrange vk) column.1
    (if isCommittedInstance then append (.commitment (commitLagrange poly)) else pure ())
    return poly

/-- `instance_values` of every circuit. -/
def computeInstances (instances : List (List (List F))) (nbCommittedInstances : Nat) :
    TranscriptM F Commitment (List (List (List F))) :=
  instances.mapM fun columns =>
    columns.zipIdx.mapM (computeInstance vk commitLagrange nbCommittedInstances)

/-- `compute_trace` up to `parse_advices`, on `circuits` many circuits. -/
def computeTraceStatement (circuits nbCommittedInstances : Nat) (instances : List (List (List F))) :
    TranscriptM F Commitment (List (List (List F))) :=
  if circuits ≠ instances.length then reject .invalidInstances
  else if ∃ columns ∈ instances,
      columns.length ≠ vk.numInstanceColumns ∨ columns.length < nbCommittedInstances then
    reject .invalidInstances
  else do
    append (.scalar vk.transcriptRepr)
    computeInstances vk commitLagrange instances nbCommittedInstances

/-- `parse_trace` up to the advice commitments. -/
def parseTraceStatement (committedInstances : List (List Commitment))
    (instances : List (List (List F))) : TranscriptM F Commitment Unit :=
  if committedInstances = [] then reject .invalidInstances
  else if ∃ columns ∈ committedInstances,
      columns.length ≠ (committedInstances.headD []).length then reject .invalidInstances
  else if ∃ proof ∈ committedInstances.zip instances,
      proof.1.length + proof.2.length ≠ vk.numInstanceColumns then reject .invalidInstances
  else do
    append (.scalar vk.transcriptRepr)
    forM committedInstances fun columns =>
      forM columns fun commitment => append (.commitment commitment)
    forM instances fun columns => forM columns fun column => do
      append (.scalar (column.length : F))
      forM column fun value => append (.scalar value)

def commitToInstances (values : List F) : Commitment :=
  commitLagrange (fillInstance (emptyLagrange vk) values)

def verifierCommittedInstances (nbCommittedInstances : Nat) (instances : List (List (List F))) :
    List (List Commitment) :=
  instances.map fun columns =>
    (columns.take nbCommittedInstances).map (commitToInstances vk commitLagrange)

def verifierInstances (nbCommittedInstances : Nat) (instances : List (List (List F))) :
    List (List (List F)) :=
  instances.map (List.drop nbCommittedInstances)

def plainLog (column : List F) : List (Absorbed F Commitment) :=
  .scalar (column.length : F) :: column.map .scalar

def committedLog (column : List F) : Absorbed F Commitment :=
  .commitment (commitToInstances vk commitLagrange column)

def columnLog (nbCommittedInstances : Nat) (column : List F × Nat) :
    List (Absorbed F Commitment) :=
  if column.2 < nbCommittedInstances then [committedLog vk commitLagrange column.1]
  else plainLog column.1

/-- One circuit in the prover's order. -/
def circuitLog (nbCommittedInstances : Nat) (columns : List (List F)) :
    List (Absorbed F Commitment) :=
  (columns.take nbCommittedInstances).map (committedLog vk commitLagrange) ++
    (columns.drop nbCommittedInstances).flatMap plainLog

variable {vk commitLagrange}

omit [NatCast F] [Zero F] in
theorem fill_absorbing_accepts (isCommittedInstance : Bool) (poly values : List F)
    (fits : values.length ≤ poly.length) :
    Accepts (fillAbsorbing isCommittedInstance poly values : TranscriptM F Commitment (List F)) True
      (fillInstance poly values) (if isCommittedInstance then [] else values.map .scalar) := by
  induction values generalizing poly with
  | nil =>
    have unchanged : fillInstance poly [] = poly := by cases poly <;> rfl
    have done : (fillAbsorbing isCommittedInstance poly [] : TranscriptM F Commitment (List F)) =
        pure poly := by cases poly <;> rfl
    rw [unchanged, done]
    exact (accepts_pure poly).congr Iff.rfl rfl (by simp)
  | cons value values ih =>
    cases poly with
    | nil => simp at fits
    | cons old poly =>
      have rest := ih poly (by simpa using fits)
      unfold fillAbsorbing fillInstance
      cases isCommittedInstance with
      | true =>
        exact Accepts.congr ((accepts_pure ()).bind (rest.bind (accepts_pure _)))
          (by simp) rfl (by simp)
      | false =>
        exact Accepts.congr ((accepts_append _).bind (rest.bind (accepts_pure _)))
          (by simp) rfl (by simp)

omit [NatCast F] in
theorem column_fits (column : List F)
    (small : ¬(emptyLagrange vk).length - (vk.blindingFactors + 1) < column.length) :
    column.length ≤ (emptyLagrange vk).length := by
  omega

theorem compute_instance_accepts (nbCommittedInstances : Nat) (column : List F × Nat) :
    Accepts (computeInstance vk commitLagrange nbCommittedInstances column)
      (column.1.length + (vk.blindingFactors + 1) ≤ vk.n)
      (fillInstance (emptyLagrange vk) column.1)
      (columnLog vk commitLagrange nbCommittedInstances column) := by
  have rows := vk.minimumRows
  have size : (emptyLagrange vk).length = vk.n := by simp [emptyLagrange]
  unfold computeInstance
  by_cases large : (emptyLagrange vk).length - (vk.blindingFactors + 1) < column.1.length
  · simp only [large, if_true]
    have tooLarge : ¬column.1.length + (vk.blindingFactors + 1) ≤ vk.n := by omega
    exact ⟨fun small => (tooLarge small).elim, fun log outcome succeeded => by cases succeeded⟩
  · simp only [large, if_false]
    have fill : Accepts (fillAbsorbing (decide (column.2 < nbCommittedInstances))
        (emptyLagrange vk) column.1 : TranscriptM F Commitment (List F)) True _ _ :=
      fill_absorbing_accepts _ _ column.1 (column_fits column.1 large)
    have fits : column.1.length + (vk.blindingFactors + 1) ≤ vk.n := by omega
    by_cases committed : column.2 < nbCommittedInstances
    · simp only [committed, decide_true, if_true] at fill ⊢
      refine Accepts.congr ((accepts_pure ()).bind (fill.bind
        ((accepts_append _).bind (accepts_pure _)))) ?_ ?_ ?_
      · simp [fits]
      · rfl
      · simp [columnLog, committed, committedLog, commitToInstances]
    · simp only [committed, decide_false, Bool.false_eq_true, if_false] at fill ⊢
      refine Accepts.congr ((accepts_append _).bind (fill.bind
        ((accepts_pure ()).bind (accepts_pure _)))) ?_ ?_ ?_
      · simp [fits]
      · rfl
      · simp [columnLog, committed, plainLog]

/-- Committed columns come first, so the enumerated loop splits at their number. -/
theorem columns_log (nbCommittedInstances start : Nat) (columns : List (List F)) :
    (columns.zipIdx start).flatMap (columnLog vk commitLagrange nbCommittedInstances) =
      circuitLog vk commitLagrange (nbCommittedInstances - start) columns := by
  induction columns generalizing start with
  | nil => simp [circuitLog]
  | cons column columns ih =>
    rw [zipIdx_cons, flatMap_cons, ih (start + 1)]
    by_cases committed : start < nbCommittedInstances
    · have count : nbCommittedInstances - start = nbCommittedInstances - (start + 1) + 1 := by
        omega
      rw [count]
      simp [columnLog, circuitLog, committed]
    · have none : nbCommittedInstances - start = 0 := by omega
      have noneAfter : nbCommittedInstances - (start + 1) = 0 := by omega
      rw [none, noneAfter]
      simp [columnLog, circuitLog, committed]

theorem compute_trace_accepts (circuits nbCommittedInstances : Nat)
    (instances : List (List (List F))) :
    Accepts (computeTraceStatement vk commitLagrange circuits nbCommittedInstances instances)
      (circuits = instances.length ∧
        (∀ columns ∈ instances, columns.length = vk.numInstanceColumns ∧
          nbCommittedInstances ≤ columns.length) ∧
        ∀ columns ∈ instances, ∀ column ∈ columns,
          column.length + (vk.blindingFactors + 1) ≤ vk.n)
      (instances.map (List.map (fillInstance (emptyLagrange vk))))
      (.scalar vk.transcriptRepr ::
        instances.flatMap (circuitLog vk commitLagrange nbCommittedInstances)) := by
  have circuit : ∀ columns : List (List F), Accepts
      (columns.zipIdx.mapM (computeInstance vk commitLagrange nbCommittedInstances))
      (∀ column ∈ columns, column.length + (vk.blindingFactors + 1) ≤ vk.n)
      (columns.map (fillInstance (emptyLagrange vk)))
      (circuitLog vk commitLagrange nbCommittedInstances columns) := by
    intro columns
    apply (accepts_loop _ _ _ _ (compute_instance_accepts nbCommittedInstances) _).congr
    · constructor
      · intro all column mem
        obtain ⟨position, inside, rfl⟩ := mem_iff_getElem.mp mem
        exact all (columns[position], position) (mem_zipIdx_iff_getElem?.mpr (by simp))
      · intro all column mem
        apply all
        rw [(mem_zipIdx' mem).2]
        exact getElem_mem _
    · have first : (fun column : List F × Nat => fillInstance (emptyLagrange vk) column.1) =
          fillInstance (emptyLagrange vk) ∘ Prod.fst := rfl
      rw [first, ← map_map, zipIdx_map_fst]
    · simpa using columns_log nbCommittedInstances 0 columns
  have loop := accepts_loop _ _ _ _ circuit instances
  apply ((((accepts_append _).bind loop).guard).guard).congr
  · simp only [true_and, not_exists, not_and, not_or, not_lt, ne_eq, not_not]
  · rfl
  · rfl

omit [Zero F] in
/-- The verifier absorbs every committed column before any plain one. -/
theorem parse_trace_accepts (committedInstances : List (List Commitment))
    (instances : List (List (List F))) :
    Accepts (parseTraceStatement vk committedInstances instances)
      (committedInstances ≠ [] ∧
        (∀ columns ∈ committedInstances,
          columns.length = (committedInstances.headD []).length) ∧
        ∀ proof ∈ committedInstances.zip instances,
          proof.1.length + proof.2.length = vk.numInstanceColumns)
      ()
      (.scalar vk.transcriptRepr :: committedInstances.flatMap (List.map .commitment) ++
        instances.flatMap (List.flatMap plainLog)) := by
  have plain : ∀ column : List F, Accepts
      (do
        append (.scalar (column.length : F))
        forM column fun value => append (.scalar value) : TranscriptM F Commitment Unit)
      (True ∧ True) () (plainLog column) := fun column =>
    (accepts_append _).bind (accepts_append_each Absorbed.scalar column)
  have committed : ∀ columns : List Commitment, Accepts
      (forM columns fun commitment => append (.commitment commitment) :
        TranscriptM F Commitment Unit) True () (columns.map .commitment) :=
    accepts_append_each Absorbed.commitment
  refine Accepts.congr (Accepts.guard (Accepts.guard (Accepts.guard
    ((accepts_append _).bind ((accepts_for_each _ _ _ committed committedInstances).bind
      (accepts_for_each _ _ _ (accepts_for_each _ _ _ plain) instances)))))) ?_ rfl ?_
  · simp only [and_true, not_exists, not_and, ne_eq, not_not, implies_true]
  · rfl

/-- What the verifier absorbs behind the key digest for the prover's instances. -/
def verifierLog (vk : VerifyingKey F) (commitLagrange : List F → Commitment)
    (nbCommittedInstances : Nat) (instances : List (List (List F))) :
    List (Absorbed F Commitment) :=
  (instances.flatMap fun columns =>
      (columns.take nbCommittedInstances).map (committedLog vk commitLagrange)) ++
    instances.flatMap fun columns => (columns.drop nbCommittedInstances).flatMap plainLog

theorem verifier_log_eq (nbCommittedInstances : Nat) (instances : List (List (List F))) :
    (verifierCommittedInstances vk commitLagrange nbCommittedInstances instances).flatMap
        (List.map .commitment) ++
      (verifierInstances nbCommittedInstances instances).flatMap (List.flatMap plainLog) =
    verifierLog vk commitLagrange nbCommittedInstances instances := by
  simp only [verifierCommittedInstances, verifierInstances, verifierLog, flatMap_map, map_map]
  rfl

theorem verifier_accepts_proved_statement (circuits nbCommittedInstances : Nat)
    (instances : List (List (List F))) (log : List (Absorbed F Commitment))
    (outcome : List (List (List F)) × List (Absorbed F Commitment))
    (proved : computeTraceStatement vk commitLagrange circuits nbCommittedInstances instances log =
      .ok outcome) (someProof : instances ≠ []) :
    parseTraceStatement vk
        (verifierCommittedInstances vk commitLagrange nbCommittedInstances instances)
        (verifierInstances nbCommittedInstances instances) log =
      .ok ((), log ++ .scalar vk.transcriptRepr ::
        verifierLog vk commitLagrange nbCommittedInstances instances) := by
  obtain ⟨-, shaped, -⟩ := (compute_trace_accepts _ _ _).inspect _ _ proved
  have width : ∀ columns ∈ verifierCommittedInstances vk commitLagrange nbCommittedInstances
      instances, columns.length = nbCommittedInstances := by
    intro columns mem
    obtain ⟨original, listed, rfl⟩ := mem_map.mp mem
    simpa using (shaped original listed).2
  rw [← verifier_log_eq, ← cons_append]
  apply (parse_trace_accepts _ _).run
  refine ⟨by simpa [verifierCommittedInstances] using someProof, ?_, ?_⟩
  · intro columns mem
    rw [width columns mem]
    cases committed : verifierCommittedInstances vk commitLagrange nbCommittedInstances
        instances with
    | nil => simp [committed] at mem
    | cons first rest => exact (width first (by simp [committed])).symm
  · intro proof mem
    rw [verifierCommittedInstances, verifierInstances, zip_map'] at mem
    obtain ⟨columns, listed, rfl⟩ := mem_map.mp mem
    obtain ⟨count, enough⟩ := shaped columns listed
    simp only [length_map, length_take, length_drop]
    omega

/-- Two proofs with a committed and a plain column separate the two orders: the
prover goes on with a column length, the verifier with a commitment. -/
theorem mixed_columns_disagree {nbCommittedInstances : Nat} {first second : List (List F)}
    {rest : List (List (List F))} (committed : 0 < nbCommittedInstances)
    (firstPlain : nbCommittedInstances < first.length) (secondColumn : 0 < second.length) :
    (first :: second :: rest).flatMap (circuitLog vk commitLagrange nbCommittedInstances) ≠
      verifierLog vk commitLagrange nbCommittedInstances (first :: second :: rest) := by
  intro same
  obtain ⟨plain, plains, firstSplit⟩ :=
    exists_cons_of_length_pos (show 0 < (first.drop nbCommittedInstances).length by
      rw [length_drop]
      omega)
  obtain ⟨column, columns, secondSplit⟩ :=
    exists_cons_of_length_pos (show 0 < (second.take nbCommittedInstances).length by
      rw [length_take]
      omega)
  simp only [verifierLog, flatMap_cons, circuitLog, append_assoc, append_cancel_left_eq, firstSplit,
    secondSplit, map_cons, cons_append, plainLog, committedLog, List.cons.injEq] at same
  cases same.1

/-- Prover and verifier absorb the same statement exactly for a single proof, or
when no column or every column is committed. -/
theorem statement_absorption_agrees_iff (circuits nbCommittedInstances : Nat)
    (instances : List (List (List F))) (log proverAbsorbed verifierAbsorbed :
      List (Absorbed F Commitment)) (instanceValues : List (List (List F)))
    (proved : computeTraceStatement vk commitLagrange circuits nbCommittedInstances instances log =
      .ok (instanceValues, proverAbsorbed))
    (parsed : parseTraceStatement vk
        (verifierCommittedInstances vk commitLagrange nbCommittedInstances instances)
        (verifierInstances nbCommittedInstances instances) log = .ok ((), verifierAbsorbed)) :
    proverAbsorbed = verifierAbsorbed ↔
      instances.length ≤ 1 ∨ nbCommittedInstances = 0 ∨
        nbCommittedInstances = vk.numInstanceColumns := by
  have proverRun := (compute_trace_accepts _ _ _).outcome proved
  have verifierRun := (parse_trace_accepts _ _).outcome parsed
  obtain ⟨-, shaped, -⟩ := (compute_trace_accepts _ _ _).inspect _ _ proved
  rw [cons_append, verifier_log_eq] at verifierRun
  cases proverRun
  cases verifierRun
  rw [append_cancel_left_eq, List.cons.injEq, and_iff_right rfl]
  constructor
  · intro same
    by_contra mixed
    simp only [not_or, not_le] at mixed
    match instances, mixed with
    | first :: second :: rest, ⟨_, someCommitted, somePlain⟩ =>
      have firstShape := shaped first (by simp)
      have secondShape := shaped second (by simp)
      have committed : 0 < nbCommittedInstances := Nat.pos_of_ne_zero someCommitted
      exact mixed_columns_disagree committed (by omega) (by omega) same
  · rintro (single | none | all)
    · match instances, single with
      | [], _ => rfl
      | [columns], _ => simp [verifierLog, circuitLog]
    · subst none
      have noCommitted : (instances.flatMap fun columns =>
          (columns.take 0).map (committedLog vk commitLagrange)) = [] := by
        rw [flatMap_eq_nil_iff]
        intro columns _
        rw [take_zero, map_nil]
      rw [verifierLog, noCommitted, nil_append]
      apply flatMap_congr
      intro columns _
      rw [circuitLog, take_zero, map_nil, nil_append]
    · have noPlain : ∀ columns ∈ instances, columns.drop nbCommittedInstances = [] := by
        intro columns mem
        rw [drop_eq_nil_iff, all, (shaped columns mem).1]
      have plainEmpty : (instances.flatMap fun columns =>
          (columns.drop nbCommittedInstances).flatMap plainLog :
            List (Absorbed F Commitment)) = [] := by
        rw [flatMap_eq_nil_iff]
        intro columns mem
        rw [noPlain columns mem, flatMap_nil]
      rw [verifierLog, plainEmpty, append_nil]
      apply flatMap_congr
      intro columns mem
      rw [circuitLog, noPlain columns mem, flatMap_nil, append_nil]

end Statement

def twoColumnKey : VerifyingKey (ZMod scalarModulus) where
  n := 8
  blindingFactors := 5
  numInstanceColumns := 2
  transcriptRepr := 11
  minimumRows := by decide

theorem one_proof_absorption_agrees :
    ∃ instanceValues proverAbsorbed verifierAbsorbed,
      computeTraceStatement twoColumnKey List.sum 1 1 [[[3], [4]]] [] =
          .ok (instanceValues, proverAbsorbed) ∧
        parseTraceStatement twoColumnKey
            (verifierCommittedInstances twoColumnKey List.sum 1 [[[3], [4]]])
            (verifierInstances 1 [[[3], [4]]]) [] = .ok ((), verifierAbsorbed) ∧
          proverAbsorbed = verifierAbsorbed := by
  let absorbed : List (Absorbed (ZMod scalarModulus) (ZMod scalarModulus)) :=
    [.scalar 11, .commitment 3, .scalar 1, .scalar 4]
  have proved : computeTraceStatement twoColumnKey List.sum 1 1 [[[3], [4]]] [] =
      .ok ([[[3, 0, 0, 0, 0, 0, 0, 0], [4, 0, 0, 0, 0, 0, 0, 0]]], absorbed) := rfl
  have parsed : parseTraceStatement twoColumnKey
      (verifierCommittedInstances twoColumnKey List.sum 1 [[[3], [4]]])
      (verifierInstances 1 [[[3], [4]]]) [] = .ok ((), absorbed) := rfl
  exact ⟨_, absorbed, absorbed, proved, parsed,
    (statement_absorption_agrees_iff 1 1 _ [] _ _ _ proved parsed).mpr (Or.inl (by decide))⟩

/-- Two circuits with one committed and one plain column each. -/
theorem two_proofs_absorb_differently :
    ∃ instanceValues proverAbsorbed verifierAbsorbed,
      computeTraceStatement twoColumnKey List.sum 2 1 [[[3], [4]], [[5], [6]]] [] =
          .ok (instanceValues, proverAbsorbed) ∧
        parseTraceStatement twoColumnKey
            (verifierCommittedInstances twoColumnKey List.sum 1 [[[3], [4]], [[5], [6]]])
            (verifierInstances 1 [[[3], [4]], [[5], [6]]]) [] = .ok ((), verifierAbsorbed) ∧
          proverAbsorbed ≠ verifierAbsorbed := by
  refine ⟨_, _, _, rfl, rfl, ?_⟩
  decide

end Midfall.PlonkStatement
