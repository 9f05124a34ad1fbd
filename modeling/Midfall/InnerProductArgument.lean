import Midfall.ProofTranscripts
import Midfall.VerifierMsm

/-!
# Inner product argument

A proof of knowledge of scalars with given inner products over two lists of
bases. The bases are batched with a challenge and halved once a round; the
verifier folds them all at once, with one scalar for each base.
-/

namespace Midfall.InnerProductArgument

open ProofTranscripts VerifierMsm List
open Option (bind_some)

variable {modulus : Nat} {C V : Type}

inductive Message (modulus : Nat) (C : Type) where
  | scalar (s : ZMod modulus)
  | point (p : C)
  deriving DecidableEq

namespace Message

def asScalar : Message modulus C → Option (ZMod modulus)
  | .scalar s => some s
  | _ => none

def asPoint : Message modulus C → Option C
  | .point p => some p
  | _ => none

end Message

abbrev Sample (modulus : Nat) (C : Type) := List (Option (Message modulus C)) → ZMod modulus

def invert (s : ZMod modulus) : Option (ZMod modulus) := if s = 0 then none else some s⁻¹

/-- `is_power_of_two`, and `trailing_zeros` then. -/
def powerOfTwo? (n : Nat) : Option Nat := if 2 ^ Nat.log2 n = n then some (Nat.log2 n) else none

def fold [AddCommGroup V] [Module (ZMod modulus) V] (c0 : ZMod modulus) (v0 : List V)
    (c1 : ZMod modulus) (v1 : List V) : Option (List V) :=
  if v0.length = v1.length then some (zipWith (fun x y => c0 • x + c1 • y) v0 v1) else none

def commonStatement (bases1 bases2 : List C) (res1 res2 : C) : Session (Message modulus C) Unit := do
  forM bases1 fun b => common (.point b)
  forM bases2 fun b => common (.point b)
  common (.point res1)
  common (.point res2)

/-- The two points of a round, and its challenge. -/
structure Round (modulus : Nat) (C : Type) where
  lhs : C
  rhs : C
  uj : ZMod modulus
  ujInv : ZMod modulus

def verifyRounds (sample : Sample modulus C) :
    Nat → Session (Message modulus C) (List (Round modulus C))
  | 0 => pure []
  | k + 1 => do
    let lhs ← readAs Message.asPoint
    let rhs ← readAs Message.asPoint
    let uj ← squeeze sample
    let ujInv ← lift (invert uj)
    let rounds ← verifyRounds sample k
    pure ({ lhs := lhs, rhs := rhs, uj := uj, ujInv := ujInv } :: rounds)

/-- The factors of the bases, from the last round to the first. -/
def ipaScalars (rounds : List (Round modulus C)) (s : ZMod modulus) : List (ZMod modulus) :=
  rounds.reverse.foldl (fun scalars round =>
    (scalars.map fun scalar => scalar * round.ujInv) ++ scalars.map fun scalar => scalar * round.uj)
    [s]

def roundScalars (rounds : List (Round modulus C)) : List (ZMod modulus) :=
  rounds.flatMap fun round => [round.uj ^ 2, round.ujInv ^ 2]

def roundBases (rounds : List (Round modulus C)) : List C :=
  rounds.flatMap fun round => [round.lhs, round.rhs]

theorem ipa_scalars_cons (round : Round modulus C) (rounds : List (Round modulus C))
    (s : ZMod modulus) : ipaScalars (round :: rounds) s =
      ((ipaScalars rounds s).map fun scalar => scalar * round.ujInv) ++
        (ipaScalars rounds s).map fun scalar => scalar * round.uj := by
  unfold ipaScalars
  rw [reverse_cons, foldl_append]
  rfl

theorem ipa_scalars_length (rounds : List (Round modulus C)) (s : ZMod modulus) :
    (ipaScalars rounds s).length = 2 ^ rounds.length := by
  induction rounds with
  | nil => rfl
  | cons round rounds ih =>
    rw [ipa_scalars_cons, length_append, length_map, length_map, ih, length_cons, Nat.pow_succ]
    omega

theorem ipa_scalars_neg (rounds : List (Round modulus C)) (s : ZMod modulus) :
    ipaScalars rounds (-s) = (ipaScalars rounds s).map fun scalar => scalar * -1 := by
  induction rounds with
  | nil => simp [ipaScalars]
  | cons round rounds ih =>
    rw [ipa_scalars_cons, ipa_scalars_cons, ih, map_append]
    simp only [map_map, Function.comp_def, mul_neg, mul_one, neg_mul]

theorem round_terms_length (rounds : List (Round modulus C)) :
    (roundBases rounds).length = (roundScalars rounds).length := by
  unfold roundBases roundScalars
  rw [length_flatMap, length_flatMap]
  rfl

theorem check_terms_length {bases1 bases2 : List C} {rounds : List (Round modulus C)}
    (s r : ZMod modulus) (size1 : bases1.length = 2 ^ rounds.length)
    (size2 : bases2.length = 2 ^ rounds.length) :
    (roundBases rounds ++ bases1).length = (roundScalars rounds ++ ipaScalars rounds s).length ∧
      (roundBases rounds ++ bases1 ++ bases2).length = (roundScalars rounds ++ ipaScalars rounds s ++
        (ipaScalars rounds s).map fun factor => factor * r).length := by
  simp only [length_append, length_map, round_terms_length, ipa_scalars_length, size1,
    size2, and_self]

section Group

variable [AddCommGroup C] [Module (ZMod modulus) C]

/-- Panics on different lengths and on empty lists. -/
def innerProduct (scalars : List (ZMod modulus)) (bases : List C) : Option C :=
  if scalars.length = bases.length ∧ scalars ≠ [] then some (msmBest scalars bases) else none

def proveRounds (sample : Sample modulus C) :
    Nat → List (ZMod modulus) → List C → Session (Message modulus C) (List (ZMod modulus) × List C)
  | 0, s, b => pure (s, b)
  | k + 1, s, b => do
    let half := s.length / 2
    let l ← lift (innerProduct (s.take half) (b.drop half))
    let r ← lift (innerProduct (s.drop half) (b.take half))
    write (.point l)
    write (.point r)
    let uj ← squeeze sample
    let ujInv ← lift (invert uj)
    let s ← lift (fold uj (s.take half) ujInv (s.drop half))
    let b ← lift (fold uj (b.drop half) ujInv (b.take half))
    proveRounds sample k s b

/-- The prover after the challenge that batches the bases. -/
def proveFolded (sample : Sample modulus C) (k : Nat) (scalars : List (ZMod modulus))
    (bases1 bases2 : List C) (r : ZMod modulus) : Session (Message modulus C) Unit := do
  let bases ← lift (fold 1 bases1 r bases2)
  let folded ← proveRounds sample k scalars bases
  let last ← lift folded.1[0]?
  write (.scalar last)

/-- The challenges that the rounds draw after a log. -/
def roundChallenges (sample : Sample modulus C) : Nat → List (ZMod modulus) → List C →
    List (Option (Message modulus C)) → List (ZMod modulus)
  | 0, _, _, _ => []
  | k + 1, s, b, log =>
    let half := s.length / 2
    let log := log ++ [some (.point (msmBest (s.take half) (b.drop half)))] ++
      [some (.point (msmBest (s.drop half) (b.take half)))]
    let uj := sample log
    let s := zipWith (fun x y => uj • x + uj⁻¹ • y) (s.take half) (s.drop half)
    let b := zipWith (fun x y => uj • x + uj⁻¹ • y) (b.drop half) (b.take half)
    uj :: roundChallenges sample k s b (log ++ [none])

def ipaProve (sample : Sample modulus C) (scalars : List (ZMod modulus)) (bases1 bases2 : List C)
    (res1 res2 : C) : Session (Message modulus C) Unit := do
  lift (guard (scalars.length = bases1.length))
  lift (guard (scalars.length = bases2.length))
  let k ← lift (powerOfTwo? scalars.length)
  commonStatement bases1 bases2 res1 res2
  let r ← squeeze sample
  proveFolded sample k scalars bases1 bases2 r

/-- The sum that the verifier compares with the identity. -/
def verifierSum (sample : Sample modulus C) (k : Nat) (bases1 bases2 : List C) (res1 res2 : C)
    (r : ZMod modulus) : Session (Message modulus C) C := do
  let rounds ← verifyRounds sample k
  let s ← readAs Message.asScalar
  let factors := ipaScalars rounds (-s)
  let msmScalars := roundScalars rounds ++ factors ++ (factors.map fun factor => factor * r) ++ [1, r]
  let msmBases := roundBases rounds ++ bases1 ++ bases2 ++ [res1, res2]
  lift (innerProduct msmScalars msmBases)

def ipaVerify [DecidableEq C] (sample : Sample modulus C) (bases1 bases2 : List C) (res1 res2 : C) :
    Session (Message modulus C) Unit := do
  lift (guard (bases1.length = bases2.length))
  let k ← lift (powerOfTwo? bases1.length)
  commonStatement bases1 bases2 res1 res2
  let r ← squeeze sample
  let total ← verifierSum sample k bases1 bases2 res1 res2 r
  lift (guard (total = 0))

/-- The bases after the rounds of `ipa_prove`. -/
def foldBases (rounds : List (Round modulus C)) (bases : List C) : Option (List C) :=
  rounds.foldlM (fun b round =>
    fold round.uj (b.drop (b.length / 2)) round.ujInv (b.take (b.length / 2))) bases

theorem msm_best_split (half : Nat) (scalars : List (ZMod modulus)) (bases : List C)
    (same : scalars.length = bases.length) :
    msmBest scalars bases = msmBest (scalars.take half) (bases.take half) +
      msmBest (scalars.drop half) (bases.drop half) := by
  have halves : (bases.take half).length = (scalars.take half).length := by
    rw [length_take, length_take, same]
  rw [← msm_best_append halves, take_append_drop, take_append_drop]

theorem msm_best_combined_bases (c0 c1 : ZMod modulus) {scalars : List (ZMod modulus)}
    {v0 v1 : List C} (first : v0.length = scalars.length) (second : v1.length = scalars.length) :
    msmBest scalars (zipWith (fun x y => c0 • x + c1 • y) v0 v1) =
      c0 • msmBest scalars v0 + c1 • msmBest scalars v1 := by
  unfold msmBest
  induction scalars generalizing v0 v1 with
  | nil => simp
  | cons scalar scalars ih =>
    cases v0 with
    | nil => cases first
    | cons x v0 =>
      cases v1 with
      | nil => cases second
      | cons y v1 =>
        have rest := ih (Nat.succ.inj first) (Nat.succ.inj second)
        simp only [zipWith_cons_cons, sum_cons, rest]
        module

variable {bases : List C}

theorem msm_best_combined_scalars (c0 c1 : ZMod modulus) {s0 s1 : List (ZMod modulus)}
    (first : s0.length = bases.length) (second : s1.length = bases.length) :
    msmBest (zipWith (fun x y => c0 • x + c1 • y) s0 s1) bases =
      c0 • msmBest s0 bases + c1 • msmBest s1 bases := by
  unfold msmBest
  induction bases generalizing s0 s1 with
  | nil => simp
  | cons base bases ih =>
    cases s0 with
    | nil => cases first
    | cons x s0 =>
      cases s1 with
      | nil => cases second
      | cons y s1 =>
        have rest := ih (Nat.succ.inj first) (Nat.succ.inj second)
        simp only [zipWith_cons_cons, sum_cons, rest]
        rw [smul_eq_mul, smul_eq_mul]
        module

/-- The points of the rounds with the squares of their challenges. -/
def roundsSum (rounds : List (Round modulus C)) : C :=
  (rounds.map fun round => round.uj ^ 2 • round.lhs + round.ujInv ^ 2 • round.rhs).sum

theorem rounds_sum_cons (round : Round modulus C) (rounds : List (Round modulus C)) :
    roundsSum (round :: rounds) =
      round.uj ^ 2 • round.lhs + round.ujInv ^ 2 • round.rhs + roundsSum rounds := by
  rw [roundsSum, map_cons, sum_cons]
  rfl

theorem rounds_sum_eq (rounds : List (Round modulus C)) :
    msmBest (roundScalars rounds) (roundBases rounds) = roundsSum rounds := by
  induction rounds with
  | nil => rfl
  | cons round rounds ih =>
    have pair : [round.lhs, round.rhs].length = [round.uj ^ 2, round.ujInv ^ 2].length := rfl
    unfold roundScalars roundBases at ih ⊢
    rw [flatMap_cons, flatMap_cons, msm_best_append pair, ih, rounds_sum_cons]
    simp [msmBest]

variable {half : Nat}

theorem factors_fold (round : Round modulus C) (rounds : List (Round modulus C)) (s : ZMod modulus)
    (length : bases.length = 2 * half) (size : (ipaScalars rounds s).length = half) :
    msmBest (ipaScalars (round :: rounds) s) bases =
      msmBest (ipaScalars rounds s) (zipWith (fun x y => round.uj • x + round.ujInv • y)
        (bases.drop half) (bases.take half)) := by
  have left : (bases.take half).length = (ipaScalars rounds s).length := by
    rw [length_take, size]
    omega
  have right : (bases.drop half).length = (ipaScalars rounds s).length := by
    rw [length_drop, size]
    omega
  have first : (bases.take half).length =
      ((ipaScalars rounds s).map fun scalar => scalar * round.ujInv).length := by
    rw [length_map, left]
  rw [msm_best_combined_bases round.uj round.ujInv right left, ipa_scalars_cons, ← msm_best_scaled,
    ← msm_best_scaled, add_comm, ← msm_best_append first, take_append_drop]

theorem round_inner_product {u : ZMod modulus} {uInv : ZMod modulus} (inverse : u * uInv = 1)
    {s : List (ZMod modulus)} {b : List C} (scalars : s.length = 2 * half)
    (bases : b.length = 2 * half) :
    msmBest (zipWith (fun x y => u • x + uInv • y) (s.take half) (s.drop half))
        (zipWith (fun x y => u • x + uInv • y) (b.drop half) (b.take half)) =
      msmBest s b + (u ^ 2 • msmBest (s.take half) (b.drop half) +
        uInv ^ 2 • msmBest (s.drop half) (b.take half)) := by
  have lengths : (s.take half).length = half ∧ (s.drop half).length = half ∧
      (b.take half).length = half ∧ (b.drop half).length = half := by
    simp only [length_take, length_drop]
    omega
  have folded : (zipWith (fun x y => u • x + uInv • y) (b.drop half) (b.take half)).length =
      half := by
    rw [length_zipWith, lengths.2.2.1, lengths.2.2.2, Nat.min_self]
  rw [msm_best_combined_scalars u uInv (lengths.1.trans folded.symm)
      (lengths.2.1.trans folded.symm),
    msm_best_combined_bases u uInv (lengths.2.2.2.trans lengths.1.symm)
      (lengths.2.2.1.trans lengths.1.symm),
    msm_best_combined_bases u uInv (lengths.2.2.2.trans lengths.2.1.symm)
      (lengths.2.2.1.trans lengths.2.1.symm),
    msm_best_split half s b (scalars.trans bases.symm)]
  have back : uInv * u = 1 := by rw [mul_comm, inverse]
  simp only [smul_add, smul_smul, inverse, back, one_smul, ← sq]
  abel

theorem fold_some (c0 c1 : ZMod modulus) {v0 v1 : List C} (first : v0.length = half)
    (second : v1.length = half) :
    fold c0 v0 c1 v1 = some (zipWith (fun x y => c0 • x + c1 • y) v0 v1) :=
  if_pos (first.trans second.symm)

theorem halves {v : List V} (length : v.length = 2 * half) :
    v.length / 2 = half ∧ (v.take half).length = half ∧ (v.drop half).length = half := by
  rw [length_take, length_drop, length]
  omega

/-- The factor of a base is the coefficient with which the rounds fold it. -/
theorem fold_bases_eq {rounds : List (Round modulus C)}
    (length : bases.length = 2 ^ rounds.length) :
    foldBases rounds bases = some [msmBest (ipaScalars rounds 1) bases] := by
  induction rounds generalizing bases with
  | nil =>
    rcases length_eq_one_iff.mp length with ⟨base, rfl⟩
    simp [foldBases, ipaScalars, msmBest]
  | cons round rounds ih =>
    have double : bases.length = 2 * 2 ^ rounds.length := by
      rw [length, length_cons, Nat.pow_succ, Nat.mul_comm]
    rcases halves double with ⟨half, taken, dropped⟩
    have folded : (zipWith (fun x y => round.uj • x + round.ujInv • y)
        (bases.drop (2 ^ rounds.length)) (bases.take (2 ^ rounds.length))).length =
          2 ^ rounds.length := by
      rw [length_zipWith, taken, dropped, Nat.min_self]
    have rest := ih folded
    unfold foldBases at rest ⊢
    rw [foldlM_cons, half, fold_some _ _ dropped taken,
      factors_fold round rounds 1 double (ipa_scalars_length rounds 1)]
    exact rest

section Exactness

variable [Fact modulus.Prime] {sample : Sample modulus C}

omit [Fact modulus.Prime] [AddCommGroup C] [Module (ZMod modulus) C] in
theorem completes_point (p : C) :
    Completes (write (Message.point p)) (readAs (Message.asPoint : Message modulus C → Option C))
      fun _ result => result = p := completes_write rfl

theorem invert_some {u uInv : ZMod modulus} (inverted : invert u = some uInv) : u * uInv = 1 := by
  unfold invert at inverted
  split_ifs at inverted with zero
  cases inverted
  exact mul_inv_cancel₀ zero

omit [Fact modulus.Prime] in
theorem inner_product_some {scalars : List (ZMod modulus)} {bases : List C} {total : C}
    (product : innerProduct scalars bases = some total) : msmBest scalars bases = total := by
  unfold innerProduct at product
  split_ifs at product
  exact Option.some.inj product

variable {s : List (ZMod modulus)}

theorem completes_rounds (k : Nat) {b : List C} (scalars : s.length = 2 ^ k)
    (bases : b.length = 2 ^ k) :
    Completes (proveRounds sample k s b) (verifyRounds sample k) fun last rounds =>
      rounds.length = k ∧ foldBases rounds b = some last.2 ∧ ∃ c, last.1 = [c] ∧
        msmBest (ipaScalars rounds c) b = msmBest s b + roundsSum rounds := by
  induction k generalizing s b with
  | zero =>
    apply completes_pure
    rcases length_eq_one_iff.mp scalars with ⟨c, rfl⟩
    exact ⟨rfl, rfl, c, rfl, (add_zero _).symm⟩
  | succ k ih =>
    rw [Nat.pow_succ, Nat.mul_comm] at scalars bases
    rcases halves scalars with ⟨half, sTake, sDrop⟩
    rcases halves bases with ⟨-, bTake, bDrop⟩
    unfold proveRounds verifyRounds
    dsimp only
    rw [half]
    refine Completes.lift_prover fun l left => Completes.lift_prover fun r right => ?_
    apply (completes_point l).bind
    intro _ lhs lhsRead
    apply (completes_point r).bind
    intro _ rhs rhsRead
    apply (completes_squeeze sample).bind
    rintro uj _ rfl
    refine Completes.lift_prover fun ujInv inverted => Completes.lift_verifier inverted ?_
    rw [fold_some uj ujInv bDrop bTake]
    apply Completes.lift_prover
    intro sNext sFolded
    cases sFolded.symm.trans (if_pos (sTake.trans sDrop.symm))
    apply Completes.lift_prover
    intro bNext bFolded
    cases bFolded
    have sLength : (zipWith (fun x y => uj • x + ujInv • y) (s.take (2 ^ k))
        (s.drop (2 ^ k))).length = 2 ^ k := by
      rw [length_zipWith, sTake, sDrop, Nat.min_self]
    have bLength : (zipWith (fun x y => uj • x + ujInv • y) (b.drop (2 ^ k))
        (b.take (2 ^ k))).length = 2 ^ k := by
      rw [length_zipWith, bDrop, bTake, Nat.min_self]
    apply (ih sLength bLength).returning
    intro last rounds later
    rcases later with ⟨count, last, c, single, sum⟩
    have folds := fold_some uj ujInv bDrop bTake
    unfold foldBases at last ⊢
    rw [foldlM_cons, (halves bases).1, folds]
    use congrArg Nat.succ count, last, c, single
    have size : (ipaScalars rounds c).length = 2 ^ k := by rw [ipa_scalars_length, count]
    rw [factors_fold _ rounds c bases size, sum,
      round_inner_product (invert_some inverted) scalars bases, lhsRead, rhsRead,
      inner_product_some left, inner_product_some right, rounds_sum_cons]
    exact add_assoc _ _ _

theorem power_of_two_some (k : Nat) : powerOfTwo? (2 ^ k) = some k := by
  unfold powerOfTwo?
  rw [Nat.log2_two_pow, if_pos rfl]

theorem verified_sum {bases1 bases2 : List C} {scalars : List (ZMod modulus)} {r : ZMod modulus}
    {rounds : List (Round modulus C)} {c : ZMod modulus} (res1 res2 : C)
    (same : bases1.length = bases2.length) (size : bases1.length = 2 ^ rounds.length)
    (scalarsSize : scalars.length = bases1.length)
    (sum : msmBest (ipaScalars rounds c) (zipWith (fun x y => (1 : ZMod modulus) • x + r • y)
      bases1 bases2) = msmBest scalars (zipWith (fun x y => (1 : ZMod modulus) • x + r • y)
        bases1 bases2) + roundsSum rounds) :
    msmBest (roundScalars rounds ++ ipaScalars rounds (-c) ++
        ((ipaScalars rounds (-c)).map fun factor => factor * r) ++ [1, r])
      (roundBases rounds ++ bases1 ++ bases2 ++ [res1, res2]) =
        res1 + r • res2 - (msmBest scalars bases1 + r • msmBest scalars bases2) := by
  have size2 : bases2.length = 2 ^ rounds.length := same.symm.trans size
  have lengths := check_terms_length (-c) r size size2
  have results : msmBest [1, r] [res1, res2] = res1 + r • res2 := by
    simp [msmBest]
  have opened := ipa_scalars_length rounds c
  rw [msm_best_combined_bases 1 r (size.trans opened.symm) (size2.trans opened.symm),
    msm_best_combined_bases 1 r scalarsSize.symm (same.symm.trans scalarsSize.symm)] at sum
  rw [msm_best_append lengths.2, msm_best_append lengths.1,
    msm_best_append (round_terms_length rounds), rounds_sum_eq, msm_best_scaled, ipa_scalars_neg, msm_best_scaled, msm_best_scaled, results]
  rw [← sub_eq_iff_eq_add'] at sum
  rw [← sum]
  module

variable {k : Nat} {scalars : List (ZMod modulus)} {bases1 bases2 : List C}

theorem completes_folded (scalarsSize : scalars.length = 2 ^ k) (size1 : bases1.length = 2 ^ k)
    (size2 : bases2.length = 2 ^ k) (res1 res2 : C) (r : ZMod modulus) :
    Completes (proveFolded sample k scalars bases1 bases2 r)
      (verifierSum sample k bases1 bases2 res1 res2 r) fun _ total =>
        total = res1 + r • res2 - (msmBest scalars bases1 + r • msmBest scalars bases2) := by
  unfold proveFolded verifierSum
  rw [fold_some 1 r size1 size2]
  apply Completes.lift_prover
  intro bases folded
  cases folded
  have batched : (zipWith (fun x y => (1 : ZMod modulus) • x + r • y) bases1 bases2).length =
      2 ^ k := by
    rw [length_zipWith, size1, size2, Nat.min_self]
  apply (completes_rounds k scalarsSize batched).bind
  intro last rounds folded
  rcases folded with ⟨count, -, c, single, sum⟩
  rw [single]
  apply Completes.lift_prover
  intro last first
  cases first
  have written : Completes (write (Message.scalar c))
      (readAs (Message.asScalar : Message modulus C → Option (ZMod modulus)))
      fun _ result => result = c := completes_write rfl
  apply written.followed
  rintro _ s rfl
  have size : bases1.length = 2 ^ rounds.length := by rw [size1, count]
  have total := verified_sum res1 res2 (size1.trans size2.symm) size
    (scalarsSize.trans size1.symm) sum
  have lengths := check_terms_length (-s) r size (size2.trans (size1.symm.trans size))
  dsimp only
  have product : innerProduct (roundScalars rounds ++ ipaScalars rounds (-s) ++
        ((ipaScalars rounds (-s)).map fun factor => factor * r) ++ [1, r])
      (roundBases rounds ++ bases1 ++ bases2 ++ [res1, res2]) =
        some (res1 + r • res2 - (msmBest scalars bases1 + r • msmBest scalars bases2)) := by
    rw [← total]
    apply if_pos
    constructor
    · rw [length_append, ← lengths.2]
      simp only [length_append, length_cons, length_nil]
    · exact append_ne_nil_of_right_ne_nil _ (cons_ne_nil 1 [r])
  rw [product]
  exact completes_pure rfl

/-- What both sides absorb before the first challenge. -/
def statementLog (bases1 bases2 : List C) (res1 res2 : C) : List (Option (Message modulus C)) :=
  (bases1.map fun b => some (.point b)) ++ (bases2.map fun b => some (.point b)) ++
    [some (.point res1), some (.point res2)]

omit [Fact modulus.Prime] [AddCommGroup C] [Module (ZMod modulus) C] in
theorem common_statement_run (bases1 bases2 : List C) (res1 res2 : C)
    (log : List (Option (Message modulus C))) (buffer : List (Message modulus C)) :
    commonStatement bases1 bases2 res1 res2 ⟨log, buffer⟩ =
      some ((), ⟨log ++ statementLog bases1 bases2 res1 res2, buffer⟩) := by
  unfold commonStatement statementLog
  rw [run_bind, common_all_run, bind_some, run_bind, common_all_run]
  simp [run_bind, common]

theorem guard_same {Size : Type} [DecidableEq Size] (size : Size) :
    (guard (size = size) : Option Unit) = some () := if_pos rfl

omit [Fact modulus.Prime] in
theorem prove_run (scalarsSize : scalars.length = 2 ^ k) (size1 : bases1.length = 2 ^ k)
    (size2 : bases2.length = 2 ^ k) (res1 res2 : C) (log : List (Option (Message modulus C)))
    (written : List (Message modulus C)) :
    ipaProve sample scalars bases1 bases2 res1 res2 ⟨log, written⟩ =
      proveFolded sample k scalars bases1 bases2
        (sample (log ++ statementLog bases1 bases2 res1 res2))
        ⟨log ++ statementLog bases1 bases2 res1 res2 ++ [none], written⟩ := by
  unfold ipaProve
  rw [run_lift_bind, run_lift_bind, run_lift_bind, scalarsSize, size1, size2, power_of_two_some,
    guard_same, bind_some, bind_some, bind_some, run_bind, common_statement_run]
  rfl

omit [Fact modulus.Prime] in
theorem verify_run [DecidableEq C] (size1 : bases1.length = 2 ^ k) (size2 : bases2.length = 2 ^ k)
    (res1 res2 : C) (log : List (Option (Message modulus C))) (messages : List (Message modulus C)) :
    ipaVerify sample bases1 bases2 res1 res2 ⟨log, messages⟩ =
      (verifierSum sample k bases1 bases2 res1 res2
        (sample (log ++ statementLog bases1 bases2 res1 res2))
        ⟨log ++ statementLog bases1 bases2 res1 res2 ++ [none], messages⟩).bind fun outcome =>
          lift (guard (outcome.1 = 0)) outcome.2 := by
  unfold ipaVerify
  rw [run_lift_bind, run_lift_bind, size1, size2, power_of_two_some, guard_same, bind_some,
    bind_some, run_bind, common_statement_run]
  rfl

theorem prove_rounds_finishes (k : Nat) {b : List C} (scalars : s.length = 2 ^ k)
    (bases : b.length = 2 ^ k) (log : List (Option (Message modulus C)))
    (written : List (Message modulus C)) :
    ((proveRounds sample k s b ⟨log, written⟩).bind fun out => out.1.1[0]?).isSome ↔
      ∀ uj ∈ roundChallenges sample k s b log, uj ≠ 0 := by
  induction k generalizing s b log written with
  | zero =>
    rcases length_eq_one_iff.mp scalars with ⟨c, rfl⟩
    exact iff_of_true rfl nofun
  | succ k ih =>
    rw [Nat.pow_succ, Nat.mul_comm] at scalars bases
    rcases halves scalars with ⟨half, sTake, sDrop⟩
    rcases halves bases with ⟨-, bTake, bDrop⟩
    have pos : 2 ^ k ≠ 0 := (Nat.two_pow_pos k).ne'
    have product : ∀ {v : List (ZMod modulus)} {w : List C}, v.length = 2 ^ k → w.length = 2 ^ k →
        innerProduct v w = some (msmBest v w) := by
      intro v w first second
      apply if_pos
      use first.trans second.symm
      rintro rfl
      exact pos first.symm
    unfold proveRounds roundChallenges
    dsimp only
    rw [half, product sTake bDrop, product sDrop bTake, run_lift_bind, bind_some, run_lift_bind,
      bind_some, run_bind, write, bind_some, run_bind, write, bind_some, run_bind, squeeze,
      bind_some, run_lift_bind, invert, forall_mem_cons]
    split_ifs with zero
    · exact iff_of_false Bool.false_ne_true fun nonzero => nonzero.1 zero
    · rw [bind_some, run_lift_bind, fold_some _ _ sTake sDrop, bind_some, run_lift_bind,
        fold_some _ _ bDrop bTake, bind_some, and_iff_right zero]
      apply ih
      · rw [length_zipWith, sTake, sDrop, Nat.min_self]
      · rw [length_zipWith, bDrop, bTake, Nat.min_self]

/-- Whenever the prover finishes, the verifier accepts its messages exactly if the batched
results are right; the prover finishes if no challenge that it draws is zero, and only then;
and the verifier's factors are the coefficients of the folded bases. -/
theorem ipa_exact [DecidableEq C] (sample : Sample modulus C) (scalarsSize : scalars.length = 2 ^ k)
    (size1 : bases1.length = 2 ^ k) (size2 : bases2.length = 2 ^ k) (res1 res2 : C)
    (log : List (Option (Message modulus C))) (written : List (Message modulus C)) :
    (∀ after buffer, ipaProve sample scalars bases1 bases2 res1 res2 ⟨log, written⟩ =
      some ((), ⟨after, buffer⟩) → ∃ sent, buffer = written ++ sent ∧ ∀ rest,
        ((ipaVerify sample bases1 bases2 res1 res2 ⟨log, sent ++ rest⟩).isSome ↔
          msmBest scalars bases1 +
              sample (log ++ statementLog bases1 bases2 res1 res2) • msmBest scalars bases2 =
            res1 + sample (log ++ statementLog bases1 bases2 res1 res2) • res2)) ∧
    ((ipaProve sample scalars bases1 bases2 res1 res2 ⟨log, written⟩).isSome ↔
      ∀ uj ∈ roundChallenges sample k scalars (zipWith (fun x y => (1 : ZMod modulus) • x +
        sample (log ++ statementLog bases1 bases2 res1 res2) • y) bases1 bases2)
        (log ++ statementLog bases1 bases2 res1 res2 ++ [none]), uj ≠ 0) ∧
    ∀ (rounds : List (Round modulus C)) (bases : List C), bases.length = 2 ^ rounds.length →
      foldBases rounds bases = some [msmBest (ipaScalars rounds 1) bases] := by
  refine ⟨?_, ?_, fun rounds bases => fold_bases_eq⟩
  · intro after buffer run
    rw [prove_run scalarsSize size1 size2] at run
    rcases completes_folded scalarsSize size1 size2 res1 res2 _ run with ⟨sent, joined, follows⟩
    use sent, joined
    intro rest
    rcases follows rest with ⟨total, sum, value⟩
    rw [verify_run size1 size2, sum, bind_some, value]
    by_cases right : res1 + sample (log ++ statementLog bases1 bases2 res1 res2) • res2 -
        (msmBest scalars bases1 +
          sample (log ++ statementLog bases1 bases2 res1 res2) • msmBest scalars bases2) = 0
    · exact iff_of_true (by simp [lift, guard, right]) (sub_eq_zero.mp right).symm
    · exact iff_of_false (by simp [lift, guard, right]) fun same => right (sub_eq_zero.mpr same.symm)
  · rw [prove_run scalarsSize size1 size2]
    have batched : (zipWith (fun x y => (1 : ZMod modulus) • x +
        sample (log ++ statementLog bases1 bases2 res1 res2) • y) bases1 bases2).length = 2 ^ k := by
      rw [length_zipWith, size1, size2, Nat.min_self]
    rw [← prove_rounds_finishes k scalarsSize batched _ written, proveFolded, run_lift_bind,
      fold_some _ _ size1 size2, bind_some, run_bind]
    cases proveRounds sample k scalars _ _ with
    | none => rfl
    | some out =>
      rw [bind_some, bind_some, run_lift_bind]
      cases out.1.1[0]? <;> rfl

/-- Two scalars, and results that do not match them. -/
theorem two_scalars_finish : (ipaProve (fun _ => 2) [3, 1] [1, 2] [2, 4] (0 : ZMod 5) 1 ⟨[], []⟩ :
    Option (Unit × Transcript (Message 5 (ZMod 5)))).isSome := by
  have two : (2 : ZMod 5) ≠ 0 := by decide
  have : Fact (Nat.Prime 5) := ⟨Nat.prime_five⟩
  apply (@ipa_exact 5 _ _ _ _ 1 [3, 1] [1, 2] [2, 4] _ (fun _ => 2) rfl rfl rfl 0 1 [] []).2.1.mpr
  intro uj drawn
  cases mem_singleton.mp drawn
  exact two

end Exactness

end Group

end Midfall.InnerProductArgument
