import Midfall.BestFft

/-!
# Evaluation domains

The domain of the powers of a root of unity and the coset of the extended domain
by a third root of unity, with the conversions between coefficients and values.
-/

namespace Midfall.DomainConversions

open BestFft ProofReadOrder RadixTwo List

section Parallelize

variable {T : Type}

/-- Chunks of one size with their positions; a remainder stays as it is. -/
def chunksExactMut (size start : Nat) (f : List T → Nat → List T) (v : List T) : List T :=
  let whole := v.length / size * size
  ((chunks size (v.take whole)).zipIdx.flatMap fun entry => f entry.1 (start + entry.2 * size)) ++
    v.drop whole

def parallelize (numThreads : Nat) (f : List T → Nat → List T) (v : List T) : List T :=
  let baseChunkSize := v.length / numThreads
  let cutoffChunkId := v.length % numThreads
  let splitPos := cutoffChunkId * (baseChunkSize + 1)
  let vHi := v.take splitPos
  let vLo := v.drop splitPos
  (if cutoffChunkId ≠ 0 then chunksExactMut (baseChunkSize + 1) 0 f vHi else vHi) ++
    (if baseChunkSize ≠ 0 then chunksExactMut baseChunkSize splitPos f vLo else vLo)

/-- The work on an element depends on its position only. -/
def Elementwise (f : List T → Nat → List T) (g : T × Nat → T) : Prop :=
  ∀ chunk start, f chunk start = (chunk.zipIdx start).map g

variable {f : List T → Nat → List T} {g : T × Nat → T}

theorem chunks_elementwise (each : Elementwise f g) {size : Nat} (pos : 0 < size) (v : List T)
    (start first : Nat) :
    (((chunks size v).zipIdx first).flatMap fun entry => f entry.1 (start + entry.2 * size)) =
      (v.zipIdx (start + first * size)).map g := by
  induction v using chunks.induct size generalizing first with
  | case1 v stop =>
    rw [chunks, if_pos stop, stop.resolve_right (Nat.pos_iff_ne_zero.mp pos)]
    rfl
  | case2 v going ih =>
    have next : start + (first + 1) * size = start + first * size + size := by ring
    rw [chunks, if_neg going, zipIdx_cons, flatMap_cons, ih, each, next]
    by_cases short : v.length ≤ size
    · rw [take_of_length_le short, drop_eq_nil_of_le short, zipIdx_nil, map_nil, append_nil]
    · have cut : v.zipIdx (start + first * size) =
          (v.take size).zipIdx (start + first * size) ++
            (v.drop size).zipIdx (start + first * size + size) := by
        nth_rewrite 1 [← take_append_drop size v]
        rw [zipIdx_append, length_take, Nat.min_eq_left (by omega)]
      rw [cut, map_append]

theorem chunks_divideselementwise (each : Elementwise f g) {size count : Nat} (pos : 0 < size)
    {v : List T} (divides : v.length = count * size) (start : Nat) :
    chunksExactMut size start f v = (v.zipIdx start).map g := by
  have whole : v.length / size * size = v.length := by
    rw [divides, Nat.mul_div_cancel _ pos]
  unfold chunksExactMut
  dsimp only
  rw [whole, take_length, drop_length, append_nil, chunks_elementwise each pos,
    Nat.zero_mul, Nat.add_zero]

theorem parallelize_elementwise (each : Elementwise f g) {numThreads : Nat}
    (pos : 0 < numThreads) (v : List T) :
    parallelize numThreads f v = v.zipIdx.map g := by
  let base := v.length / numThreads
  let cutoff := v.length % numThreads
  have total : numThreads * base + cutoff = v.length := Nat.div_add_mod v.length numThreads
  have cutoffBound : cutoff < numThreads := Nat.mod_lt _ pos
  rcases Nat.exists_eq_add_of_lt cutoffBound with ⟨others, threads⟩
  have parts : v.length = cutoff * (base + 1) + (others + 1) * base := by
    rw [← total, threads]
    ring
  have high : (v.take (cutoff * (base + 1))).length = cutoff * (base + 1) := by
    rw [length_take]
    omega
  have low : (v.drop (cutoff * (base + 1))).length = (others + 1) * base := by
    rw [length_drop]
    omega
  have first : (if cutoff ≠ 0 then chunksExactMut (base + 1) 0 f (v.take (cutoff * (base + 1)))
      else v.take (cutoff * (base + 1))) = (v.take (cutoff * (base + 1))).zipIdx.map g := by
    by_cases none : cutoff = 0
    · rw [if_neg (not_not.mpr none), none, Nat.zero_mul, take_zero]
      rfl
    · rw [if_pos none]
      exact chunks_divideselementwise each (Nat.succ_pos base) high 0
  have second : (if base ≠ 0 then
      chunksExactMut base (cutoff * (base + 1)) f (v.drop (cutoff * (base + 1)))
      else v.drop (cutoff * (base + 1))) =
        ((v.drop (cutoff * (base + 1))).zipIdx (cutoff * (base + 1))).map g := by
    by_cases none : base = 0
    · have empty : v.drop (cutoff * (base + 1)) = [] := by
        apply eq_nil_of_length_eq_zero
        rw [low, none, Nat.mul_zero]
      rw [if_neg (not_not.mpr none), empty]
      rfl
    · rw [if_pos none]
      exact chunks_divideselementwise each (Nat.pos_of_ne_zero none) low _
  show (if cutoff ≠ 0 then _ else _) ++ (if base ≠ 0 then _ else _) = _
  rw [first, second]
  have cut : v.zipIdx = (v.take (cutoff * (base + 1))).zipIdx ++
      (v.drop (cutoff * (base + 1))).zipIdx (cutoff * (base + 1)) := by
    nth_rewrite 1 [← take_append_drop (cutoff * (base + 1)) v]
    rw [zipIdx_append, high, Nat.zero_add]
  rw [cut, map_append]

end Parallelize

structure WithSmallOrderMulGroup (F : Type) [Field F] where
  s : Nat
  rootOfUnity : F
  zeta : F
  rootPrimitive : IsPrimitiveRoot rootOfUnity (2 ^ s)
  zetaCubed : zeta ^ 3 = 1

structure EvaluationDomain (F : Type) where
  n : Nat
  k : Nat
  extendedK : Nat
  omega : F
  omegaInv : F
  extendedOmega : F
  extendedOmegaInv : F
  gCoset : F
  gCosetInv : F
  quotientPolyDegree : Nat
  ifftDivisor : F
  extendedIfftDivisor : F
  tEvaluations : List F
  barycentricWeight : F

/-- `j - 1` on 32 bits. -/
def quotientDegree (overflowChecks : Bool) (j : Nat) : Option Nat :=
  if j = 0 then if overflowChecks then none else some (2 ^ 32 - 1) else some (j - 1)

def mulU64 (overflowChecks : Bool) (x y : Nat) : Option Nat :=
  if overflowChecks && decide (2 ^ 64 ≤ x * y) then none else some (x * y % 2 ^ 64)

/-- The shift of 1 has 64 bits at most; beyond them no power is large enough. -/
def growK (target : Nat) : Nat → Nat → Option Nat
  | 0, _ => none
  | fuel + 1, extendedK =>
    if 64 ≤ extendedK then none
    else if 2 ^ extendedK < target then growK target fuel (extendedK + 1)
    else some extendedK

section Domains

variable {F : Type} [Field F]

def squares (count : Nat) (x : F) : F := (fun y => y * y)^[count] x

/-- The loop that ends back at `orig`; it fails where it takes more than the steps given. -/
def cyclePowers [DecidableEq F] (step orig : F) : Nat → F → Option (List F)
  | 0, _ => none
  | fuel + 1, cur =>
    if cur * step = orig then some [cur]
    else (cyclePowers step orig fuel (cur * step)).map fun rest => cur :: rest

def EvaluationDomain.new [DecidableEq F] (params : WithSmallOrderMulGroup F) (overflowChecks : Bool)
    (j k : Nat) : Option (EvaluationDomain F) := do
  let quotientPolyDegree ← quotientDegree overflowChecks j
  if 64 ≤ k then none
  else
    let n := 2 ^ k
    let target ← mulU64 overflowChecks n quotientPolyDegree
    let extendedK ← growK target 65 k
    if params.s < extendedK then none
    else
      let extendedOmega := squares (params.s - extendedK) params.rootOfUnity
      let omega := squares (extendedK - k) extendedOmega
      let gCoset := params.zeta
      let gCosetInv := gCoset * gCoset
      let orig := gCoset ^ n
      let step := extendedOmega ^ n
      let tEvaluations ← cyclePowers step orig (2 ^ (extendedK - k)) orig
      if tEvaluations.length ≠ 2 ^ (extendedK - k) then none
      else
        return {
          n := n
          k := k
          extendedK := extendedK
          omega := omega
          omegaInv := omega⁻¹
          extendedOmega := extendedOmega
          extendedOmegaInv := extendedOmega⁻¹
          gCoset := gCoset
          gCosetInv := gCosetInv
          quotientPolyDegree := quotientPolyDegree
          ifftDivisor := ((2 ^ k : Nat) : F)⁻¹
          extendedIfftDivisor := ((2 ^ extendedK : Nat) : F)⁻¹
          tEvaluations := tEvaluations.map fun coeff => (coeff - 1)⁻¹
          barycentricWeight := ((n : Nat) : F)⁻¹ }

namespace EvaluationDomain

variable (threads : Nat) (domain : EvaluationDomain F)

def extendedLen : Nat := 2 ^ domain.extendedK

def distributeChunk (cosetPowers : F × F) : List F → Nat → List F
  | [], _ => []
  | a :: rest, index =>
    (match index % 3 with
      | 0 => a
      | 1 => a * cosetPowers.1
      | _ => a * cosetPowers.2) :: distributeChunk cosetPowers rest (index + 1)

def distributePowersZeta (intoCoset : Bool) (a : List F) : List F :=
  let cosetPowers := if intoCoset then (domain.gCoset, domain.gCosetInv)
    else (domain.gCosetInv, domain.gCoset)
  parallelize threads (distributeChunk cosetPowers) a

def ifft (a : List F) (omegaInv : F) (logN : Nat) (divisor : F) : Option (List F) := do
  let a ← bestFft threads a omegaInv logN
  return parallelize threads (fun chunk _ => chunk.map fun value => value * divisor) a

def lagrangeToCoeff (a : List F) : Option (List F) :=
  if a.length ≠ 2 ^ domain.k then none
  else ifft threads a domain.omegaInv domain.k domain.ifftDivisor

def coeffToLagrange (a : List F) : Option (List F) :=
  if a.length ≠ 2 ^ domain.k then none else bestFft threads a domain.omega domain.k

/-- `Vec::resize` with zeros. -/
def resize (a : List F) (newLen : Nat) : List F :=
  a.take newLen ++ replicate (newLen - a.length) 0

def coeffToExtended (a : List F) : Option (List F) :=
  if a.length ≠ 2 ^ domain.k then none
  else bestFft threads (resize (domain.distributePowersZeta threads true a) domain.extendedLen)
    domain.extendedOmega domain.extendedK

def extendedToCoeff (a : List F) : Option (List F) :=
  if a.length ≠ domain.extendedLen then none
  else do
    let a ← ifft threads a domain.extendedOmegaInv domain.extendedK domain.extendedIfftDivisor
    return domain.distributePowersZeta threads false a

def extendedToLagrange (a : List F) : Option (List F) :=
  if a.length ≠ domain.extendedLen then none
  else do
    let a ← ifft threads a domain.extendedOmegaInv domain.extendedK domain.extendedIfftDivisor
    let truncated := a.take domain.n
    bestFft threads (domain.distributePowersZeta threads false truncated) domain.omega domain.k

end EvaluationDomain

theorem grow_k_le {target fuel start extendedK : Nat}
    (grown : growK target fuel start = some extendedK) : start ≤ extendedK := by
  induction fuel generalizing start with
  | zero => cases grown
  | succ fuel ih =>
    rw [growK] at grown
    split_ifs at grown
    · exact (Nat.le_succ start).trans (ih grown)
    · exact le_of_eq (Option.some.inj grown)

theorem squares_eq (count : Nat) (x : F) : squares count x = x ^ 2 ^ count := by
  unfold squares
  induction count with
  | zero => rw [Function.iterate_zero_apply, pow_zero, pow_one]
  | succ count ih =>
    rw [Function.iterate_succ_apply', ih, ← sq, ← pow_mul, pow_succ]

variable {log threads : Nat} {domain : EvaluationDomain F} {omega : F} {coeffs : List F}

theorem squares_primitive {root : F} {less : Nat} (le : less ≤ log)
    (primitive : IsPrimitiveRoot root (2 ^ log)) :
    IsPrimitiveRoot (squares (log - less) root) (2 ^ less) := by
  rw [squares_eq]
  apply primitive.pow (Nat.two_pow_pos log)
  rw [← pow_add, Nat.sub_add_cancel le]

/-- Roots of the right orders, and a third root of unity. -/
structure WellFormed (domain : EvaluationDomain F) : Prop where
  n : domain.n = 2 ^ domain.k
  k : domain.k ≤ domain.extendedK
  omega : IsPrimitiveRoot domain.omega (2 ^ domain.k)
  omegaInv : domain.omegaInv = domain.omega⁻¹
  extendedOmega : IsPrimitiveRoot domain.extendedOmega (2 ^ domain.extendedK)
  extendedOmegaInv : domain.extendedOmegaInv = domain.extendedOmega⁻¹
  gCoset : domain.gCoset ^ 3 = 1
  gCosetInv : domain.gCosetInv = domain.gCoset * domain.gCoset
  ifftDivisor : domain.ifftDivisor = ((2 ^ domain.k : Nat) : F)⁻¹
  extendedIfftDivisor : domain.extendedIfftDivisor = ((2 ^ domain.extendedK : Nat) : F)⁻¹

section

variable [DecidableEq F] {params : WithSmallOrderMulGroup F} {overflowChecks : Bool} {j k : Nat}
  (accepted : EvaluationDomain.new params overflowChecks j k = some domain)

include accepted

theorem new_well_formed : WellFormed domain := by
  unfold EvaluationDomain.new at accepted
  rcases bind_some_iff.mp accepted with ⟨degree, -, afterDegree⟩
  by_cases wide : 64 ≤ k
  · rw [if_pos wide] at afterDegree
    cases afterDegree
  · rw [if_neg wide] at afterDegree
    rcases bind_some_iff.mp afterDegree with ⟨target, -, afterTarget⟩
    rcases bind_some_iff.mp afterTarget with ⟨extendedK, grown, afterGrown⟩
    by_cases beyond : params.s < extendedK
    · rw [if_pos beyond] at afterGrown
      cases afterGrown
    · rw [if_neg beyond] at afterGrown
      rcases bind_some_iff.mp afterGrown with ⟨tEvaluations, -, built⟩
      by_cases short : tEvaluations.length ≠ 2 ^ (extendedK - k)
      · rw [if_pos short] at built
        cases built
      · rw [if_neg short] at built
        have extended := squares_primitive (Nat.not_lt.mp beyond) params.rootPrimitive
        rw [← Option.some.inj built]
        exact {
          n := rfl
          k := grow_k_le grown
          omega := squares_primitive (grow_k_le grown) extended
          omegaInv := rfl
          extendedOmega := extended
          extendedOmegaInv := rfl
          gCoset := params.zetaCubed
          gCosetInv := rfl
          ifftDivisor := rfl
          extendedIfftDivisor := rfl }

theorem new_rows :
    domain.n = 2 ^ k ∧ k < 64 ∧ domain.barycentricWeight = ((domain.n : Nat) : F)⁻¹ := by
  rw [EvaluationDomain.new] at accepted
  simp only [Option.bind_eq_bind, Option.bind_eq_some_iff] at accepted
  rcases accepted with ⟨degree, _, accepted⟩
  split_ifs at accepted with wide
  simp only [Option.bind_eq_some_iff] at accepted
  rcases accepted with ⟨target, _, extendedK, _, accepted⟩
  split_ifs at accepted with beyond
  rcases bind_some_iff.mp accepted with ⟨powers, _, built⟩
  split_ifs at built with short
  rw [← Option.some.inj built]
  exact ⟨rfl, Nat.not_le.mp wide, rfl⟩

end

theorem half_power (primitive : IsPrimitiveRoot omega (2 ^ log)) (pos : 1 ≤ log) :
    omega ^ 2 ^ (log - 1) = -1 := by
  have split : 2 ^ log = 2 ^ (log - 1) * 2 := by
    rw [← pow_succ, Nat.sub_add_cancel pos]
  exact (primitive.pow (Nat.two_pow_pos log) split).eq_neg_one_of_two_right

section

variable (pos : 0 < threads) (primitive : IsPrimitiveRoot omega (2 ^ log)) {a : List F}
  (length : a.length = 2 ^ log)

include pos primitive length

theorem fft_of_primitive : bestFft threads a omega log = some (transform omega a) :=
  best_fft_eq pos length (half_power primitive)

theorem ifft_eq :
    EvaluationDomain.ifft threads a omega⁻¹ log ((2 ^ log : Nat) : F)⁻¹ =
      some ((transform omega⁻¹ a).map fun value => value * ((2 ^ log : Nat) : F)⁻¹) := by
  have each : Elementwise (fun (chunk : List F) (_ : Nat) =>
      chunk.map fun value => value * ((2 ^ log : Nat) : F)⁻¹)
      (fun entry => entry.1 * ((2 ^ log : Nat) : F)⁻¹) := by
    intro chunk start
    have values : (fun entry : F × Nat => entry.1 * ((2 ^ log : Nat) : F)⁻¹) =
      (fun value => value * ((2 ^ log : Nat) : F)⁻¹) ∘ Prod.fst := rfl
    rw [values, ← map_map, zipIdx_map_fst]
  unfold EvaluationDomain.ifft
  rw [fft_of_primitive pos primitive.inv length]
  show some (parallelize _ _ _) = _
  rw [parallelize_elementwise each pos, ← each]

end

theorem size_nonzero (primitive : IsPrimitiveRoot omega (2 ^ log)) :
    ((2 ^ log : Nat) : F) ≠ 0 := by
  have : NeZero (2 ^ log) := ⟨pow_ne_zero log two_ne_zero⟩
  exact primitive.neZero'.out

theorem ifft_transform (pos : 0 < threads) (primitive : IsPrimitiveRoot omega (2 ^ log))
    (length : coeffs.length = 2 ^ log) :
    EvaluationDomain.ifft threads (transform omega coeffs) omega⁻¹ log ((2 ^ log : Nat) : F)⁻¹ =
      some coeffs := by
  rw [ifft_eq pos primitive (by rwa [transform_length]), transform_inverse primitive length,
    map_map]
  congr 1
  calc coeffs.map _ = coeffs.map id := by
        apply map_congr_left
        intro coeff _
        exact mul_inv_cancel_right₀ (size_nonzero primitive) coeff
    _ = coeffs := map_id coeffs

theorem transform_ifft (primitive : IsPrimitiveRoot omega (2 ^ log)) {values : List F}
    (length : values.length = 2 ^ log) :
    transform omega ((transform omega⁻¹ values).map fun value => value * ((2 ^ log : Nat) : F)⁻¹) =
      values := by
  have back := transform_inverse primitive.inv length
  rw [inv_inv] at back
  rw [transform_scaled, back, map_map]
  calc values.map _ = values.map id := by
        apply map_congr_left
        intro value _
        exact mul_inv_cancel_right₀ (size_nonzero primitive) value
    _ = values := map_id values

theorem third_power {zeta : F} (cubed : zeta ^ 3 = 1) (index : Nat) :
    zeta ^ index = zeta ^ (index % 3) := by
  nth_rewrite 1 [← Nat.div_add_mod index 3]
  rw [pow_add, pow_mul, cubed, one_pow, one_mul]

theorem distribute_elementwise {zeta : F} (cubed : zeta ^ 3 = 1) :
    Elementwise (EvaluationDomain.distributeChunk (zeta, zeta * zeta))
      fun entry => entry.1 * zeta ^ entry.2 := by
  intro chunk start
  induction chunk generalizing start with
  | nil => rfl
  | cons a rest ih =>
    rw [EvaluationDomain.distributeChunk, ih, zipIdx_cons, map_cons, third_power cubed start]
    have remainder : start % 3 = 0 ∨ start % 3 = 1 ∨ start % 3 = 2 := by omega
    rcases remainder with zero | one | two
    · rw [zero, pow_zero, mul_one]
      rfl
    · rw [one, pow_one]
      rfl
    · rw [two, sq]
      rfl

theorem distribute_into (pos : 0 < threads) (wellFormed : WellFormed domain) (a : List F) :
    domain.distributePowersZeta threads true a = scaledByPowers domain.gCoset a := by
  unfold EvaluationDomain.distributePowersZeta
  rw [if_pos rfl, wellFormed.gCosetInv]
  exact parallelize_elementwise (distribute_elementwise wellFormed.gCoset) pos a

theorem distribute_out (pos : 0 < threads) (wellFormed : WellFormed domain) (a : List F) :
    domain.distributePowersZeta threads false a = scaledByPowers domain.gCosetInv a := by
  have square : domain.gCosetInv * domain.gCosetInv = domain.gCoset := by
    rw [wellFormed.gCosetInv]
    calc domain.gCoset * domain.gCoset * (domain.gCoset * domain.gCoset)
        = domain.gCoset ^ 3 * domain.gCoset := by ring
      _ = domain.gCoset := by rw [wellFormed.gCoset, one_mul]
  have cubed : domain.gCosetInv ^ 3 = 1 := by
    rw [wellFormed.gCosetInv, ← sq, ← pow_mul, Nat.mul_comm, pow_mul, wellFormed.gCoset, one_pow]
  have powers : domain.distributePowersZeta threads false a =
      parallelize threads (EvaluationDomain.distributeChunk (domain.gCosetInv, domain.gCoset)) a := rfl
  rw [powers, ← square]
  exact parallelize_elementwise (distribute_elementwise cubed) pos a

theorem coset_cancels (wellFormed : WellFormed domain) (coeffs : List F) :
    scaledByPowers domain.gCosetInv (scaledByPowers domain.gCoset coeffs) = coeffs := by
  apply scaled_twice
  rw [wellFormed.gCosetInv, ← sq, ← pow_succ', wellFormed.gCoset]

def smallValues (domain : EvaluationDomain F) (coeffs : List F) : List F :=
  (range (2 ^ domain.k)).map fun i => valueAt (domain.omega ^ i) coeffs

def cosetValues (domain : EvaluationDomain F) (coeffs : List F) : List F :=
  (range domain.extendedLen).map fun i =>
    valueAt (domain.gCoset * domain.extendedOmega ^ i) coeffs

/-- Between coefficients and values, whatever number of threads each call has. -/
structure Converts (domain : EvaluationDomain F) : Prop where
  toLagrange : ∀ threads coeffs, 0 < threads → coeffs.length = 2 ^ domain.k →
    domain.coeffToLagrange threads coeffs = some (smallValues domain coeffs)
  coeffInverse : ∀ threads others coeffs, 0 < threads → 0 < others →
    coeffs.length = 2 ^ domain.k → ∃ values, domain.coeffToLagrange threads coeffs = some values ∧
      domain.lagrangeToCoeff others values = some coeffs
  lagrangeInverse : ∀ threads others values, 0 < threads → 0 < others →
    values.length = 2 ^ domain.k → ∃ coeffs, domain.lagrangeToCoeff threads values = some coeffs ∧
      domain.coeffToLagrange others coeffs = some values
  toExtended : ∀ threads coeffs, 0 < threads → coeffs.length = 2 ^ domain.k →
    domain.coeffToExtended threads coeffs = some (cosetValues domain coeffs)
  fromExtended : ∀ threads coeffs, 0 < threads → coeffs.length = domain.extendedLen →
    domain.extendedToCoeff threads (cosetValues domain coeffs) = some coeffs
  extendedToLagrange : ∀ threads coeffs, 0 < threads → coeffs.length = 2 ^ domain.k →
    domain.extendedToLagrange threads (cosetValues domain coeffs) = some (smallValues domain coeffs)

theorem coeff_to_lagrange_eq (wellFormed : WellFormed domain) (pos : 0 < threads)
    (length : coeffs.length = 2 ^ domain.k) :
    domain.coeffToLagrange threads coeffs = some (transform domain.omega coeffs) := by
  unfold EvaluationDomain.coeffToLagrange
  rw [if_neg (not_not.mpr length), fft_of_primitive pos wellFormed.omega length]

theorem lagrange_to_coeff_eq (wellFormed : WellFormed domain) {values : List F}
    (length : values.length = 2 ^ domain.k) :
    domain.lagrangeToCoeff threads values =
      EvaluationDomain.ifft threads values domain.omega⁻¹ domain.k
        ((2 ^ domain.k : Nat) : F)⁻¹ := by
  unfold EvaluationDomain.lagrangeToCoeff
  rw [if_neg (not_not.mpr length), wellFormed.omegaInv, wellFormed.ifftDivisor]

theorem coset_values_eq (domain : EvaluationDomain F) (length : coeffs.length = domain.extendedLen) :
    cosetValues domain coeffs =
      transform domain.extendedOmega (scaledByPowers domain.gCoset coeffs) := by
  rw [transform_scaled_by_powers, length]
  rfl

/-- The coefficients of a small polynomial, filled up with zeros. -/
def padded (domain : EvaluationDomain F) (coeffs : List F) : List F :=
  coeffs ++ replicate (domain.extendedLen - coeffs.length) 0

theorem padded_length (wellFormed : WellFormed domain) (length : coeffs.length = 2 ^ domain.k) :
    (padded domain coeffs).length = domain.extendedLen := by
  have fits : 2 ^ domain.k ≤ domain.extendedLen := Nat.pow_le_pow_right Nat.two_pos wellFormed.k
  rw [padded, length_append, length_replicate]
  omega

theorem coset_values_padded (domain : EvaluationDomain F) (coeffs : List F) :
    cosetValues domain (padded domain coeffs) = cosetValues domain coeffs := by
  unfold cosetValues padded
  simp only [value_padded]

theorem ifft_coset (wellFormed : WellFormed domain) (pos : 0 < threads)
    (length : coeffs.length = domain.extendedLen) :
    EvaluationDomain.ifft threads (cosetValues domain coeffs) domain.extendedOmegaInv
        domain.extendedK domain.extendedIfftDivisor =
      some (scaledByPowers domain.gCoset coeffs) := by
  rw [coset_values_eq domain length, wellFormed.extendedOmegaInv, wellFormed.extendedIfftDivisor]
  exact ifft_transform pos wellFormed.extendedOmega
    ((scaled_by_powers_length _ _).trans length)

theorem well_formed_converts (wellFormed : WellFormed domain) :
    Converts domain where
  toLagrange := by
    intro threads coeffs pos length
    rw [coeff_to_lagrange_eq wellFormed pos length, transform, length]
    rfl
  coeffInverse := by
    intro threads others coeffs pos othersPositive length
    refine ⟨_, coeff_to_lagrange_eq wellFormed pos length, ?_⟩
    rw [lagrange_to_coeff_eq wellFormed ((transform_length _ _).trans length)]
    exact ifft_transform othersPositive wellFormed.omega length
  lagrangeInverse := by
    intro threads others values pos othersPositive length
    have inverse := ifft_eq pos wellFormed.omega length
    refine ⟨_, (lagrange_to_coeff_eq wellFormed length).trans inverse, ?_⟩
    rw [coeff_to_lagrange_eq wellFormed othersPositive (by simpa using length),
      transform_ifft wellFormed.omega length]
  toExtended := by
    intro threads coeffs pos length
    have fits : 2 ^ domain.k ≤ domain.extendedLen := Nat.pow_le_pow_right Nat.two_pos wellFormed.k
    have resized : EvaluationDomain.resize (scaledByPowers domain.gCoset coeffs)
        domain.extendedLen = scaledByPowers domain.gCoset (padded domain coeffs) := by
      unfold EvaluationDomain.resize padded
      rw [take_of_length_le (by rw [scaled_by_powers_length]; omega), scaled_padded,
        scaled_by_powers_length]
    have whole := padded_length wellFormed length
    unfold EvaluationDomain.coeffToExtended
    rw [if_neg (not_not.mpr length), distribute_into pos wellFormed, resized,
      fft_of_primitive pos wellFormed.extendedOmega ((scaled_by_powers_length _ _).trans whole),
      ← coset_values_eq domain whole, coset_values_padded]
  fromExtended := by
    intro threads coeffs pos length
    have valuesLength : (cosetValues domain coeffs).length = domain.extendedLen := by
      rw [cosetValues, length_map, length_range]
    unfold EvaluationDomain.extendedToCoeff
    rw [if_neg (not_not.mpr valuesLength), ifft_coset wellFormed pos length]
    show some (domain.distributePowersZeta threads false _) = _
    rw [distribute_out pos wellFormed, coset_cancels wellFormed]
  extendedToLagrange := by
    intro threads coeffs pos length
    have valuesLength : (cosetValues domain coeffs).length = domain.extendedLen := by
      rw [cosetValues, length_map, length_range]
    have truncated : (scaledByPowers domain.gCoset (padded domain coeffs)).take domain.n =
        scaledByPowers domain.gCoset coeffs := by
      rw [padded, scaled_padded, wellFormed.n]
      exact take_left' ((scaled_by_powers_length _ _).trans length)
    unfold EvaluationDomain.extendedToLagrange
    rw [if_neg (not_not.mpr valuesLength), ← coset_values_padded,
      ifft_coset wellFormed pos (padded_length wellFormed length)]
    show bestFft threads (domain.distributePowersZeta threads false
      ((scaledByPowers domain.gCoset (padded domain coeffs)).take domain.n)) domain.omega domain.k = _
    rw [truncated, distribute_out pos wellFormed, coset_cancels wellFormed,
      fft_of_primitive pos wellFormed.omega length, transform, length]
    rfl

end Domains

/-- Sums at all powers, for fields and for groups over them, and the conversions of each domain. -/
theorem transforms_and_conversions (F : Type) [Field F] [DecidableEq F] :
    (∀ (G : Type) [AddCommGroup G] [Module F G] (threads logN : Nat) (a : List G) (omega : F),
      0 < threads → a.length = 2 ^ logN → omega ^ 2 ^ logN = 1 →
        (1 ≤ logN → omega ^ 2 ^ (logN - 1) = -1) →
          bestFft threads a omega logN = some ((range (2 ^ logN)).map fun i =>
            ∑ j ∈ Finset.range (2 ^ logN), omega ^ (i * j) • a.getD j 0)) ∧
      ∀ (params : WithSmallOrderMulGroup F) (overflowChecks : Bool) (j k : Nat)
        (domain : EvaluationDomain F),
        EvaluationDomain.new params overflowChecks j k = some domain → Converts domain := by
  constructor
  · intro G _ _ threads logN a omega positive length _ minusOne
    rw [best_fft_eq positive length minusOne, transform_eq_sums, length]
  · intro params overflowChecks j k domain accepted
    exact well_formed_converts (new_well_formed accepted)

instance thirteenPrime : Fact (Nat.Prime 13) := ⟨by norm_num⟩

theorem eight_primitive : IsPrimitiveRoot (8 : ZMod 13) (2 ^ 2) := by
  apply IsPrimitiveRoot.mk_of_lt (8 : ZMod 13) (by norm_num) (by decide)
  intro l pos below
  interval_cases l <;> decide

def thirteenGroup : WithSmallOrderMulGroup (ZMod 13) where
  s := 2
  rootOfUnity := ((8 : Nat) : ZMod 13)
  zeta := ((3 : Nat) : ZMod 13)
  rootPrimitive := eight_primitive
  zetaCubed := by decide

theorem thirteen_converts :
    bestFft 2 [(1 : ZMod 13), 2, 3, 4] (8 : ZMod 13) 2 =
        some ((range (2 ^ 2)).map fun i => ∑ j ∈ Finset.range (2 ^ 2),
          (8 : ZMod 13) ^ (i * j) • [(1 : ZMod 13), 2, 3, 4].getD j 0) ∧
      ∃ domain, EvaluationDomain.new thirteenGroup true 3 1 = some domain ∧ Converts domain := by
  constructor
  · exact (transforms_and_conversions (ZMod 13)).1 (ZMod 13) 2 2 [1, 2, 3, 4] 8 (by decide) rfl
      (by decide) (fun _ => by decide)
  · have accepted : (EvaluationDomain.new thirteenGroup true 3 1).isSome := by decide +kernel
    rcases Option.isSome_iff_exists.mp accepted with ⟨domain, built⟩
    exact ⟨domain, built, (transforms_and_conversions (ZMod 13)).2 thirteenGroup true 3 1 domain built⟩

end Midfall.DomainConversions
