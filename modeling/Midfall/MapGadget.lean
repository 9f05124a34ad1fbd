import Midfall.NativeDecomposition
import Midfall.ScalarField
import Midfall.SuccinctMap

/-!
# The map in the circuit

The gadget keeps the assigned root and, for its witnesses, the map off the
circuit. Looking up a key opens its leaf; inserting opens the leaf against the
old root and then, with the same siblings, against the new one.
-/

namespace Midfall.MapGadget

open CircuitPrograms NativeGadget NativeDecomposition List
open MerkleTrees SuccinctMap

variable {modulus : Nat} [Fact modulus.Prime]

structure State (modulus : Nat) where
  succinctRepr : ZMod modulus
  map : MapMt modulus

variable (hash : List (ZMod modulus) → ZMod modulus) (hashed : List (ZMod modulus) → Prop)

def hashChip (inputs : List (ZMod modulus)) : Circuit (ZMod modulus) where
  honest := some (hash inputs)
  allows := fun digest => digest = hash inputs ∧ hashed inputs

/-- Hash a node with its sibling on the side of the bit. -/
def verifyLevel (node : ZMod modulus) (entry : ZMod modulus × ZMod modulus) :
    Circuit (ZMod modulus) := do
  let siblings ← condSwap entry.1 node entry.2
  hashChip hash hashed [siblings.1, siblings.2]

def verifyPath (succinctRepr key value : ZMod modulus) (proof : List (ZMod modulus)) :
    Circuit Unit := do
  let zero ← assignFixed 0
  let path ← hashChip hash hashed [key, zero]
  let pathAsBits ← assignedToLeBits path none true
  if pathAsBits.length ≠ treeHeight then panic
  else
    let node ← (pathAsBits.zip proof).foldlM (verifyLevel hash hashed) value
    assertEqual node succinctRepr

def getPath (state : State modulus) (key : ZMod modulus) : Circuit (List (ZMod modulus)) :=
  match state.map.getPath hash key with
  | none => panic
  | some path => path.mapM assign

def updateState (state : State modulus) (key value : ZMod modulus) : Circuit (State modulus) :=
  match state.map.insert hash key value with
  | none => panic
  | some map => do
    let assignedNewRoot ← assign map.succinctRepr
    return { succinctRepr := assignedNewRoot, map := map }

def init (map : MapMt modulus) : Circuit (State modulus) := do
  let succinctRepr ← assign map.succinctRepr
  return { succinctRepr := succinctRepr, map := map }

def insert (state : State modulus) (key value : ZMod modulus) : Circuit (State modulus) := do
  let assignedCurrentValue ← assign (state.map.get key)
  let path ← getPath hash state key
  verifyPath hash hashed state.succinctRepr key assignedCurrentValue path
  let updated ← updateState hash state key value
  verifyPath hash hashed updated.succinctRepr key value path
  return updated

def get (state : State modulus) (key : ZMod modulus) : Circuit (ZMod modulus) := do
  let assignedValue ← assign (state.map.get key)
  let path ← getPath hash state key
  verifyPath hash hashed state.succinctRepr key assignedValue path
  return assignedValue

/-! ### Paths -/

section Paths

variable {hash hashed}

def pairHashed (hashed : List (ZMod modulus) → Prop) (left right : ZMod modulus) : Prop :=
  hashed [left, right]

omit [Fact modulus.Prime] in
theorem swapped_ordered (index : Nat) (child other : ZMod modulus) :
    (if decide (index % 2 = 1) then (other, child) else (child, other)) = ordered index child other := by
  unfold ordered
  simp only [decide_eq_true_eq]

theorem verify_level_allows (index : Nat) (child other result : ZMod modulus) :
    (verifyLevel hash hashed child (bit (decide (index % 2 = 1)), other)).allows result ↔
      pairHashed hashed (ordered index child other).1 (ordered index child other).2 ∧
        result = parent (pairHash hash) index child other := by
  unfold verifyLevel
  simp only [bind_allows, (computes_cond_swap _ _ _).allows, exists_eq_left, swapped_ordered]
  exact and_comm

theorem verify_level_satisfies (index : Nat) (child other : ZMod modulus)
    (known : pairHashed hashed (ordered index child other).1 (ordered index child other).2) :
    Satisfies (verifyLevel hash hashed child (bit (decide (index % 2 = 1)), other))
      (parent (pairHash hash) index child other) where
  honest := by
    unfold verifyLevel
    rw [honest_bind (computes_cond_swap _ _ _).honest, swapped_ordered]
    rfl
  allowed := (verify_level_allows index child other _).mpr ⟨known, rfl⟩

theorem path_loop_allows (index : Nat) (child : ZMod modulus) (proof : List (ZMod modulus))
    (result : ZMod modulus) :
    ((((toLeBits proof.length index).map bit).zip proof).foldlM (verifyLevel hash hashed)
      child).allows result ↔
        ClimbKnown (pairHash hash) (pairHashed hashed) index child proof ∧
          result = climb (pairHash hash) index child proof := by
  induction proof generalizing index child with
  | nil => exact (true_and _).symm ▸ Iff.rfl
  | cons other proof ih =>
    rw [length_cons, toLeBits, map_cons, zip_cons_cons, foldlM_cons]
    simp only [bind_allows, verify_level_allows, ih]
    constructor
    · rintro ⟨middle, ⟨known, rfl⟩, rest, same⟩
      exact ⟨⟨known, rest⟩, same⟩
    · rintro ⟨⟨known, rest⟩, same⟩
      exact ⟨_, ⟨known, rfl⟩, rest, same⟩

variable {proof : List (ZMod modulus)}

theorem path_loop_satisfies {index : Nat} {child : ZMod modulus}
    (known : ClimbKnown (pairHash hash) (pairHashed hashed) index child proof) :
    Satisfies ((((toLeBits proof.length index).map bit).zip proof).foldlM
      (verifyLevel hash hashed) child) (climb (pairHash hash) index child proof) := by
  induction proof generalizing index child with
  | nil => exact satisfies_pure child
  | cons other proof ih =>
    rw [length_cons, toLeBits, map_cons, zip_cons_cons, foldlM_cons]
    exact (verify_level_satisfies index child other known.1).bind (ih known.2)

theorem key_bits (size : modulus.size = treeHeight) (odd : modulus % 2 = 1)
    (key : ZMod modulus) : Computes (assignedToLeBits (hash [key, 0]) none true)
      ((toLeBits treeHeight (keyIndex hash key)).map bit) := by
  rw [← size]
  exact computes_assigned_to_le_bits odd _

variable {repr key value : ZMod modulus}

section

variable (size : modulus.size = treeHeight) (odd : modulus % 2 = 1)
  (length : proof.length = treeHeight)

include size odd length

theorem verify_path_allows (result : Unit) :
    (verifyPath hash hashed repr key value proof).allows result ↔ hashed [key, 0] ∧
      ClimbKnown (pairHash hash) (pairHashed hashed) (keyIndex hash key) value proof ∧
        climb (pairHash hash) (keyIndex hash key) value proof = repr := by
  have bits := @key_bits modulus _ hash size odd key
  have levels : ((toLeBits treeHeight (keyIndex hash key)).map
      (bit : Bool → ZMod modulus)).length = treeHeight := by
    rw [length_map, to_le_bits_length]
  unfold verifyPath
  simp only [bind_allows, (computes_assign_fixed (0 : ZMod modulus)).allows, exists_eq_left]
  constructor
  · rintro ⟨path, ⟨rfl, known⟩, found, foundAllowed, rest⟩
    rw [bits.allows] at foundAllowed
    subst foundAllowed
    rw [if_neg (not_not.mpr levels)] at rest
    rcases rest with ⟨node, loop, same⟩
    rw [← length, path_loop_allows] at loop
    exact ⟨known, loop.1, loop.2.symm.trans same⟩
  · rintro ⟨known, climbKnown, reaches⟩
    refine ⟨_, ⟨rfl, known⟩, _, (bits.allows _).mpr rfl, ?_⟩
    rw [if_neg (not_not.mpr levels)]
    refine ⟨_, ?_, reaches⟩
    rw [← length, path_loop_allows]
    exact ⟨climbKnown, rfl⟩

theorem verify_path_satisfies (known : hashed [key, 0])
    (climbKnown : ClimbKnown (pairHash hash) (pairHashed hashed) (keyIndex hash key) value proof)
    (reaches : climb (pairHash hash) (keyIndex hash key) value proof = repr) :
    Satisfies (verifyPath hash hashed repr key value proof) () where
  honest := by
    have bits := @key_bits modulus _ hash size odd key
    have levels : ((toLeBits treeHeight (keyIndex hash key)).map
        (bit : Bool → ZMod modulus)).length = treeHeight := by
      rw [length_map, to_le_bits_length]
    have digest : (hashChip hash hashed [key, 0]).honest = some (hash [key, 0]) := rfl
    have loop := (path_loop_satisfies climbKnown).honest
    rw [length] at loop
    unfold verifyPath
    rw [honest_bind (computes_assign_fixed 0).honest, honest_bind digest, honest_bind bits.honest,
      if_neg (not_not.mpr levels), honest_bind loop]
    exact (computes_constrain reaches).honest
  allowed := (verify_path_allows size odd length ()).mpr ⟨known, climbKnown, reaches⟩

end

end Paths

/-! ### Looking up and inserting -/

section Operations

variable {hash hashed} {default : ZMod modulus} {leaves : Nat → ZMod modulus}
  {state : State modulus}

structure Rooted (hash : List (ZMod modulus) → ZMod modulus) (state : State modulus)
    (leaves : Nat → ZMod modulus) : Prop where
  repr : state.succinctRepr = node (pairHash hash) leaves treeHeight 0

def TreeHashed (hash : List (ZMod modulus) → ZMod modulus) (hashed : List (ZMod modulus) → Prop)
    (leaves : Nat → ZMod modulus) : Prop :=
  TreeKnown (pairHash hash) (pairHashed hashed) leaves treeHeight

theorem get_path_length (size : modulus.size = treeHeight) (map : MapMt modulus)
    (key : ZMod modulus) : ∃ path, map.getPath hash key = some path ∧ path.length = treeHeight := by
  rcases @node_index_of_key modulus hash _ size key with ⟨nodeIndex, found, -⟩
  have loop : ∀ (heights : List Nat) (path : List (ZMod modulus)) (index : NodeIndex),
      (heights.foldl (fun state height =>
        (state.1 ++ [map.getSibling state.2 height], state.2.moveToParent)) (path, index)).1.length =
          path.length + heights.length := by
    intro heights
    induction heights with
    | nil =>
      intro path index
      rfl
    | cons height heights ih =>
      intro path index
      rw [foldl_cons, ih, length_append, length_singleton,
        length_cons, Nat.add_assoc, Nat.add_comm 1]
  unfold MapMt.getPath
  rw [found]
  refine ⟨_, rfl, ?_⟩
  rw [loop, length_nil, length_range, Nat.zero_add]

theorem get_path_allows (size : modulus.size = treeHeight) (state : State modulus)
    (key : ZMod modulus) (path : List (ZMod modulus)) :
    (getPath hash state key).allows path ↔ path.length = treeHeight := by
  rcases @get_path_length modulus _ hash size state.map key with ⟨found, run, length⟩
  unfold getPath
  rw [run]
  dsimp only
  rw [loop_allows, ← length]
  constructor
  · intro all
    exact all.length_eq.symm
  · intro same
    rw [forall₂_iff_zip]
    exact ⟨same.symm, fun _ => trivial⟩

theorem climbs_to_root (size : modulus.size = treeHeight) (key : ZMod modulus) :
    keyIndex hash key / 2 ^ treeHeight = 0 := Nat.div_eq_of_lt (key_index_lt size key)

variable {key value : ZMod modulus}

section

variable (size : modulus.size = treeHeight) (odd : modulus % 2 = 1)
  (free : CollisionFree (pairHash hash) (pairHashed hashed))
  (treeHashed : TreeHashed hash hashed leaves) (rooted : Rooted hash state leaves)

include size odd free treeHashed rooted

/-- A lookup that the constraints allow returns the leaf and uses its siblings. -/
theorem opening_sound {path : List (ZMod modulus)} (length : path.length = treeHeight)
    (verified : (verifyPath hash hashed state.succinctRepr key value path).allows ()) :
    value = leaves (keyIndex hash key) ∧
      path = opening (pairHash hash) leaves 0 (keyIndex hash key) treeHeight := by
  rcases (verify_path_allows size odd length ()).mp verified with ⟨-, climbKnown, reaches⟩
  have pinned := climb_pins free climbKnown treeHashed ((Nat.zero_add _).trans length) (by
    rw [length, climbs_to_root size, reaches, rooted.repr])
  rw [length] at pinned
  exact pinned

theorem get_sound (key : ZMod modulus) :
    Ensures (get hash hashed state key) fun value => value = leaves (keyIndex hash key) := by
  rintro value ⟨found, -, path, pathAllowed, _, verified, rfl⟩
  rw [get_path_allows size] at pathAllowed
  exact (opening_sound size odd free treeHashed rooted pathAllowed verified).1

theorem insert_sound (key value : ZMod modulus) :
    Ensures (insert hash hashed state key value) fun updated =>
      Rooted hash updated (insertLeaf hash leaves (key, value)) := by
  rintro updated ⟨current, -, path, pathAllowed, _, verified, found, -, _, again, rfl⟩
  rw [get_path_allows size] at pathAllowed
  have pinned := (opening_sound size odd free treeHashed rooted pathAllowed verified).2
  rcases (verify_path_allows size odd pathAllowed ()).mp again with ⟨-, -, reaches⟩
  have after := @climb_opening _ (pairHash hash) (insertLeaf hash leaves (key, value)) 0
    (keyIndex hash key) treeHeight
  have leaf : node (pairHash hash) (insertLeaf hash leaves (key, value)) 0 (keyIndex hash key) =
      value := insert_leaf_self leaves key value
  rw [leaf, insertLeaf, opening_update _ _ (by rw [pow_zero, Nat.div_one]), ← pinned, reaches,
    climbs_to_root size, Nat.zero_add] at after
  exact ⟨after⟩

end

/-- The prover's state stands for the tree. -/
structure Stands (hash : List (ZMod modulus) → ZMod modulus) (default : ZMod modulus)
    (state : State modulus) (leaves : Nat → ZMod modulus) : Prop where
  rooted : Rooted hash state leaves
  represents : Represents hash default state.map leaves

theorem get_path_satisfies (size : modulus.size = treeHeight)
    (stands : Stands hash default state leaves) (key : ZMod modulus) :
    Satisfies (getPath hash state key)
      (opening (pairHash hash) leaves 0 (keyIndex hash key) treeHeight) := by
  unfold getPath
  rw [get_path_eq size stands.represents]
  dsimp only
  have all := satisfies_loop (opening (pairHash hash) leaves 0 (keyIndex hash key) treeHeight)
    (fun sibling (_ : sibling ∈ _) => satisfies_assign sibling)
  rwa [map_id'] at all

theorem opening_satisfies (size : modulus.size = treeHeight) (odd : modulus % 2 = 1)
    {repr : ZMod modulus} (root : repr = node (pairHash hash) leaves treeHeight 0)
    {key : ZMod modulus} (known : hashed [key, 0]) (treeHashed : TreeHashed hash hashed leaves) :
    Satisfies (verifyPath hash hashed repr key (leaves (keyIndex hash key))
      (opening (pairHash hash) leaves 0 (keyIndex hash key) treeHeight)) () := by
  apply verify_path_satisfies size odd (opening_length _ _ _) known
  · exact climb_known_opening treeHashed (keyIndex hash key) treeHeight (by decide)
  · have reaches := @climb_opening _ (pairHash hash) leaves 0 (keyIndex hash key) treeHeight
    rw [climbs_to_root size, Nat.zero_add, ← root] at reaches
    exact reaches

section

variable (size : modulus.size = treeHeight) (odd : modulus % 2 = 1)
  (stands : Stands hash default state leaves)

include size odd stands

theorem get_complete {key : ZMod modulus} (known : hashed [key, 0])
    (treeHashed : TreeHashed hash hashed leaves)
    (current : state.map.get key = leaves (keyIndex hash key)) :
    Satisfies (get hash hashed state key) (leaves (keyIndex hash key)) := by
  unfold get
  rw [current]
  refine (satisfies_assign _).bind ?_
  refine (get_path_satisfies size stands key).bind ?_
  exact (opening_satisfies size odd stands.rooted.repr known treeHashed).returning _

theorem insert_complete (known : hashed [key, 0]) (treeHashed : TreeHashed hash hashed leaves)
    (afterHashed : TreeHashed hash hashed (insertLeaf hash leaves (key, value)))
    (current : state.map.get key = leaves (keyIndex hash key)) :
    ∃ updated, Satisfies (insert hash hashed state key value) updated ∧
      Stands hash default updated (insertLeaf hash leaves (key, value)) ∧
      updated.map.map = fun other => if other = key.val then some value else state.map.map other := by
  rcases insert_represents size stands.represents key value with ⟨map, run, represents, entries⟩
  refine ⟨⟨map.succinctRepr, map⟩, ?_, ⟨⟨represents.root⟩, represents⟩, entries⟩
  unfold insert
  rw [current]
  refine (satisfies_assign _).bind ?_
  refine (get_path_satisfies size stands key).bind ?_
  refine (opening_satisfies size odd stands.rooted.repr known treeHashed).bind ?_
  have updates : Satisfies (updateState hash state key value) ⟨map.succinctRepr, map⟩ := by
    unfold updateState
    rw [run]
    exact (satisfies_assign _).returning _
  refine updates.bind ?_
  have opened := @opening_satisfies modulus _ hash hashed (insertLeaf hash leaves (key, value)) size
    odd map.succinctRepr represents.root key known afterHashed
  have siblings : opening (pairHash hash) (insertLeaf hash leaves (key, value)) 0
      (keyIndex hash key) treeHeight =
        opening (pairHash hash) leaves 0 (keyIndex hash key) treeHeight :=
    opening_update value treeHeight (by rw [pow_zero, Nat.div_one])
  rw [insert_leaf_self, siblings] at opened
  exact opened.returning _

end

end Operations

/-! ### Sessions -/

/-- What a circuit asks of the gadget; a map comes from `new` and a sequence of inserts. -/
inductive Request (modulus : Nat) where
  | init (default : ZMod modulus) (entries : List (ZMod modulus × ZMod modulus))
  | insert (key value : ZMod modulus)
  | get (key : ZMod modulus)

/-- Serve a request; the output is the root after it or the value of the key. -/
def serve (state : Option (State modulus)) : Request modulus →
    Circuit (Option (State modulus) × ZMod modulus)
  | .init default entries =>
    match build hash default entries with
    | none => panic
    | some map => do
      let state ← init map
      return (some state, state.succinctRepr)
  | .insert key value =>
    match state with
    | none => panic
    | some state => do
      let updated ← insert hash hashed state key value
      return (some updated, updated.succinctRepr)
  | .get key =>
    match state with
    | none => panic
    | some state => do
      let value ← get hash hashed state key
      return (some state, value)

def session (state : Option (State modulus)) : List (Request modulus) →
    Circuit (List (ZMod modulus))
  | [] => return []
  | request :: requests => do
    let (next, output) ← serve hash hashed state request
    let outputs ← session next requests
    return output :: outputs

def serveTree (tree : Option (Nat → ZMod modulus)) :
    Request modulus → Option ((Nat → ZMod modulus) × ZMod modulus)
  | .init default entries =>
    some (leavesOf hash default entries,
      node (pairHash hash) (leavesOf hash default entries) treeHeight 0)
  | .insert key value => tree.map fun leaves =>
    (insertLeaf hash leaves (key, value),
      node (pairHash hash) (insertLeaf hash leaves (key, value)) treeHeight 0)
  | .get key => tree.map fun leaves => (leaves, leaves (keyIndex hash key))

/-- The roots and leaves of the tree along a sequence of requests. -/
def treeSession (tree : Option (Nat → ZMod modulus)) :
    List (Request modulus) → Option (List (ZMod modulus))
  | [] => some []
  | request :: requests =>
    (serveTree hash tree request).bind fun served =>
      (treeSession (some served.1) requests).map fun outputs => served.2 :: outputs

/-- The trees along a sequence of requests have their children among the hashed pairs. -/
def TreesHashed (tree : Option (Nat → ZMod modulus)) : List (Request modulus) → Prop
  | [] => ∀ leaves ∈ tree, TreeHashed hash hashed leaves
  | request :: requests => (∀ leaves ∈ tree, TreeHashed hash hashed leaves) ∧
      ∀ served ∈ serveTree hash tree request, TreesHashed (some served.1) requests

/-- The assigned root of a map at `init` is its root; the circuit leaves it to its caller. -/
def RootsAgree : List (Request modulus) → List (ZMod modulus) → Prop
  | .init default entries :: requests, output :: outputs =>
    output = node (pairHash hash) (leavesOf hash default entries) treeHeight 0 ∧
      RootsAgree requests outputs
  | _ :: requests, _ :: outputs => RootsAgree requests outputs
  | _, _ => True

def keysOf : Request modulus → List (ZMod modulus)
  | .init _ entries => entries.map Prod.fst
  | .insert key _ => [key]
  | .get key => [key]

def KeysApart (requests : List (Request modulus)) : Prop :=
  ∀ first ∈ requests.flatMap keysOf, ∀ second ∈ requests.flatMap keysOf,
    keyIndex hash first = keyIndex hash second → first = second

section Sessions

variable {hash hashed}

variable {state : Option (State modulus)} {tree : Option (Nat → ZMod modulus)}

variable {request : Request modulus}

section

variable (size : modulus.size = treeHeight) (odd : modulus % 2 = 1)
  (free : CollisionFree (pairHash hash) (pairHashed hashed))

include size odd free

theorem serve_sound (tracks : ∀ current ∈ state, ∃ leaves ∈ tree, Rooted hash current leaves)
    (treeHashed : ∀ leaves ∈ tree, TreeHashed hash hashed leaves) {next : Option (State modulus)}
    {output : ZMod modulus} (allowed : (serve hash hashed state request).allows (next, output))
    (root : RootsAgree hash [request] [output]) :
    ∃ leaves, serveTree hash tree request = some (leaves, output) ∧
      ∀ current ∈ next, Rooted hash current leaves := by
  cases request with
  | init default entries =>
    refine ⟨leavesOf hash default entries, ?_, ?_⟩
    · rw [serveTree, root.1]
    · unfold serve at allowed
      dsimp only at allowed
      cases built : build hash default entries with
      | none =>
        rw [built] at allowed
        exact allowed.elim
      | some map =>
        rw [built] at allowed
        rcases allowed with ⟨made, ⟨repr, -, rfl⟩, same⟩
        cases same
        intro current mem
        cases mem
        exact ⟨root.1⟩
  | insert key value =>
    cases state with
    | none => exact allowed.elim
    | some state =>
      rcases tracks state rfl with ⟨leaves, mem, rooted⟩
      cases mem
      rcases allowed with ⟨updated, inserted, same⟩
      cases same
      have after := insert_sound size odd free (treeHashed leaves rfl) rooted key value updated
        inserted
      refine ⟨insertLeaf hash leaves (key, value), ?_, ?_⟩
      · rw [after.repr]
        rfl
      · intro current mem
        cases mem
        exact after
  | get key =>
    cases state with
    | none => exact allowed.elim
    | some state =>
      rcases tracks state rfl with ⟨leaves, mem, rooted⟩
      cases mem
      rcases allowed with ⟨value, found, same⟩
      cases same
      have leaf := get_sound size odd free (treeHashed leaves rfl) rooted key output found
      refine ⟨leaves, ?_, ?_⟩
      · rw [leaf]
        rfl
      · intro current mem
        cases mem
        exact rooted

theorem session_sound (requests : List (Request modulus))
    (tracks : ∀ current ∈ state, ∃ leaves ∈ tree, Rooted hash current leaves)
    (treesHashed : TreesHashed hash hashed tree requests) {outputs : List (ZMod modulus)}
    (allowed : (session hash hashed state requests).allows outputs)
    (roots : RootsAgree hash requests outputs) : treeSession hash tree requests = some outputs := by
  induction requests generalizing state tree outputs with
  | nil =>
    have same : outputs = [] := allowed
    rw [same]
    rfl
  | cons request requests ih =>
    rcases allowed with ⟨served, first, later, rest, same⟩
    have shape : outputs = served.2 :: later := same
    subst shape
    have headRoot : RootsAgree hash [request] [served.2] := by
      cases request with
      | init default entries => exact ⟨roots.1, trivial⟩
      | insert key value => trivial
      | get key => trivial
    have tailRoots : RootsAgree hash requests later := by
      cases request with
      | init default entries => exact roots.2
      | insert key value => exact roots
      | get key => exact roots
    rcases serve_sound size odd free tracks treesHashed.1 first headRoot with
      ⟨leaves, step, rooted⟩
    have continues := ih (fun current mem => ⟨leaves, rfl, rooted current mem⟩)
      (treesHashed.2 _ step) rest tailRoots
    rw [treeSession, step]
    show (treeSession hash (some leaves) requests).map _ = _
    rw [continues]
    rfl

end

/-- The prover's state: it stands for the tree and its entries are the leaves of the keys. -/
structure Follows (hash : List (ZMod modulus) → ZMod modulus) (keys : List (ZMod modulus))
    (state : State modulus) (leaves : Nat → ZMod modulus) : Prop where
  stands : ∃ default, Stands hash default state leaves
  current : ∀ key ∈ keys, state.map.get key = leaves (keyIndex hash key)

theorem serve_complete (size : modulus.size = treeHeight) (odd : modulus % 2 = 1)
    {keys : List (ZMod modulus)} (apart : ∀ first ∈ keys, ∀ second ∈ keys,
      keyIndex hash first = keyIndex hash second → first = second)
    (known : ∀ key ∈ keys, hashed [key, 0]) (mentioned : ∀ key ∈ keysOf request, key ∈ keys)
    (follows : ∀ leaves ∈ tree, ∃ current ∈ state, Follows hash keys current leaves)
    (treeHashed : ∀ leaves ∈ tree, TreeHashed hash hashed leaves) {leaves : Nat → ZMod modulus}
    {output : ZMod modulus} (step : serveTree hash tree request = some (leaves, output))
    (afterHashed : TreeHashed hash hashed leaves) :
    ∃ next, Satisfies (serve hash hashed state request) (some next, output) ∧
      Follows hash keys next leaves := by
  cases request with
  | init default entries =>
    cases step
    rcases @build_represents modulus hash _ size default entries with ⟨map, built, tree, values⟩
    refine ⟨⟨map.succinctRepr, map⟩, ?_, ⟨⟨default, ⟨tree.root⟩, tree⟩, ?_⟩⟩
    · unfold serve
      dsimp only
      rw [built]
      have root : map.succinctRepr =
          node (pairHash hash) (leavesOf hash default entries) treeHeight 0 := tree.root
      rw [← root]
      exact ((satisfies_assign map.succinctRepr).returning fun repr =>
        State.mk repr map).returning fun state => (some state, state.succinctRepr)
    · intro key mem
      have alone : Alone hash entries key := fun entry inEntries same =>
        apart entry.1 (mentioned entry.1 (mem_map_of_mem inEntries)) key mem same
      rw [values]
      exact (leaf_eq_value alone default rfl).symm
  | insert key value =>
    cases tree with
    | none => cases step
    | some before =>
      cases step
      rcases follows before rfl with ⟨state, mem, ⟨default, stands⟩, current⟩
      cases mem
      have inKeys : key ∈ keys := mentioned key mem_cons_self
      rcases insert_complete size odd stands (known key inKeys) (treeHashed before rfl)
        afterHashed (current key inKeys) with ⟨updated, satisfies, after, entries⟩
      refine ⟨updated, ?_, ⟨⟨default, after⟩, ?_⟩⟩
      · rw [← after.rooted.repr]
        exact satisfies.returning fun updated => (some updated, updated.succinctRepr)
      · intro other otherIn
        have values := current other otherIn
        rw [get_eq stands.represents] at values
        rw [get_eq after.represents, entries]
        dsimp only
        by_cases own : other = key
        · rw [if_pos (congrArg ZMod.val own), own]
          rw [Option.getD_some, insert_leaf_self]
        · have beside : keyIndex hash other ≠ keyIndex hash key := fun same =>
            own (apart other otherIn key inKeys same)
          rw [if_neg fun same => own (ZMod.val_injective modulus same), values]
          exact (insert_leaf_of_ne before value beside).symm
  | get key =>
    cases tree with
    | none => cases step
    | some before =>
      cases step
      rcases follows leaves rfl with ⟨state, mem, ⟨default, stands⟩, current⟩
      cases mem
      have inKeys : key ∈ keys := mentioned key mem_cons_self
      refine ⟨state, ?_, ⟨⟨default, stands⟩, current⟩⟩
      exact (get_complete size odd stands (known key inKeys) (treeHashed leaves rfl)
        (current key inKeys)).returning fun value => (some state, value)

theorem session_complete (size : modulus.size = treeHeight) (odd : modulus % 2 = 1)
    {keys : List (ZMod modulus)}
    (apart : ∀ first ∈ keys, ∀ second ∈ keys,
      keyIndex hash first = keyIndex hash second → first = second)
    (known : ∀ key ∈ keys, hashed [key, 0]) (requests : List (Request modulus))
    (mentioned : ∀ key ∈ requests.flatMap keysOf, key ∈ keys)
    {state : Option (State modulus)} {tree : Option (Nat → ZMod modulus)}
    (follows : ∀ leaves ∈ tree, ∃ current ∈ state, Follows hash keys current leaves)
    (treesHashed : TreesHashed hash hashed tree requests) {outputs : List (ZMod modulus)}
    (run : treeSession hash tree requests = some outputs) :
    Satisfies (session hash hashed state requests) outputs := by
  induction requests generalizing state tree outputs with
  | nil =>
    cases run
    exact satisfies_pure []
  | cons request requests ih =>
    rw [treeSession] at run
    rcases Option.bind_eq_some_iff.mp run with ⟨served, step, rest⟩
    rcases Option.map_eq_some_iff.mp rest with ⟨later, laterRun, rfl⟩
    have afterTrees := treesHashed.2 served step
    have afterHashed : TreeHashed hash hashed served.1 := by
      cases requests with
      | nil => exact afterTrees served.1 rfl
      | cons second requests => exact afterTrees.1 served.1 rfl
    rcases serve_complete size odd apart known
      (fun key mem => mentioned key (mem_flatMap.mpr ⟨request, mem_cons_self, mem⟩))
      follows treesHashed.1 step afterHashed with ⟨next, satisfies, nextFollows⟩
    unfold session
    refine satisfies.bind ?_
    have continues := ih
      (fun key mem => mentioned key (by
        rw [flatMap_cons]
        exact mem_append_right _ mem))
      (fun leaves mem => ⟨next, rfl, by cases mem; exact nextFollows⟩) afterTrees laterRun
    exact continues.returning fun outputs => served.2 :: outputs

end Sessions

/-! ### The map and its gadget are the tree -/

variable (modulus) in
def PathProves (mt : MapMt modulus) (key value : ZMod modulus) : Prop :=
  ∃ path, mt.getPath hash key = some path ∧
    MapMt.verifyMemProof hash mt.root path key value = some true

structure MapRefinesTree : Prop where
  builds : ∀ default entries, ∃ mt, build hash default entries = some mt
  root : ∀ {default entries mt}, build hash default entries = some mt →
    mt.root = node (pairHash hash) (leavesOf hash default entries) treeHeight 0
  stored : ∀ {default entries mt}, build hash default entries = some mt →
    ∀ {height index value}, mt.nodes height index = some value →
      value = node (pairHash hash) (leavesOf hash default entries) height index.toNat
  leaf : ∀ {default entries key}, Alone hash entries key →
    leavesOf hash default entries (keyIndex hash key) = lastValue default entries key
  get : ∀ {default entries mt}, build hash default entries = some mt →
    ∀ key, mt.get key = lastValue default entries key
  path : ∀ {default entries mt}, build hash default entries = some mt →
    ∀ {key}, Alone hash entries key → PathProves modulus hash mt key (mt.get key)
  order : ∀ {default} {first second : List (ZMod modulus × ZMod modulus)}, first.Perm second →
    (first.Pairwise fun entry other => keyIndex hash entry.1 ≠ keyIndex hash other.1) →
      build hash default first = build hash default second

/-- In the circuit, from the first `init` on. -/
structure GadgetRefinesTree : Prop where
  complete : ∀ {requests outputs}, KeysApart hash requests →
    treeSession hash none requests = some outputs →
      Satisfies (session hash (fun _ => True) none requests) outputs
  sound : ∀ {hashed requests outputs}, CollisionFree (pairHash hash) (pairHashed hashed) →
    TreesHashed hash hashed none requests →
      (session hash hashed none requests).allows outputs →
        RootsAgree hash requests outputs → treeSession hash none requests = some outputs

variable {hash}

theorem odd_of_size (size : modulus.size = treeHeight) : modulus % 2 = 1 := by
  rcases (Fact.out : modulus.Prime).eq_two_or_odd with two | odd
  · rw [two] at size
    cases size
  · exact odd

omit [Fact modulus.Prime] in
theorem everything_hashed (tree : Option (Nat → ZMod modulus)) (requests : List (Request modulus)) :
    TreesHashed hash (fun _ => True) tree requests := by
  induction requests generalizing tree with
  | nil => exact fun _ _ _ _ _ => trivial
  | cons request requests ih =>
    exact ⟨fun _ _ _ _ _ => trivial, fun served _ => ih _⟩

theorem map_refines_tree (size : modulus.size = treeHeight) : MapRefinesTree hash where
  builds := fun default entries =>
    (build_represents size default entries).imp fun _ found => found.1
  root := by
    intro default entries mt built
    rcases @build_represents modulus hash _ size default entries with ⟨found, run, tree, -⟩
    cases Option.some.inj (built.symm.trans run)
    exact tree.root
  stored := by
    intro default entries mt built height index value found
    rcases @build_represents modulus hash _ size default entries with ⟨made, run, tree, -⟩
    cases Option.some.inj (built.symm.trans run)
    by_cases below : height < treeHeight
    · have same := tree.nodes height below index
      rwa [found, Option.getD_some] at same
    · have nothing := tree.bounded height index (Nat.le_of_not_lt below)
      rw [found] at nothing
      cases nothing
  leaf := fun alone => leaf_eq_value alone _ rfl
  get := by
    intro default entries mt built
    rcases @build_represents modulus hash _ size default entries with ⟨made, run, -, values⟩
    cases Option.some.inj (built.symm.trans run)
    exact values
  path := by
    intro default entries mt built key alone
    rcases @build_represents modulus hash _ size default entries with ⟨made, run, tree, values⟩
    cases Option.some.inj (built.symm.trans run)
    refine ⟨_, get_path_eq size tree key, ?_⟩
    have reaches := @climb_opening _ (pairHash hash) (leavesOf hash default entries) 0
      (keyIndex hash key) treeHeight
    have leaf : node (pairHash hash) (leavesOf hash default entries) 0 (keyIndex hash key) =
        lastValue default entries key := leaf_eq_value alone default rfl
    rw [leaf, climbs_to_root size, Nat.zero_add, ← tree.root] at reaches
    rw [verify_mem_proof_eq size, values, reaches, decide_eq_true rfl]
  order := by
    intro default first second perm apart
    rcases @new_represents modulus hash size default with ⟨empty, made, represents, -⟩
    unfold build
    rw [made]
    exact inserts_perm size represents perm apart

theorem gadget_refines_tree (size : modulus.size = treeHeight) : GadgetRefinesTree hash where
  complete := by
    intro requests outputs apart run
    exact session_complete size (odd_of_size size) apart (fun _ _ => trivial) requests
      (fun _ mem => mem) (fun _ mem => by cases mem)
      (everything_hashed none requests) run
  sound := by
    intro hashed requests outputs free treesHashed allowed roots
    exact session_sound size (odd_of_size size) free requests (fun _ mem => by cases mem)
      treesHashed allowed roots

/-- The map and the gadget agree with the tree, for keys with leaves of their own. -/
theorem succinct_map_refines_tree (size : modulus.size = treeHeight) :
    MapRefinesTree hash ∧ GadgetRefinesTree hash :=
  ⟨map_refines_tree size, gadget_refines_tree size⟩

/-! ### Two hashes -/

section Examples

open ScalarField

/-- All keys have the leaf at index zero. -/
def productHash (inputs : List (ZMod scalarModulus)) : ZMod scalarModulus := inputs.prod

theorem product_index (key : ZMod scalarModulus) : keyIndex productHash key = 0 := by
  unfold keyIndex productHash
  rw [prod_cons, prod_singleton, mul_zero, ZMod.val_zero]

theorem product_uniform (height : Nat) :
    uniform (pairHash productHash) 1 height = 1 := by
  induction height with
  | zero => rfl
  | succ height ih =>
    rw [uniform, ih]
    unfold pairHash productHash
    rw [prod_cons, prod_singleton, mul_one]

theorem product_root (value : ZMod scalarModulus) (height : Nat) :
    node (pairHash productHash) (Function.update (fun _ => 1) 0 value) height 0 = value := by
  induction height with
  | zero => exact Function.update_self _ _ _
  | succ height ih =>
    have other : node (pairHash productHash) (Function.update (fun _ => 1) 0 value) height
        (2 * 0 + 1) = 1 := by
      rw [node_update _ (by rw [Nat.zero_div]; decide), node_uniform, product_uniform]
    rw [node, Nat.mul_zero, ih]
    rw [Nat.mul_zero] at other
    rw [other]
    unfold pairHash productHash
    rw [prod_cons, prod_singleton, mul_one]

/-- Two keys with one leaf: the path of the first one does not prove its value. -/
theorem shared_leaf_path_fails : ∃ mt, build productHash 1 [(0, 1), (1, 2)] = some mt ∧
    ¬PathProves scalarModulus productHash mt 0 (mt.get 0) := by
  rcases @build_represents scalarModulus productHash _ scalar_modulus_size 1 [(0, 1), (1, 2)] with
    ⟨mt, built, tree, values⟩
  refine ⟨mt, built, ?_⟩
  rintro ⟨path, found, verified⟩
  rw [get_path_eq scalar_modulus_size tree] at found
  cases found
  have value : mt.get 0 = 1 := by
    rw [values]
    unfold lastValue
    rw [foldl_cons, foldl_cons, foldl_nil, if_neg one_ne_zero, if_pos rfl]
  have leaves : leavesOf productHash 1 [(0, 1), (1, 2)] = Function.update (fun _ => 1) 0 2 := by
    unfold leavesOf insertLeaf
    rw [foldl_cons, foldl_cons, foldl_nil, product_index, product_index, Function.update_idem]
  rw [verify_mem_proof_eq scalar_modulus_size, value, tree.root, leaves, product_root,
    product_index, opening_update _ _ (by rw [Nat.zero_div])] at verified
  have ones := @climb_opening _ (pairHash productHash) (fun _ => 1) 0 0 treeHeight
  rw [node, node_uniform, product_uniform] at ones
  rw [ones] at verified
  have two : (2 : ZMod scalarModulus) = 1 := of_decide_eq_true (Option.some.inj verified)
  have nothing : (1 : ZMod scalarModulus) = 0 := by linear_combination two
  exact one_ne_zero nothing

/-- Injective on the pairs whose second entry is zero. -/
def firstHash (inputs : List (ZMod scalarModulus)) : ZMod scalarModulus := inputs.headD 0

def secondZero (inputs : List (ZMod scalarModulus)) : Prop := ∃ element, inputs = [element, 0]

theorem first_collision_free : CollisionFree (pairHash firstHash) (pairHashed secondZero) := by
  rintro first second third fourth ⟨left, leftSame⟩ ⟨right, rightSame⟩ hashes
  cases leftSame
  cases rightSame
  exact ⟨hashes, rfl⟩

theorem first_index : keyIndex firstHash 0 = 0 := ZMod.val_zero

/-- The tree with a value at the leaf of key zero. -/
def zeroLeaf (value : ZMod scalarModulus) : Nat → ZMod scalarModulus :=
  Function.update (fun _ => 0) 0 value

theorem insert_zero_leaf (value next : ZMod scalarModulus) :
    insertLeaf firstHash (zeroLeaf value) (0, next) = zeroLeaf next := by
  unfold insertLeaf zeroLeaf
  rw [first_index, Function.update_idem]

theorem zero_leaf_node (value : ZMod scalarModulus) (height index : Nat) :
    node (pairHash firstHash) (zeroLeaf value) height index = if index = 0 then value else 0 := by
  induction height generalizing index with
  | zero =>
    unfold node zeroLeaf
    rw [Function.update_apply]
  | succ height ih =>
    have child := ih (2 * index)
    rw [node]
    show node (pairHash firstHash) (zeroLeaf value) height (2 * index) = _
    rw [child]
    simp

theorem zero_leaf_hashed (value : ZMod scalarModulus) :
    TreeHashed firstHash secondZero (zeroLeaf value) := by
  intro height _ index
  refine ⟨node (pairHash firstHash) (zeroLeaf value) height (2 * index), ?_⟩
  rw [zero_leaf_node value height (2 * index + 1), if_neg (Nat.succ_ne_zero _)]

theorem zero_trees_hashed (requests : List (Request scalarModulus))
    (zero : ∀ request ∈ requests, (∃ value, request = .insert 0 value) ∨ request = .get 0)
    (value : ZMod scalarModulus) :
    TreesHashed firstHash secondZero (some (zeroLeaf value)) requests := by
  have current : ∀ leaves ∈ some (zeroLeaf value), TreeHashed firstHash secondZero leaves := by
    rintro leaves mem
    cases mem
    exact zero_leaf_hashed value
  induction requests generalizing value with
  | nil => exact current
  | cons request requests ih =>
    refine ⟨current, fun served step => ?_⟩
    have later := fun next => ih (fun other mem => zero other (mem_cons_of_mem _ mem)) next
      (fun leaves mem => by cases mem; exact zero_leaf_hashed next)
    rcases zero request mem_cons_self with ⟨next, rfl⟩ | rfl
    · cases step
      have stays := later next
      rwa [← insert_zero_leaf value next] at stays
    · cases step
      exact later value

/-- A value for key zero, another one, and the lookup of the key. -/
def overwrite : List (Request scalarModulus) :=
  [.init 0 [], .insert 0 5, .insert 0 7, .get 0]

theorem overwrite_hashed : TreesHashed firstHash secondZero none overwrite := by
  refine ⟨fun leaves mem => (by cases mem), fun served step => ?_⟩
  cases step
  have start : leavesOf firstHash 0 [] = zeroLeaf 0 := (Function.update_eq_self 0 _).symm
  rw [start]
  exact zero_trees_hashed _ (by simp) 0

theorem overwrite_tree : treeSession firstHash none overwrite = some [0, 5, 7, 7] := by
  have start : leavesOf firstHash 0 [] = zeroLeaf 0 := (Function.update_eq_self 0 _).symm
  have root : ∀ value, node (pairHash firstHash) (zeroLeaf value) treeHeight 0 = value :=
    fun value => (zero_leaf_node value treeHeight 0).trans (if_pos rfl)
  have leaf : zeroLeaf 7 0 = 7 := Function.update_self _ _ _
  simp only [overwrite, treeSession, serveTree, Option.bind_some, Option.map_some, start,
    insert_zero_leaf, root, first_index, leaf]

theorem overwrite_satisfies :
    Satisfies (session firstHash secondZero none overwrite) [0, 5, 7, 7] := by
  have zeroKeys : ∀ key ∈ overwrite.flatMap keysOf, key ∈ [(0 : ZMod scalarModulus)] := by
    simp [overwrite, keysOf]
  exact session_complete scalar_modulus_size (odd_of_size scalar_modulus_size)
    (fun first inFirst second inSecond _ => by
      rw [mem_singleton.mp inFirst, mem_singleton.mp inSecond])
    (fun key mem => ⟨0, by rw [mem_singleton.mp mem]⟩) overwrite zeroKeys
    (fun _ mem => by cases mem) overwrite_hashed overwrite_tree

/-- The prover's session that overwrites the value of a key is allowed, and no other one. -/
theorem overwritten_key_session : MapRefinesTree firstHash ∧
    Satisfies (session firstHash secondZero none overwrite) [0, 5, 7, 7] ∧
    ∀ outputs, (session firstHash secondZero none overwrite).allows outputs →
      RootsAgree firstHash overwrite outputs → outputs = [0, 5, 7, 7] := by
  have refines := @succinct_map_refines_tree scalarModulus _ firstHash scalar_modulus_size
  refine ⟨refines.1, overwrite_satisfies, fun outputs allowed roots => ?_⟩
  have run := refines.2.sound first_collision_free overwrite_hashed allowed roots
  exact Option.some.inj (run.symm.trans overwrite_tree)

end Examples

end Midfall.MapGadget
