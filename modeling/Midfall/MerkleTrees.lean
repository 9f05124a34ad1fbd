import Mathlib

/-!
# Binary hash trees

The full binary tree over a function of leaves, openings of a leaf, and what an
opening that reaches the root says about the leaf. Collision freedom is only
asked of the pairs that are hashed.
-/

namespace Midfall.MerkleTrees

open List

variable {Node : Type} (hash : Node → Node → Node)

/-- The node of the full tree at a height and a position in its level. -/
def node (leaves : Nat → Node) : Nat → Nat → Node
  | 0, index => leaves index
  | height + 1, index => hash (node leaves height (2 * index)) (node leaves height (2 * index + 1))

def sibling (index : Nat) : Nat := if index % 2 = 1 then index - 1 else index + 1

/-- A child and its sibling, the left one first. -/
def ordered (index : Nat) (child other : Node) : Node × Node :=
  if index % 2 = 1 then (other, child) else (child, other)

def parent (index : Nat) (child other : Node) : Node :=
  hash (ordered index child other).1 (ordered index child other).2

/-- Hash a node with the siblings on its way up. -/
def climb (index : Nat) (child : Node) : List Node → Node
  | [] => child
  | other :: path => climb (index / 2) (parent hash index child other) path

def opening (leaves : Nat → Node) (height index : Nat) : Nat → List Node
  | 0 => []
  | levels + 1 =>
    node hash leaves height (sibling index) :: opening leaves (height + 1) (index / 2) levels

/-- The nodes of the tree whose leaves are all the same. -/
def uniform (leaf : Node) : Nat → Node
  | 0 => leaf
  | height + 1 => hash (uniform leaf height) (uniform leaf height)

variable {hash} {leaves : Nat → Node}

theorem node_uniform (leaf : Node) (height index : Nat) :
    node hash (fun _ => leaf) height index = uniform hash leaf height := by
  induction height generalizing index with
  | zero => rfl
  | succ height ih =>
    rw [node, uniform, ih, ih]

theorem sibling_ne (index : Nat) : sibling index ≠ index := by
  unfold sibling
  split_ifs with odd
  · omega
  · omega

theorem parent_node (height index : Nat) :
    parent hash index (node hash leaves height index) (node hash leaves height (sibling index)) =
      node hash leaves (height + 1) (index / 2) := by
  unfold parent ordered sibling
  rw [node]
  split_ifs with odd
  · have right : 2 * (index / 2) + 1 = index := by omega
    have left : 2 * (index / 2) = index - 1 := by omega
    rw [right, left]
  · have left : 2 * (index / 2) = index := by omega
    rw [left]

theorem div_two_div_pow (index levels : Nat) : index / 2 / 2 ^ levels = index / 2 ^ (levels + 1) := by
  rw [Nat.div_div_eq_div_mul, ← pow_succ']

theorem opening_length (height index levels : Nat) :
    (opening hash leaves height index levels).length = levels := by
  induction levels generalizing height index with
  | zero => rfl
  | succ levels ih => rw [opening, length_cons, ih]

theorem climb_opening (height index levels : Nat) :
    climb hash index (node hash leaves height index) (opening hash leaves height index levels) =
      node hash leaves (height + levels) (index / 2 ^ levels) := by
  induction levels generalizing height index with
  | zero => rw [opening, climb, Nat.add_zero, pow_zero, Nat.div_one]
  | succ levels ih =>
    have up : height + (levels + 1) = height + 1 + levels := by omega
    rw [opening, climb, parent_node, ih, div_two_div_pow, up]

variable {height index : Nat} {known : Node → Node → Prop}

theorem node_update {changed : Nat} (value : Node) (beside : index ≠ changed / 2 ^ height) :
    node hash (Function.update leaves changed value) height index =
      node hash leaves height index := by
  induction height generalizing index with
  | zero =>
    rw [pow_zero, Nat.div_one] at beside
    rw [node, node, Function.update_of_ne beside]
  | succ height ih =>
    have halves : changed / 2 ^ (height + 1) = changed / 2 ^ height / 2 := by
      rw [pow_succ, Nat.div_div_eq_div_mul]
    rw [node, node, ih, ih]
    · omega
    · omega

theorem opening_update {changed : Nat} (value : Node) (levels : Nat)
    (above : index = changed / 2 ^ height) :
    opening hash (Function.update leaves changed value) height index levels =
      opening hash leaves height index levels := by
  induction levels generalizing height index with
  | zero => rfl
  | succ levels ih =>
    have halves : index / 2 = changed / 2 ^ (height + 1) := by
      rw [above, pow_succ, Nat.div_div_eq_div_mul]
    rw [opening, opening, node_update, ih halves]
    rw [← above]
    exact sibling_ne index

/-- No two different pairs among the known ones have one hash. -/
def CollisionFree (hash : Node → Node → Node) (known : Node → Node → Prop) : Prop :=
  ∀ {first second third fourth : Node}, known first second → known third fourth →
    hash first second = hash third fourth → first = third ∧ second = fourth

def ClimbKnown (hash : Node → Node → Node) (known : Node → Node → Prop) (index : Nat)
    (child : Node) : List Node → Prop
  | [] => True
  | other :: path => known (ordered index child other).1 (ordered index child other).2 ∧
      ClimbKnown hash known (index / 2) (parent hash index child other) path

/-- The pairs of children in the tree below the top are known. -/
def TreeKnown (hash : Node → Node → Node) (known : Node → Node → Prop) (leaves : Nat → Node)
    (top : Nat) : Prop :=
  ∀ height < top, ∀ index,
    known (node hash leaves height (2 * index)) (node hash leaves height (2 * index + 1))

theorem parent_pins (free : CollisionFree hash known) {child other : Node}
    (pairKnown : known (ordered index child other).1 (ordered index child other).2)
    (treeKnown : known (node hash leaves height (2 * (index / 2)))
      (node hash leaves height (2 * (index / 2) + 1)))
    (same : parent hash index child other = node hash leaves (height + 1) (index / 2)) :
    child = node hash leaves height index ∧ other = node hash leaves height (sibling index) := by
  have children := free pairKnown treeKnown same
  unfold ordered at children
  unfold sibling
  split_ifs at children ⊢ with odd
  · have right : 2 * (index / 2) + 1 = index := by omega
    have left : 2 * (index / 2) = index - 1 := by omega
    rw [right, left] at children
    exact ⟨children.2, children.1⟩
  · have left : 2 * (index / 2) = index := by omega
    rwa [left] at children

/-- A known path to a node of the tree starts at the tree's leaf and has its siblings. -/
theorem climb_pins (free : CollisionFree hash known) {top : Nat} {child : Node} {path : List Node}
    (climbKnown : ClimbKnown hash known index child path)
    (treeKnown : TreeKnown hash known leaves top) (below : height + path.length = top)
    (reaches : climb hash index child path =
      node hash leaves top (index / 2 ^ path.length)) :
    child = node hash leaves height index ∧
      path = opening hash leaves height index path.length := by
  induction path generalizing height index child with
  | nil =>
    rw [length_nil, Nat.add_zero] at below
    rw [climb, length_nil, pow_zero, Nat.div_one, ← below] at reaches
    exact ⟨reaches, rfl⟩
  | cons other path ih =>
    rw [length_cons] at below reaches
    rw [climb, ← div_two_div_pow] at reaches
    have rest := ih climbKnown.2 (by omega : height + 1 + path.length = top) reaches
    have children := parent_pins free climbKnown.1
      (treeKnown height (by omega) (index / 2)) rest.1
    refine ⟨children.1, ?_⟩
    rw [length_cons, opening, ← children.2, ← rest.2]

theorem climb_known_opening {top : Nat} (treeKnown : TreeKnown hash known leaves top) (index : Nat)
    (levels : Nat) (below : height + levels ≤ top) :
    ClimbKnown hash known index (node hash leaves height index)
      (opening hash leaves height index levels) := by
  induction levels generalizing height index with
  | zero => trivial
  | succ levels ih =>
    rw [opening]
    refine ⟨?_, ?_⟩
    · have pair := treeKnown height (by omega) (index / 2)
      unfold ordered sibling
      split_ifs with odd
      · have right : 2 * (index / 2) + 1 = index := by omega
        have left : 2 * (index / 2) = index - 1 := by omega
        rwa [right, left] at pair
      · have left : 2 * (index / 2) = index := by omega
        rwa [left] at pair
    · rw [parent_node]
      exact ih (index / 2) (by omega)

end Midfall.MerkleTrees
