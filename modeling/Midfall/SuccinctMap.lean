import Midfall.MerkleTrees

/-!
# The map off the circuit

A key-value map over a hash tree of height 255 that stores only the nodes above
inserted keys. A node is indexed by the little-endian bytes of its position in
its level; the nodes that are not stored are the defaults of their level.
-/

namespace Midfall.SuccinctMap

open MerkleTrees List

def treeHeight : Nat := 255

def nodeIndexBytes : Nat := 32

abbrev Byte := BitVec 8

/-! ### Node indices -/

@[ext]
structure NodeIndex where
  bytes : List Byte
  length : bytes.length = nodeIndexBytes
  deriving DecidableEq

def fromLeBytes : List Byte → Nat
  | [] => 0
  | byte :: bytes => byte.toNat + 256 * fromLeBytes bytes

def flipLowest : List Byte → List Byte
  | [] => []
  | byte :: bytes => (byte ^^^ 1#8) :: bytes

def shiftBytes : List Byte → List Byte
  | [] => []
  | [byte] => [byte >>> 1]
  | byte :: next :: bytes => ((byte >>> 1) ||| (next <<< 7)) :: shiftBytes (next :: bytes)

theorem flip_lowest_length (bytes : List Byte) : (flipLowest bytes).length = bytes.length := by
  cases bytes <;> rfl

theorem shift_bytes_length (bytes : List Byte) : (shiftBytes bytes).length = bytes.length := by
  induction bytes with
  | nil => rfl
  | cons byte bytes ih =>
    cases bytes with
    | nil => rfl
    | cons next bytes => rw [shiftBytes, length_cons, ih, ← length_cons]

namespace NodeIndex

def toNat (index : NodeIndex) : Nat := fromLeBytes index.bytes

/-- The highest bit of the last byte is not used. -/
def fromCanonicalLeBytes (bytes : List Byte) : Option NodeIndex :=
  if length : bytes.length = nodeIndexBytes then
    if bytes.getD (nodeIndexBytes - 1) 0 &&& 0x80#8 = 0 then some ⟨bytes, length⟩ else none
  else none

def isRight (index : NodeIndex) : Bool := index.bytes.getD 0 0 &&& 1#8 == 1

def sibling (index : NodeIndex) : NodeIndex where
  bytes := flipLowest index.bytes
  length := by rw [flip_lowest_length, index.length]

def moveToParent (index : NodeIndex) : NodeIndex where
  bytes := shiftBytes index.bytes
  length := by rw [shift_bytes_length, index.length]

end NodeIndex

theorem from_le_bytes_injective {first second : List Byte} (lengths : first.length = second.length)
    (same : fromLeBytes first = fromLeBytes second) : first = second := by
  induction first generalizing second with
  | nil => exact (eq_nil_of_length_eq_zero lengths.symm).symm
  | cons byte first ih =>
    cases second with
    | nil => simp at lengths
    | cons other second =>
      have small : byte.toNat < 256 := byte.isLt
      have otherSmall : other.toNat < 256 := other.isLt
      rw [fromLeBytes, fromLeBytes] at same
      have tails := ih (Nat.succ.inj lengths) (by omega)
      have heads : byte = other := BitVec.eq_of_toNat_eq (by omega)
      rw [heads, tails]

theorem flip_bit (byte : Byte) :
    (byte ^^^ 1#8).toNat = if byte.toNat % 2 = 1 then byte.toNat - 1 else byte.toNat + 1 := by
  have checked : ∀ value < 256, value ^^^ 1 = if value % 2 = 1 then value - 1 else value + 1 := by
    decide +kernel
  rw [BitVec.toNat_xor]
  exact checked byte.toNat byte.isLt

theorem shifted_byte (byte next : Byte) :
    ((byte >>> 1) ||| (next <<< 7)).toNat = byte.toNat / 2 + 128 * (next.toNat % 2) := by
  have small : byte.toNat < 256 := byte.isLt
  have low : byte.toNat >>> 1 = byte.toNat / 2 := Nat.shiftRight_one _
  have high : next.toNat <<< 7 % 2 ^ 8 = (next.toNat % 2) <<< 7 := by
    rw [Nat.shiftLeft_eq, Nat.shiftLeft_eq]
    omega
  rw [BitVec.toNat_or, BitVec.toNat_ushiftRight, BitVec.toNat_shiftLeft, low, high, Nat.or_comm,
    ← Nat.shiftLeft_add_eq_or_of_lt (by omega : byte.toNat / 2 < 2 ^ 7), Nat.shiftLeft_eq]
  omega

theorem from_le_bytes_shift (bytes : List Byte) :
    fromLeBytes (shiftBytes bytes) = fromLeBytes bytes / 2 := by
  induction bytes with
  | nil => rfl
  | cons byte bytes ih =>
    cases bytes with
    | nil =>
      show (byte >>> 1).toNat + 256 * 0 = (byte.toNat + 256 * 0) / 2
      rw [BitVec.toNat_ushiftRight, Nat.shiftRight_one]
      omega
    | cons next bytes =>
      have small : byte.toNat < 256 := byte.isLt
      show ((byte >>> 1) ||| (next <<< 7)).toNat + 256 * fromLeBytes (shiftBytes (next :: bytes)) =
        (byte.toNat + 256 * (next.toNat + 256 * fromLeBytes bytes)) / 2
      rw [ih, shifted_byte]
      show _ + 256 * ((next.toNat + 256 * fromLeBytes bytes) / 2) = _
      omega

namespace NodeIndex

theorem toNat_injective {first second : NodeIndex} (same : first.toNat = second.toNat) :
    first = second :=
  NodeIndex.ext (from_le_bytes_injective (first.length.trans second.length.symm) same)

theorem is_right_iff (index : NodeIndex) : index.isRight = true ↔ index.toNat % 2 = 1 := by
  rcases index with ⟨bytes, length⟩
  unfold isRight toNat
  cases bytes with
  | nil => cases length
  | cons byte bytes =>
    have lowest : (byte &&& 1#8).toNat = byte.toNat % 2 := by
      rw [BitVec.toNat_and]
      exact Nat.and_one_is_mod byte.toNat
    rw [fromLeBytes, getD_cons_zero, beq_iff_eq, ← BitVec.toNat_inj, lowest]
    show byte.toNat % 2 = 1 ↔ _
    omega

theorem sibling_toNat (index : NodeIndex) :
    index.sibling.toNat = MerkleTrees.sibling index.toNat := by
  rcases index with ⟨bytes, length⟩
  unfold sibling toNat MerkleTrees.sibling
  cases bytes with
  | nil => cases length
  | cons byte bytes =>
    dsimp only
    rw [flipLowest, fromLeBytes, fromLeBytes, flip_bit]
    split_ifs <;> omega

theorem move_to_parent_toNat (index : NodeIndex) : index.moveToParent.toNat = index.toNat / 2 :=
  from_le_bytes_shift index.bytes

end NodeIndex

/-! ### The map -/

variable {modulus : Nat}

def toBytesLe (element : ZMod modulus) : List Byte :=
  (range nodeIndexBytes).map fun position => BitVec.ofNat 8 (element.val / 256 ^ position)

/-- The root, the stored nodes by height and index, the entries and the defaults of the levels. -/
@[ext]
structure MapMt (modulus : Nat) where
  root : ZMod modulus
  nodes : Nat → NodeIndex → Option (ZMod modulus)
  map : Nat → Option (ZMod modulus)
  defaultNodes : List (ZMod modulus)

variable (hash : List (ZMod modulus) → ZMod modulus)

def conditionalSwap (cond : Bool) (leftInput rightInput : ZMod modulus) :
    ZMod modulus × ZMod modulus :=
  if cond then (rightInput, leftInput) else (leftInput, rightInput)

/-- The position of a key's leaf; the bytes of the hash are not canonical in a wrong field. -/
def computeNodeIndex (element : ZMod modulus) : Option NodeIndex :=
  NodeIndex.fromCanonicalLeBytes (toBytesLe (hash [element, 0]))

namespace MapMt

def new (default : ZMod modulus) : Option (MapMt modulus) :=
  if modulus.size ≠ treeHeight ∨ (modulus.size + 7) / 8 ≠ nodeIndexBytes then none
  else
    let defaultNodes := (range' 1 (treeHeight - 1)).foldl (fun nodes height =>
      nodes.set height (hash [nodes.getD (height - 1) 0, nodes.getD (height - 1) 0]))
      (replicate treeHeight default)
    let topDefault := defaultNodes.getD (treeHeight - 1) 0
    some {
      root := hash [topDefault, topDefault]
      nodes := fun _ _ => none
      map := fun _ => none
      defaultNodes := defaultNodes }

def succinctRepr (mt : MapMt modulus) : ZMod modulus := mt.root

def getSibling (mt : MapMt modulus) (nodeIndex : NodeIndex) (height : Nat) : ZMod modulus :=
  (mt.nodes height nodeIndex.sibling).getD (mt.defaultNodes.getD height 0)

/-- Store the child, hash it with its sibling and go up. -/
def insertLevel (state : MapMt modulus × ZMod modulus × NodeIndex) (height : Nat) :
    MapMt modulus × ZMod modulus × NodeIndex :=
  let (mt, child, nodeIndex) := state
  let stored := { mt with
    nodes := fun level index =>
      if level = height ∧ index = nodeIndex then some child else mt.nodes level index }
  let sibling := stored.getSibling nodeIndex height
  let pair := conditionalSwap nodeIndex.isRight child sibling
  (stored, hash [pair.1, pair.2], nodeIndex.moveToParent)

def insert (mt : MapMt modulus) (key value : ZMod modulus) : Option (MapMt modulus) := do
  let entered := { mt with
    map := fun other => if other = key.val then some value else mt.map other }
  let nodeIndex ← computeNodeIndex hash key
  let outcome := (range treeHeight).foldl (insertLevel hash) (entered, value, nodeIndex)
  return { outcome.1 with root := outcome.2.1 }

def get (mt : MapMt modulus) (key : ZMod modulus) : ZMod modulus :=
  (mt.map key.val).getD (mt.defaultNodes.getD 0 0)

def getPath (mt : MapMt modulus) (key : ZMod modulus) : Option (List (ZMod modulus)) := do
  let nodeIndex ← computeNodeIndex hash key
  let outcome := (range treeHeight).foldl (fun state height =>
    (state.1 ++ [mt.getSibling state.2 height], state.2.moveToParent)) ([], nodeIndex)
  return outcome.1

def verifyMemProof (root : ZMod modulus) (path : List (ZMod modulus)) (key value : ZMod modulus) :
    Option Bool := do
  let nodeIndex ← computeNodeIndex hash key
  let outcome := path.foldl (fun state node =>
    let pair := conditionalSwap state.2.isRight state.1 node
    (hash [pair.1, pair.2], state.2.moveToParent)) (value, nodeIndex)
  return decide (root = outcome.1)

end MapMt

/-- A map made with `new` and a sequence of inserts. -/
def build (default : ZMod modulus) (entries : List (ZMod modulus × ZMod modulus)) :
    Option (MapMt modulus) := do
  let empty ← MapMt.new hash default
  entries.foldlM (fun mt entry => mt.insert hash entry.1 entry.2) empty

/-! ### The tree behind the map -/

def pairHash (left right : ZMod modulus) : ZMod modulus := hash [left, right]

def keyIndex (key : ZMod modulus) : Nat := (hash [key, 0]).val

def insertLeaf (leaves : Nat → ZMod modulus) (entry : ZMod modulus × ZMod modulus) :
    Nat → ZMod modulus :=
  Function.update leaves (keyIndex hash entry.1) entry.2

/-- The leaves after a sequence of inserts: the last inserted values and defaults. -/
def leavesOf (default : ZMod modulus) (entries : List (ZMod modulus × ZMod modulus)) :
    Nat → ZMod modulus :=
  entries.foldl (insertLeaf hash) fun _ => default

/-- The map stores nodes of this tree, and its defaults stand for the others. -/
structure Represents (default : ZMod modulus) (mt : MapMt modulus)
    (leaves : Nat → ZMod modulus) : Prop where
  defaults : ∀ height < treeHeight,
    mt.defaultNodes.getD height 0 = uniform (pairHash hash) default height
  nodes : ∀ height < treeHeight, ∀ index, (mt.nodes height index).getD
    (uniform (pairHash hash) default height) = node (pairHash hash) leaves height index.toNat
  bounded : ∀ height index, treeHeight ≤ height → mt.nodes height index = none
  root : mt.root = node (pairHash hash) leaves treeHeight 0

variable {hash}

/-! ### Indices of keys -/

theorem from_le_bytes_digits (value start count : Nat) :
    fromLeBytes ((range' start count).map fun position =>
      BitVec.ofNat 8 (value / 256 ^ position)) = value / 256 ^ start % 256 ^ count := by
  induction count generalizing start with
  | zero => simp [fromLeBytes, Nat.mod_one]
  | succ count ih =>
    rw [range'_succ, map_cons, fromLeBytes, ih, BitVec.toNat_ofNat, pow_succ' 256 count,
      Nat.mod_mul, Nat.div_div_eq_div_mul, ← pow_succ]

theorem to_bytes_le_value [NeZero modulus] (size : modulus.size = treeHeight)
    (element : ZMod modulus) : fromLeBytes (toBytesLe element) = element.val := by
  have small : element.val < 256 ^ nodeIndexBytes := by
    calc element.val < modulus := ZMod.val_lt element
      _ < 2 ^ modulus.size := Nat.lt_size_self modulus
      _ ≤ 256 ^ nodeIndexBytes := by rw [size]; decide
  rw [toBytesLe, range_eq_range', from_le_bytes_digits, pow_zero, Nat.div_one,
    Nat.mod_eq_of_lt small]

theorem node_index_of_key [NeZero modulus] (size : modulus.size = treeHeight)
    (key : ZMod modulus) : ∃ nodeIndex, computeNodeIndex hash key = some nodeIndex ∧
      nodeIndex.toNat = keyIndex hash key := by
  have length : (toBytesLe (hash [key, 0])).length = nodeIndexBytes := by
    rw [toBytesLe, length_map, length_range]
  have small : (hash [key, 0]).val < 2 ^ 255 := by
    calc (hash [key, 0]).val < modulus := ZMod.val_lt _
      _ < 2 ^ modulus.size := Nat.lt_size_self modulus
      _ = 2 ^ 255 := by rw [size]; rfl
  have last : (toBytesLe (hash [key, 0])).getD (nodeIndexBytes - 1) 0 =
      BitVec.ofNat 8 ((hash [key, 0]).val / 256 ^ 31) := by
    simp [toBytesLe, nodeIndexBytes]
  have clear : (toBytesLe (hash [key, 0])).getD (nodeIndexBytes - 1) 0 &&& 0x80#8 = 0 := by
    have checked : ∀ value < 128, BitVec.ofNat 8 value &&& 0x80#8 = 0 := by decide +kernel
    rw [last]
    apply checked
    omega
  refine ⟨⟨_, length⟩, ?_, to_bytes_le_value size _⟩
  unfold computeNodeIndex NodeIndex.fromCanonicalLeBytes
  rw [dif_pos length, if_pos clear]

theorem key_index_lt [NeZero modulus] (size : modulus.size = treeHeight) (key : ZMod modulus) :
    keyIndex hash key < 2 ^ treeHeight := by
  rw [← size]
  exact lt_trans (ZMod.val_lt _) (Nat.lt_size_self modulus)

/-! ### The empty map -/

theorem default_nodes_eq (default : ZMod modulus) (count : Nat) (below : count < treeHeight) :
    let nodes := (range' 1 count).foldl (fun nodes height =>
      nodes.set height (hash [nodes.getD (height - 1) 0, nodes.getD (height - 1) 0]))
      (replicate treeHeight default)
    nodes.length = treeHeight ∧ ∀ height ≤ count,
      nodes.getD height 0 = uniform (pairHash hash) default height := by
  induction count with
  | zero =>
    refine ⟨length_replicate, ?_⟩
    intro height reached
    rw [Nat.le_zero.mp reached]
    rfl
  | succ count ih =>
    rcases ih (by omega) with ⟨length, levels⟩
    rw [range'_1_concat, foldl_append, foldl_cons, foldl_nil]
    refine ⟨by rw [length_set, length], ?_⟩
    intro height reached
    have previous := levels count (Nat.le_refl count)
    rw [Nat.add_sub_cancel_left, previous]
    rcases Nat.lt_or_eq_of_le reached with earlier | last
    · rw [← levels height (by omega), getD_eq_getElem?_getD,
        getElem?_set_ne (by omega), ← getD_eq_getElem?_getD]
    · rw [last, Nat.add_comm 1 count, getD_eq_getElem?_getD,
        getElem?_set_self (by omega), Option.getD_some, uniform, pairHash]

theorem new_represents (size : modulus.size = treeHeight) (default : ZMod modulus) :
    ∃ mt, MapMt.new hash default = some mt ∧ Represents hash default mt (fun _ => default) ∧
      mt.map = fun _ => none := by
  have bytes : (modulus.size + 7) / 8 = nodeIndexBytes := by rw [size]; rfl
  unfold MapMt.new
  rw [if_neg (not_or.mpr ⟨not_not.mpr size, not_not.mpr bytes⟩)]
  have levels := (@default_nodes_eq modulus hash default (treeHeight - 1) (by decide)).2
  generalize (range' 1 (treeHeight - 1)).foldl (fun nodes height =>
    nodes.set height (hash [nodes.getD (height - 1) 0, nodes.getD (height - 1) 0]))
    (replicate treeHeight default) = defaultNodes at levels ⊢
  refine ⟨_, rfl, ?_, rfl⟩
  constructor
  · intro height below
    exact levels height (Nat.le_sub_one_of_lt below)
  · intro height below index
    rw [node_uniform]
    rfl
  · intro height index above
    rfl
  · have top := levels (treeHeight - 1) (Nat.le_refl _)
    have next : uniform (pairHash hash) default treeHeight = pairHash hash
        (uniform (pairHash hash) default (treeHeight - 1))
        (uniform (pairHash hash) default (treeHeight - 1)) := uniform.eq_2 _ _ _
    rw [node_uniform, next, ← top]
    rfl

/-! ### Inserting -/

section Insert

variable {default : ZMod modulus} {mt : MapMt modulus} {leaves : Nat → ZMod modulus}

theorem get_sibling_eq (represents : Represents hash default mt leaves) {height : Nat}
    (below : height < treeHeight) (index : NodeIndex) :
    mt.getSibling index height =
      node (pairHash hash) leaves height (MerkleTrees.sibling index.toNat) := by
  unfold MapMt.getSibling
  rw [represents.defaults height below, represents.nodes height below, NodeIndex.sibling_toNat]

theorem conditional_swap_eq (index : NodeIndex) (child other : ZMod modulus) :
    conditionalSwap index.isRight child other = ordered index.toNat child other := by
  unfold conditionalSwap ordered
  by_cases right : index.isRight = true
  · rw [if_pos right, if_pos ((NodeIndex.is_right_iff index).mp right)]
  · rw [if_neg right, if_neg (mt (NodeIndex.is_right_iff index).mpr right)]

theorem hash_swap_eq (index : NodeIndex) (child other : ZMod modulus) :
    hash [(conditionalSwap index.isRight child other).1,
      (conditionalSwap index.isRight child other).2] =
        parent (pairHash hash) index.toNat child other := by
  rw [conditional_swap_eq]
  rfl

@[simp]
theorem insert_leaf_self (leaves : Nat → ZMod modulus) (key value : ZMod modulus) :
    insertLeaf hash leaves (key, value) (keyIndex hash key) = value := Function.update_self _ _ _

theorem insert_leaf_of_ne (leaves : Nat → ZMod modulus) {key : ZMod modulus} (value : ZMod modulus)
    {index : Nat} (apart : index ≠ keyIndex hash key) :
    insertLeaf hash leaves (key, value) index = leaves index := Function.update_of_ne apart _ _

theorem node_insert_leaf (leaves : Nat → ZMod modulus) (key value : ZMod modulus)
    {height index : Nat} (beside : index ≠ keyIndex hash key / 2 ^ height) :
    node (pairHash hash) (insertLeaf hash leaves (key, value)) height index =
      node (pairHash hash) leaves height index := node_update value beside

variable (hash) in
/-- The nodes with those above a leaf replaced up to a height. -/
def storedUpTo (nodes : Nat → NodeIndex → Option (ZMod modulus)) (leaves : Nat → ZMod modulus)
    (position height : Nat) : Nat → NodeIndex → Option (ZMod modulus) :=
  fun level index =>
    if level < height ∧ index.toNat = position / 2 ^ level then
      some (node (pairHash hash) leaves level index.toNat)
    else nodes level index

theorem stored_next (nodes : Nat → NodeIndex → Option (ZMod modulus))
    (leaves : Nat → ZMod modulus) {position height : Nat} {index : NodeIndex}
    (place : index.toNat = position / 2 ^ height) :
    (fun level other => if level = height ∧ other = index then
      some (node (pairHash hash) leaves height (position / 2 ^ height))
      else storedUpTo hash nodes leaves position height level other) =
        storedUpTo hash nodes leaves position (height + 1) := by
  funext level other
  unfold storedUpTo
  by_cases here : level = height
  · subst here
    by_cases same : other = index
    · subst same
      rw [if_pos ⟨rfl, rfl⟩, if_pos ⟨Nat.lt_succ_self _, place⟩, place]
    · have apart : other.toNat ≠ position / 2 ^ level := fun equal =>
        same (NodeIndex.toNat_injective (equal.trans place.symm))
      rw [if_neg (fun both => same both.2), if_neg (fun both => apart both.2),
        if_neg (fun both => apart both.2)]
  · rw [if_neg (fun both => here both.1)]
    by_cases lower : level < height
    · simp only [lower, Nat.lt_succ_of_lt lower]
    · have higher : ¬level < height + 1 := by omega
      simp only [lower, higher]

section

variable (represents : Represents hash default mt leaves) (key value : ZMod modulus)
  (map : Nat → Option (ZMod modulus))

include represents key value map

/-- One level: the child is stored and hashed with its sibling in the old tree. -/
theorem insert_level_eq {height : Nat} (below : height < treeHeight) {index : NodeIndex}
    (place : index.toNat = keyIndex hash key / 2 ^ height) :
    let after := insertLeaf hash leaves (key, value)
    MapMt.insertLevel hash
      ({ mt with
          map := map
          nodes := storedUpTo hash mt.nodes after (keyIndex hash key) height },
        node (pairHash hash) after height (keyIndex hash key / 2 ^ height), index) height =
      ({ mt with
          map := map
          nodes := storedUpTo hash mt.nodes after (keyIndex hash key) (height + 1) },
        node (pairHash hash) after (height + 1) (keyIndex hash key / 2 ^ (height + 1)),
        index.moveToParent) := by
  intro after
  have halves : keyIndex hash key / 2 ^ (height + 1) = index.toNat / 2 := by
    rw [place, pow_succ, Nat.div_div_eq_div_mul]
  have apart : index.sibling.toNat ≠ keyIndex hash key / 2 ^ height := by
    rw [NodeIndex.sibling_toNat, ← place]
    exact sibling_ne _
  have beside : node (pairHash hash) leaves height index.sibling.toNat =
      node (pairHash hash) after height index.sibling.toNat :=
    (node_insert_leaf leaves key value apart).symm
  unfold MapMt.insertLevel
  dsimp only
  rw [stored_next mt.nodes after place]
  have sibling : ({ mt with
      map := map
      nodes := storedUpTo hash mt.nodes after (keyIndex hash key) (height + 1) } :
        MapMt modulus).getSibling index height =
      node (pairHash hash) after height (MerkleTrees.sibling index.toNat) := by
    unfold MapMt.getSibling storedUpTo
    dsimp only
    rw [if_neg (fun both => apart both.2), represents.defaults height below,
      represents.nodes height below, beside, NodeIndex.sibling_toNat]
  rw [sibling, @hash_swap_eq modulus hash, ← place, parent_node, halves]

theorem insert_loop {nodeIndex : NodeIndex} (position : nodeIndex.toNat = keyIndex hash key)
    (height : Nat) (reached : height ≤ treeHeight) :
    let after := insertLeaf hash leaves (key, value)
    ∃ index : NodeIndex, index.toNat = keyIndex hash key / 2 ^ height ∧
      (range height).foldl (MapMt.insertLevel hash)
        ({ mt with map := map }, value, nodeIndex) =
          ({ mt with
              map := map
              nodes := storedUpTo hash mt.nodes after (keyIndex hash key) height },
            node (pairHash hash) after height (keyIndex hash key / 2 ^ height), index) := by
  intro after
  induction height with
  | zero =>
    refine ⟨nodeIndex, by rw [position, pow_zero, Nat.div_one], ?_⟩
    have leaf : node (pairHash hash) after 0 (keyIndex hash key / 2 ^ 0) = value := by
      rw [pow_zero, Nat.div_one]
      exact Function.update_self _ _ _
    have nothing : storedUpTo hash mt.nodes after (keyIndex hash key) 0 = mt.nodes := by
      funext level other
      exact if_neg fun both => Nat.not_lt_zero _ both.1
    rw [leaf, nothing]
    rfl
  | succ height ih =>
    rcases ih (by omega) with ⟨index, place, run⟩
    refine ⟨index.moveToParent, ?_, ?_⟩
    · rw [NodeIndex.move_to_parent_toNat, place, pow_succ, Nat.div_div_eq_div_mul]
    · rw [range_succ, foldl_append, run, foldl_cons, foldl_nil]
      exact insert_level_eq represents key value map (by omega) place

end

section

variable [NeZero modulus] (size : modulus.size = treeHeight)
  (represents : Represents hash default mt leaves)

include size represents

theorem insert_eq (key value : ZMod modulus) :
    let after := insertLeaf hash leaves (key, value)
    mt.insert hash key value = some {
      root := node (pairHash hash) after treeHeight 0
      nodes := storedUpTo hash mt.nodes after (keyIndex hash key) treeHeight
      map := fun other => if other = key.val then some value else mt.map other
      defaultNodes := mt.defaultNodes } := by
  intro after
  rcases @node_index_of_key modulus hash _ size key with ⟨nodeIndex, found, position⟩
  rcases insert_loop represents key value
    (fun other => if other = key.val then some value else mt.map other) position treeHeight
    (Nat.le_refl _) with ⟨index, -, run⟩
  have top : keyIndex hash key / 2 ^ treeHeight = 0 := Nat.div_eq_of_lt (key_index_lt size key)
  unfold MapMt.insert
  rw [found]
  show some _ = _
  rw [run, top]

theorem insert_represents (key value : ZMod modulus) :
    ∃ next, mt.insert hash key value = some next ∧
      Represents hash default next (insertLeaf hash leaves (key, value)) ∧
      next.map = fun other => if other = key.val then some value else mt.map other := by
  refine ⟨_, insert_eq size represents key value, ?_, rfl⟩
  constructor
  · exact represents.defaults
  · intro height below index
    dsimp only
    unfold storedUpTo
    by_cases above : index.toNat = keyIndex hash key / 2 ^ height
    · rw [if_pos ⟨below, above⟩, Option.getD_some]
    · rw [if_neg (fun both => above both.2), represents.nodes height below]
      exact (node_update _ above).symm
  · intro height index outside
    exact (if_neg fun both => absurd both.1 (Nat.not_lt.mpr outside)).trans
      (represents.bounded height index outside)
  · rfl

theorem insert_comm {firstKey secondKey : ZMod modulus}
    (apart : keyIndex hash firstKey ≠ keyIndex hash secondKey)
    (firstValue secondValue : ZMod modulus) :
    ((mt.insert hash firstKey firstValue).bind fun next => next.insert hash secondKey secondValue) =
      (mt.insert hash secondKey secondValue).bind fun next => next.insert hash firstKey firstValue := by
  have keys : firstKey.val ≠ secondKey.val := fun same =>
    apart (congrArg (keyIndex hash) (ZMod.val_injective modulus same))
  have leavesSame : insertLeaf hash (insertLeaf hash leaves (firstKey, firstValue)) (secondKey, secondValue) =
      insertLeaf hash (insertLeaf hash leaves (secondKey, secondValue)) (firstKey, firstValue) := Function.update_comm apart _ _ _
  rcases insert_represents size represents firstKey firstValue with ⟨afterFirst, firstRun, firstTree, -⟩
  rcases insert_represents size represents secondKey secondValue with
    ⟨afterSecond, secondRun, secondTree, -⟩
  have firstThen := insert_eq size firstTree secondKey secondValue
  have secondThen := insert_eq size secondTree firstKey firstValue
  rw [insert_eq size represents firstKey firstValue] at firstRun
  rw [insert_eq size represents secondKey secondValue] at secondRun
  rw [insert_eq size represents firstKey firstValue, insert_eq size represents secondKey secondValue,
    firstRun, secondRun]
  show afterFirst.insert hash secondKey secondValue = afterSecond.insert hash firstKey firstValue
  rw [firstThen, secondThen]
  cases Option.some.inj firstRun
  cases Option.some.inj secondRun
  dsimp only
  rw [leavesSame]
  refine congrArg some (MapMt.ext rfl ?_ ?_ rfl)
  · funext level index
    dsimp only
    unfold storedUpTo
    by_cases below : level < treeHeight
    · simp only [below, true_and]
      split_ifs with onSecond onFirst onFirst
      · rfl
      · rw [node_insert_leaf _ firstKey firstValue onFirst]
      · rw [← leavesSame, node_insert_leaf _ secondKey secondValue onSecond]
      · rfl
    · simp only [below, false_and, if_false]
  · funext other
    dsimp only
    split_ifs with isSecond isFirst
    · exact absurd (isFirst.symm.trans isSecond) keys
    · rfl
    · rfl
    · rfl

end

end Insert

/-! ### Sequences of inserts -/

def lastValue (default : ZMod modulus) (entries : List (ZMod modulus × ZMod modulus))
    (key : ZMod modulus) : ZMod modulus :=
  entries.foldl (fun current entry => if entry.1 = key then entry.2 else current) default

variable (hash) in
def Alone (entries : List (ZMod modulus × ZMod modulus)) (key : ZMod modulus) : Prop :=
  ∀ entry ∈ entries, keyIndex hash entry.1 = keyIndex hash key → entry.1 = key

section Sequences

variable {default : ZMod modulus} {mt : MapMt modulus} {leaves : Nat → ZMod modulus}

theorem get_eq (represents : Represents hash default mt leaves) (key : ZMod modulus) :
    mt.get key = (mt.map key.val).getD default := by
  unfold MapMt.get
  rw [represents.defaults 0 (by decide), uniform]

theorem inserts_represent [NeZero modulus] (size : modulus.size = treeHeight)
    (represents : Represents hash default mt leaves)
    (entries : List (ZMod modulus × ZMod modulus)) :
    ∃ next, entries.foldlM (fun mt entry => mt.insert hash entry.1 entry.2) mt = some next ∧
      Represents hash default next (entries.foldl (insertLeaf hash) leaves) ∧
      ∀ key, next.get key = lastValue (mt.get key) entries key := by
  induction entries generalizing mt leaves with
  | nil => exact ⟨mt, rfl, represents, fun _ => rfl⟩
  | cons entry entries ih =>
    rcases insert_represents size represents entry.1 entry.2 with ⟨middle, first, tree, map⟩
    rcases ih tree with ⟨next, rest, lastTree, values⟩
    refine ⟨next, ?_, lastTree, ?_⟩
    · rw [foldlM_cons, first]
      exact rest
    · intro key
      have same : key.val = entry.1.val ↔ entry.1 = key := by
        rw [eq_comm]
        exact (ZMod.val_injective modulus).eq_iff
      rw [values, get_eq tree, map, get_eq represents]
      unfold lastValue
      rw [foldl_cons]
      simp only [same]
      split_ifs
      · rfl
      · rfl

theorem leaf_eq_value {entries : List (ZMod modulus × ZMod modulus)} {key : ZMod modulus}
    (alone : Alone hash entries key) (start : ZMod modulus)
    (same : leaves (keyIndex hash key) = start) :
    entries.foldl (insertLeaf hash) leaves (keyIndex hash key) = lastValue start entries key := by
  induction entries generalizing leaves start with
  | nil => exact same
  | cons entry entries ih =>
    unfold lastValue
    rw [foldl_cons, foldl_cons]
    apply ih (forall_mem_cons.mp alone).2
    unfold insertLeaf
    by_cases own : entry.1 = key
    · rw [if_pos own, own, Function.update_self]
    · have apart : keyIndex hash key ≠ keyIndex hash entry.1 := fun equal =>
        own (alone entry mem_cons_self equal.symm)
      rw [if_neg own, Function.update_of_ne apart, same]

section

variable [NeZero modulus] (size : modulus.size = treeHeight)

include size

theorem get_path_eq (represents : Represents hash default mt leaves) (key : ZMod modulus) :
    mt.getPath hash key =
      some (opening (pairHash hash) leaves 0 (keyIndex hash key) treeHeight) := by
  have loop : ∀ (count start : Nat) (index : NodeIndex) (path : List (ZMod modulus)),
      start + count ≤ treeHeight →
      ((range' start count).foldl (fun state height =>
        (state.1 ++ [mt.getSibling state.2 height], state.2.moveToParent)) (path, index)).1 =
          path ++ opening (pairHash hash) leaves start index.toNat count := by
    intro count
    induction count with
    | zero =>
      intro start index path _
      exact (append_nil path).symm
    | succ count ih =>
      intro start index path inside
      rw [range'_succ, foldl_cons, ih _ _ _ (by omega), opening,
        get_sibling_eq represents (by omega), NodeIndex.move_to_parent_toNat, append_assoc]
      rfl
  rcases @node_index_of_key modulus hash _ size key with ⟨nodeIndex, found, position⟩
  unfold MapMt.getPath
  rw [found]
  show some _ = _
  rw [range_eq_range', loop _ _ _ _ (by decide), nil_append, position]

theorem verify_mem_proof_eq (root : ZMod modulus) (path : List (ZMod modulus))
    (key value : ZMod modulus) :
    MapMt.verifyMemProof hash root path key value =
      some (decide (root = climb (pairHash hash) (keyIndex hash key) value path)) := by
  have loop : ∀ (path : List (ZMod modulus)) (index : NodeIndex) (child : ZMod modulus),
      (path.foldl (fun state node =>
        let pair := conditionalSwap state.2.isRight state.1 node
        (hash [pair.1, pair.2], state.2.moveToParent)) (child, index)).1 =
          climb (pairHash hash) index.toNat child path := by
    intro path
    induction path with
    | nil =>
      intro index child
      rfl
    | cons other path ih =>
      intro index child
      rw [foldl_cons, ih, climb, NodeIndex.move_to_parent_toNat]
      dsimp only
      rw [@hash_swap_eq modulus hash]
  rcases @node_index_of_key modulus hash _ size key with ⟨nodeIndex, found, position⟩
  unfold MapMt.verifyMemProof
  rw [found]
  show some _ = _
  rw [loop, position]

theorem inserts_perm (represents : Represents hash default mt leaves)
    {first second : List (ZMod modulus × ZMod modulus)} (perm : first.Perm second)
    (apart : first.Pairwise fun entry other => keyIndex hash entry.1 ≠ keyIndex hash other.1) :
    first.foldlM (fun mt entry => mt.insert hash entry.1 entry.2) mt =
      second.foldlM (fun mt entry => mt.insert hash entry.1 entry.2) mt := by
  induction perm generalizing mt leaves with
  | nil => rfl
  | cons entry _ ih =>
    rcases insert_represents size represents entry.1 entry.2 with ⟨next, run, tree, -⟩
    rw [foldlM_cons, foldlM_cons, run]
    exact ih tree (pairwise_cons.mp apart).2
  | swap entry other rest =>
    have keysApart := (pairwise_cons.mp apart).1 entry mem_cons_self
    have commute := insert_comm size represents keysApart other.2 entry.2
    rw [foldlM_cons, foldlM_cons]
    simp only [foldlM_cons]
    rw [← bind_assoc, ← bind_assoc]
    exact congrArg (fun start => start >>= fun mt =>
      rest.foldlM (fun mt entry => mt.insert hash entry.1 entry.2) mt) commute
  | trans firstPerm _ firstSame secondSame =>
    have symmetric : ∀ {entry other : ZMod modulus × ZMod modulus},
        keyIndex hash entry.1 ≠ keyIndex hash other.1 →
          keyIndex hash other.1 ≠ keyIndex hash entry.1 := Ne.symm
    exact (firstSame represents apart).trans
      (secondSame represents ((firstPerm.pairwise_iff symmetric).mp apart))

end

theorem build_represents [NeZero modulus] (size : modulus.size = treeHeight)
    (default : ZMod modulus) (entries : List (ZMod modulus × ZMod modulus)) :
    ∃ mt, build hash default entries = some mt ∧
      Represents hash default mt (leavesOf hash default entries) ∧
      ∀ key, mt.get key = lastValue default entries key := by
  rcases @new_represents modulus hash size default with ⟨empty, made, represents, noEntries⟩
  rcases inserts_represent size represents entries with ⟨mt, inserted, tree, values⟩
  refine ⟨mt, ?_, tree, ?_⟩
  · unfold build
    rw [made]
    exact inserted
  · intro key
    rw [values, get_eq represents, noEntries]
    rfl

end Sequences

end Midfall.SuccinctMap
