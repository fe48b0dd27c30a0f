import AndroidKernel.Library.Bitmap
import AndroidKernel.Library.Runs
import AndroidKernel.Library.Words

/-!
# Extensible bitmaps

A model of `ebitmap_cmp`, `ebitmap_contains`, `ebitmap_get_bit` and `ebitmap_set_bit` of
`security/selinux/ss/ebitmap.c`, with pointers and `unsigned long` of 32 bits. The list of nodes
is a list; the pointer `prev` of the loop is the node in front of the rest of the list.
-/

namespace AndroidKernel.Ebitmap

open Library

/-- `EBITMAP_UNIT_NUMS`, for pointers, `u32` and `unsigned long` of four bytes. -/
def ebitmapUnitNums : Nat := (32 - 4 - 4) / 4

/-- `EBITMAP_UNIT_SIZE`. -/
def ebitmapUnitSize : Nat := 32

/-- `EBITMAP_SIZE`. -/
def ebitmapSize : Nat := ebitmapUnitNums * ebitmapUnitSize

/-- `struct ebitmap_node`, without `next`. -/
structure EbitmapNode where
  maps : Fin ebitmapUnitNums → BitVec 32
  startbit : Nat

/-- `struct ebitmap`. -/
structure Ebitmap where
  nodes : List EbitmapNode
  highbit : Nat

/-- `ebitmap_init`. -/
def ebitmapInit : Ebitmap where
  nodes := []
  highbit := 0

namespace EbitmapNode

/-- `EBITMAP_NODE_INDEX`. The subtraction never borrows: no node that starts behind `bit` is looked
into. -/
def index (n : EbitmapNode) (bit : Nat) : Nat :=
  (bit - n.startbit) / ebitmapUnitSize

/-- `EBITMAP_NODE_OFFSET`. -/
def offset (n : EbitmapNode) (bit : Nat) : Nat :=
  (bit - n.startbit) % ebitmapUnitSize

/-- `EBITMAP_BIT << ofs`. -/
def mask (n : EbitmapNode) (bit : Nat) : BitVec 32 :=
  1#32 <<< n.offset bit

/-- `ebitmap_node_get_bit`. Its callers show that the `BUG_ON` is not hit. -/
def getBit (n : EbitmapNode) (bit : Nat) (h : n.index bit < ebitmapUnitNums) : Bool :=
  n.maps ⟨n.index bit, h⟩ &&& n.mask bit != 0#32

/-- `ebitmap_node_set_bit`. -/
def setBit (n : EbitmapNode) (bit : Nat) (h : n.index bit < ebitmapUnitNums) : EbitmapNode :=
  { n with maps := Function.update n.maps ⟨n.index bit, h⟩
                     (n.maps ⟨n.index bit, h⟩ ||| n.mask bit) }

/-- `ebitmap_node_clr_bit`. -/
def clrBit (n : EbitmapNode) (bit : Nat) (h : n.index bit < ebitmapUnitNums) : EbitmapNode :=
  { n with maps := Function.update n.maps ⟨n.index bit, h⟩
                     (n.maps ⟨n.index bit, h⟩ &&& ~~~ n.mask bit) }

/-- Bit `i` of the maps. -/
def bit (n : EbitmapNode) (i : Nat) : Bool :=
  if h : i / ebitmapUnitSize < ebitmapUnitNums then
    (n.maps ⟨i / ebitmapUnitSize, h⟩).getLsbD (i % ebitmapUnitSize)
  else false

/-- `find_first_bit(n->maps, EBITMAP_SIZE)`. -/
def findFirstBit (n : EbitmapNode) : Nat :=
  Bitmap.findNextBit n.bit ebitmapSize 0

/-- `kzalloc` and `new->startbit`. -/
def zeroed (bit : Nat) : EbitmapNode where
  maps _ := 0#32
  startbit := bit - bit % ebitmapSize

/-- A node that `bit` was found in has a map for it. -/
theorem index_lt {n : EbitmapNode} {bit : Nat} (hlt : bit < wadd n.startbit ebitmapSize) :
    n.index bit < ebitmapUnitNums := by
  have hle : wadd n.startbit ebitmapSize ≤ n.startbit + ebitmapSize := Nat.mod_le _ _
  have hmul : bit - n.startbit < ebitmapUnitNums * ebitmapUnitSize := by
    show bit - n.startbit < ebitmapSize
    have hpos : 0 < ebitmapSize := by decide
    omega
  exact (Nat.div_lt_iff_lt_mul (by decide)).mpr hmul

/-- A new node has a map for its bit. -/
theorem zeroed_index_lt (bit : Nat) : (zeroed bit).index bit < ebitmapUnitNums := by
  have hmod : bit % ebitmapSize < ebitmapUnitNums * ebitmapUnitSize :=
    Nat.mod_lt bit (by decide)
  have hsub : bit - (zeroed bit).startbit = bit % ebitmapSize :=
    Nat.sub_sub_self (Nat.mod_le bit _)
  rw [index, hsub]
  exact (Nat.div_lt_iff_lt_mul (by decide)).mpr hmod

end EbitmapNode

/-! ## Reading -/

/-- The loop of `ebitmap_get_bit`. -/
def getBitNodes (bit : Nat) : List EbitmapNode → Bool
  | [] => false
  | n :: next =>
    if n.startbit ≤ bit then
      if h : bit < wadd n.startbit ebitmapSize then n.getBit bit (EbitmapNode.index_lt h)
      else getBitNodes bit next
    else false

/-- `ebitmap_get_bit`. -/
def ebitmapGetBit (e : Ebitmap) (bit : Nat) : Bool :=
  if e.highbit < bit then false else getBitNodes bit e.nodes

/-- The loop of `ebitmap_cmp` and the test behind it. -/
def cmpNodes : List EbitmapNode → List EbitmapNode → Bool
  | n₁ :: next₁, n₂ :: next₂ =>
    if n₁.startbit = n₂.startbit ∧ ∀ i, n₁.maps i = n₂.maps i then cmpNodes next₁ next₂
    else false
  | [], [] => true
  | _, _ => false

/-- `ebitmap_cmp`. -/
def ebitmapCmp (e₁ e₂ : Ebitmap) : Bool :=
  if e₁.highbit ≠ e₂.highbit then false else cmpNodes e₁.nodes e₂.nodes

/-- The loop of `ebitmap_contains` and the test behind it. -/
def containsNodes : List EbitmapNode → List EbitmapNode → Bool
  | n₁ :: next₁, n₂ :: next₂ =>
    if n₁.startbit ≤ n₂.startbit then
      if n₁.startbit < n₂.startbit then containsNodes next₁ (n₂ :: next₂)
      else if ∀ i, n₁.maps i &&& n₂.maps i = n₂.maps i then containsNodes next₁ next₂
      else false
    else false
  | _, [] => true
  | [], _ :: _ => false

/-- `ebitmap_contains`. -/
def ebitmapContains (e₁ e₂ : Ebitmap) : Bool :=
  if e₁.highbit < e₂.highbit then false else containsNodes e₁.nodes e₂.nodes

/-! ## Writing -/

/-- What `ebitmap_set_bit` returns. -/
inductive Code where
  | ok
  | enomem
  deriving DecidableEq, Repr

/-- The outcome for the list from some node on: the result, the new list, and `e->highbit` if it
is written. -/
structure SetResult where
  code : Code
  nodes : List EbitmapNode
  highbit : Option Nat

/-- The part of `ebitmap_set_bit` behind its loop. `rest` begins with `n`, and `alloc` says whether
`kzalloc` succeeds. -/
def insertNode (bit : Nat) (value alloc : Bool) (rest : List EbitmapNode) : SetResult :=
  if value = false then ⟨.ok, rest, none⟩
  else if alloc = false then ⟨.enomem, rest, none⟩
  else
    let new := (EbitmapNode.zeroed bit).setBit bit (EbitmapNode.zeroed_index_lt bit)
    ⟨.ok, new :: rest, if rest.isEmpty then some (wadd new.startbit ebitmapSize) else none⟩

/-- `e->highbit` when the last node is dropped. -/
def highbitBefore : Option EbitmapNode → Nat
  | some prev => wadd prev.startbit ebitmapSize
  | none => 0

/-- The loop of `ebitmap_set_bit`, and what it does with the node that it finds. -/
def setBitNodes (bit : Nat) (value alloc : Bool) :
    Option EbitmapNode → List EbitmapNode → SetResult
  | _, [] => insertNode bit value alloc []
  | prev, n :: next =>
    if n.startbit ≤ bit then
      if h : bit < wadd n.startbit ebitmapSize then
        if value then ⟨.ok, n.setBit bit (EbitmapNode.index_lt h) :: next, none⟩
        else
          let cleared := n.clrBit bit (EbitmapNode.index_lt h)
          if cleared.findFirstBit < ebitmapSize then ⟨.ok, cleared :: next, none⟩
          -- drop this node from the bitmap
          else ⟨.ok, next, if next.isEmpty then some (highbitBefore prev) else none⟩
      else
        let result := setBitNodes bit value alloc (some n) next
        { result with nodes := n :: result.nodes }
    else insertNode bit value alloc (n :: next)

/-- `ebitmap_set_bit`. -/
def ebitmapSetBit (e : Ebitmap) (bit : Nat) (value alloc : Bool) : Code × Ebitmap :=
  let result := setBitNodes bit value alloc none e.nodes
  (result.code, ⟨result.nodes, result.highbit.getD e.highbit⟩)

/-! ## Runs -/

/-- A bitmap and the values that were written to its bits. -/
structure System where
  map : Ebitmap
  written : Nat → Bool

def initial : System where
  map := ebitmapInit
  written _ := false

/-- A call of `ebitmap_set_bit`. -/
structure Op where
  bit : Nat
  value : Bool
  alloc : Bool

def step (s : System) (op : Op) : System :=
  match ebitmapSetBit s.map op.bit op.value op.alloc with
  | (.ok, map) => ⟨map, Function.update s.written op.bit op.value⟩
  | (.enomem, map) => ⟨map, s.written⟩

def Step (s : System) (op : Op) (s' : System) : Prop :=
  step s op = s'

/-- No node starts in the last bits. -/
def Valid (_ : System) (op : Op) : Prop :=
  op.bit < word - 2 * ebitmapSize

end AndroidKernel.Ebitmap
