import AndroidKernel.Library.Bytes
import AndroidKernel.Library.Words

/-!
# The in-place heapsort

`sort` of `lib/sort.c` works on byte offsets from the base of the array. It keeps them in `int`
variables, but the element size is a `size_t`, so the comparisons of offsets are made in `size_t`
and the results are cut down to `int`s again. The model makes these conversions where the source
does. An access outside the array is a fault.
-/

namespace AndroidKernel.Sort

open Library Exec

abbrev Byte := BitVec 8

/-- The bytes of the array, by their offset from its base. -/
abbrev Mem := Nat → Byte

/-- The arguments of a call of `sort` on a machine with a `size_t` of `w` bits. The comparison
function sees the bytes of two elements. The optional swap function gets two offsets and the
element size. -/
structure Call where
  w : Nat
  num : Nat
  size : Nat
  cmpFunc : List Byte → List Byte → Int
  swapFunc : Option (Mem → Int → Int → Int → Exec Mem)

namespace Call

variable (call : Call)

/-- Conversion to a `size_t`. -/
def sizeT (x : Int) : Int :=
  x % 2 ^ call.w

/-- The offset of an address that is reached from the base by pointer arithmetic. -/
def addr (x : Int) : Nat :=
  (call.sizeT x).toNat

/-- Load `k` bytes at an offset. -/
def load (mem : Mem) (a : Int) (k : Nat) : Exec (List Byte) :=
  if call.addr a + k ≤ call.num * call.size then .ok (read mem (call.addr a) k) else .error .fault

/-- Store bytes at an offset. -/
def store (mem : Mem) (a : Int) (bytes : List Byte) : Exec Mem :=
  if call.addr a + bytes.length ≤ call.num * call.size then .ok (write mem (call.addr a) bytes)
  else .error .fault

/-- `t = *a; *a = *b; *b = t` for a type of `k` bytes. -/
def swapUnit (k : Nat) (mem : Mem) (a b : Int) : Exec Mem := do
  let t ← call.load mem a k
  let u ← call.load mem b k
  let mem ← call.store mem a u
  call.store mem b t

def u32Swap (mem : Mem) (a b : Int) : Exec Mem :=
  call.swapUnit 4 mem a b

/-- The loop of `generic_swap`, with the number of rounds after this one. -/
def genericSwapLoop : Nat → Mem → Int → Int → Exec Mem
  | 0, mem, a, b => call.swapUnit 1 mem a b
  | left + 1, mem, a, b => do
    let mem ← call.swapUnit 1 mem a b
    genericSwapLoop left mem (a + 1) (b + 1)

/-- `do { … } while (--size > 0)`, a byte a round. -/
def genericSwap (mem : Mem) (a b : Int) (size : Int) : Exec Mem :=
  call.genericSwapLoop (size - 1).toNat mem a b

/-- The swap function of the call, or the one that `sort` picks. -/
def swap (mem : Mem) (a b : Int) : Exec Mem :=
  match call.swapFunc with
  | some swapFunc => swapFunc mem a b (int call.size)
  | none => if call.size = 4 then call.u32Swap mem a b else call.genericSwap mem a b (int call.size)

/-- The comparison function on the elements at two offsets. -/
def compare (mem : Mem) (a b : Int) : Exec Int := do
  let x ← call.load mem a call.size
  let y ← call.load mem b call.size
  pure (call.cmpFunc x y)

/-- `c = r * 2 + size; if (c < n - size && cmp_func(base + c, base + c + size) < 0) c += size;` -/
def child (mem : Mem) (n r : Int) : Exec Int :=
  let c := int (int (r * 2) + call.size)
  if call.sizeT c < call.sizeT (n - call.size) then do
    let order ← call.compare mem c (c + call.size)
    pure (if order < 0 then int (c + call.size) else c)
  else
    pure c

/-- The inner loops: the element at `r` goes down in the heap that ends at `n`. -/
def sift (n : Int) : Nat → Mem → Int → Exec Mem
  | 0, _, _ => .error .unfinished
  | fuel + 1, mem, r =>
    if call.sizeT (int (r * 2) + call.size) < call.sizeT n then do
      let c ← call.child mem n r
      let order ← call.compare mem r c
      if 0 ≤ order then
        pure mem
      else do
        let mem ← call.swap mem r c
        sift n fuel mem c
    else
      pure mem

/-- `for ( ; i >= 0; i -= size)`, the first outer loop. -/
def heapify (n : Int) : Nat → Mem → Int → Exec Mem
  | 0, _, _ => .error .unfinished
  | fuel + 1, mem, i =>
    if 0 ≤ i then do
      let mem ← call.sift n fuel mem i
      heapify n fuel mem (int (call.sizeT (i - call.size)))
    else
      pure mem

/-- `for (i = n - size; i > 0; i -= size)`, the second outer loop: the root of the heap goes to
the end. -/
def extract : Nat → Mem → Int → Exec Mem
  | 0, _, _ => .error .unfinished
  | fuel + 1, mem, i =>
    if 0 < i then do
      let mem ← call.swap mem 0 i
      let mem ← call.sift i fuel mem 0
      extract fuel mem (int (call.sizeT (i - call.size)))
    else
      pure mem

/-- `sort`, with fuel for each of its loops. -/
def sort (fuel : Nat) (mem : Mem) : Exec Mem := do
  let i := int (call.sizeT (((call.num / 2 : Nat) - 1 : Int) * call.size))
  let n := int (call.sizeT (call.num * call.size))
  let mem ← call.heapify n fuel mem i
  call.extract fuel mem (int (call.sizeT (n - call.size)))

end Call

end AndroidKernel.Sort
