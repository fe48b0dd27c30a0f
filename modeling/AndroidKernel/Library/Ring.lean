import Mathlib.Tactic.Common
import Mathlib.Data.Nat.Basic

/-!
# Ring buffers

A ring of `size` cells, addressed by offsets below `size`. A `Chunk` is a string of cells.
`Holds` says that a chunk lies in the ring from an offset on, and `put` writes one there in the
two pieces that the end of the underlying array forces.
-/

namespace AndroidKernel.Library.Ring

universe u

variable {α : Type u}

/-- A string of cells; only the values below `length` matter. -/
structure Chunk (α : Type u) where
  length : Nat
  get : Nat → α

/-- The first cells of a chunk. -/
def Chunk.take (chunk : Chunk α) (count : Nat) : Chunk α where
  length := min count chunk.length
  get := chunk.get

/-- What is left of a chunk behind its first cells. -/
def Chunk.drop (chunk : Chunk α) (count : Nat) : Chunk α where
  length := chunk.length - count
  get i := chunk.get (count + i)

/-- `memcpy(buffer + off, chunk, chunk.length)`. -/
def memcpy (buffer : Nat → α) (off : Nat) (chunk : Chunk α) : Nat → α :=
  fun i => if off ≤ i ∧ i < off + chunk.length then chunk.get (i - off) else buffer i

/-- Write a chunk from `off` on, up to the end of the array and then from its start. -/
def put (size : Nat) (buffer : Nat → α) (off : Nat) (chunk : Chunk α) : Nat → α :=
  let len := min chunk.length (size - off)
  let buffer := memcpy buffer off (chunk.take len)
  if chunk.length ≠ len then memcpy buffer 0 (chunk.drop len) else buffer

/-- The chunk lies in the ring from `off` on. -/
def Holds (size : Nat) (buffer : Nat → α) (off : Nat) (chunk : Chunk α) : Prop :=
  ∀ i, i < chunk.length → buffer ((off + i) % size) = chunk.get i

/-- Two buffers agree on the `count` cells from `off` on. -/
def Agree (size : Nat) (buffer buffer' : Nat → α) (off count : Nat) : Prop :=
  ∀ i, i < count → buffer' ((off + i) % size) = buffer ((off + i) % size)

variable {size off : Nat} {buffer buffer' : Nat → α} {chunk first : Chunk α}

/-- Offsets wrap once when less than a whole turn is added. -/
theorem offset_eq {n : Nat} (hoff : off < size) (hn : n ≤ size) :
    (off + n) % size = if off + n < size then off + n else off + n - size := by
  split_ifs with hlt
  · exact Nat.mod_eq_of_lt hlt
  · rw [Nat.mod_eq_sub_mod (by omega), Nat.mod_eq_of_lt (by omega)]

/-- The cell some way behind a position. -/
theorem mod_add_eq {n i : Nat} (hsize : 0 < size) (hi : i ≤ size) :
    (n + i) % size = if n % size + i < size then n % size + i else n % size + i - size := by
  rw [← Nat.mod_add_mod, offset_eq (Nat.mod_lt n hsize) hi]

/-- Adding to an offset in two steps. -/
theorem offset_add (m n : Nat) : ((off + m) % size + n) % size = (off + (m + n)) % size := by
  rw [Nat.mod_add_mod, Nat.add_assoc]

theorem memcpy_of_mem {i : Nat} (hle : off ≤ i) (hlt : i < off + chunk.length) :
    memcpy buffer off chunk i = chunk.get (i - off) :=
  if_pos ⟨hle, hlt⟩

theorem memcpy_of_not_mem {i : Nat} (h : i < off ∨ off + chunk.length ≤ i) :
    memcpy buffer off chunk i = buffer i :=
  if_neg (by omega)

/-- The cells of the ring after the piece of a chunk up to the end of the array is written. -/
theorem memcpy_take_apply {i : Nat} (hoff : off < size) (hi : i < size) :
    memcpy buffer off (chunk.take (min chunk.length (size - off))) ((off + i) % size) =
      if i < min chunk.length (size - off) then chunk.get i else buffer ((off + i) % size) := by
  have hlength : (chunk.take (min chunk.length (size - off))).length =
      min chunk.length (size - off) := Nat.min_eq_left (Nat.min_le_left _ _)
  rw [offset_eq hoff (Nat.le_of_lt hi)]
  by_cases hin : i < min chunk.length (size - off)
  · rw [if_pos hin, if_pos (by omega), memcpy_of_mem (Nat.le_add_right _ _) (by omega),
      Nat.add_sub_cancel_left]
    rfl
  · rw [if_neg hin, memcpy_of_not_mem (by split_ifs <;> omega)]

/-- The cells of the ring after the rest of a chunk of at most one turn is written from the start
of the array on. -/
theorem memcpy_drop_apply {i : Nat} (hoff : off < size) (hlen : chunk.length ≤ size)
    (hi : i < size) :
    memcpy buffer 0 (chunk.drop (min chunk.length (size - off))) ((off + i) % size) =
      if min chunk.length (size - off) ≤ i ∧ i < chunk.length then chunk.get i
      else buffer ((off + i) % size) := by
  have hlength : (chunk.drop (min chunk.length (size - off))).length =
      chunk.length - min chunk.length (size - off) := rfl
  rw [offset_eq hoff (Nat.le_of_lt hi)]
  by_cases hin : min chunk.length (size - off) ≤ i ∧ i < chunk.length
  · rw [if_pos hin, if_neg (by omega), memcpy_of_mem (Nat.zero_le _) (by omega)]
    refine congrArg chunk.get ?_
    omega
  · rw [if_neg hin, memcpy_of_not_mem (by split_ifs <;> omega)]

/-- The cells of the ring after a chunk of at most one turn is written. -/
theorem put_apply {i : Nat} (hoff : off < size) (hlen : chunk.length ≤ size) (hi : i < size) :
    put size buffer off chunk ((off + i) % size) =
      if i < chunk.length then chunk.get i else buffer ((off + i) % size) := by
  unfold put
  by_cases hrest : chunk.length = min chunk.length (size - off)
  · rw [if_neg (not_not.mpr hrest), memcpy_take_apply hoff hi, ← hrest]
  rw [if_pos hrest, memcpy_drop_apply hoff hlen hi, memcpy_take_apply hoff hi]
  split_ifs
  · rfl
  · omega
  · rfl
  · omega
  · omega
  · rfl

/-- A chunk that has been written lies in the ring. -/
theorem holds_put (hoff : off < size) (hlen : chunk.length ≤ size) :
    Holds size (put size buffer off chunk) off chunk := by
  intro i hi
  rw [put_apply hoff hlen (by omega), if_pos hi]

/-- Writing leaves what lies behind the chunk alone. -/
theorem agree_put {skip count : Nat} (hoff : off < size) (hskip : chunk.length ≤ skip)
    (hcount : skip + count ≤ size) :
    Agree size buffer (put size buffer off chunk) ((off + skip) % size) count := by
  intro i hi
  rw [offset_add, put_apply hoff (by omega) (by omega), if_neg (by omega)]

/-- The way from one offset to another is what was added to the first. -/
theorem distance_eq {i : Nat} (hoff : off < size) (hi : i < size) :
    ((off + i) % size + size - off) % size = i := by
  rw [offset_eq hoff (Nat.le_of_lt hi)]
  split_ifs with hlt
  · rw [show off + i + size - off = i + size by omega, Nat.add_mod_right, Nat.mod_eq_of_lt hi]
  · rw [show off + i - size + size - off = i by omega, Nat.mod_eq_of_lt hi]

/-- A chunk stays in the ring when its cells do not change. -/
theorem Holds.congr (h : Holds size buffer off chunk)
    (hagree : Agree size buffer buffer' off chunk.length) : Holds size buffer' off chunk := by
  intro i hi
  rw [hagree i hi, h i hi]

/-- Agreement on a range gives agreement on its parts. -/
theorem Agree.sub {skip count count' : Nat} (h : Agree size buffer buffer' off count)
    (hle : skip + count' ≤ count) :
    Agree size buffer buffer' ((off + skip) % size) count' := by
  intro i hi
  rw [offset_add]
  exact h (skip + i) (by omega)

theorem Agree.trans {buffer'' : Nat → α} {count : Nat} (h : Agree size buffer buffer' off count)
    (h' : Agree size buffer' buffer'' off count) : Agree size buffer buffer'' off count := by
  intro i hi
  rw [h' i hi, h i hi]

end AndroidKernel.Library.Ring
