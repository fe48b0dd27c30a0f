import Mathlib.Tactic.Common

/-!
# Reading and writing stretches of memory

A memory gives a value for each offset. `read` takes a stretch of it as a list, and `write` puts a
list at an offset. `exchange` swaps two stretches.
-/

namespace AndroidKernel.Library

variable {α : Type} {mem : Nat → α} {off off' n m i : Nat} {bytes : List α}

/-- The `n` values from `off` on. -/
def read (mem : Nat → α) (off n : Nat) : List α :=
  (List.range n).map fun i => mem (off + i)

/-- `memcpy` to `off`. -/
def write (mem : Nat → α) (off : Nat) (bytes : List α) : Nat → α := fun i =>
  if off ≤ i then bytes[i - off]?.getD (mem i) else mem i

@[simp] theorem length_read (mem : Nat → α) (off n : Nat) : (read mem off n).length = n := by
  simp [read]

@[simp] theorem read_zero (mem : Nat → α) (off : Nat) : read mem off 0 = [] :=
  rfl

theorem read_add (mem : Nat → α) (off m n : Nat) :
    read mem off (m + n) = read mem off m ++ read mem (off + m) n := by
  unfold read
  rw [List.range_add, List.map_append, List.map_map]
  simp only [Function.comp_def, Nat.add_assoc]

/-- Memories that agree on a stretch give the same list. -/
theorem read_congr {mem' : Nat → α} (h : ∀ i, off ≤ i → i < off + n → mem' i = mem i) :
    read mem' off n = read mem off n := by
  refine List.map_congr_left fun i hi => ?_
  have hi := List.mem_range.mp hi
  exact h _ (by omega) (by omega)

theorem write_of_not_mem (h : i < off ∨ off + bytes.length ≤ i) : write mem off bytes i = mem i := by
  unfold write
  split_ifs with hle
  · rw [List.getElem?_eq_none (by omega), Option.getD_none]
  · rfl

theorem write_of_mem (h : i < bytes.length) : write mem off bytes (off + i) = bytes[i] := by
  unfold write
  rw [if_pos (Nat.le_add_right _ _), Nat.add_sub_cancel_left, List.getElem?_eq_getElem h,
    Option.getD_some]

/-- A stretch that was written reads back. -/
theorem read_write (mem : Nat → α) (off : Nat) (bytes : List α) :
    read (write mem off bytes) off bytes.length = bytes := by
  apply List.ext_getElem
  · simp
  · intro i hi hi'
    simp [read, write_of_mem hi']

/-- A stretch beside what was written is as before. -/
theorem read_write_of_disjoint (h : off' + n ≤ off ∨ off + bytes.length ≤ off') :
    read (write mem off bytes) off' n = read mem off' n :=
  read_congr fun _ _ _ => write_of_not_mem (by omega)

/-- Writing back what is there changes nothing. -/
theorem write_read (mem : Nat → α) (off n : Nat) : write mem off (read mem off n) = mem := by
  funext i
  by_cases hmem : off ≤ i ∧ i < off + n
  · obtain ⟨hle, hlt⟩ := hmem
    have hi : i - off < (read mem off n).length := by
      rw [length_read]
      omega
    have hget := @write_of_mem _ mem off _ _ hi
    rw [Nat.add_sub_cancel' hle] at hget
    rw [hget]
    simp [read, Nat.add_sub_cancel' hle]
  · refine write_of_not_mem ?_
    rw [length_read]
    omega

/-- The memory with the `n` values from `a` on and those from `b` on in each other's place. -/
def exchange (mem : Nat → α) (a b n : Nat) : Nat → α := fun i =>
  if a ≤ i ∧ i < a + n then mem (i - a + b)
  else if b ≤ i ∧ i < b + n then mem (i - b + a)
  else mem i

variable {a b : Nat}

/-- Each stretch is written over the other one. -/
theorem write_write_read (mem : Nat → α) (h : a + n ≤ b ∨ b + n ≤ a) :
    write (write mem a (read mem b n)) b (read mem a n) = exchange mem a b n := by
  funext i
  have hget : ∀ off j, j < n → (read mem off n)[j]? = some (mem (off + j)) := by
    intro off j hj
    rw [read, List.getElem?_map, List.getElem?_range hj, Option.map_some]
  unfold exchange
  by_cases ha : a ≤ i ∧ i < a + n
  · rw [if_pos ha, write_of_not_mem (by rw [length_read]; omega), write, if_pos ha.1,
      hget b _ (by omega), Option.getD_some, Nat.add_comm]
  · rw [if_neg ha]
    by_cases hb : b ≤ i ∧ i < b + n
    · rw [if_pos hb, write, if_pos hb.1, hget a _ (by omega), Option.getD_some, Nat.add_comm]
    · rw [if_neg hb, write_of_not_mem (by rw [length_read]; omega),
        write_of_not_mem (by rw [length_read]; omega)]

/-- Two stretches are exchanged piece by piece. -/
theorem exchange_add (mem : Nat → α) (m n : Nat) (h : a + (m + n) ≤ b ∨ b + (m + n) ≤ a) :
    exchange (exchange mem a b m) (a + m) (b + m) n = exchange mem a b (m + n) := by
  funext i
  unfold exchange
  split_ifs
  all_goals first
    | omega
    | exact congrArg mem (by omega)

/-- A stretch read after an exchange: one of the two, or one beside them. -/
theorem read_exchange_left (mem : Nat → α) (a b n : Nat) :
    read (exchange mem a b n) a n = read mem b n := by
  refine List.map_congr_left fun i hi => ?_
  have hi := List.mem_range.mp hi
  unfold exchange
  rw [if_pos (by omega)]
  exact congrArg mem (by omega)

theorem read_exchange_right (mem : Nat → α) (h : a + n ≤ b ∨ b + n ≤ a) :
    read (exchange mem a b n) b n = read mem a n := by
  refine List.map_congr_left fun i hi => ?_
  have hi := List.mem_range.mp hi
  unfold exchange
  rw [if_neg (by omega), if_pos (by omega)]
  exact congrArg mem (by omega)

theorem exchange_of_not_mem (ha : i < a ∨ a + n ≤ i) (hb : i < b ∨ b + n ≤ i) :
    exchange mem a b n i = mem i := by
  unfold exchange
  rw [if_neg (by omega), if_neg (by omega)]

theorem read_exchange_of_disjoint (ha : off + m ≤ a ∨ a + n ≤ off)
    (hb : off + m ≤ b ∨ b + n ≤ off) :
    read (exchange mem a b n) off m = read mem off m :=
  read_congr fun _ _ _ => exchange_of_not_mem (by omega) (by omega)

/-!
## Executions that can fault

The memory of an execution ends somewhere, and its loops use up fuel. It has a result, or it stops
because of an access outside, or it is unfinished.
-/

/-- The ways for an execution to have no result. -/
inductive Stop where
  | fault
  | unfinished
  deriving DecidableEq

abbrev Exec := Except Stop

namespace Exec

variable {α β : Type} {x : Exec α} {f : α → Exec β} {b : β}

theorem ok_bind (a : α) (f : α → Exec β) : (Except.ok a >>= f) = f a :=
  rfl

/-- An execution with a result went through a result of its first part. -/
theorem bind_eq_ok (h : (x >>= f) = .ok b) : ∃ a, x = .ok a ∧ f a = .ok b := by
  cases x with
  | error e => cases h
  | ok a => exact ⟨a, rfl, h⟩

end Exec

end AndroidKernel.Library
