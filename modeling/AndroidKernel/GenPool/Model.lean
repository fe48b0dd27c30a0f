import Mathlib.Tactic.Ring
import AndroidKernel.Library.Bitmap

/-!
# Memory pools

`lib/genalloc.c` on a 32-bit machine, one call after the other. Numbers of granules are `int` and
wrap. A result `none` is a `BUG_ON` or a loop that leaves a bitmap.
-/

namespace AndroidKernel.GenPool

open Library

/-- `struct gen_pool_chunk`. -/
structure GenPoolChunk where
  startAddr : Nat
  endAddr : Nat
  bits : Bitmap

/-- `struct gen_pool`. -/
structure GenPool where
  chunks : List GenPoolChunk
  minAllocOrder : Nat
  order_lt : minAllocOrder < 32

/-- A number as an `int`. -/
def toInt (n : Int) : Int :=
  n.bmod (2 ^ 32)

/-- `(size + (1UL << order) - 1) >> order`, as an `int`. -/
def nbits (order size : Nat) : Int :=
  toInt ((size + 2 ^ order - 1) % 2 ^ 32 / 2 ^ order : Nat)

/-- The number of granules of a chunk. -/
def GenPoolChunk.granules (order : Nat) (chunk : GenPoolChunk) : Int :=
  toInt ((chunk.endAddr + 2 ^ 32 - chunk.startAddr) % 2 ^ 32 / 2 ^ order : Nat)

/-- `gen_pool_add`; `memory` tells whether the chunk can be allocated. -/
def genPoolAdd (pool : GenPool) (addr size : Nat) (memory : Bool) : GenPool :=
  if memory then
    { pool with chunks := ⟨addr, (addr + size) % 2 ^ 32, fun _ => false⟩ :: pool.chunks }
  else pool

/-- How a search in a chunk ends. -/
inductive Scan
  | found (startBit : Nat)
  | full
  | running

/-- The loop over a chunk in `gen_pool_alloc`, at most `fuel` times. -/
def scan (bits : Bitmap) (nbits endBit : Int) : Nat → Int → Scan
  | 0, _ => .running
  | fuel + 1, bit =>
    if bit + 1 < endBit then
      let start := bits.findNextZeroBit endBit.toNat (bit + 1).toNat
      if endBit ≤ start then .full
      else if 1 < nbits then
        let next := bits.findNextBit (start + nbits).toNat (start + 1)
        if (next : Int) - start < nbits then scan bits nbits endBit fuel next
        else .found start
      else .found start
    else .full

/-- `end_bit` in `gen_pool_alloc`. -/
def GenPoolChunk.endBit (order : Nat) (n : Int) (chunk : GenPoolChunk) : Int :=
  toInt (chunk.granules order - toInt (n + 1))

/-- The end of a search: the address and the chunk with its bits set, if there is room. -/
def takeBits (order : Nat) (n : Int) (chunk : GenPoolChunk) :
    Scan → Option (Option (Nat × GenPoolChunk))
  | .running => none
  | .full => some none
  | .found start =>
    if n < 0 then none
    else
      some (some ((chunk.startAddr + start * 2 ^ order) % 2 ^ 32,
        { chunk with bits := chunk.bits.writeBits true start n.toNat }))

/-- `gen_pool_alloc` in one chunk. -/
def allocChunk (order : Nat) (n : Int) (chunk : GenPoolChunk) :
    Option (Option (Nat × GenPoolChunk)) :=
  takeBits order n chunk
    (scan chunk.bits n (chunk.endBit order n) ((chunk.endBit order n).toNat + 2) (-1))

/-- The loop over the chunks in `gen_pool_alloc`. -/
def allocChunks (order : Nat) (n : Int) : List GenPoolChunk → Option (Nat × List GenPoolChunk)
  | [] => some (0, [])
  | chunk :: chunks => do
    match ← allocChunk order n chunk with
    | some (addr, chunk) => some (addr, chunk :: chunks)
    | none =>
      let (addr, chunks) ← allocChunks order n chunks
      some (addr, chunk :: chunks)

/-- `gen_pool_alloc`. -/
def genPoolAlloc (pool : GenPool) (size : Nat) : Option (Nat × GenPool) :=
  if size = 0 then some (0, pool)
  else
    (allocChunks pool.minAllocOrder (nbits pool.minAllocOrder size) pool.chunks).map
      fun (addr, chunks) => (addr, { pool with chunks })

/-- The loop over the chunks in `gen_pool_free`. -/
def freeChunks (order addr size : Nat) (n : Int) : List GenPoolChunk → Option (List GenPoolChunk)
  | [] => if 0 < n then none else some []
  | chunk :: chunks =>
    if chunk.startAddr ≤ addr ∧ addr < chunk.endAddr then
      if chunk.endAddr < (addr + size) % 2 ^ 32 ∨ n < 0 then none
      else
        let bit := (addr - chunk.startAddr) / 2 ^ order
        some ({ chunk with bits := chunk.bits.writeBits false bit n.toNat } :: chunks)
    else (freeChunks order addr size n chunks).map (chunk :: ·)

/-- `gen_pool_free`. -/
def genPoolFree (pool : GenPool) (addr size : Nat) : Option GenPool :=
  (freeChunks pool.minAllocOrder addr size (nbits pool.minAllocOrder size) pool.chunks).map
    fun chunks => { pool with chunks }

/-- A block that was returned by `gen_pool_alloc`, with the size that was asked for. -/
structure Block where
  addr : Nat
  size : Nat
deriving DecidableEq

/-- A pool with the blocks that are in use. -/
structure System where
  pool : GenPool
  live : List Block

/-- The calls. -/
inductive Op
  | add (addr size : Nat) (memory : Bool)
  | alloc (size : Nat)
  | free (block : Block)

/-- A call. The address 0 is taken for a failure. -/
def step (s : System) : Op → Option System
  | .add addr size memory => some { s with pool := genPoolAdd s.pool addr size memory }
  | .alloc size => do
    let (addr, pool) ← genPoolAlloc s.pool size
    some ⟨pool, if addr = 0 then s.live else ⟨addr, size⟩ :: s.live⟩
  | .free block => do
    let pool ← genPoolFree s.pool block.addr block.size
    some ⟨pool, s.live.erase block⟩

/-- `gen_pool_create`. -/
def genPoolCreate (minAllocOrder : Nat) (h : minAllocOrder < 32) : System :=
  ⟨⟨[], minAllocOrder, h⟩, []⟩

/-!
## Searches in chunks

What one chunk, and the list of chunks, are like after bits were taken or given back.
-/

/-! ## A search -/

/-- A search ends, and what it finds is clear. -/
theorem scan_spec {bits : Bitmap} {n endBit : Int} (hn : 1 ≤ n) {fuel : Nat} {bit : Int}
    (hbit : -1 ≤ bit) (hfuel : endBit - bit < fuel) (hpos : 0 < fuel) :
    scan bits n endBit fuel bit = .full ∨ ∃ start, scan bits n endBit fuel bit = .found start ∧
      (start : Int) < endBit ∧ ∀ i, start ≤ i → (i : Int) < start + n → bits i = false := by
  induction fuel generalizing bit with
  | zero => cases hpos
  | succ fuel ih =>
    rw [scan]
    by_cases hlt : bit + 1 < endBit
    · rw [if_pos hlt]
      obtain ⟨hle, _, hclear, _⟩ :=
        @Bitmap.findNextZeroBit_spec bits endBit.toNat (bit + 1).toNat (by omega)
      dsimp only
      generalize bits.findNextZeroBit endBit.toNat (bit + 1).toNat = start at hle hclear ⊢
      split_ifs with hend hmany hshort
      · exact .inl rfl
      · obtain ⟨hge, _, _⟩ :=
          @Bitmap.findNextBit_spec bits (start + n).toNat (start + 1) (by omega)
        exact ih (by omega) (by omega) (by omega)
      · obtain ⟨_, hsize, hrest⟩ :=
          @Bitmap.findNextBit_spec bits (start + n).toNat (start + 1) (by omega)
        refine .inr ⟨start, rfl, by omega, ?_⟩
        intro i hi hlt'
        by_cases heq : i = start
        · rw [heq]
          exact hclear (by omega)
        · exact hrest i (by omega) (by omega)
      · refine .inr ⟨start, rfl, by omega, ?_⟩
        intro i hi hlt'
        rw [show i = start by omega]
        exact hclear (by omega)
    · exact .inl (if_neg hlt)

/-! ## Granules -/

/-- The number of granules that a size needs. -/
def count (order size : Nat) : Nat :=
  (size + 2 ^ order - 1) / 2 ^ order

/-- The number of granules that a chunk has. -/
def GenPoolChunk.total (order : Nat) (c : GenPoolChunk) : Nat :=
  (c.endAddr - c.startAddr) / 2 ^ order

/-- The condition on a size: its number of granules does not wrap. -/
structure SizeOk (order size : Nat) : Prop where
  pos : 0 < size
  fits : size + 2 ^ order - 1 < 2 ^ 32
  count_lt : count order size < 2 ^ 31

/-- A chunk that is neither at the start nor at the end of the address space, with a number of
granules that is an `int`. -/
structure ChunkOk (order : Nat) (c : GenPoolChunk) : Prop where
  start_pos : 0 < c.startAddr
  start_le : c.startAddr ≤ c.endAddr
  end_lt : c.endAddr < 2 ^ 32
  total_lt : c.total order < 2 ^ 31

theorem size_le_count_mul (order size : Nat) : size ≤ count order size * 2 ^ order := by
  have hpos : 0 < 2 ^ order := Nat.two_pow_pos order
  have hmod := Nat.div_add_mod (size + 2 ^ order - 1) (2 ^ order)
  have hlt := Nat.mod_lt (size + 2 ^ order - 1) hpos
  unfold count
  rw [Nat.mul_comm]
  omega

theorem SizeOk.count_pos {order size : Nat} (h : SizeOk order size) : 0 < count order size := by
  have hle := size_le_count_mul order size
  have hpos := h.pos
  refine Nat.pos_of_ne_zero ?_
  intro hzero
  rw [hzero, Nat.zero_mul] at hle
  omega

theorem SizeOk.nbits_eq {order size : Nat} (h : SizeOk order size) :
    nbits order size = count order size := by
  have hcount := h.count_lt
  unfold nbits
  rw [Nat.mod_eq_of_lt h.fits]
  unfold toInt
  rw [show (size + 2 ^ order - 1) / 2 ^ order = count order size from rfl, Int.bmod_eq_of_le]
  · omega
  · omega

theorem ChunkOk.granules_eq {order : Nat} {c : GenPoolChunk} (h : ChunkOk order c) :
    c.granules order = c.total order := by
  have htotal := h.total_lt
  have hle := h.start_le
  have hlt := h.end_lt
  unfold GenPoolChunk.granules toInt
  rw [show (c.endAddr + 2 ^ 32 - c.startAddr) % 2 ^ 32 = c.endAddr - c.startAddr by omega,
    show (c.endAddr - c.startAddr) / 2 ^ order = c.total order from rfl, Int.bmod_eq_of_le]
  · omega
  · omega

theorem ChunkOk.total_mul_le {order : Nat} {c : GenPoolChunk} (h : ChunkOk order c) {k : Nat}
    (hk : k ≤ c.total order) : c.startAddr + k * 2 ^ order ≤ c.endAddr := by
  have hmul : k * 2 ^ order ≤ c.total order * 2 ^ order := Nat.mul_le_mul_right _ hk
  have hdiv := Nat.div_mul_le_self (c.endAddr - c.startAddr) (2 ^ order)
  have hle := h.start_le
  unfold GenPoolChunk.total at hmul
  omega

/-- Where a search ends. -/
theorem ChunkOk.endBit_eq {order g : Nat} {c : GenPoolChunk} (h : ChunkOk order c)
    (hg : g < 2 ^ 31) : c.endBit order g = (c.total order : Int) - (g + 1) := by
  have htotal := h.total_lt
  unfold GenPoolChunk.endBit
  rw [h.granules_eq]
  unfold toInt
  rw [Int.sub_bmod_bmod, Int.bmod_eq_of_le]
  · omega
  · omega

/-! ## Allocation -/

/-- The chunk with bits set or cleared. -/
def GenPoolChunk.write (c : GenPoolChunk) (value : Bool) (k n : Nat) : GenPoolChunk :=
  { c with bits := c.bits.writeBits value k n }

/-- The granules from `k` on are free in a chunk. -/
structure Room (order : Nat) (c : GenPoolChunk) (k g : Nat) : Prop where
  inside : k + g ≤ c.total order
  clear : ∀ i, k ≤ i → i < k + g → c.bits i = false

theorem allocChunk_spec {order g : Nat} {c : GenPoolChunk} (h : ChunkOk order c) (hpos : 0 < g)
    (hg : g < 2 ^ 31) :
    allocChunk order g c = some none ∨ ∃ k, Room order c k g ∧
      allocChunk order g c = some (some (c.startAddr + k * 2 ^ order, c.write true k g)) := by
  have hlast := h.endBit_eq hg
  rw [allocChunk]
  generalize c.endBit order g = last at hlast ⊢
  have hscan := @scan_spec c.bits g last (by omega) (last.toNat + 2) (-1) (Int.le_refl _)
    (by omega) (Nat.succ_pos _)
  rcases hscan with hfull | ⟨start, hfound, hlt, hclear⟩
  · rw [hfull]
    exact .inl rfl
  · have hroom : Room order c start g :=
      ⟨by omega, fun i hi hlt => hclear i hi (by omega)⟩
    have haddr := h.total_mul_le (show start ≤ c.total order by omega)
    have hend := h.end_lt
    refine .inr ⟨start, hroom, ?_⟩
    rw [hfound, takeBits, if_neg (by omega), Nat.mod_eq_of_lt (by omega)]
    rfl

/-- What `gen_pool_alloc` does to the list of chunks. -/
theorem allocChunks_spec {order g : Nat} {chunks : List GenPoolChunk}
    (h : ∀ c ∈ chunks, ChunkOk order c) (hpos : 0 < g) (hg : g < 2 ^ 31) :
    allocChunks order g chunks = some (0, chunks) ∨
      ∃ left c right k, chunks = left ++ c :: right ∧ Room order c k g ∧
        allocChunks order g chunks =
          some (c.startAddr + k * 2 ^ order, left ++ c.write true k g :: right) := by
  induction chunks with
  | nil => exact .inl rfl
  | cons c chunks ih =>
    rw [List.forall_mem_cons] at h
    rw [allocChunks]
    rcases allocChunk_spec h.1 hpos hg with hnone | ⟨k, hroom, hsome⟩
    · rw [hnone]
      rcases ih h.2 with hrest | ⟨left, d, right, k, rfl, hroom, hrest⟩
      · refine .inl ?_
        rw [hrest]
        rfl
      · refine .inr ⟨c :: left, d, right, k, rfl, hroom, ?_⟩
        rw [hrest]
        rfl
    · refine .inr ⟨[], c, chunks, k, rfl, hroom, ?_⟩
      rw [hsome]
      rfl

/-- What `gen_pool_free` does to the list of chunks. -/
theorem freeChunks_spec {order g addr size : Nat} {left right : List GenPoolChunk}
    {c : GenPoolChunk} (hleft : ∀ d ∈ left, ¬ (d.startAddr ≤ addr ∧ addr < d.endAddr))
    (hstart : c.startAddr ≤ addr) (hlt : addr < c.endAddr) (hend : addr + size ≤ c.endAddr)
    (hc : c.endAddr < 2 ^ 32) :
    freeChunks order addr size g (left ++ c :: right) =
      some (left ++ c.write false ((addr - c.startAddr) / 2 ^ order) g :: right) := by
  induction left with
  | nil =>
    rw [List.nil_append, freeChunks, if_pos ⟨hstart, hlt⟩, Nat.mod_eq_of_lt (by omega),
      if_neg (by omega)]
    rfl
  | cons d left ih =>
    rw [List.forall_mem_cons] at hleft
    rw [List.cons_append, freeChunks, if_neg hleft.1, ih hleft.2]
    rfl

end AndroidKernel.GenPool
