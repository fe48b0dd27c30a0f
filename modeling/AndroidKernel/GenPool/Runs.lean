import AndroidKernel.GenPool.Model
import AndroidKernel.Library.Runs

/-!
# Sequences of calls

Read `gen_pool_safe` first: as long as no size is so large that its number of granules wraps and
no chunk lies at the end of the address space, blocks are within chunks and disjoint, and the
bitmaps say what is in use.
-/

namespace AndroidKernel.GenPool

open Library

/-! ## Pools -/

/-- Two chunks do not overlap. -/
def Apart (c d : GenPoolChunk) : Prop :=
  c.endAddr ≤ d.startAddr ∨ d.endAddr ≤ c.startAddr

/-- The block is in the chunk, and the granule `i` of the chunk is one of the block's. -/
def Block.Covers (order : Nat) (b : Block) (c : GenPoolChunk) (i : Nat) : Prop :=
  c.startAddr ≤ b.addr ∧ b.addr < c.endAddr ∧ (b.addr - c.startAddr) / 2 ^ order ≤ i ∧
    i < (b.addr - c.startAddr) / 2 ^ order + count order b.size

/-- The block is the granules of the chunk from `k` on. -/
structure At (order : Nat) (b : Block) (c : GenPoolChunk) (k : Nat) : Prop where
  addr : b.addr = c.startAddr + k * 2 ^ order
  inside : k + count order b.size ≤ c.total order

/-- Two blocks do not share a granule. -/
def Block.Apart (order : Nat) (a b : Block) : Prop :=
  a.addr + count order a.size * 2 ^ order ≤ b.addr ∨
    b.addr + count order b.size * 2 ^ order ≤ a.addr

/-- A sound pool, with its blocks. -/
structure PoolOk (s : System) : Prop where
  chunk : ∀ c ∈ s.pool.chunks, ChunkOk s.pool.minAllocOrder c
  chunks_apart : s.pool.chunks.Pairwise Apart
  size : ∀ b ∈ s.live, SizeOk s.pool.minAllocOrder b.size
  home : ∀ b ∈ s.live, ∃ c ∈ s.pool.chunks, ∃ k, At s.pool.minAllocOrder b c k
  bits : ∀ c ∈ s.pool.chunks, ∀ i < c.total s.pool.minAllocOrder,
    c.bits i = true ↔ ∃ b ∈ s.live, b.Covers s.pool.minAllocOrder c i
  live_apart : s.live.Pairwise (Block.Apart s.pool.minAllocOrder)

theorem apart_symm {c d : GenPoolChunk} (h : Apart c d) : Apart d c :=
  h.symm

/-- A chunk is apart from those before and after it. -/
theorem apart_of_split {left right : List GenPoolChunk} {c : GenPoolChunk}
    (h : (left ++ c :: right).Pairwise Apart) : ∀ d ∈ left ++ right, Apart c d := by
  intro d hd
  obtain ⟨_, hright, hboth⟩ := List.pairwise_append.mp h
  rcases List.mem_append.mp hd with hd | hd
  · exact apart_symm (hboth d hd c List.mem_cons_self)
  · exact (List.pairwise_cons.mp hright).1 d hd

variable {order : Nat}

theorem At.bit_eq {b : Block} {c : GenPoolChunk} {k : Nat} (h : At order b c k) :
    (b.addr - c.startAddr) / 2 ^ order = k := by
  rw [h.addr, Nat.add_sub_cancel_left, Nat.mul_div_cancel _ (Nat.two_pow_pos order)]

theorem At.end_le {b : Block} {c : GenPoolChunk} {k : Nat} (h : At order b c k)
    (hc : ChunkOk order c) : b.addr + count order b.size * 2 ^ order ≤ c.endAddr := by
  have := hc.total_mul_le h.inside
  rw [Nat.add_mul] at this
  rw [h.addr]
  omega

theorem At.start_le {b : Block} {c : GenPoolChunk} {k : Nat} (h : At order b c k) :
    c.startAddr ≤ b.addr := by
  rw [h.addr]
  exact Nat.le_add_right _ _

theorem At.lt_end {b : Block} {c : GenPoolChunk} {k : Nat} (h : At order b c k)
    (hc : ChunkOk order c) (hb : SizeOk order b.size) : b.addr < c.endAddr := by
  have := h.end_le hc
  have := size_le_count_mul order b.size
  have := hb.pos
  omega

/-- Which granules a block in a chunk has. -/
theorem At.covers_iff {b : Block} {c : GenPoolChunk} {k : Nat} (h : At order b c k)
    (hc : ChunkOk order c) (hb : SizeOk order b.size) (i : Nat) :
    b.Covers order c i ↔ k ≤ i ∧ i < k + count order b.size := by
  unfold Block.Covers
  rw [h.bit_eq]
  have := h.start_le
  have := h.lt_end hc hb
  omega

/-- A block in one chunk has no granules of another one. -/
theorem At.not_covers {b : Block} {c d : GenPoolChunk} {k : Nat} (h : At order b c k)
    (hc : ChunkOk order c) (hb : SizeOk order b.size) (hcd : Apart c d) (i : Nat) :
    ¬ b.Covers order d i := by
  rintro ⟨hstart, hend, _⟩
  have := h.start_le
  have := h.lt_end hc hb
  unfold Apart at hcd
  omega

/-- Blocks with different granules of a chunk. -/
theorem At.apart {a b : Block} {c : GenPoolChunk} {k l : Nat} (ha : At order a c k)
    (hb : At order b c l) (h : k + count order a.size ≤ l ∨ l + count order b.size ≤ k) :
    a.Apart order b := by
  unfold Block.Apart
  rw [ha.addr, hb.addr]
  rcases h with h | h
  · have := Nat.mul_le_mul_right (2 ^ order) h
    rw [Nat.add_mul] at this
    omega
  · have := Nat.mul_le_mul_right (2 ^ order) h
    rw [Nat.add_mul] at this
    omega

/-- Blocks in different chunks. -/
theorem At.apart_of_chunks {a b : Block} {c d : GenPoolChunk} {k l : Nat} (ha : At order a c k)
    (hb : At order b d l) (hc : ChunkOk order c) (hd : ChunkOk order d) (h : Apart c d) :
    a.Apart order b := by
  have := ha.start_le
  have := ha.end_le hc
  have := hb.start_le
  have := hb.end_le hd
  unfold Apart at h
  unfold Block.Apart
  omega

/-- A block that shares a granule with another one starts before that one's end. -/
theorem addr_lt_of_covers {a b : Block} {c : GenPoolChunk} {i : Nat} (ha : a.Covers order c i)
    (hb : b.Covers order c i) : b.addr < a.addr + count order a.size * 2 ^ order := by
  obtain ⟨hastart, _, _, ha⟩ := ha
  obtain ⟨hbstart, _, hb, _⟩ := hb
  have hle : (b.addr - c.startAddr) / 2 ^ order + 1 ≤
      (a.addr - c.startAddr) / 2 ^ order + count order a.size := by omega
  have hmul := Nat.mul_le_mul_left (2 ^ order) hle
  have hlt := Nat.lt_mul_div_succ (b.addr - c.startAddr) (Nat.two_pow_pos order)
  have hdiv := Nat.mul_div_le (a.addr - c.startAddr) (2 ^ order)
  rw [Nat.mul_add (2 ^ order) _ (count order a.size),
    Nat.mul_comm (2 ^ order) (count order a.size)] at hmul
  omega

/-- Blocks that share a granule are not apart. -/
theorem not_apart_of_covers {a b : Block} {c : GenPoolChunk} {i : Nat} (ha : a.Covers order c i)
    (hb : b.Covers order c i) : ¬ a.Apart order b := by
  have hab := addr_lt_of_covers ha hb
  have hba := addr_lt_of_covers hb ha
  unfold Block.Apart
  omega

/-! ## Calls -/

/-- A pool in which bits of one chunk were written, with new blocks. -/
theorem PoolOk.write {s : System} (h : PoolOk s) {left right : List GenPoolChunk}
    {c : GenPoolChunk} (hsplit : s.pool.chunks = left ++ c :: right) {value : Bool} {k g : Nat}
    {live : List Block} (hsize : ∀ b ∈ live, SizeOk s.pool.minAllocOrder b.size)
    (hhome : ∀ b ∈ live, ∃ d ∈ s.pool.chunks, ∃ l, At s.pool.minAllocOrder b d l)
    (hbits : ∀ i < c.total s.pool.minAllocOrder, c.bits.writeBits value k g i = true ↔
      ∃ b ∈ live, b.Covers s.pool.minAllocOrder c i)
    (hother : ∀ d ∈ left ++ right, ∀ i < d.total s.pool.minAllocOrder, d.bits i = true ↔
      ∃ b ∈ live, b.Covers s.pool.minAllocOrder d i)
    (hapart : live.Pairwise (Block.Apart s.pool.minAllocOrder)) :
    PoolOk ⟨{ s.pool with chunks := left ++ c.write value k g :: right }, live⟩ := by
  have hchunk := h.chunk
  have hchunks := h.chunks_apart
  rw [hsplit] at hchunk hchunks hhome
  have hmem : ∀ d ∈ left ++ right, d ∈ left ++ c :: right := by
    intro d hd
    rcases List.mem_append.mp hd with hd | hd
    · exact List.mem_append_left _ hd
    · exact List.mem_append_right _ (List.mem_cons_of_mem _ hd)
  -- an entry of the new list is the written chunk or one of the others
  have hcases : ∀ d ∈ left ++ c.write value k g :: right,
      d = c.write value k g ∨ d ∈ left ++ right := by
    intro d hd
    rcases List.mem_append.mp hd with hd | hd
    · exact .inr (List.mem_append_left _ hd)
    · rcases List.mem_cons.mp hd with hd | hd
      · exact .inl hd
      · exact .inr (List.mem_append_right _ hd)
  refine ⟨?_, ?_, hsize, ?_, ?_, hapart⟩
  · intro d hd
    rcases hcases d hd with rfl | hd
    · obtain ⟨hstart, hle, hend, htotal⟩ := hchunk c (List.mem_append_right _ List.mem_cons_self)
      exact ⟨hstart, hle, hend, htotal⟩
    · exact hchunk d (hmem d hd)
  · obtain ⟨hleft, hright, hboth⟩ := List.pairwise_append.mp hchunks
    obtain ⟨hc, hright⟩ := List.pairwise_cons.mp hright
    refine List.pairwise_append.mpr ⟨hleft, List.pairwise_cons.mpr ⟨hc, hright⟩, ?_⟩
    intro a ha b hb
    rcases List.mem_cons.mp hb with rfl | hb
    · exact hboth a ha c List.mem_cons_self
    · exact hboth a ha b (List.mem_cons_of_mem _ hb)
  · intro b hb
    obtain ⟨d, hd, l, hat⟩ := hhome b hb
    rcases List.mem_append.mp hd with hd | hd
    · exact ⟨d, List.mem_append_left _ hd, l, hat⟩
    · rcases List.mem_cons.mp hd with rfl | hd
      · exact ⟨_, List.mem_append_right _ List.mem_cons_self, l, ⟨hat.addr, hat.inside⟩⟩
      · exact ⟨d, List.mem_append_right _ (List.mem_cons_of_mem _ hd), l, hat⟩
  · intro d hd
    rcases hcases d hd with rfl | hd
    · exact hbits
    · exact hother d hd

/-- A block in free granules of a chunk is apart from all others. -/
theorem PoolOk.apart_of_room {s : System} (h : PoolOk s) {c : GenPoolChunk}
    {left right : List GenPoolChunk} (hsplit : s.pool.chunks = left ++ c :: right) {b : Block}
    {k : Nat} (hb : At s.pool.minAllocOrder b c k)
    (hroom : Room s.pool.minAllocOrder c k (count s.pool.minAllocOrder b.size))
    (hsize : SizeOk s.pool.minAllocOrder b.size) :
    ∀ a ∈ s.live, b.Apart s.pool.minAllocOrder a := by
  intro a ha
  have hc : c ∈ s.pool.chunks := by
    rw [hsplit]
    exact List.mem_append_right _ List.mem_cons_self
  obtain ⟨d, hd, l, hat⟩ := h.home a ha
  by_cases hother : d ∈ left ++ right
  · have hchunks := h.chunks_apart
    rw [hsplit] at hchunks
    exact hb.apart_of_chunks hat (h.chunk c hc) (h.chunk d hd) (apart_of_split hchunks d hother)
  have heq : d = c := by
    rw [hsplit] at hd
    simp only [List.mem_append, List.mem_cons] at hd hother
    tauto
  subst heq
  refine hb.apart hat ?_
  by_contra hover
  -- a granule of both would be set and clear
  have hpos := hsize.count_pos
  have hapos := (h.size a ha).count_pos
  have hinside := hat.inside
  have hset := (h.bits d hd (max k l) (by omega)).mpr
    ⟨a, ha, (hat.covers_iff (h.chunk d hd) (h.size a ha) _).mpr (by omega)⟩
  rw [hroom.clear _ (by omega) (by omega)] at hset
  cases hset

theorem PoolOk.alloc {s : System} (h : PoolOk s) {size : Nat}
    (hsize : SizeOk s.pool.minAllocOrder size) :
    ∃ s', step s (.alloc size) = some s' ∧ PoolOk s' := by
  have hpos := hsize.pos
  rw [step, genPoolAlloc, if_neg (by omega), hsize.nbits_eq]
  rcases allocChunks_spec h.chunk hsize.count_pos hsize.count_lt with
    hnone | ⟨left, c, right, k, hsplit, hroom, hsome⟩
  · refine ⟨s, ?_, h⟩
    rw [hnone]
    rfl
  have hc : c ∈ s.pool.chunks := by
    rw [hsplit]
    exact List.mem_append_right _ List.mem_cons_self
  have hstart := (h.chunk c hc).start_pos
  refine ⟨⟨{ s.pool with
      chunks := left ++ c.write true k (count s.pool.minAllocOrder size) :: right },
    ⟨c.startAddr + k * 2 ^ s.pool.minAllocOrder, size⟩ :: s.live⟩, ?_, ?_⟩
  · rw [hsome]
    show some (System.mk _ (if _ = 0 then _ else _)) = _
    rw [if_neg (by omega)]
  have hat : At s.pool.minAllocOrder ⟨c.startAddr + k * 2 ^ s.pool.minAllocOrder, size⟩ c k :=
    ⟨rfl, hroom.inside⟩
  have hchunks := h.chunks_apart
  rw [hsplit] at hchunks
  refine h.write hsplit ?_ ?_ ?_ ?_ ?_
  · rw [List.forall_mem_cons]
    exact ⟨hsize, h.size⟩
  · rw [List.forall_mem_cons]
    exact ⟨⟨c, hc, k, hat⟩, h.home⟩
  · intro i hi
    rw [Bitmap.writeBits_apply, List.exists_mem_cons_iff,
      hat.covers_iff (h.chunk c hc) hsize, ← h.bits c hc i hi]
    split_ifs with hin
    · exact ⟨fun _ => .inl hin, fun _ => rfl⟩
    · exact ⟨fun hbit => .inr hbit, fun hor => hor.resolve_left hin⟩
  · intro d hd i hi
    have hmem : d ∈ s.pool.chunks := by
      rw [hsplit]
      simp only [List.mem_append, List.mem_cons] at hd ⊢
      tauto
    rw [List.exists_mem_cons_iff, h.bits d hmem i hi]
    have hnot := hat.not_covers (h.chunk c hc) hsize (apart_of_split hchunks d hd) i
    exact ⟨fun hex => .inr hex, fun hor => hor.resolve_left hnot⟩
  · exact List.pairwise_cons.mpr ⟨h.apart_of_room hsplit hat hroom hsize, h.live_apart⟩

theorem PoolOk.free {s : System} (h : PoolOk s) {b : Block} (hb : b ∈ s.live) :
    ∃ s', step s (.free b) = some s' ∧ PoolOk s' := by
  obtain ⟨c, hc, k, hat⟩ := h.home b hb
  obtain ⟨left, right, hsplit⟩ := List.append_of_mem hc
  have hsize := h.size b hb
  have hchunks := h.chunks_apart
  rw [hsplit] at hchunks
  have hlt := hat.lt_end (h.chunk c hc) hsize
  have hfree := @freeChunks_spec s.pool.minAllocOrder (count s.pool.minAllocOrder b.size) b.addr
    b.size left right c
    (by
      rintro d hd ⟨hstart, hend⟩
      have hcd := apart_of_split hchunks d (List.mem_append_left _ hd)
      have := hat.start_le
      unfold Apart at hcd
      omega)
    hat.start_le hlt
    (by
      have := hat.end_le (h.chunk c hc)
      have := size_le_count_mul s.pool.minAllocOrder b.size
      omega)
    (h.chunk c hc).end_lt
  rw [hat.bit_eq, ← hsplit] at hfree
  refine ⟨⟨{ s.pool with
      chunks := left ++ c.write false k (count s.pool.minAllocOrder b.size) :: right },
    s.live.erase b⟩, ?_, ?_⟩
  · rw [step, genPoolFree, hsize.nbits_eq, hfree]
    rfl
  have hsub : ∀ a ∈ s.live.erase b, a ∈ s.live := fun a => List.mem_of_mem_erase
  -- the other blocks are apart from the freed one
  have hrest : ∀ a ∈ s.live.erase b, b.Apart s.pool.minAllocOrder a := by
    have hperm := List.perm_cons_erase hb
    have hpair := hperm.pairwise h.live_apart fun hab => hab.symm
    exact (List.pairwise_cons.mp hpair).1
  have hothers : ∀ d i, ¬ b.Covers s.pool.minAllocOrder d i →
      ((∃ a ∈ s.live.erase b, a.Covers s.pool.minAllocOrder d i) ↔
        ∃ a ∈ s.live, a.Covers s.pool.minAllocOrder d i) := by
    intro d i hnot
    constructor
    · rintro ⟨a, ha, hcov⟩
      exact ⟨a, hsub a ha, hcov⟩
    · rintro ⟨a, ha, hcov⟩
      refine ⟨a, (List.mem_erase_of_ne ?_).mpr ha, hcov⟩
      rintro rfl
      exact hnot hcov
  refine h.write hsplit (fun a ha => h.size a (hsub a ha)) (fun a ha => h.home a (hsub a ha))
    ?_ ?_ (h.live_apart.sublist List.erase_sublist)
  · intro i hi
    rw [Bitmap.writeBits_apply]
    have hcov := hat.covers_iff (h.chunk c hc) hsize i
    split_ifs with hin
    · refine ⟨nofun, ?_⟩
      rintro ⟨a, ha, hacov⟩
      exact absurd (hrest a ha) (not_apart_of_covers (hcov.mpr hin) hacov)
    · rw [hothers c i (fun hcov' => hin (hcov.mp hcov')), h.bits c hc i hi]
  · intro d hd i hi
    have hmem : d ∈ s.pool.chunks := by
      rw [hsplit]
      simp only [List.mem_append, List.mem_cons] at hd ⊢
      tauto
    rw [hothers d i (hat.not_covers (h.chunk c hc) hsize (apart_of_split hchunks d hd) i),
      h.bits d hmem i hi]

/-! ## Runs -/

/-- A call and the state after it. -/
def Step (s : System) (op : Op) (s' : System) : Prop :=
  step s op = some s'

/-- The number of bytes of a chunk. -/
def GenPoolChunk.length (c : GenPoolChunk) : Nat :=
  (c.endAddr + 2 ^ 32 - c.startAddr) % 2 ^ 32

/-- The calls: chunks that do not overlap, any size from 1 on, and blocks that are in use. -/
def Admissible (s : System) : Op → Prop
  | .add addr size _ => addr + size ≤ 2 ^ 32 ∧ ∀ c ∈ s.pool.chunks,
      c.startAddr + c.length ≤ addr ∨ addr + size ≤ c.startAddr
  | .alloc size => 0 < size ∧ size < 2 ^ 32
  | .free block => block ∈ s.live

/-- The condition on a call: a chunk is neither at the start nor at the end of the address space,
and numbers of granules do not wrap. -/
def Guard (s : System) : Op → Prop
  | .add addr size _ => 0 < addr ∧ addr + size < 2 ^ 32 ∧ size / 2 ^ s.pool.minAllocOrder < 2 ^ 31
  | .alloc size => SizeOk s.pool.minAllocOrder size
  | .free _ => True

theorem ChunkOk.length_eq {c : GenPoolChunk} (h : ChunkOk order c) :
    c.startAddr + c.length = c.endAddr := by
  have hle := h.start_le
  have hlt := h.end_lt
  unfold GenPoolChunk.length
  omega

theorem PoolOk.add {s : System} (h : PoolOk s) {addr size : Nat} {memory : Bool}
    (hop : Admissible s (.add addr size memory)) (hguard : Guard s (.add addr size memory)) :
    ∃ s', step s (.add addr size memory) = some s' ∧ PoolOk s' := by
  obtain ⟨hpos, hend, htotal⟩ := hguard
  obtain ⟨_, hapart⟩ := hop
  refine ⟨_, rfl, ?_⟩
  unfold genPoolAdd
  rw [Nat.mod_eq_of_lt hend]
  cases memory with
  | false => exact h
  | true =>
    have hnew : ∀ c ∈ s.pool.chunks, Apart ⟨addr, addr + size, fun _ => false⟩ c := by
      intro c hc
      have hc' := hapart c hc
      rw [(h.chunk c hc).length_eq] at hc'
      exact hc'.symm
    have hok : ChunkOk s.pool.minAllocOrder ⟨addr, addr + size, fun _ => false⟩ := by
      refine ⟨hpos, Nat.le_add_right _ _, hend, ?_⟩
      unfold GenPoolChunk.total
      dsimp only
      rw [Nat.add_sub_cancel_left]
      exact htotal
    refine ⟨?_, List.pairwise_cons.mpr ⟨hnew, h.chunks_apart⟩, h.size, ?_, ?_, h.live_apart⟩
    · exact List.forall_mem_cons.mpr ⟨hok, h.chunk⟩
    · intro b hb
      obtain ⟨c, hc, k, hat⟩ := h.home b hb
      exact ⟨c, List.mem_cons_of_mem _ hc, k, hat⟩
    · refine List.forall_mem_cons.mpr ⟨?_, h.bits⟩
      intro i _
      refine ⟨nofun, ?_⟩
      rintro ⟨b, hb, hcov⟩
      obtain ⟨c, hc, k, hat⟩ := h.home b hb
      exact absurd hcov (hat.not_covers (h.chunk c hc) (h.size b hb) (apart_symm (hnew c hc)) i)

theorem PoolOk.step {s : System} (h : PoolOk s) {op : Op} (hop : Admissible s op)
    (hguard : Guard s op) : ∃ s', GenPool.step s op = some s' ∧ PoolOk s' := by
  cases op with
  | add addr size memory => exact h.add hop hguard
  | alloc size => exact h.alloc hguard
  | free block => exact h.free hop

theorem poolOk_genPoolCreate (minAllocOrder : Nat) (hlt : minAllocOrder < 32) :
    PoolOk (genPoolCreate minAllocOrder hlt) :=
  ⟨nofun, .nil, nofun, nofun, nofun, .nil⟩

/-- In every run whose calls meet the condition, each block lies in a chunk, the blocks do not
overlap, the bits that are set are those of the blocks, and every further call that meets the
condition returns. -/
theorem gen_pool_safe {minAllocOrder : Nat} {hlt : minAllocOrder < 32} {s : System}
    (hrun : Reaches Step (fun s op => Admissible s op ∧ Guard s op)
      (genPoolCreate minAllocOrder hlt) s) :
    (∀ b ∈ s.live, ∃ c ∈ s.pool.chunks, c.startAddr ≤ b.addr ∧ b.addr + b.size ≤ c.endAddr) ∧
      s.live.Pairwise (fun a b => a.addr + a.size ≤ b.addr ∨ b.addr + b.size ≤ a.addr) ∧
      (∀ c ∈ s.pool.chunks, ∀ i < c.total s.pool.minAllocOrder,
        c.bits i = true ↔ ∃ b ∈ s.live, b.Covers s.pool.minAllocOrder c i) ∧
      ∀ op, Admissible s op → Guard s op → ∃ s', step s op = some s' := by
  have hok : PoolOk s := by
    refine hrun.invariant PoolOk ?_ (poolOk_genPoolCreate minAllocOrder hlt)
    rintro s op t hs ⟨hop, hguard⟩ hstep
    obtain ⟨t', hstep', ht⟩ := hs.step hop hguard
    rw [Step, hstep'] at hstep
    cases hstep
    exact ht
  refine ⟨?_, ?_, hok.bits, ?_⟩
  · intro b hb
    obtain ⟨c, hc, k, hat⟩ := hok.home b hb
    have hend := hat.end_le (hok.chunk c hc)
    have hsize := size_le_count_mul s.pool.minAllocOrder b.size
    exact ⟨c, hc, hat.start_le, by omega⟩
  · refine hok.live_apart.imp ?_
    intro a b hab
    have ha := size_le_count_mul s.pool.minAllocOrder a.size
    have hb := size_le_count_mul s.pool.minAllocOrder b.size
    unfold Block.Apart at hab
    omega
  · intro op hop hguard
    obtain ⟨s', hstep, _⟩ := hok.step hop hguard
    exact ⟨s', hstep⟩

/-- A pool of granules of two bytes with the chunk from 2 to 10. -/
def smallPool : System :=
  ⟨⟨[⟨2, 10, fun _ => false⟩], 1, by decide⟩, []⟩

theorem step_smallPool : Step (genPoolCreate 1 (by decide)) (.add 2 8 true) smallPool :=
  rfl

theorem admissible_smallPool : Admissible (genPoolCreate 1 (by decide)) (.add 2 8 true) :=
  ⟨by decide, nofun⟩

theorem gen_pool_safe_alloc : ∃ s', step smallPool (.alloc 3) = some s' := by
  have hrun : Reaches Step (fun s op => Admissible s op ∧ Guard s op)
      (genPoolCreate 1 (by decide)) smallPool :=
    (Reaches.refl _).tail step_smallPool ⟨admissible_smallPool, by decide, by decide, by decide⟩
  exact (gen_pool_safe hrun).2.2.2 (.alloc 3) ⟨by decide, by decide⟩
    ⟨by decide, by decide, by decide⟩

/-- A size whose number of granules wraps to 0 gets a block that no bit stands for. -/
theorem gen_pool_alloc_wraps :
    ∃ s, Reaches Step Admissible (genPoolCreate 1 (by decide)) s ∧ ⟨2, 2 ^ 32 - 1⟩ ∈ s.live ∧
      ¬ ∃ c ∈ s.pool.chunks, c.startAddr ≤ 2 ∧ 2 + (2 ^ 32 - 1) ≤ c.endAddr := by
  have hnbits : nbits smallPool.pool.minAllocOrder (2 ^ 32 - 1) = 0 := by decide
  have hend : GenPoolChunk.endBit 1 0 ⟨2, 10, fun _ => false⟩ = 3 := by decide
  have hchunk : allocChunk 1 0 ⟨2, 10, fun _ => false⟩ =
      some (some (2, ⟨2, 10, fun _ => false⟩)) := by
    rw [allocChunk, hend]
    rfl
  have hchunks : allocChunks smallPool.pool.minAllocOrder 0 smallPool.pool.chunks =
      some (2, smallPool.pool.chunks) := by
    show allocChunks 1 0 [⟨2, 10, fun _ => false⟩] = _
    rw [allocChunks, hchunk]
    rfl
  have halloc : Step smallPool (.alloc (2 ^ 32 - 1)) ⟨smallPool.pool, [⟨2, 2 ^ 32 - 1⟩]⟩ := by
    rw [Step, step, genPoolAlloc, if_neg (by decide), hnbits, hchunks]
    rfl
  refine ⟨_, ((Reaches.refl _).tail step_smallPool admissible_smallPool).tail halloc
    ⟨by decide, by decide⟩, List.mem_cons_self, ?_⟩
  rintro ⟨c, hc, _, hend⟩
  rw [List.mem_singleton.mp hc] at hend
  exact absurd hend (by decide)

/-!
## Failed allocations

Which runs of free granules `gen_pool_alloc` can find. Read `gen_pool_alloc_complete_iff` first: the
last start position that a search looks at is two short of the last one that has room, so a
call may fail with room left at the end of every chunk.
-/

variable {order g k : Nat} {c : GenPoolChunk} {chunks : List GenPoolChunk}

/-! ## The search -/

/-- A search that finds nothing has seen a set bit in every run that starts before its end. -/
theorem scan_full {bits : Bitmap} {n endBit : Int} (hn : 1 ≤ n) {fuel : Nat} {bit : Int}
    (hbit : -1 ≤ bit) (hfull : scan bits n endBit fuel bit = .full) {s : Nat} (hs : bit + 1 ≤ s)
    (hend : s < endBit) : ∃ i, s ≤ i ∧ (i : Int) < s + n ∧ bits i = true := by
  induction fuel generalizing bit with
  | zero => cases hfull
  | succ fuel ih =>
    rw [scan, if_pos (by omega)] at hfull
    obtain ⟨hle, _, _, hset⟩ :=
      @Bitmap.findNextZeroBit_spec bits endBit.toNat (bit + 1).toNat (by omega)
    dsimp only at hfull
    generalize bits.findNextZeroBit endBit.toNat (bit + 1).toNat = start at hle hset hfull
    by_cases hbefore : s < start
    · exact ⟨s, Nat.le_refl s, by omega, hset s (by omega) hbefore⟩
    rw [if_neg (by omega)] at hfull
    split_ifs at hfull with hmany hshort
    have hsize : start + 1 ≤ (start + n).toNat := by omega
    have hfound := Bitmap.findNextBit_set (m := bits) hsize
    obtain ⟨hge, _, _⟩ := @Bitmap.findNextBit_spec bits (start + n).toNat (start + 1) hsize
    generalize bits.findNextBit (start + n).toNat (start + 1) = next at hfound hge hshort hfull
    by_cases hnext : s ≤ next
    · -- the set bit that the search jumps past lies in the run
      exact ⟨next, hnext, by omega, hfound (by omega)⟩
    · exact ih (by omega) hfull (by omega)

/-! ## Chunks -/

/-- The number of granules of a chunk; the chunk may end at the end of the address space. -/
def GenPoolChunk.room (order : Nat) (c : GenPoolChunk) : Nat :=
  (c.endAddr + 2 ^ 32 - c.startAddr) % 2 ^ 32 / 2 ^ order

/-- A chunk of words that does not start at address 0 or run past the last address.
`gen_pool_add` has no memory for the bitmap of a chunk with more granules than an `int` holds. -/
structure ChunkFits (order : Nat) (c : GenPoolChunk) : Prop where
  start_pos : 0 < c.startAddr
  start_lt : c.startAddr < 2 ^ 32
  end_lt : c.endAddr < 2 ^ 32
  ordered : c.endAddr = 0 ∨ c.startAddr ≤ c.endAddr
  room_lt : c.room order < 2 ^ 31

/-- The `g` granules from `k` on are in the chunk and free. -/
structure FreeRun (order : Nat) (c : GenPoolChunk) (g k : Nat) : Prop where
  inside : k + g ≤ c.room order
  clear : ∀ i, k ≤ i → i < k + g → c.bits i = false

/-- The run ends two granules or more before the chunk does. -/
def Seen (order : Nat) (c : GenPoolChunk) (g k : Nat) : Prop :=
  k + g + 1 < c.room order

theorem ChunkFits.endBit_eq (h : ChunkFits order c) (hg : g < 2 ^ 31) :
    c.endBit order g = (c.room order : Int) - (g + 1) := by
  have hroom := h.room_lt
  have hgranules : c.granules order = c.room order := by
    unfold GenPoolChunk.granules toInt
    rw [show (c.endAddr + 2 ^ 32 - c.startAddr) % 2 ^ 32 / 2 ^ order = c.room order from rfl,
      Int.bmod_eq_of_le]
    · omega
    · omega
  unfold GenPoolChunk.endBit
  rw [hgranules]
  unfold toInt
  rw [Int.sub_bmod_bmod, Int.bmod_eq_of_le]
  · omega
  · omega

/-- Granules of a chunk have an address, which is not 0. -/
theorem ChunkFits.address (h : ChunkFits order c) (hk : k < c.room order) :
    (c.startAddr + k * 2 ^ order) % 2 ^ 32 ≠ 0 := by
  have hmul : k * 2 ^ order < c.room order * 2 ^ order :=
    Nat.mul_lt_mul_of_pos_right hk (Nat.two_pow_pos order)
  have hdiv := Nat.div_mul_le_self ((c.endAddr + 2 ^ 32 - c.startAddr) % 2 ^ 32) (2 ^ order)
  have hstart := h.start_pos
  have hlt := h.start_lt
  have hend := h.end_lt
  have hordered := h.ordered
  unfold GenPoolChunk.room at hmul
  rw [Nat.mod_eq_of_lt (by omega)]
  omega

/-- What a search in one chunk tells: either no run that it sees is free, or it takes one. -/
theorem ChunkFits.allocChunk (h : ChunkFits order c) (hpos : 0 < g) (hg : g < 2 ^ 31) :
    (allocChunk order g c = some none ∧ ∀ k, FreeRun order c g k → ¬ Seen order c g k) ∨
      ∃ k addr c', FreeRun order c g k ∧ Seen order c g k ∧ addr ≠ 0 ∧
        allocChunk order g c = some (some (addr, c')) := by
  have hlast := h.endBit_eq hg
  rw [GenPool.allocChunk]
  generalize c.endBit order g = last at hlast ⊢
  have hscan := @scan_spec c.bits g last (by omega) (last.toNat + 2) (-1) (Int.le_refl _)
    (by omega) (Nat.succ_pos _)
  rcases hscan with hfull | ⟨start, hfound, hlt, hclear⟩
  · refine .inl ⟨by rw [hfull]; rfl, ?_⟩
    intro k hrun hseen
    unfold Seen at hseen
    obtain ⟨i, hi, hlt, hset⟩ :=
      scan_full (by omega) (Int.le_refl _) hfull (s := k) (by omega) (by omega)
    rw [hrun.clear i hi (by omega)] at hset
    cases hset
  have hseen : Seen order c g start := by
    unfold Seen
    omega
  have hrun : FreeRun order c g start := by
    unfold Seen at hseen
    exact ⟨by omega, fun i hi hlt => hclear i hi (by omega)⟩
  have haddr : (c.startAddr + start * 2 ^ order) % 2 ^ 32 ≠ 0 := by
    unfold Seen at hseen
    exact h.address (by omega)
  refine .inr ⟨start, _, c.write true start g, hrun, hseen, haddr, ?_⟩
  rw [hfound, takeBits, if_neg (by omega)]
  rfl

/-- A call fails when no chunk has a run that its search sees. -/
theorem allocChunks_zero_iff (h : ∀ c ∈ chunks, ChunkFits order c) (hpos : 0 < g)
    (hg : g < 2 ^ 31) :
    (∃ chunks', allocChunks order g chunks = some (0, chunks')) ↔
      ∀ c ∈ chunks, ∀ k, FreeRun order c g k → ¬ Seen order c g k := by
  induction chunks with
  | nil => exact ⟨fun _ _ hmem => absurd hmem List.not_mem_nil, fun _ => ⟨[], rfl⟩⟩
  | cons c chunks ih =>
    rw [List.forall_mem_cons] at h
    rw [List.forall_mem_cons, ← ih h.2, allocChunks]
    rcases h.1.allocChunk hpos hg with ⟨hnone, hunseen⟩ | ⟨k, addr, c', hrun, hseen, haddr, hsome⟩
    · rw [hnone]
      constructor
      · rintro ⟨chunks', hcall⟩
        have hcall : (allocChunks order g chunks).bind (fun x => some (x.1, c :: x.2)) =
            some (0, chunks') := hcall
        obtain ⟨⟨addr, rest⟩, hrest, heq⟩ := Option.bind_eq_some_iff.mp hcall
        obtain ⟨rfl, rfl⟩ := Prod.mk.inj (Option.some.inj heq)
        exact ⟨hunseen, rest, hrest⟩
      · rintro ⟨_, rest, hrest⟩
        refine ⟨c :: rest, ?_⟩
        show (allocChunks order g chunks).bind (fun x => some (x.1, c :: x.2)) = _
        rw [hrest]
        rfl
    · rw [hsome]
      constructor
      · rintro ⟨chunks', hcall⟩
        have hcall : some (addr, c' :: chunks) = some (0, chunks') := hcall
        exact absurd (Prod.mk.inj (Option.some.inj hcall)).1 haddr
      · rintro ⟨hunseen, _⟩
        exact absurd hseen (hunseen k hrun)

/-! ## The pool -/

/-- The pool has `g` consecutive free granules in some chunk. -/
def HasRun (pool : GenPool) (g : Nat) : Prop :=
  ∃ c ∈ pool.chunks, ∃ k, FreeRun pool.minAllocOrder c g k

/-- The pool has `g` consecutive free granules that end two granules or more before the end of
their chunk. -/
def HasSeenRun (pool : GenPool) (g : Nat) : Prop :=
  ∃ c ∈ pool.chunks, ∃ k, FreeRun pool.minAllocOrder c g k ∧ Seen pool.minAllocOrder c g k

/-- `gen_pool_alloc` returns 0. -/
def Fails (pool : GenPool) (size : Nat) : Prop :=
  ∃ pool', genPoolAlloc pool size = some (0, pool')

theorem fails_iff {pool : GenPool} {size : Nat}
    (h : ∀ c ∈ pool.chunks, ChunkFits pool.minAllocOrder c)
    (hsize : SizeOk pool.minAllocOrder size) :
    Fails pool size ↔ ¬ HasSeenRun pool (count pool.minAllocOrder size) := by
  have hchunks := allocChunks_zero_iff h hsize.count_pos hsize.count_lt
  have hne : size ≠ 0 := Nat.ne_of_gt hsize.pos
  unfold Fails genPoolAlloc HasSeenRun
  rw [if_neg hne, hsize.nbits_eq]
  push Not
  rw [← hchunks]
  constructor
  · intro ⟨pool', hcall⟩
    obtain ⟨⟨addr, chunks⟩, hchunks, heq⟩ := Option.map_eq_some_iff.mp hcall
    obtain ⟨rfl, _⟩ := Prod.mk.inj heq
    exact ⟨chunks, hchunks⟩
  · intro ⟨chunks, hcall⟩
    exact ⟨{ pool with chunks }, by rw [hcall]; rfl⟩

/-- A failed call means that no chunk has the granules, exactly when a pool that has them in
some chunk also has them where they end two granules or more before the end of their chunk. -/
theorem gen_pool_alloc_complete_iff {pool : GenPool} {size : Nat}
    (h : ∀ c ∈ pool.chunks, ChunkFits pool.minAllocOrder c)
    (hsize : SizeOk pool.minAllocOrder size) :
    (Fails pool size → ¬ HasRun pool (count pool.minAllocOrder size)) ↔
      (HasRun pool (count pool.minAllocOrder size) →
        HasSeenRun pool (count pool.minAllocOrder size)) := by
  rw [fails_iff h hsize]
  exact not_imp_not

/-- A pool of pages with one free page in its only chunk. -/
def onePage : GenPool :=
  ⟨[⟨4096, 8192, fun _ => false⟩], 12, by decide⟩

theorem onePage_fits : ∀ c ∈ onePage.chunks, ChunkFits onePage.minAllocOrder c := by
  intro c hc
  obtain rfl := List.mem_singleton.mp hc
  exact ⟨by decide, by decide, by decide, .inr (by decide), by decide⟩

/-- The page cannot be allocated. -/
theorem gen_pool_alloc_misses_end :
    ¬ ∀ (pool : GenPool) (size : Nat), (∀ c ∈ pool.chunks, ChunkFits pool.minAllocOrder c) →
      SizeOk pool.minAllocOrder size → Fails pool size →
        ¬ HasRun pool (count pool.minAllocOrder size) := by
  intro h
  refine h onePage 4096 onePage_fits ⟨by decide, by decide, by decide⟩ ⟨onePage, rfl⟩ ?_
  exact ⟨_, List.mem_singleton_self _, 0, by decide, fun _ _ _ => rfl⟩

theorem gen_pool_alloc_complete_iff_onePage :
    (Fails onePage 1 → ¬ HasRun onePage (count onePage.minAllocOrder 1)) ↔
      (HasRun onePage (count onePage.minAllocOrder 1) →
        HasSeenRun onePage (count onePage.minAllocOrder 1)) :=
  gen_pool_alloc_complete_iff onePage_fits ⟨by decide, by decide, by decide⟩

end AndroidKernel.GenPool
