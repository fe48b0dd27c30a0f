import AndroidKernel.Library.Runs
import AndroidKernel.Pmem.Buddies

/-!
# Requests to the pmem allocator

What `pmem_setup`, `pmem_allocate` and `pmem_free` do to the blocks: the first layout, the
search over the blocks in order, and the effect of one request.
-/

namespace AndroidKernel.Pmem

open Library

variable {pmem after : PmemInfo} {blocks : List Nat} {index len k : Nat}

/-- Following `PMEM_NEXT_INDEX` meets the blocks of a tiling in order. -/
theorem blocksFrom_eq {fuel : Nat}
    (h : Tiles (fun block => 2 ^ pmem.order block) index pmem.numEntries blocks)
    (hfuel : pmem.numEntries ≤ index + fuel) : blocksFrom pmem fuel index = blocks := by
  induction fuel generalizing index blocks with
  | zero =>
    cases blocks with
    | nil => rfl
    | cons block blocks =>
      have hbounds := h.bounds (List.mem_cons_self)
      omega
  | succ fuel ih =>
    cases blocks with
    | nil =>
      have heq : index = pmem.numEntries := h
      simp [blocksFrom, heq]
    | cons block blocks =>
      have hbounds := h.bounds (List.mem_cons_self)
      obtain ⟨rfl, hpos, hrest⟩ := h
      rw [blocksFrom, if_pos (by omega), ih hrest (by omega)]

/-- The blocks the driver meets are those of the invariant. -/
theorem Buddies.blocks_eq (h : Buddies pmem blocks) : pmem.blocks = blocks :=
  blocksFrom_eq h.tiles (by omega)

/-- The loop of `pmem_setup` appends one block for each set bit, the largest first. -/
theorem setupLoop_spec {numEntries i : Nat} {bitmap : Nat → PmemBits} (hi : i ≤ 32)
    (hindex : index = numEntries / 2 ^ i * 2 ^ i)
    (htiles : Tiles (fun block => 2 ^ (bitmap block).order) 0 index blocks)
    (haligned : ∀ block ∈ blocks, 2 ^ (bitmap block).order ∣ block)
    (hfree : ∀ entry, (bitmap entry).allocated = false) :
    ∃ blocks', Tiles (fun block => 2 ^ (setupLoop numEntries i index bitmap block).order) 0
        numEntries blocks' ∧
      (∀ block ∈ blocks', 2 ^ (setupLoop numEntries i index bitmap block).order ∣ block) ∧
      ∀ entry, (setupLoop numEntries i index bitmap entry).allocated = false := by
  induction i generalizing index bitmap blocks with
  | zero =>
    obtain rfl : index = numEntries := by simpa using hindex
    exact ⟨blocks, htiles, haligned, hfree⟩
  | succ i ih =>
    have hbit := Nat.testBit_eq_decide_div_mod_eq (x := numEntries) (i := i)
    have hhalve : numEntries / 2 ^ (i + 1) = numEntries / 2 ^ i / 2 := by
      rw [Nat.pow_succ, Nat.div_div_eq_div_mul]
    have hdvd : 2 ^ i ∣ index :=
      hindex ▸ (pow_dvd_pow 2 (Nat.le_succ i)).trans (Nat.dvd_mul_left _ _)
    rw [hhalve, Nat.pow_succ] at hindex
    by_cases hset : numEntries / 2 ^ i % 2 = 1
    · have hgrow : index + 2 ^ i = numEntries / 2 ^ i * 2 ^ i := by
        calc index + 2 ^ i = (numEntries / 2 ^ i / 2 * 2 + 1) * 2 ^ i := by rw [hindex]; ring
          _ = numEntries / 2 ^ i * 2 ^ i := by congr 1; omega
      have hother : ∀ block ∈ blocks, block ≠ index := by
        intro block hblock
        have hbounds := htiles.bounds hblock
        omega
      have horder : i % 128 = i := Nat.mod_eq_of_lt (by omega)
      simp only [setupLoop, hbit, hset, decide_true, if_true]
      refine @ih (blocks ++ [index]) _ _ (by omega) hgrow ?_ ?_ ?_
      · refine tiles_append.mpr ⟨index, htiles.congr fun block hblock => ?_, rfl,
          Nat.two_pow_pos _, ?_⟩
        · simp only [Function.update_of_ne (hother block hblock)]
        · simp [Tiles, horder]
      · intro block hblock
        rcases List.mem_append.mp hblock with hold | hnew
        · simpa only [Function.update_of_ne (hother block hold)] using haligned block hold
        · obtain rfl := List.mem_singleton.mp hnew
          simpa [horder] using hdvd
      · intro entry
        by_cases heq : entry = index
        · simpa [heq] using hfree index
        · simpa only [Function.update_of_ne heq] using hfree entry
    · have hsame : index = numEntries / 2 ^ i * 2 ^ i := by
        calc index = numEntries / 2 ^ i / 2 * 2 * 2 ^ i := by rw [hindex]; ring
          _ = numEntries / 2 ^ i * 2 ^ i := by congr 1; omega
      simp only [setupLoop, hbit, hset, decide_false, Bool.false_eq_true, if_false]
      exact ih (by omega) hsame htiles haligned hfree

/-- `pmem_setup` lays a region out in blocks, all of them free. -/
theorem pmemSetup_spec {size : Nat} (hsize : size < word) :
    (∃ blocks, Buddies (pmemSetup size false) blocks) ∧
      ∀ entry, (pmemSetup size false).isFree entry = true := by
  have hsmall : size / pmemMinAlloc < 2 ^ 20 := by
    simp only [word, pmemMinAlloc, pageSize] at *
    omega
  obtain ⟨blocks, htiles, haligned, hfree⟩ :=
    @setupLoop_spec [] 0 (size / pmemMinAlloc) 32 (fun _ => { allocated := false, order := 0 })
      le_rfl
      (by rw [Nat.div_eq_of_lt (by omega), Nat.zero_mul]) rfl (by simp) (fun _ => rfl)
  have hall : ∀ entry, (pmemSetup size false).isFree entry = true := by
    intro entry
    simp [PmemInfo.isFree, pmemSetup, hfree entry]
  exact ⟨⟨blocks, htiles, haligned, fun entry hbusy => absurd ((hall entry).symm.trans hbusy)
    (by simp), hsmall⟩, hall⟩

/-- An order never exceeds the bits of a word. -/
theorem pmemOrder_le (len : Nat) : pmemOrder len ≤ 32 := by
  rw [pmemOrder]
  cases hfind : (List.range 32).find? fun i => pmemPages len >>> i == 0 with
  | none => exact le_rfl
  | some i =>
    have hmem := List.mem_of_find?_eq_some hfind
    exact (List.mem_range.mp hmem).le

/-- An order is the least one whose blocks have more pages than the request, less one. -/
theorem pmemPages_bounds :
    (pmemOrder len < 32 → pmemPages len < 2 ^ pmemOrder len) ∧
      ∀ k, k < pmemOrder len → 2 ^ k ≤ pmemPages len := by
  have hshift : ∀ i, pmemPages len >>> i = 0 ↔ pmemPages len < 2 ^ i := by
    intro i
    rw [Nat.shiftRight_eq_div_pow, Nat.div_eq_zero_iff_lt (Nat.two_pow_pos i)]
  rw [pmemOrder]
  cases hfind : (List.range 32).find? fun i => pmemPages len >>> i == 0 with
  | none =>
    simp only [List.find?_range_eq_none, hshift, Bool.not_eq_true',
      beq_eq_false_iff_ne, ne_eq] at hfind
    exact ⟨fun hlt => absurd hlt (lt_irrefl _), fun k hk => Nat.le_of_not_lt (hfind k hk)⟩
  | some i =>
    simp only [List.find?_range_eq_some, beq_iff_eq, hshift, Bool.not_eq_true',
      beq_eq_false_iff_ne, ne_eq] at hfind
    exact ⟨fun _ => hfind.1, fun k hk => Nat.le_of_not_lt (hfind.2.2 k hk)⟩

/-- A block of the order of a request holds it. -/
theorem len_le_of_order (hlen : len < word) (horder : pmemOrder len < 32) :
    len ≤ 2 ^ pmemOrder len * pmemMinAlloc := by
  have hpages := pmemPages_bounds.1 horder
  have hpow : 2 ^ pmemOrder len ≤ 2 ^ 31 := Nat.pow_le_pow_right (by omega) (by omega)
  simp only [pmemPages, wsub, wadd, word, pmemMinAlloc, pageSize] at *
  omega

/-- A block of a smaller order does not. -/
theorem lt_len_of_order (hpos : 1 ≤ len) (hlen : len < word) (hk : k < 20)
    (horder : k < pmemOrder len) : 2 ^ k * pmemMinAlloc < len := by
  have hpages := pmemPages_bounds.2 k horder
  have hpow : 2 ^ k ≤ 2 ^ 19 := Nat.pow_le_pow_right (by omega) (by omega)
  have hone := Nat.two_pow_pos k
  simp only [pmemPages, wsub, wadd, word, pmemMinAlloc, pageSize] at *
  omega

/-- The best fit is the one there was, or a larger free block. -/
theorem betterFit_spec {order curr : Nat} {bestFit : Option Nat}
    (hbest : ∀ best, bestFit = some best → best < pmem.numEntries) :
    ∃ result, betterFit pmem order curr (pmem.bitmap curr) bestFit = some result ∧
      (∀ found, result = some found → bestFit = some found ∨
        found = curr ∧ pmem.isFree curr = true ∧ order < pmem.order curr) ∧
      (result = none → bestFit = none ∧
        (pmem.isFree curr = true → pmem.order curr ≤ order)) := by
  have hfits : (!(pmem.bitmap curr).allocated && decide ((pmem.bitmap curr).order > order)) = true ↔
      pmem.isFree curr = true ∧ order < pmem.order curr := by
    simp [PmemInfo.isFree, PmemInfo.order]
  by_cases hfit : pmem.isFree curr = true ∧ order < pmem.order curr
  · cases bestFit with
    | none =>
      refine ⟨some curr, if_pos (hfits.mpr hfit), fun found hfound => ?_, by rintro ⟨⟩⟩
      exact .inr ⟨(Option.some.inj hfound).symm, hfit⟩
    | some best =>
      refine ⟨if (pmem.bitmap curr).order < (pmem.bitmap best).order then some curr
        else some best, ?_, fun found hfound => ?_, fun hnone => ?_⟩
      · simp only [betterFit, if_pos (hfits.mpr hfit), bits_eq (hbest best rfl),
          Option.bind_eq_bind, Option.bind_some, Option.pure_def]
      · split at hfound
        · exact .inr ⟨(Option.some.inj hfound).symm, hfit⟩
        · exact .inl hfound
      · split at hnone <;> simp at hnone
  · have hlow : pmem.isFree curr = true → pmem.order curr ≤ order :=
      fun hfree => Nat.le_of_not_lt fun hlt => hfit ⟨hfree, hlt⟩
    refine ⟨bestFit, ?_, fun found hfound => .inl hfound, fun hnone => ⟨hnone, hlow⟩⟩
    cases bestFit with
    | none => exact if_neg (mt hfits.mp hfit)
    | some best => exact if_neg (mt hfits.mp hfit)

/-- What the search of `pmem_allocate` finds in the blocks from `curr` on. -/
theorem searchLoop_spec {order fuel curr : Nat} {bestFit : Option Nat} {rest : List Nat}
    (h : Tiles (fun block => 2 ^ pmem.order block) curr pmem.numEntries rest)
    (hfuel : pmem.numEntries < curr + fuel)
    (hbest : ∀ best, bestFit = some best → best < pmem.numEntries) :
    ∃ result, searchLoop pmem order fuel curr bestFit = some result ∧
      (∀ found, result = some found → bestFit = some found ∨
        found ∈ rest ∧ pmem.isFree found = true ∧ order ≤ pmem.order found) ∧
      (result = none → bestFit = none ∧
        ∀ block ∈ rest, pmem.isFree block = true → pmem.order block < order) := by
  induction rest generalizing curr bestFit fuel with
  | nil =>
    obtain rfl : curr = pmem.numEntries := h
    obtain ⟨fuel, rfl⟩ : ∃ m, fuel = m + 1 := ⟨fuel - 1, by omega⟩
    exact ⟨bestFit, if_neg (lt_irrefl _), fun found hfound => .inl hfound,
      fun hnone => ⟨hnone, by simp⟩⟩
  | cons block rest ih =>
    have hbounds := h.bounds List.mem_cons_self
    obtain ⟨rfl, hpos, hrest⟩ := h
    obtain ⟨fuel, rfl⟩ : ∃ m, fuel = m + 1 := ⟨fuel - 1, by omega⟩
    have hlt : block < pmem.numEntries := by omega
    by_cases hexact : pmem.isFree block = true ∧ pmem.order block = order
    · refine ⟨some block, ?_, fun found hfound => .inr ?_, nofun⟩
      · simp only [PmemInfo.isFree, PmemInfo.order] at hexact
        simp only [searchLoop, if_pos hlt, bits_eq hlt, Option.bind_eq_bind, Option.bind_some,
          hexact.1, hexact.2, beq_self_eq_true, Bool.and_self, if_true, Option.pure_def]
      · obtain rfl := Option.some.inj hfound
        exact ⟨List.mem_cons_self, hexact.1, hexact.2.ge⟩
    obtain ⟨better, hbetter, hfound, hnone⟩ := @betterFit_spec pmem order block _ hbest
    have hin : ∀ best, better = some best → best < pmem.numEntries := by
      intro best heq
      rcases hfound best heq with hold | ⟨rfl, -⟩
      · exact hbest best hold
      · exact hlt
    have hshorter : pmem.numEntries < block + 2 ^ pmem.order block + fuel := by omega
    obtain ⟨result, hloop, hresult, hnone'⟩ := ih hrest hshorter hin
    refine ⟨result, ?_, fun found heq => ?_, fun heq => ?_⟩
    · simp only [PmemInfo.isFree, PmemInfo.order] at hexact hloop
      simp only [searchLoop, if_pos hlt, bits_eq hlt, Option.bind_eq_bind, Option.bind_some,
        Bool.and_eq_true, beq_iff_eq, if_neg hexact, hbetter, hloop]
    · rcases hresult found heq with hold | ⟨hmem, hfits⟩
      · rcases hfound found hold with hbest | ⟨rfl, hfree, hlarge⟩
        · exact .inl hbest
        · exact .inr ⟨List.mem_cons_self, hfree, hlarge.le⟩
      · exact .inr ⟨List.mem_cons_of_mem _ hmem, hfits⟩
    · obtain ⟨hbetterNone, hsmall⟩ := hnone' heq
      obtain ⟨hbestNone, hblock⟩ := hnone hbetterNone
      refine ⟨hbestNone, fun other hmem hfree => ?_⟩
      rcases List.mem_cons.mp hmem with rfl | hmem
      · have hle := hblock hfree
        exact lt_of_le_of_ne hle fun heq => hexact ⟨hfree, heq⟩
      · exact hsmall other hmem hfree

/-- The later bitmap differs in the `allocated` field of one entry. -/
structure Marked (pmem : PmemInfo) (index : Nat) (allocated : Bool) (after : PmemInfo) : Prop where
  numEntries : after.numEntries = pmem.numEntries
  noAllocator : after.noAllocator = pmem.noAllocator
  order : ∀ other, after.order other = pmem.order other
  isFree : after.isFree index = !allocated
  other : ∀ other, other ≠ index → after.isFree other = pmem.isFree other

/-- An assignment to the `allocated` field of an entry inside the region. -/
theorem setAllocated_spec (h : index < pmem.numEntries) (allocated : Bool) :
    ∃ after, pmem.setAllocated index allocated = some after ∧
      Marked pmem index allocated after := by
  refine ⟨_, if_pos h, ⟨rfl, rfl, fun other => ?_, ?_, fun other hne => ?_⟩⟩
  · by_cases heq : other = index
    · simp [PmemInfo.order, heq]
    · simp [PmemInfo.order, heq]
  · simp [PmemInfo.isFree]
  · simp [PmemInfo.isFree, hne]

/-- Marking a block, or clearing a mark, leaves the blocks. -/
theorem Marked.buddies {allocated : Bool} (hmarked : Marked pmem index allocated after)
    (h : Buddies pmem blocks) (hmem : allocated = true → index ∈ blocks) :
    Buddies after blocks where
  tiles := by simpa only [hmarked.order, hmarked.numEntries] using h.tiles
  aligned := by simpa only [hmarked.order] using h.aligned
  heads other hbusy := by
    by_cases heq : other = index
    · have hmark := hmarked.isFree.symm.trans (heq ▸ hbusy)
      exact heq ▸ hmem (by simpa using hmark)
    · exact h.heads other ((hmarked.other other heq).symm.trans hbusy)
  small := hmarked.numEntries ▸ h.small

/-- What an allocation from a managed region does: it takes a free block that is large enough,
cutting it to the order of the request, or finds that there is none. -/
theorem pmemAllocate_spec (h : Buddies pmem blocks) (hmanaged : pmem.noAllocator = false)
    (len : Nat) :
    (pmemAllocate pmem len = some (pmem, none) ∧
      ∀ block ∈ blocks, pmem.isFree block = true → pmem.order block < pmemOrder len) ∨
    ∃ found after blocks', pmemAllocate pmem len = some (after, some found) ∧
      pmem.isFree found = true ∧ Buddies after blocks' ∧ after.numEntries = pmem.numEntries ∧
      after.noAllocator = false ∧ after.order found = pmemOrder len ∧
      after.isFree found = false ∧
      ∀ other, other ≠ found → after.isFree other = pmem.isFree other ∧
        (pmem.isFree other = false → after.order other = pmem.order other) := by
  have hle := pmemOrder_le len
  have horder : pmemOrder len % 2 ^ 8 = pmemOrder len := Nat.mod_eq_of_lt (by omega)
  obtain ⟨result, hsearch, hfound, hnone⟩ :=
    @searchLoop_spec pmem (pmemOrder len) (pmem.numEntries + 1) 0 none blocks h.tiles (by omega)
      nofun
  have hmax : ¬ pmemOrder len > pmemMaxOrder := by
    simp only [pmemMaxOrder]
    omega
  have hmanaged' : ¬ pmem.noAllocator = true := by simp [hmanaged]
  cases result with
  | none =>
    refine .inl ⟨?_, (hnone rfl).2⟩
    simp only [pmemAllocate, if_neg hmanaged', if_neg hmax, horder, hsearch,
      Option.bind_eq_bind, Option.bind_some, Option.pure_def]
  | some found =>
    obtain ⟨hmem, hfree, hlarge⟩ : found ∈ blocks ∧ pmem.isFree found = true ∧
        pmemOrder len ≤ pmem.order found := by
      rcases hfound found rfl with hold | hnew
      · exact absurd hold (by simp)
      · exact hnew
    have hbounds := h.bounds hmem
    obtain ⟨cut, blocks', hsplit, hsame, hcutOrder, hcut, hmem'⟩ :=
      @splitLoop_spec _ _ _ _ (2 ^ 7) h hmem hfree hlarge (by omega)
    obtain ⟨after, hafter, hmarked⟩ := setAllocated_spec (hcut.bounds hmem').2.1 true
    refine .inr ⟨found, after, blocks', ?_, hfree, hmarked.buddies hcut (fun _ => hmem'),
      hmarked.numEntries.trans hsame.numEntries,
      hmarked.noAllocator.trans (hsame.noAllocator.trans hmanaged),
      (hmarked.order found).trans hcutOrder, by simpa using hmarked.isFree, fun other hne => ?_⟩
    · simp only [pmemAllocate, if_neg hmanaged', if_neg hmax, horder, hsearch,
        Option.bind_eq_bind, Option.bind_some, Option.pure_def, hsplit, hafter]
    · exact ⟨(hmarked.other other hne).trans (hsame.isFree other),
        fun hbusy => (hmarked.order other).trans (hsame.order other hbusy)⟩

/-- What a free of an allocated block does, while the merges cannot reach past the region. -/
theorem pmemFree_spec (h : Buddies pmem blocks) (hmanaged : pmem.noAllocator = false)
    (hbusy : pmem.isFree index = false)
    (hstop : index < lastBlock pmem.numEntries ∨
      ∃ other, other ≠ index ∧ lastBlock pmem.numEntries ≤ other ∧ pmem.isFree other = false) :
    ∃ after blocks', pmemFree pmem index = some after ∧ Buddies after blocks' ∧
      after.numEntries = pmem.numEntries ∧ after.noAllocator = false ∧
      after.isFree index = true ∧
      ∀ other, other ≠ index → after.isFree other = pmem.isFree other ∧
        (pmem.isFree other = false → after.order other = pmem.order other) := by
  have hmanaged' : ¬ pmem.noAllocator = true := by simp [hmanaged]
  have hmem := h.heads index hbusy
  obtain ⟨freed, hfreed, hmarked⟩ := setAllocated_spec (h.bounds hmem).2.1 false
  have hblocks := hmarked.buddies h (by simp)
  have hbounds := hblocks.bounds hmem
  obtain ⟨after, blocks', hloop, hsame, hbuddies⟩ :=
    @freeLoop_spec _ _ _ (2 ^ 7) _ hblocks hmem (by simpa using hmarked.isFree) le_rfl
      (by
        rw [hmarked.numEntries]
        rcases hstop with hbelow | ⟨other, hne, habove, hother⟩
        · exact .inl hbelow
        · exact .inr ⟨other, habove, (hmarked.other other hne).trans hother⟩)
      (by omega)
  refine ⟨after, blocks', ?_, hbuddies, hsame.numEntries.trans hmarked.numEntries,
    hsame.noAllocator.trans (hmarked.noAllocator.trans hmanaged),
    (hsame.isFree index).trans (by simpa using hmarked.isFree), fun other hne => ?_⟩
  · simp only [pmemFree, if_neg hmanaged', hfreed, Option.bind_eq_bind, Option.bind_some, hloop]
  · have hother := hmarked.other other hne
    exact ⟨(hsame.isFree other).trans hother,
      fun hbusy => (hsame.order other (hother.trans hbusy)).trans (hmarked.order other)⟩

/-!
## Runs of the pmem allocator

A region with the requests of its live blocks, and its runs from `pmem_setup` through
allocations and frees of live blocks. The merges of `pmem_free` look up the buddy of a block
without asking whether it lies in the region; they reach past the end as soon as the whole last
block of the first layout is free. While some of it stays live, all is well.
-/

/-- A region, and for each live block the bytes it was allocated for. -/
structure Region where
  pmem : PmemInfo
  live : Nat → Option Nat

/-- The requests under `bitmap_sem`. -/
inductive PmemOp where
  | allocate (len : Nat)
  | free (index : Nat)

/-- The region after `pmem_setup`. -/
def Region.setup (size : Nat) : Region where
  pmem := pmemSetup size false
  live := fun _ => none

/-- One request; it has no result where the bitmap is accessed outside the region. -/
def Region.step (region : Region) : PmemOp → Option Region
  | .allocate len => do
    let (pmem, result) ← pmemAllocate region.pmem len
    match result with
    | none => return { region with pmem := pmem }
    | some index => return { pmem := pmem, live := Function.update region.live index (some len) }
  | .free index => do
    let pmem ← pmemFree region.pmem index
    return { pmem := pmem, live := Function.update region.live index none }

/-- The requests a caller makes: at least one byte, and blocks it holds. -/
def Region.Requested (region : Region) : PmemOp → Prop
  | .allocate len => 1 ≤ len ∧ len < word
  | .free index => region.live index ≠ none

/-- Freeing this block leaves a part of the last block live. -/
def Region.KeepsLast (region : Region) (index : Nat) : Prop :=
  index < lastBlock region.pmem.numEntries ∨
    ∃ other, other ≠ index ∧ lastBlock region.pmem.numEntries ≤ other ∧ region.live other ≠ none

/-- A request that no free of it carries past the end of the region. -/
def Region.Contained (region : Region) (op : PmemOp) : Prop :=
  region.Requested op ∧ ∀ index, op = .free index → region.KeepsLast index

/-- The bitmap is in order, and its allocated blocks are the live ones. -/
structure Region.Consistent (region : Region) : Prop where
  managed : region.pmem.noAllocator = false
  buddies : Buddies region.pmem region.pmem.blocks
  live : ∀ index, region.live index ≠ none ↔ region.pmem.isFree index = false
  fits : ∀ index len, region.live index = some len → len ≤ region.pmem.len index

variable {region : Region} {op : PmemOp} {size : Nat}

theorem consistent_setup (hsize : size < word) : (Region.setup size).Consistent where
  managed := rfl
  buddies := by
    obtain ⟨⟨blocks, hblocks⟩, -⟩ := pmemSetup_spec hsize
    exact hblocks.blocks_eq.symm ▸ hblocks
  live index := by
    have hfree := (pmemSetup_spec hsize).2 index
    simp [Region.setup, hfree]
  fits index len hlive := by simp [Region.setup] at hlive

/-- Blocks other than the one a request is about stay as they are. -/
theorem Region.Consistent.fits_other {pmem : PmemInfo} {index other len : Nat}
    (h : region.Consistent)
    (hother : ∀ other, other ≠ index → pmem.isFree other = region.pmem.isFree other ∧
      (region.pmem.isFree other = false → pmem.order other = region.pmem.order other))
    (hne : other ≠ index) (hlive : region.live other = some len) : len ≤ pmem.len other := by
  have hbusy := (h.live other).mp (by simp [hlive])
  rw [PmemInfo.len, (hother other hne).2 hbusy]
  exact h.fits other len hlive

/-- An allocation has a result, and keeps the bitmap and the live blocks in step. -/
theorem Region.Consistent.allocate (h : region.Consistent) {len : Nat} (hlen : len < word) :
    ∃ next, region.step (.allocate len) = some next ∧ next.Consistent ∧
      next.pmem.numEntries = region.pmem.numEntries := by
  rcases pmemAllocate_spec h.buddies h.managed len with ⟨halloc, -⟩ |
    ⟨found, after, blocks', halloc, hfree, hblocks, hentries, hmanaged, horder, hbusy, hother⟩
  · refine ⟨region, ?_, h, rfl⟩
    simp [Region.step, halloc]
  refine ⟨⟨after, Function.update region.live found (some len)⟩, by simp [Region.step, halloc],
    ⟨hmanaged, hblocks.blocks_eq.symm ▸ hblocks, fun other => ?_, fun other bytes hlive => ?_⟩,
    hentries⟩
  · by_cases heq : other = found
    · simp [heq, hbusy]
    · simp only [Function.update_of_ne heq, (hother other heq).1]
      exact h.live other
  by_cases heq : other = found
  · obtain rfl : len = bytes := by simpa [heq] using hlive
    have hin := hblocks.heads found hbusy
    have hsmall := (hblocks.bounds hin).2.2
    rw [heq, PmemInfo.len, horder]
    exact len_le_of_order hlen (by omega)
  · simp only [Function.update_of_ne heq] at hlive
    exact h.fits_other hother heq hlive

/-- So has a free of a live block that leaves a part of the last block live. -/
theorem Region.Consistent.free (h : region.Consistent) {index : Nat}
    (hlive : region.live index ≠ none) (hkeeps : region.KeepsLast index) :
    ∃ next, region.step (.free index) = some next ∧ next.Consistent ∧
      next.pmem.numEntries = region.pmem.numEntries := by
  have hstop : index < lastBlock region.pmem.numEntries ∨
      ∃ other, other ≠ index ∧ lastBlock region.pmem.numEntries ≤ other ∧
        region.pmem.isFree other = false := by
    simpa only [Region.KeepsLast, h.live] using hkeeps
  obtain ⟨after, blocks', hfreed, hblocks, hentries, hmanaged, hfree, hother⟩ :=
    pmemFree_spec h.buddies h.managed ((h.live index).mp hlive) hstop
  refine ⟨⟨after, Function.update region.live index none⟩, by simp [Region.step, hfreed],
    ⟨hmanaged, hblocks.blocks_eq.symm ▸ hblocks, fun other => ?_, fun other bytes hbytes => ?_⟩,
    hentries⟩
  · by_cases heq : other = index
    · simp [heq, hfree]
    · simp only [Function.update_of_ne heq, (hother other heq).1]
      exact h.live other
  · by_cases heq : other = index
    · simp [heq] at hbytes
    · simp only [Function.update_of_ne heq] at hbytes
      exact h.fits_other hother heq hbytes

/-- Every contained request has a result and keeps the region consistent. -/
theorem Region.Consistent.step (h : region.Consistent) (hop : region.Contained op) :
    ∃ next, region.step op = some next ∧ next.Consistent ∧
      next.pmem.numEntries = region.pmem.numEntries := by
  cases op with
  | allocate len => exact h.allocate hop.1.2
  | free index => exact h.free hop.1 (hop.2 index rfl)

/-- A request leads from one region to the next. -/
def PmemStep (region : Region) (op : PmemOp) (next : Region) : Prop := region.step op = some next

theorem consistent_reached (hsize : size < word)
    (hrun : Reaches PmemStep Region.Contained (Region.setup size) region) :
    region.Consistent ∧ region.pmem.numEntries = size / pmemMinAlloc := by
  refine hrun.invariant (fun region => region.Consistent ∧
    region.pmem.numEntries = size / pmemMinAlloc) (fun region op next hinv hok hstep => ?_)
    ⟨consistent_setup hsize, rfl⟩
  obtain ⟨next', heq, hnext, hentries⟩ := hinv.1.step hok
  obtain rfl : next' = next := Option.some.inj (heq.symm.trans hstep)
  exact ⟨hnext, hentries.trans hinv.2⟩

/-- In every region reached by requests that keep a part of the last block live: the blocks met
from index 0 tile the region, each at a multiple of its size; live blocks are among them,
disjoint and long enough; an allocation has a result, and fails only when every free block is
too small; a further such free has a result as well, so no access leaves the bitmap. -/
theorem blocks_tile_while_last_live (hsize : size < word)
    (hrun : Reaches PmemStep Region.Contained (Region.setup size) region) :
    Tiles (fun block => 2 ^ region.pmem.order block) 0 (size / pmemMinAlloc) region.pmem.blocks ∧
    (∀ block ∈ region.pmem.blocks, 2 ^ region.pmem.order block ∣ block) ∧
    (∀ index len, region.live index = some len →
      index ∈ region.pmem.blocks ∧ len ≤ region.pmem.len index) ∧
    (∀ first second, region.live first ≠ none → region.live second ≠ none → first < second →
      first + 2 ^ region.pmem.order first ≤ second) ∧
    (∀ len, 1 ≤ len → len < word → ∃ pmem result,
      pmemAllocate region.pmem len = some (pmem, result) ∧
      (result = none → ∀ block ∈ region.pmem.blocks, region.pmem.isFree block = true →
        region.pmem.order block < pmemOrder len ∧ region.pmem.len block < len)) ∧
    (∀ index, region.live index ≠ none → region.KeepsLast index →
      ∃ pmem, pmemFree region.pmem index = some pmem) := by
  obtain ⟨h, hentries⟩ := consistent_reached hsize hrun
  have hmem : ∀ index, region.live index ≠ none → index ∈ region.pmem.blocks :=
    fun index hlive => h.buddies.heads index ((h.live index).mp hlive)
  refine ⟨hentries ▸ h.buddies.tiles, h.buddies.aligned, fun index len hlive =>
    ⟨hmem index (by simp [hlive]), h.fits index len hlive⟩, fun first second hfirst hsecond hlt =>
    h.buddies.tiles.disjoint (hmem first hfirst) (hmem second hsecond) hlt,
    fun len hpos hlen => ?_, fun index hlive hkeeps => ?_⟩
  · rcases pmemAllocate_spec h.buddies h.managed len with ⟨halloc, hsmall⟩ |
      ⟨found, after, -, halloc, -⟩
    · refine ⟨region.pmem, none, halloc, fun _ block hblock hfree => ?_⟩
      have horder := hsmall block hblock hfree
      exact ⟨horder, lt_len_of_order hpos hlen (h.buddies.bounds hblock).2.2 horder⟩
    · exact ⟨after, some found, halloc, nofun⟩
  · obtain ⟨next, hstep, -⟩ := h.free hlive hkeeps
    rw [Region.step] at hstep
    obtain ⟨pmem, hfreed, -⟩ := Option.bind_eq_some_iff.mp hstep
    exact ⟨pmem, hfreed⟩

/-- The first page of a region of two pages, allocated. -/
theorem blocks_tile_after_first_page :
    ∃ region, (Region.setup 8192).step (.allocate 4096) = some region ∧
      Tiles (fun block => 2 ^ region.pmem.order block) 0 2 region.pmem.blocks := by
  have hop : (Region.setup 8192).Contained (.allocate 4096) :=
    ⟨by simp [Region.Requested, word], nofun⟩
  obtain ⟨region, hstep, -⟩ := (@consistent_setup 8192 (by decide)).step hop
  exact ⟨region, hstep, (blocks_tile_while_last_live (by decide)
    ((Reaches.refl (Region.setup 8192)).tail hstep hop)).1⟩

/-- Allocate one page of a region of two pages and free it: the merged block is the whole region,
and the loop looks up the entry at index 2 past its end. -/
theorem free_leaves_bitmap :
    ∃ region, Reaches PmemStep Region.Requested (Region.setup 8192) region ∧
      region.Requested (.free 0) ∧ pmemFree region.pmem 0 = none := by
  have hlive : (((Region.setup 8192).step (.allocate 4096)).bind fun region => region.live 0) =
      some 4096 := by decide
  have hfreed : (((Region.setup 8192).step (.allocate 4096)).bind fun region =>
      pmemFree region.pmem 0).isNone = true := by decide
  obtain ⟨region, hstep, hzero⟩ := Option.bind_eq_some_iff.mp hlive
  rw [hstep, Option.bind_some, Option.isNone_iff_eq_none] at hfreed
  refine ⟨region, (Reaches.refl (Region.setup 8192)).tail hstep ?_, ?_, hfreed⟩
  · exact ⟨by omega, by simp [word]⟩
  · simp [Region.Requested, hzero]

end AndroidKernel.Pmem
