import AndroidKernel.Vmap.Model
import Mathlib.Tactic.IntervalCases

/-!
# The bookkeeping of a vmap block

Read `bookkeeping_iff` first. A region of at most 32 bits at a multiple of its size lies in one
long, so setting it sets just its bits. An address tells its page in the block by a mask, which
is right only when the number of pages is a power of two.
-/

namespace AndroidKernel.Vmap

open Library

/-! ## Regions -/

variable {m : Bitmap} {bits order pos b : Nat}

theorem regAlloc_apply (horder : order ≤ 5) (hpos : pos % 2 ^ order = 0) (m : Bitmap) (b : Nat) :
    regAlloc m pos order b = (m b || decide (pos ≤ b ∧ b < pos + 2 ^ order)) := by
  unfold regAlloc regMask nlongsReg bitsPerLong
  rw [← Bool.decide_and]
  congr 2
  interval_cases order <;> norm_num at hpos ⊢ <;> omega

theorem regIsFree_iff (horder : order ≤ 5) (hpos : pos % 2 ^ order = 0) :
    regIsFree m pos order = true ↔ ∀ b, pos ≤ b → b < pos + 2 ^ order → m b = false := by
  have hlongs : nlongsReg order = 1 := by
    interval_cases order <;> rfl
  have hsize : pos % 32 + 2 ^ order ≤ 32 ∧ 2 ^ order ≤ 32 := by
    interval_cases order <;> norm_num at hpos ⊢ <;> omega
  have hmask : ∀ bit, regMask pos order bit = true ↔
      pos % 32 ≤ bit ∧ bit < pos % 32 + 2 ^ order := by
    intro bit
    rw [regMask, decide_eq_true_eq, bitsPerLong, Nat.min_eq_left hsize.2]
  unfold regIsFree
  rw [hlongs]
  simp only [List.all_eq_true, List.mem_range, bitsPerLong, Bool.not_eq_true',
    Bool.and_eq_false_imp, hmask]
  constructor
  · intro h b hle hlt
    have hb := h 0 Nat.one_pos (b % 32) (Nat.mod_lt _ (by decide)) (by omega)
    rwa [show (pos / 32 + 0) * 32 + b % 32 = b by omega] at hb
  · intro h i hi bit hbit hin
    obtain rfl : i = 0 := by omega
    exact h _ (by omega) (by omega)

/-- The orders that callers can ask for. -/
theorem getOrder_cases {pages : Nat} (h : pages ≤ vmapMaxAlloc) :
    getOrder (pages * pageSize) ≤ 5 ∨ getOrder (pages * pageSize) = 20 := by
  have hall : ∀ pages < 33, getOrder (pages * pageSize) ≤ 5 ∨ getOrder (pages * pageSize) = 20 := by
    decide
  exact hall pages (Nat.lt_succ_of_le h)

theorem findFreeRegion_spec {m' : Bitmap} (hbits : bits ≤ 1024) (horder : order ≤ 5 ∨ order = 20)
    (h : findFreeRegion m bits order = some (pos, m')) :
    order ≤ 5 ∧ pos % 2 ^ order = 0 ∧ pos + 2 ^ order ≤ bits ∧
      (∀ b, pos ≤ b → b < pos + 2 ^ order → m b = false) ∧ m' = regAlloc m pos order := by
  obtain ⟨pos, hfind, heq⟩ := Option.map_eq_some_iff.mp h
  cases heq
  obtain ⟨k, hk, rfl⟩ := List.mem_map.mp (List.mem_of_find?_eq_some hfind)
  rw [List.mem_range] at hk
  have hend : (k + 1) * 2 ^ order ≤ bits := (Nat.le_div_iff_mul_le (Nat.two_pow_pos _)).mp hk
  rw [Nat.add_mul, Nat.one_mul] at hend
  have horder : order ≤ 5 := by
    rcases horder with h | rfl
    · exact h
    · omega
  have hpos : k * 2 ^ order % 2 ^ order = 0 := Nat.mul_mod_left _ _
  have hfree := List.find?_some hfind
  exact ⟨horder, hpos, hend, (regIsFree_iff horder hpos).mp hfree, rfl⟩

/-! ## The place of a block -/

variable {cfg : Config} {va : Nat} {s s' : State}

/-- What `alloc_vmap_area` promises of the area of a block: it starts at `VMALLOC_START` or
above, its size minus one masks nothing of its start, and it does not run past the top. -/
structure AreaFits (cfg : Config) (va : Nat) : Prop where
  start : cfg.vmallocStart ≤ va
  masked : va &&& (cfg.blockSize - 1) = 0
  top : va + cfg.blockSize ≤ word

/-- What the pages of a block need of its address. -/
structure Geometry (cfg : Config) (va : Nat) : Prop where
  top : va + cfg.blockSize ≤ word
  idx : ∀ i < cfg.bbmapBits, addrToVbIdx cfg (va + i * pageSize) = addrToVbIdx cfg va
  offset : ∀ i < cfg.bbmapBits,
    ((va + i * pageSize) &&& (cfg.blockSize - 1)) / pageSize = i
  aligned : ∀ order ≤ 5, va % (2 ^ order * pageSize) = 0

theorem bbmapBits_bounds (cfg : Config) : 64 ≤ cfg.bbmapBits ∧ cfg.bbmapBits ≤ 1024 := by
  unfold Config.bbmapBits vmapMaxAlloc bitsPerLong
  omega

/-- A power of two as the number of pages makes masks and divisions agree. -/
theorem geometry_of_pow {k : Nat} (hk : cfg.bbmapBits = 2 ^ k) (h : AreaFits cfg va) :
    Geometry cfg va := by
  have hsize : cfg.blockSize = 2 ^ (k + 12) := by
    rw [Config.blockSize, hk, pow_add]
    rfl
  have hbounds := bbmapBits_bounds cfg
  have hk6 : 6 ≤ k := by
    rw [hk] at hbounds
    exact (Nat.pow_le_pow_iff_right (by decide : 1 < 2)).mp hbounds.1
  have hk10 : k ≤ 10 := by
    rw [hk] at hbounds
    exact (Nat.pow_le_pow_iff_right (by decide : 1 < 2)).mp hbounds.2
  obtain ⟨hstart, hmasked, htop⟩ := h
  have hpos := Nat.two_pow_pos (k + 12)
  have hinside : ∀ i < cfg.bbmapBits, i * pageSize < 2 ^ (k + 12) := by
    intro i hi
    rw [← hsize, Config.blockSize]
    exact Nat.mul_lt_mul_of_pos_right hi (by decide)
  rw [hsize] at hmasked htop
  rw [Nat.and_two_pow_sub_one_eq_mod] at hmasked
  -- the block is the multiple of its size with this number
  obtain ⟨n, rfl⟩ := Nat.dvd_of_mod_eq_zero hmasked
  have hfloor : cfg.vmallocStart &&& (word - 1 - (2 ^ (k + 12) - 1)) =
      cfg.vmallocStart / 2 ^ (k + 12) * 2 ^ (k + 12) :=
    and_mask_eq (by omega) (show cfg.vmallocStart < word by omega)
  have hbelow : cfg.vmallocStart / 2 ^ (k + 12) ≤ n :=
    Nat.div_le_of_le_mul hstart
  constructor
  · rwa [hsize]
  · intro i hi
    have hi := hinside i hi
    have hmul := Nat.mul_le_mul_right (2 ^ (k + 12)) hbelow
    have hn : n * 2 ^ (k + 12) = 2 ^ (k + 12) * n := Nat.mul_comm _ _
    unfold addrToVbIdx
    rw [hsize, hfloor, wsub_eq (by omega) (by omega), wsub_eq (by omega) (by omega), ← hn,
      Nat.sub_add_comm hmul, ← Nat.sub_mul, Nat.mul_comm, Nat.mul_add_div hpos,
      Nat.div_eq_of_lt hi, Nat.mul_div_cancel_left _ hpos, Nat.add_zero]
  · intro i hi
    rw [hsize, Nat.and_two_pow_sub_one_eq_mod, Nat.mul_add_mod, Nat.mod_eq_of_lt (hinside i hi)]
    exact Nat.mul_div_cancel i (by decide)
  intro order horder
  apply Nat.mod_eq_zero_of_dvd
  apply Nat.dvd_mul_right_of_dvd
  have hpage : 2 ^ order * pageSize = 2 ^ (order + 12) := by
    rw [pow_add]
    rfl
  rw [hpage]
  exact pow_dvd_pow 2 (by omega)

/-! ## The bookkeeping -/

/-- The number of a range's first page in the block at `vaStart`. -/
def pageOf (vaStart : Nat) (range : Nat × Nat) : Nat :=
  (range.1 - vaStart) / pageSize

/-- The number of pages that a range occupies: its size, rounded up to a power of two. -/
def pagesOf (range : Nat × Nat) : Nat :=
  2 ^ getOrder range.2

/-- A range of whole pages lies in its block, at a multiple of the pages that it occupies. -/
structure Placed (cfg : Config) (vaStart : Nat) (range : Nat × Nat) : Prop where
  size : ∃ pages ≤ vmapMaxAlloc, range.2 = pages * pageSize
  order : getOrder range.2 ≤ 5
  start : range.1 = vaStart + pageOf vaStart range * pageSize
  aligned : pageOf vaStart range % pagesOf range = 0
  inside : pageOf vaStart range + pagesOf range ≤ cfg.bbmapBits

/-- Neither of two ranges starts in the pages of the other. -/
def Apart (range range' : Nat × Nat) : Prop :=
  range.1 + pagesOf range * pageSize ≤ range'.1 ∨ range'.1 + pagesOf range' * pageSize ≤ range.1

/-- How the maps and the counters of a block stand to each other and to the live ranges. -/
structure Bookkeeping (cfg : Config) (s : State) : Prop where
  placed : ∀ range ∈ s.live, Placed cfg s.vb.vaStart range
  aligned : ∀ range ∈ s.live, range.1 % (pagesOf range * pageSize) = 0
  apart : s.live.Pairwise Apart
  free : s.vb.free = cfg.bbmapBits - (s.vb.allocMap.ones cfg.bbmapBits).card
  dirty : s.vb.dirty = (s.vb.dirtyMap.ones cfg.bbmapBits).card
  dirtyAlloc : ∀ i < cfg.bbmapBits, s.vb.dirtyMap i = true → s.vb.allocMap i = true
  liveMaps : ∀ range ∈ s.live, ∀ i, pageOf s.vb.vaStart range ≤ i →
    i < pageOf s.vb.vaStart range + pagesOf range →
    s.vb.allocMap i = true ∧ s.vb.dirtyMap i = false
  listed : s.vb.onFree = true ↔ 0 < s.vb.free
  freed : s.vb.freed = true ↔ ∀ i < cfg.bbmapBits, s.vb.dirtyMap i = true
  gone : s.vb.freed = true → s.live = []

/-- The invariant: the block also stays where it is, in the tree as long as it is not freed. -/
structure Kept (cfg : Config) (va : Nat) (s : State) : Prop where
  book : Bookkeeping cfg s
  vaStart : s.vb.vaStart = va
  tree : s.vb.freed = false → s.vb.tree = some (addrToVbIdx cfg va)

theorem pagesOf_pos (range : Nat × Nat) : 0 < pagesOf range :=
  Nat.two_pow_pos _

instance : Std.Symm Apart :=
  ⟨fun _ _ => Or.symm⟩

theorem Kept.new (cfg : Config) (va : Nat) : Kept cfg va ⟨newVmapBlock cfg va, []⟩ := by
  have hbounds := bbmapBits_bounds cfg
  have hones : (Bitmap.ones (fun _ => false) cfg.bbmapBits).card = 0 := by
    rw [Finset.card_eq_zero, Finset.eq_empty_iff_forall_notMem]
    simp
  refine ⟨⟨nofun, nofun, List.Pairwise.nil, ?_, hones.symm, nofun, nofun, ?_, ?_, nofun⟩, rfl,
    fun _ => rfl⟩
  · rw [newVmapBlock, hones]
    rfl
  · exact iff_of_true rfl (by show 0 < cfg.bbmapBits; omega)
  · refine iff_of_false nofun ?_
    intro hall
    cases hall 0 (by omega)

/-- The outcome of `vb_alloc` on a block that keeps its books: nothing, or a clear region that
it takes. -/
theorem Kept.vbAlloc_cases (hgeo : Geometry cfg va) (h : Kept cfg va s) {pages : Nat}
    (hpages : pages ≤ vmapMaxAlloc) :
    vbAlloc cfg s.vb (pages * pageSize) = some (s.vb, none) ∨
      ∃ i order, order = getOrder (pages * pageSize) ∧ order ≤ 5 ∧ i % 2 ^ order = 0 ∧
        i + 2 ^ order ≤ cfg.bbmapBits ∧
        (∀ b, i ≤ b → b < i + 2 ^ order → s.vb.allocMap b = false) ∧ s.vb.onFree = true ∧
        vbAlloc cfg s.vb (pages * pageSize) =
          some ({ s.vb with
            allocMap := regAlloc s.vb.allocMap i order
            free := wsub s.vb.free (2 ^ order)
            onFree := if wsub s.vb.free (2 ^ order) = 0 then false else s.vb.onFree },
            some (va + i * pageSize)) := by
  have hbounds := bbmapBits_bounds cfg
  have hguard : ¬ (pages * pageSize % pageSize ≠ 0 ∨ pages * pageSize > pageSize * vmapMaxAlloc) := by
    rw [not_or, not_not, Nat.mul_mod_left, Nat.not_lt, Nat.mul_comm]
    exact ⟨rfl, Nat.mul_le_mul_left _ hpages⟩
  unfold vbAlloc
  rw [if_neg hguard]
  cases hfree : s.vb.onFree with
  | false => exact .inl rfl
  | true =>
    rw [if_pos rfl]
    cases hfind : findFreeRegion s.vb.allocMap cfg.bbmapBits (getOrder (pages * pageSize)) with
    | none => exact .inl rfl
    | some found =>
      obtain ⟨i, allocMap⟩ := found
      obtain ⟨horder, halign, hend, hclear, rfl⟩ :=
        findFreeRegion_spec hbounds.2 (getOrder_cases hpages) hfind
      have hpos := Nat.two_pow_pos (getOrder (pages * pageSize))
      have haddr : wadd va (i * pageSize) = va + i * pageSize := by
        apply wadd_eq
        have htop := hgeo.top
        have hi := Nat.mul_lt_mul_of_pos_right (show i < cfg.bbmapBits by omega)
          (show 0 < pageSize by decide)
        unfold Config.blockSize at htop
        omega
      refine .inr ⟨i, _, rfl, horder, halign, hend, hclear, rfl, ?_⟩
      dsimp only
      rw [h.vaStart, haddr, if_neg (not_not.mpr (hgeo.idx i (by omega)))]

/-- The pages of two ranges of one block whose maps tell them apart. -/
theorem apart_of_pages {range range' : Nat × Nat} (h : Placed cfg va range)
    (h' : Placed cfg va range')
    (hpages : ∀ i, pageOf va range ≤ i → i < pageOf va range + pagesOf range →
      pageOf va range' ≤ i → i < pageOf va range' + pagesOf range' → False) :
    Apart range range' := by
  have hpos := pagesOf_pos range
  have hpos' := pagesOf_pos range'
  have hsplit : pageOf va range + pagesOf range ≤ pageOf va range' ∨
      pageOf va range' + pagesOf range' ≤ pageOf va range := by
    by_contra hmeet
    rcases Nat.le_total (pageOf va range) (pageOf va range') with hle | hle
    · exact hpages _ hle (by omega) (Nat.le_refl _) (by omega)
    · exact hpages _ (Nat.le_refl _) (by omega) hle (by omega)
  unfold Apart
  rw [h.start, h'.start]
  unfold pageSize
  omega

/-- `vb_alloc` keeps the books. -/
theorem Kept.alloc (hgeo : Geometry cfg va) (h : Kept cfg va s) {pages : Nat}
    (hpages : pages ≤ vmapMaxAlloc) : ∃ s', step cfg s (.alloc pages) = some s' ∧ Kept cfg va s' := by
  have hbounds := bbmapBits_bounds cfg
  rcases h.vbAlloc_cases hgeo hpages with hnone | hsome
  · refine ⟨s, ?_, h⟩
    simp only [step, hnone]
    rfl
  obtain ⟨i, order, horder, hle, halign, hend, hclear, hlisted, heq⟩ := hsome
  have hstep : step cfg s (.alloc pages) = some
      { vb := { s.vb with
          allocMap := regAlloc s.vb.allocMap i order
          free := wsub s.vb.free (2 ^ order)
          onFree := if wsub s.vb.free (2 ^ order) = 0 then false else s.vb.onFree }
        live := (va + i * pageSize, pages * pageSize) :: s.live } := by
    rw [step, heq]
    rfl
  rw [hstep]
  refine ⟨_, rfl, ?_⟩
  obtain ⟨hbook, rfl, htree⟩ := h
  have hpos := Nat.two_pow_pos order
  -- the bits that are set now are those of the region and those that were set before
  have hmap : ∀ b, regAlloc s.vb.allocMap i order b =
      (s.vb.allocMap b || decide (i ≤ b ∧ b < i + 2 ^ order)) :=
    fun b => regAlloc_apply hle halign _ b
  have hcard := Bitmap.card_ones_or hend hclear
  rw [← funext hmap] at hcard
  have hcardLe := Bitmap.card_ones_le (regAlloc s.vb.allocMap i order) cfg.bbmapBits
  have hbefore := hbook.free
  have hfree : wsub s.vb.free (2 ^ order) = s.vb.free - 2 ^ order := by
    apply wsub_eq (by omega)
    unfold word
    omega
  have hnewPage : pageOf s.vb.vaStart (s.vb.vaStart + i * pageSize, pages * pageSize) = i := by
    rw [pageOf, Nat.add_sub_cancel_left]
    exact Nat.mul_div_cancel i (by decide)
  have hnewPages : pagesOf (s.vb.vaStart + i * pageSize, pages * pageSize) = 2 ^ order := by
    rw [pagesOf, ← horder]
  have hplaced : Placed cfg s.vb.vaStart (s.vb.vaStart + i * pageSize, pages * pageSize) := by
    refine ⟨⟨pages, hpages, rfl⟩, horder ▸ hle, ?_, ?_, ?_⟩
    · rw [hnewPage]
    · rw [hnewPage, hnewPages, halign]
    · rw [hnewPage, hnewPages]
      exact hend
  refine ⟨⟨?_, ?_, ?_, ?_, hbook.dirty, ?_, ?_, ?_, hbook.freed, ?_⟩, rfl, htree⟩
  · intro range hrange
    rcases List.mem_cons.mp hrange with rfl | hrange
    · exact hplaced
    · exact hbook.placed range hrange
  · intro range hrange
    rcases List.mem_cons.mp hrange with rfl | hrange
    · have hblock := hgeo.aligned order hle
      have hoffset : i * pageSize % (2 ^ order * pageSize) = 0 := by
        rw [Nat.mul_mod_mul_right, halign, Nat.zero_mul]
      rw [hnewPages, Nat.add_mod, hblock, hoffset]
      rfl
    · exact hbook.aligned range hrange
  · refine List.Pairwise.cons ?_ hbook.apart
    intro range hrange
    refine apart_of_pages hplaced (hbook.placed range hrange) ?_
    intro b hlo hhi hlo' hhi'
    rw [hnewPage] at hlo hhi
    rw [hnewPages] at hhi
    have hset := (hbook.liveMaps range hrange b hlo' hhi').1
    rw [hclear b hlo hhi] at hset
    cases hset
  · dsimp only
    rw [hfree, hcard]
    omega
  · intro b hb hdirty
    dsimp only
    rw [hmap, hbook.dirtyAlloc b hb hdirty, Bool.true_or]
  · intro range hrange b hlo hhi
    dsimp only at hlo hhi ⊢
    rw [hmap]
    rcases List.mem_cons.mp hrange with rfl | hrange
    · rw [hnewPage] at hlo hhi
      rw [hnewPages] at hhi
      refine ⟨?_, ?_⟩
      · rw [decide_eq_true ⟨hlo, hhi⟩, Bool.or_true]
      · cases hdirty : s.vb.dirtyMap b with
        | false => rfl
        | true =>
          have hset := hbook.dirtyAlloc b (by omega) hdirty
          rw [hclear b hlo hhi] at hset
          cases hset
    · obtain ⟨hset, hclean⟩ := hbook.liveMaps range hrange b hlo hhi
      refine ⟨?_, hclean⟩
      rw [hset, Bool.true_or]
  · dsimp only
    by_cases hzero : wsub s.vb.free (2 ^ order) = 0
    · rw [if_pos hzero, hzero]
      exact iff_of_false nofun (Nat.lt_irrefl 0)
    · rw [if_neg hzero]
      exact iff_of_true hlisted (Nat.pos_of_ne_zero hzero)
  · -- a freed block has no clear bit left
    intro hfreed
    have hset := hbook.dirtyAlloc i (by omega) (hbook.freed.mp hfreed i (by omega))
    rw [hclear i (Nat.le_refl i) (by omega)] at hset
    cases hset

/-- The pages of ranges that are apart. -/
theorem Apart.pages {range range' : Nat × Nat} (h : Apart range range') (hr : Placed cfg va range)
    (hr' : Placed cfg va range') {i : Nat} (hlo : pageOf va range ≤ i)
    (hhi : i < pageOf va range + pagesOf range) :
    ¬ (pageOf va range' ≤ i ∧ i < pageOf va range' + pagesOf range') := by
  unfold Apart at h
  rw [hr.start, hr'.start] at h
  unfold pageSize at h
  omega

/-- The books after a live range has become dirty, whatever becomes of the links. -/
theorem Bookkeeping.release (h : Bookkeeping cfg s) {range : Nat × Nat} (hrange : range ∈ s.live)
    {vb : VmapBlock} (hva : vb.vaStart = s.vb.vaStart) (halloc : vb.allocMap = s.vb.allocMap)
    (hfree : vb.free = s.vb.free) (hdirty : vb.dirty = s.vb.dirty + pagesOf range)
    (hmap : vb.dirtyMap = fun b => s.vb.dirtyMap b || decide
      (pageOf s.vb.vaStart range ≤ b ∧ b < pageOf s.vb.vaStart range + pagesOf range))
    (hlisted : vb.onFree = true ↔ 0 < vb.free)
    (hfreed : vb.freed = true ↔ vb.dirty = cfg.bbmapBits) :
    Bookkeeping cfg ⟨vb, s.live.erase range⟩ := by
  have hplaced := h.placed range hrange
  have hpos := pagesOf_pos range
  have hlive := h.liveMaps range hrange
  have hcard := Bitmap.card_ones_or hplaced.inside fun b hlo hhi => (hlive b hlo hhi).2
  rw [← hmap, ← h.dirty, ← hdirty] at hcard
  -- no range is live twice, as it would have to be apart from itself
  have hnodup : s.live.Nodup := by
    refine h.apart.imp_of_mem ?_
    intro r r' hr _ hapart heq
    subst heq
    have := pagesOf_pos r
    unfold Apart pageSize at hapart
    omega
  have hrest : ∀ r ∈ s.live.erase range, r ∈ s.live ∧ Apart r range := by
    intro r hr
    obtain ⟨hne, hr⟩ := (hnodup.mem_erase_iff).mp hr
    exact ⟨hr, h.apart.forall hr hrange hne⟩
  have hclean : ∀ r ∈ s.live.erase range, ∀ i, pageOf s.vb.vaStart r ≤ i →
      i < pageOf s.vb.vaStart r + pagesOf r → s.vb.allocMap i = true ∧ vb.dirtyMap i = false := by
    intro r hr i hlo hhi
    obtain ⟨hr, hapart⟩ := hrest r hr
    obtain ⟨hset, hclean⟩ := h.liveMaps r hr i hlo hhi
    have hout := hapart.pages (h.placed r hr) hplaced hlo hhi
    refine ⟨hset, ?_⟩
    rw [hmap]
    dsimp only
    rw [hclean, decide_eq_false hout]
    rfl
  have hall : vb.freed = true ↔ ∀ i < cfg.bbmapBits, vb.dirtyMap i = true := by
    rw [hfreed, ← hcard]
    exact Bitmap.card_ones_eq_size
  refine ⟨?_, ?_, h.apart.sublist List.erase_sublist, ?_, hcard.symm, ?_, ?_, hlisted, hall, ?_⟩
  · intro r hr
    dsimp only
    rw [hva]
    exact h.placed r (hrest r hr).1
  · intro r hr
    exact h.aligned r (hrest r hr).1
  · dsimp only
    rw [hfree, halloc]
    exact h.free
  · intro i hi hset
    dsimp only at hset ⊢
    rw [halloc]
    rw [hmap, Bool.or_eq_true, decide_eq_true_eq] at hset
    rcases hset with hset | hin
    · exact h.dirtyAlloc i hi hset
    · exact (hlive i hin.1 hin.2).1
  · dsimp only
    rw [hva, halloc]
    exact hclean
  intro hgone
  refine List.eq_nil_iff_forall_not_mem.mpr ?_
  intro r hr
  have hpos := pagesOf_pos r
  have hin := (h.placed r (hrest r hr).1).inside
  have hset := hall.mp hgone (pageOf s.vb.vaStart r) (by omega)
  rw [(hclean r hr _ (Nat.le_refl _) (by omega)).2] at hset
  cases hset

/-- `vb_free` of a live range keeps the books, and no `BUG_ON` fires. -/
theorem Kept.free (hgeo : Geometry cfg va) (h : Kept cfg va s) {range : Nat × Nat}
    (hrange : range ∈ s.live) : ∃ s', step cfg s (.free range) = some s' ∧ Kept cfg va s' := by
  have hbounds := bbmapBits_bounds cfg
  obtain ⟨hbook, rfl, htree⟩ := h
  obtain ⟨⟨pages, hpages, hsize⟩, horder, hstart, halign, hinside⟩ := hbook.placed range hrange
  have hlive := hbook.liveMaps range hrange
  have hpos := pagesOf_pos range
  have hguard : ¬ (range.2 % pageSize ≠ 0 ∨ range.2 > pageSize * vmapMaxAlloc) := by
    rw [not_or, not_not, hsize, Nat.mul_mod_left, Nat.not_lt, Nat.mul_comm]
    exact ⟨rfl, Nat.mul_le_mul_left _ hpages⟩
  have hfreed : s.vb.freed = false := by
    cases hfreed : s.vb.freed with
    | false => rfl
    | true =>
      rw [hbook.gone hfreed] at hrange
      cases hrange
  have htree := htree hfreed
  generalize hpage : pageOf s.vb.vaStart range = page at *
  have hlookup : ¬ s.vb.tree ≠ some (addrToVbIdx cfg range.1) := by
    rw [not_not, htree, hstart, hgeo.idx _ (by omega)]
  have hoffset : (range.1 &&& (cfg.blockSize - 1)) / pageSize = page := by
    rw [hstart]
    exact hgeo.offset _ (by omega)
  have hclean : ∀ b, page ≤ b → b < page + pagesOf range → s.vb.dirtyMap b = false :=
    fun b hlo hhi => (hlive b hlo hhi).2
  have hregion : allocateRegion s.vb.dirtyMap page (getOrder range.2) =
      fun b => s.vb.dirtyMap b || decide (page ≤ b ∧ b < page + pagesOf range) := by
    rw [allocateRegion, if_pos ((regIsFree_iff horder halign).mpr hclean)]
    exact funext fun b => regAlloc_apply horder halign _ b
  -- named by way of an existential, so that the kernel has no reason to compute them
  obtain ⟨dirtyMap, hmap⟩ : ∃ dirtyMap,
    dirtyMap = allocateRegion s.vb.dirtyMap page (getOrder range.2) := ⟨_, rfl⟩
  obtain ⟨dirty, hnew⟩ : ∃ dirty, dirty = s.vb.dirty + pagesOf range := ⟨_, rfl⟩
  rw [← hmap] at hregion
  have hcard := Bitmap.card_ones_or hinside hclean
  have hcardLe := Bitmap.card_ones_le dirtyMap cfg.bbmapBits
  rw [← hregion, ← hbook.dirty, ← hnew] at hcard
  have hdirty : wadd s.vb.dirty (2 ^ getOrder range.2) = dirty := by
    rw [hnew]
    apply wadd_eq
    unfold word
    unfold pagesOf at hnew
    omega
  subst hpage
  have hfreeEq : vbFree cfg s.vb range.1 range.2 =
      let vb := { s.vb with
        dirtyMap := dirtyMap
        onDirty := if s.vb.dirty = 0 then true else s.vb.onDirty
        dirty := dirty }
      if vb.dirty = cfg.bbmapBits then
        if vb.free ≠ 0 ∨ vb.onFree then none else freeVmapBlock cfg vb
      else some vb := by
    rw [vbFree, if_neg hguard, if_neg hlookup]
    dsimp only
    rw [hoffset, hdirty, hmap]
  rw [step, hfreeEq]
  dsimp only
  by_cases hfull : dirty = cfg.bbmapBits
  · -- every bit is dirty, so every bit is allocated, and the block is off its list
    have hset := Bitmap.card_ones_eq_size.mp (hcard.trans hfull)
    have hall : ∀ i, i < cfg.bbmapBits → s.vb.allocMap i = true := by
      intro i hi
      have hset := hset i hi
      rw [hregion, Bool.or_eq_true, decide_eq_true_eq] at hset
      rcases hset with hset | hin
      · exact hbook.dirtyAlloc i hi hset
      · exact (hlive i hin.1 hin.2).1
    have hzero : s.vb.free = 0 := by
      rw [hbook.free, Bitmap.card_ones_eq_size.mpr hall, Nat.sub_self]
    have honFree : s.vb.onFree = false := by
      rw [← Bool.not_eq_true, hbook.listed]
      omega
    have hbug : ¬ (s.vb.free ≠ 0 ∨ s.vb.onFree = true) := by
      rw [hzero, honFree]
      simp
    rw [if_pos hfull, if_neg hbug, freeVmapBlock, if_pos htree, Option.map_some]
    refine ⟨_, rfl, ⟨?_, rfl, nofun⟩⟩
    refine hbook.release hrange rfl rfl rfl hnew hregion ?_ (iff_of_true rfl hfull)
    exact iff_of_false nofun (by show ¬ 0 < s.vb.free; omega)
  · rw [if_neg hfull, Option.map_some]
    refine ⟨_, rfl, ⟨?_, rfl, fun _ => htree⟩⟩
    refine hbook.release hrange rfl rfl rfl hnew hregion hbook.listed ?_
    exact iff_of_false (by rw [hfreed]; nofun) hfull

/-- Every call on a block at a place with the geometry returns, and the books are kept. -/
theorem Reached.kept (hgeo : Geometry cfg va) {r : Option State} (h : Reached cfg va r) :
    ∃ s, r = some s ∧ Kept cfg va s := by
  induction h with
  | new => exact ⟨_, rfl, .new cfg va⟩
  | @call s op _ hop ih =>
    obtain ⟨s', heq, hkept⟩ := ih
    obtain rfl := Option.some.inj heq
    cases op with
    | alloc pages => exact hkept.alloc hgeo hop
    | free range => exact hkept.free hgeo hop

/-! ## Numbers of pages that are no power of two -/

/-- A number below which a power of two's bit is clear, unless one more is a power of two. -/
theorem exists_clear_bit {n : Nat} (hn : 0 < n) (h : ∀ k, n ≠ 2 ^ k) :
    ∃ p, 2 ^ p < n ∧ (n - 1).testBit p = false := by
  have hex : ∃ k, n ≤ 2 ^ k := ⟨n, Nat.lt_two_pow_self.le⟩
  by_contra hnone
  push Not at hnone
  refine h (Nat.find hex) ?_
  have hall : n - 1 = 2 ^ Nat.find hex - 1 := by
    apply Nat.eq_of_testBit_eq
    intro i
    rw [Nat.testBit_two_pow_sub_one]
    by_cases hi : i < Nat.find hex
    · have hset := hnone i (Nat.lt_of_not_le (Nat.find_min hex hi))
      rw [Bool.eq_true_of_not_eq_false hset, decide_eq_true hi]
    · have hle : n ≤ 2 ^ i := (Nat.find_spec hex).trans (Nat.pow_le_pow_right (by decide) (by omega))
      rw [Nat.testBit_lt_two_pow (by omega), decide_eq_false hi]
  have := Nat.find_spec hex
  have := Nat.two_pow_pos (Nat.find hex)
  omega

/-- The page that `vb_free` derives from an address. -/
theorem offset_page {addr p : Nat} (hbit : (cfg.bbmapBits - 1).testBit p = false) :
    (addr &&& (cfg.blockSize - 1)) / pageSize < cfg.bbmapBits ∧
      (addr &&& (cfg.blockSize - 1)) / pageSize ≠ 2 ^ p := by
  have hbounds := bbmapBits_bounds cfg
  have hsize : cfg.blockSize = cfg.bbmapBits * 4096 := rfl
  constructor
  · have hle : addr &&& (cfg.blockSize - 1) ≤ cfg.blockSize - 1 := Nat.and_le_right
    unfold pageSize
    omega
  intro heq
  have hone : ((addr &&& (cfg.blockSize - 1)) / pageSize).testBit p = true := by
    rw [heq]
    exact Nat.testBit_two_pow_self
  have hdiv : (cfg.blockSize - 1) / 2 ^ 12 = cfg.bbmapBits - 1 := by omega
  rw [show pageSize = 2 ^ 12 from rfl, Nat.testBit_div_two_pow, Nat.testBit_and,
    ← @Nat.testBit_div_two_pow 12 (cfg.blockSize - 1), hdiv, hbit, Bool.and_false] at hone
  cases hone

/-- In every run each call returns, which is that no `BUG_ON` fires, and the books are kept. -/
def KeepsBooks (cfg : Config) (va : Nat) : Prop :=
  ∀ r, Reached cfg va r → ∃ s, r = some s ∧ Bookkeeping cfg s

theorem KeepsBooks.book (h : KeepsBooks cfg va) (hs : Reached cfg va (some s)) :
    Bookkeeping cfg s := by
  obtain ⟨s', heq, hbook⟩ := h _ hs
  obtain rfl := Option.some.inj heq
  exact hbook

theorem KeepsBooks.step (h : KeepsBooks cfg va) (hs : Reached cfg va (some s)) {op : Op}
    (hop : op.Fits s) : ∃ s', step cfg s op = some s' ∧ Reached cfg va (some s') := by
  have hcall := hs.call hop
  obtain ⟨s', heq, -⟩ := h _ hcall
  exact ⟨s', heq, heq ▸ hcall⟩

/-- What `n` requests for one page lead to, if no `BUG_ON` fires. -/
structure Singles (cfg : Config) (va n : Nat) (s : State) : Prop where
  reached : Reached cfg va (some s)
  vaStart : s.vb.vaStart = va
  allocMap : ∀ b, s.vb.allocMap b = decide (b < n)
  dirtyMap : ∀ b, s.vb.dirtyMap b = false
  dirty : s.vb.dirty = 0
  live : ∀ i < n, (va + i * pageSize, pageSize) ∈ s.live

theorem getOrder_page : getOrder pageSize = 0 := by
  decide

/-- The scan for one page takes the first clear bit. -/
theorem findFreeRegion_first {n : Nat} (hm : ∀ b, m b = decide (b < n)) (hn : n < bits) :
    findFreeRegion m bits 0 = some (n, regAlloc m n 0) := by
  have hfree : ∀ pos, regIsFree m pos 0 = !decide (pos < n) := by
    intro pos
    rw [Bool.eq_iff_iff, regIsFree_iff (by decide) (Nat.mod_one _), Bool.not_eq_true',
      decide_eq_false_iff_not]
    constructor
    · intro h
      have hclear := h pos (Nat.le_refl _) (by omega)
      rw [hm, decide_eq_false_iff_not] at hclear
      exact hclear
    · intro h b hlo hhi
      rw [hm, decide_eq_false_iff_not]
      omega
  unfold findFreeRegion
  simp only [Nat.pow_zero, Nat.div_one, Nat.mul_one, List.map_id', hfree]
  have hfind : (List.range bits).find? (fun pos => !decide (pos < n)) = some n := by
    rw [List.find?_range_eq_some]
    simp [hn]
  rw [hfind]
  rfl

theorem Singles.exists (h : KeepsBooks cfg va) (htop : va + cfg.blockSize ≤ word) {n : Nat}
    (hn : n ≤ cfg.bbmapBits) : ∃ s, Singles cfg va n s := by
  induction n with
  | zero => exact ⟨_, .new, rfl, fun b => by simp [newVmapBlock], fun _ => rfl, rfl, nofun⟩
  | succ n ih =>
    obtain ⟨s, hreached, rfl, halloc, hclean, hdirty, hlive⟩ := ih (by omega)
    have hbook := h.book hreached
    have hfits : (Op.alloc 1).Fits s := by
      show 1 ≤ vmapMaxAlloc
      decide
    have honFree : s.vb.onFree = true := by
      rw [hbook.listed, hbook.free]
      have hle := Bitmap.card_ones_le s.vb.allocMap cfg.bbmapBits
      have hne : (s.vb.allocMap.ones cfg.bbmapBits).card ≠ cfg.bbmapBits := by
        rw [Ne, Bitmap.card_ones_eq_size]
        intro hall
        have hset := hall n (by omega)
        rw [halloc, decide_eq_true_eq] at hset
        exact Nat.lt_irrefl n hset
      omega
    have haddr : wadd s.vb.vaStart (n * pageSize) = s.vb.vaStart + n * pageSize := by
      apply wadd_eq
      have := Nat.mul_le_mul_right pageSize hn
      unfold Config.blockSize at htop
      unfold pageSize at *
      omega
    obtain ⟨map, hmap⟩ : ∃ map, map = regAlloc s.vb.allocMap n 0 := ⟨_, rfl⟩
    obtain ⟨free, hfree⟩ : ∃ free, free = wsub s.vb.free (2 ^ 0) := ⟨_, rfl⟩
    obtain ⟨s', hstep, hreached'⟩ := h.step hreached hfits
    have hguard : ¬ (1 * pageSize % pageSize ≠ 0 ∨ 1 * pageSize > pageSize * vmapMaxAlloc) := by
      decide
    rw [AndroidKernel.Vmap.step, vbAlloc, if_neg hguard, if_pos honFree, Nat.one_mul,
      getOrder_page, findFreeRegion_first halloc (by omega)] at hstep
    dsimp only at hstep
    rw [← hmap, ← hfree] at hstep
    have hidx : addrToVbIdx cfg (wadd s.vb.vaStart (n * pageSize)) =
        addrToVbIdx cfg s.vb.vaStart := by
      by_contra hidx
      rw [if_pos hidx] at hstep
      cases hstep
    rw [if_neg (not_not.mpr hidx), haddr, Option.map_some] at hstep
    obtain rfl := Option.some.inj hstep
    refine ⟨_, hreached', rfl, ?_, hclean, hdirty, ?_⟩
    · intro b
      dsimp only
      rw [hmap, regAlloc_apply (by decide) (Nat.mod_one n), halloc, ← Bool.decide_or]
      congr 1
      rw [Nat.pow_zero]
      apply propext
      omega
    · intro i hi
      rcases Nat.lt_succ_iff_lt_or_eq.mp hi with hi | rfl
      · exact List.mem_cons_of_mem _ (hlive i hi)
      · exact List.mem_cons_self

/-- With a number of pages that is no power of two, some `vb_free` fires a `BUG_ON` or makes a
wrong page dirty. -/
theorem not_keepsBooks (htop : va + cfg.blockSize ≤ word) (hpow : ∀ k, cfg.bbmapBits ≠ 2 ^ k) :
    ¬ KeepsBooks cfg va := by
  intro h
  have hbounds := bbmapBits_bounds cfg
  obtain ⟨p, hp, hbit⟩ := exists_clear_bit (by omega) hpow
  obtain ⟨s, hreached, rfl, halloc, hclean, hdirty, hlive⟩ :=
    Singles.exists h htop (show 2 ^ p + 1 ≤ cfg.bbmapBits by omega)
  obtain ⟨range, hrange⟩ : ∃ range, range = (s.vb.vaStart + 2 ^ p * pageSize, pageSize) := ⟨_, rfl⟩
  have hmem : range ∈ s.live := hrange ▸ hlive (2 ^ p) (Nat.lt_succ_self _)
  have hfits : (Op.free range).Fits s := hmem
  obtain ⟨s', hstep, hreached'⟩ := h.step hreached hfits
  obtain ⟨hin, hne⟩ := @offset_page cfg range.1 p hbit
  generalize hpage : (range.1 &&& (cfg.blockSize - 1)) / pageSize = page at hin hne
  have hguard : ¬ (range.2 % pageSize ≠ 0 ∨ range.2 > pageSize * vmapMaxAlloc) := by
    rw [hrange]
    show ¬ (pageSize % pageSize ≠ 0 ∨ pageSize > pageSize * vmapMaxAlloc)
    decide
  have horder : getOrder range.2 = 0 := by
    rw [hrange]
    exact getOrder_page
  have hregion : allocateRegion s.vb.dirtyMap page 0 = fun b => decide (b = page) := by
    have hfree : regIsFree s.vb.dirtyMap page 0 = true :=
      (regIsFree_iff (by decide) (Nat.mod_one _)).mpr fun b _ _ => hclean b
    funext b
    rw [allocateRegion, if_pos hfree, regAlloc_apply (by decide) (Nat.mod_one _), hclean,
      Bool.false_or, Nat.pow_zero]
    congr 1
    apply propext
    omega
  have hnotFull : ¬ wadd 0 (2 ^ 0) = cfg.bbmapBits := by
    rw [show wadd 0 (2 ^ 0) = 1 from rfl]
    omega
  have htree : s.vb.tree = some (addrToVbIdx cfg range.1) := by
    by_contra htree
    rw [step, vbFree, if_neg hguard, if_pos htree] at hstep
    cases hstep
  rw [step, vbFree, if_neg hguard, if_neg (not_not.mpr htree)] at hstep
  dsimp only at hstep
  rw [horder, hpage, hregion, hdirty, if_neg hnotFull, Option.map_some] at hstep
  obtain rfl := Option.some.inj hstep
  have hbook := h.book hreached'
  -- the page that is dirty now is one of those before the one that was given back
  have hbefore : page < 2 ^ p := by
    have hset := hbook.dirtyAlloc page hin (decide_eq_true rfl)
    dsimp only at hset
    rw [halloc, decide_eq_true_eq] at hset
    omega
  have hother : (s.vb.vaStart + page * pageSize, pageSize) ∈ s.live.erase range := by
    rw [List.mem_erase_of_ne]
    · exact hlive page (by omega)
    · rw [hrange]
      unfold pageSize
      simp only [ne_eq, Prod.mk.injEq, and_true]
      omega
  have hstart : pageOf s.vb.vaStart (s.vb.vaStart + page * pageSize, pageSize) = page := by
    rw [pageOf, Nat.add_sub_cancel_left]
    exact Nat.mul_div_cancel page (by decide)
  have hend := pagesOf_pos (s.vb.vaStart + page * pageSize, pageSize)
  have hlivePage := hbook.liveMaps _ hother page
  dsimp only at hlivePage
  have hclean := (hlivePage (Nat.le_of_eq hstart) (by omega)).2
  rw [decide_eq_false_iff_not] at hclean
  exact hclean rfl

/-- For any number of processors, the books are kept in every sequence of calls on a block exactly
when `VMAP_BBMAP_BITS` is a power of two. -/
theorem bookkeeping_iff (cfg : Config) {va : Nat} (harea : AreaFits cfg va) :
    (∀ r, Reached cfg va r → ∃ s, r = some s ∧ Bookkeeping cfg s) ↔
      ∃ k, cfg.bbmapBits = 2 ^ k := by
  constructor
  · intro h
    by_contra hpow
    push Not at hpow
    exact not_keepsBooks harea.top hpow h
  · intro h r hr
    obtain ⟨k, hk⟩ := h
    obtain ⟨s, heq, hkept⟩ := hr.kept (geometry_of_pow hk harea)
    exact ⟨s, heq, hkept.book⟩

/-- One processor, and vmalloc space from 0xD0800000 on. -/
def oneCpu : Config where
  nrCpus := 1
  vmallocStart := 0xD0800000

theorem areaFits_oneCpu : AreaFits oneCpu 0xD0800000 :=
  ⟨Nat.le_refl _, by decide, by decide⟩

theorem bookkeeping_iff_oneCpu :
    (∀ r, Reached oneCpu 0xD0800000 r → ∃ s, r = some s ∧ Bookkeeping oneCpu s) ↔
      ∃ k, oneCpu.bbmapBits = 2 ^ k :=
  bookkeeping_iff oneCpu areaFits_oneCpu

/-- Three processors, which make 682 pages of a block. -/
def threeCpus : Config where
  nrCpus := 3
  vmallocStart := 0xD0800000

/-- Of three pages taken one by one, giving back the third makes the first one dirty. -/
theorem vb_free_wrong_page :
    ¬ ∀ r, Reached threeCpus 0xD0800000 r → ∃ s, r = some s ∧ Bookkeeping threeCpus s := by
  refine not_keepsBooks (by decide) ?_
  intro k hk
  have hbits : threeCpus.bbmapBits = 682 := by decide
  have hlt : k < 10 := (Nat.pow_lt_pow_iff_right (by decide : 1 < 2)).mp (by omega)
  interval_cases k <;> omega

end AndroidKernel.Vmap
