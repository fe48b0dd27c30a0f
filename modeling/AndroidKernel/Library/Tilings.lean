import Mathlib.Data.Nat.Bitwise
import Mathlib.Tactic.Ring

/-!
# Tilings of an interval by consecutive blocks

`Tiles size lo hi blocks` says that the blocks, each `[block, block + size block)`, follow one
another from `lo` to `hi` without a gap. Two neighbours may be fused and one block cut in two.
A dyadic block has a power of two as its size and starts at a multiple of it; its buddy is
the other half of the dyadic block twice as large.
-/

namespace AndroidKernel.Library

variable {size size' order : Nat → Nat} {lo hi n : Nat} {blocks : List Nat}

/-- The blocks cover `[lo, hi)` in order, none of them empty. -/
def Tiles (size : Nat → Nat) : Nat → Nat → List Nat → Prop
  | lo, hi, [] => lo = hi
  | lo, hi, block :: blocks => block = lo ∧ 0 < size block ∧ Tiles size (lo + size block) hi blocks

theorem tiles_append {first second : List Nat} :
    Tiles size lo hi (first ++ second) ↔
      ∃ mid, Tiles size lo mid first ∧ Tiles size mid hi second := by
  induction first generalizing lo with
  | nil => simp [Tiles]
  | cons block first ih => simp only [List.cons_append, Tiles, ih, exists_and_left, and_assoc]

/-- A tiling runs upwards. -/
theorem Tiles.le (h : Tiles size lo hi blocks) : lo ≤ hi := by
  induction blocks generalizing lo with
  | nil => exact h.le
  | cons block blocks ih => exact (Nat.le_add_right _ _).trans (ih h.2.2)

/-- Every block is non-empty and lies inside the interval. -/
theorem Tiles.bounds (h : Tiles size lo hi blocks) {block : Nat} (hmem : block ∈ blocks) :
    lo ≤ block ∧ 0 < size block ∧ block + size block ≤ hi := by
  induction blocks generalizing lo with
  | nil => exact absurd hmem List.not_mem_nil
  | cons first blocks ih =>
    obtain ⟨rfl, hpos, hrest⟩ := h
    rcases List.mem_cons.mp hmem with rfl | hmem
    · exact ⟨le_rfl, hpos, hrest.le⟩
    · have hbounds := ih hrest hmem
      exact ⟨by omega, hbounds.2⟩

/-- A tiling depends on the sizes of its own blocks only. -/
theorem Tiles.congr (h : Tiles size lo hi blocks)
    (hsize : ∀ block ∈ blocks, size' block = size block) : Tiles size' lo hi blocks := by
  induction blocks generalizing lo with
  | nil => exact h
  | cons first blocks ih =>
    obtain ⟨hfirst, hpos, hrest⟩ := h
    have heq := hsize first List.mem_cons_self
    refine ⟨hfirst, heq ▸ hpos, ?_⟩
    rw [heq]
    exact ih hrest fun block hmem => hsize block (List.mem_cons_of_mem _ hmem)

/-- Every point of the interval lies in a block. -/
theorem Tiles.covers (h : Tiles size lo hi blocks) {point : Nat} (hlo : lo ≤ point)
    (hhi : point < hi) : ∃ block ∈ blocks, block ≤ point ∧ point < block + size block := by
  induction blocks generalizing lo with
  | nil =>
    have : lo = hi := h
    omega
  | cons first blocks ih =>
    obtain ⟨rfl, -, hrest⟩ := h
    by_cases hin : point < first + size first
    · exact ⟨first, List.mem_cons_self, hlo, hin⟩
    · obtain ⟨block, hmem, hpoint⟩ := ih hrest (Nat.le_of_not_lt hin)
      exact ⟨block, List.mem_cons_of_mem _ hmem, hpoint⟩

/-- A tiling seen from one of its blocks. -/
theorem Tiles.split_at (h : Tiles size lo hi blocks) {block : Nat} (hmem : block ∈ blocks) :
    ∃ before after, blocks = before ++ block :: after ∧ Tiles size lo block before ∧
      0 < size block ∧ Tiles size (block + size block) hi after := by
  obtain ⟨before, after, rfl⟩ := List.append_of_mem hmem
  obtain ⟨mid, hbefore, rfl, hpos, hafter⟩ := tiles_append.mp h
  exact ⟨before, after, rfl, hbefore, hpos, hafter⟩

/-- Of two blocks one ends before the other starts. -/
theorem Tiles.disjoint (h : Tiles size lo hi blocks) {first second : Nat}
    (hfirst : first ∈ blocks) (hsecond : second ∈ blocks) (hlt : first < second) :
    first + size first ≤ second := by
  obtain ⟨before, after, rfl, hbefore, -, hafter⟩ := h.split_at hfirst
  rcases List.mem_append.mp hsecond with hmem | hmem
  · have := hbefore.bounds hmem
    omega
  · rcases List.mem_cons.mp hmem with rfl | hmem
    · omega
    · exact (hafter.bounds hmem).1

/-- A point in a block is in no other: the block is determined by it. -/
theorem Tiles.unique (h : Tiles size lo hi blocks) {first second point : Nat}
    (hfirst : first ∈ blocks) (hsecond : second ∈ blocks)
    (hin : first ≤ point ∧ point < first + size first)
    (hin' : second ≤ point ∧ point < second + size second) : first = second := by
  rcases Nat.lt_trichotomy first second with hlt | heq | hgt
  · have := h.disjoint hfirst hsecond hlt
    omega
  · exact heq
  · have := h.disjoint hsecond hfirst hgt
    omega

/-- Two neighbouring blocks may be replaced by one of their joint size. -/
theorem Tiles.merge (h : Tiles size lo hi blocks) {block : Nat} (hmem : block ∈ blocks)
    (hnext : block + size block ∈ blocks)
    (hjoint : size' block = size block + size (block + size block))
    (hsame : ∀ other ∈ blocks, other ≠ block → other ≠ block + size block →
      size' other = size other) :
    ∃ merged, Tiles size' lo hi merged ∧
      ∀ other, other ∈ merged ↔ other ∈ blocks ∧ other ≠ block + size block := by
  obtain ⟨before, after, rfl, hbefore, hpos, hafter⟩ := h.split_at hmem
  -- the neighbour heads what follows: everything before it starts too low
  have hin : block + size block ∈ after := by
    rcases List.mem_append.mp hnext with hin | hin
    · have := hbefore.bounds hin
      omega
    · rcases List.mem_cons.mp hin with heq | hin
      · omega
      · exact hin
  cases after with
  | nil => exact absurd hin List.not_mem_nil
  | cons neighbour after =>
    obtain ⟨rfl, hpos', hrest⟩ := hafter
    have hlow : ∀ other ∈ before, other ≠ block ∧ other ≠ block + size block := by
      intro other hother
      have := hbefore.bounds hother
      omega
    have hhigh : ∀ other ∈ after, other ≠ block ∧ other ≠ block + size block := by
      intro other hother
      have := hrest.bounds hother
      omega
    refine ⟨before ++ block :: after, tiles_append.mpr ⟨block, ?_, rfl, ?_, ?_⟩, ?_⟩
    · exact hbefore.congr fun other hother =>
        hsame other (by simp [hother]) (hlow other hother).1 (hlow other hother).2
    · omega
    · rw [hjoint, ← Nat.add_assoc]
      exact hrest.congr fun other hother =>
        hsame other (by simp [hother]) (hhigh other hother).1 (hhigh other hother).2
    intro other
    simp only [List.mem_append, List.mem_cons]
    constructor
    · rintro (hother | rfl | hother)
      · exact ⟨.inl hother, (hlow other hother).2⟩
      · exact ⟨.inr (.inl rfl), by omega⟩
      · exact ⟨.inr (.inr (.inr hother)), (hhigh other hother).2⟩
    · tauto

/-- A block may be cut in two. -/
theorem Tiles.split (h : Tiles size lo hi blocks) {block : Nat} (hmem : block ∈ blocks)
    (hfirst : 0 < size' block) (hsecond : 0 < size' (block + size' block))
    (hjoint : size' block + size' (block + size' block) = size block)
    (hsame : ∀ other ∈ blocks, other ≠ block → size' other = size other) :
    ∃ cut, Tiles size' lo hi cut ∧
      ∀ other, other ∈ cut ↔ other ∈ blocks ∨ other = block + size' block := by
  obtain ⟨before, after, rfl, hbefore, -, hafter⟩ := h.split_at hmem
  refine ⟨before ++ block :: (block + size' block) :: after,
    tiles_append.mpr ⟨block, ?_, rfl, hfirst, rfl, hsecond, ?_⟩, ?_⟩
  · refine hbefore.congr fun other hother => hsame other (by simp [hother]) ?_
    have := hbefore.bounds hother
    omega
  · rw [Nat.add_assoc, hjoint]
    refine hafter.congr fun other hother => hsame other (by simp [hother]) ?_
    have := hafter.bounds hother
    omega
  · intro other
    simp only [List.mem_append, List.mem_cons]
    tauto

/-- Flipping bit `k` of a multiple of `2 ^ (k + 1)` moves to the upper half. -/
theorem xor_two_pow_of_dvd {c k : Nat} (h : 2 ^ (k + 1) ∣ c) : c ^^^ 2 ^ k = c + 2 ^ k := by
  obtain ⟨m, rfl⟩ := h
  have heven : Even (2 * m) := even_two_mul m
  calc 2 ^ (k + 1) * m ^^^ 2 ^ k = (2 * m) <<< k ^^^ 1 <<< k := by
        rw [Nat.shiftLeft_eq, Nat.shiftLeft_eq, one_mul, pow_succ]
        ring_nf
    _ = (2 * m ^^^ 1) <<< k := (Nat.shiftLeft_xor_distrib).symm
    _ = 2 ^ (k + 1) * m + 2 ^ k := by
        rw [Nat.xor_one_of_even heven, Nat.shiftLeft_eq, pow_succ]
        ring

/-- A block of size `2 ^ k` and its buddy are the two halves of a dyadic block. -/
theorem buddy_cases {c k : Nat} (h : 2 ^ k ∣ c) :
    ∃ pair, 2 ^ (k + 1) ∣ pair ∧
      (c = pair ∧ c ^^^ 2 ^ k = pair + 2 ^ k ∨ c = pair + 2 ^ k ∧ c ^^^ 2 ^ k = pair) := by
  obtain ⟨m, rfl⟩ := h
  rcases Nat.even_or_odd' m with ⟨q, rfl | rfl⟩
  · have hpair : 2 ^ k * (2 * q) = 2 ^ (k + 1) * q := by rw [pow_succ, mul_assoc]
    rw [hpair]
    exact ⟨2 ^ (k + 1) * q, ⟨q, rfl⟩, .inl ⟨rfl, xor_two_pow_of_dvd ⟨q, rfl⟩⟩⟩
  · have hpair : 2 ^ k * (2 * q + 1) = 2 ^ (k + 1) * q + 2 ^ k := by
      rw [pow_succ]
      ring
    refine ⟨2 ^ (k + 1) * q, ⟨q, rfl⟩, .inr ⟨hpair, ?_⟩⟩
    rw [hpair, ← xor_two_pow_of_dvd ⟨q, rfl⟩, Nat.xor_xor_cancel_right]

/-- A dyadic block that starts before the end of a larger one ends before it. -/
theorem dyadic_end_le {a b j k : Nat} (ha : 2 ^ j ∣ a) (hb : 2 ^ k ∣ b) (hjk : j ≤ k)
    (hlt : a < b + 2 ^ k) : a + 2 ^ j ≤ b + 2 ^ k := by
  have hend : 2 ^ j ∣ b + 2 ^ k :=
    Nat.dvd_add ((pow_dvd_pow 2 hjk).trans hb) (pow_dvd_pow 2 hjk)
  obtain ⟨p, rfl⟩ := ha
  obtain ⟨q, hq⟩ := hend
  rw [hq] at hlt ⊢
  have hpq : p + 1 ≤ q := Nat.lt_of_mul_lt_mul_left hlt
  exact (Nat.mul_le_mul_left (2 ^ j) hpq : 2 ^ j * (p + 1) ≤ 2 ^ j * q)

/-- Dyadic blocks that meet are nested, the smaller in the larger. -/
theorem dyadic_nested {a b j k : Nat} (ha : 2 ^ j ∣ a) (hb : 2 ^ k ∣ b) (hjk : j ≤ k)
    (hlt : a < b + 2 ^ k) (hlt' : b < a + 2 ^ j) : b ≤ a ∧ a + 2 ^ j ≤ b + 2 ^ k := by
  have hstart := dyadic_end_le ((pow_dvd_pow 2 hjk).trans hb) ha le_rfl hlt'
  exact ⟨by omega, dyadic_end_le ha hb hjk hlt⟩

/-- In a tiling by dyadic blocks the place of a block's buddy is the start of a block: a larger
block over it would hold the first block too, and a smaller one cannot start below it and reach
over its start. -/
theorem Tiles.buddy_mem (h : Tiles (fun block => 2 ^ order block) 0 n blocks)
    (haligned : ∀ block ∈ blocks, 2 ^ order block ∣ block) {block : Nat} (hmem : block ∈ blocks)
    (hlt : block ^^^ 2 ^ order block < n) : block ^^^ 2 ^ order block ∈ blocks := by
  obtain ⟨other, hother, hin⟩ := h.covers (Nat.zero_le _) hlt
  obtain ⟨pair, hpair, hcases⟩ := buddy_cases (haligned block hmem)
  have hhalf := Nat.two_pow_pos (order block)
  have hdouble : 2 ^ (order block + 1) = 2 * 2 ^ order block := Nat.pow_succ'
  by_cases hlarge : order block + 1 ≤ order other
  · have hnested := dyadic_nested hpair (haligned other hother) hlarge (by omega) (by omega)
    have heq := h.unique hmem hother ⟨le_rfl, by omega⟩ (by omega : other ≤ block ∧ _)
    rw [heq] at hlarge
    omega
  have hsmall : order other ≤ order block := by omega
  have hbuddy : 2 ^ order block ∣ (block ^^^ 2 ^ order block) := by
    have hdvd := (pow_dvd_pow 2 (Nat.le_succ (order block))).trans hpair
    rcases hcases with ⟨-, heq⟩ | ⟨-, heq⟩
    · exact heq ▸ Nat.dvd_add hdvd dvd_rfl
    · exact heq ▸ hdvd
  have hnested := dyadic_nested (haligned other hother) hbuddy hsmall (by omega) hin.2
  have heq : block ^^^ 2 ^ order block = other := by omega
  exact heq ▸ hother

/-!
## Ordered disjoint pieces of an interval

`Packed start len lo hi items` says that the items, each spanning `len` points from `start`, are
non-empty, follow one another upwards without overlap, and lie in `[lo, hi)`. Pieces whose
lengths sum up to the length of the interval leave no gap.
-/

universe u

variable {Item : Type u} {start len : Item → Nat} {lo hi : Nat} {items : List Item}

/-- Non-empty pieces in ascending order, disjoint, inside `[lo, hi)`. -/
def Packed (start len : Item → Nat) : Nat → Nat → List Item → Prop
  | lo, hi, [] => lo ≤ hi
  | lo, hi, item :: items =>
    lo ≤ start item ∧ 0 < len item ∧ Packed start len (start item + len item) hi items

/-- The end of the last piece, or the lower bound if there is none. -/
def lastEnd (start len : Item → Nat) (lo : Nat) (items : List Item) : Nat :=
  match items.getLast? with
  | none => lo
  | some item => start item + len item

/-- The points the pieces span. -/
def totalLen (len : Item → Nat) (items : List Item) : Nat := (items.map len).sum

@[simp] theorem totalLen_nil : totalLen len ([] : List Item) = 0 := rfl

@[simp] theorem totalLen_cons (item : Item) (items : List Item) :
    totalLen len (item :: items) = len item + totalLen len items := by
  simp [totalLen]

@[simp] theorem totalLen_append (first second : List Item) :
    totalLen len (first ++ second) = totalLen len first + totalLen len second := by
  simp [totalLen]

theorem lastEnd_cons (item : Item) (items : List Item) :
    lastEnd start len lo (item :: items) = lastEnd start len (start item + len item) items := by
  cases hlast : items.getLast? with
  | none => simp [lastEnd, List.getLast?_eq_none_iff.mp hlast]
  | some last => simp [lastEnd, List.getLast?_cons, hlast]

/-- A packing fits in a larger interval. -/
theorem Packed.mono {lo' hi' : Nat} (h : Packed start len lo hi items) (hlo : lo' ≤ lo)
    (hhi : hi ≤ hi') : Packed start len lo' hi' items := by
  induction items generalizing lo lo' with
  | nil => exact Nat.le_trans hlo (Nat.le_trans h hhi)
  | cons item items ih => exact ⟨Nat.le_trans hlo h.1, h.2.1, ih h.2.2 (Nat.le_refl _)⟩

/-- The pieces leave room for no more than their lengths. -/
theorem Packed.total_le (h : Packed start len lo hi items) : lo + totalLen len items ≤ hi := by
  induction items generalizing lo with
  | nil => exact h
  | cons item items ih =>
    have hrest := ih h.2.2
    have hlo := h.1
    rw [totalLen_cons]
    omega

/-- A packing in two parts: the second starts after the last piece of the first. -/
theorem packed_append {first second : List Item} :
    Packed start len lo hi (first ++ second) ↔
      Packed start len lo (lastEnd start len lo first) first ∧
        Packed start len (lastEnd start len lo first) hi second := by
  induction first generalizing lo with
  | nil => simp [Packed, lastEnd]
  | cons item first ih =>
    simp only [List.cons_append, Packed, ih, lastEnd_cons, and_assoc]

/-- Every piece is non-empty and lies in the interval. -/
theorem Packed.bounds (h : Packed start len lo hi items) {item : Item} (hmem : item ∈ items) :
    lo ≤ start item ∧ 0 < len item ∧ start item + len item ≤ hi := by
  induction items generalizing lo with
  | nil => exact absurd hmem List.not_mem_nil
  | cons first items ih =>
    rcases List.mem_cons.mp hmem with rfl | hmem
    · have hrest := h.2.2.total_le
      exact ⟨h.1, h.2.1, by omega⟩
    · have hbounds := ih h.2.2 hmem
      have hlo := h.1
      exact ⟨by omega, hbounds.2⟩

/-- Of two pieces the earlier one ends before the later one starts. -/
theorem Packed.pairwise (h : Packed start len lo hi items) :
    items.Pairwise fun first second => start first + len first ≤ start second := by
  induction items generalizing lo with
  | nil => exact .nil
  | cons first items ih =>
    exact .cons (fun second hmem => (h.2.2.bounds hmem).1) (ih h.2.2)

/-- Pieces as long together as the interval leave no gap. -/
theorem Packed.covers (h : Packed start len lo hi items) (hfull : lo + totalLen len items = hi)
    {point : Nat} (hlo : lo ≤ point) (hhi : point < hi) :
    ∃ item ∈ items, start item ≤ point ∧ point < start item + len item := by
  induction items generalizing lo with
  | nil =>
    rw [totalLen_nil] at hfull
    omega
  | cons first items ih =>
    obtain ⟨hfirst, hpos, hrest⟩ := h
    have htotal := hrest.total_le
    rw [totalLen_cons] at hfull
    by_cases hin : point < start first + len first
    · exact ⟨first, List.mem_cons_self, by omega, hin⟩
    · obtain ⟨item, hmem, hpoint⟩ := ih hrest (by omega) (Nat.le_of_not_lt hin)
      exact ⟨item, List.mem_cons_of_mem _ hmem, hpoint⟩

/-- Without a gap, a point of a piece lies as far into the joined pieces as into the interval. -/
theorem Packed.join_getElem? {Point : Type u} {points : Item → List Point}
    (h : Packed start (fun item => (points item).length) lo hi items)
    (hfull : lo + totalLen (fun item => (points item).length) items = hi) {index : Nat}
    {point : Point} (hget : (items.flatMap points)[index]? = some point) :
    ∃ item ∈ items, ∃ inner, start item + inner = lo + index ∧
      (points item)[inner]? = some point := by
  induction items generalizing lo index with
  | nil => simp at hget
  | cons first items ih =>
    obtain ⟨hfirst, hpos, hrest⟩ := h
    have htotal := hrest.total_le
    rw [totalLen_cons] at hfull
    rw [List.flatMap_cons] at hget
    beta_reduce at hpos hrest htotal hfull
    by_cases hin : index < (points first).length
    · rw [List.getElem?_append_left hin] at hget
      exact ⟨first, List.mem_cons_self, index, by omega, hget⟩
    · rw [List.getElem?_append_right (Nat.le_of_not_lt hin)] at hget
      obtain ⟨item, hmem, inner, hinner, hpoint⟩ := ih hrest (by omega) hget
      exact ⟨item, List.mem_cons_of_mem _ hmem, inner, by omega, hpoint⟩

end AndroidKernel.Library
