import Mathlib.Data.Fintype.Perm

/-!
# Binary heaps in an array

Place `0` is the root and places `2 * k + 1` and `2 * k + 2` are the children of `k`; no element is
below its parent's in the order. The two repairs move one element that may be out of order: down,
by swapping it with its greatest child, or up, by swapping it with its parent. `DownHole` and
`UpHole` are their invariants. `Rearranges` says that an array holds the elements of another one.
-/

namespace AndroidKernel.Library

universe u

/-- The same elements below `n` in another order, and the same from `n` on. -/
def Rearranges {α : Type u} (n : Nat) (f g : Nat → α) : Prop :=
  ∃ σ : Equiv.Perm Nat, (∀ k, n ≤ k → σ k = k) ∧ g = f ∘ σ

namespace Rearranges

variable {α : Type u} {n m : Nat} {f g h : Nat → α}

theorem refl (n : Nat) (f : Nat → α) : Rearranges n f f :=
  ⟨Equiv.refl Nat, fun _ _ => rfl, rfl⟩

theorem trans (hfg : Rearranges n f g) (hgh : Rearranges n g h) : Rearranges n f h := by
  obtain ⟨σ, hσ, rfl⟩ := hfg
  obtain ⟨τ, hτ, rfl⟩ := hgh
  refine ⟨τ.trans σ, fun k hk => ?_, rfl⟩
  show σ (τ k) = k
  rw [hτ k hk, hσ k hk]

theorem mono (hfg : Rearranges n f g) (h : n ≤ m) : Rearranges m f g := by
  obtain ⟨σ, hσ, rfl⟩ := hfg
  exact ⟨σ, fun k hk => hσ k (Nat.le_trans h hk), rfl⟩

theorem swap (f : Nat → α) {i j : Nat} (hi : i < n) (hj : j < n) :
    Rearranges n f (f ∘ Equiv.swap i j) := by
  refine ⟨Equiv.swap i j, fun k hk => ?_, rfl⟩
  exact Equiv.swap_apply_of_ne_of_ne (by omega) (by omega)

theorem eq_of_le (hfg : Rearranges n f g) {k : Nat} (hk : n ≤ k) : g k = f k := by
  obtain ⟨σ, hσ, rfl⟩ := hfg
  exact congrArg f (hσ k hk)

/-- The permutation of a rearrangement stays below its bound. -/
theorem perm_lt {σ : Equiv.Perm Nat} (hσ : ∀ k, n ≤ k → σ k = k) {k : Nat} (hk : k < n) :
    σ k < n := by
  by_contra hge
  have hfix : σ k = k := σ.injective (hσ (σ k) (Nat.le_of_not_lt hge))
  omega

/-- Every element was below the bound before, too. -/
theorem exists_lt (hfg : Rearranges n f g) {k : Nat} (hk : k < n) : ∃ j < n, g k = f j := by
  obtain ⟨σ, hσ, rfl⟩ := hfg
  exact ⟨σ k, perm_lt hσ hk, rfl⟩

/-- The lists of the first `n` elements are permutations of each other. -/
theorem perm (hfg : Rearranges n f g) : ((List.range n).map g).Perm ((List.range n).map f) := by
  obtain ⟨σ, hσ, rfl⟩ := hfg
  rw [← List.map_map]
  refine List.Perm.map f ?_
  refine (List.perm_ext_iff_of_nodup (List.Nodup.map σ.injective List.nodup_range)
    List.nodup_range).mpr fun k => ?_
  rw [List.mem_map, List.mem_range]
  constructor
  · rintro ⟨j, hj, rfl⟩
    exact perm_lt hσ (List.mem_range.mp hj)
  · intro hk
    have hinv : ∀ j, n ≤ j → σ.symm j = j := fun j hj => by
      rw [Equiv.symm_apply_eq, hσ j hj]
    exact ⟨σ.symm k, List.mem_range.mpr (perm_lt hinv hk), σ.apply_symm_apply k⟩

end Rearranges

namespace Heaps

/-- The place of the parent; the root's is the root itself. -/
def parent (k : Nat) : Nat :=
  (k - 1) / 2

/-- `c` is one of the two children of `k`. -/
def IsChild (c k : Nat) : Prop :=
  c = 2 * k + 1 ∨ c = 2 * k + 2

theorem isChild_iff {c k : Nat} : IsChild c k ↔ 0 < c ∧ parent c = k := by
  unfold IsChild parent
  omega

theorem IsChild.lt {c k : Nat} (h : IsChild c k) : k < c := by
  unfold IsChild at h
  omega

theorem parent_lt {k : Nat} (h : 0 < k) : parent k < k := by
  unfold parent
  omega

variable {α : Type u} (le : α → α → Prop)

/-- The places `lo, …, n - 1` are in heap order: no element is below its parent's, for parents
from `lo` on. -/
def HeapFrom (f : Nat → α) (lo n : Nat) : Prop :=
  ∀ k, 0 < k → k < n → lo ≤ parent k → le (f k) (f (parent k))

/-- Heap order, except that the element of place `r` may be below one of its children's. -/
structure DownHole (f : Nat → α) (lo n r : Nat) : Prop where
  order : ∀ k, 0 < k → k < n → lo ≤ parent k → parent k ≠ r → le (f k) (f (parent k))
  children : ∀ c, IsChild c r → c < n → 0 < r → lo ≤ parent r → le (f c) (f (parent r))

/-- Heap order, except that the element of place `r` may be above its parent's. -/
structure UpHole (f : Nat → α) (n r : Nat) : Prop where
  order : ∀ k, 0 < k → k < n → k ≠ r → le (f k) (f (parent k))
  children : ∀ c, IsChild c r → c < n → 0 < r → le (f c) (f (parent r))

variable {le} {f : Nat → α} {lo n m r c : Nat}

theorem HeapFrom.shrink (h : HeapFrom le f lo n) (hm : m ≤ n) : HeapFrom le f lo m :=
  fun k hk hkm hlo => h k hk (Nat.lt_of_lt_of_le hkm hm) hlo

/-- Nothing is out of order where there are no parents. -/
theorem heapFrom_of_half (h : n ≤ 2 * lo + 1) : HeapFrom le f lo n := by
  intro k _ _ _
  unfold parent at *
  omega

/-- The root of a heap is greatest. -/
theorem HeapFrom.le_root (h : HeapFrom le f 0 n) (hrefl : ∀ a, le a a)
    (htrans : ∀ a b c, le a b → le b c → le a c) {k : Nat} (hk : k < n) : le (f k) (f 0) := by
  induction k using Nat.strongRecOn with
  | ind k ih =>
    rcases Nat.eq_zero_or_pos k with rfl | hpos
    · exact hrefl _
    · have hlt := parent_lt hpos
      exact htrans _ _ _ (h k hpos hk (Nat.zero_le _)) (ih (parent k) hlt (Nat.lt_trans hlt hk))

/-- A place before a heap is a hole of the heap that starts there. -/
theorem HeapFrom.downHole (h : HeapFrom le f (r + 1) n) : DownHole le f r n r where
  order k hk hkn hlo hne := h k hk hkn (by omega)
  children c _ _ hpos hlo := absurd (parent_lt hpos) (Nat.not_lt.mpr hlo)

/-- Writing the root of a heap makes it a hole. -/
theorem HeapFrom.downHole_root {g : Nat → α} (h : HeapFrom le f 0 n)
    (hg : ∀ k, 0 < k → k < n → g k = f k) : DownHole le g 0 n 0 where
  order k hk hkn hlo hne := by
    have hpos : 0 < parent k := Nat.pos_of_ne_zero hne
    rw [hg k hk hkn, hg (parent k) hpos (Nat.lt_trans (parent_lt hk) hkn)]
    exact h k hk hkn hlo
  children _ _ _ hpos _ := absurd hpos (Nat.lt_irrefl 0)

/-- The repair is done when the element is not below its children's. -/
theorem DownHole.stop (h : DownHole le f lo n r)
    (hchildren : ∀ c, IsChild c r → c < n → le (f c) (f r)) : HeapFrom le f lo n := by
  intro k hk hkn hlo
  by_cases hr : parent k = r
  · rw [hr]
    exact hchildren k (isChild_iff.mpr ⟨hk, hr⟩) hkn
  · exact h.order k hk hkn hlo hr

/-- One step down: the element changes places with a child that is not below it nor below its
sibling. -/
theorem DownHole.swap (h : DownHole le f lo n r) (hlo : lo ≤ r) (hc : IsChild c r) (hcn : c < n)
    (hrc : le (f r) (f c)) (hgreatest : ∀ d, IsChild d r → d < n → le (f d) (f c)) :
    DownHole le (f ∘ Equiv.swap r c) lo n c where
  order k hk hkn hlok hne := by
    have hlt := hc.lt
    simp only [Function.comp_apply]
    by_cases hkc : k = c
    · -- the child's old place: it holds the element that went down
      have hp : parent k = r := hkc ▸ (isChild_iff.mp hc).2
      rw [hp, hkc, Equiv.swap_apply_right, Equiv.swap_apply_left]
      exact hrc
    by_cases hkr : k = r
    · -- the child that went up is in order with the parent of the hole
      have hpr := parent_lt (k := r) (hkr ▸ hk)
      rw [hkr, Equiv.swap_apply_left,
        Equiv.swap_apply_of_ne_of_ne (Nat.ne_of_lt hpr) (Nat.ne_of_lt (Nat.lt_trans hpr hlt))]
      exact h.children c hc hcn (hkr ▸ hk) (hkr ▸ hlok)
    · rw [Equiv.swap_apply_of_ne_of_ne hkr hkc]
      by_cases hp : parent k = r
      · rw [hp, Equiv.swap_apply_left]
        exact hgreatest k (isChild_iff.mpr ⟨hk, hp⟩) hkn
      · rw [Equiv.swap_apply_of_ne_of_ne hp hne]
        exact h.order k hk hkn hlok hp
  children d hd hdn _ _ := by
    have hp := (isChild_iff.mp hc).2
    have hrd := Nat.lt_trans hc.lt hd.lt
    obtain ⟨hdpos, hdp⟩ := isChild_iff.mp hd
    simp only [Function.comp_apply, hp]
    rw [Equiv.swap_apply_left,
      Equiv.swap_apply_of_ne_of_ne (Nat.ne_of_gt hrd) (Nat.ne_of_gt hd.lt)]
    have hord := h.order d hdpos hdn (hdp ▸ Nat.le_trans hlo (Nat.le_of_lt hc.lt))
      (hdp ▸ Nat.ne_of_gt hc.lt)
    rw [hdp] at hord
    exact hord

/-- A new last element is a hole of the heap. -/
theorem HeapFrom.upHole {g : Nat → α} (h : HeapFrom le f 0 n) (hg : ∀ k, k < n → g k = f k) :
    UpHole le g (n + 1) n where
  order k hk hkn hne := by
    have hlt : k < n := by omega
    rw [hg k hlt, hg (parent k) (Nat.lt_trans (parent_lt hk) hlt)]
    exact h k hk hlt (Nat.zero_le _)
  children c hc hcn _ := by
    have := hc.lt
    omega

/-- The repair is done at the root, or when the element is not above its parent's. -/
theorem UpHole.stop (h : UpHole le f n r) (hstop : 0 < r → le (f r) (f (parent r))) :
    HeapFrom le f 0 n := by
  intro k hk hkn _
  by_cases hr : k = r
  · exact hr ▸ hstop (hr ▸ hk)
  · exact h.order k hk hkn hr

/-- One step up: the element changes places with its parent's, which is not above it. -/
theorem UpHole.swap (h : UpHole le f n r) (htrans : ∀ a b c, le a b → le b c → le a c)
    (hpos : 0 < r) (hrn : r < n) (hle : le (f (parent r)) (f r)) :
    UpHole le (f ∘ Equiv.swap r (parent r)) n (parent r) where
  order k hk hkn hne := by
    have hlt := parent_lt hpos
    simp only [Function.comp_apply]
    by_cases hkr : k = r
    · rw [hkr, Equiv.swap_apply_left, Equiv.swap_apply_right]
      exact hle
    rw [Equiv.swap_apply_of_ne_of_ne hkr hne]
    by_cases hp : parent k = r
    · -- the children of the hole are in order with the parent that came down
      rw [hp, Equiv.swap_apply_left]
      exact h.children k (isChild_iff.mpr ⟨hk, hp⟩) hkn hpos
    · by_cases hq : parent k = parent r
      · rw [hq, Equiv.swap_apply_right]
        have hord := h.order k hk hkn hkr
        rw [hq] at hord
        exact htrans _ _ _ hord hle
      · rw [Equiv.swap_apply_of_ne_of_ne hp hq]
        exact h.order k hk hkn hkr
  children c hc hcn hppos := by
    have hlt := parent_lt hpos
    have hpp := parent_lt hppos
    obtain ⟨hcpos, hcp⟩ := isChild_iff.mp hc
    have hup := h.order (parent r) hppos (Nat.lt_trans hlt hrn) (Nat.ne_of_lt hlt)
    simp only [Function.comp_apply]
    rw [Equiv.swap_apply_of_ne_of_ne (Nat.ne_of_lt (Nat.lt_trans hpp hlt)) (Nat.ne_of_lt hpp)]
    by_cases hcr : c = r
    · rw [hcr, Equiv.swap_apply_left]
      exact hup
    · rw [Equiv.swap_apply_of_ne_of_ne hcr (Nat.ne_of_gt hc.lt)]
      have hord := h.order c hcpos hcn hcr
      rw [hcp] at hord
      exact htrans _ _ _ hord hup

end Heaps

end AndroidKernel.Library
