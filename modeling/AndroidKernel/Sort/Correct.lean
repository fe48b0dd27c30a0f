import AndroidKernel.Library.Heaps
import AndroidKernel.Sort.Model

/-!
# The heapsort sorts

For an array whose offsets fit an `int`, the inner loops are the repair of a heap of elements: the
first outer loop makes the whole array a heap, and the second one moves the greatest element of a
shrinking heap to its end. The main theorem of the module is `sort_spec`.
-/

/-!
## The swaps of the heapsort

Where the byte count of the array fits an `int`, the conversions of `sort` change no offset of the
array, and each of its swap functions exchanges two elements.
-/

namespace AndroidKernel.Sort

open Library Exec

namespace Call

variable {call : Call} {mem : Mem} {a b k : Nat}

/-- The array is one whose offsets fit an `int`. -/
structure Fits (call : Call) : Prop where
  width : 32 ≤ call.w
  pos : 0 < call.size
  elem : call.size < 2 ^ 31
  bytes : call.num * call.size < 2 ^ 31

/-- The swap function of the caller, if any, exchanges two elements of the array. -/
def Exchanges (call : Call) : Prop :=
  ∀ swapFunc, call.swapFunc = some swapFunc → ∀ (mem : Mem) (i j : Nat), i < call.num →
    j < call.num → i ≠ j →
    swapFunc mem ((i * call.size : Nat) : Int) ((j * call.size : Nat) : Int) (int call.size) =
      .ok (exchange mem (i * call.size) (j * call.size) call.size)

theorem two_pow_le (hw : 32 ≤ call.w) : (2 : Int) ^ 32 ≤ 2 ^ call.w := by
  have h := Nat.pow_le_pow_right Nat.two_pos hw
  exact_mod_cast h

theorem sizeT_eq (hw : 32 ≤ call.w) {x : Int} (hlo : 0 ≤ x) (hhi : x < 2 ^ 32) :
    call.sizeT x = x :=
  Int.emod_eq_of_lt hlo (Int.lt_of_lt_of_le hhi (two_pow_le hw))

theorem addr_eq (hw : 32 ≤ call.w) (ha : a < 2 ^ 32) : call.addr a = a := by
  rw [addr, sizeT_eq hw (Int.natCast_nonneg a) (by exact_mod_cast ha), Int.toNat_natCast]

/-- Only the low 32 bits of a `size_t` are left in an `int`. -/
theorem int_sizeT (hw : 32 ≤ call.w) (x : Int) : int (call.sizeT x) = int x := by
  have hdvd : 2 ^ 32 ∣ 2 ^ call.w := Nat.pow_dvd_pow 2 hw
  have hcast : call.sizeT x = x % ((2 ^ call.w : Nat) : Int) := by
    rw [sizeT, Int.natCast_pow]
    rfl
  unfold int
  rw [hcast, ← Int.bmod_bmod_of_dvd hdvd, Int.emod_bmod, Int.bmod_bmod_of_dvd hdvd]

theorem load_eq (hw : 32 ≤ call.w) (ha : a + k ≤ call.num * call.size)
    (hbytes : call.num * call.size < 2 ^ 32) : call.load mem a k = .ok (read mem a k) := by
  have haddr : call.addr a = a := addr_eq hw (by omega)
  rw [load, haddr, if_pos ha]

theorem store_eq (hw : 32 ≤ call.w) {bytes : List Byte}
    (ha : a + bytes.length ≤ call.num * call.size) (hbytes : call.num * call.size < 2 ^ 32) :
    call.store mem a bytes = .ok (write mem a bytes) := by
  have haddr : call.addr a = a := addr_eq hw (by omega)
  rw [store, haddr, if_pos ha]

theorem swapUnit_eq (hw : 32 ≤ call.w) (hbytes : call.num * call.size < 2 ^ 32)
    (ha : a + k ≤ call.num * call.size) (hb : b + k ≤ call.num * call.size)
    (hdisjoint : a + k ≤ b ∨ b + k ≤ a) :
    call.swapUnit k mem a b = .ok (exchange mem a b k) := by
  unfold swapUnit
  rw [load_eq hw ha hbytes, load_eq hw hb hbytes]
  rw [ok_bind, ok_bind, store_eq hw (by rw [length_read]; exact ha) hbytes, ok_bind,
    store_eq hw (by rw [length_read]; exact hb) hbytes, write_write_read mem hdisjoint]

theorem genericSwapLoop_eq (hw : 32 ≤ call.w) (hbytes : call.num * call.size < 2 ^ 32)
    (left : Nat) (ha : a + (left + 1) ≤ call.num * call.size)
    (hb : b + (left + 1) ≤ call.num * call.size)
    (hdisjoint : a + (left + 1) ≤ b ∨ b + (left + 1) ≤ a) :
    call.genericSwapLoop left mem a b = .ok (exchange mem a b (left + 1)) := by
  induction left generalizing mem a b with
  | zero => exact swapUnit_eq hw hbytes ha hb hdisjoint
  | succ left ih =>
    rw [genericSwapLoop, swapUnit_eq hw hbytes (by omega) (by omega) (by omega), ok_bind]
    show call.genericSwapLoop left _ ((a + 1 : Nat) : Int) ((b + 1 : Nat) : Int) = _
    rw [ih (by omega) (by omega) (by omega), exchange_add mem 1 (left + 1) (by omega),
      Nat.add_comm 1]

/-- An element below the end fits the array. -/
theorem elem_le {i : Nat} (hi : i < call.num) :
    i * call.size + call.size ≤ call.num * call.size := by
  rw [← Nat.succ_mul]
  exact Nat.mul_le_mul_right _ hi

theorem elem_disjoint {i j : Nat} (hij : i ≠ j) (size : Nat) :
    i * size + size ≤ j * size ∨ j * size + size ≤ i * size := by
  rw [← Nat.succ_mul, ← Nat.succ_mul]
  rcases Nat.lt_or_gt_of_ne hij with h | h
  · exact .inl (Nat.mul_le_mul_right _ h)
  · exact .inr (Nat.mul_le_mul_right _ h)

/-- Whichever swap function is used, it exchanges the two elements. -/
theorem swap_eq (hfits : call.Fits) (hswap : call.Exchanges) {i j : Nat} (hi : i < call.num)
    (hj : j < call.num) (hij : i ≠ j) :
    call.swap mem ((i * call.size : Nat) : Int) ((j * call.size : Nat) : Int) =
      .ok (exchange mem (i * call.size) (j * call.size) call.size) := by
  have hw := hfits.width
  have hbytes : call.num * call.size < 2 ^ 32 := Nat.lt_trans hfits.bytes (by omega)
  have hidx := elem_le hi
  have hjdx := elem_le hj
  have hdisjoint := elem_disjoint hij call.size
  unfold swap
  cases hs : call.swapFunc with
  | some swapFunc => exact hswap swapFunc hs mem i j hi hj hij
  | none =>
    dsimp only
    by_cases hfour : call.size = 4
    · rw [if_pos hfour, u32Swap]
      refine (swapUnit_eq hw hbytes ?_ ?_ ?_).trans (by rw [hfour])
      · omega
      · omega
      · omega
    have hpos := hfits.pos
    have helem := hfits.elem
    have hint : int (call.size : Int) = call.size := int_eq (by omega) (by omega)
    have hleft : ((call.size : Int) - 1).toNat + 1 = call.size := by omega
    rw [if_neg hfour, genericSwap, hint]
    refine (genericSwapLoop_eq hw hbytes _ ?_ ?_ ?_).trans (by rw [hleft])
    · omega
    · omega
    · omega

/-- The elements of the array, by their index. -/
def elem (call : Call) (mem : Mem) (k : Nat) : List Byte :=
  read mem (k * call.size) call.size

/-- Exchanging the bytes of two elements exchanges the elements. -/
theorem elem_exchange (mem : Mem) {i j : Nat} (hij : i ≠ j) :
    call.elem (exchange mem (i * call.size) (j * call.size) call.size) =
      call.elem mem ∘ Equiv.swap i j := by
  have hdisjoint := elem_disjoint hij call.size
  funext k
  simp only [elem, Function.comp_apply]
  by_cases hi : k = i
  · rw [hi, Equiv.swap_apply_left, read_exchange_left]
  · by_cases hj : k = j
    · rw [hj, Equiv.swap_apply_right, read_exchange_right _ hdisjoint]
    · rw [Equiv.swap_apply_of_ne_of_ne hi hj]
      exact read_exchange_of_disjoint (elem_disjoint hi call.size) (elem_disjoint hj call.size)

end Call

open Library Library.Heaps Exec

/-- The comparison function is one of a total preorder: `cmp a b ≤ 0` says that `a` is at most
`b`. -/
structure Orders (cmp : List Byte → List Byte → Int) : Prop where
  total : ∀ a b, cmp a b ≤ 0 ↔ 0 ≤ cmp b a
  trans : ∀ a b c, cmp a b ≤ 0 → cmp b c ≤ 0 → cmp a c ≤ 0

/-- The order of a comparison function. -/
def AtMost (cmp : List Byte → List Byte → Int) (a b : List Byte) : Prop :=
  cmp a b ≤ 0

theorem Orders.refl {cmp : List Byte → List Byte → Int} (h : Orders cmp) (a : List Byte) :
    AtMost cmp a a := by
  unfold AtMost
  have := h.total a a
  omega

namespace Call

/-- The offset of an element. -/
def off (call : Call) (k : Nat) : Int :=
  ((k * call.size : Nat) : Int)

variable (call : Call)

theorem off_zero : call.off 0 = 0 := by
  rw [off, Nat.zero_mul]
  rfl

theorem off_succ (k : Nat) : call.off (k + 1) = call.off k + call.size := by
  rw [off, Nat.succ_mul, Int.natCast_add]
  rfl

theorem off_child (k : Nat) : call.off k * 2 + call.size = call.off (2 * k + 1) := by
  rw [off_succ]
  unfold off
  rw [Nat.mul_assoc, Int.natCast_mul 2, Int.mul_comm]
  rfl

theorem off_nonneg (k : Nat) : 0 ≤ call.off k :=
  Int.natCast_nonneg _

theorem off_mono {j k : Nat} (h : j ≤ k) : call.off j ≤ call.off k :=
  Int.ofNat_le.mpr (Nat.mul_le_mul_right _ h)

variable {call} {mem : Mem} {j k m lo : Nat}

theorem off_lt_off (hpos : 0 < call.size) : call.off j < call.off k ↔ j < k := by
  rw [off, off, Int.ofNat_lt]
  exact Nat.mul_lt_mul_right hpos

theorem off_lt (hfits : call.Fits) (hk : k ≤ call.num) : call.off k < 2 ^ 31 := by
  have h := Nat.lt_of_le_of_lt (Nat.mul_le_mul_right call.size hk) hfits.bytes
  show ((k * call.size : Nat) : Int) < 2 ^ 31
  exact_mod_cast h

theorem int_off (hfits : call.Fits) (hk : k ≤ call.num) : int (call.off k) = call.off k := by
  have h := call.off_nonneg k
  exact int_eq (by omega) (off_lt hfits hk)

theorem sizeT_off (hfits : call.Fits) (hk : k ≤ call.num) :
    call.sizeT (call.off k) = call.off k := by
  have h := off_lt hfits hk
  exact sizeT_eq hfits.width (call.off_nonneg k) (by omega)

/-- The test of the inner loops finds out whether the element has a child, also where doubling its
offset overflows. -/
theorem sift_test (hfits : call.Fits) (hm : m ≤ call.num) (hk : k < m) :
    call.sizeT (int (call.off k * 2) + call.size) < call.sizeT (call.off m) ↔ 2 * k + 1 < m := by
  have hlt := off_lt hfits hm
  have hnext := call.off_mono hk
  have hnonneg := call.off_nonneg k
  have hpos := hfits.pos
  rw [off_succ] at hnext
  rw [sizeT_off hfits hm, ← off_lt_off hpos, ← off_child]
  by_cases hwrap : call.off k * 2 < 2 ^ 31
  · rw [int_eq (by omega) hwrap, sizeT_eq hfits.width (by omega) (by omega)]
  -- the overflow makes the left side negative, and so a great `size_t`
  have hint : int (call.off k * 2) = call.off k * 2 - 2 ^ 32 := by
    unfold int
    rw [Int.bmod_eq_iff (by omega)]
    omega
  have hpow := two_pow_le hfits.width
  have hsize : call.sizeT (call.off k * 2 - 2 ^ 32 + call.size) =
      call.off k * 2 - 2 ^ 32 + call.size + 2 ^ call.w := by
    unfold sizeT
    rw [← Int.add_emod_right]
    exact Int.emod_eq_of_lt (by omega) (by omega)
  rw [hint, hsize]
  omega

theorem compare_eq (hw : 32 ≤ call.w) (hbytes : call.num * call.size < 2 ^ 32) {i j : Nat}
    (hi : i < call.num) (hj : j < call.num) :
    call.compare mem (call.off i) (call.off j) =
      .ok (call.cmpFunc (call.elem mem i) (call.elem mem j)) := by
  unfold compare off
  rw [load_eq hw (elem_le hi) hbytes, load_eq hw (elem_le hj) hbytes]
  rfl

theorem Fits.bytes_lt (hfits : call.Fits) : call.num * call.size < 2 ^ 32 :=
  Nat.lt_trans hfits.bytes (Nat.pow_lt_pow_right Nat.one_lt_two (Nat.lt_succ_self 31))

/-- The child that the inner loop goes on with is the greater one. -/
theorem child_eq (mem : Mem) (hfits : call.Fits) (hcmp : Orders call.cmpFunc) (hm : m ≤ call.num)
    (hk : 2 * k + 1 < m) :
    ∃ c, call.child mem (call.off m) (call.off k) = .ok (call.off c) ∧ IsChild c k ∧ c < m ∧
      ∀ d, IsChild d k → d < m →
        AtMost call.cmpFunc (call.elem mem d) (call.elem mem c) := by
  have hc : int (int (call.off k * 2) + call.size) = call.off (2 * k + 1) := by
    have hlt := off_lt hfits (show 2 * k + 1 ≤ call.num by omega)
    have hchild := call.off_child k
    have hnonneg := call.off_nonneg k
    rw [@int_eq (call.off k * 2) (by omega) (by omega), hchild]
    exact int_off hfits (by omega)
  have hlast : call.off m - call.size = call.off (m - 1) := by
    obtain ⟨j, rfl⟩ := Nat.exists_eq_succ_of_ne_zero (n := m) (by omega)
    rw [Nat.succ_sub_one, Nat.succ_eq_add_one, off_succ, Int.add_sub_cancel]
  unfold child
  dsimp only
  rw [hc, hlast, sizeT_off hfits (by omega), sizeT_off hfits (by omega), ← off_succ]
  by_cases hright : 2 * k + 1 < m - 1
  · rw [if_pos ((off_lt_off hfits.pos).mpr hright),
      compare_eq hfits.width hfits.bytes_lt (by omega) (by omega), ok_bind]
    by_cases horder : call.cmpFunc (call.elem mem (2 * k + 1)) (call.elem mem (2 * k + 1 + 1)) < 0
    · refine ⟨2 * k + 2, ?_, .inr rfl, by omega, ?_⟩
      · rw [if_pos horder]
        exact congrArg Except.ok (int_off hfits (by omega))
      · rintro d (rfl | rfl) _
        · exact Int.le_of_lt horder
        · exact hcmp.refl _
    · refine ⟨2 * k + 1, ?_, .inl rfl, hk, ?_⟩
      · rw [if_neg horder]
        rfl
      · rintro d (rfl | rfl) _
        · exact hcmp.refl _
        · exact (hcmp.total _ _).mpr (Int.not_lt.mp horder)
  · rw [if_neg fun h => hright ((off_lt_off hfits.pos).mp h)]
    refine ⟨2 * k + 1, rfl, .inl rfl, hk, ?_⟩
    rintro d (rfl | rfl) hd
    · exact hcmp.refl _
    · omega

/-- The inner loop repairs a heap in which one element may be out of order. -/
theorem sift_spec (hfits : call.Fits) (hswap : call.Exchanges) (hcmp : Orders call.cmpFunc)
    (hm : m ≤ call.num) (hlo : lo ≤ k) (hk : k < m)
    (hole : DownHole (AtMost call.cmpFunc) (call.elem mem) lo m k) (fuel : Nat)
    (hfuel : m - k < fuel + 1) :
    ∃ mem', call.sift (call.off m) (fuel + 1) mem (call.off k) = .ok mem' ∧
      HeapFrom (AtMost call.cmpFunc) (call.elem mem') lo m ∧
      Rearranges m (call.elem mem) (call.elem mem') := by
  induction fuel generalizing mem k with
  | zero => omega
  | succ fuel ih =>
    rw [sift]
    by_cases htest : 2 * k + 1 < m
    · rw [if_pos ((sift_test hfits hm hk).mpr htest)]
      obtain ⟨c, hchild, hc, hcm, hgreatest⟩ := child_eq mem hfits hcmp hm htest
      rw [hchild, ok_bind, compare_eq hfits.width hfits.bytes_lt (by omega) (by omega),
        ok_bind]
      by_cases horder : 0 ≤ call.cmpFunc (call.elem mem k) (call.elem mem c)
      · -- the element is not below its greater child
        rw [if_pos horder]
        refine ⟨mem, rfl, hole.stop fun d hd hdm => ?_, Rearranges.refl m _⟩
        exact hcmp.trans _ _ _ (hgreatest d hd hdm) ((hcmp.total _ _).mpr horder)
      have hlt := hc.lt
      have hkc : k ≠ c := Nat.ne_of_lt hlt
      rw [if_neg horder]
      rw [off, off, swap_eq hfits hswap (by omega) (by omega) hkc, ok_bind]
      have hnext := hole.swap hlo hc hcm (Int.le_of_lt (Int.not_le.mp horder)) hgreatest
      have hsame := Rearranges.swap (call.elem mem) hk hcm
      rw [← elem_exchange mem hkc] at hnext hsame
      obtain ⟨mem', hrun, hheap, hrest⟩ := ih (by omega) hcm hnext (by omega)
      exact ⟨mem', hrun, hheap, hsame.trans hrest⟩
    · rw [if_neg fun h => htest ((sift_test hfits hm hk).mp h)]
      refine ⟨mem, rfl, hole.stop fun d hd hdm => ?_, Rearranges.refl m _⟩
      unfold IsChild at hd
      omega

/-- An element back from the first, the counter of an outer loop is negative and the loop ends. -/
theorem int_before (hfits : call.Fits) : int (call.sizeT (-call.size)) = -call.size := by
  have helem := hfits.elem
  rw [int_sizeT hfits.width]
  exact int_eq (by omega) (by omega)

/-- `i -= size` goes an element back. -/
theorem int_pred (hfits : call.Fits) (hk : k ≤ call.num) :
    int (call.sizeT (call.off (k + 1) - call.size)) = call.off k := by
  rw [off_succ, Int.add_sub_cancel, int_sizeT hfits.width, int_off hfits hk]

/-- The first outer loop, with `k` elements to go, ends with a heap. -/
theorem heapify_spec (hfits : call.Fits) (hswap : call.Exchanges) (hcmp : Orders call.cmpFunc)
    (hk : k < call.num)
    (hheap : HeapFrom (AtMost call.cmpFunc) (call.elem mem) (k + 1) call.num) (fuel : Nat)
    (hfuel : call.num + 1 + k < fuel) :
    ∃ mem', call.heapify (call.off call.num) fuel mem (call.off k) = .ok mem' ∧
      HeapFrom (AtMost call.cmpFunc) (call.elem mem') 0 call.num ∧
      Rearranges call.num (call.elem mem) (call.elem mem') := by
  induction k generalizing mem fuel with
  | zero =>
    obtain ⟨fuel, rfl⟩ : ∃ f, fuel = f + 1 + 1 := ⟨fuel - 2, by omega⟩
    obtain ⟨mem', hrun, hheap', hsame⟩ :=
      sift_spec hfits hswap hcmp (Nat.le_refl _) (Nat.le_refl _) hk hheap.downHole
        fuel (by omega)
    refine ⟨mem', ?_, hheap', hsame⟩
    rw [heapify, if_pos (call.off_nonneg 0), hrun, ok_bind, off_zero, Int.zero_sub,
      int_before hfits, heapify, if_neg]
    · rfl
    · have hpos := hfits.pos
      omega
  | succ k ih =>
    obtain ⟨fuel, rfl⟩ : ∃ f, fuel = f + 1 + 1 := ⟨fuel - 2, by omega⟩
    obtain ⟨mem', hrun, hheap', hsame⟩ :=
      sift_spec hfits hswap hcmp (Nat.le_refl _) (Nat.le_refl _) hk hheap.downHole
        fuel (by omega)
    obtain ⟨mem'', hrest, hheap'', hsame'⟩ :=
      ih (by omega) hheap' (fuel + 1) (by omega)
    refine ⟨mem'', ?_, hheap'', hsame.trans hsame'⟩
    rw [heapify, if_pos (call.off_nonneg (k + 1)), hrun, ok_bind,
      int_pred hfits (by omega)]
    exact hrest

/-- From `m` on the elements are in order and at least those before. -/
def SortedFrom (call : Call) (mem : Mem) (m : Nat) : Prop :=
  ∀ i j, i < j → m ≤ j → j < call.num →
    AtMost call.cmpFunc (call.elem mem i) (call.elem mem j)

/-- The second outer loop, with a heap of `k + 1` elements, ends with the array in order. -/
theorem extract_spec (hfits : call.Fits) (hswap : call.Exchanges) (hcmp : Orders call.cmpFunc)
    (hk : k < call.num) (hheap : HeapFrom (AtMost call.cmpFunc) (call.elem mem) 0 (k + 1))
    (hsorted : call.SortedFrom mem (k + 1)) (fuel : Nat)
    (hfuel : call.num + 1 + k < fuel) :
    ∃ mem', call.extract fuel mem (call.off k) = .ok mem' ∧ call.SortedFrom mem' 0 ∧
      Rearranges call.num (call.elem mem) (call.elem mem') := by
  induction k generalizing mem fuel with
  | zero =>
    obtain ⟨fuel, rfl⟩ : ∃ f, fuel = f + 1 := ⟨fuel - 1, by omega⟩
    refine ⟨mem, ?_, fun i j hij _ hj => hsorted i j hij (by omega) hj, Rearranges.refl _ _⟩
    rw [extract, off_zero, if_neg (Int.lt_irrefl 0)]
    rfl
  | succ k ih =>
    obtain ⟨fuel, rfl⟩ : ∃ f, fuel = f + 1 + 1 := ⟨fuel - 2, by omega⟩
    have hne : 0 ≠ k + 1 := Nat.succ_ne_zero k |>.symm
    have hpos : 0 < call.off (k + 1) :=
      call.off_zero ▸ (off_lt_off hfits.pos).mpr (Nat.succ_pos k)
    have hswapped := @swap_eq _ mem hfits hswap 0 (k + 1) (by omega) hk hne
    have helem := @elem_exchange call mem 0 (k + 1) hne
    have hsame := Rearranges.swap (n := k + 1 + 1) (call.elem mem) (Nat.succ_pos (k + 1))
      (Nat.lt_succ_self (k + 1))
    rw [← helem] at hsame
    generalize exchange mem (0 * call.size) ((k + 1) * call.size) call.size = mem₁
      at hswapped helem hsame
    -- the root is at the end of the heap now, and the heap is an element shorter
    have hroot : call.elem mem₁ (k + 1) = call.elem mem 0 := by
      rw [helem, Function.comp_apply, Equiv.swap_apply_right]
    have hhole : DownHole (AtMost call.cmpFunc) (call.elem mem₁) 0 (k + 1) 0 := by
      refine (hheap.shrink (Nat.le_succ (k + 1))).downHole_root fun j hj hjk => ?_
      rw [helem, Function.comp_apply,
        Equiv.swap_apply_of_ne_of_ne (Nat.ne_of_gt hj) (Nat.ne_of_lt hjk)]
    obtain ⟨mem₂, hrun, hheap₂, hsame₂⟩ := sift_spec hfits hswap hcmp (Nat.le_of_lt hk)
      (Nat.le_refl 0) (Nat.succ_pos k) hhole fuel (by omega)
    have hall := hsame.trans (hsame₂.mono (Nat.le_succ (k + 1)))
    have hsorted₂ : call.SortedFrom mem₂ (k + 1) := by
      intro i j hij hkj hj
      by_cases hlast : j = k + 1
      · -- the old root is at least what is left of the heap
        obtain ⟨i', hi', hfrom⟩ := hall.exists_lt (k := i) (by omega)
        rw [hlast, hsame₂.eq_of_le (Nat.le_refl (k + 1)), hroot, hfrom]
        exact hheap.le_root hcmp.refl hcmp.trans hi'
      · rw [hall.eq_of_le (k := j) (by omega)]
        by_cases hi : i < k + 1 + 1
        · obtain ⟨i', hi', hfrom⟩ := hall.exists_lt hi
          rw [hfrom]
          exact hsorted i' j (by omega) (by omega) hj
        · rw [hall.eq_of_le (k := i) (by omega)]
          exact hsorted i j hij (by omega) hj
    obtain ⟨mem₃, hrest, hsorted₃, hsame₃⟩ :=
      ih (by omega) hheap₂ hsorted₂ (fuel + 1) (by omega)
    refine ⟨mem₃, ?_, hsorted₃, (hall.mono hk).trans hsame₃⟩
    rw [← off, ← off, off_zero] at hswapped
    rw [off_zero] at hrun
    rw [extract, if_pos hpos, hswapped, ok_bind, hrun, ok_bind, int_pred hfits (by omega)]
    exact hrest

/-- The elements of the array, in order. -/
def elements (call : Call) (mem : Mem) : List (List Byte) :=
  (List.range call.num).map (call.elem mem)

/-- What a caller expects of `sort`: it is over some time, the elements are the old ones in
non-decreasing order, and no byte after the array has changed. -/
def Sorts (call : Call) (mem : Mem) : Prop :=
  ∃ fuel mem', call.sort fuel mem = .ok mem' ∧
    (call.elements mem').Pairwise (AtMost call.cmpFunc) ∧
    (call.elements mem').Perm (call.elements mem) ∧
    ∀ a, call.num * call.size ≤ a → mem' a = mem a

/-- A byte is a byte of the element that its offset divided by the element size gives. -/
theorem elem_getElem (mem : Mem) (hpos : 0 < call.size) (a : Nat) :
    (call.elem mem (a / call.size))[a % call.size]? = some (mem a) := by
  have hlt := Nat.mod_lt a hpos
  rw [elem, Library.read, List.getElem?_map, List.getElem?_range hlt, Option.map_some,
    Nat.mul_comm, Nat.div_add_mod]

/-- A sorted rearrangement of the elements is what the caller expects. -/
theorem sorts_of_run (hpos : 0 < call.size) {mem' : Mem} {fuel : Nat}
    (hrun : call.sort fuel mem = .ok mem') (hsorted : call.SortedFrom mem' 0)
    (hsame : Rearranges call.num (call.elem mem) (call.elem mem')) : call.Sorts mem := by
  refine ⟨fuel, mem', hrun, ?_, hsame.perm, fun a ha => ?_⟩
  · refine List.pairwise_map.mpr (List.pairwise_iff_getElem.mpr fun i j hi hj hij => ?_)
    rw [List.length_range] at hj
    rw [List.getElem_range, List.getElem_range]
    exact hsorted i j hij (Nat.zero_le j) hj
  · have hle : call.num ≤ a / call.size := (Nat.le_div_iff_mul_le hpos).mpr ha
    have helem := elem_getElem mem' hpos a
    rw [hsame.eq_of_le hle, elem_getElem mem hpos] at helem
    exact (Option.some.inj helem).symm

/-- The counter of the first loop starts at the last element that has a child, if any. -/
theorem heapify_start (hfits : call.Fits) :
    int (call.sizeT (((call.num / 2 : Nat) - 1 : Int) * call.size)) =
      if call.num < 2 then -(call.size : Int) else call.off (call.num / 2 - 1) := by
  rw [int_sizeT hfits.width]
  by_cases hnum : call.num < 2
  · have hhalf : call.num / 2 = 0 := Nat.div_eq_of_lt hnum
    have helem := hfits.elem
    have hminus : ((0 : Nat) - 1 : Int) * call.size = -call.size := by
      omega
    rw [if_pos hnum, hhalf, hminus]
    exact int_eq (by omega) (by omega)
  · have hcast : ((call.num / 2 : Nat) - 1 : Int) = ((call.num / 2 - 1 : Nat) : Int) := by
      omega
    rw [if_neg hnum, hcast, ← Int.natCast_mul]
    exact int_off hfits (by omega)

/-- `sort` is correct for every array whose offsets fit an `int`. -/
theorem sort_spec (hfits : call.Fits) (hswap : call.Exchanges) (hcmp : Orders call.cmpFunc)
    (mem : Mem) : call.Sorts mem := by
  have hpos := hfits.pos
  -- the first loop makes the array a heap
  have hheapify : ∃ mem', call.heapify (call.off call.num) (2 * call.num + 2) mem
        (int (call.sizeT (((call.num / 2 : Nat) - 1 : Int) * call.size))) = .ok mem' ∧
      HeapFrom (AtMost call.cmpFunc) (call.elem mem') 0 call.num ∧
      Rearranges call.num (call.elem mem) (call.elem mem') := by
    rw [heapify_start hfits]
    by_cases hnum : call.num < 2
    · refine ⟨mem, ?_, heapFrom_of_half (by omega), Rearranges.refl _ _⟩
      rw [if_pos hnum, heapify, if_neg (by omega)]
      rfl
    · rw [if_neg hnum]
      refine heapify_spec hfits hswap hcmp (by omega) ?_ _ (by omega)
      exact heapFrom_of_half (by omega)
  obtain ⟨mem₁, hrun₁, hheap, hsame₁⟩ := hheapify
  have hsort : call.sort (2 * call.num + 2) mem = call.extract (2 * call.num + 2) mem₁
      (int (call.sizeT (call.off call.num - call.size))) := by
    unfold sort
    dsimp only
    rw [int_sizeT hfits.width (call.num * call.size : Int), ← Int.natCast_mul, ← off,
      int_off hfits (Nat.le_refl _), hrun₁, ok_bind]
  rcases Nat.eq_zero_or_pos call.num with hzero | hnum
  · -- without elements, the second loop does nothing
    have hrun : call.sort (2 * call.num + 2) mem = .ok mem₁ := by
      rw [hsort, hzero, off_zero, Int.zero_sub, int_before hfits, extract, if_neg (by omega)]
      rfl
    exact sorts_of_run hpos hrun (fun i j _ _ hj => by omega) hsame₁
  · obtain ⟨k, hk⟩ : ∃ k, call.num = k + 1 := ⟨call.num - 1, by omega⟩
    obtain ⟨mem₂, hrun₂, hsorted, hsame₂⟩ := extract_spec hfits hswap hcmp (by omega)
      (hk ▸ hheap) (fun i j _ hkj hj => by omega) (2 * call.num + 2) (by omega)
    refine sorts_of_run hpos (hsort.trans ?_) hsorted (hsame₁.trans hsame₂)
    rw [hk, int_pred hfits (by omega), ← hk]
    exact hrun₂

end Call

end AndroidKernel.Sort
