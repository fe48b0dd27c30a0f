import AndroidKernel.Sort.Correct

/-!
# The sizes for which the heapsort is right

`sort` takes two `size_t`s and keeps products of them in `int`s. The module finds out for exactly
which sizes of array it is right: a zero element size makes the first outer loop go round for ever,
and with 2 ^ 31 bytes or more the truncated end of the array leads the loops astray. The main
theorem is `sort_correct_iff`.
-/

namespace AndroidKernel.Sort

open Library Library.Heaps Exec

/-- `sort` is right for all arrays of `num` elements of `size` bytes: for every comparison function
of a total preorder, every swap function that does its work and every content. -/
def Correct (w num size : Nat) : Prop :=
  ∀ cmpFunc swapFunc mem, Orders cmpFunc → (Call.mk w num size cmpFunc swapFunc).Exchanges →
    (Call.mk w num size cmpFunc swapFunc).Sorts mem

/-- Elements compared by their first bytes. -/
def headOrder (x y : List Byte) : Int :=
  ((x.headD 0).toNat : Int) - (y.headD 0).toNat

theorem orders_headOrder : Orders headOrder where
  total _ _ := by
    unfold headOrder
    omega
  trans _ _ _ := by
    unfold headOrder
    omega

/-- A swap function that is careful: it exchanges two elements, and faults on anything else. -/
def elementSwap (num size : Nat) (mem : Mem) (a b : Int) (_ : Int) : Exec Mem :=
  if 0 ≤ a ∧ 0 ≤ b ∧ a ≠ b ∧ a.toNat % size = 0 ∧ b.toNat % size = 0 ∧ a.toNat / size < num ∧
      b.toNat / size < num then
    .ok (exchange mem a.toNat b.toNat size)
  else
    .error .fault

/-- A call with the careful swap function, on elements compared by their first bytes. -/
def headCall (w num size : Nat) : Call :=
  ⟨w, num, size, headOrder, some (elementSwap num size)⟩

theorem exchanges_headCall {w num size : Nat} (hpos : 0 < size) :
    (headCall w num size).Exchanges := by
  rintro _ ⟨⟩ mem i j hi hj hij
  show elementSwap num size mem ((i * size : Nat) : Int) ((j * size : Nat) : Int) _ =
    .ok (exchange mem (i * size) (j * size) size)
  unfold elementSwap
  rw [Int.toNat_natCast, Int.toNat_natCast, Nat.mul_mod_left, Nat.mul_mod_left,
    Nat.mul_div_cancel _ hpos, Nat.mul_div_cancel _ hpos, if_pos]
  refine ⟨Int.natCast_nonneg _, Int.natCast_nonneg _, fun heq => hij ?_, rfl, rfl, hi, hj⟩
  exact Nat.eq_of_mul_eq_mul_right hpos (Int.ofNat_inj.mp heq)

theorem Correct.headCall {w num size : Nat} (h : Correct w num size) (hpos : 0 < size)
    (mem : Mem) : (headCall w num size).Sorts mem :=
  h _ _ mem orders_headOrder (exchanges_headCall hpos)

theorem headD_elem {w num size : Nat} (hpos : 0 < size) (mem : Mem) (k : Nat) :
    (((headCall w num size).elem mem k).headD 0) = mem (k * size) := by
  obtain ⟨s, rfl⟩ := Nat.exists_eq_succ_of_ne_zero (Nat.ne_of_gt hpos)
  show (Library.read mem (k * (s + 1)) (s + 1)).headD 0 = _
  rw [Library.read, List.range_succ_eq_map]
  rfl

/-! ## Sizes that leave nothing in an `int` -/

section Stuck

variable {call : Call}

theorem int_mul_size (hsize : call.size % 2 ^ 32 = 0) (x : Int) : int (x * call.size) = 0 := by
  have hdvd : ((2 ^ 32 : Nat) : Int) ∣ (call.size : Int) :=
    Int.natCast_dvd_natCast.mpr (Nat.dvd_of_mod_eq_zero hsize)
  exact Int.bmod_eq_zero_of_dvd (Int.dvd_mul_of_dvd_right hdvd)

/-- The first loop is at the base of the array for ever. -/
theorem heapify_stuck (hw : 32 ≤ call.w) (hsize : call.size % 2 ^ 32 = 0) (fuel : Nat)
    (mem : Mem) : call.heapify 0 fuel mem 0 = .error .unfinished := by
  induction fuel with
  | zero => rfl
  | succ fuel ih =>
    have hstay : int (call.sizeT (0 - call.size)) = 0 := by
      rw [Call.int_sizeT hw, Int.zero_sub, Int.neg_eq_neg_one_mul]
      exact int_mul_size hsize (-1)
    rw [Call.heapify, if_pos (Int.le_refl 0), hstay]
    cases fuel with
    | zero => rfl
    | succ fuel =>
      have hsift : call.sift 0 (fuel + 1) mem 0 = .ok mem := by
        have hnonneg : 0 ≤ call.sizeT (int (0 * 2) + call.size) :=
          Int.emod_nonneg _ (Int.ne_of_gt (Int.pow_pos (by omega)))
        have hzero : call.sizeT 0 = 0 := Int.zero_emod _
        rw [Call.sift, hzero, if_neg (Int.not_lt.mpr hnonneg)]
        rfl
      rw [hsift, ok_bind]
      exact ih

/-- So `sort` does not come to an end. -/
theorem not_sorts_of_stuck (hw : 32 ≤ call.w) (hsize : call.size % 2 ^ 32 = 0) (mem : Mem) :
    ¬ call.Sorts mem := by
  rintro ⟨fuel, mem', hrun, -⟩
  unfold Call.sort at hrun
  dsimp only at hrun
  rw [Call.int_sizeT hw, Call.int_sizeT hw, int_mul_size hsize, int_mul_size hsize,
    heapify_stuck hw hsize] at hrun
  cases hrun

end Stuck

/-! ## No elements, or one -/

section Few

variable {call : Call}

theorem load_fault {mem : Mem} {a : Int} {k : Nat} (h : call.num * call.size < call.addr a + k) :
    call.load mem a k = .error .fault := by
  rw [Call.load, if_neg (by omega)]

/-- The loops have nothing to do. -/
theorem sorts_few (hw : 32 ≤ call.w) (hnum : call.num ≤ 1) (hlo : 1 ≤ call.size % 2 ^ 32)
    (hhi : call.size % 2 ^ 32 ≤ 2 ^ 31) (mem : Mem) : call.Sorts mem := by
  have hhalf : call.num / 2 = 0 := Nat.div_eq_of_lt (by omega)
  have hback : int (-(call.size : Int)) < 0 := by
    rcases int_cases (-(call.size : Int)) with h | h
    · omega
    · omega
  have hrun : call.sort 1 mem = .ok mem := by
    have hstart : ((0 : Nat) - 1 : Int) * call.size = -call.size := by
      omega
    have hlast : int (int (call.num * call.size : Int) - call.size) ≤ 0 := by
      have hcases : (call.num : Int) * call.size = 0 ∨
          (call.num : Int) * call.size = call.size := by
        rcases Nat.le_one_iff_eq_zero_or_eq_one.mp hnum with h | h
        · exact .inl (by rw [h]; exact Int.zero_mul _)
        · exact .inr (by rw [h]; exact Int.one_mul _)
      rcases hcases with h | h
      · rw [h, show int 0 = 0 from rfl, Int.zero_sub]
        exact Int.le_of_lt hback
      · rw [h]
        unfold int
        rw [Int.bmod_sub_bmod, Int.sub_self]
        decide
    unfold Call.sort
    dsimp only
    rw [Call.int_sizeT hw, Call.int_sizeT hw, Call.int_sizeT hw, hhalf, hstart, Call.heapify,
      if_neg (Int.not_le.mpr hback), pure_bind, Call.extract, if_neg (Int.not_lt.mpr hlast)]
    rfl
  refine ⟨1, mem, hrun, ?_, List.Perm.refl _, fun _ _ => rfl⟩
  unfold Call.elements
  rcases Nat.le_one_iff_eq_zero_or_eq_one.mp hnum with h | h
  · rw [h]
    exact List.Pairwise.nil
  · rw [h]
    exact List.pairwise_singleton _ _

/-- Going back from the base of the array by such an element size leads into the array. -/
theorem int_neg_size (h : 2 ^ 31 < call.size % 2 ^ 32) :
    int (-(call.size : Int)) = 2 ^ 32 - (call.size % 2 ^ 32 : Nat) := by
  rcases int_cases (-(call.size : Int)) with h' | h'
  · omega
  · omega

theorem extract_ne_ok {i : Int} (hi : 0 < i)
    (hswap : ∀ mem, call.swap mem 0 i = .error .fault) (fuel : Nat) (mem mem' : Mem) :
    call.extract fuel mem i ≠ .ok mem' := by
  intro h
  cases fuel with
  | zero => cases h
  | succ fuel =>
    rw [Call.extract, if_pos hi, hswap] at h
    cases h

theorem heapify_ne_ok {n i : Int} {mem : Mem} (hi : 0 ≤ i)
    (hsift : ∀ fuel mem', call.sift n fuel mem i ≠ .ok mem') (fuel : Nat) (mem' : Mem) :
    call.heapify n fuel mem i ≠ .ok mem' := by
  intro h
  cases fuel with
  | zero => cases h
  | succ fuel =>
    rw [Call.heapify, if_pos hi] at h
    obtain ⟨mem₁, hrun, -⟩ := bind_eq_ok h
    exact hsift fuel mem₁ hrun

/-- Without elements, the second loop swaps two of them. -/
theorem not_sorts_none {w size : Nat} (hw : 32 ≤ w) (hsize : 2 ^ 31 < size % 2 ^ 32)
    (mem : Mem) : ¬ (headCall w 0 size).Sorts mem := by
  rintro ⟨fuel, mem', hrun, -⟩
  unfold Call.sort at hrun
  obtain ⟨mem₁, -, hextract⟩ := bind_eq_ok hrun
  have hlast : int ((headCall w 0 size).sizeT (int ((headCall w 0 size).sizeT
      (((headCall w 0 size).num : Int) * (headCall w 0 size).size)) - (headCall w 0 size).size)) =
      int (-((headCall w 0 size).size : Int)) := by
    have hzero : ((headCall w 0 size).num : Int) * (headCall w 0 size).size = 0 := Int.zero_mul _
    rw [Call.int_sizeT hw, Call.int_sizeT hw, hzero, show int 0 = 0 from rfl, Int.zero_sub]
  rw [hlast] at hextract
  refine extract_ne_ok ?_ (fun mem => ?_) fuel mem₁ mem' hextract
  · rw [int_neg_size hsize]
    omega
  · show elementSwap 0 size mem 0 (int (-(size : Int))) (int size) = _
    rw [elementSwap, if_neg]
    rintro ⟨-, -, -, -, -, hlt, -⟩
    exact Nat.not_lt_zero _ hlt

theorem sizeT_64 (hw : call.w = 64) (x : Int) : call.sizeT x = x % 2 ^ 64 := by
  rw [Call.sizeT, hw]

/-- With one element, the first loop looks for a second one. -/
theorem not_sorts_one (hw : call.w = 64) (hnum : call.num = 1) (hobject : call.size < 2 ^ 63)
    (hsize : 2 ^ 31 < call.size % 2 ^ 32) (mem : Mem) : ¬ call.Sorts mem := by
  rintro ⟨fuel, mem', hrun, -⟩
  unfold Call.sort at hrun
  obtain ⟨mem₁, hheapify, -⟩ := bind_eq_ok hrun
  have h32 : 32 ≤ call.w := by omega
  have hback := int_neg_size hsize
  have hstart : (((call.num / 2 : Nat) - 1 : Int) * call.size) = -call.size := by
    rw [hnum]
    omega
  have hend : int (call.num * call.size : Int) = (call.size % 2 ^ 32 : Nat) - 2 ^ 32 := by
    rw [hnum]
    rcases int_cases (((1 : Nat) : Int) * call.size) with h | h
    · omega
    · omega
  rw [Call.int_sizeT h32, Call.int_sizeT h32, hstart, hback, hend] at hheapify
  refine heapify_ne_ok (by omega) (fun fuel mem₂ hsift => ?_) fuel mem₁ hheapify
  cases fuel with
  | zero => cases hsift
  | succ fuel =>
    generalize ht : (2 ^ 32 : Int) - (call.size % 2 ^ 32 : Nat) = t at hsift
    -- the child of the element at `t` is the element at `t` again
    have hdouble : int (int (t * 2) + call.size) = t := by
      rcases int_cases (t * 2) with h | h <;>
        rcases int_cases (int (t * 2) + call.size) with h' | h' <;> omega
    have hfault : call.load mem t call.size = .error .fault := by
      refine load_fault ?_
      rw [hnum, Call.addr, sizeT_64 hw]
      omega
    rw [Call.sift, if_pos, Call.child] at hsift
    · rw [hdouble, if_pos, Call.compare, hfault] at hsift
      · cases hsift
      · rw [sizeT_64 hw, sizeT_64 hw]
        omega
    · rw [sizeT_64 hw, sizeT_64 hw]
      rcases int_cases (t * 2) with h | h
      · omega
      · omega

end Few

/-! ## Elements out of an `int`'s reach -/

section Far

variable {w num size : Nat} {mem mem' : Mem}

/-- The elements from 2 ^ 31 bytes on are as before. -/
def KeepsFar (call : Call) (mem mem' : Mem) : Prop :=
  ∀ k, 2 ^ 31 ≤ k * call.size → call.elem mem' k = call.elem mem k

theorem KeepsFar.trans {call : Call} {mem'' : Mem} (h : KeepsFar call mem mem')
    (h' : KeepsFar call mem' mem'') : KeepsFar call mem mem'' :=
  fun k hk => (h' k hk).trans (h k hk)

theorem swap_keepsFar {a b : Int} (h : (headCall w num size).swap mem a b = .ok mem')
    (ha : a < 2 ^ 31) (hb : b < 2 ^ 31) : KeepsFar (headCall w num size) mem mem' := by
  have hswap : elementSwap num size mem a b (int size) = .ok mem' := h
  unfold elementSwap at hswap
  split at hswap
  · next hin =>
      obtain ⟨ha0, hb0, -, hai, hbj, -, -⟩ := hin
      cases hswap
      intro k hk
      have hsame := Nat.div_add_mod' a.toNat size
      have hsame' := Nat.div_add_mod' b.toNat size
      rw [hai, Nat.add_zero] at hsame
      rw [hbj, Nat.add_zero] at hsame'
      have hk' : 2 ^ 31 ≤ k * size := hk
      have hne : k ≠ a.toNat / size := by
        rintro rfl
        omega
      have hne' : k ≠ b.toNat / size := by
        rintro rfl
        omega
      show Library.read _ (k * size) size = Library.read _ (k * size) size
      rw [← hsame, ← hsame']
      exact read_exchange_of_disjoint (Call.elem_disjoint hne size)
        (Call.elem_disjoint hne' size)
  · cases hswap

theorem child_lt {call : Call} {n r c : Int} (h : call.child mem n r = .ok c) : c < 2 ^ 31 := by
  unfold Call.child at h
  dsimp only at h
  split at h
  · obtain ⟨order, -, hc⟩ := bind_eq_ok h
    cases hc
    split
    · exact int_lt _
    · exact int_lt _
  · cases h
    exact int_lt _

theorem sift_keepsFar {n : Int} {fuel : Nat} {r : Int} (hr : r < 2 ^ 31)
    (h : (headCall w num size).sift n fuel mem r = .ok mem') :
    KeepsFar (headCall w num size) mem mem' := by
  induction fuel generalizing mem r with
  | zero => cases h
  | succ fuel ih =>
    rw [Call.sift] at h
    split at h
    · obtain ⟨c, hchild, h⟩ := bind_eq_ok h
      obtain ⟨order, -, h⟩ := bind_eq_ok h
      split at h
      · cases h
        exact fun _ _ => rfl
      · obtain ⟨mem₁, hswap, h⟩ := bind_eq_ok h
        exact (swap_keepsFar hswap hr (child_lt hchild)).trans (ih (child_lt hchild) h)
    · cases h
      exact fun _ _ => rfl

theorem heapify_keepsFar {n : Int} {fuel : Nat} {i : Int} (hi : i < 2 ^ 31)
    (h : (headCall w num size).heapify n fuel mem i = .ok mem') :
    KeepsFar (headCall w num size) mem mem' := by
  induction fuel generalizing mem i with
  | zero => cases h
  | succ fuel ih =>
    rw [Call.heapify] at h
    split at h
    · obtain ⟨mem₁, hsift, h⟩ := bind_eq_ok h
      exact (sift_keepsFar hi hsift).trans (ih (int_lt _) h)
    · cases h
      exact fun _ _ => rfl

theorem extract_keepsFar {fuel : Nat} {i : Int} (hi : i < 2 ^ 31)
    (h : (headCall w num size).extract fuel mem i = .ok mem') :
    KeepsFar (headCall w num size) mem mem' := by
  induction fuel generalizing mem i with
  | zero => cases h
  | succ fuel ih =>
    rw [Call.extract] at h
    split at h
    · obtain ⟨mem₁, hswap, h⟩ := bind_eq_ok h
      obtain ⟨mem₂, hsift, h⟩ := bind_eq_ok h
      exact ((swap_keepsFar hswap (by omega) hi).trans (sift_keepsFar (by omega) hsift)).trans
        (ih (int_lt _) h)
    · cases h
      exact fun _ _ => rfl

/-- An element that far is left where it is, even when it is the least one. -/
theorem not_sorts_far (hpos : 0 < size) (hnum : 2 ≤ num) (hfar : 2 ^ 31 ≤ (num - 1) * size) :
    ¬ (headCall w num size).Sorts fun a => if a = (num - 1) * size then 0 else 1 := by
  rintro ⟨fuel, mem', hrun, hsorted, hperm, -⟩
  unfold Call.sort at hrun
  obtain ⟨mem₁, hheapify, hextract⟩ := bind_eq_ok hrun
  have hkeep := (heapify_keepsFar (int_lt _) hheapify).trans (extract_keepsFar (int_lt _) hextract)
  set mem : Mem := fun a => if a = (num - 1) * size then 0 else 1 with hmem
  -- the last element is 0, so that all are, but the first one was not
  have hlast : mem' ((num - 1) * size) = 0 := by
    have h := congrArg (List.headD · 0) (hkeep (num - 1) hfar)
    rw [headD_elem hpos, headD_elem hpos, hmem] at h
    exact h.trans (if_pos rfl)
  have hfirst : (headCall w num size).elem mem 0 ∈ (headCall w num size).elements mem' :=
    hperm.mem_iff.mpr (List.mem_map.mpr ⟨0, List.mem_range.mpr (show 0 < num by omega), rfl⟩)
  obtain ⟨k, hk, hsame⟩ := List.mem_map.mp hfirst
  have hk : k < num := List.mem_range.mp hk
  have hone : mem' (k * size) = 1 := by
    have h := congrArg (List.headD · 0) hsame
    rw [headD_elem hpos, headD_elem hpos, hmem] at h
    refine h.trans (if_neg ?_)
    omega
  have hle : AtMost headOrder ((headCall w num size).elem mem' k)
      ((headCall w num size).elem mem' (num - 1)) := by
    by_cases hlastk : k = num - 1
    · rw [hlastk] at hone
      rw [hone] at hlast
      cases hlast
    · have hpair := List.pairwise_iff_getElem.mp (List.pairwise_map.mp hsorted) k (num - 1)
        (by rw [List.length_range]; exact hk)
        (by rw [List.length_range]; show num - 1 < num; omega) (by omega)
      rw [List.getElem_range, List.getElem_range] at hpair
      exact hpair
  unfold AtMost headOrder at hle
  rw [headD_elem hpos, headD_elem hpos, hone, hlast] at hle
  exact absurd hle (by decide)

end Far

/-! ## An array that ends out of an `int`'s reach -/

section Beyond

/-- The last element starts within an `int`'s reach, and the array ends outside it. -/
structure EndsBeyond (num size : Nat) : Prop where
  two : 2 ≤ num
  pos : 0 < size
  last : (num - 1) * size < 2 ^ 31
  beyond : 2 ^ 31 ≤ num * size

variable {num size k m : Nat} {mem mem' : Mem} {fuel : Nat}

theorem EndsBeyond.bytes_lt (h : EndsBeyond num size) : num * size < 2 ^ 32 := by
  obtain ⟨n, rfl⟩ : ∃ n, num = n + 2 := ⟨num - 2, by have := h.two; omega⟩
  have hlast : (n + 1) * size < 2 ^ 31 := h.last
  have hsize : 1 * size ≤ (n + 1) * size := Nat.mul_le_mul_right _ (by omega)
  rw [show n + 2 = n + 1 + 1 from rfl, Nat.succ_mul]
  omega

/-- The offsets of the elements, and of the end. -/
theorem EndsBeyond.off_lt (h : EndsBeyond num size) (hk : k < num) :
    (headCall 64 num size).off k < 2 ^ 31 := by
  have hle : k * size ≤ (num - 1) * size := Nat.mul_le_mul_right _ (by omega)
  have hlt := Nat.lt_of_le_of_lt hle h.last
  show ((k * size : Nat) : Int) < 2 ^ 31
  omega

theorem EndsBeyond.size_lt (h : EndsBeyond num size) :
    ((headCall 64 num size).size : Int) < 2 ^ 31 := by
  have hle : 1 * size ≤ (num - 1) * size := by
    have := h.two
    exact Nat.mul_le_mul_right _ (by omega)
  have hlt := h.last
  show (size : Int) < 2 ^ 31
  omega

theorem EndsBeyond.off_end (h : EndsBeyond num size) :
    2 ^ 31 ≤ (headCall 64 num size).off num ∧ (headCall 64 num size).off num < 2 ^ 32 := by
  have hlt := h.bytes_lt
  have hge := h.beyond
  show 2 ^ 31 ≤ ((num * size : Nat) : Int) ∧ ((num * size : Nat) : Int) < 2 ^ 32
  omega

/-- The end of the array, as the loops see it. -/
def truncatedEnd (num size : Nat) : Int :=
  (headCall 64 num size).off num - 2 ^ 32

theorem EndsBeyond.int_end (h : EndsBeyond num size) :
    int ((headCall 64 num size).off num) = truncatedEnd num size := by
  have hend := h.off_end
  unfold truncatedEnd
  rcases int_cases ((headCall 64 num size).off num) with h' | h'
  · omega
  · omega

theorem EndsBeyond.int_elem (h : EndsBeyond num size) (hk : k < num) :
    int ((headCall 64 num size).off k) = (headCall 64 num size).off k := by
  have hlt := h.off_lt hk
  have hnonneg := (headCall 64 num size).off_nonneg k
  exact int_eq (by omega) hlt

/-- The loops take the element for one with children. -/
theorem EndsBeyond.sift_step (h : EndsBeyond num size) (hk : 2 * k < num) :
    (headCall 64 num size).sift (truncatedEnd num size) (fuel + 1) mem
        ((headCall 64 num size).off k) = (do
      let c ← (headCall 64 num size).child mem (truncatedEnd num size)
        ((headCall 64 num size).off k)
      let order ← (headCall 64 num size).compare mem ((headCall 64 num size).off k) c
      if 0 ≤ order then
        pure mem
      else do
        let mem ← (headCall 64 num size).swap mem ((headCall 64 num size).off k) c
        (headCall 64 num size).sift (truncatedEnd num size) fuel mem c) := by
  have hdouble := (headCall 64 num size).off_child k
  have hsucc := (headCall 64 num size).off_succ (2 * k)
  have hlt := h.off_lt hk
  have hsize := h.size_lt
  have hnonneg := (headCall 64 num size).off_nonneg k
  have hend := h.off_end
  rw [Call.sift, if_pos]
  rw [int_eq (x := (headCall 64 num size).off k * 2) (by omega) (by omega), hdouble,
    sizeT_64 rfl, sizeT_64 rfl, truncatedEnd]
  omega

/-- With two elements where the children should be, the greater one is picked. -/
theorem EndsBeyond.child_eq (h : EndsBeyond num size) (hk : 2 * k + 1 < num) :
    (headCall 64 num size).child mem (truncatedEnd num size) ((headCall 64 num size).off k) = (do
      let order ← (headCall 64 num size).compare mem ((headCall 64 num size).off (2 * k + 1))
        ((headCall 64 num size).off (2 * k + 2))
      pure (if order < 0 then int ((headCall 64 num size).off (2 * k + 2))
        else (headCall 64 num size).off (2 * k + 1))) := by
  have hdouble := (headCall 64 num size).off_child k
  have hlt := h.off_lt hk
  have hnonneg := (headCall 64 num size).off_nonneg k
  have hpos := (headCall 64 num size).off_nonneg (2 * k + 1)
  have hsize := h.size_lt
  have hend := h.off_end
  have hc : int (int ((headCall 64 num size).off k * 2) + (headCall 64 num size).size) =
      (headCall 64 num size).off (2 * k + 1) := by
    rw [int_eq (x := (headCall 64 num size).off k * 2) (by omega) (by omega), hdouble]
    exact h.int_elem hk
  unfold Call.child
  dsimp only
  rw [hc, if_pos, ← Call.off_succ]
  rw [sizeT_64 rfl, sizeT_64 rfl, truncatedEnd]
  omega

theorem EndsBeyond.compare_eq (h : EndsBeyond num size) {i j : Nat} (hi : i < num)
    (hj : j < num) : (headCall 64 num size).compare mem ((headCall 64 num size).off i)
      ((headCall 64 num size).off j) =
        .ok (((mem (i * size)).toNat : Int) - (mem (j * size)).toNat) := by
  rw [@Call.compare_eq (headCall 64 num size) mem (show 32 ≤ 64 by omega) h.bytes_lt i j hi hj]
  show Except.ok (headOrder _ _) = _
  rw [headOrder, headD_elem h.pos, headD_elem h.pos]

/-- No element is at the end of the array, nor at where an `int` has it. -/
theorem EndsBeyond.compare_fault (h : EndsBeyond num size) {a : Int} {b : Int}
    (hb : b = (headCall 64 num size).off num ∨ b = truncatedEnd num size) :
    (headCall 64 num size).compare mem a b = .error .fault := by
  have hend := h.off_end
  have hfault : (headCall 64 num size).load mem b size = .error .fault := by
    refine load_fault ?_
    show num * size < _
    have hoff : (headCall 64 num size).off num = ((num * size : Nat) : Int) := rfl
    have hpos := h.pos
    rw [Call.addr, sizeT_64 rfl]
    unfold truncatedEnd at hb
    omega
  unfold Call.compare
  cases hload : (headCall 64 num size).load mem a (headCall 64 num size).size with
  | error e =>
    unfold Call.load at hload
    split at hload
    · cases hload
    · cases hload
      rfl
  | ok x =>
    rw [ok_bind, show (headCall 64 num size).size = size from rfl, hfault]
    rfl

/-- The first loop starts as it should, with the end elsewhere. -/
theorem EndsBeyond.heapify_run (h : EndsBeyond num size)
    (hsorts : (headCall 64 num size).Sorts mem) :
    ∃ fuel mem', (headCall 64 num size).heapify (truncatedEnd num size) fuel mem
      ((headCall 64 num size).off (num / 2 - 1)) = .ok mem' := by
  obtain ⟨fuel, mem', hrun, -⟩ := hsorts
  unfold Call.sort at hrun
  obtain ⟨mem₁, hheapify, -⟩ := bind_eq_ok hrun
  have hw : 32 ≤ (headCall 64 num size).w := show 32 ≤ 64 by omega
  have hcast : ((num / 2 : Nat) - 1 : Int) = ((num / 2 - 1 : Nat) : Int) := by
    have := h.two
    omega
  have hstart : int ((headCall 64 num size).sizeT (((num / 2 : Nat) - 1 : Int) * size)) =
      (headCall 64 num size).off (num / 2 - 1) := by
    have := h.two
    rw [Call.int_sizeT hw, hcast, ← Int.natCast_mul]
    exact h.int_elem (by omega)
  have hlast : int ((headCall 64 num size).sizeT ((num : Int) * size)) = truncatedEnd num size := by
    rw [Call.int_sizeT hw, ← Int.natCast_mul]
    exact h.int_end
  have hheapify' : (headCall 64 num size).heapify
      (int ((headCall 64 num size).sizeT ((num : Int) * size))) fuel mem
      (int ((headCall 64 num size).sizeT (((num / 2 : Nat) - 1 : Int) * size))) = .ok mem₁ := hheapify
  rw [hstart, hlast] at hheapify'
  exact ⟨fuel, mem₁, hheapify'⟩

/-- When the last parent has one child, its other child is looked at, too. -/
theorem not_sorts_even (h : EndsBeyond num size) (heven : num = 2 * m) (mem : Mem) :
    ¬ (headCall 64 num size).Sorts mem := by
  intro hsorts
  obtain ⟨fuel, mem', hheapify⟩ := h.heapify_run hsorts
  have htwo := h.two
  refine heapify_ne_ok (Call.off_nonneg _ _) (fun fuel mem'' hsift => ?_) fuel mem' hheapify
  cases fuel with
  | zero => cases hsift
  | succ fuel =>
    have hend : (headCall 64 num size).off (2 * (num / 2 - 1) + 2) =
        (headCall 64 num size).off num := congrArg _ (by omega)
    rw [h.sift_step (by omega), h.child_eq (by omega), hend, h.compare_fault (.inl rfl)] at hsift
    cases hsift

/-- A greatest element in the middle of zeros. -/
def middle (m size : Nat) : Mem := fun a =>
  if a = m * size then 1 else 0

theorem middle_self (m size : Nat) : middle m size (m * size) = 1 :=
  if_pos rfl

theorem middle_of_ne (hpos : 0 < size) (hk : k ≠ m) : middle m size (k * size) = 0 :=
  if_neg fun heq => hk (Nat.eq_of_mul_eq_mul_right hpos heq)

/-- A leaf whose doubled offset is still an `int` is taken for a parent. -/
theorem sift_leaf (h : EndsBeyond num size) (hodd : num = 2 * m + 1) (fuel : Nat)
    (mem mem' : Mem) : (headCall 64 num size).sift (truncatedEnd num size) fuel mem
      ((headCall 64 num size).off m) ≠ .ok mem' := by
  intro hsift
  cases fuel with
  | zero => cases hsift
  | succ fuel =>
    have hdouble := (headCall 64 num size).off_child m
    have hnonneg := (headCall 64 num size).off_nonneg m
    have hmlt := h.off_lt (k := m) (by have := h.two; omega)
    have hlast := h.off_lt (k := 2 * m) (by omega)
    have hsucc := (headCall 64 num size).off_succ (2 * m)
    have hend := h.off_end
    have hsize := h.pos
    have hc : int (int ((headCall 64 num size).off m * 2) + (headCall 64 num size).size) =
        truncatedEnd num size := by
      rw [int_eq (x := (headCall 64 num size).off m * 2) (by omega) (by omega), hdouble, ← hodd]
      exact h.int_end
    rw [h.sift_step (by omega), Call.child, hc] at hsift
    rw [if_neg, pure_bind, h.compare_fault (.inr rfl)] at hsift
    · cases hsift
    · have hpos : (0 : Int) < (headCall 64 num size).size := by
        show (0 : Int) < (size : Int)
        omega
      have hlt := h.size_lt
      rw [sizeT_64 rfl, sizeT_64 rfl, truncatedEnd]
      omega

/-- The element in the middle comes up to its parent's place, and the parent goes astray. -/
theorem sift_middle_parent (h : EndsBeyond num size) (hodd : num = 2 * m + 1)
    (hm : IsChild m k) (fuel : Nat) (mem' : Mem) :
    (headCall 64 num size).sift (truncatedEnd num size) fuel (middle m size)
      ((headCall 64 num size).off k) ≠ .ok mem' := by
  intro hsift
  have hkm := hm.lt
  cases fuel with
  | zero => cases hsift
  | succ fuel =>
    have hk : 2 * k + 2 < num := by
      unfold IsChild at hm
      omega
    have hchild : (headCall 64 num size).child (middle m size) (truncatedEnd num size)
        ((headCall 64 num size).off k) = .ok ((headCall 64 num size).off m) := by
      rw [h.child_eq (by omega), h.compare_eq (by omega) hk, ok_bind]
      rcases hm with rfl | rfl
      · rw [middle_self, middle_of_ne h.pos (by omega)]
        rfl
      · rw [middle_self, middle_of_ne h.pos (by omega)]
        exact congrArg Except.ok ((if_pos (by decide)).trans (h.int_elem hk))
    rw [h.sift_step (by omega), hchild, ok_bind, h.compare_eq (by omega) (by omega), ok_bind,
      middle_self, middle_of_ne h.pos (Nat.ne_of_lt hkm), if_neg (by decide)] at hsift
    obtain ⟨mem₁, -, hleaf⟩ := bind_eq_ok hsift
    exact sift_leaf h hodd fuel mem₁ mem' hleaf

/-- Elsewhere zeros are compared with zeros. -/
theorem sift_middle_other (h : EndsBeyond num size) (hk : 2 * k + 2 < num) (hkm : k ≠ m)
    (hm : ¬ IsChild m k)
    (hsift : (headCall 64 num size).sift (truncatedEnd num size) fuel (middle m size)
      ((headCall 64 num size).off k) = .ok mem') : mem' = middle m size := by
  unfold IsChild at hm
  cases fuel with
  | zero => cases hsift
  | succ fuel =>
    have hleft : middle m size ((2 * k + 1) * size) = 0 := middle_of_ne h.pos (by omega)
    have hright : middle m size ((2 * k + 2) * size) = 0 := middle_of_ne h.pos (by omega)
    have hself : middle m size (k * size) = 0 := middle_of_ne h.pos hkm
    rw [h.sift_step (by omega), h.child_eq (by omega), h.compare_eq (by omega) hk, ok_bind,
      hleft, hright, if_neg (by decide), pure_bind, h.compare_eq (by omega) (by omega), ok_bind,
      hself, hleft, if_pos (by decide)] at hsift
    cases hsift
    rfl

/-- When all parents have two children, a great element in the middle leads the first loop
astray. -/
theorem not_sorts_odd (h : EndsBeyond num size) (hodd : num = 2 * m + 1) :
    ¬ (headCall 64 num size).Sorts (middle m size) := by
  intro hsorts
  have htwo := h.two
  have hchild : IsChild m (parent m) := isChild_iff.mpr ⟨by omega, rfl⟩
  -- from the last parent on, the loop comes to the one of the middle
  have hloop : ∀ k, parent m ≤ k → k < m → ∀ fuel mem',
      (headCall 64 num size).heapify (truncatedEnd num size) fuel (middle m size)
        ((headCall 64 num size).off k) ≠ .ok mem' := by
    intro k hk
    induction k, hk using Nat.le_induction with
    | base =>
      intro _ fuel mem'
      refine heapify_ne_ok (Call.off_nonneg _ _) (fun fuel mem'' => ?_) fuel mem'
      exact sift_middle_parent h hodd hchild fuel mem''
    | succ k hk ih =>
      intro hkm fuel mem' hheapify
      cases fuel with
      | zero => cases hheapify
      | succ fuel =>
        rw [Call.heapify, if_pos (Call.off_nonneg _ _)] at hheapify
        obtain ⟨mem₁, hsift, hrest⟩ := bind_eq_ok hheapify
        have hnot : ¬ IsChild m (k + 1) := fun hm => by
          have := (isChild_iff.mp hm).2
          omega
        rw [sift_middle_other h (by omega) (Nat.ne_of_lt hkm) hnot hsift, Call.off_succ,
          Int.add_sub_cancel, Call.int_sizeT (show 32 ≤ 64 by omega),
          h.int_elem (by omega)] at hrest
        exact ih (by omega) fuel mem' hrest
  obtain ⟨fuel, mem', hheapify⟩ := h.heapify_run hsorts
  have hstart : num / 2 - 1 = m - 1 := by omega
  rw [hstart] at hheapify
  refine hloop (m - 1) ?_ (by omega) fuel mem' hheapify
  unfold parent
  omega

end Beyond

/-! ## All sizes -/

/-- The sizes for which `sort` is right: the bytes of the array can be counted by an `int`. Of an
array that has nothing to sort, only the element size as an `int` matters. -/
def Countable (num size : Nat) : Prop :=
  if num ≤ 1 then 1 ≤ size % 2 ^ 32 ∧ size % 2 ^ 32 ≤ 2 ^ 31 else 0 < size ∧ num * size < 2 ^ 31

/-- For an array that is an object of the machine, `sort` is right exactly for such sizes: it
ends, with the elements in non-decreasing order and no byte elsewhere touched, for every
comparison function of a total preorder, every swap function and every content. -/
theorem sort_correct_iff (w num size : Nat) (hw : w = 32 ∨ w = 64)
    (hobject : num * size < 2 ^ (w - 1)) (hsize : size < 2 ^ (w - 1)) :
    Correct w num size ↔ Countable num size := by
  have h32 : 32 ≤ w := by omega
  unfold Countable
  constructor
  · intro h
    have hmod : size % 2 ^ 32 ≠ 0 := fun hzero =>
      @not_sorts_of_stuck ⟨w, num, size, headOrder, none⟩ h32 hzero (fun _ => 0)
        (h _ _ _ orders_headOrder (by rintro _ ⟨⟩))
    have hpos : 0 < size := Nat.pos_of_ne_zero fun hzero => hmod (by rw [hzero]; rfl)
    split
    · next hnum =>
        refine ⟨Nat.pos_of_ne_zero hmod, Nat.not_lt.mp fun hlt => ?_⟩
        rcases Nat.le_one_iff_eq_zero_or_eq_one.mp hnum with rfl | rfl
        · exact not_sorts_none h32 hlt (fun _ => 0) (h.headCall hpos _)
        · rcases hw with rfl | rfl
          · rw [Nat.mod_eq_of_lt (by omega)] at hlt
            omega
          · exact @not_sorts_one (headCall 64 1 size) rfl rfl hsize hlt (fun _ => 0)
              (h.headCall hpos _)
    next hnum =>
      refine ⟨hpos, Nat.not_le.mp fun hge => ?_⟩
      rcases hw with rfl | rfl
      · omega
      · by_cases hlast : (num - 1) * size < 2 ^ 31
        · have hbeyond : EndsBeyond num size := ⟨by omega, hpos, hlast, hge⟩
          obtain heven | hodd : num = 2 * (num / 2) ∨ num = 2 * (num / 2) + 1 := by omega
          · exact not_sorts_even hbeyond heven (fun _ => 0) (h.headCall hpos _)
          · exact not_sorts_odd hbeyond hodd (h.headCall hpos _)
        · exact not_sorts_far hpos (by omega) (Nat.not_lt.mp hlast) (h.headCall hpos _)
  · intro hcount cmpFunc swapFunc mem hcmp hswap
    split at hcount
    · next hnum => exact sorts_few h32 hnum hcount.1 hcount.2 mem
    · next hnum =>
        have hle : 1 * size ≤ num * size := Nat.mul_le_mul_right _ (by omega)
        have hlt := hcount.2
        exact Call.sort_spec ⟨h32, hcount.1, show size < 2 ^ 31 by omega, hlt⟩ hswap hcmp mem

/-- Three elements of four bytes are sorted. -/
theorem sort_correct_iff_three : Correct 32 3 4 :=
  (sort_correct_iff 32 3 4 (.inl rfl) (by decide) (by decide)).mpr
    (show 0 < 4 ∧ 3 * 4 < 2 ^ 31 by decide)

/-- Elements of no bytes are sorted for ever, and an array of 2 ^ 31 bytes is left too early. -/
theorem sort_incorrect : ¬ Correct 32 2 0 ∧ ¬ Correct 64 (2 ^ 31) 1 := by
  constructor
  · intro h
    exact @not_sorts_of_stuck ⟨32, 2, 0, headOrder, none⟩ (Nat.le_refl 32) rfl (fun _ => 0)
      (h _ _ _ orders_headOrder (by rintro _ ⟨⟩))
  · intro h
    have hbeyond : EndsBeyond (2 ^ 31) 1 := ⟨by decide, Nat.one_pos, by decide, by decide⟩
    exact @not_sorts_even _ _ (2 ^ 30) hbeyond rfl (fun _ => 0) (h.headCall Nat.one_pos _)

end AndroidKernel.Sort
