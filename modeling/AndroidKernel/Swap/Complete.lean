import AndroidKernel.Swap.Slots

/-!
# Completeness of the scan

Read `swap_alloc_complete_iff` first. The second loop behind the label `scan` steps over
`lowest_bit` before it looks at a slot, so a scan that starts above `lowest_bit` does not see that
slot. `Missed` is the state in which it is the only one that is free.
-/

namespace AndroidKernel.Swap

open Library

variable {si : SwapInfo} {scan : Scan} {offset o : Nat}

/-! ## Loops -/

/-- A scan that finds nothing has seen every slot up to its bound. -/
theorem findFree_eq_none {swapMap : Nat → Nat} {bound : Nat} :
    findFree swapMap bound offset = none ↔ ∀ i, offset ≤ i → i < bound → swapMap i ≠ 0 := by
  fun_induction findFree swapMap bound offset with
  | case1 offset hlt hzero =>
    exact ⟨by rintro ⟨⟩, fun h => absurd hzero (h offset (Nat.le_refl offset) hlt)⟩
  | case2 offset hlt hzero ih =>
    rw [ih]
    constructor
    · intro h i hle hi
      rcases Nat.eq_or_lt_of_le hle with rfl | hgt
      · exact hzero
      · exact h i hgt hi
    · intro h i hle hi
      exact h i (by omega) hi
  | case3 offset hlt =>
    exact ⟨fun _ i hle hi => absurd (Nat.lt_of_le_of_lt hle hi) hlt, fun _ => rfl⟩

/-- A cluster that is found starts at a free slot: what the loop has behind it, up to the length of
a cluster, is free. -/
theorem findCluster_zero {swapMap : Nat → Nat} {bound last : Nat} {hle : offset ≤ last}
    (hfree : ∀ i, last ≤ i + (swapfileCluster - 1) → i < offset → swapMap i = 0)
    (h : findCluster swapMap bound offset last hle = some o) : swapMap o = 0 := by
  fun_induction findCluster swapMap bound offset last hle with
  | case1 offset last hle hbound hzero ih =>
    refine ih (fun i hlast hi => ?_) h
    rw [swapfileCluster] at hlast
    omega
  | case2 last hbound hle hzero =>
    obtain rfl := Option.some.inj h
    by_cases hlast : last - (swapfileCluster - 1) = last
    · rw [hlast]
      exact not_not.mp hzero
    · exact hfree _ (by omega) (by omega)
  | case3 offset last hle hbound hzero hlast ih =>
    refine ih (fun i hi hlt => ?_) h
    rcases Nat.lt_or_eq_of_le (Nat.le_of_lt_succ hlt) with hlt | rfl
    · exact hfree i hi hlt
    · exact not_not.mp hzero
  | case4 offset last hle hbound => cases h

theorem findClusterFrom_zero {bound : Nat} (h : findClusterFrom si bound offset = some o) :
    si.swapMap o = 0 :=
  findCluster_zero (fun i hlast hi => by
    rw [swapfileCluster] at hlast
    omega) h

/-! ## A call -/

/-- What `scan_swap_map` returns does not depend on the number of passes that it is given. -/
theorem scanSwapMap_unique {passes passes' : Nat} {result result' : Nat × SwapInfo}
    (h : scanSwapMap passes si = some result) (h' : scanSwapMap passes' si = some result') :
    result = result' := by
  have hmore : ∀ {n r}, scanSwapMap n si = some r → ∀ k, scanSwapMap (n + k) si = some r := by
    intro n r hn k
    induction k with
    | zero => exact hn
    | succ k ih => exact checks_succ ih
  have hleft := hmore h passes'
  have hright := hmore h' passes
  rw [Nat.add_comm] at hright
  exact Option.some.inj (hleft.symm.trans hright)

/-- A scan with a free slot in its area returns 0 when it looks at no free slot. -/
theorem Scanning.checks_zero (h : Scanning si scan) (hwriteok : scan.si.writeok ≠ false)
    (hsome : scan.si.free ≠ ∅) :
    (∃ si', checks 2 scan = some (0, si')) ↔
      scan.si.swapMap (rewind scan).offset ≠ 0 ∧ nextOffset (rewind scan) = none := by
  have hhighest : scan.si.highestBit ≠ 0 := fun hc => hsome (h.sound.full.mp hc)
  rw [checks, if_neg hwriteok, if_neg hhighest]
  by_cases hzero : scan.si.swapMap (rewind scan).offset = 0
  · rw [if_pos hzero]
    have hpos := h.sound.free_pos (mem_free.mpr ⟨h.rewind_lt hhighest, hzero⟩)
    constructor
    · rintro ⟨si', hresult⟩
      rw [(Prod.mk.inj (Option.some.inj hresult)).1] at hpos
      exact absurd hpos (Nat.lt_irrefl 0)
    · exact fun hc => absurd hzero hc.1
  rw [if_neg hzero]
  cases hnext : nextOffset (rewind scan) with
  | none => exact ⟨fun _ => ⟨hzero, rfl⟩, fun _ => ⟨_, rfl⟩⟩
  | some offset =>
    have hmem := h.nextOffset_mem hnext
    have hpos := h.sound.free_pos hmem
    have hmem' : offset ∈ (rewind scan).si.free := by
      rw [rewind_si]
      exact hmem
    have hwriteok' : (rewind scan).si.writeok ≠ false := by
      rw [rewind_si]
      exact hwriteok
    constructor
    · rintro ⟨si', hresult⟩
      have htaken : checks 1 { rewind scan with offset := offset } = _ :=
        (h.again offset).checks_free hmem' hwriteok'
      have hsame : offset = 0 := (Prod.mk.inj (Option.some.inj (htaken.symm.trans hresult))).1
      omega
    · rintro ⟨_, ⟨⟩⟩

/-- The slot at `lowest_bit` is the only free one, and a scan that starts at `base` does not see
it. -/
structure Unseen (si : SwapInfo) (base : Nat) : Prop where
  free : si.free = {si.lowestBit}
  above : si.lowestBit < base
  below : base ≤ si.highestBit

/-- A scan that starts at its base returns 0 in an area with a free slot only if this one is
unseen. -/
theorem Scanning.checks_zero_iff (h : Scanning si scan) (hbase : scan.offset = scan.scanBase)
    (hwriteok : scan.si.writeok ≠ false) (hsome : scan.si.free ≠ ∅) :
    (∃ si', checks 2 scan = some (0, si')) ↔ Unseen scan.si scan.scanBase := by
  have hhighest := h.sound.highestBit_lt
  rw [h.checks_zero hwriteok hsome, nextOffset, rewind_si, Option.or_eq_none_iff,
    findFree_eq_none, findFree_eq_none]
  by_cases habove : scan.offset > scan.si.highestBit
  · -- the scan starts again at `lowest_bit`, and sees every slot
    rw [rewind, if_pos habove]
    constructor
    · rintro ⟨hfirst, hrest, _⟩
      obtain ⟨o, ho⟩ := Finset.nonempty_iff_ne_empty.mpr hsome
      obtain ⟨hlow, hhigh⟩ := h.sound.range o ho
      have hzero := (mem_free.mp ho).2
      rcases Nat.eq_or_lt_of_le hlow with heq | hgt
      · rw [← heq] at hzero
        exact absurd hzero hfirst
      · exact absurd hzero (hrest o hgt (Nat.lt_succ_of_le hhigh))
    · intro hunseen
      have hbelow := hunseen.below
      omega
  rw [rewind, if_neg habove]
  constructor
  · rintro ⟨hfirst, hbehind, hbefore⟩
    have honly : ∀ o ∈ scan.si.free, o = scan.si.lowestBit ∧ o < scan.scanBase := by
      intro o ho
      obtain ⟨hlow, hhigh⟩ := h.sound.range o ho
      have hzero := (mem_free.mp ho).2
      have hnot : ¬ scan.offset < o :=
        fun hlt => hbehind o hlt (Nat.lt_succ_of_le hhigh) hzero
      have hne : o ≠ scan.offset := by
        rintro rfl
        exact hfirst hzero
      have hnot' : ¬ scan.si.lowestBit < o :=
        fun hlt => hbefore o hlt (by omega) hzero
      omega
    obtain ⟨o, ho⟩ := Finset.nonempty_iff_ne_empty.mpr hsome
    obtain ⟨hlow, hlt⟩ := honly o ho
    refine ⟨Finset.eq_singleton_iff_unique_mem.mpr ⟨hlow ▸ ho, fun i hi => (honly i hi).1⟩, ?_, ?_⟩
    · omega
    · omega
  intro hunseen
  have honly : ∀ i, i < scan.si.max → i ≠ scan.si.lowestBit → scan.si.swapMap i ≠ 0 := by
    intro i hi hne hzero
    have hmem := mem_free.mpr ⟨hi, hzero⟩
    rw [hunseen.free, Finset.mem_singleton] at hmem
    exact hne hmem
  have hlow := hunseen.above
  have hhigh := hunseen.below
  refine ⟨honly _ (by omega) (by omega), fun i hle hi => ?_, fun i hle hi => ?_⟩
  · exact honly i (by omega) (by omega)
  · exact honly i (by omega) (by omega)

/-- A state in which `scan_swap_map` misses the only free slot. -/
def Missed (si : SwapInfo) : Prop :=
  Unseen si si.clusterNext

/-- With one free slot there is no search for a new cluster. -/
theorem Sound.few (h : Sound si) {base : Nat} (hunseen : Unseen si base) :
    wsub si.pages si.inusePages < swapfileCluster := by
  have hpages := h.pages
  rw [card_usable, hunseen.free, Finset.card_singleton, ← h.inuse] at hpages
  rw [hpages, wsub, word, swapfileCluster]
  omega

/-- A call returns 0 in an area with a free slot exactly in these states. -/
theorem Sound.scan_zero_iff (h : Sound si) (hwriteok : si.writeok ≠ false) (hsome : si.free ≠ ∅) :
    (∃ si', Swap.scanSwapMap 2 si = some (0, si')) ↔ Missed si := by
  have hscanning := h.startScan
  rw [Swap.scanSwapMap]
  rw [Swap.startScan] at hscanning ⊢
  by_cases hnr : si.clusterNr ≠ 0
  · rw [if_pos hnr] at hscanning ⊢
    exact (hscanning.checks_zero_iff rfl hwriteok hsome).trans
      ⟨fun hu => ⟨hu.free, hu.above, hu.below⟩, fun hu => ⟨hu.free, hu.above, hu.below⟩⟩
  by_cases hfew : wsub si.pages si.inusePages < swapfileCluster
  · rw [if_neg hnr, if_pos hfew] at hscanning ⊢
    exact (hscanning.checks_zero_iff rfl hwriteok hsome).trans
      ⟨fun hu => ⟨hu.free, hu.above, hu.below⟩, fun hu => ⟨hu.free, hu.above, hu.below⟩⟩
  -- many slots are free: the search for a cluster finds one of them, or ends at its base
  rw [if_neg hnr, if_neg hfew, newCluster] at hscanning ⊢
  have hnever : ¬ Missed si := fun hmissed => hfew (h.few hmissed)
  cases hfound : searchCluster si with
  | none =>
    rw [hfound] at hscanning
    refine (hscanning.checks_zero_iff rfl hwriteok hsome).trans ⟨fun hu => ?_, fun hm => ?_⟩
    · exact absurd (@Sound.few _ h (clusterBase si) ⟨hu.free, hu.above, hu.below⟩) hfew
    · exact absurd hm hnever
  | some offset =>
    rw [hfound] at hscanning
    refine iff_of_false ?_ hnever
    have hzero : si.swapMap offset = 0 := by
      rcases Option.or_eq_some_iff.mp hfound with hfound | ⟨_, hfound⟩
      · exact findClusterFrom_zero hfound
      · exact findClusterFrom_zero hfound
    have hmem : offset ∈ si.free := mem_free.mpr ⟨h.searchCluster_lt hfound, hzero⟩
    rintro ⟨si', hresult⟩
    have htaken : checks 2 _ = _ := hscanning.checks_free hmem hwriteok
    have hsame : offset = 0 := (Prod.mk.inj (Option.some.inj (htaken.symm.trans hresult))).1
    exact Nat.ne_of_gt (h.free_pos hmem) hsame

/-! ## Runs -/

theorem writeok_checks {passes : Nat} {si' : SwapInfo}
    (h : checks passes scan = some (offset, si')) : si'.writeok = scan.si.writeok := by
  induction passes generalizing scan with
  | zero => cases h
  | succ passes ih =>
    rw [checks] at h
    split_ifs at h
    · rw [← (Prod.mk.inj (Option.some.inj h)).2]
    · rw [← (Prod.mk.inj (Option.some.inj h)).2]
    · rw [← (Prod.mk.inj (Option.some.inj h)).2]
      rfl
    cases hnext : nextOffset (rewind scan) with
    | none =>
      rw [hnext] at h
      rw [← (Prod.mk.inj (Option.some.inj h)).2]
    | some next =>
      rw [hnext] at h
      rw [ih h]
      exact congrArg SwapInfo.writeok (rewind_si scan)

theorem writeok_startScan (si : SwapInfo) : (startScan si).si.writeok = si.writeok := by
  rw [startScan]
  split_ifs
  · rfl
  · rfl
  · rw [newCluster]
    split <;> rfl

/-- No call disables an area. -/
theorem writeok_step {op : Op} {si' : SwapInfo} (h : Step si op si') :
    si'.writeok = si.writeok := by
  cases op with
  | scanSwapMap =>
    obtain ⟨passes, offset, hscan⟩ := h
    exact (writeok_checks hscan).trans (writeok_startScan si)
  | swapFree offset =>
    rw [← show swapFree si offset = si' from h, swapFree]
    split_ifs
    · rfl
    · rfl
    · rw [swapEntryFree]
      dsimp only
      split_ifs <;> rfl
  | swapDuplicate offset =>
    rw [← show swapDuplicate si offset = si' from h, swapDuplicate]
    split_ifs <;> rfl

theorem writeok_swapon {header : Header} (h : swapon header = some si) : si.writeok = true := by
  simp only [swapon, Option.ite_none_left_eq_some, Option.some.injEq] at h
  obtain ⟨_, _, _, _, _, _, _, rfl⟩ := h
  rw [Header.setupSwapExtents]
  split <;> rfl

/-- In every state that an area reaches, a call that returns 0 has found every usable slot in use,
unless the state is one in which the only free slot is missed. -/
theorem swap_alloc_complete_iff {header : Header} {start : SwapInfo}
    (hstart : swapon header = some start) (hpages : start.pages = start.usable.card)
    (hrun : Reaches Step anyStep start si) :
    (∀ passes si', scanSwapMap passes si = some (0, si') → ∀ o ∈ si.usable, si.swapMap o ≠ 0) ↔
      ¬ Missed si := by
  obtain ⟨h, hwriteok⟩ : Sound si ∧ si.writeok = true := by
    refine hrun.invariant (fun s => Sound s ∧ s.writeok = true) ?_
      ⟨(fresh_swapon hstart).sound hpages, writeok_swapon hstart⟩
    intro s op t hs _ hstep
    exact ⟨hs.1.step hstep, (writeok_step hstep).trans hs.2⟩
  have hfull : (∀ o ∈ si.usable, si.swapMap o ≠ 0) ↔ si.free = ∅ := by
    rw [Finset.eq_empty_iff_forall_notMem]
    constructor
    · intro hall o ho
      obtain ⟨hlt, hzero⟩ := mem_free.mp ho
      refine hall o (mem_usable.mpr ⟨hlt, ?_⟩) hzero
      rw [hzero]
      exact nofun
    · intro hall o ho hzero
      exact hall o (mem_free.mpr ⟨(mem_usable.mp ho).1, hzero⟩)
  have hwriteok' : si.writeok ≠ false := by
    rw [hwriteok]
    exact Bool.noConfusion
  rw [hfull]
  by_cases hsome : si.free = ∅
  · refine iff_of_true (fun _ _ _ => hsome) fun hmissed => ?_
    rw [hmissed.free] at hsome
    exact Finset.singleton_ne_empty _ hsome
  rw [← h.scan_zero_iff hwriteok' hsome]
  constructor
  · rintro hzero ⟨si', hscan⟩
    exact hsome (hzero 2 si' hscan)
  · intro hnever passes si' hscan
    obtain ⟨offset, si'', hscan', _⟩ := h.scanSwapMap
    obtain ⟨rfl, rfl⟩ := Prod.mk.inj (scanSwapMap_unique hscan hscan')
    exact absurd ⟨si', hscan'⟩ hnever

/-- A device of three pages: the first call takes a slot. -/
theorem swap_alloc_complete_iff_start :
    ∃ start, swapon (plainHeader 3) = some start ∧ ∀ passes si',
      scanSwapMap passes start = some (0, si') → ∀ o ∈ start.usable, start.swapMap o ≠ 0 := by
  obtain ⟨start, hstart, hfilled⟩ := @swapon_plainHeader 3 (by omega) (by rw [word]; omega)
  have hpages : start.pages = start.usable.card := by
    rw [hfilled.pages, SwapInfo.usable, hfilled.max, hfilled.swapMap]
    rfl
  refine ⟨start, hstart, (swap_alloc_complete_iff hstart hpages (.refl start)).mpr fun hmissed => ?_⟩
  have habove := hmissed.above
  rw [hfilled.lowestBit, hfilled.clusterNext] at habove
  omega

/-! ## A missed slot -/

/-- The slot at which the first pass looks is taken. -/
def takeFirst (si : SwapInfo) : SwapInfo :=
  take (startScan si).si (rewind (startScan si)).offset

theorem step_takeFirst (hwriteok : (startScan si).si.writeok = true)
    (hhighest : (startScan si).si.highestBit ≠ 0)
    (hzero : (startScan si).si.swapMap (rewind (startScan si)).offset = 0) :
    Step si .scanSwapMap (takeFirst si) := by
  refine ⟨1, (rewind (startScan si)).offset, ?_⟩
  have hwriteok' : (startScan si).si.writeok ≠ false := by
    rw [hwriteok]
    exact Bool.noConfusion
  rw [scanSwapMap, checks, if_neg hwriteok', if_neg hhighest, if_pos hzero]
  rfl

/-- A device of five pages, enabled. -/
def smallArea : SwapInfo :=
  (plainHeader 5).area

/-- Slots 1 to 3 are taken, slot 1 is freed, and slot 4 is taken: `highest_bit` is now 3. Slot 2 is
freed, slot 1 is taken and freed, and slot 2 is taken again, which leaves slot 1 and a scan that
starts at 3. -/
def missedArea : SwapInfo :=
  let si := takeFirst (takeFirst (takeFirst smallArea))
  let si := takeFirst (swapFree si 1)
  let si := takeFirst (swapFree si 2)
  takeFirst (swapFree si 1)

theorem swap_alloc_misses_lowest :
    swapon (plainHeader 5) = some smallArea ∧ Reaches Step anyStep smallArea missedArea ∧
      (∃ si', scanSwapMap 2 missedArea = some (0, si')) ∧
      1 ∈ missedArea.usable ∧ missedArea.swapMap 1 = 0 := by
  have hstart : swapon (plainHeader 5) = some smallArea := rfl
  have hrun : Reaches Step anyStep smallArea missedArea := by
    have hfree : ∀ si offset, Step si (.swapFree offset) (swapFree si offset) := fun _ _ => rfl
    refine ((((((((Reaches.refl smallArea).tail (step_takeFirst rfl ?_ rfl) trivial).tail
      (step_takeFirst rfl ?_ rfl) trivial).tail (step_takeFirst rfl ?_ rfl) trivial).tail
      (hfree _ 1) trivial).tail (step_takeFirst rfl ?_ rfl) trivial).tail (hfree _ 2) trivial).tail
      (step_takeFirst rfl ?_ rfl) trivial).tail (hfree _ 1) trivial |>.tail
      (step_takeFirst rfl ?_ rfl) trivial
    all_goals exact Nat.succ_ne_zero _
  have hpages : smallArea.pages = smallArea.usable.card := rfl
  obtain h : Sound missedArea :=
    hrun.invariant Sound (fun _ _ _ hs _ hstep => hs.step hstep)
      ((fresh_swapon hstart).sound hpages)
  have hfree : missedArea.free = {1} := rfl
  have hmissed : Missed missedArea :=
    ⟨hfree, show 1 < 3 by omega, show 3 ≤ 3 from Nat.le_refl 3⟩
  have hzero : (1 : Nat) ∈ missedArea.free := by
    rw [hfree]
    exact Finset.mem_singleton_self 1
  refine ⟨hstart, hrun, (h.scan_zero_iff nofun ?_).mpr hmissed, ?_, (mem_free.mp hzero).2⟩
  · rw [hfree]
    exact Finset.singleton_ne_empty 1
  · refine mem_usable.mpr ⟨(mem_free.mp hzero).1, ?_⟩
    rw [(mem_free.mp hzero).2]
    exact nofun

end AndroidKernel.Swap
