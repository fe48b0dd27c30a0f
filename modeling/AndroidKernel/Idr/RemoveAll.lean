import AndroidKernel.Idr.Walks

/-!
# Freeing every layer

`idr_remove_all` frees a layer each time it leaves it upwards, and it goes up as far as the next id
has digits, not as far as the carry goes. So a leaf and the layers at the first slots are freed
once, and any other layer above the leaves once for every turn inside it.
-/

namespace AndroidKernel.Idr

open Library

universe u

variable {α : Type u} {L k l q id high : Nat} {top : Ptr α} {M : IdMap α} {s : Idr α}

/-- There is a layer at a level and a place of a tree. -/
def LayerAt (L : Nat) (top : Ptr α) (k q : Nat) : Prop :=
  1 ≤ k ∧ k ≤ L ∧ q * 2 ^ (idrBits * k) < 2 ^ (idrBits * L) ∧
    (node L top (q * 2 ^ (idrBits * k)) k).IsLayer

/-- Above the leaves, the only layers are those at the first slots all the way down. -/
def Leftmost (L : Nat) (top : Ptr α) : Prop :=
  ∀ k q, 2 ≤ k → LayerAt L top k q → q = 0

/-- The layers of an id at these levels. -/
def layersAt (L : Nat) (top : Ptr α) (id : Nat) (levels : List Nat) : List (Nat × Nat) :=
  (levels.filter fun k => !(node L top id k).isNull).map fun k => (k, id / 2 ^ (idrBits * k))

theorem leaves_freeLayer (L : Nat) (top : Ptr α) (id : Nat) (levels : List Nat)
    (freed : List (Nat × Nat)) :
    leaves freeLayer L top id levels freed = freed ++ layersAt L top id levels := by
  induction levels generalizing freed with
  | nil => exact (List.append_nil freed).symm
  | cons k levels ih =>
    show leaves freeLayer L top id levels (freeLayer freed (ref L top id k)) = _
    rw [ih]
    unfold freeLayer layersAt
    cases hnull : (node L top id k).isNull with
    | true =>
      rw [if_pos (show (ref L top id k).ptr.isNull = true from hnull),
        List.filter_cons_of_neg (by simp [hnull])]
    | false =>
      rw [if_neg (show ¬(ref L top id k).ptr.isNull = true by simp [ref, hnull]),
        List.filter_cons_of_pos (by simp [hnull]),
        List.map_cons, List.append_assoc]
      rfl

/-- A layer is left once when the walk goes up past it. -/
theorem count_layersAt (L : Nat) (top : Ptr α) (id l n k q : Nat) :
    (layersAt L top id (List.range' l n)).count (k, q) =
      if (l ≤ k ∧ k < l + n) ∧ (node L top id k).isNull = false ∧ q = id / 2 ^ (idrBits * k)
      then 1 else 0 := by
  unfold layersAt
  have hnodup : ((List.range' l n).filter fun k => !(node L top id k).isNull).Nodup :=
    List.Nodup.filter _ (List.nodup_range' ..)
  have hmap : (((List.range' l n).filter fun k => !(node L top id k).isNull).map fun k =>
      (k, id / 2 ^ (idrBits * k))).Nodup :=
    hnodup.map fun _ _ heq => (Prod.mk.inj heq).1
  rw [List.Nodup.count hmap]
  congr 1
  rw [List.mem_map]
  apply propext
  constructor
  · rintro ⟨m, hm, heq⟩
    obtain ⟨rfl, rfl⟩ := Prod.mk.inj heq
    rw [List.mem_filter, List.mem_range'_1] at hm
    exact ⟨hm.1, by simpa using hm.2, rfl⟩
  · rintro ⟨hrange, hnull, rfl⟩
    exact ⟨k, List.mem_filter.2 ⟨List.mem_range'_1.2 hrange, by simp [hnull]⟩, rfl⟩

theorem isNull_of_isLayer {p : Ptr α} (h : p.IsLayer) : p.isNull = false := by
  obtain ⟨bitmap, ary, count, level, rfl⟩ := h
  rfl

/-- The layer at a place is found from every id of the place. -/
theorem LayerAt.node_isLayer (h : LayerAt L top k q) (hid : id / 2 ^ (idrBits * k) = q) :
    (node L top id k).IsLayer := by
  have hpos := Nat.two_pow_pos (idrBits * k)
  rw [@node_congr _ L k (q * 2 ^ (idrBits * k)) id top h.2.1
    (by rw [hid, Nat.mul_div_cancel _ hpos])]
  exact h.2.2.2

/-- The end of a place is inside the tree. -/
theorem LayerAt.le_top (h : LayerAt L top k q) :
    (q + 1) * 2 ^ (idrBits * k) ≤ 2 ^ (idrBits * L) := by
  have hle := add_le_of_dvd (Nat.mul_le_mul_left idrBits h.2.1) (Nat.dvd_mul_left _ q) h.2.2.1
  rwa [← Nat.succ_mul] at hle

/-- A block that meets a layer's place is below the layer, or at a leaf. -/
theorem Block.level_le (hb : Block L top 1 id l) (h : LayerAt L top k q) {j : Nat} (hle : id ≤ j)
    (hlt : j < id + 2 ^ (idrBits * l)) (hj : j / 2 ^ (idrBits * k) = q) : l < k ∨ l = 1 ∧ k = 1 := by
  have hpos := h.1
  rcases hb.stops with rfl | hnull
  · omega
  · refine Or.inl (not_le.1 fun hkl => ?_)
    have hnode := node_null_of_le hb.le ((hb.node_eq hle hlt).trans hnull) k hkl
    obtain ⟨bitmap, ary, count, level, heq⟩ := h.node_isLayer hj
    rw [hnode] at heq
    cases heq

/-! ## The layers a walk frees -/

/-- The layers that one turn frees: those from its block's level on up to where the next id has no
digits. -/
def turnFrees (L : Nat) (top : Ptr α) (id l l' : Nat) : List (Nat × Nat) :=
  layersAt L top id (List.range' l (l' - l))

/-- A turn frees a layer of the leaves or at the first slot when the layer's place ends with the
turn's block. -/
theorem Block.count_turnFrees {l' : Nat} (hb : Block L top 1 id l) (hle : l ≤ l')
    (hreached : ∀ k, l ≤ k → k < l' → 2 ^ (idrBits * k) ≤ id + 2 ^ (idrBits * l))
    (hend : ∀ k, k ≤ L → 2 ^ (idrBits * k) ≤ id + 2 ^ (idrBits * l) → k < l')
    (h : LayerAt L top k q) (hfirst : 2 ≤ k → q = 0) :
    (turnFrees L top id l l').count (k, q) =
      if id < (q + 1) * 2 ^ (idrBits * k) ∧
        (q + 1) * 2 ^ (idrBits * k) ≤ id + 2 ^ (idrBits * l) then 1 else 0 := by
  have hpos := Nat.two_pow_pos (idrBits * k)
  unfold turnFrees
  rw [count_layersAt, Nat.add_sub_cancel' hle]
  congr 1
  apply propext
  constructor
  · rintro ⟨⟨hlk, hkl⟩, -, rfl⟩
    have hlt : id < (id / 2 ^ (idrBits * k) + 1) * 2 ^ (idrBits * k) :=
      Nat.lt_mul_of_div_lt (Nat.lt_succ_self _) hpos
    refine ⟨hlt, ?_⟩
    by_cases hk : 2 ≤ k
    · rw [hfirst hk, Nat.zero_add, Nat.one_mul]
      exact hreached k hlk hkl
    · -- a leaf is a block of its own
      obtain rfl : k = 1 := by have := h.1; omega
      obtain rfl : l = 1 := by have := hb.bottom_le; omega
      rw [Nat.succ_mul, Nat.div_mul_cancel hb.dvd]
  rintro ⟨hlt, hge⟩
  have hblock := Nat.two_pow_pos (idrBits * l)
  obtain ⟨i, hi⟩ := hb.dvd
  -- the block is at the layer's level or below
  have hlk : l ≤ k := by
    by_contra hkl
    have hdvd : 2 ^ (idrBits * k) ∣ id :=
      (Nat.pow_dvd_pow 2 (Nat.mul_le_mul_left _ (by omega))).trans hb.dvd
    obtain ⟨n, hn⟩ := hdvd
    rw [hn, Nat.mul_comm] at hlt
    have hnq : n ≤ q := Nat.le_of_lt_succ (Nat.lt_of_mul_lt_mul_right hlt)
    have hfrom : id ≤ q * 2 ^ (idrBits * k) := by
      rw [hn, Nat.mul_comm]
      exact Nat.mul_le_mul_right _ hnq
    rw [Nat.succ_mul] at hge
    have hlevel := hb.level_le h hfrom (by omega) (Nat.mul_div_cancel q hpos)
    omega
  have hpow : 2 ^ (idrBits * k) = 2 ^ (idrBits * l) * 2 ^ (idrBits * k - idrBits * l) := by
    rw [← pow_add, Nat.add_sub_cancel' (Nat.mul_le_mul_left _ hlk)]
  have hle' : 2 ^ (idrBits * l) ≤ 2 ^ (idrBits * k) :=
    Nat.pow_le_pow_right (by decide) (Nat.mul_le_mul_left _ hlk)
  -- so the block ends where the place does
  have heq : id + 2 ^ (idrBits * l) = (q + 1) * 2 ^ (idrBits * k) := by
    refine le_antisymm ?_ hge
    rw [hi, hpow, Nat.mul_left_comm] at hlt
    have hlt := Nat.lt_of_mul_lt_mul_left hlt
    calc id + 2 ^ (idrBits * l) = 2 ^ (idrBits * l) * (i + 1) := by rw [hi, Nat.mul_add_one]
      _ ≤ 2 ^ (idrBits * l) * ((q + 1) * 2 ^ (idrBits * k - idrBits * l)) :=
          Nat.mul_le_mul_left _ hlt
      _ = (q + 1) * 2 ^ (idrBits * k) := by rw [hpow, Nat.mul_left_comm]
  have hdiv : id / 2 ^ (idrBits * k) = q := by
    refine Nat.div_eq_of_lt_le ?_ hlt
    rw [Nat.succ_mul] at heq
    omega
  refine ⟨⟨hlk, hend k h.2.1 ?_⟩, isNull_of_isLayer (h.node_isLayer hdiv), hdiv.symm⟩
  rw [heq]
  exact Nat.le_mul_of_pos_left _ (Nat.succ_pos q)

/-- A turn inside the place of a layer that is neither a leaf nor at the first slot frees it. -/
theorem Block.mem_turnFrees {l' : Nat} (hb : Block L top 1 id l) (hle : l ≤ l')
    (hend : ∀ k, k ≤ L → 2 ^ (idrBits * k) ≤ id + 2 ^ (idrBits * l) → k < l')
    (h : LayerAt L top k q) (hk : 2 ≤ k) (hq : q ≠ 0) (hid : id / 2 ^ (idrBits * k) = q) :
    1 ≤ (turnFrees L top id l l').count (k, q) ∧
      id + 2 ^ (idrBits * l) < id + 2 ^ (idrBits * k) := by
  have hpos := Nat.two_pow_pos (idrBits * l)
  have hlevel := hb.level_le h le_rfl (by omega) hid
  have hlk : l < k := by omega
  have hfrom : 2 ^ (idrBits * k) ≤ id := by
    by_contra hlt
    rw [Nat.div_eq_of_lt (by omega)] at hid
    exact hq hid.symm
  constructor
  · unfold turnFrees
    rw [count_layersAt, Nat.add_sub_cancel' hle, if_pos]
    exact ⟨⟨hlk.le, hend k h.2.1 (by omega)⟩, isNull_of_isLayer (h.node_isLayer hid), hid.symm⟩
  · have hpow : 2 ^ (idrBits * l) < 2 ^ (idrBits * k) :=
      Nat.pow_lt_pow_right (by decide) (Nat.mul_lt_mul_of_pos_left hlk (by decide))
    omega

/-- A turn that starts before a layer's place does not pass its start. -/
theorem Block.le_start (hb : Block L top 1 id l) (h : LayerAt L top k q) (hk : 2 ≤ k)
    (hid : id < q * 2 ^ (idrBits * k)) : id + 2 ^ (idrBits * l) ≤ q * 2 ^ (idrBits * k) := by
  by_contra hpast
  have hpos := Nat.two_pow_pos (idrBits * k)
  have hlevel := hb.level_le h hid.le (by omega) (Nat.mul_div_cancel q hpos)
  have hlk : l ≤ k := by omega
  have hdvd : 2 ^ (idrBits * l) ∣ q * 2 ^ (idrBits * k) :=
    (Nat.pow_dvd_pow 2 (Nat.mul_le_mul_left _ hlk)).trans (Nat.dvd_mul_left _ _)
  obtain ⟨i, hi⟩ := hb.dvd
  obtain ⟨n, hn⟩ := hdvd
  rw [hi, hn] at hid
  have hlt := Nat.lt_of_mul_lt_mul_left hid
  have hmul := Nat.mul_le_mul_left (2 ^ (idrBits * l)) hlt
  rw [← hn, Nat.mul_succ, ← hi] at hmul
  exact hpast hmul

/-- What a walk that goes on from an id frees. -/
structure Frees (L : Nat) (top : Ptr α) (id : Nat) (freed : List (Nat × Nat)) : Prop where
  layers : ∀ k q, (k, q) ∈ freed → LayerAt L top k q
  once : ∀ k q, LayerAt L top k q → (2 ≤ k → q = 0) →
    freed.count (k, q) = if id < (q + 1) * 2 ^ (idrBits * k) then 1 else 0
  inside : ∀ k q, LayerAt L top k q → 2 ≤ k → q ≠ 0 → id / 2 ^ (idrBits * k) = q →
    1 ≤ freed.count (k, q)
  twice : ∀ k q, LayerAt L top k q → 2 ≤ k → q ≠ 0 → id ≤ q * 2 ^ (idrBits * k) →
    2 ≤ freed.count (k, q)

/-- Only layers are freed. -/
theorem Block.layerAt_of_mem {l' : Nat} (hlayered : Layered L 0 top) (hb : Block L top 1 id l)
    (hid : id < 2 ^ (idrBits * L)) (hle : l ≤ l') (hl' : l' ≤ L + 1)
    (h : (k, q) ∈ turnFrees L top id l l') : LayerAt L top k q := by
  have hpos := Nat.two_pow_pos (idrBits * k)
  have hbottom := hb.bottom_le
  have hcount := List.count_pos_iff.2 h
  unfold turnFrees at hcount
  rw [count_layersAt, Nat.add_sub_cancel' hle] at hcount
  split_ifs at hcount with hmem
  · obtain ⟨⟨hlk, hkl⟩, hnull, rfl⟩ := hmem
    have hstart := Nat.div_mul_le_self id (2 ^ (idrBits * k))
    refine ⟨by omega, by omega, by omega, ?_⟩
    rw [@node_congr _ L k id _ top (by omega) (Nat.mul_div_cancel _ hpos)]
    refine (hlayered id k (by omega) (by omega)).resolve_left fun hcon => ?_
    rw [hcon] at hnull
    cases hnull
  · cases hcount

theorem Block.frees_last (hlayered : Layered L 0 top) (hb : Block L top 1 id l)
    (hid : id < 2 ^ (idrBits * L)) (hlast : id + 2 ^ (idrBits * l) = 2 ^ (idrBits * L)) :
    Frees L top id (turnFrees L top id l (L + 1)) := by
  have hle : l ≤ L + 1 := hb.le.trans (Nat.le_succ L)
  have hend : ∀ k, k ≤ L → 2 ^ (idrBits * k) ≤ id + 2 ^ (idrBits * l) → k < L + 1 :=
    fun k hk _ => Nat.lt_succ_of_le hk
  refine ⟨fun k q hmem => hb.layerAt_of_mem hlayered hid hle le_rfl hmem, fun k q h hfirst => ?_,
    fun k q h hk hq hdiv => (hb.mem_turnFrees hle hend h hk hq hdiv).1, fun k q h hk hq hstart => ?_⟩
  · have htop := h.le_top
    rw [hb.count_turnFrees hle (fun k _ hk => ?_) hend h hfirst]
    · congr 1
      apply propext
      exact and_iff_left (by omega)
    · rw [hlast]
      exact Nat.pow_le_pow_right (by decide) (Nat.mul_le_mul_left _ (Nat.le_of_lt_succ hk))
  -- the place of such a layer does not start in the last block
  have htop := h.le_top
  have hpos := Nat.two_pow_pos (idrBits * k)
  rw [Nat.succ_mul] at htop
  rcases Nat.eq_or_lt_of_le hstart with heq | hlt
  · have hshort := (hb.mem_turnFrees hle hend h hk hq
      (by rw [heq, Nat.mul_div_cancel _ hpos])).2
    omega
  · have hpast := hb.le_start h hk hlt
    omega

/-- A turn and the turns after it. -/
theorem Frees.turn {l' : Nat} {freed : List (Nat × Nat)} (hlayered : Layered L 0 top)
    (hb : Block L top 1 id l) (hid : id < 2 ^ (idrBits * L)) (hle : l ≤ l') (hl' : l' ≤ L)
    (hreached : ∀ k, l ≤ k → k < l' → 2 ^ (idrBits * k) ≤ id + 2 ^ (idrBits * l))
    (hlt' : id + 2 ^ (idrBits * l) < 2 ^ (idrBits * l'))
    (hrest : Frees L top (id + 2 ^ (idrBits * l)) freed) :
    Frees L top id (turnFrees L top id l l' ++ freed) := by
  have hpos := Nat.two_pow_pos (idrBits * l)
  have hend : ∀ k, k ≤ L → 2 ^ (idrBits * k) ≤ id + 2 ^ (idrBits * l) → k < l' := by
    intro k _ hreach
    by_contra hcon
    have hpow : 2 ^ (idrBits * l') ≤ 2 ^ (idrBits * k) :=
      Nat.pow_le_pow_right (by decide) (Nat.mul_le_mul_left _ (by omega))
    omega
  refine ⟨fun k q hmem => ?_, fun k q h hfirst => ?_, fun k q h hk hq hdiv => ?_,
    fun k q h hk hq hstart => ?_⟩
  · rcases List.mem_append.1 hmem with hmem | hmem
    · exact hb.layerAt_of_mem hlayered hid hle (by omega) hmem
    · exact hrest.layers k q hmem
  · rw [List.count_append, hb.count_turnFrees hle hreached hend h hfirst, hrest.once k q h hfirst]
    split_ifs <;> omega
  · have hturn := (hb.mem_turnFrees hle hend h hk hq hdiv).1
    rw [List.count_append]
    omega
  rw [List.count_append]
  have hplace := Nat.two_pow_pos (idrBits * k)
  rcases Nat.eq_or_lt_of_le hstart with heq | hlt
  · -- the first turn of the place does not end it, so there is a second one
    obtain ⟨hturn, hshort⟩ := hb.mem_turnFrees hle hend h hk hq
      (by rw [heq, Nat.mul_div_cancel _ hplace])
    have hdiv : (id + 2 ^ (idrBits * l)) / 2 ^ (idrBits * k) = q := by
      refine Nat.div_eq_of_lt_le (by omega) ?_
      rw [Nat.succ_mul]
      omega
    have hagain := hrest.inside k q h hk hq hdiv
    omega
  · have hmore := hrest.twice k q h hk hq (hb.le_start h hk hlt)
    omega

/-- The walk from the start of a turn. -/
theorem Head.removeAll (h : Head L top 1 id l) (hlayered : Layered L 0 top) (hhigh : high ≤ L)
    (junk : Ref α) (freed : List (Nat × Nat)) :
    ∃ high' ≤ L, ∃ freed', Frees L top id freed' ∧
      walk 1 (fun st _ _ => (st, false)) freeLayer junk (2 ^ (idrBits * L)) id l (ref L top id l)
        (path L top id l) freed false high = ⟨freed ++ freed', true, high'⟩ := by
  have hlayered' : Layered L 1 top := fun id k hk hle => hlayered id k (by omega) hle
  induction hd : 2 ^ (idrBits * L) - id using Nat.strong_induction_on
    generalizing id l freed high with
  | _ d ih =>
    obtain ⟨l', high', hhigh', hblock, -, hlast, hmore⟩ :=
      h.walk_turn hlayered' hhigh (fun st _ _ => (st, false)) freeLayer junk freed false
    have hid : id < 2 ^ (idrBits * L) :=
      h.lt.trans_le (Nat.pow_le_pow_right (by decide) (Nat.mul_le_mul_left _ h.le))
    have hpos := Nat.two_pow_pos (idrBits * l')
    rcases Nat.eq_or_lt_of_le (hblock.le_top hid) with heq | hlt
    · refine ⟨high', hhigh', _, hblock.frees_last hlayered hid heq, ?_⟩
      rw [hlast rfl heq, leaves_freeLayer]
      rfl
    · obtain ⟨l'', hhead, hle, hreached, hwalk⟩ := hmore rfl hlt
      obtain ⟨high'', hhigh'', freed', hfrees, heq⟩ :=
        ih _ (by omega) hhead hhigh' (freed ++ layersAt L top id (List.range' l' (l'' - l'))) rfl
      refine ⟨high'', hhigh'', _, hfrees.turn hlayered hblock hid hle hhead.le hreached hhead.lt, ?_⟩
      rw [hwalk, leaves_freeLayer, heq, List.append_assoc]
      rfl

/-- What `idr_remove_all` frees, and that its last pop goes below the first element of `pa`. -/
theorem Represents.removeAll (h : Represents s M) (junk : Ref α) :
    ∃ high ≤ s.layers, ∃ freed, Frees s.layers s.top 0 freed ∧
      idrRemoveAll s junk = ⟨freed, true, high⟩ := by
  by_cases hlayers : 1 ≤ s.layers
  · obtain ⟨high, hle, freed, hfrees, heq⟩ := (Head.start s.top hlayers).removeAll h.stores.layered
      (Nat.zero_le _) junk []
    rw [ref_start, path_top, List.nil_append] at heq
    exact ⟨high, hle, freed, hfrees, heq⟩
  -- an empty idr: one turn at a null pointer
  have hzero : s.layers = 0 := by omega
  have htop : s.top = .null := by
    rcases h.tree with ⟨-, htop, -⟩ | ⟨L, hL, -⟩
    · exact htop
    · omega
  refine ⟨0, Nat.zero_le _, [], ?_, ?_⟩
  · exact ⟨nofun, fun k q h _ => by have := h.1; have := h.2.1; omega,
      fun k q h hk _ _ => by have := h.2.1; omega, fun k q h hk _ _ => by have := h.2.1; omega⟩
  unfold idrRemoveAll
  rw [hzero, htop, walk.eq_def, if_pos (Nat.two_pow_pos _)]
  show (match goUp freeLayer junk (0 + 2 ^ (idrBits * 0)) 0 ⟨0, 0, .null⟩ [] [] false with
    | (l', r, stack, st, low) => walk 1 (fun st _ _ => (st, false)) freeLayer junk
        (2 ^ (idrBits * 0)) (0 + 2 ^ (idrBits * 0)) l' r stack st low 0) = _
  rw [goUp_nil (by decide), goUp_of_lt (by decide)]
  dsimp only
  rw [walk.eq_def, if_neg (by decide)]
  rfl

/-- Every layer is freed exactly once, and nothing else. -/
def FreesOnce (L : Nat) (top : Ptr α) (freed : List (Nat × Nat)) : Prop :=
  ∀ k q, (LayerAt L top k q → freed.count (k, q) = 1) ∧
    (¬LayerAt L top k q → freed.count (k, q) = 0)

/-- Every layer is freed exactly once when, above the leaves, there are only layers at the first
slots. -/
theorem Frees.freesOnce_iff {freed : List (Nat × Nat)} (h : Frees L top 0 freed) :
    FreesOnce L top freed ↔ Leftmost L top := by
  constructor
  · intro honce k q hk hlayer
    by_contra hq
    have htwice := h.twice k q hlayer hk hq (Nat.zero_le _)
    have hcount := (honce k q).1 hlayer
    omega
  · intro hleft k q
    constructor
    · intro hlayer
      rw [h.once k q hlayer fun hk => hleft k q hk hlayer,
        if_pos (Nat.mul_pos (Nat.succ_pos q) (Nat.two_pow_pos _))]
    · intro hnot
      exact List.count_eq_zero.2 fun hmem => hnot (h.layers k q hmem)

/-! ## Traversals -/

/-- The calls are for the ids with a pointer, in ascending order. -/
structure Calls (M : IdMap α) (calls : List (Nat × α)) : Prop where
  ascending : calls.Pairwise fun first second => first.1 < second.1
  mem : ∀ id x, (id, x) ∈ calls ↔ M id = some (some x)

/-- What is promised of both walks. -/
structure Traverses {σ : Type} (s : Idr α) (M : IdMap α) (fn : σ → Nat → α → σ × Int)
    (junk : Ref α) (st : σ) : Prop where
  calls : ∃ calls, Calls M calls ∧ (idrForEach s fn junk st).st = runCalls fn st calls
  frees : FreesOnce s.layers s.top (idrRemoveAll s junk).st
  popsInside : (idrForEach s fn junk st).low = false ∧ (idrRemoveAll s junk).low = false
  pushesInside : (idrForEach s fn junk st).high ≤ maxLevel ∧ (idrRemoveAll s junk).high ≤ maxLevel

theorem entry_eq_some {id j : Nat} {x : α} :
    entry M id = some (j, x) ↔ j = id ∧ M id = some (some x) := by
  unfold entry
  rw [Option.map_eq_some_iff]
  constructor
  · rintro ⟨y, hy, heq⟩
    obtain ⟨rfl, rfl⟩ := Prod.mk.inj heq
    exact ⟨rfl, Option.join_eq_some_iff.1 hy⟩
  · rintro ⟨rfl, hM⟩
    exact ⟨x, by rw [hM, Option.join_some], rfl⟩

theorem Represents.calls (h : Represents s M) :
    Calls M (entriesFrom M (2 ^ (idrBits * s.layers)) 0) where
  ascending := by
    refine List.Pairwise.filterMap (entry M) ?_ List.pairwise_lt_range'
    rintro i i' hlt ⟨j, x⟩ hj ⟨j', x'⟩ hj'
    obtain ⟨rfl, -⟩ := entry_eq_some.1 hj
    obtain ⟨rfl, -⟩ := entry_eq_some.1 hj'
    exact hlt
  mem := fun id x => by
    unfold entriesFrom
    rw [List.mem_filterMap]
    constructor
    · rintro ⟨i, -, hi⟩
      obtain ⟨rfl, hM⟩ := entry_eq_some.1 hi
      exact hM
    · intro hM
      have hlt : id < 2 ^ (idrBits * s.layers) := by
        by_contra hge
        rw [h.none_of_beyond (not_lt.1 hge)] at hM
        cases hM
      exact ⟨id, List.mem_range'_1.2 ⟨Nat.zero_le _, by omega⟩, entry_eq_some.2 ⟨rfl, hM⟩⟩

theorem Represents.layers_le (h : Represents s M) : s.layers ≤ maxLevel := by
  rcases h.tree with ⟨hlayers, -⟩ | ⟨L, hL, hT⟩
  · omega
  · have := hT.level
    omega

/-- After any calls with allocations within reach and removals in range, the walks are not as
promised: the last pop of `idr_remove_all` always goes below the first element of `pa`. The
callbacks of `idr_for_each` are right, its pops stay inside exactly when a callback stops it, no
push goes beyond `pa`, and `idr_remove_all` frees every layer once exactly when, above the leaves,
only the layers at the first slots exist. -/
theorem idr_traversal {σ : Type} {s : Idr α} {M : IdMap α}
    (hrun : Reaches CallStep callsInRange (Idr.initial, fun _ => none) (s, M))
    (fn : σ → Nat → α → σ × Int) (junk : Ref α) (st : σ) :
    ¬Traverses s M fn junk st ∧
      (∃ calls, Calls M calls ∧ (idrForEach s fn junk st).st = runCalls fn st calls) ∧
      ((idrForEach s fn junk st).low = false ↔ (idrForEach s fn junk st).st.2 ≠ 0) ∧
      (FreesOnce s.layers s.top (idrRemoveAll s junk).st ↔ Leftmost s.layers s.top) ∧
      (idrRemoveAll s junk).low = true ∧
      (idrForEach s fn junk st).high ≤ maxLevel ∧ (idrRemoveAll s junk).high ≤ maxLevel := by
  have h := represents_of_reaches hrun
  obtain ⟨high, hle, heach⟩ := h.forEach fn junk st
  obtain ⟨high', hle', freed, hfrees, hremove⟩ := h.removeAll junk
  have hlayers := h.layers_le
  refine ⟨fun htraverses => ?_, ⟨_, h.calls, by rw [heach]⟩, ?_, ?_, ?_, ?_, ?_⟩
  · have hlow := htraverses.popsInside.2
    rw [hremove] at hlow
    cases hlow
  · rw [heach]
    exact beq_eq_false_iff_ne
  · rw [hremove]
    exact hfrees.freesOnce_iff
  · rw [hremove]
  · rw [heach]
    exact hle.trans hlayers
  · rw [hremove]
    exact hle'.trans hlayers

/-- The walks of an idr with one pointer. -/
theorem idr_traversal_single :
    (idrRemoveAll single ⟨0, 0, .null⟩).low = true ∧
      ((idrForEach single (fun n _ x => (n + x, 0)) ⟨0, 0, .null⟩ 0).low = false ↔
        (idrForEach single (fun n _ x => (n + x, 0)) ⟨0, 0, .null⟩ 0).st.2 ≠ 0) := by
  obtain ⟨-, -, hlow, -, hremove, -⟩ :=
    idr_traversal reaches_single (fun n _ x => (n + x, 0)) ⟨0, 0, .null⟩ 0
  exact ⟨hremove, hlow⟩

/-- With one pointer at id 0 the last pop is below the first element of `pa`. -/
theorem remove_all_pops_below :
    ¬∀ (s : Idr Nat) (M : IdMap Nat) (junk : Ref Nat),
      Reaches CallStep callsInRange (Idr.initial, fun _ => none) (s, M) →
        Traverses s M (fun (n : Nat) _ x => (n + x, (0 : Int))) junk 0 := by
  intro h
  obtain ⟨high, -, freed, -, heq⟩ :=
    (represents_of_reaches reaches_single).removeAll ⟨0, 0, .null⟩
  have hlow := (h single _ ⟨0, 0, .null⟩ reaches_single).popsInside.2
  rw [heq] at hlow
  cases hlow

end AndroidKernel.Idr
