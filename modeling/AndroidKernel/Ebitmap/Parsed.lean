import AndroidKernel.Ebitmap.Sets

/-!
# Bitmaps that are read

`ebitmap_read` puts the units of the stream into nodes in order, and never writes outside a node. It
accepts units without a bit and any `highbit`; `ebitmap_read_canonical_iff` says when the bitmap is
nevertheless one that `ebitmap_cmp` and `ebitmap_contains` compare as a set.
-/

namespace AndroidKernel.Ebitmap

open Library

variable {n n' : EbitmapNode} {nodes before before' : List EbitmapNode} {startbit highbit : Nat}
variable {map : BitVec 64} {maps maps' : Fin ebitmapUnitNums → BitVec 32} {index : Nat}

/-! ## Units -/

/-- A unit of the stream. -/
structure MapUnit where
  startbit : Nat
  map : BitVec 64

/-- The units of the stream behind the header. -/
def mapUnits : Nat → List UInt8 → List MapUnit
  | 0, _ => []
  | count + 1, data =>
    ⟨leToCpu (data.take 4), BitVec.ofNat 64 (leToCpu ((data.drop 4).take 8))⟩ ::
      mapUnits count (data.drop 12)

/-- The start of the node of a unit. -/
def MapUnit.node (u : MapUnit) : Nat :=
  nodeStart u.startbit

/-- The end of the node of the last unit. -/
def lastEnd (us : List MapUnit) : Nat :=
  us.getLast?.elim 0 fun u => u.node + ebitmapSize

theorem lastEnd_concat (us : List MapUnit) (u : MapUnit) :
    lastEnd (us ++ [u]) = u.node + ebitmapSize := by
  rw [lastEnd, List.getLast?_concat]
  rfl

theorem endOf_concat (prev : Option EbitmapNode) (nodes : List EbitmapNode) (n : EbitmapNode) :
    endOf prev (nodes ++ [n]) = n.startbit + ebitmapSize := by
  induction nodes generalizing prev with
  | nil => exact endOf_cons prev
  | cons m nodes ih =>
    rw [List.cons_append, endOf_cons]
    exact ih (some m)

/-! ## Maps -/

theorem occupied_of_maps_ne {k : Fin ebitmapUnitNums} (h : n.maps k ≠ 0#32) : n.Occupied := by
  by_contra hnone
  refine h (BitVec.eq_of_getLsbD_eq fun j hj => ?_)
  have hlt : 32 * k.val + j < ebitmapSize := by
    have hk : k.val < 6 := k.isLt
    rw [ebitmapSize_eq]
    omega
  rw [BitVec.getLsbD_zero, ← EbitmapNode.bit_at k hj]
  exact (Bool.not_eq_true _).mp fun hbit => hnone ⟨_, hlt, hbit⟩

theorem zeroed_not_occupied (bit : Nat) : ¬ (EbitmapNode.zeroed bit).Occupied := by
  rintro ⟨i, _, hbit⟩
  rw [EbitmapNode.zeroed_bit] at hbit
  cases hbit

/-- What the loop over `map` writes: nothing, one word or two words, the last one of them not 0. -/
theorem storeMap_spec (h : index + 1 < ebitmapUnitNums) :
    ∃ maps', storeMap maps index map = some maps' ∧ (map = 0#64 → maps' = maps) ∧
      (map ≠ 0#64 → ∃ k, maps' k ≠ 0#32) := by
  by_cases hmap : map = 0#64
  · refine ⟨maps, ?_, fun _ => rfl, fun hne => absurd hmap hne⟩
    rw [storeMap, if_pos hmap]
  have hindex : index < ebitmapUnitNums := Nat.lt_of_succ_lt h
  rw [storeMap, if_neg hmap, dif_pos hindex]
  have hshift : map >>> (ebitmapUnitSize / 2) >>> (ebitmapUnitSize / 2) = map >>> 32 :=
    (BitVec.shiftRight_add map 16 16).symm
  rw [hshift, storeMap]
  by_cases hhigh : map >>> 32 = 0#64
  · rw [if_pos hhigh]
    refine ⟨_, rfl, fun heq => absurd heq hmap, fun _ => ⟨⟨index, hindex⟩, ?_⟩⟩
    rw [Function.update_self]
    exact fun hlow => hmap (by bv_omega)
  rw [if_neg hhigh, dif_pos h, storeMap]
  have hend : map >>> 32 >>> (ebitmapUnitSize / 2) >>> (ebitmapUnitSize / 2) = 0#64 := by
    rw [← BitVec.shiftRight_add, ← BitVec.shiftRight_add]
    exact BitVec.ushiftRight_eq_zero (by decide)
  rw [if_pos hend]
  refine ⟨_, rfl, fun heq => absurd heq hmap, fun _ => ⟨⟨index + 1, h⟩, ?_⟩⟩
  rw [Function.update_self]
  exact fun hlow => hhigh (by bv_omega)

/-! ## Nodes -/

/-- The nodes that a list of units is put into. -/
structure Packed (highbit : Nat) (nodes : List EbitmapNode) (us : List MapUnit) : Prop where
  sorted : nodes.Pairwise fun n m => n.startbit < m.startbit
  aligned : ∀ n ∈ nodes, n.startbit % ebitmapSize = 0
  bounded : ∀ n ∈ nodes, n.startbit + ebitmapSize ≤ highbit
  placed : ∀ u ∈ us, ∃ n ∈ nodes, n.startbit = u.node
  filled : ∀ n ∈ nodes, ∃ u ∈ us, u.node = n.startbit
  occupied_iff : ∀ n ∈ nodes, n.Occupied ↔ ∃ u ∈ us, u.node = n.startbit ∧ u.map ≠ 0#64
  last : endOf none nodes = lastEnd us

/-- The same when the node of the next unit has been found, as the last one. -/
structure Placed (highbit : Nat) (before : List EbitmapNode) (n : EbitmapNode) (us : List MapUnit)
    (startbit : Nat) : Prop where
  sorted : before.Pairwise fun n m => n.startbit < m.startbit
  below : ∀ m ∈ before, m.startbit < n.startbit
  aligned : ∀ m ∈ before ++ [n], m.startbit % ebitmapSize = 0
  bounded : ∀ m ∈ before ++ [n], m.startbit + ebitmapSize ≤ highbit
  placed : ∀ u ∈ us, ∃ m ∈ before ++ [n], m.startbit = u.node
  filled : ∀ m ∈ before, ∃ u ∈ us, u.node = m.startbit
  occupied_iff : ∀ m ∈ before ++ [n],
    m.Occupied ↔ ∃ u ∈ us, u.node = m.startbit ∧ u.map ≠ 0#64
  start : n.startbit = nodeStart startbit

variable {us : List MapUnit} {alloc : Nat → Bool}

theorem packed_nil (highbit : Nat) : Packed highbit [] [] :=
  ⟨.nil, nofun, nofun, nofun, nofun, nofun, rfl⟩

theorem nodeStart_mod (bit : Nat) : nodeStart bit % ebitmapSize = 0 := by
  rw [nodeStart, ebitmapSize_eq]
  omega

/-- A new node behind the others. -/
theorem Packed.fresh (h : Packed highbit nodes us)
    (hbelow : ∀ m ∈ nodes, m.startbit < nodeStart startbit)
    (hfit : nodeStart startbit + ebitmapSize ≤ highbit) :
    Placed highbit nodes (.zeroed startbit) us startbit := by
  refine ⟨h.sorted, hbelow, ?_, ?_, ?_, h.filled, ?_, rfl⟩
  · intro m hm
    rcases List.mem_append.mp hm with hm | hm
    · exact h.aligned m hm
    · rw [List.mem_singleton.mp hm]
      exact nodeStart_mod startbit
  · intro m hm
    rcases List.mem_append.mp hm with hm | hm
    · exact h.bounded m hm
    · rw [List.mem_singleton.mp hm]
      exact hfit
  · intro u hu
    obtain ⟨m, hm, hstart⟩ := h.placed u hu
    exact ⟨m, List.mem_append_left _ hm, hstart⟩
  · intro m hm
    rcases List.mem_append.mp hm with hm | hm
    · exact h.occupied_iff m hm
    · rw [List.mem_singleton.mp hm, iff_false_left (zeroed_not_occupied startbit)]
      rintro ⟨u, hu, hnode, _⟩
      obtain ⟨m', hm', hstart⟩ := h.placed u hu
      exact Nat.ne_of_lt (hbelow m' hm') (hstart.trans hnode)

theorem Packed.again (h : Packed highbit (before ++ [n]) us)
    (hstart : n.startbit = nodeStart startbit) : Placed highbit before n us startbit := by
  obtain ⟨hsorted, _, hbelow⟩ := List.pairwise_append.mp h.sorted
  exact ⟨hsorted, fun m hm => hbelow m hm n (List.mem_singleton.mpr rfl), h.aligned, h.bounded,
    h.placed, fun m hm => h.filled m (List.mem_append_left _ hm), h.occupied_iff, hstart⟩

/-- A unit that is placed belongs to one of the nodes up to `highbit`. -/
structure UnitOk (highbit startbit : Nat) : Prop where
  word : highbit < word
  fit : nodeStart startbit + ebitmapSize ≤ highbit

variable {last : Option EbitmapNode}

/-- The test for a new node finds the node of the unit. -/
theorem nodeOf_placed (h : Packed highbit (before ++ last.toList) us)
    (hnone : last = none → before = []) (hunit : UnitOk highbit startbit)
    (hnode : nodeOf alloc before last startbit = .ok (before', n')) :
    Placed highbit before' n' us startbit := by
  have hnew : (∀ m ∈ before ++ last.toList, m.startbit < nodeStart startbit) →
      (if alloc (before ++ last.toList).length then
        Except.ok (before ++ last.toList, EbitmapNode.zeroed startbit)
        else Except.error (-enomem)) = Except.ok (before', n') →
      Placed highbit before' n' us startbit := by
    intro hbelow hok
    split_ifs at hok
    obtain ⟨rfl, rfl⟩ := Prod.mk.inj (Except.ok.inj hok)
    exact h.fresh hbelow hunit.fit
  unfold nodeOf at hnode
  cases last with
  | none =>
    rw [hnone rfl] at hnew hnode
    exact hnew nofun hnode
  | some n =>
    have hmem : n ∈ before ++ [n] := List.mem_append_right _ (List.mem_singleton.mpr rfl)
    have haligned := h.aligned n hmem
    have hend : wadd n.startbit ebitmapSize = n.startbit + ebitmapSize :=
      wadd_eq (Nat.lt_of_le_of_lt (h.bounded n hmem) hunit.word)
    dsimp only at hnode
    rw [hend] at hnode
    by_cases hbehind : n.startbit + ebitmapSize ≤ startbit
    · rw [if_pos hbehind] at hnode
      refine hnew (fun m hm => ?_) hnode
      have hlast : n.startbit < nodeStart startbit := by
        rw [nodeStart]
        rw [ebitmapSize_eq] at *
        omega
      obtain ⟨_, _, hbelow⟩ := List.pairwise_append.mp h.sorted
      rcases List.mem_append.mp hm with hm | hm
      · exact Nat.lt_trans (hbelow m hm n (List.mem_singleton.mpr rfl)) hlast
      · rw [List.mem_singleton.mp hm]
        exact hlast
    · rw [if_neg hbehind] at hnode
      split_ifs at hnode with hle
      obtain ⟨rfl, rfl⟩ := Prod.mk.inj (Except.ok.inj hnode)
      refine h.again ?_
      rw [nodeStart]
      rw [ebitmapSize_eq] at *
      omega

theorem Placed.store (h : Placed highbit before n us startbit)
    (hzero : map = 0#64 → maps' = n.maps) (hne : map ≠ 0#64 → ∃ k, maps' k ≠ 0#32) :
    Packed highbit (before ++ [{ n with maps := maps' }]) (us ++ [⟨startbit, map⟩]) := by
  have hnode : MapUnit.node ⟨startbit, map⟩ = n.startbit := h.start.symm
  have hn : n ∈ before ++ [n] := List.mem_append_right _ (List.mem_singleton.mpr rfl)
  have hunit : (⟨startbit, map⟩ : MapUnit) ∈ us ++ [⟨startbit, map⟩] :=
    List.mem_append_right _ (List.mem_singleton.mpr rfl)
  have hkeep : n.Occupied → EbitmapNode.Occupied { n with maps := maps' } := by
    intro hoccupied
    by_cases hmap : map = 0#64
    · rw [hzero hmap]
      exact hoccupied
    · obtain ⟨k, hk⟩ := hne hmap
      exact occupied_of_maps_ne hk
  refine ⟨?_, ?_, ?_, ?_, ?_, ?_, ?_⟩
  · refine List.pairwise_append.mpr ⟨h.sorted, List.pairwise_singleton .., fun m hm m' hm' => ?_⟩
    rw [List.mem_singleton.mp hm']
    exact h.below m hm
  · intro m hm
    rcases List.mem_append.mp hm with hm | hm
    · exact h.aligned m (List.mem_append_left _ hm)
    · rw [List.mem_singleton.mp hm]
      exact h.aligned n hn
  · intro m hm
    rcases List.mem_append.mp hm with hm | hm
    · exact h.bounded m (List.mem_append_left _ hm)
    · rw [List.mem_singleton.mp hm]
      exact h.bounded n hn
  · intro u hu
    rcases List.mem_append.mp hu with hu | hu
    · obtain ⟨m, hm, hstart⟩ := h.placed u hu
      rcases List.mem_append.mp hm with hm | hm
      · exact ⟨m, List.mem_append_left _ hm, hstart⟩
      · rw [List.mem_singleton.mp hm] at hstart
        exact ⟨_, List.mem_append_right _ (List.mem_singleton.mpr rfl), hstart⟩
    · rw [List.mem_singleton.mp hu]
      exact ⟨_, List.mem_append_right _ (List.mem_singleton.mpr rfl), hnode.symm⟩
  · intro m hm
    rcases List.mem_append.mp hm with hm | hm
    · obtain ⟨u, hu, hstart⟩ := h.filled m hm
      exact ⟨u, List.mem_append_left _ hu, hstart⟩
    · rw [List.mem_singleton.mp hm]
      exact ⟨_, hunit, hnode⟩
  · intro m hm
    rcases List.mem_append.mp hm with hm | hm
    · have hother : m.startbit ≠ MapUnit.node ⟨startbit, map⟩ := by
        rw [hnode]
        exact Nat.ne_of_lt (h.below m hm)
      rw [h.occupied_iff m (List.mem_append_left _ hm)]
      constructor
      · rintro ⟨u, hu, hstart, hmap⟩
        exact ⟨u, List.mem_append_left _ hu, hstart, hmap⟩
      · rintro ⟨u, hu, hstart, hmap⟩
        rcases List.mem_append.mp hu with hu | hu
        · exact ⟨u, hu, hstart, hmap⟩
        · rw [List.mem_singleton.mp hu] at hstart
          exact absurd hstart.symm hother
    rw [List.mem_singleton.mp hm]
    constructor
    · intro hoccupied
      by_cases hmap : map = 0#64
      · rw [hzero hmap] at hoccupied
        obtain ⟨u, hu, hstart, hmap⟩ := (h.occupied_iff n hn).mp hoccupied
        exact ⟨u, List.mem_append_left _ hu, hstart, hmap⟩
      · exact ⟨_, hunit, hnode, hmap⟩
    · rintro ⟨u, hu, hstart, hmap⟩
      rcases List.mem_append.mp hu with hu | hu
      · exact hkeep ((h.occupied_iff n hn).mpr ⟨u, hu, hstart, hmap⟩)
      · rw [List.mem_singleton.mp hu] at hmap
        obtain ⟨k, hk⟩ := hne hmap
        exact occupied_of_maps_ne hk
  · rw [endOf_concat, lastEnd_concat, hnode]

/-! ## The loop -/

theorem nextEntry_eq {bytes : Nat} {data buf rest : List UInt8}
    (h : nextEntry bytes data = some (buf, rest)) :
    buf = data.take bytes ∧ rest = data.drop bytes := by
  unfold nextEntry at h
  split_ifs at h
  obtain ⟨rfl, rfl⟩ := Prod.mk.inj (Option.some.inj h)
  exact ⟨rfl, rfl⟩

/-- `highbit` after it is rounded up, if it is not 0. -/
structure HighbitOk (highbit : Nat) : Prop where
  aligned : highbit % ebitmapSize = 0
  pos : highbit ≠ 0
  lt : highbit < word

/-- A start bit that passes the two tests is that of a unit of some node up to `highbit`. -/
theorem HighbitOk.unitOk (h : HighbitOk highbit) (hmask : ¬ startbit &&& (mapunit - 1) ≠ 0)
    (hend : ¬ wsub highbit mapunit < startbit) :
    UnitOk highbit startbit ∧ (startbit - nodeStart startbit) / ebitmapUnitSize + 1 <
      ebitmapUnitNums := by
  obtain ⟨haligned, hpos, hlt⟩ := h
  have hmod : startbit % 64 = 0 := by
    rw [← Nat.and_two_pow_sub_one_eq_mod startbit 6]
    exact not_not.mp hmask
  have hle : mapunit ≤ highbit := by
    rw [ebitmapSize_eq] at haligned
    rw [mapunit]
    omega
  rw [wsub_eq hle hlt] at hend
  rw [nodeStart]
  refine ⟨⟨hlt, ?_⟩, ?_⟩
  · rw [nodeStart]
    rw [ebitmapSize_eq] at *
    rw [mapunit] at hend
    omega
  · show (startbit - (startbit - startbit % 192)) / 32 + 1 < 6
    omega

theorem bad_ne_zero (rc : Int) (data : List UInt8) : (bad rc data).rc ≠ 0 := by
  show (if rc = 0 then -einval else rc) ≠ 0
  split_ifs with hzero
  · decide
  · exact hzero

/-- Each round puts one unit into the nodes; nothing is written outside them. -/
theorem readMaps_spec (alloc : Nat → Bool) (count : Nat) (data : List UInt8)
    (hhighbit : HighbitOk highbit) (h : Packed highbit (before ++ last.toList) us)
    (hnone : last = none → before = []) :
    ∃ r, readMaps alloc highbit count before last data = some r ∧
      (r.rc = 0 → r.e.highbit = highbit ∧
        Packed highbit r.e.nodes (us ++ mapUnits count data)) := by
  induction count generalizing before last us data with
  | zero =>
    refine ⟨_, rfl, fun _ => ⟨rfl, ?_⟩⟩
    rw [mapUnits, List.append_nil]
    exact h
  | succ count ih =>
    rw [readMaps]
    cases hstart : nextEntry 4 data with
    | none => exact ⟨_, rfl, nofun⟩
    | some entry =>
      obtain ⟨buf, rest⟩ := entry
      obtain ⟨rfl, rfl⟩ := nextEntry_eq hstart
      dsimp only
      by_cases hmask : leToCpu (data.take 4) &&& (mapunit - 1) ≠ 0
      · rw [if_pos hmask]
        exact ⟨_, rfl, nofun⟩
      rw [if_neg hmask]
      by_cases hend : wsub highbit mapunit < leToCpu (data.take 4)
      · rw [if_pos hend]
        exact ⟨_, rfl, nofun⟩
      rw [if_neg hend]
      obtain ⟨hunit, hindex⟩ := hhighbit.unitOk hmask hend
      cases hnode : nodeOf alloc before last (leToCpu (data.take 4)) with
      | error rc => exact ⟨_, rfl, fun hrc => absurd hrc (bad_ne_zero rc _)⟩
      | ok node =>
        obtain ⟨before', n⟩ := node
        have hplaced := nodeOf_placed h hnone hunit hnode
        dsimp only
        cases hmap : nextEntry 8 (data.drop 4) with
        | none => exact ⟨_, rfl, nofun⟩
        | some entry =>
          obtain ⟨buf, rest⟩ := entry
          obtain ⟨rfl, rfl⟩ := nextEntry_eq hmap
          dsimp only
          rw [← hplaced.start] at hindex
          obtain ⟨maps', hstore, hzero, hne⟩ := storeMap_spec hindex
          rw [hstore]
          have hnext : Packed highbit (before' ++ (some { n with maps := maps' }).toList) _ :=
            hplaced.store hzero hne
          obtain ⟨r, hr, hspec⟩ := ih _ hnext fun heq => by cases heq
          refine ⟨r, hr, fun hrc => ?_⟩
          rw [List.append_assoc, List.drop_drop] at hspec
          exact hspec hrc

/-! ## Streams -/

/-- `highbit` of a stream, rounded up. -/
def streamHighbit (data : List UInt8) : Nat :=
  roundHighbit (leToCpu ((data.drop 4).take 4))

/-- The units that are read: none of them if `highbit` is 0. -/
def streamUnits (data : List UInt8) : List MapUnit :=
  if streamHighbit data = 0 then []
  else mapUnits (leToCpu ((data.drop 8).take 4)) (data.drop 12)

/-- Some unit of each node has a bit, and `highbit` is the end of the node of the last unit. -/
def Tight (data : List UInt8) : Prop :=
  (∀ u ∈ streamUnits data, ∃ u' ∈ streamUnits data, u'.node = u.node ∧ u'.map ≠ 0#64) ∧
    streamHighbit data = lastEnd (streamUnits data)

theorem roundHighbit_ok {highbit : Nat} (hpos : roundHighbit highbit ≠ 0) :
    HighbitOk (roundHighbit highbit) := by
  refine ⟨?_, hpos, ?_⟩
  · show nodeStart (wadd highbit (ebitmapSize - 1)) % ebitmapSize = 0
    exact nodeStart_mod _
  · exact Nat.lt_of_le_of_lt (Nat.sub_le ..) (wadd_lt ..)

/-- What is read, when it is accepted. -/
theorem ebitmapRead_spec (alloc : Nat → Bool) (data : List UInt8) :
    ∃ r, ebitmapRead alloc data = some r ∧
      (r.rc = 0 → r.e.highbit = streamHighbit data ∧ r.e.highbit < word ∧
        Packed r.e.highbit r.e.nodes (streamUnits data)) := by
  unfold ebitmapRead
  cases hheader : nextEntry 12 data with
  | none => exact ⟨_, rfl, nofun⟩
  | some entry =>
    obtain ⟨buf, rest⟩ := entry
    obtain ⟨rfl, rfl⟩ := nextEntry_eq hheader
    have hhighbit : ((data.take 12).drop 4).take 4 = (data.drop 4).take 4 := by
      rw [List.drop_take, List.take_take]
      rfl
    have hcount : (data.take 12).drop 8 = (data.drop 8).take 4 := by
      rw [List.drop_take]
    dsimp only
    rw [hhighbit, hcount]
    by_cases hunit : leToCpu ((data.take 12).take 4) ≠ mapunit
    · rw [if_pos hunit]
      exact ⟨_, rfl, nofun⟩
    rw [if_neg hunit]
    change ∃ r, (if streamHighbit data = 0 then _ else _) = some r ∧ _
    by_cases hzero : streamHighbit data = 0
    · rw [if_pos hzero]
      refine ⟨_, rfl, fun _ => ⟨rfl, ?_, ?_⟩⟩
      · show streamHighbit data < word
        rw [hzero]
        decide
      · rw [streamUnits, if_pos hzero]
        exact packed_nil _
    rw [if_neg hzero]
    have hok : HighbitOk (streamHighbit data) := roundHighbit_ok hzero
    have hempty : Packed (streamHighbit data) ([] ++ (none : Option EbitmapNode).toList) [] :=
      packed_nil _
    obtain ⟨r, hr, hspec⟩ := readMaps_spec alloc (leToCpu ((data.drop 8).take 4))
      (data.drop 12) hok hempty fun _ => rfl
    refine ⟨r, hr, fun hrc => ?_⟩
    obtain ⟨heq, hpacked⟩ := hspec hrc
    rw [streamUnits, if_neg hzero, heq]
    exact ⟨rfl, hok.lt, hpacked⟩

variable {data : List UInt8}

theorem Packed.disjoint (h : Packed highbit nodes us) :
    nodes.Pairwise fun n m => n.startbit + ebitmapSize ≤ m.startbit := by
  refine (List.Pairwise.and_mem.mp h.sorted).imp ?_
  rintro n m ⟨hn, hm, hlt⟩
  have hn := h.aligned n hn
  have hm := h.aligned m hm
  rw [ebitmapSize_eq] at *
  omega

/-- No node is empty if and only if each has a unit with a bit. -/
theorem Packed.canonical_iff (h : Packed highbit nodes us) (hword : highbit < word) :
    Canonical nodes ↔ ∀ u ∈ us, ∃ u' ∈ us, u'.node = u.node ∧ u'.map ≠ 0#64 := by
  constructor
  · intro hcanonical u hu
    obtain ⟨n, hn, hstart⟩ := h.placed u hu
    rw [← hstart]
    exact (h.occupied_iff n hn).mp (hcanonical.ok n hn).occupied
  · intro hunits
    refine ⟨h.sorted, fun n hn => ⟨h.aligned n hn, ?_, ?_⟩⟩
    · exact Nat.lt_of_le_of_lt (h.bounded n hn) hword
    · obtain ⟨u, hu, hstart⟩ := h.filled n hn
      rw [h.occupied_iff n hn, ← hstart]
      exact hunits u hu

/-- `ebitmap_read` never writes outside a node, and the nodes of a bitmap that it accepts are in
order and apart. None of them is empty and `highbit` is the end of the last one if and only if the
stream is tight; then the bitmap is compared as a set with any other such bitmap. -/
theorem ebitmap_read_canonical_iff (alloc : Nat → Bool) (data : List UInt8) :
    ∃ r, ebitmapRead alloc data = some r ∧
      (r.rc = 0 →
        (r.e.nodes.Pairwise fun n m => n.startbit + ebitmapSize ≤ m.startbit) ∧
        (Wellformed r.e ↔ Tight data) ∧
        (Tight data → ∀ e, Wellformed e →
          (ebitmapCmp r.e e = true ↔ ∀ b, ebitmapGetBit r.e b = ebitmapGetBit e b) ∧
          (ebitmapContains r.e e = true ↔
            ∀ b, ebitmapGetBit e b = true → ebitmapGetBit r.e b = true) ∧
          (ebitmapContains e r.e = true ↔
            ∀ b, ebitmapGetBit r.e b = true → ebitmapGetBit e b = true))) := by
  obtain ⟨r, hr, hspec⟩ := ebitmapRead_spec alloc data
  refine ⟨r, hr, fun hrc => ?_⟩
  obtain ⟨hhighbit, hword, hpacked⟩ := hspec hrc
  have hiff : Wellformed r.e ↔ Tight data := by
    have hcanonical := hpacked.canonical_iff hword
    constructor
    · rintro ⟨hnodes, hend⟩
      exact ⟨hcanonical.mp hnodes, hhighbit.symm.trans (hend.trans hpacked.last)⟩
    · rintro ⟨hunits, hend⟩
      exact ⟨hcanonical.mpr hunits, hhighbit.trans (hend.trans hpacked.last.symm)⟩
  refine ⟨hpacked.disjoint, hiff, fun htight e he => ?_⟩
  have hread := hiff.mpr htight
  exact ⟨hread.cmp_iff he, hread.contains_iff he, he.contains_iff hread⟩

theorem wellformed_init : Wellformed ebitmapInit :=
  ⟨canonical_nil, rfl⟩

/-- A stream with one unit, of one bit. -/
def oneUnit : List UInt8 :=
  [64, 0, 0, 0, 64, 0, 0, 0, 1, 0, 0, 0, 0, 0, 0, 0, 1, 0, 0, 0, 0, 0, 0, 0]

/-- It is tight, and is read as a bitmap that has all the bits of the empty one. -/
theorem ebitmap_read_canonical_iff_one :
    ∃ r, ebitmapRead (fun _ => true) oneUnit = some r ∧ r.rc = 0 ∧ Tight oneUnit ∧
      Wellformed r.e ∧ ebitmapContains r.e ebitmapInit = true := by
  have htight : Tight oneUnit := ⟨by decide, by decide⟩
  have hread : (ebitmapRead (fun _ => true) oneUnit).map Read.rc = some 0 := by decide +kernel
  obtain ⟨r, hr, hspec⟩ := ebitmap_read_canonical_iff (fun _ => true) oneUnit
  rw [hr] at hread
  have hrc : r.rc = 0 := Option.some.inj hread
  obtain ⟨_, hiff, hcompare⟩ := hspec hrc
  obtain ⟨_, hcontains, _⟩ := hcompare htight ebitmapInit wellformed_init
  refine ⟨r, hr, hrc, htight, hiff.mpr htight, hcontains.mpr fun b hbit => ?_⟩
  exact absurd ((wellformed_init.getBit_iff b).mp hbit) not_has_nil

/-- A stream with one unit, which has no bit. -/
def emptyUnit : List UInt8 :=
  [64, 0, 0, 0, 64, 0, 0, 0, 1, 0, 0, 0, 0, 0, 0, 0, 0, 0, 0, 0, 0, 0, 0, 0]

/-- A stream without units, whose `highbit` is 400. -/
def noUnit : List UInt8 :=
  [64, 0, 0, 0, 144, 1, 0, 0, 0, 0, 0, 0]

/-- Both are accepted as bitmaps without a bit. The one has an empty node, the other a `highbit`
without a node, and for `ebitmap_cmp` neither is the empty bitmap or the other one. -/
theorem ebitmap_read_accepts_empty :
    ∃ r₁ r₂, ebitmapRead (fun _ => true) emptyUnit = some r₁ ∧
      ebitmapRead (fun _ => true) noUnit = some r₂ ∧ r₁.rc = 0 ∧ r₂.rc = 0 ∧
      (∀ b, ebitmapGetBit r₁.e b = false ∧ ebitmapGetBit r₂.e b = false) ∧
      (∃ n ∈ r₁.e.nodes, ¬ n.Occupied) ∧ r₂.e.highbit ≠ endOf none r₂.e.nodes ∧
      ebitmapCmp r₁.e r₂.e = false ∧ ebitmapCmp r₁.e ebitmapInit = false ∧
      ebitmapCmp r₂.e ebitmapInit = false := by
  have hround : roundHighbit 64 = 192 := by decide
  have hstore (maps) : storeMap maps 0 0#64 = some maps := by rw [storeMap, if_pos rfl]
  have hread : ebitmapRead (fun _ => true) emptyUnit = some ⟨0, ⟨[.zeroed 0], 192⟩, []⟩ := by
    simp [ebitmapRead, emptyUnit, nextEntry, leToCpu, mapunit, hround, readMaps, nodeOf, hstore]
  refine ⟨_, ⟨0, ⟨[], 576⟩, []⟩, hread, rfl, rfl, rfl, fun b => ⟨?_, ?_⟩, ?_, ?_, rfl, rfl, rfl⟩
  · have hbit (h) : (EbitmapNode.zeroed 0).getBit b h = false := by
      rw [EbitmapNode.getBit_eq, EbitmapNode.zeroed_bit]
    simp [ebitmapGetBit, getBitNodes, hbit]
  · simp [ebitmapGetBit, getBitNodes]
  · exact ⟨_, List.mem_singleton.mpr rfl, zeroed_not_occupied 0⟩
  · decide

end AndroidKernel.Ebitmap
