import AndroidKernel.RadixTree.Searches

/-!
# Gang lookups of a tree that represents a map

The loop of a gang lookup has at each turn found all present indices it has passed, so that it
returns the first ones, and it ends, since a search passes at least one index.
-/

namespace AndroidKernel.RadixTree

open Library

universe u v

variable {α : Type u} {β : Type v} {w bits h i n m fuel first maxItems maxIndex : Nat}
  {p : Nat → Bool} {f : Nat → β} {load : SlotPtr w → Option β}
  {search : Nat → Nat → List (SlotPtr w) × Nat}

theorem filterMap_hits (hload : ∀ j, p j = true → load (slotOf w h j) = some (f j)) (i k : Nat) :
    ((hits p i k).map (slotOf w h)).filterMap load = (hits p i k).map f := by
  rw [List.filterMap_map, ← List.filterMap_eq_map]
  exact List.filterMap_congr fun j hj => hload j (mem_hits.mp hj).2

/-- From any point of the loop on, with what was found so far. -/
theorem gangLoop_spec (hsearch : ∀ i n, i < 2 ^ bits → ¬maxIndex < i → 0 < n →
      Searched w bits h p i n (search i n))
    (hload : ∀ j, p j = true → load (slotOf w h j) = some (f j))
    (habove : ∀ j, j < 2 ^ bits → maxIndex < j → p j = false) (hcur : first + m < 2 ^ bits)
    (hlen : (hits p first m).length ≤ maxItems) (hfuel : 2 ^ bits ≤ fuel + (first + m)) :
    gangLoop search load maxIndex maxItems fuel ((hits p first m).map f) (first + m) =
      some (((hits p first (2 ^ bits - first)).take maxItems).map f) := by
  induction fuel generalizing m with
  | zero => omega
  | succ fuel ih =>
    unfold gangLoop
    rw [List.length_map]
    by_cases hgo : (hits p first m).length < maxItems ∧ ¬maxIndex < first + m
    · rw [if_pos hgo]
      obtain ⟨k, hpos, -, hlim, hr, hlen'⟩ := hsearch (first + m)
        (maxItems - (hits p first m).length) hcur hgo.2 (by omega)
      have hresults : (hits p first m).map f ++ (hits p (first + m) k).map f =
          (hits p first (m + k)).map f := by
        rw [hits_add, List.map_append]
      have hfound : (hits p first (m + k)).length ≤ maxItems := by
        rw [hits_add, List.length_append]
        omega
      rw [hr]
      dsimp only
      rw [filterMap_hits hload, hresults, Nat.add_assoc]
      by_cases hwrap : first + (m + k) = 2 ^ bits
      · -- the last index was passed
        rw [hwrap, Nat.mod_self, if_pos rfl, show 2 ^ bits - first = m + k by omega,
          List.take_of_length_le hfound]
      · rw [Nat.mod_eq_of_lt (by omega), if_neg (by omega)]
        exact ih (by omega) hfound (by omega)
    · rw [if_neg hgo]
      by_cases hfull : (hits p first m).length = maxItems
      · rw [take_hits (by omega) hfull]
      · have habove' : ∀ j, first + m ≤ j → j < first + m + (2 ^ bits - (first + m)) →
            p j = false := fun j hj hj' => habove j (by omega) (by omega)
        rw [show 2 ^ bits - first = m + (2 ^ bits - (first + m)) by omega, hits_add,
          hits_eq_nil habove', List.append_nil, List.take_of_length_le hlen]

/-- The first `n` of the indices from `first` on where `p` holds. -/
def firstHits (p : Nat → Bool) (bits first n : Nat) : List Nat :=
  (hits p first (2 ^ bits - first)).take n

theorem mem_firstHits {j : Nat} (hmem : j ∈ firstHits p bits first n) :
    j < 2 ^ bits ∧ p j = true := by
  obtain ⟨⟨hle, hlt⟩, hp⟩ := mem_hits.mp (List.mem_of_mem_take hmem)
  exact ⟨by omega, hp⟩

theorem firstHits_eq_nil (h : ∀ j, first ≤ j → p j = false) (bits n : Nat) :
    firstHits p bits first n = [] := by
  unfold firstHits
  rw [hits_eq_nil fun j hj _ => h j hj, List.take_nil]

theorem firstHits_zero (hzero : p 0 = true) (h : ∀ j, 0 < j → p j = false) (hn : 0 < n) :
    firstHits p bits 0 n = [0] := by
  obtain ⟨k, hk⟩ := Nat.exists_eq_succ_of_ne_zero (Nat.two_pow_pos bits).ne'
  unfold firstHits
  rw [Nat.sub_zero, hk, hits_succ, if_pos hzero, hits_eq_nil fun j hj _ => h j hj,
    List.take_of_length_le hn]

theorem Searched.congr {q : Nat → Bool} {r : List (SlotPtr w) × Nat}
    (hr : Searched w bits h p i n r)
    (heq : ∀ j, j / 2 ^ (w * h) = i / 2 ^ (w * h) → q j = p j) : Searched w bits h q i n r := by
  obtain ⟨k, hpos, hend, hlim, rfl, hlen⟩ := hr
  have hhits : hits q i k = hits p i k := hits_congr fun j hle hlt =>
    heq j (div_eq_of_block ((Nat.div_mul_le_self i _).trans hle) (by omega))
  exact ⟨k, hpos, hend, hlim, by rw [hhits], by rwa [hhits]⟩

/-! ## Slots -/

theorem deref_slotOf {x : Ptr α w} {y : α} (hfound : lookupDown i h x = some y) :
    deref (slotOf w h i) x = .item y := by
  induction h generalizing x with
  | zero =>
    cases x with
    | null => cases hfound
    | item z =>
      obtain rfl := Option.some.inj hfound
      rfl
    | node height count slots tags => cases hfound
  | succ h ih =>
    cases x with
    | null => cases hfound
    | item z => cases hfound
    | node height count slots tags => exact ih hfound

theorem lookupSlotDown_spec {x : Ptr α w} {y : α} (hfound : lookupDown i (h + 1) x = some y) :
    lookupSlotDown i (h + 1) x = some (slotOf w (h + 1) i) := by
  induction h generalizing x with
  | zero =>
    cases x with
    | null => cases hfound
    | item z => cases hfound
    | node height count slots tags =>
      unfold lookupSlotDown
      rw [if_neg, if_pos rfl]
      · rfl
      · intro hnull
        rw [lookupDown_node, lookupDown_of_isNull hnull] at hfound
        cases hfound
  | succ h ih =>
    cases x with
    | null => cases hfound
    | item z => cases hfound
    | node height count slots tags =>
      unfold lookupSlotDown
      rw [lookupDown_node] at hfound
      rw [if_neg, if_neg (Nat.succ_ne_zero h), ih hfound]
      · rfl
      · intro hnull
        rw [lookupDown_of_isNull hnull] at hfound
        cases hfound

variable {root : RadixTreeRoot α w} {M : TaggedMap α} {y : α}

theorem Represents.lookupDown_eq (hrep : Represents bits root M) (hitem : M.item i = some y) :
    i < 2 ^ (w * root.height) ∧ lookupDown i root.height root.rnode = some y := by
  have hfound := hrep.item i
  rw [hitem] at hfound
  split at hfound
  · rename_i hlt
    exact ⟨hlt, hfound.symm⟩
  · cases hfound

theorem Represents.loadSlot_eq (hrep : Represents bits root M) (hitem : M.item i = some y) :
    loadSlot root (slotOf w root.height i) = some (.item y) := by
  unfold loadSlot
  rw [deref_slotOf (hrep.lookupDown_eq hitem).2]
  rfl

theorem Represents.lookupSlot_eq (hrep : Represents bits root M) (hi : i < 2 ^ bits)
    (hitem : M.item i = some y) :
    lookupSlot bits root i = some (slotOf w root.height i) := by
  obtain ⟨hlt, hfound⟩ := hrep.lookupDown_eq hitem
  have hwf := hrep.wf
  unfold lookupSlot
  generalize root.height = H at *
  generalize root.rnode = x at *
  cases x with
  | null => cases H <;> cases hfound
  | item z =>
    obtain rfl : H = 0 := by cases H <;> exact hwf
    rw [Nat.mul_zero, Nat.pow_zero] at hlt
    exact if_neg (by omega)
  | node height count slots tags =>
    cases H with
    | zero => exact hwf.elim
    | succ h =>
      obtain rfl : height = h + 1 := hwf.1
      dsimp only
      rw [if_neg, lookupSlotDown_spec hfound]
      rw [maxindex_lt_iff hi]
      omega

/-! ## The gang lookups -/

theorem mul_le_of_le_maxPath (hw : 0 < w) (hle : h + 1 ≤ maxPath w bits) : w * h ≤ bits := by
  have hmul := (Nat.le_div_iff_mul_le hw).mp hle
  rw [Nat.succ_mul, Nat.mul_comm] at hmul
  omega

/-- What the search of a gang lookup has to find: indices of items, among them the item that is
not below a node. -/
structure Finds (bits : Nat) (root : RadixTreeRoot α w) (M : TaggedMap α)
    (search : Ptr α w → Nat → Nat → List (SlotPtr w) × Nat) (p : Nat → Bool) : Prop where
  item : ∀ j, p j = true → M.item j ≠ none
  direct : ∀ x, root.rnode = .item x → p 0 = true
  search : ∀ i n, root.rnode.isNull = false → 0 < root.height → i < 2 ^ bits →
    i < 2 ^ (w * root.height) → 0 < n → Searched w bits root.height p i n (search root.rnode i n)

theorem Finds.eq_false {search : Ptr α w → Nat → Nat → List (SlotPtr w) × Nat} {j : Nat}
    (hfinds : Finds bits root M search p) (hrep : Represents bits root M)
    (hj : 2 ^ (w * root.height) ≤ j) : p j = false := by
  refine Bool.eq_false_iff.mpr fun hp => hfinds.item j hp ?_
  rw [hrep.item, if_neg (by omega)]

theorem Finds.gang_spec {search : Ptr α w → Nat → Nat → List (SlotPtr w) × Nat}
    (hfinds : Finds bits root M search p) (hrep : Represents bits root M)
    (hload : ∀ j, p j = true → load (slotOf w root.height j) = some (f j))
    (hfirst : first < 2 ^ bits) (hmax : 0 < maxItems) (hfuel : 2 ^ bits ≤ fuel + first) :
    gang bits fuel search load root first maxItems =
      some ((firstHits p bits first maxItems).map f) := by
  have hwf := hrep.wf
  have hitem := hrep.item
  have habove (j : Nat) (hj : 2 ^ (w * root.height) ≤ j) : p j = false := hfinds.eq_false hrep hj
  have hsearch := hfinds.search
  have hdirect := hfinds.direct
  have hpresent := hfinds.item
  unfold gang
  generalize root.height = H at *
  generalize root.rnode = x at *
  cases x with
  | null =>
    have hnone (j : Nat) : p j = false := by
      refine Bool.eq_false_iff.mpr fun hp => hpresent j hp ?_
      rw [hitem, lookupDown_of_isNull rfl, ite_self]
    rw [firstHits_eq_nil fun j _ => hnone j]
    rfl
  | item y =>
    obtain rfl : H = 0 := by cases H <;> exact hwf
    have hpos (j : Nat) (hj : 0 < j) : p j = false := by
      refine habove j ?_
      rwa [Nat.mul_zero, Nat.pow_zero]
    by_cases hzero : 0 < first
    · rw [firstHits_eq_nil fun j hj => hpos j (by omega)]
      exact if_pos hzero
    · obtain rfl : first = 0 := by omega
      have hp := hdirect y rfl
      rw [firstHits_zero hp hpos hmax]
      show some ([slotOf w 0 0].filterMap load) = _
      rw [List.filterMap_cons_some (hload 0 hp)]
      rfl
  | node height count slots tags =>
    cases H with
    | zero => exact hwf.elim
    | succ h =>
      obtain rfl : height = h + 1 := hwf.1
      refine @gangLoop_spec β w bits (h + 1) 0 fuel first maxItems _ p f load _ ?_ hload ?_ hfirst
        (Nat.zero_le _) hfuel
      · intro i n hi hle hn
        rw [maxindex_lt_iff hi] at hle
        exact hsearch i n rfl (Nat.succ_pos h) hi (by omega) hn
      · intro j hj hlt
        rw [maxindex_lt_iff hj] at hlt
        exact habove j hlt

/-- The two variants of a gang lookup have returned what is at these indices, in their order: the
items, and the slots where `radix_tree_lookup_slot` finds them. -/
def Fetches (bits : Nat) (root : RadixTreeRoot α w) (M : TaggedMap α) (indices : List Nat)
    (items : Option (List (Ptr α w))) (slots : Option (List (SlotPtr w))) : Prop :=
  items.map (List.map some) = some (indices.map fun i => (M.item i).map .item) ∧
  slots.map (List.map some) = some (indices.map (lookupSlot bits root))

theorem Finds.fetches {search : Ptr α w → Nat → Nat → List (SlotPtr w) × Nat}
    (hfinds : Finds bits root M search p) (hrep : Represents bits root M)
    (hfirst : first < 2 ^ bits) (hmax : 0 < maxItems) (hfuel : 2 ^ bits ≤ fuel + first) :
    Fetches bits root M (firstHits p bits first maxItems)
      (gang bits fuel search (loadSlot root) root first maxItems)
      (gang bits fuel search some root first maxItems) := by
  have hsome (j : Nat) (hp : p j = true) : ∃ y, M.item j = some y :=
    Option.ne_none_iff_exists'.mp (hfinds.item j hp)
  have hload (j : Nat) (hp : p j = true) : loadSlot root (slotOf w root.height j) =
      some (deref (slotOf w root.height j) root.rnode) := by
    obtain ⟨y, hy⟩ := hsome j hp
    rw [hrep.loadSlot_eq hy, deref_slotOf (hrep.lookupDown_eq hy).2]
  constructor
  · rw [hfinds.gang_spec hrep hload hfirst hmax hfuel, Option.map_some, List.map_map]
    refine congrArg some (List.map_congr_left fun j hj => ?_)
    obtain ⟨y, hy⟩ := hsome j (mem_firstHits hj).2
    show some (deref (slotOf w root.height j) root.rnode) = _
    rw [deref_slotOf (hrep.lookupDown_eq hy).2, hy]
    rfl
  · rw [hfinds.gang_spec hrep (fun j _ => rfl) hfirst hmax hfuel, Option.map_some, List.map_map]
    refine congrArg some (List.map_congr_left fun j hj => ?_)
    obtain ⟨hlt, hp⟩ := mem_firstHits hj
    obtain ⟨y, hy⟩ := hsome j hp
    exact (hrep.lookupSlot_eq hlt hy).symm

theorem mul_pred_le (hw : 0 < w) (hrep : Represents bits root M) : w * (root.height - 1) ≤ bits := by
  have hheight := hrep.height
  cases hh : root.height with
  | zero => exact Nat.zero_le _
  | succ h =>
    rw [hh] at hheight
    exact mul_le_of_le_maxPath hw hheight

/-- `__lookup` finds the indices that have an item. -/
theorem Represents.finds (hrep : Represents bits root M) (hw : 0 < w) (hbits : w ≤ bits) :
    Finds bits root M (lookupSlots bits) fun i => (M.item i).isSome := by
  refine ⟨fun j hp => Option.isSome_iff_ne_none.mp hp, fun y hy => ?_,
    fun i n hnode hpos hi hlt hn => ?_⟩
  · have hwf := hrep.wf
    have hitem := hrep.item 0
    rw [hy] at hwf hitem
    generalize root.height = H at *
    obtain rfl : H = 0 := by cases H <;> exact hwf
    rw [hitem]
    rfl
  have hwf := hrep.wf
  have hle := mul_pred_le hw hrep
  have hitem := hrep.item
  generalize root.height = H at *
  generalize root.rnode = x at *
  obtain ⟨h, rfl⟩ := Nat.exists_eq_succ_of_ne_zero hpos.ne'
  cases x with
  | null => cases hnode
  | item y => exact absurd hwf (Nat.succ_ne_zero h)
  | node height count slots tags =>
    obtain rfl : height = h + 1 := hwf.1
    refine (lookupSlotsDown_spec hwf hnode hbits hle hi hn).congr fun j hj => ?_
    rw [Nat.div_eq_of_lt hlt, Nat.div_eq_zero_iff] at hj
    rw [hitem, if_pos (hj.resolve_left (Nat.two_pow_pos _).ne')]
    rfl

/-- `__lookup_tag` finds those whose item has the tag, if the root has it. -/
theorem Represents.finds_tag (hrep : Represents bits root M) (hw : 0 < w) (hbits : w ≤ bits)
    {t : Fin 2} (htag : root.tags t = true) :
    Finds bits root M (lookupTagSlots bits t) fun i => (M.item i).isSome && M.tag t i := by
  refine ⟨fun j hp => Option.isSome_iff_ne_none.mp (Bool.and_eq_true_iff.mp hp).1, fun y hy => ?_,
    fun i n hnode hpos hi hlt hn => ?_⟩
  · have hwf := hrep.wf
    have hitem := hrep.item 0
    have hbit := hrep.tag t 0
    rw [hy] at hwf hitem hbit
    generalize root.height = H at *
    obtain rfl : H = 0 := by cases H <;> exact hwf
    rw [hitem, hbit, htag]
    rfl
  have hwf := hrep.wf
  have hle := mul_pred_le hw hrep
  have hitem := hrep.item
  have hbit := hrep.tag t
  generalize root.height = H at *
  generalize root.rnode = x at *
  obtain ⟨h, rfl⟩ := Nat.exists_eq_succ_of_ne_zero hpos.ne'
  cases x with
  | null => cases hnode
  | item y => exact absurd hwf (Nat.succ_ne_zero h)
  | node height count slots tags =>
    obtain rfl : height = h + 1 := hwf.1
    refine (@lookupTagSlotsDown_spec α w bits h i n _ t (root.tags t) hwf hnode hbits hle hi
      hn).congr fun j hj => ?_
    rw [Nat.div_eq_of_lt hlt, Nat.div_eq_zero_iff] at hj
    have hin := hj.resolve_left (Nat.two_pow_pos _).ne'
    rw [hitem, hbit, if_pos hin, if_pos hin]
    rfl

/-- A tree that starts empty, and a map that goes through the same calls: the gang lookups and
their tag variants end and return what is at the first `maxItems` indices, from `first` on, that
have an item or an item with the tag. -/
theorem radix_tree_gang_lookups (hw : 0 < w) (hbits : w ≤ bits) {s : State α w} {M : TaggedMap α}
    (hrun : Reaches (Step bits) anyStep (State.initial, TaggedMap.empty) (s, M))
    (hfirst : first < 2 ^ bits) (hmax : 0 < maxItems) (hfuel : 2 ^ bits ≤ fuel + first) :
    Fetches bits s.root M (firstHits (fun i => (M.item i).isSome) bits first maxItems)
      (gangLookup bits fuel s.root first maxItems)
      (gangLookupSlot bits fuel s.root first maxItems) ∧
    ∀ t, Fetches bits s.root M
      (firstHits (fun i => (M.item i).isSome && M.tag t i) bits first maxItems)
      (gangLookupTag bits fuel s.root first maxItems t)
      (gangLookupTagSlot bits fuel s.root first maxItems t) := by
  have hsim : Simulates bits (s, M) :=
    hrun.invariant (Simulates bits) (fun _ _ _ hs _ hstep => hs.step hw hstep) simulates_initial
  have hrep : Represents bits s.root M := hsim.1
  refine ⟨(hrep.finds hw hbits).fetches hrep hfirst hmax hfuel, fun t => ?_⟩
  unfold gangLookupTag gangLookupTagSlot
  by_cases htag : s.root.tags t = true
  · rw [if_pos htag, if_pos htag]
    exact (hrep.finds_tag hw hbits htag).fetches hrep hfirst hmax hfuel
  · -- no item has the tag
    have hnone (j : Nat) : ((M.item j).isSome && M.tag t j) = false := by
      refine Bool.eq_false_iff.mpr fun hp => htag ?_
      obtain ⟨hitem, hj⟩ := Bool.and_eq_true_iff.mp hp
      exact (tagged_spec hrep t).mpr ⟨j, Option.isSome_iff_ne_none.mp hitem, hj⟩
    rw [if_neg htag, if_neg htag, firstHits_eq_nil fun j _ => hnone j]
    exact ⟨rfl, rfl⟩

/-- A tree over two-bit indices with one item, and with two. -/
def root2 : RadixTreeRoot Nat 1 :=
  (insert 2 State.initial.root 2 7 ⟨[], [.fresh, .fresh]⟩).1

def root23 : RadixTreeRoot Nat 1 :=
  (insert 2 root2 3 8 ⟨[], []⟩).1

/-- The same tree with a tag at the second item. -/
def root23Tag : RadixTreeRoot Nat 1 :=
  (tagSet 2 root23 3 ⟨0, Nat.two_pos⟩).getD root23

/-- Its map. -/
def map23Tag : TaggedMap Nat :=
  ((TaggedMap.empty.put 2 (some 7)).put 3 (some 8)).setTag ⟨0, Nat.two_pos⟩ 3 true

theorem reaches_root23Tag : Reaches (Step 2) anyStep
    ((State.initial : State Nat 1), TaggedMap.empty) (⟨root23Tag, []⟩, map23Tag) := by
  have hfirst : Step 2 ((State.initial : State Nat 1), TaggedMap.empty)
      (.insert 2 7 [.fresh, .fresh]) (⟨root2, []⟩, TaggedMap.empty.put 2 (some 7)) :=
    ⟨(by decide : 2 < 2 ^ 2), .inserted .ok, rfl, rfl⟩
  have hsecond : Step 2 (⟨root2, []⟩, TaggedMap.empty.put 2 (some 7)) (.insert 3 8 [])
      (⟨root23, []⟩, (TaggedMap.empty.put 2 (some 7)).put 3 (some 8)) :=
    ⟨(by decide : 3 < 2 ^ 2), .inserted .ok, rfl, rfl⟩
  have htag : Step 2 (⟨root23, []⟩, (TaggedMap.empty.put 2 (some 7)).put 3 (some 8)) (.tagSet 3 0)
      (⟨root23Tag, []⟩, map23Tag) :=
    ⟨⟨(by decide : 3 < 2 ^ 2), by decide⟩, .done, rfl, rfl⟩
  exact (((Reaches.refl _).tail hfirst trivial).tail hsecond trivial).tail htag trivial

theorem radix_tree_gang_lookups_root23Tag :
    Fetches 2 root23Tag map23Tag [2, 3] (gangLookup 2 4 root23Tag 1 5)
      (gangLookupSlot 2 4 root23Tag 1 5) ∧
    Fetches 2 root23Tag map23Tag [3] (gangLookupTag 2 4 root23Tag 1 5 0)
      (gangLookupTagSlot 2 4 root23Tag 1 5 0) := by
  have h := radix_tree_gang_lookups (by decide) (by decide) reaches_root23Tag
    (by decide : 1 < 2 ^ 2) (by decide : 0 < 5) (by decide : 2 ^ 2 ≤ 4 + 1)
  exact ⟨h.1, h.2 0⟩

end AndroidKernel.RadixTree
