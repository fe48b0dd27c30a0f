import AndroidKernel.Library.Scans
import AndroidKernel.RadixTree.Runs

/-!
# One search of a gang lookup

A search that starts at an index passes over some indices of the node's block, at least one, and
returns the slots of those that are present. The next search starts behind them, at 0 if they were
the last ones.
-/

/-!
## Gang lookups in the radix tree

`radix_tree_gang_lookup`, its `_tag` and `_slot` variants and `radix_tree_lookup_slot`. One search
goes down to one bottom node and says where the next search starts; the loop of a gang lookup
repeats it. Read `radix_tree_gang_lookups` first.
-/

namespace AndroidKernel.RadixTree

open Library

universe u v

variable {α : Type u} {w bits : Nat}

/-- The address of a slot: the offsets on the way down to it. There are none on the way to
`rnode` of the root. -/
abbrev SlotPtr (w : Nat) :=
  List (Fin (2 ^ w))

/-- `*slot`, for a slot below a pointer. -/
def deref : SlotPtr w → Ptr α w → Ptr α w
  | s :: rest, .node _ _ slots _ => deref rest (slots s)
  | [], p => p
  | _ :: _, _ => .null

/-- The loop of `radix_tree_lookup_slot`. -/
def lookupSlotDown (index : Nat) : Nat → Ptr α w → Option (SlotPtr w)
  | h + 1, .node _ _ slots _ =>
    let s := offset w h index
    if (slots s).isNull then none
    else if h = 0 then some [s]
    else (lookupSlotDown index h (slots s)).map (s :: ·)
  | _, _ => none

/-- `radix_tree_lookup_slot`. -/
def lookupSlot (bits : Nat) (root : RadixTreeRoot α w) (index : Nat) : Option (SlotPtr w) :=
  match root.rnode with
  | .null => none
  | .item _ => if 0 < index then none else some []
  | .node height count slots tags =>
    if maxindex w bits height < index then none
    else lookupSlotDown index height (.node height count slots tags)

/-- The loop over the slots of a node from slot `i` on, until one is marked. The index goes on to
the first one of each next slot; `none` is the way out when it wraps or the node ends. -/
def seekSlot (bits shift : Nat) (marked : Fin (2 ^ w) → Bool) (i index : Nat) :
    Option (Fin (2 ^ w)) × Nat :=
  if hi : i < 2 ^ w then
    if marked ⟨i, hi⟩ then (some ⟨i, hi⟩, index)
    else
      let index := (index / 2 ^ shift * 2 ^ shift + 2 ^ shift) % 2 ^ bits
      if index = 0 then (none, index) else seekSlot bits shift marked (i + 1) index
  else (none, index)
termination_by 2 ^ w - i

/-- The loop over the slots of a bottom node, after `nrFound` were found. -/
def grabSlots (bits maxItems : Nat) (marked : Fin (2 ^ w) → Bool) (nrFound i index : Nat) :
    List (Fin (2 ^ w)) × Nat :=
  if hi : i < 2 ^ w then
    let index := (index + 1) % 2 ^ bits
    if marked ⟨i, hi⟩ then
      if nrFound + 1 = maxItems then ([⟨i, hi⟩], index)
      else
        let (found, index) := grabSlots bits maxItems marked (nrFound + 1) (i + 1) index
        (⟨i, hi⟩ :: found, index)
    else grabSlots bits maxItems marked nrFound (i + 1) index
  else ([], index)
termination_by 2 ^ w - i

/-- The loop of `__lookup` from a height on, with the index of the next search. -/
def lookupSlotsDown (bits maxItems : Nat) : Nat → Ptr α w → Nat → List (SlotPtr w) × Nat
  | 1, .node _ _ slots _, index =>
    let (found, next) :=
      grabSlots bits maxItems (fun s => !(slots s).isNull) 0 (digit w 0 index) index
    (found.map fun s => [s], next)
  | h + 2, .node _ _ slots _, index =>
    match seekSlot bits (w * (h + 1)) (fun s => !(slots s).isNull) (digit w (h + 1) index) index with
    | (none, next) => ([], next)
    | (some s, index) =>
      let (found, next) := lookupSlotsDown bits maxItems (h + 1) (slots s) index
      (found.map (s :: ·), next)
  | _, _, index => ([], index)

/-- The loop of `__lookup_tag`. The tag bits of a bottom node are looked at twice. -/
def lookupTagSlotsDown (bits : Nat) (t : Fin 2) (maxItems : Nat) :
    Nat → Ptr α w → Nat → List (SlotPtr w) × Nat
  | h + 1, .node _ _ slots tags, index =>
    match seekSlot bits (w * h) (tags t) (digit w h index) index with
    | (none, next) => ([], next)
    | (some s, index) =>
      if h = 0 then
        let (found, next) := grabSlots bits maxItems (fun s => tags t s && !(slots s).isNull) 0
          (digit w 0 index) index
        (found.map fun s => [s], next)
      else
        let (found, next) := lookupTagSlotsDown bits t maxItems h (slots s) index
        (found.map (s :: ·), next)
  | _, _, index => ([], index)

/-- `__lookup`, from the height that the node has. -/
def lookupSlots (bits : Nat) (p : Ptr α w) (index maxItems : Nat) : List (SlotPtr w) × Nat :=
  match p with
  | .node height _ _ _ => lookupSlotsDown bits maxItems height p index
  | _ => ([], index)

/-- `__lookup_tag`, from the height that the node has. -/
def lookupTagSlots (bits : Nat) (t : Fin 2) (p : Ptr α w) (index maxItems : Nat) :
    List (SlotPtr w) × Nat :=
  match p with
  | .node height _ _ _ => lookupTagSlotsDown bits t maxItems height p index
  | _ => ([], index)

variable {β : Type v}

/-- The loop of a gang lookup. A search gets the index it starts from and how many slots it may
find, and `load` is what is kept of a slot. `none` is a loop that has not ended. -/
def gangLoop (search : Nat → Nat → List (SlotPtr w) × Nat) (load : SlotPtr w → Option β)
    (maxIndex maxItems : Nat) : Nat → List β → Nat → Option (List β)
  | 0, _, _ => none
  | fuel + 1, results, curIndex =>
    if results.length < maxItems ∧ ¬maxIndex < curIndex then
      let (found, nextIndex) := search curIndex (maxItems - results.length)
      let results := results ++ found.filterMap load
      if nextIndex = 0 then some results
      else gangLoop search load maxIndex maxItems fuel results nextIndex
    else some results

/-- A gang lookup with its search and what it keeps of a slot. -/
def gang (bits fuel : Nat) (search : Ptr α w → Nat → Nat → List (SlotPtr w) × Nat)
    (load : SlotPtr w → Option β) (root : RadixTreeRoot α w) (firstIndex maxItems : Nat) :
    Option (List β) :=
  match root.rnode with
  | .null => some []
  | .item _ => if 0 < firstIndex then some [] else some ([[]].filterMap load)
  | .node height count slots tags =>
    gangLoop (search (.node height count slots tags)) load (maxindex w bits height) maxItems
      fuel [] firstIndex

/-- What a slot holds, if that is not a null pointer. -/
def loadSlot (root : RadixTreeRoot α w) (slot : SlotPtr w) : Option (Ptr α w) :=
  let p := deref slot root.rnode
  if p.isNull then none else some p

/-- `radix_tree_gang_lookup`. -/
def gangLookup (bits fuel : Nat) (root : RadixTreeRoot α w) (firstIndex maxItems : Nat) :
    Option (List (Ptr α w)) :=
  gang bits fuel (lookupSlots bits) (loadSlot root) root firstIndex maxItems

/-- `radix_tree_gang_lookup_slot`. -/
def gangLookupSlot (bits fuel : Nat) (root : RadixTreeRoot α w) (firstIndex maxItems : Nat) :
    Option (List (SlotPtr w)) :=
  gang bits fuel (lookupSlots bits) some root firstIndex maxItems

/-- `radix_tree_gang_lookup_tag`. -/
def gangLookupTag (bits fuel : Nat) (root : RadixTreeRoot α w) (firstIndex maxItems : Nat)
    (t : Fin 2) : Option (List (Ptr α w)) :=
  if root.tags t then gang bits fuel (lookupTagSlots bits t) (loadSlot root) root firstIndex maxItems
  else some []

/-- `radix_tree_gang_lookup_tag_slot`. -/
def gangLookupTagSlot (bits fuel : Nat) (root : RadixTreeRoot α w) (firstIndex maxItems : Nat)
    (t : Fin 2) : Option (List (SlotPtr w)) :=
  if root.tags t then gang bits fuel (lookupTagSlots bits t) some root firstIndex maxItems
  else some []

variable {h i k n : Nat} {p : Nat → Bool}

/-- The slot of an index, below a pointer of height `h`. -/
def slotOf (w : Nat) : Nat → Nat → SlotPtr w
  | 0, _ => []
  | h + 1, index => offset w h index :: slotOf w h index

/-- What a search of a node of height `h` from `i` on may return, if `p` are the indices it looks
for and it may find up to `n`. -/
def Searched (w bits h : Nat) (p : Nat → Bool) (i n : Nat) (r : List (SlotPtr w) × Nat) : Prop :=
  ∃ k, 0 < k ∧ i + k ≤ (i / 2 ^ (w * h) + 1) * 2 ^ (w * h) ∧ i + k ≤ 2 ^ bits ∧
    r = ((hits p i k).map (slotOf w h), (i + k) % 2 ^ bits) ∧ (hits p i k).length ≤ n

/-! ## Blocks of indices -/

theorem div_eq_of_block (hle : i / 2 ^ (w * h) * 2 ^ (w * h) ≤ k)
    (hlt : k < (i / 2 ^ (w * h) + 1) * 2 ^ (w * h)) : k / 2 ^ (w * h) = i / 2 ^ (w * h) :=
  Nat.div_eq_of_lt_le hle hlt

/-- The blocks of a level end inside those of the level above. -/
theorem block_le (w h i : Nat) : (i / 2 ^ (w * h) + 1) * 2 ^ (w * h) ≤
    (i / 2 ^ (w * (h + 1)) + 1) * 2 ^ (w * (h + 1)) := by
  have hpow : 2 ^ (w * (h + 1)) = 2 ^ w * 2 ^ (w * h) := by
    rw [Nat.mul_succ, Nat.pow_add, Nat.mul_comm]
  have hdigit := digit_lt w h i
  rw [hpow, ← Nat.mul_assoc, ← hpow, div_eq_add_digit w h i]
  refine Nat.mul_le_mul_right _ ?_
  rw [Nat.succ_mul]
  omega

/-- The block of an index ends before the indices do. -/
theorem block_le_of_le (hle : w * h ≤ bits) (hi : i < 2 ^ bits) :
    (i / 2 ^ (w * h) + 1) * 2 ^ (w * h) ≤ 2 ^ bits := by
  obtain ⟨d, hd⟩ := Nat.pow_dvd_pow 2 hle
  have hlt : i / 2 ^ (w * h) < d := by
    rw [Nat.div_lt_iff_lt_mul (Nat.two_pow_pos _), Nat.mul_comm, ← hd]
    exact hi
  rw [hd, Nat.mul_comm (2 ^ (w * h))]
  exact Nat.mul_le_mul_right _ hlt

theorem lt_block (w h i : Nat) : i < (i / 2 ^ (w * h) + 1) * 2 ^ (w * h) := by
  rw [Nat.mul_comm]
  exact Nat.lt_mul_div_succ i (Nat.two_pow_pos _)

theorem offset_eq_of_block {j : Nat} (hle : i ≤ j)
    (hlt : j < (i / 2 ^ (w * h) + 1) * 2 ^ (w * h)) : offset w h j = offset w h i := by
  have hdiv : j / 2 ^ (w * h) = i / 2 ^ (w * h) :=
    div_eq_of_block ((Nat.div_mul_le_self i _).trans hle) hlt
  rw [offset_inj, digit, digit, hdiv]

/-- The first index of the next slot of a node. -/
theorem next_block (hlt : digit w h i + 1 < 2 ^ w) :
    digit w h ((i / 2 ^ (w * h) + 1) * 2 ^ (w * h)) = digit w h i + 1 ∧
      (i / 2 ^ (w * h) + 1) * 2 ^ (w * h) / 2 ^ (w * (h + 1)) = i / 2 ^ (w * (h + 1)) := by
  unfold digit at hlt ⊢
  rw [Nat.mul_succ, Nat.pow_add, ← Nat.div_div_eq_div_mul, ← Nat.div_div_eq_div_mul,
    Nat.mul_div_cancel _ (Nat.two_pow_pos _)]
  generalize i / 2 ^ (w * h) = q at hlt ⊢
  have hsplit : q + 1 = 2 ^ w * (q / 2 ^ w) + (q % 2 ^ w + 1) := by
    rw [← Nat.add_assoc, Nat.div_add_mod]
  constructor
  · rw [hsplit, Nat.mul_add_mod, Nat.mod_eq_of_lt hlt]
  · rw [hsplit, Nat.mul_add_div (Nat.two_pow_pos _), Nat.div_eq_of_lt hlt, Nat.add_zero]

/-! ## The slots of one node -/

/-- What `seekSlot` returns: the slot of the next index that is in a marked one, or the way out
behind indices that are all in slots without a mark. -/
inductive Sought (w bits h : Nat) (marked : Fin (2 ^ w) → Bool) (i : Nat) :
    Option (Fin (2 ^ w)) × Nat → Prop
  | found (i' : Nat) (hle : i ≤ i') (hlt : i' < 2 ^ bits) (hmarked : marked (offset w h i') = true)
      (hblock : i' / 2 ^ (w * (h + 1)) = i / 2 ^ (w * (h + 1)))
      (hskip : ∀ j, i ≤ j → j < i' → marked (offset w h j) = false) :
      Sought w bits h marked i (some (offset w h i'), i')
  | out (k : Nat) (hpos : 0 < k) (hlim : i + k ≤ 2 ^ bits)
      (hblock : i + k ≤ (i / 2 ^ (w * (h + 1)) + 1) * 2 ^ (w * (h + 1)))
      (hskip : ∀ j, i ≤ j → j < i + k → marked (offset w h j) = false) :
      Sought w bits h marked i (none, (i + k) % 2 ^ bits)

/-- Indices without a mark may be passed over first. -/
theorem Sought.skip {marked : Fin (2 ^ w) → Bool} {r : Option (Fin (2 ^ w)) × Nat}
    (hs : Sought w bits h marked (i + k) r)
    (hblock : (i + k) / 2 ^ (w * (h + 1)) = i / 2 ^ (w * (h + 1)))
    (hskip : ∀ j, i ≤ j → j < i + k → marked (offset w h j) = false) :
    Sought w bits h marked i r := by
  cases hs with
  | found i' hle hlt hmarked hblock' hskip' =>
    refine .found i' (by omega) hlt hmarked (hblock'.trans hblock) fun j hj hj' => ?_
    by_cases hjk : j < i + k
    · exact hskip j hj hjk
    · exact hskip' j (by omega) hj'
  | out m hpos hlim hblock' hskip' =>
    rw [hblock] at hblock'
    rw [Nat.add_assoc]
    refine .out (k + m) (by omega) (by omega) (by omega) fun j hj hj' => ?_
    by_cases hjk : j < i + k
    · exact hskip j hj hjk
    · exact hskip' j (by omega) (by omega)

theorem seekSlot_spec (marked : Fin (2 ^ w) → Bool) (hle : w * h ≤ bits) (hi : i < 2 ^ bits) :
    Sought w bits h marked i (seekSlot bits (w * h) marked (digit w h i) i) := by
  induction hd : 2 ^ w - digit w h i using Nat.strong_induction_on generalizing i with
  | _ d ih =>
    have hdigit := digit_lt w h i
    have hoff : (⟨digit w h i, hdigit⟩ : Fin (2 ^ w)) = offset w h i := rfl
    rw [seekSlot.eq_def, dif_pos hdigit, hoff]
    cases hmarked : marked (offset w h i) with
    | true =>
      rw [if_pos rfl]
      exact .found i le_rfl hi hmarked rfl fun j hj hj' => by omega
    | false =>
      rw [if_neg Bool.false_ne_true]
      dsimp only
      -- all indices up to the end of the slot's block share its offset
      obtain ⟨k, hk⟩ := Nat.exists_eq_add_of_lt (lt_block w h i)
      have hend := block_le_of_le hle hi
      have hup := block_le w h i
      have hskip (j : Nat) (hj : i ≤ j) (hj' : j < i + (k + 1)) :
          marked (offset w h j) = false := by
        rw [offset_eq_of_block hj (by omega)]
        exact hmarked
      have hnext : i / 2 ^ (w * h) * 2 ^ (w * h) + 2 ^ (w * h) = i + (k + 1) := by
        rw [← Nat.succ_mul, Nat.succ_eq_add_one, hk]
        rfl
      have hout : Sought w bits h marked i (none, (i + (k + 1)) % 2 ^ bits) :=
        .out (k + 1) (by omega) (by omega) (by omega) hskip
      rw [hnext]
      by_cases hwrap : i + (k + 1) = 2 ^ bits
      · rw [if_pos (by rw [hwrap, Nat.mod_self])]
        exact hout
      have hlt : i + (k + 1) < 2 ^ bits := by omega
      rw [Nat.mod_eq_of_lt hlt] at hout ⊢
      rw [if_neg (by omega)]
      by_cases hlast : digit w h i + 1 < 2 ^ w
      · obtain ⟨hdigit', hblock⟩ := next_block hlast
        rw [hk, Nat.add_assoc] at hdigit' hblock
        rw [← hdigit']
        refine Sought.skip (ih _ ?_ hlt rfl) hblock hskip
        rw [hdigit']
        omega
      · rw [seekSlot.eq_def, dif_neg hlast]
        exact hout

/-- The loop over the last `d` slots of a bottom node finds the marked ones it comes by. -/
theorem grabSlots_spec {marked : Fin (2 ^ w) → Bool} {nrFound d : Nat} (hn : nrFound < n)
    (hd : d ≤ 2 ^ w) (hoff : 0 < d → i % 2 ^ w + d = 2 ^ w) (hi : i + d ≤ 2 ^ bits) :
    ∃ k, (0 < d → 0 < k) ∧ k ≤ d ∧
      grabSlots bits n marked nrFound (2 ^ w - d) (i % 2 ^ bits) =
        ((hits (fun j => marked (offset w 0 j)) i k).map (offset w 0), (i + k) % 2 ^ bits) ∧
      nrFound + (hits (fun j => marked (offset w 0 j)) i k).length ≤ n := by
  induction d generalizing i nrFound with
  | zero =>
    refine ⟨0, id, le_rfl, ?_, hn.le⟩
    rw [grabSlots.eq_def, dif_neg (by omega)]
    rfl
  | succ d ih =>
    have hmod := hoff (by omega)
    have hslot : 2 ^ w - (d + 1) = i % 2 ^ w := by omega
    have hnext : i % 2 ^ w + 1 = 2 ^ w - d := by omega
    have hlt : i % 2 ^ w < 2 ^ w := by omega
    have hmark : (⟨i % 2 ^ w, hlt⟩ : Fin (2 ^ w)) = offset w 0 i := by
      rw [Fin.ext_iff]
      show i % 2 ^ w = i / 2 ^ (w * 0) % 2 ^ w
      rw [Nat.mul_zero, Nat.pow_zero, Nat.div_one]
    have hoff' : 0 < d → (i + 1) % 2 ^ w + d = 2 ^ w := by
      intro hpos
      rw [← Nat.mod_add_mod, Nat.mod_eq_of_lt (by omega)]
      omega
    rw [hslot, grabSlots.eq_def, dif_pos hlt, hmark, hnext, Nat.mod_add_mod]
    dsimp only
    cases hmarked : marked (offset w 0 i) with
    | false =>
      obtain ⟨k, -, hk, hgrab, hlen⟩ := ih hn (by omega) hoff' (by omega)
      refine ⟨k + 1, fun _ => Nat.succ_pos k, by omega, ?_, ?_⟩
      · rw [hits_succ, hmarked, if_neg Bool.false_ne_true, if_neg Bool.false_ne_true, hgrab,
          Nat.add_assoc i, Nat.add_comm 1]
      · rw [hits_succ, hmarked, if_neg Bool.false_ne_true]
        exact hlen
    | true =>
      rw [if_pos rfl]
      by_cases hfull : nrFound + 1 = n
      · refine ⟨1, fun _ => Nat.one_pos, by omega, ?_, ?_⟩
        · rw [if_pos hfull, hits_succ, hmarked, if_pos rfl, hits_zero]
          rfl
        · rw [hits_succ, hmarked, if_pos rfl, hits_zero]
          exact hfull.le
      · obtain ⟨k, -, hk, hgrab, hlen⟩ := ih (by omega : nrFound + 1 < n) (by omega) hoff' (by omega)
        refine ⟨k + 1, fun _ => Nat.succ_pos k, by omega, ?_, ?_⟩
        · rw [if_neg hfull, hgrab, hits_succ, hmarked, if_pos rfl, Nat.add_assoc i,
            Nat.add_comm 1]
          rfl
        · rw [hits_succ, hmarked, if_pos rfl, List.length_cons]
          omega

/-! ## The search of a node -/

theorem Searched.skip {i' : Nat} {r : List (SlotPtr w) × Nat} (hr : Searched w bits h p i' n r)
    (hle : i ≤ i') (hblock : i' / 2 ^ (w * h) = i / 2 ^ (w * h))
    (hskip : ∀ j, i ≤ j → j < i' → p j = false) : Searched w bits h p i n r := by
  obtain ⟨m, rfl⟩ := Nat.exists_eq_add_of_le hle
  obtain ⟨k, hpos, hend, hlim, rfl, hlen⟩ := hr
  rw [hblock] at hend
  refine ⟨m + k, by omega, by omega, by omega, ?_, ?_⟩
  · rw [hits_skip k hskip, Nat.add_assoc]
  · rw [hits_skip k hskip]
    exact hlen

/-- A search that leaves a node without having found anything. -/
theorem Searched.nothing (hpos : 0 < k) (hlim : i + k ≤ 2 ^ bits)
    (hend : i + k ≤ (i / 2 ^ (w * h) + 1) * 2 ^ (w * h))
    (hskip : ∀ j, i ≤ j → j < i + k → p j = false) :
    Searched w bits h p i n ([], (i + k) % 2 ^ bits) := by
  have hnil : hits p i k = [] := hits_eq_nil hskip
  refine ⟨k, hpos, hend, hlim, ?_, ?_⟩
  · rw [hnil]
    rfl
  · rw [hnil]
    exact Nat.zero_le n

/-- A search below the slot of the index is one of the node. -/
theorem Searched.below {q : Nat → Bool} {r : List (SlotPtr w) × Nat}
    (hr : Searched w bits h p i n r)
    (heq : ∀ j, offset w h j = offset w h i → q j = p j) :
    Searched w bits (h + 1) q i n (r.1.map (offset w h i :: ·), r.2) := by
  obtain ⟨k, hpos, hend, hlim, rfl, hlen⟩ := hr
  have hoff (j : Nat) (hle : i ≤ j) (hlt : j < i + k) : offset w h j = offset w h i :=
    offset_eq_of_block hle (by omega)
  have hhits : hits q i k = hits p i k := hits_congr fun j hle hlt => heq j (hoff j hle hlt)
  refine ⟨k, hpos, hend.trans (block_le w h i), hlim, ?_, by rwa [hhits]⟩
  dsimp only
  rw [hhits, List.map_map]
  congr 1
  refine List.map_congr_left fun j hj => ?_
  obtain ⟨⟨hle, hlt⟩, -⟩ := mem_hits.mp hj
  show offset w h i :: slotOf w h j = offset w h j :: slotOf w h j
  rw [hoff j hle hlt]

theorem searched_grabSlots {marked : Fin (2 ^ w) → Bool} (hle : w ≤ bits) (hi : i < 2 ^ bits)
    (hn : 0 < n) :
    Searched w bits 1 (fun j => marked (offset w 0 j)) i n
      ((grabSlots bits n marked 0 (digit w 0 i) i).1.map fun s => [s],
        (grabSlots bits n marked 0 (digit w 0 i) i).2) := by
  have hdigit : digit w 0 i = i % 2 ^ w := by
    rw [digit, Nat.mul_zero, Nat.pow_zero, Nat.div_one]
  have hlt : i % 2 ^ w < 2 ^ w := Nat.mod_lt _ (Nat.two_pow_pos w)
  have hend := block_le_of_le (by rwa [Nat.mul_one] : w * 1 ≤ bits) hi
  have hsplit := Nat.div_add_mod i (2 ^ w)
  rw [Nat.mul_one, Nat.succ_mul, Nat.mul_comm] at hend
  obtain ⟨k, hpos, hk, hgrab, hlen⟩ := @grabSlots_spec w bits i n marked 0 (2 ^ w - i % 2 ^ w) hn
    (Nat.sub_le _ _) (fun _ => by omega) (by omega)
  rw [Nat.sub_sub_self hlt.le, Nat.mod_eq_of_lt hi] at hgrab
  rw [hdigit, hgrab]
  refine ⟨k, hpos (by omega), ?_, by omega, ?_, by omega⟩
  · rw [Nat.mul_one, Nat.succ_mul, Nat.mul_comm]
    omega
  · rw [List.map_map]
    rfl

/-- What `__lookup` looks for below a pointer. -/
def present (h : Nat) (x : Ptr α w) (j : Nat) : Bool :=
  (lookupDown j h x).isSome

/-- What `__lookup_tag` looks for below a pointer whose slot has the tag bit. -/
def presentTag (t : Fin 2) (h : Nat) (x : Ptr α w) (bit : Bool) (j : Nat) : Bool :=
  (lookupDown j h x).isSome && tagAt t j h x bit

theorem isSome_lookupDown_zero {x : Ptr α w} (hwf : WellFormed 0 x) (j : Nat) :
    (lookupDown j 0 x).isSome = !x.isNull := by
  cases x with
  | null => rfl
  | item y => rfl
  | node => exact hwf.elim

theorem lookupDown_of_isNull {x : Ptr α w} (hnull : x.isNull = true) (j h : Nat) :
    lookupDown j h x = none := by
  rw [isNull_iff.mp hnull]
  cases h <;> rfl

theorem lookupSlotsDown_spec {x : Ptr α w} (hwf : WellFormed (h + 1) x) (hnode : x.isNull = false)
    (hw : w ≤ bits) (hle : w * h ≤ bits) (hi : i < 2 ^ bits) (hn : 0 < n) :
    Searched w bits (h + 1) (present (h + 1) x) i n (lookupSlotsDown bits n (h + 1) x i) := by
  induction h generalizing x i with
  | zero =>
    cases x with
    | null => cases hnode
    | item y => exact absurd hwf (Nat.succ_ne_zero 0)
    | node height count slots tags =>
      have hpresent : present 1 (.node height count slots tags) =
          fun j => !(slots (offset w 0 j)).isNull :=
        funext fun j => isSome_lookupDown_zero (hwf.2.2.1 _) j
      rw [hpresent]
      exact @searched_grabSlots w bits i n (fun s => !(slots s).isNull) hw hi hn
  | succ h ih =>
    cases x with
    | null => cases hnode
    | item y => exact absurd hwf (Nat.succ_ne_zero _)
    | node height count slots tags =>
      have hsought := seekSlot_spec (fun s => !(slots s).isNull) hle hi
      unfold lookupSlotsDown
      generalize seekSlot bits (w * (h + 1)) (fun s => !(slots s).isNull) (digit w (h + 1) i) i =
        r at hsought
      have hskip {i' : Nat}
          (hnull : ∀ j, i ≤ j → j < i' → (!(slots (offset w (h + 1) j)).isNull) = false) (j : Nat)
          (hj : i ≤ j) (hj' : j < i') :
          present (h + 2) (.node height count slots tags) j = false := by
        have hslot : (slots (offset w (h + 1) j)).isNull = true := by
          simpa using hnull j hj hj'
        show (lookupDown j (h + 1) (slots (offset w (h + 1) j))).isSome = false
        rw [lookupDown_of_isNull hslot]
        rfl
      cases hsought with
      | found i' hge hlt hmarked hblock hnull =>
        have hchild := ih (hwf.2.2.1 (offset w (h + 1) i')) (by simpa using hmarked)
          ((Nat.mul_le_mul_left w (Nat.le_succ h)).trans hle) hlt
        refine (hchild.below fun j hoff => ?_).skip hge hblock (hskip hnull)
        show (lookupDown j (h + 1) (slots (offset w (h + 1) j))).isSome = _
        rw [hoff]
        rfl
      | out k hpos hlim hend hnull => exact .nothing hpos hlim hend (hskip hnull)

/-- Without the tag bit of a slot nothing below it has the tag. -/
theorem presentTag_eq_false {x : Ptr α w} {t : Fin 2} (hwf : WellFormed h x)
    (hok : TagOk t h x false) (j : Nat) : presentTag t h x false j = false := by
  have hmod := Nat.mod_mod j (2 ^ (w * h))
  unfold presentTag
  rw [← lookupDown_congr hmod, ← tagAt_congr hmod]
  refine Bool.eq_false_iff.mpr fun htrue => ?_
  obtain ⟨hsome, htag⟩ := Bool.and_eq_true_iff.mp htrue
  refine Bool.false_ne_true ((TagOk.iff_exists hwf hok).mpr ⟨j % 2 ^ (w * h), ?_, ?_, htag⟩)
  · exact Nat.mod_lt _ (Nat.two_pow_pos _)
  · exact Option.isSome_iff_ne_none.mp hsome

theorem TagOk.isNull_eq_false {x : Ptr α w} {t : Fin 2} (hok : TagOk t h x true) :
    x.isNull = false := by
  cases h with
  | zero => exact hok rfl
  | succ h =>
    cases x with
    | null => cases hok
    | item y => rfl
    | node height count slots tags => rfl

theorem lookupTagSlotsDown_spec {x : Ptr α w} {t : Fin 2} {bit : Bool} (hwf : WellFormed (h + 1) x)
    (hnode : x.isNull = false) (hw : w ≤ bits) (hle : w * h ≤ bits) (hi : i < 2 ^ bits)
    (hn : 0 < n) :
    Searched w bits (h + 1) (presentTag t (h + 1) x bit) i n
      (lookupTagSlotsDown bits t n (h + 1) x i) := by
  induction h generalizing x i bit with
  | zero =>
    cases x with
    | null => cases hnode
    | item y => exact absurd hwf (Nat.succ_ne_zero 0)
    | node height count slots tags =>
      have hpresent : presentTag t 1 (.node height count slots tags) bit =
          fun j => tags t (offset w 0 j) && !(slots (offset w 0 j)).isNull := by
        funext j
        rw [Bool.and_comm, ← isSome_lookupDown_zero (hwf.2.2.1 _) j]
        rfl
      have hsought := seekSlot_spec (tags t) hle hi
      unfold lookupTagSlotsDown
      rw [hpresent]
      generalize seekSlot bits (w * 0) (tags t) (digit w 0 i) i = r at hsought
      have hskip {i' : Nat} (hclear : ∀ j, i ≤ j → j < i' → tags t (offset w 0 j) = false)
          (j : Nat) (hj : i ≤ j) (hj' : j < i') :
          (tags t (offset w 0 j) && !(slots (offset w 0 j)).isNull) = false := by
        rw [hclear j hj hj', Bool.false_and]
      cases hsought with
      | found i' hge hlt hmarked hblock hclear =>
        dsimp only
        rw [if_pos rfl]
        exact (@searched_grabSlots w bits i' n (fun s => tags t s && !(slots s).isNull) hw hlt
          hn).skip hge hblock (hskip hclear)
      | out k hpos hlim hend hclear => exact .nothing hpos hlim hend (hskip hclear)
  | succ h ih =>
    cases x with
    | null => cases hnode
    | item y => exact absurd hwf (Nat.succ_ne_zero _)
    | node height count slots tags =>
      have hsought := seekSlot_spec (tags t) hle hi
      unfold lookupTagSlotsDown
      generalize seekSlot bits (w * (h + 1)) (tags t) (digit w (h + 1) i) i = r at hsought
      have hskip {i' : Nat}
          (hclear : ∀ j, i ≤ j → j < i' → tags t (offset w (h + 1) j) = false) (j : Nat)
          (hj : i ≤ j) (hj' : j < i') :
          presentTag t (h + 2) (.node height count slots tags) bit j = false := by
        have hok := hwf.2.2.2 t (offset w (h + 1) j)
        rw [hclear j hj hj'] at hok
        show presentTag t (h + 1) (slots (offset w (h + 1) j)) (tags t (offset w (h + 1) j)) j =
          false
        rw [hclear j hj hj']
        exact presentTag_eq_false (hwf.2.2.1 _) hok j
      cases hsought with
      | found i' hge hlt hmarked hblock hclear =>
        have hok := hwf.2.2.2 t (offset w (h + 1) i')
        rw [hmarked] at hok
        have hchild := @ih i' (slots (offset w (h + 1) i')) (tags t (offset w (h + 1) i'))
          (hwf.2.2.1 _) hok.isNull_eq_false
          ((Nat.mul_le_mul_left w (Nat.le_succ h)).trans hle) hlt
        dsimp only
        rw [if_neg (Nat.succ_ne_zero h)]
        refine (hchild.below fun j hoff => ?_).skip hge hblock (hskip hclear)
        show presentTag t (h + 1) (slots (offset w (h + 1) j)) (tags t (offset w (h + 1) j)) j = _
        rw [hoff]
      | out k hpos hlim hend hclear => exact .nothing hpos hlim hend (hskip hclear)

end AndroidKernel.RadixTree
