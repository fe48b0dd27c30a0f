import AndroidKernel.Library.Digits
import AndroidKernel.Yaffs.Tnodes
import AndroidKernel.Library.Runs

/-!
# Operations on a tnode tree

What growing, the way down to level 0 and pruning do to the entries of a well-formed tree.
-/

namespace AndroidKernel.Yaffs

open Library

open Cell

/-! ## Words -/

theorem isNull_iff {c : Cell} : c.isNull = true ↔ c = null := by
  cases c with
  | data value => simp only [isNull, beq_iff_eq, null, data.injEq]
  | tnode words => simp only [isNull, null, Bool.false_eq_true, reduceCtorEq]

theorem hasData_eq_false {first : Nat} {words : Nat → Cell} :
    hasData first words = false ↔ ∀ i, first ≤ i → i < 8 → words i = null := by
  simp only [hasData, List.any_eq_false, List.mem_range'_1, Bool.not_eq_true', isNull_iff,
    Bool.not_eq_false]
  refine forall_congr' fun i => ⟨fun h hle hlt => h ⟨hle, by omega⟩, fun h hi => h hi.1 (by omega)⟩

theorem asMap_data (map : Nat → BitVec 32) : asMap (fun i => data (map i)) = some map := by
  simp [asMap, isData, toWord]

/-! ## Well-formed trees -/

/-- A tree of a level: its leaves are maps. -/
def Wf (dev : Device) : Nat → Cell → Prop
  | _, data value => value = 0
  | 0, tnode words => ∃ map, words = (fun i => data (map i)) ∧ Fits dev map
  | level + 1, tnode words => ∀ i < 8, Wf dev level (words i)

/-- The first tnode of level 0 is there. -/
def Spine : Nat → Cell → Prop
  | _, data _ => False
  | 0, tnode _ => True
  | level + 1, tnode words => Spine level (words 0)

/-- The entry of a chunk below a tnode. -/
def valueAt (dev : Device) (chunkId level : Nat) (tn : Cell) : Option (BitVec 32) :=
  (find chunkId level tn).bind (entry dev chunkId)

/-- The entry of a chunk in a tree, which reaches as far as its height allows. -/
def treeValue (dev : Device) (chunkId level : Nat) (top : Cell) : Option (BitVec 32) :=
  if chunkId / 16 < 2 ^ (3 * level) then valueAt dev chunkId level top else some 0

variable {dev : Device} {chunkId chunkId' level : Nat} {tn : Cell} {words : Nat → Cell}

theorem wf_null : Wf dev level null := by
  cases level <;> rfl

theorem not_spine_null : ¬ Spine level null := by
  cases level <;> exact id

theorem valueAt_null : valueAt dev chunkId level null = some 0 := by
  cases level <;> rfl

theorem Wf.eq_null {value : BitVec 32} (h : Wf dev level (data value)) : data value = null := by
  have hzero : value = 0 := by
    cases level <;> exact h
  rw [hzero, null]

theorem internalIndex_eq (level chunkId : Nat) :
    internalIndex level chunkId = digit 3 level (chunkId / 16) := by
  unfold internalIndex digit
  rw [show 0x7 = 2 ^ 3 - 1 from rfl, Nat.and_two_pow_sub_one_eq_mod, Nat.shiftRight_add,
    Nat.shiftRight_eq_div_pow, Nat.shiftRight_eq_div_pow, Nat.mul_comm level 3]

theorem internalIndex_lt (level chunkId : Nat) : internalIndex level chunkId < 8 := by
  rw [internalIndex_eq]
  exact digit_lt 3 level (chunkId / 16)

theorem valueAt_map (map : Nat → BitVec 32) :
    valueAt dev chunkId 0 (tnode fun i => data (map i)) =
      some (getChunkGroupBase dev map chunkId) := by
  have hentry : valueAt dev chunkId 0 (tnode fun i => data (map i)) =
      (asMap fun i => data (map i)).map fun map => getChunkGroupBase dev map chunkId := rfl
  rw [hentry, asMap_data]
  rfl

theorem valueAt_tnode : valueAt dev chunkId (level + 1) (tnode words) =
    valueAt dev chunkId level (words (internalIndex level chunkId)) := rfl

/-- A clean tnode serves at any level. -/
theorem wf_getTnode (answer : Bool) : Wf dev level (getTnode answer) := by
  cases answer with
  | false => exact wf_null
  | true =>
    cases level with
    | zero => exact ⟨fun _ => 0, rfl, fits_zero dev⟩
    | succ level => exact fun _ _ => wf_null

theorem valueAt_getTnode (hg : dev.chunkGroupBits = 0) (answer : Bool) :
    valueAt dev chunkId level (getTnode answer) = some 0 := by
  cases answer with
  | false => exact valueAt_null
  | true =>
    cases level with
    | zero =>
      have hentry : entry dev chunkId (tnode fun _ => null) =
          some (getChunkGroupBase dev (fun _ => 0) chunkId) := rfl
      rw [getChunkGroupBase_zero dev (fun _ => 0) chunkId hg fun _ _ => rfl] at hentry
      exact hentry
    | succ level => exact valueAt_null

/-! ## Height -/

theorem tallness_le_iff {rounds i k : Nat} (hi : i < 2 ^ (3 * rounds)) :
    tallness rounds i ≤ k ↔ i < 2 ^ (3 * k) := by
  induction rounds generalizing i k with
  | zero =>
    have hpos := Nat.two_pow_pos (3 * k)
    have hzero : i < 1 := hi
    exact iff_of_true (Nat.zero_le k) (by omega)
  | succ rounds ih =>
    have hpow : 2 ^ (3 * (rounds + 1)) = 2 ^ (3 * rounds) * 8 := by
      rw [Nat.mul_succ, Nat.pow_add]
    rw [tallness]
    split_ifs with hzero
    · have hpos := Nat.two_pow_pos (3 * k)
      exact iff_of_true (Nat.zero_le k) (by omega)
    rw [Nat.shiftRight_eq_div_pow]
    cases k with
    | zero => exact iff_of_false (by omega) (by omega)
    | succ k =>
      have hpowk : 2 ^ (3 * (k + 1)) = 2 ^ (3 * k) * 8 := by
        rw [Nat.mul_succ, Nat.pow_add]
      rw [Nat.add_le_add_iff_right, ih (by omega), hpowk]
      omega

theorem requiredTallness_le_iff (h : chunkId ≤ maxChunkId) {k : Nat} :
    requiredTallness chunkId ≤ k ↔ chunkId / 16 < 2 ^ (3 * k) := by
  unfold requiredTallness
  rw [Nat.shiftRight_eq_div_pow]
  refine tallness_le_iff ?_
  have hpow : (2 : Nat) ^ 20 ≤ 2 ^ (3 * 32) := Nat.pow_le_pow_right (by omega) (by omega)
  unfold maxChunkId at h
  omega

theorem requiredTallness_le_maxLevel (h : chunkId ≤ maxChunkId) :
    requiredTallness chunkId ≤ maxLevel := by
  rw [requiredTallness_le_iff h]
  unfold maxChunkId at h
  unfold maxLevel
  omega

/-- The entry of a chunk is what the tree has for it. -/
theorem chunkOf_eq {fStruct : FileStructure} (hlevel : fStruct.topLevel ≤ maxLevel) :
    chunkOf dev fStruct chunkId =
      if maxChunkId < chunkId then some 0
      else treeValue dev chunkId fStruct.topLevel fStruct.top := by
  unfold chunkOf findLevel0Tnode treeValue valueAt
  rw [if_neg (Nat.not_lt_of_le hlevel)]
  by_cases hmax : maxChunkId < chunkId
  · rw [if_pos hmax, if_pos hmax]
    rfl
  · rw [if_neg hmax, if_neg hmax]
    have htall := requiredTallness_le_iff (Nat.le_of_not_lt hmax) (k := fStruct.topLevel)
    by_cases hfit : chunkId / 16 < 2 ^ (3 * fStruct.topLevel)
    · rw [if_neg (Nat.not_lt_of_le (htall.mpr hfit)), if_pos hfit]
    · rw [if_pos (Nat.lt_of_not_le fun hle => hfit (htall.mp hle)), if_neg hfit]
      rfl

/-- A top of which only the first child is in use adds nothing. -/
theorem treeValue_raise (h : ∀ i, 1 ≤ i → i < 8 → words i = null) :
    treeValue dev chunkId (level + 1) (tnode words) = treeValue dev chunkId level (words 0) := by
  have hpow : 2 ^ (3 * (level + 1)) = 2 ^ (3 * level) * 8 := by
    rw [Nat.mul_succ, Nat.pow_add]
  unfold treeValue
  rw [valueAt_tnode]
  by_cases hlow : chunkId / 16 < 2 ^ (3 * level)
  · rw [if_pos hlow, if_pos (by omega), internalIndex_eq, digit_eq_zero hlow]
  rw [if_neg hlow]
  split_ifs with hfit
  · have hne : internalIndex level chunkId ≠ 0 := by
      intro hzero
      rw [internalIndex_eq] at hzero
      exact hlow (lt_of_digit_eq_zero hfit hzero)
    rw [h _ (by omega) (internalIndex_lt level chunkId), valueAt_null]
  · rfl

/-- A tree that grows keeps its entries. -/
theorem grow_spec {answer : Nat → Bool} {call count : Nat} (hwf : Wf dev level tn)
    (hspine : Spine level tn) (hanswer : ∀ i < count, answer (call + i) = true) :
    Wf dev (level + count) (grow answer call count tn) ∧
      Spine (level + count) (grow answer call count tn) ∧
      ∀ chunkId, treeValue dev chunkId (level + count) (grow answer call count tn) =
        treeValue dev chunkId level tn := by
  induction count generalizing call level tn with
  | zero => exact ⟨hwf, hspine, fun _ => rfl⟩
  | succ count ih =>
    have hcall : answer call = true := hanswer 0 (by omega)
    have hnull : ∀ i, 1 ≤ i → i < 8 →
        Function.update (fun _ => null) 0 tn i = null := by
      intro i hi _
      rw [Function.update_of_ne (by omega)]
    have htop : Wf dev (level + 1) (tnode (Function.update (fun _ => null) 0 tn)) := by
      intro i hi
      by_cases hzero : i = 0
      · subst hzero
        rwa [Function.update_self]
      · rw [Function.update_of_ne hzero]
        exact wf_null
    have htopSpine : Spine (level + 1) (tnode (Function.update (fun _ => null) 0 tn)) := by
      rwa [Spine, Function.update_self]
    obtain ⟨hwf', hspine', hvalue⟩ := @ih (level + 1) _ (call + 1) htop htopSpine fun i hi => by
      rw [Nat.add_assoc, Nat.add_comm 1]
      exact hanswer (i + 1) (by omega)
    rw [Nat.add_assoc, Nat.add_comm 1] at hwf' hspine' hvalue
    rw [grow, if_pos hcall]
    refine ⟨hwf', hspine', fun chunkId => (hvalue chunkId).trans ?_⟩
    rw [treeValue_raise hnull, Function.update_self]

/-! ## The way down -/

/-- What the caller stores in the tnode that it gets. -/
def putEntry (dev : Device) (chunkId : Nat) (val : BitVec 32) (words : Nat → Cell) :
    Option (Nat → Cell) :=
  (asMap words).map fun map i => data (putLevel0Tnode dev map chunkId val i)

/-- The effect of a way down: the entry of the chunk is set if a tnode is found. -/
structure Descended (dev : Device) (chunkId : Nat) (val : BitVec 32) (level : Nat) (tn tn' : Cell)
    (found : Bool) : Prop where
  wf : Wf dev level tn'
  spine : Spine level tn → Spine level tn'
  value : ∀ chunkId', valueAt dev chunkId' level tn' =
    if found ∧ chunkId' / 16 % 2 ^ (3 * level) = chunkId / 16 % 2 ^ (3 * level) ∧
      chunkId' % 16 = chunkId % 16 then some val
    else valueAt dev chunkId' level tn

variable {answer : Nat → Bool} {val : BitVec 32} {call : Nat}

theorem descended_null :
    Descended dev chunkId val level null null false where
  wf := wf_null
  spine := id
  value _ := (if_neg fun h => absurd h.1 Bool.false_ne_true).symm

/-- The map of level 0 is changed in one entry. -/
theorem descended_map (hg : dev.chunkGroupBits = 0) (hval : val.toNat < 2 ^ dev.tnodeWidth)
    {map : Nat → BitVec 32} (hfits : Fits dev map) :
    Descended dev chunkId val 0 (tnode fun i => data (map i))
      (tnode fun i => data (putLevel0Tnode dev map chunkId val i)) true where
  wf := ⟨_, rfl, fits_putLevel0Tnode dev map chunkId val hg hfits⟩
  spine := id
  value chunkId' := by
    have hgroup : chunkId' / 16 % 2 ^ (3 * 0) = chunkId / 16 % 2 ^ (3 * 0) := by
      rw [Nat.mul_zero, Nat.pow_zero, Nat.mod_one, Nat.mod_one]
    rw [valueAt_map, valueAt_map]
    by_cases heq : chunkId' % 16 = chunkId % 16
    · rw [if_pos ⟨rfl, hgroup, heq⟩, getChunkGroupBase_congr dev _ heq,
        getChunkGroupBase_put dev map chunkId val hg hval]
    · rw [if_neg fun h => heq h.2.2, getChunkGroupBase_put_of_ne dev map chunkId val hg heq]

/-- One level: the child on the way changes. -/
theorem Descended.node {child child' : Cell} {found : Bool}
    (hwf : Wf dev (level + 1) (tnode words))
    (hchild : ∀ chunkId', valueAt dev chunkId' level child =
      valueAt dev chunkId' level (words (internalIndex level chunkId)))
    (hspine : Spine level (words (internalIndex level chunkId)) → Spine level child)
    (h : Descended dev chunkId val level child child' found) :
    Descended dev chunkId val (level + 1) (tnode words)
      (tnode (Function.update words (internalIndex level chunkId) child')) found where
  wf := by
    intro i hi
    by_cases hx : i = internalIndex level chunkId
    · subst hx
      rw [Function.update_self]
      exact h.wf
    · rw [Function.update_of_ne hx]
      exact hwf i hi
  spine := by
    intro hs
    rw [Spine]
    by_cases hx : 0 = internalIndex level chunkId
    · rw [← hx, Function.update_self]
      exact h.spine (hspine (hx ▸ hs))
    · rw [Function.update_of_ne hx]
      exact hs
  value chunkId' := by
    simp only [valueAt_tnode, mod_succ_inj, ← internalIndex_eq]
    by_cases hx : internalIndex level chunkId' = internalIndex level chunkId
    · rw [hx, Function.update_self, h.value chunkId', hchild]
      simp only [true_and]
    · rw [Function.update_of_ne hx, if_neg fun hin => hx hin.2.1.1]

/-- The way down in a well-formed tree. -/
theorem descend_spec (hg : dev.chunkGroupBits = 0) (hval : val.toNat < 2 ^ dev.tnodeWidth)
    (hwf : Wf dev level tn) :
    ∃ result, descend answer chunkId (putEntry dev chunkId val) level call tn = some result ∧
      Descended dev chunkId val level tn result.1 result.2 := by
  induction level generalizing call tn with
  | zero =>
    cases tn with
    | data value =>
      rw [hwf.eq_null]
      exact ⟨(null, false), rfl, descended_null⟩
    | tnode words =>
      obtain ⟨map, rfl, hfits⟩ := hwf
      refine ⟨(_, true), ?_, descended_map hg hval hfits⟩
      rw [descend, putEntry, asMap_data]
      rfl
  | succ level ih =>
    cases tn with
    | data value =>
      rw [hwf.eq_null]
      exact ⟨(null, false), rfl, descended_null⟩
    | tnode words =>
      have hx := internalIndex_lt level chunkId
      rw [descend]
      by_cases hmissing : (words (internalIndex level chunkId)).isNull = true
      · obtain ⟨result, hresult, hspec⟩ := @ih (getTnode (answer call)) (call + 1)
          (wf_getTnode (answer call))
        rw [hmissing, if_pos rfl, if_pos rfl, hresult]
        refine ⟨_, rfl, hspec.node hwf (fun chunkId' => ?_) fun hs => ?_⟩
        · rw [isNull_iff.mp hmissing, valueAt_getTnode hg, valueAt_null]
        · rw [isNull_iff.mp hmissing] at hs
          exact absurd hs not_spine_null
      · obtain ⟨result, hresult, hspec⟩ := @ih _ call (hwf _ hx)
        rw [if_neg hmissing, if_neg hmissing, hresult]
        exact ⟨_, rfl, hspec.node hwf (fun _ => rfl) id⟩

/-! ## Pruning -/

/-- Each tnode of level 0 that pruning may free, and that is in use behind the words in which an
internal tnode has its pointers, is in use among these words, too. -/
def PruneSafe : Nat → Bool → Cell → Prop
  | _, _, data _ => True
  | 0, del0, tnode words => del0 = true → hasData 0 words = false → ∀ i < 16, words i = null
  | level + 1, del0, tnode words =>
    ∀ i < 8, PruneSafe level (if i = 0 then del0 else true) (words i)

/-- The effect of pruning: no entry changes. -/
structure Pruned (dev : Device) (level : Nat) (del0 : Bool) (tn tn' : Cell) : Prop where
  wf : Wf dev level tn'
  spine : del0 = false → Spine level tn → Spine level tn'
  value : ∀ chunkId, valueAt dev chunkId level tn' = valueAt dev chunkId level tn

theorem pruned_null {del0 : Bool} : Pruned dev level del0 null null where
  wf := wf_null
  spine _ h := h
  value _ := rfl

/-- A loop over the words of a tnode that replaces each by its own. -/
theorem foldlM_update (step : (Nat → Cell) → Nat → Option (Nat → Cell)) (P : Nat → Cell → Prop)
    (words : Nat → Cell) {is : List Nat} (hnodup : is.Nodup)
    (hstep : ∀ i ∈ is, ∀ words' : Nat → Cell, words' i = words i →
      ∃ c, step words' i = some (Function.update words' i c) ∧ P i c) :
    ∃ words', is.foldlM step words = some words' ∧ ∀ i ∈ is, P i (words' i) := by
  suffices h : ∀ start : Nat → Cell, (∀ i ∈ is, start i = words i) →
      ∃ words', is.foldlM step start = some words' ∧ (∀ i ∈ is, P i (words' i)) ∧
        ∀ i ∉ is, words' i = start i by
    obtain ⟨words', hfold, hP, _⟩ := h words fun _ _ => rfl
    exact ⟨words', hfold, hP⟩
  induction is with
  | nil => exact fun start _ => ⟨start, rfl, nofun, fun _ _ => rfl⟩
  | cons i is ih =>
    intro start hstart
    obtain ⟨hnot, hnodup⟩ := List.nodup_cons.mp hnodup
    obtain ⟨c, hc, hPc⟩ := hstep i (List.mem_cons_self ..) start (hstart i (List.mem_cons_self ..))
    obtain ⟨words', hfold, hP, hrest⟩ := ih hnodup
      (fun j hj => hstep j (List.mem_cons_of_mem i hj)) (Function.update start i c) fun j hj => by
        have hne : j ≠ i := fun heq => hnot (heq ▸ hj)
        rw [Function.update_of_ne hne]
        exact hstart j (List.mem_cons_of_mem i hj)
    refine ⟨words', ?_, ?_, ?_⟩
    · rw [List.foldlM_cons, hc]
      exact hfold
    · intro j hj
      rcases List.mem_cons.mp hj with rfl | hj
      · rw [hrest _ hnot, Function.update_self]
        exact hPc
      · exact hP j hj
    · intro j hj
      rw [List.mem_cons, not_or] at hj
      rw [hrest j hj.2, Function.update_of_ne hj.1]

/-- A tnode without data is as good as none. -/
theorem valueAt_of_not_hasData (h : hasData 0 words = false) :
    valueAt dev chunkId (level + 1) (tnode words) = some 0 := by
  rw [valueAt_tnode, hasData_eq_false.mp h _ (Nat.zero_le _) (internalIndex_lt level chunkId),
    valueAt_null]

theorem pruneChildren_spec (del0 : Bool) (words : Nat → Cell)
    (h : ∀ i < 8, ∃ tn', pruneWorker level (if i = 0 then del0 else true) (words i) = some tn' ∧
      Pruned dev level (if i = 0 then del0 else true) (words i) tn') :
    ∃ words', (List.range 8).foldlM (fun (words : Nat → Cell) (i : Nat) =>
        if (words i).isNull then some words
        else (pruneWorker level (if i = 0 then del0 else true) (words i)).map
          (Function.update words i)) words = some words' ∧
      ∀ i < 8, Pruned dev level (if i = 0 then del0 else true) (words i) (words' i) := by
  have hstep : ∀ i ∈ List.range 8, ∀ words' : Nat → Cell, words' i = words i → ∃ c,
      (if (words' i).isNull then some words'
        else (pruneWorker level (if i = 0 then del0 else true) (words' i)).map
          (Function.update words' i)) = some (Function.update words' i c) ∧
        Pruned dev level (if i = 0 then del0 else true) (words i) c := by
    intro i hi words' hsame
    rw [hsame]
    by_cases hnull : (words i).isNull = true
    · refine ⟨words i, ?_, ?_⟩
      · rw [if_pos hnull, ← hsame, Function.update_eq_self]
      · rw [isNull_iff.mp hnull]
        exact pruned_null
    · obtain ⟨tn', hprune, hspec⟩ := h i (List.mem_range.mp hi)
      refine ⟨tn', ?_, hspec⟩
      rw [if_neg hnull, hprune]
      rfl
  obtain ⟨words', hfold, hP⟩ := foldlM_update _ _ words (List.nodup_range (n := 8)) hstep
  exact ⟨words', hfold, fun i hi => hP i (List.mem_range.mpr hi)⟩

theorem pruneWorker_spec (hg : dev.chunkGroupBits = 0) {del0 : Bool} (hwf : Wf dev level tn)
    (hsafe : PruneSafe level del0 tn) :
    ∃ tn', pruneWorker level del0 tn = some tn' ∧ Pruned dev level del0 tn tn' := by
  induction level generalizing del0 tn with
  | zero =>
    cases tn with
    | data value =>
      rw [hwf.eq_null]
      exact ⟨null, rfl, pruned_null⟩
    | tnode words =>
      rw [pruneWorker]
      by_cases hfree : (!hasData 0 words && del0) = true
      · rw [if_pos hfree]
        rw [Bool.and_eq_true, Bool.not_eq_true'] at hfree
        obtain ⟨map, rfl, hfits⟩ := hwf
        have hzero : ∀ i < 16, map i = 0 := fun i hi => by
          simpa only [null, data.injEq] using hsafe hfree.2 hfree.1 i hi
        refine ⟨null, rfl, wf_null, ?_, fun chunkId => ?_⟩
        · rw [hfree.2]
          nofun
        · rw [valueAt_null, valueAt_map, getChunkGroupBase_zero dev map chunkId hg hzero]
      · rw [if_neg hfree]
        exact ⟨_, rfl, hwf, fun _ => id, fun _ => rfl⟩
  | succ level ih =>
    cases tn with
    | data value =>
      rw [hwf.eq_null]
      exact ⟨null, rfl, pruned_null⟩
    | tnode words =>
      obtain ⟨words', hfold, hchild⟩ := pruneChildren_spec del0 words
        fun i hi => ih (hwf i hi) (hsafe i hi)
      rw [pruneWorker, hfold]
      have hvalue : ∀ chunkId, valueAt dev chunkId (level + 1) (tnode words') =
          valueAt dev chunkId (level + 1) (tnode words) := by
        intro chunkId
        rw [valueAt_tnode, valueAt_tnode]
        exact (hchild _ (internalIndex_lt level chunkId)).value chunkId
      by_cases hfree : (!hasData 0 words' && del0) = true
      · refine ⟨null, by rw [Option.map_some, if_pos hfree], wf_null, ?_, fun chunkId => ?_⟩
        · rw [Bool.and_eq_true] at hfree
          rw [hfree.2]
          nofun
        · rw [Bool.and_eq_true, Bool.not_eq_true'] at hfree
          rw [← hvalue, valueAt_null, valueAt_of_not_hasData hfree.1]
      · refine ⟨tnode words', by rw [Option.map_some, if_neg hfree], fun i hi => (hchild i hi).wf,
          fun hdel hspine => ?_, hvalue⟩
        exact (hchild 0 (by omega)).spine (if_pos rfl ▸ hdel) hspine

/-- A tree that is shortened keeps its entries. -/
theorem shorten_spec (hwf : Wf dev level tn) (hspine : Spine level tn) :
    ∃ fStruct, shorten level tn = some fStruct ∧ fStruct.topLevel ≤ level ∧
      Wf dev fStruct.topLevel fStruct.top ∧ Spine fStruct.topLevel fStruct.top ∧
      ∀ chunkId, treeValue dev chunkId fStruct.topLevel fStruct.top =
        treeValue dev chunkId level tn := by
  induction level generalizing tn with
  | zero => exact ⟨_, rfl, Nat.le_refl 0, hwf, hspine, fun _ => rfl⟩
  | succ level ih =>
    cases tn with
    | data value => exact absurd hspine id
    | tnode words =>
      rw [shorten]
      by_cases hdata : hasData 1 words = true
      · rw [if_pos hdata]
        exact ⟨_, rfl, Nat.le_refl _, hwf, hspine, fun _ => rfl⟩
      · obtain ⟨fStruct, hshorten, hle, hwf', hspine', hvalue⟩ := ih (hwf 0 (by omega)) hspine
        rw [if_neg hdata]
        refine ⟨fStruct, hshorten, Nat.le_succ_of_le hle, hwf', hspine', fun chunkId => ?_⟩
        rw [hvalue, treeValue_raise (hasData_eq_false.mp ((Bool.not_eq_true _).mp hdata))]

/-!
## The map of a file

Read `tnode_tree_refines` first. The tree maps each chunk of the file to what was last stored for
it, as long as no tnode is missing when the tree grows and pruning meets no tnode of level 0 that is
in use only behind the words in which an internal tnode has its pointers.
-/

/-- An operation on the tree of a file; `answer` tells which calls of `yaffs_GetTnode` succeed. -/
inductive Op
  | put (chunkId : Nat) (val : BitVec 32) (answer : Nat → Bool)
  | prune

/-- A tree, and what was last stored for each chunk. -/
structure State where
  fStruct : FileStructure
  stored : Nat → BitVec 32

/-- A new file. -/
def State.init : State where
  fStruct := newFile
  stored := fun _ => 0

/-- Nothing is stored for a chunk whose tnode is not found. -/
def exec (dev : Device) (s : State) : Op → Option State
  | .put chunkId val answer => (putChunk dev answer s.fStruct chunkId val).map fun result =>
    ⟨result.1, if result.2 then Function.update s.stored chunkId val else s.stored⟩
  | .prune => (pruneFileStructure s.fStruct).map fun fStruct => ⟨fStruct, s.stored⟩

/-- One operation. -/
def step (dev : Device) (s : State) (op : Op) (t : State) : Prop :=
  exec dev s op = some t

/-- The operation does not reach a defect: a tree grows only if each new top is there, and pruning
finds each tnode of level 0 in use that is. The chunk number fits in an entry. -/
def Sound (dev : Device) (s : State) : Op → Prop
  | .put chunkId val answer => val.toNat < 2 ^ dev.tnodeWidth ∧
      (chunkId ≤ maxChunkId → ∀ i < requiredTallness chunkId - s.fStruct.topLevel, answer i = true)
  | .prune => PruneSafe s.fStruct.topLevel false s.fStruct.top

/-- The tree is well formed, its first tnode of level 0 is there, and it maps each chunk to what is
stored. -/
structure Refines (dev : Device) (s : State) : Prop where
  level : s.fStruct.topLevel ≤ maxLevel
  wf : Wf dev s.fStruct.topLevel s.fStruct.top
  spine : Spine s.fStruct.topLevel s.fStruct.top
  chunk : ∀ chunkId, chunkOf dev s.fStruct chunkId = some (s.stored chunkId)

variable {dev : Device} {s t : State} {chunkId : Nat} {val : BitVec 32} {answer : Nat → Bool}

theorem refines_init (hg : dev.chunkGroupBits = 0) : Refines dev .init where
  level := Nat.zero_le _
  wf := wf_getTnode true
  spine := trivial
  chunk chunkId := by
    have hlevel : State.init.fStruct.topLevel ≤ maxLevel := Nat.zero_le _
    have hvalue : valueAt dev chunkId State.init.fStruct.topLevel State.init.fStruct.top = some 0 :=
      valueAt_getTnode hg true
    rw [chunkOf_eq hlevel, treeValue, hvalue]
    split_ifs <;> rfl

/-- Trees of the same entries map the chunks alike. -/
theorem Refines.of_treeValue {fStruct : FileStructure} (h : Refines dev s)
    (hlevel : fStruct.topLevel ≤ maxLevel) (hwf : Wf dev fStruct.topLevel fStruct.top)
    (hspine : Spine fStruct.topLevel fStruct.top)
    (hvalue : ∀ chunkId, treeValue dev chunkId fStruct.topLevel fStruct.top =
      treeValue dev chunkId s.fStruct.topLevel s.fStruct.top) :
    Refines dev ⟨fStruct, s.stored⟩ where
  level := hlevel
  wf := hwf
  spine := hspine
  chunk chunkId := by
    rw [← h.chunk chunkId, chunkOf_eq hlevel, chunkOf_eq h.level, hvalue]

/-- A way down in a tree of the same entries, tall enough for the chunk. -/
theorem Refines.of_descended (h : Refines dev s) {level : Nat} {top : Cell}
    {result : Cell × Bool} (hlevel : level ≤ maxLevel) (hfit : chunkId / 16 < 2 ^ (3 * level))
    (hmax : chunkId ≤ maxChunkId) (hspine : Spine level top)
    (hvalue : ∀ chunkId, treeValue dev chunkId level top =
      treeValue dev chunkId s.fStruct.topLevel s.fStruct.top)
    (hspec : Descended dev chunkId val level top result.1 result.2) :
    Refines dev ⟨{ top := result.1, topLevel := level },
      if result.2 then Function.update s.stored chunkId val else s.stored⟩ where
  level := hlevel
  wf := hspec.wf
  spine := hspec.spine hspine
  chunk chunkId' := by
    have hchunk := h.chunk chunkId'
    rw [chunkOf_eq h.level] at hchunk
    rw [chunkOf_eq hlevel]
    dsimp only
    by_cases hset : result.2 = true ∧ chunkId' = chunkId
    · obtain ⟨hfound, rfl⟩ := hset
      rw [if_neg (Nat.not_lt_of_le hmax), treeValue, if_pos hfit, hspec.value,
        if_pos ⟨hfound, rfl, rfl⟩, if_pos hfound, Function.update_self]
    have hstored : (if result.2 then Function.update s.stored chunkId val else s.stored)
        chunkId' = s.stored chunkId' := by
      split_ifs with hfound
      · rw [Function.update_of_ne fun heq => hset ⟨hfound, heq⟩]
      · rfl
    rw [hstored, ← hchunk, ← hvalue]
    congr 1
    unfold treeValue
    by_cases hfit' : chunkId' / 16 < 2 ^ (3 * level)
    · have hother : ¬ (result.2 = true ∧
          chunkId' / 16 % 2 ^ (3 * level) = chunkId / 16 % 2 ^ (3 * level) ∧
          chunkId' % 16 = chunkId % 16) := by
        rintro ⟨hfound, hgroup, hpos⟩
        rw [Nat.mod_eq_of_lt hfit', Nat.mod_eq_of_lt hfit] at hgroup
        exact hset ⟨hfound, by omega⟩
      rw [if_pos hfit', if_pos hfit', hspec.value, if_neg hother]
    · rw [if_neg hfit', if_neg hfit']

theorem Refines.put (hg : dev.chunkGroupBits = 0) (h : Refines dev s)
    (hs : Sound dev s (.put chunkId val answer)) :
    ∃ t, exec dev s (.put chunkId val answer) = some t ∧ Refines dev t := by
  obtain ⟨hval, hanswer⟩ := hs
  rw [exec, putChunk, addOrFindLevel0Tnode, if_neg (Nat.not_lt_of_le h.level)]
  by_cases hmax : maxChunkId < chunkId
  · rw [if_pos hmax]
    exact ⟨_, rfl, h⟩
  rw [if_neg hmax]
  have hle : chunkId ≤ maxChunkId := Nat.le_of_not_lt hmax
  have hlevel := h.level
  have htall := requiredTallness_le_maxLevel hle
  have hfit := requiredTallness_le_iff hle (k := s.fStruct.topLevel +
    (requiredTallness chunkId - s.fStruct.topLevel))
  obtain ⟨hwf, hspine, hgrow⟩ := grow_spec h.wf h.spine fun i hi =>
    (Nat.zero_add i).symm ▸ hanswer hle i hi
  obtain ⟨result, hdescend, hspec⟩ := descend_spec hg hval hwf
  refine ⟨_, congrArg (Option.map _) (congrArg (Option.map _) hdescend), ?_⟩
  exact h.of_descended (by omega) (hfit.mp (by omega)) hle hspine hgrow hspec

theorem Refines.prune (hg : dev.chunkGroupBits = 0) (h : Refines dev s)
    (hs : Sound dev s .prune) : ∃ t, exec dev s .prune = some t ∧ Refines dev t := by
  rw [exec, pruneFileStructure]
  by_cases hlevel : s.fStruct.topLevel = 0
  · rw [if_pos hlevel]
    exact ⟨_, rfl, h⟩
  rw [if_neg hlevel]
  obtain ⟨tn, hprune, hpruned⟩ := pruneWorker_spec hg h.wf hs
  obtain ⟨fStruct, hshorten, hle, hwf, hspine, hvalue⟩ :=
    shorten_spec hpruned.wf (hpruned.spine rfl h.spine)
  refine ⟨⟨fStruct, s.stored⟩, ?_,
    h.of_treeValue (Nat.le_trans hle h.level) hwf hspine fun chunkId => ?_⟩
  · rw [hprune, Option.bind_some, hshorten]
    rfl
  · rw [hvalue, treeValue, treeValue, hpruned.value]

/-- A sound operation has a result, which refines the map again. -/
theorem Refines.exec (hg : dev.chunkGroupBits = 0) {op : Op} (h : Refines dev s)
    (hs : Sound dev s op) : ∃ t, Yaffs.exec dev s op = some t ∧ Refines dev t := by
  cases op with
  | put chunkId val answer => exact h.put hg hs
  | prune => exact h.prune hg hs

/-- In every run whose operations are sound, the tree maps each chunk to what was last stored for
it, and each sound operation has a result. -/
theorem tnode_tree_refines (dev : Device) (hg : dev.chunkGroupBits = 0) {s : State}
    (hrun : Reaches (step dev) (Sound dev) .init s) :
    (∀ chunkId, chunkOf dev s.fStruct chunkId = some (s.stored chunkId)) ∧
      ∀ op, Sound dev s op → ∃ t, step dev s op t := by
  have hkeep : ∀ s op t, Refines dev s → Sound dev s op → step dev s op t → Refines dev t := by
    intro s op t h hs hstep
    obtain ⟨t', hexec, hrefines⟩ := h.exec hg hs
    rw [hstep, Option.some.injEq] at hexec
    exact hexec ▸ hrefines
  have hrefines : Refines dev s := hrun.invariant (Refines dev) hkeep (refines_init hg)
  refine ⟨hrefines.chunk, fun op hs => ?_⟩
  obtain ⟨t, hexec, _⟩ := hrefines.exec hg hs
  exact ⟨t, hexec⟩

/-- A device of 2^18 chunks. -/
def wide : Device where
  tnodeWidth := 18
  tnodeMask := 0x3ffff
  chunkGroupBits := 0
  width_ge := by decide
  width_le := by decide
  mask_eq := by decide

/-- A store in a new file. -/
theorem tnode_tree_refines_put : ∃ t, step wide .init (.put 31 1 fun _ => true) t ∧
    chunkOf wide t.fStruct 31 = some (t.stored 31) := by
  have hsound : Sound wide .init (.put 31 1 fun _ => true) := ⟨by decide, fun _ _ _ => rfl⟩
  obtain ⟨t, hstep⟩ := (tnode_tree_refines wide rfl (.refl _)).2 _ hsound
  exact ⟨t, hstep, (tnode_tree_refines wide rfl ((Reaches.refl _).tail hstep hsound)).1 31⟩

/-- What a run leaves for a chunk: the last value stored, and the value in the tree. -/
def outcome (ops : List Op) (chunkId : Nat) : Option (BitVec 32 × Option (BitVec 32)) :=
  (ops.foldlM (exec wide) .init).map fun s => (s.stored chunkId, chunkOf wide s.fStruct chunkId)

theorem reaches_of_outcome {ops : List Op} {chunkId : Nat} {val : BitVec 32}
    {entry : Option (BitVec 32)} (h : outcome ops chunkId = some (val, entry)) :
    ∃ s, Reaches (step wide) anyStep .init s ∧ s.stored chunkId = val ∧
      chunkOf wide s.fStruct chunkId = entry := by
  obtain ⟨s, hfold, heq⟩ := Option.map_eq_some_iff.mp h
  exact ⟨s, reaches_foldlM (exec wide) hfold, (Prod.mk.inj heq).1, (Prod.mk.inj heq).2⟩

/-- Entry 15 of 18 bits lies behind the pointers: its tnode is pruned. A top that is missing when
the tree grows takes the entries of the first tnode for pointers. -/
theorem tnode_tree_loses_chunks :
    (∃ s, Reaches (step wide) anyStep .init s ∧ s.stored 31 = 1 ∧
      chunkOf wide s.fStruct 31 = some 0) ∧
    ∃ s, Reaches (step wide) anyStep .init s ∧ s.stored 4 = 1 ∧
      chunkOf wide s.fStruct 4 = some 0 := by
  have hpruned : outcome [.put 31 1 fun _ => true, .prune] 31 = some (1, some 0) := by
    decide +kernel
  have hgrown : outcome [.put 4 1 fun _ => true, .put 16 1 fun _ => false] 4 =
      some (1, some 0) := by
    decide +kernel
  exact ⟨reaches_of_outcome hpruned, reaches_of_outcome hgrown⟩

end AndroidKernel.Yaffs
