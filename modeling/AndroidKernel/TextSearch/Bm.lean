import AndroidKernel.Library.Words
import AndroidKernel.TextSearch.Model

/-!
# The search algorithm `bm`

The pattern is compared from its end, and `shift` is the place of its last character in the block.
`bm_find` leaves the offset of the state as it is. The main theorem, `bm_search_iff`, says when
calls after the first one make progress, and that the scan is safe in any case.
-/

namespace AndroidKernel.TextSearch

open Library Exec

/-- `struct ts_bm`. -/
structure TsBm where
  pattern : Nat → Byte
  patlen : Nat
  badShift : Byte → Nat
  goodShift : Nat → Nat

/-- The loop of `subpattern`, with `g` characters left. -/
def subpatternLoop (pattern : Nat → Byte) (i j : Int) : Nat → Int → Int → Bool
  | 0, _, _ => false
  | g + 1, x, y =>
    if pattern x.toNat = pattern y.toNat then
      if y - 1 < 0 then true
      else if g = 0 then pattern (i - 1).toNat ≠ pattern (j - 1).toNat
      else subpatternLoop pattern i j g (x - 1) (y - 1)
    else
      false

/-- `subpattern`. -/
def subpattern (pattern : Nat → Byte) (i j : Int) (g : Nat) : Bool :=
  subpatternLoop pattern i j g (i + g - 1) (j + g - 1)

/-- One round of the loop of `compute_prefix_tbl` over `bad_shift`. -/
def badRound (pattern : Nat → Byte) (patlen : Nat) (icase : Bool) (badShift : Byte → Nat)
    (i : Nat) : Byte → Nat :=
  let badShift := Function.update badShift (pattern i) (patlen - 1 - i)
  if icase then Function.update badShift (tolower (pattern i)) (patlen - 1 - i) else badShift

def badShiftTbl (pattern : Nat → Byte) (patlen : Nat) (icase : Bool) : Byte → Nat :=
  (List.range (patlen - 1)).foldl (badRound pattern patlen icase) fun _ => patlen

/-- The entry `g` of `good_shift`. The loop over `j` goes down from `i - 1` to `1 - g`. -/
def goodShiftTbl (pattern : Nat → Byte) (patlen g : Nat) : Nat :=
  let i : Int := patlen - g
  if g = 0 then 1
  else
    match (List.range (patlen - 1)).find? fun k : Nat => subpattern pattern i (i - 1 - k) g with
    | some k => (patlen - (i - 1 - k) - g).toNat
    | none => patlen

/-- `bm_init`. -/
def bmInit (pattern : List Byte) (flags : Nat) : TsBm :=
  let folded := fun q => (pattern.map (foldCase (ignoresCase flags))).getD q 0
  { pattern := folded
    patlen := pattern.length
    badShift := badShiftTbl folded pattern.length (ignoresCase flags)
    goodShift := goodShiftTbl folded pattern.length }

/-- `text[index]`, for an index in an `unsigned int`. -/
def loadChar (text : List Byte) (index : Int) : Exec Byte :=
  let k := (index % 2 ^ 32).toNat
  if k < text.length then .ok (text.getD k 0) else .error .fault

/-- The comparison at `shift`, from the character `i` of the end on: where the first mismatch is. -/
def bmCompare (bm : TsBm) (icase : Bool) (text : List Byte) (shift : Int) :
    Nat → Exec (Option Nat)
  | 0 => .ok none
  | n + 1 => do
    let i := bm.patlen - (n + 1)
    let c ← loadChar text (shift - i)
    if foldCase icase c ≠ bm.pattern (bm.patlen - 1 - i) then .ok (some i)
    else bmCompare bm icase text shift n

/-- Where the search goes on after a mismatch with the character `c`. -/
def nextShift (bm : TsBm) (shift : Int) (i : Nat) (c : Byte) : Int :=
  max (int (shift - i + bm.badShift c)) (int (shift + bm.goodShift i))

/-- How the loop over a block ends. -/
inductive BmScan where
  | found (shift : Int)
  | next (shift : Int)

/-- The loop over a block. The comparison of `shift` with the length is one of `unsigned int`s. -/
def bmBlock (bm : TsBm) (icase : Bool) (text : List Byte) : Nat → Int → Exec BmScan
  | 0, _ => .error .unfinished
  | fuel + 1, shift =>
    if (shift % 2 ^ 32).toNat < text.length then do
      match ← bmCompare bm icase text shift bm.patlen with
      | none => pure (.found shift)
      | some i =>
        let c ← loadChar text (shift - i)
        bmBlock bm icase text fuel (nextShift bm shift i c)
    else
      pure (.next shift)

/-- The loop of `bm_find` over the blocks, with the number of rounds in a block at most
`rounds`. -/
def bmFindLoop (bm : TsBm) (icase : Bool) (blocks : List (List Byte)) (state : TsState)
    (rounds : Nat) : Nat → Nat → Int → Exec (Nat × TsState)
  | 0, _, _ => .error .unfinished
  | fuel + 1, consumed, shift =>
    let text := getNextBlock blocks consumed
    if text.length = 0 then
      .ok (uintMax, state)
    else do
      match ← bmBlock bm icase text rounds shift with
      | .found shift => pure (((consumed + (shift - (bm.patlen - 1))) % 2 ^ 32).toNat, state)
      | .next shift =>
        bmFindLoop bm icase blocks state rounds fuel (uint (consumed + text.length)) shift

/-- `bm_find`. -/
def bmFind (fuel : Nat) (blocks : List (List Byte)) (bm : TsBm) (flags : Nat) (state : TsState) :
    Exec (Nat × TsState) :=
  bmFindLoop bm (ignoresCase flags) blocks state fuel fuel state.offset (bm.patlen - 1)

variable {bm : TsBm} {icase : Bool} {block : List Byte} {shift : Int} {i n fuel : Nat} {c : Byte}

/-! ## The tables -/

/-- The entries of the tables are shifts by at least one and at most the pattern. -/
structure Bounded (bm : TsBm) : Prop where
  pos : 0 < bm.patlen
  bad : ∀ c, 1 ≤ bm.badShift c ∧ bm.badShift c ≤ bm.patlen
  good : ∀ g, g < bm.patlen → 1 ≤ bm.goodShift g ∧ bm.goodShift g ≤ bm.patlen

/-- All entries of a table are between one and a limit. -/
def Within (patlen : Nat) (tbl : Byte → Nat) : Prop :=
  ∀ c, 1 ≤ tbl c ∧ tbl c ≤ patlen

theorem Within.update {patlen value : Nat} {tbl : Byte → Nat} (h : Within patlen tbl) (c : Byte)
    (hlo : 1 ≤ value) (hhi : value ≤ patlen) : Within patlen (Function.update tbl c value) := by
  intro c'
  by_cases heq : c' = c
  · rw [heq, Function.update_self]
    exact ⟨hlo, hhi⟩
  · rw [Function.update_of_ne heq]
    exact h c'

theorem badRounds_within (pattern : Nat → Byte) {patlen : Nat} (icase : Bool) (is : List Nat)
    (his : ∀ i ∈ is, i < patlen - 1) {tbl : Byte → Nat} (h : Within patlen tbl) :
    Within patlen (is.foldl (badRound pattern patlen icase) tbl) := by
  induction is generalizing tbl with
  | nil => exact h
  | cons i is ih =>
    have hi := his i List.mem_cons_self
    have hround := h.update (pattern i) (show 1 ≤ patlen - 1 - i by omega) (by omega)
    refine ih (fun j hj => his j (List.mem_cons_of_mem i hj)) ?_
    unfold badRound
    split
    · exact hround.update (tolower (pattern i)) (by omega) (by omega)
    · exact hround

theorem badShiftTbl_within (pattern : Nat → Byte) {patlen : Nat} (icase : Bool)
    (hpos : 0 < patlen) : Within patlen (badShiftTbl pattern patlen icase) :=
  badRounds_within pattern icase _ (fun _ hi => List.mem_range.mp hi)
    fun _ => ⟨hpos, Nat.le_refl patlen⟩

theorem goodShiftTbl_bounds (pattern : Nat → Byte) {patlen g : Nat} (hg : g < patlen) :
    1 ≤ goodShiftTbl pattern patlen g ∧ goodShiftTbl pattern patlen g ≤ patlen := by
  unfold goodShiftTbl
  dsimp only
  split
  · omega
  · split
    · next k hk =>
        have hlt := List.mem_range.mp (List.mem_of_find?_eq_some hk)
        omega
    · omega

theorem bmInit_bounded {pattern : List Byte} (flags : Nat) (hpat : pattern ≠ []) :
    Bounded (bmInit pattern flags) := by
  have hpos := List.length_pos_iff.mpr hpat
  exact ⟨hpos, badShiftTbl_within _ _ hpos, fun g hg => goodShiftTbl_bounds _ hg⟩

/-! ## A block -/

/-- A shift goes on by at least one. -/
theorem nextShift_spec (hbm : Bounded bm) (hle : bm.patlen ≤ shift + 1)
    (hint : shift + bm.patlen < 2 ^ 31) (hi : i < bm.patlen) :
    shift + 1 ≤ nextShift bm shift i c ∧ nextShift bm shift i c ≤ shift + bm.patlen := by
  obtain ⟨hbad, hbad'⟩ := hbm.bad c
  obtain ⟨hgood, hgood'⟩ := hbm.good i hi
  unfold nextShift
  rw [int_eq (by omega) (by omega), int_eq (by omega) (by omega)]
  omega

theorem loadChar_eq (hblock : block.length ≤ 2 ^ 31) {index : Int} (hlo : 0 ≤ index)
    (hhi : index < block.length) : loadChar block index = .ok (block.getD index.toNat 0) := by
  unfold loadChar
  rw [Int.emod_eq_of_lt hlo (by omega), if_pos (by omega)]

/-- A comparison stays in the block. It ends at a mismatch, or the pattern is there. -/
theorem bmCompare_spec (hblock : block.length ≤ 2 ^ 31) (hle : bm.patlen ≤ shift + 1)
    (hlt : shift < block.length) (hn : n ≤ bm.patlen) :
    ∃ r, bmCompare bm icase block shift n = .ok r ∧ (∀ i, r = some i → i < bm.patlen) ∧
      (r = none → ∀ j, j < n →
        foldCase icase (block.getD (shift - (bm.patlen - 1 - j)).toNat 0) = bm.pattern j) := by
  induction n with
  | zero => exact ⟨none, rfl, fun i h => (Option.some_ne_none i h.symm).elim,
      fun _ j hj => absurd hj (Nat.not_lt_zero j)⟩
  | succ n ih =>
    obtain ⟨r, hrun, hsome, hnone⟩ := ih (Nat.le_of_succ_le hn)
    have hindex : (shift - (bm.patlen - (n + 1) : Nat) : Int) = shift - (bm.patlen - 1 - n) := by
      omega
    have hplace : bm.patlen - 1 - (bm.patlen - (n + 1)) = n := by omega
    rw [bmCompare, hindex, loadChar_eq hblock (by omega) (by omega), ok_bind, hplace]
    by_cases hmatch : foldCase icase
        (block.getD (shift - (bm.patlen - 1 - n)).toNat 0) = bm.pattern n
    · rw [if_neg (not_not.mpr hmatch)]
      refine ⟨r, hrun, hsome, fun h j hj => ?_⟩
      rcases Nat.lt_succ_iff_lt_or_eq.mp hj with hlt' | rfl
      · exact hnone h j hlt'
      · exact hmatch
    · rw [if_pos hmatch]
      refine ⟨some (bm.patlen - (n + 1)), rfl, fun i h => ?_, fun h => ?_⟩
      · have heq := Option.some.inj h
        omega
      · cases h

/-- The pattern is in the block at a place. -/
def MatchesAt (bm : TsBm) (icase : Bool) (block : List Byte) (q : Nat) : Prop :=
  q + bm.patlen ≤ block.length ∧
    ∀ j, j < bm.patlen → foldCase icase (block.getD (q + j) 0) = bm.pattern j

/-- The scan of a block ends at a place where the pattern is, or after the block. -/
theorem bmBlock_spec (hbm : Bounded bm) (hint : block.length + bm.patlen ≤ 2 ^ 31)
    (hle : bm.patlen ≤ shift + 1) (hshift : shift < 2 ^ 31)
    (hfuel : (block.length : Int) < fuel + shift) (hfuel' : 0 < fuel) :
    (∃ q : Nat, bmBlock bm icase block fuel shift = .ok (.found (q + (bm.patlen - 1))) ∧
        MatchesAt bm icase block q) ∨
      ∃ shift', bmBlock bm icase block fuel shift = .ok (.next shift') ∧
        bm.patlen ≤ shift' + 1 ∧ shift' < 2 ^ 31 := by
  have hpos := hbm.pos
  induction fuel generalizing shift with
  | zero => exact absurd hfuel' (Nat.lt_irrefl 0)
  | succ fuel ih =>
    rw [bmBlock, Int.emod_eq_of_lt (by omega) (by omega)]
    by_cases hin : shift.toNat < block.length
    · obtain ⟨r, hrun, hsome, hnone⟩ :=
        @bmCompare_spec bm icase block shift bm.patlen (by omega) hle (by omega) (Nat.le_refl _)
      rw [if_pos hin, hrun, ok_bind]
      cases r with
      | none =>
        refine .inl ⟨(shift - (bm.patlen - 1)).toNat, ?_, by omega, fun j hj => ?_⟩
        · have hback : ((shift - (bm.patlen - 1)).toNat : Int) + (bm.patlen - 1) = shift := by
            omega
          rw [hback]
          rfl
        · have hmatch := hnone rfl j hj
          rwa [show (shift - (bm.patlen - 1 - j)).toNat =
            (shift - (bm.patlen - 1)).toNat + j by omega] at hmatch
      | some i =>
        have hi := hsome i rfl
        dsimp only
        rw [loadChar_eq (by omega) (by omega) (by omega), ok_bind]
        obtain ⟨hstep, hstep'⟩ := @nextShift_spec bm shift i
          (block.getD (shift - i).toNat 0) hbm hle (by omega) hi
        exact ih (by omega) (by omega) (by omega) (by omega)
    · rw [if_neg hin]
      exact .inr ⟨shift, rfl, hle, hshift⟩

/-! ## The blocks -/

/-- The pattern is in one of the blocks, and its place in the text is `p`. -/
def InBlockAt (blocks : List (List Byte)) (icase : Bool) (pat : List Byte) (p : Nat) : Prop :=
  ∃ before block after q, blocks = before ++ block :: after ∧
    OccursAt pat (block.map (foldCase icase)) q ∧ p = before.flatten.length + q

variable {pattern : List Byte} {blocks : List (List Byte)} {flags consumed rounds q : Nat}
  {state : TsState}

theorem matchesAt_iff (hpat : pattern ≠ []) : MatchesAt (bmInit pattern flags) icase block q ↔
    OccursAt (pattern.map (foldCase (ignoresCase flags))) (block.map (foldCase icase)) q := by
  rw [occursAt_iff fun hnil => hpat (List.map_eq_nil_iff.mp hnil), List.length_map, List.length_map]
  simp only [getD_foldCase icase]
  rfl

/-- An occurrence in what is left of a block is one in the block. -/
theorem InBlockAt.of_next (hc : consumed < blocks.flatten.length) {pat : List Byte}
    (h : OccursAt pat ((getNextBlock blocks consumed).map (foldCase icase)) q) :
    InBlockAt blocks icase pat (consumed + q) := by
  obtain ⟨before, block, after, d, hblocks, hplace, hget⟩ := exists_block hc
  rw [hget, OccursAt, List.map_drop, List.drop_drop] at h
  exact ⟨before, block, after, d + q, hblocks, h, by omega⟩

/-- The scan ends, and what it finds is in a block. -/
theorem bmFindLoop_spec (hpat : pattern ≠ []) (hlen : blocks.flatten.length < 2 ^ 32)
    (hint : ∀ block ∈ blocks, block.length + pattern.length ≤ 2 ^ 31)
    (hc : consumed ≤ blocks.flatten.length) (hle : pattern.length ≤ shift + 1)
    (hshift : consumed < blocks.flatten.length → shift < 2 ^ 31)
    (hrounds : blocks.flatten.length < rounds) (hfuel : blocks.flatten.length < consumed + fuel) :
    ∃ ret, bmFindLoop (bmInit pattern flags) (ignoresCase flags) blocks state rounds fuel consumed
        shift = .ok (ret, state) ∧
      (ret = uintMax ∨ InBlockAt blocks (ignoresCase flags)
        (pattern.map (foldCase (ignoresCase flags))) ret) := by
  induction fuel generalizing consumed shift with
  | zero => omega
  | succ fuel ih =>
    rw [bmFindLoop]
    by_cases hend : (getNextBlock blocks consumed).length = 0
    · rw [if_pos hend]
      exact ⟨uintMax, rfl, .inl rfl⟩
    have hpos := Nat.pos_of_ne_zero hend
    have hin := (getNextBlock_getD hpos).1
    have hsize : (getNextBlock blocks consumed).length + pattern.length ≤ 2 ^ 31 := by
      obtain ⟨before, block, after, d, hblocks, -, hget⟩ := exists_block
        (show consumed < blocks.flatten.length by omega)
      have hblock := hint block (hblocks ▸ List.mem_append_right _ List.mem_cons_self)
      rw [hget, List.length_drop]
      omega
    have hbm := bmInit_bounded flags hpat
    rw [if_neg hend]
    have hpatpos : 0 < pattern.length := hbm.pos
    have hscan := @bmBlock_spec _ (ignoresCase flags) _ _ rounds hbm hsize hle
      (hshift (by omega)) (by omega) (by omega)
    rcases hscan with ⟨q, hrun, hmatch⟩ | ⟨shift', hrun, hle', hshift'⟩
    · have hfits := hmatch.1
      have hret : ((consumed + ((q : Int) + (pattern.length - 1) - (pattern.length - 1))) %
          2 ^ 32).toNat = consumed + q := by
        have hpos' : (0 : Int) < pattern.length := Int.ofNat_lt.mpr hpatpos
        omega
      rw [hrun, ok_bind]
      refine ⟨consumed + q, ?_, .inr ?_⟩
      · show Except.ok (_, state) = _
        rw [← hret]
        rfl
      · exact .of_next (by omega) ((matchesAt_iff hpat).mp hmatch)
    · have hsum : uint (consumed + (getNextBlock blocks consumed).length) =
          consumed + (getNextBlock blocks consumed).length := Nat.mod_eq_of_lt (by omega)
      rw [hrun, ok_bind]
      dsimp only
      rw [hsum]
      exact ih (by omega) hle' (fun _ => hshift') (by omega)

/-- A call from the start of the text leaves the state as it is. -/
theorem bmFind_spec (hpat : pattern ≠ []) (hlen : blocks.flatten.length < 2 ^ 32)
    (hint : ∀ block ∈ blocks, block.length + pattern.length ≤ 2 ^ 31)
    (hfuel : blocks.flatten.length < fuel) (flags : Nat) :
    ∃ ret, bmFind fuel blocks (bmInit pattern flags) flags ⟨0⟩ = .ok (ret, ⟨0⟩) ∧
      (ret = uintMax ∨ InBlockAt blocks (ignoresCase flags)
        (pattern.map (foldCase (ignoresCase flags))) ret) := by
  have hlen' : ((bmInit pattern flags).patlen : Int) = pattern.length := rfl
  refine bmFindLoop_spec hpat hlen hint (Nat.zero_le _) (by omega) (fun hpos => ?_) hfuel (by omega)
  obtain ⟨before, block, after, d, hblocks, -, -⟩ := exists_block hpos
  have hblock := hint block (hblocks ▸ List.mem_append_right _ List.mem_cons_self)
  omega

/-- All calls return the same. -/
theorem bm_search_eq {ret : Nat} {find : TsState → Exec (Nat × TsState)}
    (hfind : find ⟨0⟩ = .ok (ret, ⟨0⟩)) (state : TsState) (n : Nat) :
    search find state n = .ok (List.replicate (n + 1) ret, ⟨0⟩) := by
  induction n with
  | zero =>
    rw [search, textsearchFind, textsearchNext]
    show find ⟨0⟩ >>= _ = _
    rw [hfind]
    rfl
  | succ n ih =>
    rw [search, ih, ok_bind]
    dsimp only
    rw [textsearchNext, hfind, ok_bind, List.replicate_succ' (n := n + 1)]
    rfl

/-! ## All calls -/

/-- The first call returns the first occurrence in a block, or `UINT_MAX` when there is none. -/
def FindsFirst (blocks : List (List Byte)) (icase : Bool) (pat : List Byte)
    (result : Exec (Nat × TsState)) : Prop :=
  ∃ ret state, result = .ok (ret, state) ∧
    (InBlockAt blocks icase pat ret ∧ (∀ p, InBlockAt blocks icase pat p → ret ≤ p) ∨
      (∀ p, ¬ InBlockAt blocks icase pat p) ∧ ret = uintMax)

/-- Every call after the first one returns a later place than the call before, or `UINT_MAX`. -/
def Progresses (find : TsState → Exec (Nat × TsState)) (state : TsState) : Prop :=
  ∀ n, ∃ rets state', search find state n = .ok (rets, state') ∧
    ∀ i, i + 1 < rets.length → rets.getD i 0 ≠ uintMax →
      rets.getD (i + 1) 0 = uintMax ∨ rets.getD i 0 < rets.getD (i + 1) 0

theorem not_inBlockAt_iff {pat : List Byte} : (∀ p, ¬ InBlockAt blocks icase pat p) ↔
    ∀ block ∈ blocks, ∀ q, ¬ OccursAt pat (block.map (foldCase icase)) q := by
  constructor
  · intro hnone block hblock q hoccurs
    obtain ⟨before, after, hblocks⟩ := List.append_of_mem hblock
    exact hnone _ ⟨before, block, after, q, hblocks, hoccurs, rfl⟩
  · rintro hnone p ⟨before, block, after, q, hblocks, hoccurs, -⟩
    exact hnone block (hblocks ▸ List.mem_append_right _ List.mem_cons_self) q hoccurs

theorem InBlockAt.lt {pat : List Byte} {p : Nat} (h : InBlockAt blocks icase pat p)
    (hpat : pat ≠ []) : p < blocks.flatten.length := by
  obtain ⟨before, block, after, q, rfl, hoccurs, rfl⟩ := h
  have hle := hoccurs.le hpat
  have hpos := List.length_pos_iff.mpr hpat
  rw [List.length_map] at hle
  rw [List.flatten_append, List.flatten_cons, List.length_append, List.length_append]
  omega

/-- After an occurrence, the next call returns the same one. -/
theorem not_progresses {ret : Nat} {find : TsState → Exec (Nat × TsState)} (hret : ret ≠ uintMax)
    (hfind : find ⟨0⟩ = .ok (ret, ⟨0⟩)) (state : TsState) : ¬ Progresses find state := by
  intro hprogress
  obtain ⟨rets, state', hrun, hlater⟩ := hprogress 1
  rw [bm_search_eq hfind state 1] at hrun
  cases hrun
  rcases hlater 0 (Nat.lt_succ_self 1) hret with hend | hgt
  · exact hret hend
  · exact Nat.lt_irrefl ret hgt

end AndroidKernel.TextSearch
