import AndroidKernel.Library.Digits
import AndroidKernel.Library.Bytes

/-!
# Searches in texts of several blocks

The interface of the search algorithms. A text is handed out block by block by `get_next_block`,
and the offset of the state is where the next call starts. The module says which occurrences of a
pattern a search is to return.
-/

namespace AndroidKernel.TextSearch

open Library Exec

/-- `UINT_MAX`. -/
def uintMax : Nat := 2 ^ 32 - 1

/-- Conversion to an `unsigned int`. -/
def uint (x : Nat) : Nat := x % 2 ^ 32

/-- `struct ts_state`, without the control buffer of `get_next_block`. -/
structure TsState where
  offset : Nat

/-- `conf->flags & TS_IGNORECASE`. -/
def ignoresCase (flags : Nat) : Bool :=
  flags &&& 2 ≠ 0

/-- `icase ? toupper(c) : c`. -/
def foldCase (icase : Bool) (c : Byte) : Byte :=
  if icase then toupper c else c

/-- `get_next_block`, for a text in blocks: what is left of the block at `consumed`. -/
def getNextBlock : List (List Byte) → Nat → List Byte
  | [], _ => []
  | block :: blocks, consumed =>
    if consumed < block.length then block.drop consumed
    else getNextBlock blocks (consumed - block.length)

/-- `textsearch_next`, for the `find` of an algorithm. -/
def textsearchNext (find : TsState → Exec (Nat × TsState)) (state : TsState) :
    Exec (Nat × TsState) :=
  find state

/-- `textsearch_find`. -/
def textsearchFind (find : TsState → Exec (Nat × TsState)) (state : TsState) :
    Exec (Nat × TsState) :=
  textsearchNext find { state with offset := 0 }

/-- The results of `textsearch_find` and of the calls of `textsearch_next` after it. -/
def search (find : TsState → Exec (Nat × TsState)) (state : TsState) :
    Nat → Exec (List Nat × TsState)
  | 0 => do
    let (ret, state) ← textsearchFind find state
    pure ([ret], state)
  | n + 1 => do
    let (rets, state) ← search find state n
    let (ret, state) ← textsearchNext find state
    pure (rets ++ [ret], state)

/-! ## Occurrences -/

/-- The pattern is in the text at `p`. -/
def OccursAt (pat text : List Byte) (p : Nat) : Prop :=
  pat <+: text.drop p

/-- The occurrences from `start` on, each the first one that does not overlap the one before. -/
inductive NonOverlapping (pat text : List Byte) : Nat → List Nat → Prop where
  | none {start : Nat} : (∀ p, start ≤ p → ¬ OccursAt pat text p) →
      NonOverlapping pat text start []
  | next {start p : Nat} {ps : List Nat} : start ≤ p → OccursAt pat text p →
      (∀ p', start ≤ p' → OccursAt pat text p' → p ≤ p') →
      NonOverlapping pat text (p + pat.length) ps → NonOverlapping pat text start (p :: ps)

variable {pat text : List Byte} {blocks : List (List Byte)} {c p start : Nat}

theorem OccursAt.le (h : OccursAt pat text p) (hpat : pat ≠ []) : p + pat.length ≤ text.length := by
  have hlen := h.length_le
  have hpos := List.length_pos_iff.mpr hpat
  rw [List.length_drop] at hlen
  omega

theorem occursAt_iff (hpat : pat ≠ []) : OccursAt pat text p ↔ p + pat.length ≤ text.length ∧
    ∀ j, j < pat.length → text.getD (p + j) 0 = pat.getD j 0 := by
  have hget : ∀ j, p + j < text.length → (text.drop p)[j]? = some (text.getD (p + j) 0) := by
    intro j hj
    rw [List.getElem?_drop, List.getD_eq_getElem?_getD, List.getElem?_eq_getElem hj]
    rfl
  have hpatGet : ∀ j (hj : j < pat.length), pat.getD j 0 = pat[j] := fun j hj => by
    rw [List.getD_eq_getElem?_getD, List.getElem?_eq_getElem hj]
    rfl
  constructor
  · intro h
    refine ⟨h.le hpat, fun j hj => ?_⟩
    have hsome := List.prefix_iff_getElem?.mp h j hj
    have hle := h.le hpat
    rw [hget j (by omega)] at hsome
    rw [hpatGet j hj]
    exact Option.some.inj hsome
  · rintro ⟨hle, hvals⟩
    refine List.prefix_iff_getElem?.mpr fun j hj => ?_
    rw [hget j (by omega), hvals j hj, hpatGet j hj]

/-- There is a sequence of occurrences that a search is to return. -/
theorem exists_nonOverlapping (hpat : pat ≠ []) (start : Nat) :
    ∃ ps, NonOverlapping pat text start ps := by
  classical
  have hpos := List.length_pos_iff.mpr hpat
  induction hleft : text.length - start using Nat.strong_induction_on generalizing start with
  | _ left ih =>
    by_cases hexists : ∃ p, start ≤ p ∧ OccursAt pat text p
    · obtain ⟨hstart, hoccurs⟩ := Nat.find_spec hexists
      have hle := hoccurs.le hpat
      obtain ⟨ps, hps⟩ := ih (text.length - (Nat.find hexists + pat.length)) (by omega) _ rfl
      exact ⟨_, .next hstart hoccurs (fun p' hp' ho => Nat.find_min' hexists ⟨hp', ho⟩) hps⟩
    · exact ⟨[], .none fun p hp ho => hexists ⟨p, hp, ho⟩⟩

/-- The block at an offset is the text from there on, up to the end of the block. -/
theorem getNextBlock_spec (blocks : List (List Byte)) (c : Nat) :
    getNextBlock blocks c <+: blocks.flatten.drop c ∧
      (getNextBlock blocks c = [] ↔ blocks.flatten.length ≤ c) := by
  induction blocks generalizing c with
  | nil => exact ⟨List.nil_prefix, iff_of_true rfl (Nat.zero_le c)⟩
  | cons block blocks ih =>
    rw [getNextBlock, List.flatten_cons, List.length_append]
    by_cases hin : c < block.length
    · rw [if_pos hin, List.drop_append_of_le_length (Nat.le_of_lt hin), List.drop_eq_nil_iff]
      exact ⟨List.prefix_append _ _, iff_of_false (by omega) (by omega)⟩
    · rw [if_neg hin, List.drop_append, List.drop_of_length_le (Nat.not_lt.mp hin),
        List.nil_append]
      obtain ⟨hpre, hnil⟩ := ih (c - block.length)
      exact ⟨hpre, hnil.trans (by omega)⟩

/-- What is left of a block is the end of one of the blocks. -/
theorem exists_block (hc : c < blocks.flatten.length) :
    ∃ before block after d, blocks = before ++ block :: after ∧ c = before.flatten.length + d ∧
      getNextBlock blocks c = block.drop d := by
  induction blocks generalizing c with
  | nil => exact absurd hc (Nat.not_lt_zero c)
  | cons block blocks ih =>
    rw [List.flatten_cons, List.length_append] at hc
    rw [getNextBlock]
    by_cases hin : c < block.length
    · rw [if_pos hin]
      exact ⟨[], block, blocks, c, rfl, (Nat.zero_add c).symm, rfl⟩
    · obtain ⟨before, block', after, d, rfl, hplace, hget⟩ := @ih (c - block.length) (by omega)
      rw [if_neg hin]
      refine ⟨block :: before, block', after, d, rfl, ?_, hget⟩
      rw [List.flatten_cons, List.length_append]
      omega

/-- The characters of a block are those of the text. -/
theorem getNextBlock_getD {j : Nat} (hj : j < (getNextBlock blocks c).length) :
    c + (getNextBlock blocks c).length ≤ blocks.flatten.length ∧
      (getNextBlock blocks c).getD j 0 = blocks.flatten.getD (c + j) 0 := by
  obtain ⟨hpre, hnil⟩ := getNextBlock_spec blocks c
  have hlen := hpre.length_le
  rw [List.length_drop] at hlen
  refine ⟨by omega, ?_⟩
  have hsome := List.prefix_iff_getElem?.mp hpre j hj
  rw [List.getElem?_drop] at hsome
  rw [List.getD_eq_getElem?_getD, List.getD_eq_getElem?_getD, hsome, List.getElem?_eq_getElem hj]

theorem getD_foldCase (icase : Bool) (l : List Byte) (i : Nat) :
    (l.map (foldCase icase)).getD i 0 = foldCase icase (l.getD i 0) := by
  have hzero : foldCase icase 0 = 0 := by
    cases icase with
    | false => rfl
    | true => rfl
  rw [List.getD_eq_getElem?_getD, List.getElem?_map, List.getD_eq_getElem?_getD]
  cases l[i]? with
  | none => exact hzero.symm
  | some c => rfl

/-- What one call is to return: the first occurrence from the offset of the state on, with the
offset moved behind it, or `UINT_MAX`. -/
def FindsNext (pat text : List Byte) (state : TsState) (result : Exec (Nat × TsState)) : Prop :=
  (∃ p, state.offset ≤ p ∧ OccursAt pat text p ∧
    (∀ p', state.offset ≤ p' → OccursAt pat text p' → p ≤ p') ∧
    result = .ok (p, ⟨p + pat.length⟩)) ∨
  (∀ p, state.offset ≤ p → ¬ OccursAt pat text p) ∧ result = .ok (uintMax, state)

/-- What the first calls are to return: the occurrences, and `UINT_MAX` after them. -/
def expected (ps : List Nat) (calls : Nat) : List Nat :=
  (List.range calls).map fun i => ps.getD i uintMax

variable {find : TsState → Exec (Nat × TsState)} {state : TsState} {ps : List Nat}

/-- One call returns the next occurrence, and the ones after it are left. -/
theorem FindsNext.next {result : Exec (Nat × TsState)} (h : FindsNext pat text state result)
    (hpat : pat ≠ []) (hoffset : state.offset ≤ text.length)
    (hps : NonOverlapping pat text state.offset ps) :
    ∃ state', result = .ok (ps.headD uintMax, state') ∧ state'.offset ≤ text.length ∧
      NonOverlapping pat text state'.offset ps.tail := by
  rcases h with ⟨p, hstart, hoccurs, hfirst, rfl⟩ | ⟨hnone, rfl⟩
  · cases hps with
    | none hnot => exact absurd hoccurs (hnot p hstart)
    | @next _ p' ps hstart' hoccurs' hfirst' hrest =>
      have heq : p = p' := Nat.le_antisymm (hfirst p' hstart' hoccurs') (hfirst' p hstart hoccurs)
      rw [heq] at hoccurs ⊢
      exact ⟨_, rfl, hoccurs.le hpat, hrest⟩
  · cases hps with
    | none hnot => exact ⟨state, rfl, hoffset, .none hnot⟩
    | next hstart' hoccurs' _ _ => exact absurd hoccurs' (hnone _ hstart')

/-- Calls that each return what they are to return give the occurrences one after the other. -/
theorem search_spec (hpat : pat ≠ [])
    (hfind : ∀ state, state.offset ≤ text.length → FindsNext pat text state (find state))
    (hps : NonOverlapping pat text 0 ps) (state : TsState) (n : Nat) :
    ∃ state', search find state n = .ok (expected ps (n + 1), state') ∧
      state'.offset ≤ text.length ∧ NonOverlapping pat text state'.offset (ps.drop (n + 1)) := by
  induction n with
  | zero =>
    obtain ⟨state', hrun, hoffset, hrest⟩ :=
      (hfind { state with offset := 0 } (Nat.zero_le _)).next hpat (Nat.zero_le _) hps
    refine ⟨state', ?_, hoffset, ?_⟩
    · rw [search, textsearchFind, textsearchNext, hrun, ok_bind]
      cases ps with
      | nil => rfl
      | cons p ps => rfl
    · rwa [List.drop_one]
  | succ n ih =>
    obtain ⟨state', hrun, hoffset, hrest⟩ := ih
    obtain ⟨state'', hnext, hoffset', hrest'⟩ := (hfind state' hoffset).next hpat hoffset hrest
    refine ⟨state'', ?_, hoffset', ?_⟩
    · have hhead : (ps.drop (n + 1)).headD uintMax = ps.getD (n + 1) uintMax := by
        rw [List.headD_eq_head?_getD, List.head?_drop, List.getD_eq_getElem?_getD]
      have hsucc : expected ps (n + 1 + 1) = expected ps (n + 1) ++ [ps.getD (n + 1) uintMax] := by
        rw [expected, List.range_succ, List.map_append]
        rfl
      rw [search, hrun, ok_bind]
      dsimp only
      rw [textsearchNext, hnext, ok_bind, hhead, hsucc]
      rfl
    · rwa [List.tail_drop] at hrest'

end AndroidKernel.TextSearch
