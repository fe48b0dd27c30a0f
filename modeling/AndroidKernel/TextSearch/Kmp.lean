import AndroidKernel.Library.Overlaps
import AndroidKernel.TextSearch.Model

/-!
# The search algorithm `kmp`

The state of the automaton is the length of the longest prefix of the pattern that ends at the
current place. It is kept from block to block. The main theorem, `kmp_search`, is about any number
of calls on a text in any blocks.
-/

namespace AndroidKernel.TextSearch

open Library Exec

/-- `struct ts_kmp`. -/
structure TsKmp where
  pattern : Nat → Byte
  patternLen : Nat
  prefixTbl : Nat → Nat

/-- `while (q > 0 && pattern[q] != c) q = prefix_tbl[q - 1]`. Each round makes `q` smaller, so that
there are no more than `q` of them. -/
def fallBack (pattern : Nat → Byte) (prefixTbl : Nat → Nat) (c : Byte) : Nat → Nat → Nat
  | 0, q => q
  | fuel + 1, q =>
    if 0 < q ∧ pattern q ≠ c then fallBack pattern prefixTbl c fuel (prefixTbl (q - 1)) else q

/-- The state after one more character. -/
def advance (pattern : Nat → Byte) (prefixTbl : Nat → Nat) (q : Nat) (c : Byte) : Nat :=
  let q := fallBack pattern prefixTbl c q q
  if pattern q = c then q + 1 else q

/-- One round of `compute_prefix_tbl`, for the entry `q`. -/
def prefixRound (pattern : Nat → Byte) (s : Nat × (Nat → Nat)) (q : Nat) : Nat × (Nat → Nat) :=
  let (k, prefixTbl) := s
  let k := advance pattern prefixTbl k (pattern q)
  (k, Function.update prefixTbl q k)

/-- `compute_prefix_tbl`. The table is zero at first. -/
def computePrefixTbl (pattern : Nat → Byte) (len flags : Nat) : Nat → Nat :=
  let icase := ignoresCase flags
  let (_, prefixTbl) := (List.range' 1 (len - 1)).foldl
    (prefixRound fun q => foldCase icase (pattern q)) (0, fun _ => 0)
  prefixTbl

/-- `kmp_init`. -/
def kmpInit (pattern : List Byte) (flags : Nat) : TsKmp where
  pattern q := (pattern.map (foldCase (ignoresCase flags))).getD q 0
  patternLen := pattern.length
  prefixTbl := computePrefixTbl (fun q => pattern.getD q 0) pattern.length flags

/-- How the loop over a block ends: at the last character of an occurrence, or after the block. -/
inductive Scan where
  | found (i : Nat)
  | state (q : Nat)

/-- The loop over a block, from its character `i` on. -/
def scanBlock (kmp : TsKmp) (icase : Bool) : List Byte → Nat → Nat → Scan
  | [], _, q => .state q
  | c :: text, i, q =>
    let q := advance kmp.pattern kmp.prefixTbl q (foldCase icase c)
    if q = kmp.patternLen then .found i else scanBlock kmp icase text (i + 1) q

/-- The loop of `kmp_find` over the blocks. -/
def kmpFindLoop (kmp : TsKmp) (icase : Bool) (blocks : List (List Byte)) (state : TsState) :
    Nat → Nat → Nat → Exec (Nat × TsState)
  | 0, _, _ => .error .unfinished
  | fuel + 1, consumed, q =>
    let text := getNextBlock blocks consumed
    if text.length = 0 then
      .ok (uintMax, state)
    else
      match scanBlock kmp icase text 0 q with
      | .found i =>
        let state := { state with offset := uint (consumed + i + 1) }
        .ok (uint (state.offset + 2 ^ 32 - kmp.patternLen), state)
      | .state q => kmpFindLoop kmp icase blocks state fuel (uint (consumed + text.length)) q

/-- `kmp_find`. -/
def kmpFind (fuel : Nat) (blocks : List (List Byte)) (kmp : TsKmp) (flags : Nat)
    (state : TsState) : Exec (Nat × TsState) :=
  kmpFindLoop kmp (ignoresCase flags) blocks state fuel state.offset 0

variable {pat text : Nat → Byte} {prefixTbl : Nat → Nat} {len e q k n fuel : Nat}

/-! ## The table -/

/-- The first entries of the table are the longest overlaps of the pattern with its rest. -/
def TableTo (pat : Nat → Byte) (prefixTbl : Nat → Nat) (len n : Nat) : Prop :=
  ∀ i, i < n → Longest pat (patRest pat) len i (prefixTbl i)

/-- The loop ends at a candidate that goes on, or at the empty one. -/
theorem fallBack_spec (htbl : TableTo pat prefixTbl len q) (hfuel : q ≤ fuel)
    (h : Candidate pat text len e q) :
    ∃ b, fallBack pat prefixTbl (text e) fuel q = b ∧ Candidate pat text len e b ∧ b ≤ q ∧
      (b = 0 ∨ pat b = text e) := by
  induction fuel generalizing q with
  | zero =>
    have hzero := Nat.le_zero.mp hfuel
    exact ⟨q, rfl, h, Nat.le_refl q, .inl hzero⟩
  | succ fuel ih =>
    rw [fallBack]
    by_cases hgo : 0 < q ∧ pat q ≠ text e
    · rw [if_pos hgo]
      obtain ⟨b, rfl⟩ := Nat.exists_eq_succ_of_ne_zero (Nat.ne_of_gt hgo.1)
      have hlongest := htbl b (Nat.lt_succ_self b)
      have hle : prefixTbl b ≤ b := hlongest.overlap.1
      obtain ⟨b', hrun, hcandidate, hle', hexit⟩ :=
        ih (fun i hi => htbl i (by omega)) (by omega)
          (h.back hgo.2 hlongest)
      exact ⟨b', hrun, hcandidate, by omega, hexit⟩
    · rw [if_neg hgo]
      refine ⟨q, rfl, h, Nat.le_refl q, ?_⟩
      by_cases hzero : q = 0
      · exact .inl hzero
      · exact .inr (not_not.mp fun hne => hgo ⟨Nat.pos_of_ne_zero hzero, hne⟩)

/-- The state stays the longest overlap. -/
theorem advance_spec (htbl : TableTo pat prefixTbl len q) (h : Longest pat text len e q) :
    Longest pat text len (e + 1) (advance pat prefixTbl q (text e)) ∧
      advance pat prefixTbl q (text e) ≤ q + 1 := by
  obtain ⟨b, hrun, hcandidate, hle, hexit⟩ := fallBack_spec htbl (Nat.le_refl q) h.candidate
  unfold advance
  dsimp only
  rw [hrun]
  by_cases heq : pat b = text e
  · rw [if_pos heq]
    exact ⟨hcandidate.next heq, Nat.succ_le_succ hle⟩
  · rw [if_neg heq]
    have hzero := hexit.resolve_right heq
    rw [hzero] at hcandidate heq ⊢
    exact ⟨hcandidate.stop heq, Nat.zero_le _⟩

/-- The table after the rounds for its first entries. -/
theorem prefixRounds_spec (pat : Nat → Byte) (len n : Nat) :
    ∃ k prefixTbl, (List.range' 1 n).foldl (prefixRound pat) (0, fun _ => 0) = (k, prefixTbl) ∧
      Longest pat (patRest pat) len n k ∧ TableTo pat prefixTbl len (n + 1) := by
  induction n with
  | zero =>
    refine ⟨0, fun _ => 0, rfl, longest_zero _ _ _, fun i hi => ?_⟩
    rw [Nat.lt_one_iff.mp hi]
    exact longest_zero _ _ _
  | succ n ih =>
    obtain ⟨k, prefixTbl, hrun, hlongest, htbl⟩ := ih
    have hk : k ≤ n := hlongest.overlap.1
    obtain ⟨hnext, -⟩ := advance_spec (fun i hi => htbl i (by omega)) hlongest
    refine ⟨advance pat prefixTbl k (pat (n + 1)),
      Function.update prefixTbl (n + 1) (advance pat prefixTbl k (pat (n + 1))), ?_, hnext,
      fun i hi => ?_⟩
    · rw [List.range'_1_concat, List.foldl_append, hrun, Nat.add_comm 1 n]
      rfl
    · rcases Nat.lt_succ_iff_lt_or_eq.mp hi with hlt | rfl
      · rw [Function.update_of_ne (Nat.ne_of_lt hlt)]
        exact htbl i hlt
      · rw [Function.update_self]
        exact hnext

theorem computePrefixTbl_spec (pattern : Nat → Byte) {len flags : Nat} (hlen : 0 < len) :
    TableTo (fun q => foldCase (ignoresCase flags) (pattern q))
      (computePrefixTbl pattern len flags) len len := by
  obtain ⟨k, prefixTbl, hrun, -, htbl⟩ :=
    prefixRounds_spec (fun q => foldCase (ignoresCase flags) (pattern q)) len (len - 1)
  unfold computePrefixTbl
  dsimp only
  rw [hrun]
  rwa [Nat.sub_add_cancel hlen] at htbl

theorem kmpInit_table {pattern : List Byte} (flags : Nat) (hpat : pattern ≠ []) :
    TableTo (kmpInit pattern flags).pattern (kmpInit pattern flags).prefixTbl pattern.length
      pattern.length := by
  have htbl := @computePrefixTbl_spec (fun q => pattern.getD q 0) pattern.length flags
    (List.length_pos_iff.mpr hpat)
  have hpattern : (kmpInit pattern flags).pattern =
      fun q => foldCase (ignoresCase flags) (pattern.getD q 0) := by
    funext q
    exact getD_foldCase _ pattern q
  rw [hpattern]
  exact htbl

/-! ## The scan -/

/-- The state at a place of the text, where no occurrence has ended so far. -/
structure Scanning (pat text : Nat → Byte) (len e q : Nat) : Prop where
  longest : Longest pat text len e q
  lt : q < len
  quiet : ∀ e', e' ≤ e → ¬ Overlap pat text e' len

variable {kmp : TsKmp} {icase : Bool} {block : List Byte} {i : Nat}

/-- A block is scanned up to the end of the first occurrence, or as a whole. -/
theorem scanBlock_spec (htbl : TableTo kmp.pattern kmp.prefixTbl kmp.patternLen kmp.patternLen)
    (hblock : ∀ j, j < block.length → foldCase icase (block.getD j 0) = text (e + j))
    (h : Scanning kmp.pattern text kmp.patternLen e q) :
    (∃ j, j < block.length ∧ scanBlock kmp icase block i q = .found (i + j) ∧
        Overlap kmp.pattern text (e + j + 1) kmp.patternLen ∧
        ∀ e', e' ≤ e + j → ¬ Overlap kmp.pattern text e' kmp.patternLen) ∨
      ∃ q', scanBlock kmp icase block i q = .state q' ∧
        Scanning kmp.pattern text kmp.patternLen (e + block.length) q' := by
  induction block generalizing e q i with
  | nil => exact .inr ⟨q, rfl, h⟩
  | cons c block ih =>
    have hc : foldCase icase c = text e := hblock 0 (Nat.zero_lt_succ _)
    obtain ⟨hlongest, hle⟩ := advance_spec (fun i hi => htbl i (Nat.lt_trans hi h.lt)) h.longest
    rw [scanBlock, hc]
    by_cases hfull : advance kmp.pattern kmp.prefixTbl q (text e) = kmp.patternLen
    · rw [if_pos hfull]
      rw [hfull] at hlongest
      exact .inl ⟨0, Nat.zero_lt_succ _, rfl, hlongest.overlap, h.quiet⟩
    have hlt := h.lt
    have hnext : Scanning kmp.pattern text kmp.patternLen (e + 1)
        (advance kmp.pattern kmp.prefixTbl q (text e)) := by
      refine ⟨hlongest, by omega, fun e' he' hoverlap => ?_⟩
      rcases Nat.lt_succ_iff_lt_or_eq.mp (Nat.lt_succ_of_le he') with hlt' | rfl
      · exact h.quiet e' (Nat.le_of_lt_succ hlt') hoverlap
      · have hmost := hlongest.most _ (Nat.le_refl _) hoverlap
        omega
    have hrest : ∀ j, j < block.length →
        foldCase icase (block.getD j 0) = text (e + 1 + j) := fun j hj => by
      rw [Nat.add_assoc, Nat.add_comm 1 j]
      exact hblock (j + 1) (Nat.succ_lt_succ hj)
    rw [if_neg hfull]
    rcases ih hrest hnext with ⟨j, hj, hrun, hoverlap, hquiet⟩ | ⟨q', hrun, hscan⟩
    · refine .inl ⟨j + 1, Nat.succ_lt_succ hj, ?_, ?_, ?_⟩
      · rw [hrun, Nat.add_assoc, Nat.add_comm 1 j]
      · rwa [Nat.add_assoc e 1 j, Nat.add_comm 1 j] at hoverlap
      · rwa [Nat.add_assoc e 1 j, Nat.add_comm 1 j] at hquiet
    · refine .inr ⟨q', hrun, ?_⟩
      rwa [Nat.add_assoc, Nat.add_comm 1 block.length] at hscan

/-! ## One call -/

variable {pattern : List Byte} {blocks : List (List Byte)} {flags o p : Nat} {state : TsState}

theorem occursAt_iff_overlap {pat text : List Byte} (hpat : pat ≠ []) (hp : o ≤ p) :
    OccursAt pat text p ↔ p + pat.length ≤ text.length ∧
      Overlap (fun q => pat.getD q 0) (fun i => text.getD (o + i) 0) (p + pat.length - o)
        pat.length := by
  rw [occursAt_iff hpat, and_congr_right_iff]
  intro hle
  have hplace : ∀ j, o + (p + pat.length - o - pat.length + j) = p + j := fun j => by omega
  unfold Overlap
  simp only [hplace]
  exact (and_iff_right (by omega)).symm

/-- The loop over the blocks, from a place where no occurrence has ended. -/
theorem kmpFindLoop_spec (hpat : pattern ≠ []) (hlen : blocks.flatten.length < 2 ^ 32)
    (hfuel : blocks.flatten.length < o + e + fuel) (he : o + e ≤ blocks.flatten.length)
    (ho : state.offset = o)
    (h : Scanning (fun q => (pattern.map (foldCase (ignoresCase flags))).getD q 0)
      (fun i => (blocks.flatten.map (foldCase (ignoresCase flags))).getD (o + i) 0)
      pattern.length e q) :
    FindsNext (pattern.map (foldCase (ignoresCase flags)))
      (blocks.flatten.map (foldCase (ignoresCase flags))) state
      (kmpFindLoop (kmpInit pattern flags) (ignoresCase flags) blocks state fuel (o + e) q) := by
  have hne : pattern.map (foldCase (ignoresCase flags)) ≠ [] :=
    fun hnil => hpat (List.map_eq_nil_iff.mp hnil)
  have hpatlen : (pattern.map (foldCase (ignoresCase flags))).length = pattern.length :=
    List.length_map _
  have htextlen : (blocks.flatten.map (foldCase (ignoresCase flags))).length =
      blocks.flatten.length := List.length_map _
  induction fuel generalizing e q with
  | zero => omega
  | succ fuel ih =>
    rw [kmpFindLoop]
    dsimp only
    by_cases hend : (getNextBlock blocks (o + e)).length = 0
    · -- the text is scanned
      rw [if_pos hend]
      have hlast := (getNextBlock_spec blocks (o + e)).2.mp (List.length_eq_zero_iff.mp hend)
      refine .inr ⟨fun p hp hoccurs => ?_, rfl⟩
      rw [ho] at hp
      obtain ⟨hle, hoverlap⟩ := (occursAt_iff_overlap hne hp).mp hoccurs
      rw [hpatlen] at hoverlap hle
      exact h.quiet _ (by omega) hoverlap
    rw [if_neg hend]
    have hpos := Nat.pos_of_ne_zero hend
    have hin := (getNextBlock_getD hpos).1
    have hblock : ∀ j, j < (getNextBlock blocks (o + e)).length →
        foldCase (ignoresCase flags) ((getNextBlock blocks (o + e)).getD j 0) =
          (blocks.flatten.map (foldCase (ignoresCase flags))).getD (o + (e + j)) 0 :=
      fun j hj => by
        rw [(getNextBlock_getD hj).2, getD_foldCase, Nat.add_assoc]
    rcases scanBlock_spec (i := 0) (kmpInit_table flags hpat) hblock h with
      ⟨j, hj, hrun, hoverlap, hquiet⟩ | ⟨q', hrun, hscan⟩
    · -- the first occurrence ends in the block
      have hlen' : pattern.length ≤ e + j + 1 := hoverlap.1
      have hstart : o ≤ o + e + j + 1 - pattern.length := by omega
      have hback : o + e + j + 1 - pattern.length + pattern.length - o = e + j + 1 := by omega
      refine .inl ⟨o + e + j + 1 - pattern.length, ho ▸ hstart, ?_, fun p hp hoccurs => ?_, ?_⟩
      · rw [occursAt_iff_overlap hne hstart, hpatlen, htextlen, hback]
        exact ⟨by omega, hoverlap⟩
      · rw [ho] at hp
        obtain ⟨-, hearlier⟩ := (occursAt_iff_overlap hne hp).mp hoccurs
        rw [hpatlen] at hearlier
        by_contra hlt
        exact hquiet _ (by omega) hearlier
      rw [hrun, hpatlen]
      have hoffset : uint (o + e + (0 + j) + 1) = o + e + j + 1 := by
        rw [Nat.zero_add]
        exact Nat.mod_eq_of_lt (by omega)
      have hret : uint (o + e + j + 1 + 2 ^ 32 - pattern.length) =
          o + e + j + 1 - pattern.length := by
        have hsum : o + e + j + 1 + 2 ^ 32 - pattern.length =
            o + e + j + 1 - pattern.length + 2 ^ 32 := by omega
        rw [hsum, uint, Nat.add_mod_right]
        exact Nat.mod_eq_of_lt (by omega)
      show Except.ok (uint (uint _ + 2 ^ 32 - pattern.length), TsState.mk (uint _)) = _
      rw [hoffset, hret, Nat.sub_add_cancel (by omega)]
    rw [hrun]
    have hsum : uint (o + e + (getNextBlock blocks (o + e)).length) =
        o + (e + (getNextBlock blocks (o + e)).length) := by
      rw [Nat.add_assoc]
      exact Nat.mod_eq_of_lt (by omega)
    show FindsNext _ _ _ (kmpFindLoop _ _ _ _ _ (uint _) _)
    rw [hsum]
    exact ih (by omega) (by omega) hscan

theorem kmpFind_spec (hpat : pattern ≠ []) (hlen : blocks.flatten.length < 2 ^ 32)
    (hfuel : blocks.flatten.length < fuel) (hoffset : state.offset ≤ blocks.flatten.length) :
    FindsNext (pattern.map (foldCase (ignoresCase flags)))
      (blocks.flatten.map (foldCase (ignoresCase flags))) state
      (kmpFind fuel blocks (kmpInit pattern flags) flags state) := by
  have hpos := List.length_pos_iff.mpr hpat
  refine kmpFindLoop_spec hpat hlen (by omega) hoffset rfl ⟨longest_zero _ _ _, hpos, ?_⟩
  intro e' he' hoverlap
  have hle : pattern.length ≤ e' := hoverlap.1
  omega

/-- For every pattern and every text in blocks, the calls return the occurrences that do not
overlap the one before, in their order, and then `UINT_MAX`. With `TS_IGNORECASE`, these are the
occurrences in capital letters. -/
theorem kmp_search (hpat : pattern ≠ []) (hlen : blocks.flatten.length < 2 ^ 32)
    (hfuel : blocks.flatten.length < fuel) (flags : Nat) (state : TsState) :
    ∃ ps, NonOverlapping (pattern.map (foldCase (ignoresCase flags)))
        (blocks.flatten.map (foldCase (ignoresCase flags))) 0 ps ∧
      ∀ n, ∃ state', search (kmpFind fuel blocks (kmpInit pattern flags) flags) state n =
        .ok (expected ps (n + 1), state') := by
  have hne : pattern.map (foldCase (ignoresCase flags)) ≠ [] :=
    fun hnil => hpat (List.map_eq_nil_iff.mp hnil)
  obtain ⟨ps, hps⟩ := exists_nonOverlapping hne 0
  refine ⟨ps, hps, fun n => ?_⟩
  have hfind : ∀ state : TsState,
      state.offset ≤ (blocks.flatten.map (foldCase (ignoresCase flags))).length →
      FindsNext (pattern.map (foldCase (ignoresCase flags)))
        (blocks.flatten.map (foldCase (ignoresCase flags))) state
        (kmpFind fuel blocks (kmpInit pattern flags) flags state) := by
    intro state hoffset
    rw [List.length_map] at hoffset
    exact kmpFind_spec hpat hlen hfuel hoffset
  obtain ⟨state', hrun, _, _⟩ := search_spec hne hfind hps state n
  exact ⟨state', hrun⟩

/-- The pattern `ab` in the blocks `ca`, `bab`. -/
theorem kmp_search_two :
    ∃ ps, NonOverlapping ([97#8, 98#8].map (foldCase (ignoresCase 0)))
        ([[99#8, 97#8], [98#8, 97#8, 98#8]].flatten.map (foldCase (ignoresCase 0))) 0 ps ∧
      ∀ n, ∃ state', search (kmpFind 6 [[99#8, 97#8], [98#8, 97#8, 98#8]]
        (kmpInit [97#8, 98#8] 0) 0) ⟨7⟩ n = .ok (expected ps (n + 1), state') :=
  kmp_search (List.cons_ne_nil _ _) (by decide) (by decide) 0 ⟨7⟩

end AndroidKernel.TextSearch
