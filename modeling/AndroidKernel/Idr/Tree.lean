import AndroidKernel.Idr.Alloc

/-!
# Changes of the tree

Storing a pointer at a free id, adding layers on top, and removing an id. `Holds` says that a
tree holds a map from ids to the pointers stored for them.
-/

namespace AndroidKernel.Idr

open Library

universe u

variable {α : Type u}

/-- The ids in use, each with the pointer that was stored. -/
abbrev IdMap (α : Type u) := Nat → Option (Option α)

/-- A tree with the top at level `L` holds a map. -/
structure Holds (L : Nat) (T : Ptr α) (M : IdMap α) : Prop where
  level : L + 1 < maxLevel
  wellFormed : WellFormed L T
  used : ∀ j, (M j).isSome = true ↔ j < 2 ^ (idrBits * (L + 1)) ∧ used L T j = true
  value : ∀ j x, M j = some x → value L T j = .ofUser x

theorem Holds.agree {L : Nat} {T T' : Ptr α} {M : IdMap α} (h : Holds L T M)
    (hwf : WellFormed L T') (hagree : Agree L T T') : Holds L T' M := by
  refine ⟨h.level, hwf, fun j => ?_, fun j x hx => ?_⟩
  · rw [h.used j]
    exact and_congr_right fun hj => by rw [hagree.used j hj]
  · have hj := ((h.used j).1 (by rw [hx]; rfl)).1
    rw [hagree.value j hj]
    exact h.value j x hx

/-! ## Storing a pointer -/

/-- The bits above are set as far as layers are full, and nothing else changes. -/
theorem markUp_spec {i L l : Nat} {path : List (Frame α)} {p q : Ptr α} (hshape : Shape i L l path)
    (hi : i < 2 ^ (idrBits * (L + 1))) (hwf : WellFormed L (plug path p)) (hp : p.isNull = false)
    (hfull : p.full = false) (hq : WellFormed l q) :
    WellFormed L (markUp path q (i / 2 ^ (idrBits * l))) ∧
      Agree L (plug path q) (markUp path q (i / 2 ^ (idrBits * l))) := by
  induction path generalizing l p q with
  | nil =>
    obtain rfl : l = L := hshape
    have hmark : markUp [] q (i / 2 ^ (idrBits * l)) = q := by
      unfold markUp
      rfl
    rw [hmark]
    exact ⟨hq, Agree.refl _ _⟩
  | cons f path ih =>
    have ⟨hslot, hpath⟩ := hshape
    have hlt : f.slot < idrSize := hslot ▸ slot_lt (l + 1) i
    have hparent : WellFormed (l + 1) (f.plug p) := hpath.wellFormed hwf rfl
    obtain ⟨bitmap, ary, count, rfl⟩ := hq.exists_layer
    unfold markUp
    cases hcase : isFull bitmap with
    | false =>
      rw [if_neg Bool.false_ne_true]
      exact ⟨hshape.replace hwf hp hq (Eq.trans hcase hfull.symm), Agree.refl _ _⟩
    | true =>
      rw [if_pos rfl]
      have hbit : i / 2 ^ (idrBits * l) / 2 ^ idrBits % 2 ^ idrBits = f.slot := by
        rw [hslot, Nat.div_div_eq_div_mul, ← Nat.pow_add, ← Nat.mul_succ]
        rfl
      have hnext : i / 2 ^ (idrBits * l) / 2 ^ idrBits = i / 2 ^ (idrBits * (l + 1)) := by
        rw [Nat.div_div_eq_div_mul, ← Nat.pow_add, ← Nat.mul_succ]
      dsimp only
      rw [hbit, hnext]
      have hnew : WellFormed (l + 1)
          ({ f with bitmap := Function.update f.bitmap f.slot true }.plug
            (.layer bitmap ary count l)) := by
        have hcount : f.count = children (Function.update (Function.update f.ary f.slot p)
            f.slot (.layer bitmap ary count l)) := by
          refine hparent.2.1.trans (children_update_same hlt ?_).symm
          rw [Function.update_self, hp]
          rfl
        have hwrite : WellFormed (l + 1) (.layer (Function.update f.bitmap f.slot true)
            (Function.update (Function.update f.ary f.slot p) f.slot (.layer bitmap ary count l))
            f.count f.level) := by
          refine hparent.write hcount (.inr hq) ?_ fun k hk => Function.update_of_ne hk _ _
          rw [Function.update_self]
          exact hcase.symm
        rwa [Function.update_idem] at hwrite
      obtain ⟨hwf', hagree⟩ := ih hpath hwf rfl (hparent.full_plug hlt hfull) hnew
      refine ⟨hwf', Agree.trans ?_ hagree⟩
      exact hpath.agree hi (fun _ => rfl) fun _ => rfl

/-- A leaf with a pointer stored at a free slot. -/
theorem WellFormed.store {n count : Nat} {bitmap : Bitmap} {ary : Nat → Ptr α}
    (h : WellFormed 0 (.layer bitmap ary count 0)) (hn : n < idrSize) (hclear : bitmap n = false)
    (x : Option α) :
    WellFormed 0 (.layer (Function.update bitmap n true) (Function.update ary n (.ofUser x))
      (count + 1) 0) := by
  obtain ⟨-, hcount, hslots⟩ := h
  refine ⟨rfl, ?_, fun k hk => ?_⟩
  · rw [setBits_set hn hclear, hcount]
  · by_cases hkn : k = n
    · subst hkn
      rw [Function.update_self, Function.update_self]
      exact ⟨nofun, x, rfl⟩
    · rw [Function.update_of_ne hkn, Function.update_of_ne hkn]
      exact hslots k hk

/-- The pointer is stored for the id that the search found. -/
theorem install_spec {f L : Nat} {path : List (Frame α)} {q : Ptr α} {M : IdMap α}
    (hshape : Shape f L 0 path) (hf : f < 2 ^ (idrBits * (L + 1))) (hq : q.isNull = false)
    (h : Holds L (plug path q) M) (hfree : M f = none) (x : Option α) :
    Holds L (install q path f x) (Function.update M f (some x)) := by
  have hqw := hshape.wellFormed h.wellFormed hq
  obtain ⟨bitmap, ary, count, rfl⟩ := hqw.exists_layer
  have hunused : used L (plug path (.layer bitmap ary count 0)) f = false := by
    by_contra hcon
    have := (h.used f).2 ⟨hf, by simpa using hcon⟩
    rw [hfree] at this
    cases this
  have hclear : bitmap (slot 0 f) = false := by
    rwa [hshape.used_eq rfl] at hunused
  have hstored := hqw.store (slot_lt 0 f) hclear x
  have hnotfull : (Ptr.layer bitmap ary count 0).full = false := by
    simp only [Ptr.full, isFull, decide_eq_false_iff_not]
    intro hall
    rw [hall _ (slot_lt 0 f)] at hclear
    cases hclear
  obtain ⟨hwf', hagree⟩ := markUp_spec hshape hf h.wellFormed rfl hnotfull hstored
  have hmark : install (.layer bitmap ary count 0) path f x =
      markUp path (.layer (Function.update bitmap (slot 0 f) true)
        (Function.update ary (slot 0 f) (.ofUser x)) (count + 1) 0) (f / 2 ^ (idrBits * 0)) := by
    unfold install slot digit
    rw [Nat.mul_zero, Nat.pow_zero, Nat.div_one]
  rw [hmark]
  -- at the leaf, only the slot of the id is different
  have hrest {j : Nat} (hj : j < 2 ^ (idrBits * (L + 1))) (hne : j ≠ f) :
      used L (plug path (.layer (Function.update bitmap (slot 0 f) true)
          (Function.update ary (slot 0 f) (.ofUser x)) (count + 1) 0)) j =
        used L (plug path (.layer bitmap ary count 0)) j ∧
      value L (plug path (.layer (Function.update bitmap (slot 0 f) true)
          (Function.update ary (slot 0 f) (.ofUser x)) (count + 1) 0)) j =
        value L (plug path (.layer bitmap ary count 0)) j := by
    have htop : j / 2 ^ (idrBits * (L + 1)) = f / 2 ^ (idrBits * (L + 1)) := by
      rw [Nat.div_eq_of_lt hj, Nat.div_eq_of_lt hf]
    by_cases hblock : j / 2 ^ (idrBits * (0 + 1)) = f / 2 ^ (idrBits * (0 + 1))
    · have hslot : slot 0 j ≠ slot 0 f := by
        intro heq
        have := div_eq_iff.2 ⟨hblock, heq⟩
        rw [Nat.mul_zero, Nat.pow_zero, Nat.div_one, Nat.div_one] at this
        exact hne this
      have h1 := hshape.used_plug (.layer bitmap ary count 0) hblock
      have h2 := hshape.used_plug (.layer (Function.update bitmap (slot 0 f) true)
          (Function.update ary (slot 0 f) (.ofUser x)) (count + 1) 0) hblock
      rw [h1.1, h1.2, h2.1, h2.2]
      unfold used value
      rw [Function.update_of_ne hslot, Function.update_of_ne hslot]
      exact ⟨rfl, rfl⟩
    · exact hshape.used_plug_of_ne _ _ htop hblock
  have hself := hshape.used_plug (.layer (Function.update bitmap (slot 0 f) true)
    (Function.update ary (slot 0 f) (.ofUser x)) (count + 1) 0) rfl
  refine ⟨h.level, hwf', fun j => ?_, fun j y hy => ?_⟩
  · by_cases hjf : j = f
    · subst hjf
      rw [Function.update_self, hagree.used j hf, hself.1]
      unfold used
      rw [Function.update_self]
      exact ⟨fun _ => ⟨hf, rfl⟩, fun _ => rfl⟩
    · rw [Function.update_of_ne hjf, h.used j]
      exact and_congr_right fun hj => by rw [hagree.used j hj, (hrest hj hjf).1]
  by_cases hjf : j = f
  · subst hjf
    rw [Function.update_self] at hy
    cases hy
    rw [hagree.value j hf, hself.2]
    unfold value
    rw [Function.update_self]
  · rw [Function.update_of_ne hjf] at hy
    have hj := ((h.used j).1 (by rw [hy]; rfl)).1
    rw [hagree.value j hj, (hrest hj hjf).2]
    exact h.value j y hy

/-! ## Layers on top -/

/-- A layer with a count of zero has nothing in it. -/
theorem WellFormed.empty {l level : Nat} {bitmap : Bitmap} {ary : Nat → Ptr α}
    (h : WellFormed l (.layer bitmap ary 0 level)) {n : Nat} (hn : n < idrSize) :
    ary n = .null ∧ bitmap n = false := by
  cases l with
  | zero =>
    obtain ⟨-, hcount, hslots⟩ := h
    have hbit := setBits_eq_zero hcount.symm hn
    exact ⟨(hslots n hn).1 hbit, hbit⟩
  | succ l =>
    obtain ⟨-, hcount, hslots⟩ := h
    have hnull := children_eq_zero hcount.symm hn
    refine ⟨hnull, ?_⟩
    rw [(hslots n hn).2, hnull]
    rfl

theorem WellFormed.not_used_of_empty {l level : Nat} {bitmap : Bitmap} {ary : Nat → Ptr α}
    (h : WellFormed l (.layer bitmap ary 0 level)) (j : Nat) :
    used l (.layer bitmap ary 0 level) j = false := by
  cases l with
  | zero => exact (h.empty (slot_lt 0 j)).2
  | succ l =>
    unfold used
    rw [(h.empty (slot_lt (l + 1) j)).1, used_null]

/-- The top layer of an empty tree is moved up. -/
theorem Holds.raise {L : Nat} {bitmap : Bitmap} {ary : Nat → Ptr α} {M : IdMap α}
    (h : Holds L (.layer bitmap ary 0 L) M) (hL : L + 2 < maxLevel) :
    Holds (L + 1) (.layer bitmap ary 0 (L + 1)) M := by
  have hwf : WellFormed (L + 1) (.layer bitmap ary 0 (L + 1)) := by
    refine ⟨rfl, ?_, fun n hn => ?_⟩
    · refine (Finset.card_eq_zero.2 (Finset.filter_eq_empty_iff.2 fun n hn => ?_)).symm
      rw [(h.wellFormed.empty (Finset.mem_range.1 hn)).1]
      nofun
    · obtain ⟨hnull, hbit⟩ := h.wellFormed.empty hn
      rw [hnull, hbit]
      exact ⟨.inl rfl, rfl⟩
  have hnone (j : Nat) : (M j).isSome ≠ true := by
    rw [Ne, h.used j, h.wellFormed.not_used_of_empty]
    simp
  refine ⟨hL, hwf, fun j => ?_, fun j x hx => absurd (by rw [hx]; rfl) (hnone j)⟩
  rw [hwf.not_used_of_empty]
  simp [hnone j]

/-- Which ids are below the first child. -/
theorem slot_eq_zero_iff {L j : Nat} (hj : j < 2 ^ (idrBits * (L + 1 + 1))) :
    slot (L + 1) j = 0 ↔ j < 2 ^ (idrBits * (L + 1)) :=
  ⟨lt_of_digit_eq_zero hj, digit_eq_zero⟩

/-- A tree that becomes the first child of a new top. -/
theorem Holds.cover {L : Nat} {p : Ptr α} {bitmap : Bitmap} {M : IdMap α} (h : Holds L p M)
    (hL : L + 2 < maxLevel) (hbit : bitmap 0 = p.full) (hrest : ∀ n, n ≠ 0 → bitmap n = false) :
    Holds (L + 1) (.layer bitmap (Function.update (fun _ => .null) 0 p) 1 (L + 1)) M := by
  have hwf : WellFormed (L + 1)
      (.layer bitmap (Function.update (fun _ => .null) 0 p) 1 (L + 1)) := by
    refine (wellFormed_zero (L + 1)).write ?_ (.inr h.wellFormed) hbit hrest
    rw [children_update_set (Nat.two_pow_pos _) rfl h.wellFormed.isNull]
    simp [children, Ptr.isNull]
  have hpow : 2 ^ (idrBits * (L + 1)) ≤ 2 ^ (idrBits * (L + 1 + 1)) :=
    Nat.pow_le_pow_right (by omega) (Nat.mul_le_mul_left _ (by omega))
  refine ⟨hL, hwf, fun j => ?_, fun j x hx => ?_⟩
  · rw [h.used j]
    by_cases hj : j < 2 ^ (idrBits * (L + 1 + 1))
    · by_cases hlow : j < 2 ^ (idrBits * (L + 1))
      · rw [used_layer, (slot_eq_zero_iff hj).2 hlow, Function.update_self]
        simp [hlow, hj]
      · rw [used_layer, Function.update_of_ne fun heq => hlow ((slot_eq_zero_iff hj).1 heq),
          used_null]
        simp [hlow]
    · have hlow : ¬ j < 2 ^ (idrBits * (L + 1)) := by omega
      simp [hj, hlow]
  · have hlow := ((h.used j).1 (by rw [hx]; rfl)).1
    rw [value_layer, (slot_eq_zero_iff (by omega)).2 hlow, Function.update_self]
    exact h.value j x hx

/-- The `k` layers on top are new ones, each with the one below as its first child. -/
def Built : Nat → Ptr α → Prop
  | 0, _ => True
  | k + 1, p => ∃ bitmap q count level,
      p = .layer bitmap (Function.update (fun _ => .null) 0 q) count level ∧ Built k q

theorem Built.setLevel {k count level level' : Nat} {bitmap : Bitmap} {ary : Nat → Ptr α}
    (h : Built k (.layer bitmap ary count level)) : Built k (.layer bitmap ary count level') := by
  cases k with
  | zero => trivial
  | succ k =>
    obtain ⟨_, q, _, _, heq, hq⟩ := h
    cases heq
    exact ⟨_, q, _, _, rfl, hq⟩

theorem tearDown_clean {k : Nat} {p : Ptr α} {free : List (Ptr α)} (hbuilt : Built k p)
    (hclean : Clean free) : Clean (tearDown k p free) := by
  induction k generalizing p free with
  | zero =>
    unfold tearDown
    exact hclean
  | succ k ih =>
    obtain ⟨bitmap, q, count, level, rfl, hq⟩ := hbuilt
    unfold tearDown
    rw [Function.update_self]
    refine ih hq fun r hr => ?_
    rcases List.mem_cons.1 hr with rfl | hr
    · refine ⟨level, ?_⟩
      rw [Function.update_idem, Function.update_eq_self 0 fun _ => Ptr.null]
    · exact hclean r hr

/-- The tree grows until it has room for `id`, or stays as it was. -/
theorem growLoop_spec {id fuel built L : Nat} {p : Ptr α} {free : List (Ptr α)} {M : IdMap α}
    (h : Holds L p M) (hid : id < 2 ^ (idrBits * (maxLevel - 1))) (hbuilt : Built built p)
    (hclean : Clean free) (hfuel : maxLevel ≤ fuel + L) :
    (∃ free', growLoop id fuel built p (L + 1) free = (none, free') ∧ Clean free') ∨
      ∃ T L' free', growLoop id fuel built p (L + 1) free = (some (T, L' + 1), free') ∧
        Clean free' ∧ Holds L' T M ∧ L ≤ L' ∧ id < 2 ^ (idrBits * (L' + 1)) ∧
        (id < 2 ^ (idrBits * (L + 1)) → L' = L) := by
  induction fuel generalizing built L p free with
  | zero =>
    have := h.level
    omega
  | succ fuel ih =>
    obtain ⟨bitmap, ary, count, rfl⟩ := h.wellFormed.exists_layer
    have hlevel := h.level
    unfold growLoop
    by_cases hgrow : L + 1 < maxLevel - 1 ∧ 2 ^ ((L + 1) * idrBits) ≤ id ∧ id < maxIdBit
    · rw [if_pos hgrow]
      obtain ⟨hroom, hlarge, -⟩ := hgrow
      rw [Nat.mul_comm] at hlarge
      have hnot : ¬ id < 2 ^ (idrBits * (L + 1)) := Nat.not_lt_of_le hlarge
      by_cases hcount : count = 0
      · subst hcount
        rw [if_pos rfl]
        rcases ih (h.raise (by omega)) hbuilt.setLevel hclean (by omega) with
          hfail | ⟨T, L', free', hrun, hclean', hT, hle, hroom', -⟩
        · exact .inl hfail
        · exact .inr ⟨T, L', free', hrun, hclean', hT, by omega, hroom', fun h => absurd h hnot⟩
      rw [if_neg hcount]
      cases hget : getFromFreeList free with
      | none => exact .inl ⟨_, rfl, tearDown_clean hbuilt hclean⟩
      | some taken =>
        obtain ⟨new, free₁⟩ := taken
        obtain ⟨⟨level, rfl⟩, hclean₁⟩ := getFromFreeList_spec hclean hget
        have hcover : Holds (L + 1) (.layer
            (if isFull bitmap then Function.update (fun _ => false) 0 true else fun _ => false)
            (Function.update (fun _ => .null) 0 (.layer bitmap ary count L)) 1 (L + 1)) M := by
          refine h.cover (by omega) ?_ fun n hn => ?_
          · cases hfull : isFull bitmap with
            | true => simp [Ptr.full, hfull]
            | false => simp [Ptr.full, hfull]
          · cases isFull bitmap with
            | true => simp [hn]
            | false => simp
        rcases ih hcover (show Built (built + 1) _ from ⟨_, _, _, _, rfl, hbuilt⟩)
          hclean₁ (by omega) with
          hfail | ⟨T, L', free', hrun, hclean', hT, hle, hroom', -⟩
        · exact .inl hfail
        · exact .inr ⟨T, L', free', hrun, hclean', hT, by omega, hroom',
            fun h => absurd h hnot⟩
    rw [if_neg hgrow]
    refine .inr ⟨_, L, free, rfl, hclean, h, Nat.le_refl _, ?_, fun _ => rfl⟩
    by_contra hcon
    have hlarge : 2 ^ ((L + 1) * idrBits) ≤ id := by
      rw [Nat.mul_comm]
      exact Nat.le_of_not_lt hcon
    have hmax : id < maxIdBit := Nat.lt_trans hid (by decide)
    have hlast : L + 1 = maxLevel - 1 := by
      by_contra hne
      exact hgrow ⟨by omega, hlarge, hmax⟩
    rw [hlast] at hcon
    exact hcon hid

/-! ## Removing an id -/

/-- What `sub_remove` does to a layer of level `l` below which `id` is in use. -/
def Removes (id l : Nat) (p : Ptr α) : Removal α → Prop
  | .gone => ∀ j, used l p j = true → j % 2 ^ (idrBits * (l + 1)) = id % 2 ^ (idrBits * (l + 1))
  | .kept q => WellFormed l q ∧ used l q id = false ∧
      ∀ j, j % 2 ^ (idrBits * (l + 1)) ≠ id % 2 ^ (idrBits * (l + 1)) →
        used l q j = used l p j ∧ value l q j = value l p j
  | .warning _ => False

theorem slot_zero (j : Nat) : slot 0 j = j % 2 ^ (idrBits * (0 + 1)) := by
  unfold slot digit
  rw [Nat.mul_zero, Nat.pow_zero, Nat.div_one, Nat.zero_add, Nat.mul_one]

theorem subRemove_spec {id l : Nat} {p : Ptr α} (h : WellFormed l p) (hused : used l p id = true) :
    Removes id l p (subRemove id l p) := by
  induction l generalizing p with
  | zero =>
    obtain ⟨bitmap, ary, count, rfl⟩ := h.exists_layer
    have hbit : bitmap (slot 0 id) = true := hused
    obtain ⟨-, hcount, hslots⟩ := h
    have hclear := setBits_clear (slot_lt 0 id) hbit
    unfold subRemove
    dsimp only
    rw [if_pos hbit]
    by_cases hlast : count - 1 = 0
    · rw [if_pos hlast]
      intro j hj
      rw [← slot_zero, ← slot_zero]
      by_contra hne
      have hbits : setBits (Function.update bitmap (slot 0 id) false) = 0 := by omega
      have hzero := setBits_eq_zero hbits (slot_lt 0 j)
      rw [Function.update_of_ne hne] at hzero
      have hbitj : bitmap (slot 0 j) = true := hj
      rw [hzero] at hbitj
      cases hbitj
    rw [if_neg hlast]
    refine ⟨⟨rfl, by omega, fun n hn => ?_⟩, ?_, fun j hj => ?_⟩
    · by_cases hne : n = slot 0 id
      · subst hne
        rw [Function.update_self, Function.update_self]
        exact ⟨fun _ => rfl, none, rfl⟩
      · rw [Function.update_of_ne hne, Function.update_of_ne hne]
        exact hslots n hn
    · unfold used
      rw [Function.update_self]
    · rw [← slot_zero, ← slot_zero] at hj
      unfold used value
      rw [Function.update_of_ne hj, Function.update_of_ne hj]
      exact ⟨rfl, rfl⟩
  | succ l ih =>
    obtain ⟨bitmap, ary, count, rfl⟩ := h.exists_layer
    rw [used_layer] at hused
    have hn := slot_lt (l + 1) id
    obtain ⟨hchild, -⟩ := h.2.2 _ hn
    have hchildwf : WellFormed l (ary (slot (l + 1) id)) := by
      refine hchild.resolve_left fun hnull => ?_
      rw [hnull, used_null] at hused
      cases hused
    have hrec := ih hchildwf hused
    have hcount := h.2.1
    have hnull := children_update_null hn hchildwf.isNull
    have hclear (p : Ptr α) (hp : p = .null ∨ WellFormed l p) (hfull : p.full = false)
        (count' : Nat) (hcount' : count' = children (Function.update ary (slot (l + 1) id) p)) :
        WellFormed (l + 1) (.layer (Function.update bitmap (slot (l + 1) id) false)
          (Function.update ary (slot (l + 1) id) p) count' (l + 1)) := by
      refine h.write hcount' hp ?_ fun k hk => Function.update_of_ne hk _ _
      rw [Function.update_self, hfull]
    unfold subRemove
    dsimp only
    cases hsub : subRemove id l (ary (slot (l + 1) id)) with
    | gone =>
      rw [hsub] at hrec
      dsimp only
      by_cases hlast : count - 1 = 0
      · rw [if_pos hlast]
        intro j hj
        rw [used_layer] at hj
        rw [mod_succ_inj]
        by_cases hslot : slot (l + 1) j = slot (l + 1) id
        · rw [hslot] at hj
          exact ⟨hslot, hrec j hj⟩
        · have hone : children (Function.update ary (slot (l + 1) id) .null) = 0 := by omega
          have hother := children_eq_zero hone (slot_lt (l + 1) j)
          rw [Function.update_of_ne hslot] at hother
          rw [hother, used_null] at hj
          cases hj
      rw [if_neg hlast]
      refine ⟨hclear _ (.inl rfl) rfl _ (by omega), ?_, fun j hj => ?_⟩
      · rw [used_layer, Function.update_self, used_null]
      rw [Ne, mod_succ_inj] at hj
      rw [used_layer, used_layer, value_layer, value_layer]
      by_cases hslot : slot (l + 1) j = slot (l + 1) id
      · rw [hslot, Function.update_self, used_null, value_null]
        have hunused : used l (ary (slot (l + 1) id)) j = false := by
          by_contra hcon
          exact hj ⟨hslot, hrec j (by simpa using hcon)⟩
        exact ⟨hunused.symm, (hchildwf.value_of_not_used hunused).symm⟩
      · rw [Function.update_of_ne hslot]
        exact ⟨rfl, rfl⟩
    | kept q =>
      rw [hsub] at hrec
      obtain ⟨hq, hqid, hqrest⟩ := hrec
      have hqfull : q.full = false := by
        by_contra hcon
        rw [hq.used_of_full (by simpa using hcon) id] at hqid
        cases hqid
      refine ⟨hclear q (.inr hq) hqfull count ?_, ?_, fun j hj => ?_⟩
      · rw [children_update_same hn (by rw [hq.isNull, hchildwf.isNull]), hcount]
      · rw [used_layer, Function.update_self, hqid]
      · rw [Ne, mod_succ_inj] at hj
        rw [used_layer, used_layer, value_layer, value_layer]
        by_cases hslot : slot (l + 1) j = slot (l + 1) id
        · rw [hslot, Function.update_self]
          exact hqrest j fun hlow => hj ⟨hslot, hlow⟩
        · rw [Function.update_of_ne hslot]
          exact ⟨rfl, rfl⟩
    | warning q =>
      rw [hsub] at hrec
      exact hrec.elim

/-- A top layer with a single child at the first slot is not needed. -/
theorem Holds.shrink {L : Nat} {bitmap : Bitmap} {ary : Nat → Ptr α} {M : IdMap α}
    (h : Holds (L + 1) (.layer bitmap ary 1 (L + 1)) M) (hchild : (ary 0).isNull = false) :
    Holds L (ary 0) M := by
  have hlevel := h.level
  obtain ⟨-, hcount, hslots⟩ := h.wellFormed
  have hnull := children_update_null (Nat.two_pow_pos _) hchild
  have hothers {n : Nat} (hn : n < idrSize) (hne : n ≠ 0) : ary n = .null := by
    have hone : children (Function.update ary 0 .null) = 0 := by omega
    have hother := children_eq_zero hone hn
    rwa [Function.update_of_ne hne] at hother
  have hwf : WellFormed L (ary 0) := by
    refine (hslots 0 (Nat.two_pow_pos _)).1.resolve_left fun hnull => ?_
    rw [hnull] at hchild
    cases hchild
  have hlow {j : Nat} (hj : (M j).isSome = true) : slot (L + 1) j = 0 := by
    by_contra hne
    have hj' := ((h.used j).1 hj).2
    rw [used_layer, hothers (slot_lt (L + 1) j) hne, used_null] at hj'
    cases hj'
  refine ⟨by omega, hwf, fun j => ⟨fun hj => ?_, fun ⟨hj, hused⟩ => ?_⟩, fun j x hx => ?_⟩
  · obtain ⟨hlt, hused⟩ := (h.used j).1 hj
    rw [used_layer, hlow hj] at hused
    exact ⟨(slot_eq_zero_iff hlt).1 (hlow hj), hused⟩
  · have hpow : 2 ^ (idrBits * (L + 1)) ≤ 2 ^ (idrBits * (L + 1 + 1)) :=
      Nat.pow_le_pow_right (by omega) (Nat.mul_le_mul_left _ (by omega))
    refine (h.used j).2 ⟨by omega, ?_⟩
    rw [used_layer, (slot_eq_zero_iff (by omega)).2 hj]
    exact hused
  · have hv := h.value j x hx
    rwa [value_layer, hlow (by rw [hx]; rfl)] at hv

end AndroidKernel.Idr
