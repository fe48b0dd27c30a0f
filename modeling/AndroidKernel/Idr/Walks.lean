import AndroidKernel.Idr.Remove
import AndroidKernel.Library.Words

/-!
# What a walk does in one turn

A turn of the outer loop goes down to the bottom or to a null pointer, which stands for a block of
ids, and up again as far as the next id has digits. At the start of a turn the stack is the path of
the id, and no null pointer is above it.
-/

namespace AndroidKernel.Idr

open Library

universe u

variable {α : Type u} {σ : Type} {L l id id' bottom high : Nat} {top : Ptr α} {st : σ} {low : Bool}
  {leave : σ → Ref α → σ} {junk : Ref α}

theorem lt_fls_iff {n : Nat} : n < fls id ↔ 2 ^ n ≤ id :=
  Nat.lt_size

/-- Going down ends at the bottom or where a pointer leads to no layer. -/
theorem goDown_spec (top : Ptr α) (id bottom : Nat) (hl : l ≤ L) (hbottom : bottom ≤ l)
    (hhigh : high ≤ L) :
    ∃ l' high', goDown bottom id l (ref L top id l) (path L top id l) high =
        (l', ref L top id l', path L top id l', high') ∧ bottom ≤ l' ∧ l' ≤ l ∧ high' ≤ L ∧
      (∀ k, l' < k → k ≤ l → ∃ c, (ref L top id k).child (slot (k - 1) id) = some c) ∧
      (l' = bottom ∨ ∃ k, l' = k + 1 ∧ (ref L top id l').child (slot k id) = none) := by
  induction l generalizing high with
  | zero =>
    obtain rfl : bottom = 0 := by omega
    exact ⟨0, high, rfl, le_rfl, le_rfl, hhigh, fun k hlt hle => by omega, Or.inl rfl⟩
  | succ l ih =>
    unfold goDown
    split_ifs with hmore
    · cases hchild : (ref L top id (l + 1)).child (slot l id) with
      | none =>
        exact ⟨l + 1, high, rfl, hbottom, le_rfl, hhigh, fun k hlt hle => by omega,
          Or.inr ⟨l, rfl, hchild⟩⟩
      | some c =>
        obtain rfl := child_ref top id (by omega) hchild
        have hlength := length_path L top id (l + 1)
        obtain ⟨l', high', heq, hge, hle, hhigh', habove, hend⟩ :=
          ih (by omega) hmore (by omega : max high ((path L top id (l + 1)).length + 1) ≤ L)
        rw [← path_succ top id (by omega)] at *
        refine ⟨l', high', heq, hge, by omega, hhigh', fun k hlt hle' => ?_, hend⟩
        by_cases hk : k = l + 1
        · subst hk
          exact ⟨_, hchild⟩
        · exact habove k hlt (by omega)
    · exact ⟨l + 1, high, rfl, hbottom, le_rfl, hhigh, fun k hlt hle => by omega, Or.inl (by omega)⟩

/-- The state after the layers of an id at these levels are left. -/
def leaves (leave : σ → Ref α → σ) (L : Nat) (top : Ptr α) (id : Nat) (levels : List Nat) (st : σ) :
    σ :=
  levels.foldl (fun st k => leave st (ref L top id k)) st

theorem goUp_of_lt (h : id' < 2 ^ (idrBits * l)) (r : Ref α) (stack : List (Ref α)) :
    goUp leave junk id' l r stack st low = (l, r, stack, st, low) := by
  rw [goUp.eq_def, if_neg (by rw [lt_fls_iff]; omega)]

theorem goUp_cons (h : 2 ^ (idrBits * l) ≤ id') (r q : Ref α) (stack : List (Ref α)) :
    goUp leave junk id' l r (q :: stack) st low =
      goUp leave junk id' (l + 1) q stack (leave st r) low := by
  rw [goUp.eq_def, if_pos (lt_fls_iff.2 h)]

theorem goUp_nil (h : 2 ^ (idrBits * l) ≤ id') (r : Ref α) :
    goUp leave junk id' l r [] st low = goUp leave junk id' (l + 1) junk [] (leave st r) true := by
  rw [goUp.eq_def, if_pos (lt_fls_iff.2 h)]

/-- Going up inside the tree ends at the lowest level from which the next id has no digits. -/
theorem goUp_spec (top : Ptr α) (id : Nat) (hl : l ≤ L) (hid : id' < 2 ^ (idrBits * L)) :
    ∃ l', goUp leave junk id' l (ref L top id l) (path L top id l) st low =
        (l', ref L top id l', path L top id l',
          leaves leave L top id (List.range' l (l' - l)) st, low) ∧
      l ≤ l' ∧ l' ≤ L ∧ id' < 2 ^ (idrBits * l') ∧ ∀ k, l ≤ k → k < l' → 2 ^ (idrBits * k) ≤ id' := by
  induction hd : L - l generalizing l st with
  | zero =>
    obtain rfl : l = L := by omega
    refine ⟨l, ?_, le_rfl, le_rfl, hid, fun k hle hlt => by omega⟩
    rw [goUp_of_lt hid, Nat.sub_self]
    rfl
  | succ d ih =>
    by_cases hup : 2 ^ (idrBits * l) ≤ id'
    · obtain ⟨l', heq, hle, htop, hlt, hbelow⟩ :=
        @ih (l + 1) (leave st (ref L top id l)) (by omega) (by omega)
      refine ⟨l', ?_, by omega, htop, hlt, fun k hk hk' => ?_⟩
      · rw [path_succ top id (by omega), goUp_cons hup, heq, show l' - l = l' - (l + 1) + 1 by omega, List.range'_succ]
        rfl
      · by_cases hkl : k = l
        · rw [hkl]
          exact hup
        · exact hbelow k (by omega) hk'
    · refine ⟨l, ?_, le_rfl, hl, by omega, fun k hle hlt => by omega⟩
      rw [goUp_of_lt (by omega), Nat.sub_self]
      rfl

/-- Going up after the last id leaves every layer and pops once too often. -/
theorem goUp_last (top : Ptr α) (id : Nat) (hl : l ≤ L) :
    goUp leave junk (2 ^ (idrBits * L)) l (ref L top id l) (path L top id l) st low =
      (L + 1, junk, [], leaves leave L top id (List.range' l (L + 1 - l)) st, true) := by
  induction hd : L - l generalizing l st with
  | zero =>
    obtain rfl : l = L := by omega
    have hend : 2 ^ (idrBits * l) < 2 ^ (idrBits * (l + 1)) :=
      Nat.pow_lt_pow_right (by decide) (by unfold idrBits; omega)
    rw [path_top, goUp_nil le_rfl, goUp_of_lt hend, Nat.add_sub_cancel_left]
    rfl
  | succ d ih =>
    have hle : 2 ^ (idrBits * l) ≤ 2 ^ (idrBits * L) :=
      Nat.pow_le_pow_right (by decide) (Nat.mul_le_mul_left _ hl)
    rw [path_succ top id (by omega), goUp_cons hle, @ih (l + 1) (leave st (ref L top id l)) (by omega) (by omega),
      show L + 1 - l = L + 1 - (l + 1) + 1 by omega, List.range'_succ]
    rfl

/-! ## A turn of the outer loop -/

/-- A pointer that leads to a layer. -/
def Ptr.IsLayer (p : Ptr α) : Prop :=
  ∃ bitmap ary count level, p = .layer bitmap ary count level

/-- Above its bottom a tree has only layers and null pointers. -/
def Layered (L bottom : Nat) (top : Ptr α) : Prop :=
  ∀ id k, bottom < k → k ≤ L → node L top id k = .null ∨ (node L top id k).IsLayer

/-- The start of a turn: the stack is the path of the id at level `l`, above which it has no
digits. Where the id is inside the block of a pointer, that pointer leads to a layer. -/
structure Head (L : Nat) (top : Ptr α) (bottom id l : Nat) : Prop where
  bottom_le : bottom ≤ l
  le : l ≤ L
  lt : id < 2 ^ (idrBits * l)
  dvd : 2 ^ (idrBits * bottom) ∣ id
  above : ∀ k, l < k → k ≤ L → (node L top id k).IsLayer
  inside : ∀ k, bottom ≤ k → k ≤ L → ¬2 ^ (idrBits * k) ∣ id → (node L top id k).IsLayer

/-- The block of ids that a turn passes over: that of a pointer at the bottom or of a null
pointer, below layers. -/
structure Block (L : Nat) (top : Ptr α) (bottom id l : Nat) : Prop where
  bottom_le : bottom ≤ l
  le : l ≤ L
  dvd : 2 ^ (idrBits * l) ∣ id
  stops : l = bottom ∨ node L top id l = .null
  above : ∀ k, l < k → k ≤ L → (node L top id k).IsLayer

theorem child_isSome_iff {r : Ref α} {n : Nat} : (∃ c, r.child n = some c) ↔ r.ptr.IsLayer := by
  unfold Ref.child
  cases hp : r.ptr with
  | null => exact ⟨nofun, nofun⟩
  | user x => exact ⟨nofun, nofun⟩
  | layer bitmap ary count level => exact ⟨fun _ => ⟨_, _, _, _, rfl⟩, fun _ => ⟨_, rfl⟩⟩

/-- A sum that does not reach a multiple has the same quotient. -/
theorem div_add_of_not_dvd {m n i : Nat} (hle : m ≤ n) (hdvd : 2 ^ m ∣ i)
    (hnot : ¬2 ^ n ∣ i + 2 ^ m) : (i + 2 ^ m) / 2 ^ n = i / 2 ^ n := by
  obtain ⟨q, rfl⟩ := hdvd
  have hpow : 2 ^ n = 2 ^ m * 2 ^ (n - m) := by rw [← pow_add, Nat.add_sub_cancel' hle]
  have hpos := Nat.two_pow_pos m
  rw [← Nat.mul_add_one, hpow] at hnot ⊢
  rw [Nat.mul_div_mul_left _ _ hpos, Nat.mul_div_mul_left _ _ hpos, Nat.succ_div, if_neg,
    Nat.add_zero]
  exact fun hdvd => hnot (Nat.mul_dvd_mul_left _ hdvd)

/-- The end of a block is inside the tree. -/
theorem Block.le_top (h : Block L top bottom id l) (hid : id < 2 ^ (idrBits * L)) :
    id + 2 ^ (idrBits * l) ≤ 2 ^ (idrBits * L) :=
  add_le_of_dvd (Nat.mul_le_mul_left _ h.le) h.dvd hid

/-- Ids of one block have the same pointer there. -/
theorem Block.node_eq {j : Nat} (h : Block L top bottom id l) (hle : id ≤ j)
    (hlt : j < id + 2 ^ (idrBits * l)) : node L top j l = node L top id l := by
  refine node_congr top h.le ?_
  obtain ⟨q, rfl⟩ := h.dvd
  rw [Nat.mul_div_cancel_left _ (Nat.two_pow_pos _)]
  refine Nat.div_eq_of_lt_le ?_ ?_
  · rwa [Nat.mul_comm]
  · rwa [Nat.mul_comm, Nat.mul_add_one]

/-- A turn goes down to a block, and up from it. -/
theorem Head.turn (h : Head L top bottom id l) (hlayered : Layered L bottom top) (hhigh : high ≤ L) :
    ∃ l' high', goDown bottom id l (ref L top id l) (path L top id l) high =
        (l', ref L top id l', path L top id l', high') ∧ high' ≤ L ∧ Block L top bottom id l' ∧
      (id + 2 ^ (idrBits * l') < 2 ^ (idrBits * L) → ∀ (st : σ) (low : Bool), ∃ l'',
        goUp leave junk (id + 2 ^ (idrBits * l')) l' (ref L top id l') (path L top id l') st low =
          (l'', ref L top (id + 2 ^ (idrBits * l')) l'', path L top (id + 2 ^ (idrBits * l')) l'',
            leaves leave L top id (List.range' l' (l'' - l')) st, low) ∧
        Head L top bottom (id + 2 ^ (idrBits * l')) l'' ∧ l' ≤ l'' ∧
        ∀ k, l' ≤ k → k < l'' → 2 ^ (idrBits * k) ≤ id + 2 ^ (idrBits * l')) := by
  obtain ⟨l', high', hdown, hge, hle, hhigh', hlayers, hend⟩ :=
    goDown_spec top id bottom h.le h.bottom_le hhigh
  have habove : ∀ k, l' < k → k ≤ L → (node L top id k).IsLayer := by
    intro k hlt hle'
    by_cases hk : k ≤ l
    · exact child_isSome_iff.1 (hlayers k hlt hk)
    · exact h.above k (by omega) hle'
  have hl' : l' ≤ L := hle.trans h.le
  have hstops : l' = bottom ∨ node L top id l' = .null := by
    by_cases heq : l' = bottom
    · exact Or.inl heq
    · obtain ⟨k, rfl, hnone⟩ := hend.resolve_left heq
      refine Or.inr ((hlayered id (k + 1) (by omega) hl').resolve_right fun hlayer => ?_)
      obtain ⟨c, hc⟩ := (@child_isSome_iff _ (ref L top id (k + 1)) (slot k id)).2 hlayer
      rw [hnone] at hc
      cases hc
  have hdvd : 2 ^ (idrBits * l') ∣ id := by
    rcases hstops with rfl | hnull
    · exact h.dvd
    · by_contra hnot
      obtain ⟨bitmap, ary, count, level, heq⟩ := h.inside l' hge hl' hnot
      rw [hnull] at heq
      cases heq
  refine ⟨l', high', hdown, hhigh', ⟨hge, hl', hdvd, hstops, habove⟩, fun hlt st low => ?_⟩
  obtain ⟨l'', hup, hge', hle', hlt', hreached⟩ :=
    @goUp_spec _ _ L l' (id + 2 ^ (idrBits * l')) st low leave junk top id hl' hlt
  have hid : id < 2 ^ (idrBits * l'') := by
    have hpos := Nat.two_pow_pos (idrBits * l')
    omega
  -- neither id has digits from the new level on
  have hsame : (id + 2 ^ (idrBits * l')) / 2 ^ (idrBits * l'') = id / 2 ^ (idrBits * l'') := by
    rw [Nat.div_eq_of_lt hlt', Nat.div_eq_of_lt hid]
  refine ⟨l'', ?_, ⟨by omega, hle', hlt', ?_, fun k hk hk' => ?_, fun k hk hk' hnot => ?_⟩, hge',
    hreached⟩
  · rw [ref_congr top hle' hsame, path_congr top hsame]
    exact hup
  · exact (Nat.dvd_add h.dvd (Nat.pow_dvd_pow 2 (Nat.mul_le_mul_left _ hge)))
  · rw [node_congr top hk' (div_eq_of_div_eq hk.le hsame)]
    exact habove k (by omega) hk'
  · have hlow : l' < k := by
      by_contra hcon
      have hpow : 2 ^ (idrBits * k) ∣ 2 ^ (idrBits * l') :=
        Nat.pow_dvd_pow 2 (Nat.mul_le_mul_left _ (by omega))
      exact hnot (Nat.dvd_add (hpow.trans hdvd) hpow)
    rw [node_congr top hk' (div_add_of_not_dvd (Nat.mul_le_mul_left _ hlow.le) hdvd hnot)]
    exact habove k hlow hk'

section Turn

variable {visit : σ → Nat → Ptr α → σ × Bool} {leave : σ → Ref α → σ} {junk : Ref α} {max : Nat}
  {r r' r'' : Ref α} {stack stack' stack'' : List (Ref α)} {st st' st'' : σ} {low low'' : Bool}
  {l' l'' high' : Nat}

/-- The outer loop at a turn that breaks. -/
theorem walk_break (hid : id < max)
    (hdown : goDown bottom id l r stack high = (l', r', stack', high'))
    (hvisit : visit st id r'.ptr = (st', true)) :
    walk bottom visit leave junk max id l r stack st low high = ⟨st', low, high'⟩ := by
  rw [walk.eq_def, if_pos hid, hdown]
  dsimp only
  rw [hvisit]

/-- The outer loop at a turn that goes on. -/
theorem walk_go (hid : id < max)
    (hdown : goDown bottom id l r stack high = (l', r', stack', high'))
    (hvisit : visit st id r'.ptr = (st', false))
    (hup : goUp leave junk (id + 2 ^ (idrBits * l')) l' r' stack' st' low =
      (l'', r'', stack'', st'', low'')) :
    walk bottom visit leave junk max id l r stack st low high =
      walk bottom visit leave junk max (id + 2 ^ (idrBits * l')) l'' r'' stack'' st'' low''
        high' := by
  rw [walk.eq_def, if_pos hid, hdown]
  dsimp only
  rw [hvisit]
  dsimp only
  rw [hup]

end Turn

/-- A turn as the outer loop makes it: it breaks, it is the last one and pops once too often, or
the next turn starts. -/
theorem Head.walk_turn (h : Head L top bottom id l) (hlayered : Layered L bottom top) (hhigh : high ≤ L)
    (visit : σ → Nat → Ptr α → σ × Bool) (leave : σ → Ref α → σ) (junk : Ref α) (st : σ)
    (low : Bool) :
    ∃ l' high', high' ≤ L ∧ Block L top bottom id l' ∧
      ((visit st id (node L top id l')).2 = true →
        walk bottom visit leave junk (2 ^ (idrBits * L)) id l (ref L top id l) (path L top id l) st
          low high = ⟨(visit st id (node L top id l')).1, low, high'⟩) ∧
      ((visit st id (node L top id l')).2 = false →
        id + 2 ^ (idrBits * l') = 2 ^ (idrBits * L) →
        walk bottom visit leave junk (2 ^ (idrBits * L)) id l (ref L top id l) (path L top id l) st
          low high = ⟨leaves leave L top id (List.range' l' (L + 1 - l'))
            (visit st id (node L top id l')).1, true, high'⟩) ∧
      ((visit st id (node L top id l')).2 = false →
        id + 2 ^ (idrBits * l') < 2 ^ (idrBits * L) →
        ∃ l'', Head L top bottom (id + 2 ^ (idrBits * l')) l'' ∧ l' ≤ l'' ∧
          (∀ k, l' ≤ k → k < l'' → 2 ^ (idrBits * k) ≤ id + 2 ^ (idrBits * l')) ∧
          walk bottom visit leave junk (2 ^ (idrBits * L)) id l (ref L top id l) (path L top id l)
            st low high =
          walk bottom visit leave junk (2 ^ (idrBits * L)) (id + 2 ^ (idrBits * l')) l''
            (ref L top (id + 2 ^ (idrBits * l')) l'') (path L top (id + 2 ^ (idrBits * l')) l'')
            (leaves leave L top id (List.range' l' (l'' - l')) (visit st id (node L top id l')).1)
            low high') := by
  obtain ⟨l', high', hdown, hhigh', hblock, hup⟩ :=
    @Head.turn _ σ L l id bottom high top leave junk h hlayered hhigh
  have hid : id < 2 ^ (idrBits * L) :=
    h.lt.trans_le (Nat.pow_le_pow_right (by decide) (Nat.mul_le_mul_left _ h.le))
  refine ⟨l', high', hhigh', hblock, fun hbreak => ?_, fun hgo hlast => ?_, fun hgo hmore => ?_⟩
  · exact walk_break hid hdown (Prod.ext rfl hbreak)
  · have hpops := @goUp_last _ _ L l' (visit st id (node L top id l')).1 low leave junk top id
      hblock.le
    rw [← hlast] at hpops
    rw [walk_go hid hdown (Prod.ext rfl hgo) hpops, hlast, walk.eq_def, if_neg (Nat.lt_irrefl _)]
  · obtain ⟨l'', heq, hhead, hle, hreached⟩ :=
      hup hmore (visit st id (node L top id l')).1 low
    exact ⟨l'', hhead, hle, hreached, walk_go hid hdown (Prod.ext rfl hgo) heq⟩

theorem Head.start {bottom L : Nat} (top : Ptr α) (hbottom : bottom ≤ L) :
    Head L top bottom 0 L where
  bottom_le := hbottom
  le := le_rfl
  lt := Nat.two_pow_pos _
  dvd := Nat.dvd_zero _
  above := fun k hlt hle => by omega
  inside := fun k _ _ hnot => absurd (Nat.dvd_zero _) hnot

/-- The walk starts at the top with an empty stack. -/
theorem ref_start (L : Nat) (top : Ptr α) : ref L top 0 L = ⟨L, 0, top⟩ := by
  rw [ref, node_top, Nat.zero_div]

/-!
## Visiting every id

`idr_for_each` calls its callback for the ids with a pointer, in ascending order, up to the first
result that is not 0. When no call stops it, its last pop reads below the first element of `pa`.
-/

variable {α : Type u} {σ : Type} {L k l id high : Nat} {top : Ptr α} {M : IdMap α} {s : Idr α}

/-! ## Pointers of a tree -/

theorem child_null (n : Nat) : (.null : Ptr α).child n = .null :=
  rfl

/-- On the way down a well-formed tree there are well-formed layers and null pointers. -/
theorem WellFormed.node (h : WellFormed L top) (id : Nat) (hk : k ≤ L) :
    node (L + 1) top id (k + 1) = .null ∨ WellFormed k (node (L + 1) top id (k + 1)) := by
  induction hd : L - k generalizing k with
  | zero =>
    obtain rfl : k = L := by omega
    rw [node_top]
    exact Or.inr h
  | succ d ih =>
    rw [node_child top id (by omega)]
    rcases @ih (k + 1) (by omega) (by omega) with hnull | hlayer
    · rw [hnull]
      exact Or.inl rfl
    · obtain ⟨bitmap, ary, count, heq⟩ := hlayer.exists_layer
      rw [heq] at hlayer ⊢
      exact (hlayer.2.2 _ (slot_lt (k + 1) id)).1

theorem WellFormed.layered (h : WellFormed L top) : Layered (L + 1) 0 top := by
  intro id k hpos hle
  obtain ⟨k, rfl⟩ : ∃ m, k = m + 1 := ⟨k - 1, by omega⟩
  rcases h.node id (by omega : k ≤ L) with hnull | hlayer
  · exact Or.inl hnull
  · obtain ⟨bitmap, ary, count, heq⟩ := hlayer.exists_layer
    exact Or.inr ⟨bitmap, ary, count, k, heq⟩

/-- What is stored for an id is what is found at the end of its way down. -/
theorem WellFormed.node_zero (h : WellFormed L top) (id : Nat) :
    Idr.node (L + 1) top id 0 = value L top id := by
  have hvalue : ∀ k, k ≤ L → value k (Idr.node (L + 1) top id (k + 1)) id = value L top id := by
    intro k hk
    induction hd : L - k generalizing k with
    | zero =>
      obtain rfl : k = L := by omega
      rw [node_top]
    | succ d ih =>
      rw [← ih (k + 1) (by omega) (by omega), node_child top id (by omega : k + 1 < L + 1)]
      rcases h.node id (by omega : k + 1 ≤ L) with hnull | hlayer
      · rw [hnull, child_null, value_null, value_null]
      · obtain ⟨bitmap, ary, count, heq⟩ := hlayer.exists_layer
        rw [heq]
        rfl
  rw [← hvalue 0 (Nat.zero_le _), node_child top id (Nat.succ_pos L)]
  rcases h.node id (Nat.zero_le L) with hnull | hlayer
  · rw [hnull]
    rfl
  · obtain ⟨bitmap, ary, count, heq⟩ := hlayer.exists_layer
    rw [heq]
    rfl

/-- Nothing is below a null pointer. -/
theorem node_null_of_le {j : Nat} (hk : k ≤ L) (hnull : node L top j k = .null) (l : Nat)
    (hl : l ≤ k) : node L top j l = .null := by
  induction hd : k - l generalizing l with
  | zero =>
    obtain rfl : l = k := by omega
    exact hnull
  | succ d ih =>
    rw [node_child top j (by omega), ih (l + 1) (by omega) (by omega), child_null]

/-- A tree of so many layers whose walk ends at what is stored for an id. -/
structure Stores (L : Nat) (top : Ptr α) (M : IdMap α) : Prop where
  layered : Layered L 0 top
  node_zero : ∀ id < 2 ^ (idrBits * L), node L top id 0 = .ofUser (M id).join

theorem Represents.stores (h : Represents s M) : Stores s.layers s.top M := by
  rcases h.tree with ⟨hlayers, htop, hM⟩ | ⟨L, hL, hT⟩
  · refine ⟨fun id k hpos hle => by omega, fun id _ => ?_⟩
    rw [hlayers, htop, node_top, hM]
    rfl
  rw [hL]
  refine ⟨hT.wellFormed.layered, fun id hid => ?_⟩
  rw [hT.wellFormed.node_zero]
  cases hM : M id with
  | none =>
    have hunused : used L s.top id = false := by
      by_contra hcon
      exact (hT.isSome_iff_used hid).2 (by simpa using hcon) hM
    rw [hT.wellFormed.value_of_not_used hunused]
    rfl
  | some x => rw [hT.value id x hM, Option.join_some]

/-! ## The calls -/

/-- The calls a walk makes in a row, up to the first result that is not 0. -/
def runCalls (fn : σ → Nat → α → σ × Int) (st : σ) : List (Nat × α) → σ × Int
  | [] => (st, 0)
  | (id, x) :: calls =>
    if (fn st id x).2 ≠ 0 then fn st id x else runCalls fn (fn st id x).1 calls

/-- An id with its pointer, if it has one. -/
def entry (M : IdMap α) (id : Nat) : Option (Nat × α) :=
  (M id).join.map fun x => (id, x)

/-- The ids with a pointer from an id on, below `n`. -/
def entriesFrom (M : IdMap α) (n id : Nat) : List (Nat × α) :=
  (List.range' id (n - id)).filterMap (entry M)

theorem entriesFrom_end (M : IdMap α) (n : Nat) : entriesFrom M n n = [] := by
  simp [entriesFrom]

/-- The first block and the rest. -/
theorem entriesFrom_add (M : IdMap α) {n m : Nat} (hle : id + m ≤ n) :
    entriesFrom M n id = (List.range' id m).filterMap (entry M) ++ entriesFrom M n (id + m) := by
  unfold entriesFrom
  rw [← List.filterMap_append, show n - id = m + (n - (id + m)) by omega, List.range'_append_1]

/-- What `idr_for_each` does at the bottom of a turn. -/
def callback (fn : σ → Nat → α → σ × Int) (st : σ × Int) (id : Nat) (p : Ptr α) :
    (σ × Int) × Bool :=
  match p with
  | .user x => (fn st.1 id x, (fn st.1 id x).2 != 0)
  | _ => (st, false)

theorem leaves_const (L : Nat) (top : Ptr α) (id : Nat) (levels : List Nat) (st : σ) :
    leaves (fun st _ => st) L top id levels st = st := by
  unfold leaves
  induction levels with
  | nil => rfl
  | cons k levels ih => exact ih

/-- A block that ends at a null pointer has no ids with a pointer. -/
theorem Block.entries_eq_nil (h : Block L top 0 id l) (hid : id < 2 ^ (idrBits * L))
    (hstores : Stores L top M) (hnull : node L top id l = .null) :
    (List.range' id (2 ^ (idrBits * l))).filterMap (entry M) = [] := by
  refine List.filterMap_eq_nil_iff.2 fun j hj => ?_
  obtain ⟨hle, hlt⟩ := List.mem_range'_1.1 hj
  have hend := h.le_top hid
  have hzero := hstores.node_zero j (by omega)
  rw [node_null_of_le h.le ((h.node_eq hle hlt).trans hnull) 0 (Nat.zero_le _)] at hzero
  unfold entry
  cases hM : (M j).join with
  | none => rfl
  | some x => rw [hM] at hzero; cases hzero

/-- The walk from the start of a turn makes the calls for the ids from there on, and its last pop is
below the first element when no call stops it. -/
theorem Head.forEach (h : Head L top 0 id l) (hstores : Stores L top M) (hhigh : high ≤ L)
    (fn : σ → Nat → α → σ × Int) (junk : Ref α) (st : σ) :
    ∃ high' ≤ L, walk 0 (callback fn) (fun st _ => st) junk (2 ^ (idrBits * L)) id l (ref L top id l)
        (path L top id l) (st, 0) false high =
      ⟨runCalls fn st (entriesFrom M (2 ^ (idrBits * L)) id),
        (runCalls fn st (entriesFrom M (2 ^ (idrBits * L)) id)).2 == 0, high'⟩ := by
  induction hd : 2 ^ (idrBits * L) - id using Nat.strong_induction_on
    generalizing id l st high with
  | _ d ih =>
    obtain ⟨l', high', hhigh', hblock, hbreak, hlast, hmore⟩ :=
      h.walk_turn hstores.layered hhigh (callback fn) (fun st _ => st) junk (st, 0) false
    have hid : id < 2 ^ (idrBits * L) :=
      h.lt.trans_le (Nat.pow_le_pow_right (by decide) (Nat.mul_le_mul_left _ h.le))
    have hend := hblock.le_top hid
    have hpos := Nat.two_pow_pos (idrBits * l')
    have hsplit := entriesFrom_add M hend
    -- the walk after a turn that goes on with `st'` has the calls that are left
    have hrest : ∀ st', (callback fn (st, 0) id (node L top id l')) = ((st', 0), false) →
        ∃ high'' ≤ L, walk 0 (callback fn) (fun st _ => st) junk (2 ^ (idrBits * L)) id l
            (ref L top id l) (path L top id l) (st, 0) false high =
          ⟨runCalls fn st' (entriesFrom M (2 ^ (idrBits * L)) (id + 2 ^ (idrBits * l'))),
            (runCalls fn st' (entriesFrom M (2 ^ (idrBits * L))
              (id + 2 ^ (idrBits * l')))).2 == 0, high''⟩ := by
      intro st' hst'
      have hgo : (callback fn (st, 0) id (node L top id l')).2 = false := by rw [hst']
      rcases Nat.eq_or_lt_of_le hend with heq | hlt
      · refine ⟨high', hhigh', ?_⟩
        rw [hlast hgo heq, leaves_const, hst', heq, entriesFrom_end]
        rfl
      · obtain ⟨l'', hhead, -, -, hwalk⟩ := hmore hgo hlt
        obtain ⟨high'', hle, heq⟩ := ih _ (by omega) hhead hhigh' st' rfl
        refine ⟨high'', hle, ?_⟩
        rw [hwalk, leaves_const, hst', heq]
    rcases hblock.stops with rfl | hnull
    · -- the bottom: there may be a pointer to visit
      rw [Nat.mul_zero, Nat.pow_zero] at hsplit hrest
      rw [hstores.node_zero id hid] at hbreak hrest
      rw [hsplit]
      cases hM : (M id).join with
      | none =>
        rw [hM] at hrest
        have hentry : (List.range' id 1).filterMap (entry M) = [] := by
          simp [entry, hM]
        rw [hentry, List.nil_append]
        exact hrest st rfl
      | some x =>
        rw [hM] at hbreak hrest
        have hentry : (List.range' id 1).filterMap (entry M) = [(id, x)] := by
          simp [entry, hM]
        rw [hentry, List.singleton_append, runCalls]
        split_ifs with hstop
        · refine ⟨high', hhigh', ?_⟩
          rw [hbreak (bne_iff_ne.2 hstop)]
          exact congrArg (Walked.mk _ · _) (beq_eq_false_iff_ne.2 hstop).symm
        · have hzero : (fn st id x).2 = 0 := not_not.1 hstop
          refine hrest _ ?_
          show (fn st id x, (fn st id x).2 != 0) = _
          rw [hzero]
          exact congrArg (·, false) (Prod.ext rfl hzero)
    · rw [hsplit, hblock.entries_eq_nil hid hstores hnull, List.nil_append]
      rw [hnull] at hrest
      exact hrest st rfl

/-- `idr_for_each` of an idr that holds a map. -/
theorem Represents.forEach (h : Represents s M) (fn : σ → Nat → α → σ × Int) (junk : Ref α)
    (st : σ) :
    ∃ high ≤ s.layers, idrForEach s fn junk st =
      ⟨runCalls fn st (entriesFrom M (2 ^ (idrBits * s.layers)) 0),
        (runCalls fn st (entriesFrom M (2 ^ (idrBits * s.layers)) 0)).2 == 0, high⟩ := by
  obtain ⟨high, hle, heq⟩ := (Head.start s.top (Nat.zero_le s.layers)).forEach h.stores
    (Nat.zero_le _) fn junk st
  rw [ref_start, path_top] at heq
  exact ⟨high, hle, heq⟩

end AndroidKernel.Idr
