import AndroidKernel.Idr.Layers

/-!
# Finding and taking a free id

`sub_alloc` ends at the least free id from its start on, if the tree has one; along the way it
only adds empty layers. Where the top layer has nothing left from the start on, it asks for the
tree to grow.
-/

namespace AndroidKernel.Idr

open Library

universe u

variable {α : Type u}

/-- A layer without bits and children. -/
def Zeroed (p : Ptr α) : Prop :=
  ∃ level, p = .layer (fun _ => false) (fun _ => .null) 0 level

/-- All layers on the free list are zeroed. -/
def Clean (free : List (Ptr α)) : Prop :=
  ∀ p ∈ free, Zeroed p

/-- Two trees with the top at level `L` hold the same ids. -/
structure Agree (L : Nat) (T T' : Ptr α) : Prop where
  used : ∀ j, j < 2 ^ (idrBits * (L + 1)) → used L T' j = used L T j
  value : ∀ j, j < 2 ^ (idrBits * (L + 1)) → value L T' j = value L T j

theorem Agree.refl (L : Nat) (T : Ptr α) : Agree L T T :=
  ⟨fun _ _ => rfl, fun _ _ => rfl⟩

theorem Agree.trans {L : Nat} {T T' T'' : Ptr α} (h : Agree L T T') (h' : Agree L T' T'') :
    Agree L T T'' :=
  ⟨fun j hj => (h'.used j hj).trans (h.used j hj), fun j hj => (h'.value j hj).trans (h.value j hj)⟩

theorem isFull_zero : isFull (fun _ => false) = false := by
  unfold isFull
  rw [decide_eq_false_iff_not]
  exact fun h => Bool.false_ne_true (h 0 (Nat.two_pow_pos _))

theorem wellFormed_zero (l : Nat) :
    WellFormed l (.layer (fun _ => false) (fun _ => .null) 0 l : Ptr α) := by
  cases l with
  | zero =>
    refine ⟨rfl, ?_, fun n _ => ⟨fun _ => rfl, none, rfl⟩⟩
    simp [setBits]
  | succ l =>
    refine ⟨rfl, ?_, fun n _ => ⟨.inl rfl, rfl⟩⟩
    simp [children, Ptr.isNull]

theorem getFromFreeList_spec {free free' : List (Ptr α)} {p : Ptr α} (hclean : Clean free)
    (h : getFromFreeList free = some (p, free')) : Zeroed p ∧ Clean free' := by
  cases free with
  | nil => cases h
  | cons q free =>
    obtain ⟨level, rfl⟩ := hclean q List.mem_cons_self
    cases h
    refine ⟨⟨level, ?_⟩, fun r hr => hclean r (List.mem_cons_of_mem _ hr)⟩
    congr
    exact Function.update_eq_self 0 _

/-- A bit that is set stands for ids that are all in use. -/
theorem WellFormed.used_of_bit {l j count level : Nat} {bitmap : Bitmap} {ary : Nat → Ptr α}
    (h : WellFormed l (.layer bitmap ary count level)) (hbit : bitmap (slot l j) = true) :
    used l (.layer bitmap ary count level) j = true := by
  cases l with
  | zero => exact hbit
  | succ l =>
    obtain ⟨hchild, hfull⟩ := h.2.2 _ (slot_lt (l + 1) j)
    rw [hbit] at hfull
    rcases hchild with hnull | hchild
    · rw [hnull] at hfull
      cases hfull
    · exact hchild.used_of_full hfull.symm j

/-! ## Digits along the search -/

/-- Ids from `i` on in one block have the digit of `i` or a larger one. -/
theorem slot_mono {l i j : Nat} (hle : i ≤ j)
    (hblock : j / 2 ^ (idrBits * (l + 1)) = i / 2 ^ (idrBits * (l + 1))) : slot l i ≤ slot l j := by
  have hdiv : i / 2 ^ (idrBits * l) ≤ j / 2 ^ (idrBits * l) := Nat.div_le_div_right hle
  rw [div_eq_add_digit idrBits l i, div_eq_add_digit idrBits l j, hblock] at hdiv
  unfold slot
  omega

/-- The end of the block of an id. -/
theorem block_end {k i j : Nat} (hle : i ≤ j) (hlt : j < (i / 2 ^ k + 1) * 2 ^ k) :
    j / 2 ^ k = i / 2 ^ k := by
  have hge : i / 2 ^ k ≤ j / 2 ^ k := Nat.div_le_div_right hle
  have hle' : j / 2 ^ k < i / 2 ^ k + 1 := (Nat.div_lt_iff_lt_mul (Nat.two_pow_pos k)).2 hlt
  omega

theorem lt_block_end (k i : Nat) : i < (i / 2 ^ k + 1) * 2 ^ k := by
  rw [← Nat.div_lt_iff_lt_mul (Nat.two_pow_pos k)]
  exact Nat.lt_succ_self _

/-- The blocks of a tree end with the tree or before. -/
theorem block_end_le {l L i : Nat} (hl : l ≤ L) (hi : i < 2 ^ (idrBits * (L + 1))) :
    (i / 2 ^ (idrBits * (l + 1)) + 1) * 2 ^ (idrBits * (l + 1)) ≤ 2 ^ (idrBits * (L + 1)) := by
  have hsplit : 2 ^ (idrBits * (L + 1)) = 2 ^ (idrBits * (L - l)) * 2 ^ (idrBits * (l + 1)) := by
    rw [← Nat.pow_add, ← Nat.mul_add]
    congr 2
    omega
  rw [hsplit] at hi ⊢
  exact Nat.mul_le_mul_right _ ((Nat.div_lt_iff_lt_mul (Nat.two_pow_pos _)).2 hi)

/-- The first id with a larger digit at level `l`. -/
theorem next_digit {l i m : Nat} (hm : m < idrSize) (hlt : slot l i < m) :
    let i' := (i / 2 ^ (idrBits * l) - slot l i + m) * 2 ^ (idrBits * l)
    slot l i' = m ∧ i' / 2 ^ (idrBits * (l + 1)) = i / 2 ^ (idrBits * (l + 1)) ∧ i ≤ i' ∧
      ∀ j, i ≤ j → j < i' → j / 2 ^ (idrBits * (l + 1)) = i / 2 ^ (idrBits * (l + 1)) ∧
        slot l j < m := by
  intro i'
  have hsplit := div_eq_add_digit idrBits l i
  have hi' : i' / 2 ^ (idrBits * l) = i / 2 ^ (idrBits * (l + 1)) * 2 ^ idrBits + m := by
    unfold i' slot
    rw [Nat.mul_div_cancel _ (Nat.two_pow_pos _)]
    omega
  have hslot : slot l i' = m := by
    unfold slot digit
    rw [hi', Nat.mul_add_mod_self_right]
    exact Nat.mod_eq_of_lt hm
  have hhigh : i' / 2 ^ (idrBits * (l + 1)) = i / 2 ^ (idrBits * (l + 1)) := by
    have hsplit' := div_eq_add_digit idrBits l i'
    rw [hi'] at hsplit'
    have hd : digit idrBits l i' = m := hslot
    rw [hd] at hsplit'
    exact (Nat.eq_of_mul_eq_mul_right (Nat.two_pow_pos idrBits) (Nat.add_right_cancel hsplit')).symm
  have hlt' : i / 2 ^ (idrBits * l) < i' / 2 ^ (idrBits * l) := by
    unfold slot at hlt
    omega
  refine ⟨hslot, hhigh, ?_, fun j hj hj' => ?_⟩
  · exact Nat.le_of_lt (Nat.lt_of_div_lt_div hlt')
  have hblock : j / 2 ^ (idrBits * (l + 1)) = i / 2 ^ (idrBits * (l + 1)) := by
    have h1 : i / 2 ^ (idrBits * (l + 1)) ≤ j / 2 ^ (idrBits * (l + 1)) := Nat.div_le_div_right hj
    have h2 : j / 2 ^ (idrBits * (l + 1)) ≤ i' / 2 ^ (idrBits * (l + 1)) :=
      Nat.div_le_div_right (Nat.le_of_lt hj')
    omega
  refine ⟨hblock, ?_⟩
  have hjdiv : j / 2 ^ (idrBits * l) < i' / 2 ^ (idrBits * l) := by
    rw [Nat.div_lt_iff_lt_mul (Nat.two_pow_pos _), hi']
    refine Nat.lt_of_lt_of_le hj' (Nat.le_of_eq ?_)
    unfold i' slot
    congr 1
    omega
  rw [div_eq_add_digit idrBits l j, hblock, hi'] at hjdiv
  unfold slot
  omega

/-- The id with which `sub_alloc` goes on at the digit `m`. -/
def nextId (l i m : Nat) : Nat :=
  if m ≠ slot l i then (i / 2 ^ (idrBits * l) - slot l i + m) * 2 ^ (idrBits * l) else i

theorem nextId_spec {l i m : Nat} (hm : m < idrSize) (hle : slot l i ≤ m) :
    slot l (nextId l i m) = m ∧
      nextId l i m / 2 ^ (idrBits * (l + 1)) = i / 2 ^ (idrBits * (l + 1)) ∧ i ≤ nextId l i m ∧
      ∀ j, i ≤ j → j < nextId l i m → j / 2 ^ (idrBits * (l + 1)) = i / 2 ^ (idrBits * (l + 1)) ∧
        slot l j < m := by
  unfold nextId
  by_cases heq : m = slot l i
  · rw [if_neg (not_not_intro heq)]
    exact ⟨heq.symm, rfl, Nat.le_refl _, fun j hj hj' => absurd hj' (Nat.not_lt_of_le hj)⟩
  · rw [if_pos heq]
    exact next_digit hm (Nat.lt_of_le_of_ne hle (Ne.symm heq))

/-- A round of the search at a layer with a clear bit. -/
theorem subAllocLoop_step {bitmap : Bitmap} {l id : Nat} (layers k : Nat) (ary : Nat → Ptr α)
    (count level : Nat) (path : List (Frame α)) (free : List (Ptr α))
    (hm : bitmap.findNextZeroBit idrSize (slot l id) ≠ idrSize) :
    subAllocLoop layers (k + 1) (.layer bitmap ary count level) path l id free =
      let m := bitmap.findNextZeroBit idrSize (slot l id)
      if maxIdBit ≤ nextId l id m then (.noMoreSpace (plug path (.layer bitmap ary count level)), free)
      else
        match l with
        | 0 => (.found (.layer bitmap ary count level) path (nextId l id m), free)
        | l' + 1 =>
          if (ary m).isNull then
            match getFromFreeList free with
            | none => (.noMemory (plug path (.layer bitmap ary count level)), free)
            | some (new, free) =>
              subAllocLoop layers k (new.setLevel l')
                (⟨bitmap, ary, count + 1, level, m⟩ :: path) l' (nextId l id m) free
          else
            subAllocLoop layers k (ary m) (⟨bitmap, ary, count, level, m⟩ :: path) l'
              (nextId l id m) free := by
  rw [subAllocLoop]
  simp only [hm, if_false]
  rfl

/-! ## The search -/

/-- The ids seen at the end of a path are those of the tree. -/
theorem Shape.used_eq {id L l j : Nat} {path : List (Frame α)} {p : Ptr α}
    (h : Shape id L l path)
    (heq : j / 2 ^ (idrBits * (l + 1)) = id / 2 ^ (idrBits * (l + 1))) :
    Idr.used L (plug path p) j = Idr.used l p j :=
  (h.used_plug p heq).1

/-- A layer changed at the end of a path, with the same ids in it. -/
theorem Shape.agree {id L l : Nat} {path : List (Frame α)} {p q : Ptr α} (h : Shape id L l path)
    (hid : id < 2 ^ (idrBits * (L + 1))) (hused : ∀ j, used l q j = used l p j)
    (hvalue : ∀ j, value l q j = value l p j) : Agree L (plug path p) (plug path q) := by
  have htop {j : Nat} (hj : j < 2 ^ (idrBits * (L + 1))) :
      j / 2 ^ (idrBits * (L + 1)) = id / 2 ^ (idrBits * (L + 1)) := by
    rw [Nat.div_eq_of_lt hj, Nat.div_eq_of_lt hid]
  refine ⟨fun j hj => ?_, fun j hj => ?_⟩
  · by_cases heq : j / 2 ^ (idrBits * (l + 1)) = id / 2 ^ (idrBits * (l + 1))
    · rw [(h.used_plug q heq).1, (h.used_plug p heq).1, hused]
    · exact (h.used_plug_of_ne q p (htop hj) heq).1
  · by_cases heq : j / 2 ^ (idrBits * (l + 1)) = id / 2 ^ (idrBits * (l + 1))
    · rw [(h.used_plug q heq).2, (h.used_plug p heq).2, hvalue]
    · exact (h.used_plug_of_ne q p (htop hj) heq).2

/-- A layer with a child that is not full is not full. -/
theorem WellFormed.full_plug {l : Nat} {g : Frame α} {p : Ptr α} (h : WellFormed (l + 1) (g.plug p))
    (hslot : g.slot < idrSize) (hp : p.full = false) : (g.plug p).full = false := by
  obtain ⟨-, hbit⟩ := h.2.2 _ hslot
  rw [Function.update_self, hp] at hbit
  simp only [Frame.plug, Ptr.full, isFull, decide_eq_false_iff_not]
  intro hall
  rw [hall _ hslot] at hbit
  cases hbit

/-- How the search ends where `f` is the least free id of the tree `T`, or the end of its range
if there is none. -/
def Finds (L : Nat) (T : Ptr α) (f : Nat) : SubAlloc α → Prop
  | .found q path id => id = f ∧ f < 2 ^ (idrBits * (L + 1)) ∧ Shape f L 0 path ∧
      q.isNull = false ∧ WellFormed L (plug path q) ∧ Agree L T (plug path q)
  | .needToGrow T' id => id = f ∧ f = 2 ^ (idrBits * (L + 1)) ∧ WellFormed L T' ∧ Agree L T T'
  | .noMemory T' => WellFormed L T' ∧ Agree L T T'
  | _ => False

theorem Finds.agree {L f : Nat} {T T' : Ptr α} {r : SubAlloc α} (h : Finds L T' f r)
    (hagree : Agree L T T') : Finds L T f r := by
  cases r with
  | found q path id =>
    obtain ⟨hid, hf, hshape, hq, hwf, hrest⟩ := h
    exact ⟨hid, hf, hshape, hq, hwf, hagree.trans hrest⟩
  | noMemory T'' => exact ⟨h.1, hagree.trans h.2⟩
  | needToGrow T'' id =>
    obtain ⟨hid, hf, hwf, hrest⟩ := h
    exact ⟨hid, hf, hwf, hagree.trans hrest⟩
  | noMoreSpace => exact h
  | crash => exact h
  | endless => exact h

/-- A missing layer that is added below an existing one changes nothing. -/
theorem Shape.addLayer {id L l m count level level' : Nat} {path : List (Frame α)}
    {bitmap : Bitmap} {ary : Nat → Ptr α} (h : Shape id L (l + 1) path)
    (hid : id < 2 ^ (idrBits * (L + 1)))
    (hwf : WellFormed L (plug path (.layer bitmap ary count level))) (hm : m < idrSize)
    (hnull : (ary m).isNull = true)
    (hnew : level' = l) :
    WellFormed L (plug (⟨bitmap, ary, count + 1, level, m⟩ :: path)
        (.layer (fun _ => false) (fun _ => .null) 0 level')) ∧
      Agree L (plug path (.layer bitmap ary count level))
        (plug (⟨bitmap, ary, count + 1, level, m⟩ :: path)
          (.layer (fun _ => false) (fun _ => .null) 0 level')) := by
  subst hnew
  have hp := h.wellFormed hwf rfl
  have hzero := wellFormed_zero (α := α) level'
  have hbit : bitmap m = false := by
    rw [(hp.2.2 m hm).2, isNull_iff.1 hnull]
    rfl
  have hq : WellFormed (level' + 1) (.layer bitmap (Function.update ary m
      (.layer (fun _ => false) (fun _ => .null) 0 level')) (count + 1) level) := by
    refine hp.write ?_ (.inr hzero) ?_ fun _ _ => rfl
    · rw [children_update_set hm hnull rfl, ← hp.2.1]
    · rw [hbit]
      exact isFull_zero.symm
  have hchild (j : Nat) : used level' (Function.update ary m
        (.layer (fun _ => false) (fun _ => .null) 0 level') (slot (level' + 1) j)) j =
        used level' (ary (slot (level' + 1) j)) j ∧
      value level' (Function.update ary m
        (.layer (fun _ => false) (fun _ => .null) 0 level') (slot (level' + 1) j)) j =
        value level' (ary (slot (level' + 1) j)) j := by
    by_cases hslot : slot (level' + 1) j = m
    · rw [hslot, Function.update_self, isNull_iff.1 hnull, used_null, value_null]
      cases level' <;> simp [used, value]
    · rw [Function.update_of_ne hslot]
      exact ⟨rfl, rfl⟩
  refine ⟨h.replace hwf rfl hq rfl, h.agree hid (fun j => (hchild j).1) fun j => (hchild j).2⟩

theorem pow_le_maxIdBit {L : Nat} (hcap : idrBits * (L + 1) < 31) :
    2 ^ (idrBits * (L + 1)) ≤ maxIdBit :=
  Nat.pow_le_pow_right (by omega) (by omega)

/-- An id with a given digit in a block. -/
theorem exists_slot (l i : Nat) {n : Nat} (hn : n < idrSize) :
    ∃ j, j / 2 ^ (idrBits * (l + 1)) = i / 2 ^ (idrBits * (l + 1)) ∧ slot l j = n := by
  refine ⟨(i / 2 ^ (idrBits * (l + 1)) * 2 ^ idrBits + n) * 2 ^ (idrBits * l), ?_, ?_⟩
  · rw [Nat.mul_succ, Nat.pow_add, ← Nat.div_div_eq_div_mul, Nat.mul_div_cancel _ (Nat.two_pow_pos _),
      Nat.mul_comm _ (2 ^ idrBits), Nat.mul_add_div (Nat.two_pow_pos _),
      Nat.div_eq_of_lt (show n < 2 ^ idrBits from hn), Nat.add_zero]
  · unfold slot digit
    rw [Nat.mul_div_cancel _ (Nat.two_pow_pos _), Nat.mul_add_mod_self_right]
    exact Nat.mod_eq_of_lt hn

/-- A layer that is not full has a free id in every block. -/
theorem WellFormed.exists_free {l : Nat} {p : Ptr α} (h : WellFormed l p) (hfull : p.full = false)
    (i : Nat) : ∃ j, j / 2 ^ (idrBits * (l + 1)) = i / 2 ^ (idrBits * (l + 1)) ∧
      used l p j = false := by
  induction l generalizing p i with
  | zero =>
    obtain ⟨bitmap, ary, count, rfl⟩ := h.exists_layer
    simp only [Ptr.full, isFull, decide_eq_false_iff_not, not_forall, Bool.not_eq_true] at hfull
    obtain ⟨n, hn, hbit⟩ := hfull
    obtain ⟨j, hblock, hslot⟩ := exists_slot 0 i hn
    refine ⟨j, hblock, ?_⟩
    unfold used
    rw [hslot, hbit]
  | succ l ih =>
    obtain ⟨bitmap, ary, count, rfl⟩ := h.exists_layer
    simp only [Ptr.full, isFull, decide_eq_false_iff_not, not_forall, Bool.not_eq_true] at hfull
    obtain ⟨n, hn, hbit⟩ := hfull
    obtain ⟨j, hblock, hslot⟩ := exists_slot (l + 1) i hn
    obtain ⟨hchild, hchildfull⟩ := h.2.2 n hn
    rcases hchild with hnull | hchild
    · refine ⟨j, hblock, ?_⟩
      unfold used
      rw [hslot, hnull, used_null]
    · rw [hbit] at hchildfull
      obtain ⟨k, hkblock, hk⟩ := ih hchild hchildfull.symm j
      obtain ⟨hhigh, hdigit⟩ := div_eq_iff.1 hkblock
      refine ⟨k, hhigh.trans hblock, ?_⟩
      have hkslot : slot (l + 1) k = n := hdigit.trans hslot
      unfold used
      rw [hkslot, hk]

/-- The search ends at the least free id from `id` on, or asks for the tree to grow. Every round
goes down a level or on to a larger id. A search below the top that finds nothing must not get to
the end of the tree from there, as it would start over at the first ids. -/
theorem subAllocLoop_spec {L l id f : Nat} {path : List (Frame α)} {p : Ptr α}
    {free : List (Ptr α)} (hcap : idrBits * (L + 1) < 31) (hwf : WellFormed L (plug path p))
    (hshape : Shape id L l path) (hp : p.isNull = false) (hid : id < 2 ^ (idrBits * (L + 1)))
    (hle : id ≤ f) (hf : f ≤ 2 ^ (idrBits * (L + 1)))
    (hfree : f < 2 ^ (idrBits * (L + 1)) → used L (plug path p) f = false)
    (hleast : ∀ j, id ≤ j → j < f → used L (plug path p) j = true)
    (hlast : f = 2 ^ (idrBits * (L + 1)) →
      ∀ j, 2 ^ (idrBits * (L + 1)) - 2 ^ (idrBits * L) ≤ j → j < id →
        used L (plug path p) j = true)
    (hopen : path = [] ∨ p.full = false) (hclean : Clean free) :
    ∃ r free', (∀ fuel, (f - id) * (L + 1) + l < fuel →
        subAllocLoop (L + 1) fuel p path l id free = (r, free')) ∧ Clean free' ∧
      Finds L (plug path p) f r := by
  induction hμ : (f - id) * (L + 1) + l using Nat.strongRecOn generalizing l id path p free with
  | _ μ ih =>
    have hpw := hshape.wellFormed hwf hp
    obtain ⟨bitmap, ary, count, rfl⟩ := hpw.exists_layer
    have hmax := pow_le_maxIdBit hcap
    obtain ⟨hge, hlt, hclear, hset⟩ :=
      Bitmap.findNextZeroBit_spec (m := bitmap) (Nat.le_of_lt (slot_lt l id))
    have hfuel (fuel : Nat) (h : μ < fuel) : ∃ k, fuel = k + 1 := ⟨fuel - 1, by omega⟩
    -- ids in the block whose digit is passed over are in use
    have hpassed {j : Nat} (hj : id ≤ j)
        (hblock : j / 2 ^ (idrBits * (l + 1)) = id / 2 ^ (idrBits * (l + 1)))
        (hm : slot l j < bitmap.findNextZeroBit idrSize (slot l id)) :
        used L (plug path (.layer bitmap ary count l)) j = true := by
      rw [hshape.used_eq hblock]
      exact hpw.used_of_bit (hset _ (slot_mono hj hblock) hm)
    by_cases hm : bitmap.findNextZeroBit idrSize (slot l id) = idrSize
    · have hused {j : Nat} (hj : id ≤ j)
          (hj' : j < (id / 2 ^ (idrBits * (l + 1)) + 1) * 2 ^ (idrBits * (l + 1))) :
          used L (plug path (.layer bitmap ary count l)) j = true :=
        hpassed hj (block_end hj hj') (by rw [hm]; exact slot_lt l j)
      have hend := block_end_le hshape.le hid
      have hE : (id / 2 ^ (idrBits * (l + 1)) + 1) * 2 ^ (idrBits * (l + 1)) ≤ f := by
        by_contra hcon
        have hfused := hused hle (Nat.lt_of_not_le hcon)
        rw [hfree (by omega)] at hfused
        cases hfused
      have hidE := lt_block_end (idrBits * (l + 1)) id
      have hmod : (id / 2 ^ (idrBits * (l + 1)) + 1) * 2 ^ (idrBits * (l + 1)) % 2 ^ 32 =
          (id / 2 ^ (idrBits * (l + 1)) + 1) * 2 ^ (idrBits * (l + 1)) := by
        refine Nat.mod_eq_of_lt ?_
        unfold maxIdBit at hmax
        omega
      cases path with
      | nil =>
        obtain rfl : l = L := hshape
        have hEC : (id / 2 ^ (idrBits * (l + 1)) + 1) * 2 ^ (idrBits * (l + 1)) =
            2 ^ (idrBits * (l + 1)) := by
          rw [Nat.div_eq_of_lt hid]
          omega
        refine ⟨.needToGrow (.layer bitmap ary count l) _, free, fun fuel hlt => ?_, hclean,
          Nat.le_antisymm hE ?_, ?_, hwf, Agree.refl _ _⟩
        · obtain ⟨k, rfl⟩ := hfuel fuel hlt
          rw [subAllocLoop]
          simp only [hm, if_true, hmod]
        · omega
        · omega
      | cons g path =>
        have ⟨hslot, hpath⟩ := hshape
        have hl := hpath.le
        have hpfull : (Ptr.layer bitmap ary count l).full = false :=
          hopen.resolve_left (List.cons_ne_nil _ _)
        have hlow : id / 2 ^ (idrBits * (l + 1)) * 2 ^ (idrBits * (l + 1)) ≤ id :=
          Nat.div_mul_le_self _ _
        -- the layer has a free id, so the tree does not end with it
        have hEC : (id / 2 ^ (idrBits * (l + 1)) + 1) * 2 ^ (idrBits * (l + 1)) <
            2 ^ (idrBits * (L + 1)) := by
          refine Nat.lt_of_le_of_ne hend fun heq => ?_
          obtain ⟨j, hblock, hj⟩ := hpw.exists_free hpfull id
          rw [← hshape.used_eq hblock] at hj
          have hjlow : id / 2 ^ (idrBits * (l + 1)) * 2 ^ (idrBits * (l + 1)) ≤ j :=
            hblock ▸ Nat.div_mul_le_self _ _
          have hpow : 2 ^ (idrBits * (l + 1)) ≤ 2 ^ (idrBits * L) :=
            Nat.pow_le_pow_right (by omega) (Nat.mul_le_mul_left _ hl)
          have hjused : used L (plug (g :: path) (.layer bitmap ary count l)) j = true := by
            by_cases hjid : id ≤ j
            · refine hused hjid ?_
              have := lt_block_end (idrBits * (l + 1)) j
              rwa [hblock] at this
            · refine hlast (by omega) j ?_ (by omega)
              rw [Nat.succ_mul] at heq
              omega
          rw [hj] at hjused
          cases hjused
        have hwf' : WellFormed L (plug path (g.plug (.layer bitmap ary count l))) := hwf
        have hfull' := (hpath.wellFormed hwf' rfl).full_plug (hslot ▸ slot_lt _ _) hpfull
        have hstep (k : Nat) : subAllocLoop (L + 1) (k + 1) (.layer bitmap ary count l)
            (g :: path) l id free =
              if id / 2 ^ (idrBits * (l + 1 + 1)) =
                  (id / 2 ^ (idrBits * (l + 1)) + 1) * 2 ^ (idrBits * (l + 1)) /
                    2 ^ (idrBits * (l + 1 + 1)) then
                subAllocLoop (L + 1) k (g.plug (.layer bitmap ary count l)) path (l + 1)
                  ((id / 2 ^ (idrBits * (l + 1)) + 1) * 2 ^ (idrBits * (l + 1))) free
              else
                subAllocLoop (L + 1) k (plug path (g.plug (.layer bitmap ary count l))) [] L
                  ((id / 2 ^ (idrBits * (l + 1)) + 1) * 2 ^ (idrBits * (l + 1))) free := by
          rw [subAllocLoop]
          simp only [hm, if_true, hmod]
          rfl
        have hseen : ∀ j, 2 ^ (idrBits * (L + 1)) - 2 ^ (idrBits * L) ≤ j →
            j < (id / 2 ^ (idrBits * (l + 1)) + 1) * 2 ^ (idrBits * (l + 1)) →
            f = 2 ^ (idrBits * (L + 1)) →
            used L (plug (g :: path) (.layer bitmap ary count l)) j = true := by
          intro j hj hjE hfC
          by_cases hjid : id ≤ j
          · exact hused hjid hjE
          · exact hlast hfC j hj (Nat.lt_of_not_le hjid)
        generalize (id / 2 ^ (idrBits * (l + 1)) + 1) * 2 ^ (idrBits * (l + 1)) = E
          at hE hidE hEC hstep hseen
        have hdec : (f - E) * (L + 1) + (L + 1) ≤ (f - id) * (L + 1) := by
          rw [← Nat.succ_mul]
          exact Nat.mul_le_mul_right _ (by omega)
        by_cases hsame : id / 2 ^ (idrBits * (l + 1 + 1)) = E / 2 ^ (idrBits * (l + 1 + 1))
        · obtain ⟨r, free', hrun, hrest⟩ := ih ((f - E) * (L + 1) + (l + 1)) (by omega) hwf'
            (hpath.congr hsame.symm) rfl hEC hE hfree (fun j hj => hleast j (by omega))
            (fun hfC j hj hjE => hseen j hj hjE hfC) (.inr hfull') hclean rfl
          refine ⟨r, free', fun fuel hlt => ?_, hrest⟩
          obtain ⟨k, rfl⟩ := hfuel fuel hlt
          rw [hstep, if_pos hsame]
          exact hrun k (by omega)
        have htopwf :
            WellFormed L (plug [] (plug path (g.plug (.layer bitmap ary count l)))) := hwf
        have htop : Shape E L L ([] : List (Frame α)) := rfl
        obtain ⟨r, free', hrun, hrest⟩ := ih ((f - E) * (L + 1) + L) (by omega)
          htopwf htop hwf'.isNull hEC hE hfree (fun j hj => hleast j (by omega))
          (fun hfC j hj hjE => hseen j hj hjE hfC) (.inl rfl) hclean rfl
        refine ⟨r, free', fun fuel hlt => ?_, hrest⟩
        obtain ⟨k, rfl⟩ := hfuel fuel hlt
        rw [hstep, if_neg hsame]
        exact hrun k (by omega)
    have hmlt := Nat.lt_of_le_of_ne hlt hm
    have hmclear := hclear hmlt
    obtain ⟨hslot1, hblock1, hid1, hskip⟩ := nextId_spec hmlt hge
    have hstep (k : Nat) := subAllocLoop_step (L + 1) k ary count l path free hm
    dsimp only at hstep
    generalize nextId l id (bitmap.findNextZeroBit idrSize (slot l id)) = i
      at hslot1 hblock1 hid1 hskip hstep
    generalize bitmap.findNextZeroBit idrSize (slot l id) = m
      at hmlt hmclear hslot1 hskip hstep hpassed
    have hiC : i < 2 ^ (idrBits * (L + 1)) := by
      have htop := div_eq_of_div_eq (Nat.succ_le_succ hshape.le) hblock1
      rw [Nat.div_eq_of_lt hid] at htop
      exact (Nat.div_eq_zero_iff_lt (Nat.two_pow_pos _)).1 htop
    have hskipped {j : Nat} (hj : id ≤ j) (hji : j < i) :
        used L (plug path (.layer bitmap ary count l)) j = true := by
      obtain ⟨hblock, hlt⟩ := hskip j hj hji
      exact hpassed hj hblock hlt
    have hif : i ≤ f := by
      by_contra hcon
      have hfused := hskipped hle (Nat.lt_of_not_le hcon)
      rw [hfree (by omega)] at hfused
      cases hfused
    have hseen : f = 2 ^ (idrBits * (L + 1)) →
        ∀ j, 2 ^ (idrBits * (L + 1)) - 2 ^ (idrBits * L) ≤ j → j < i →
          used L (plug path (.layer bitmap ary count l)) j = true := by
      intro hfC j hj hji
      by_cases hjid : id ≤ j
      · exact hskipped hjid hji
      · exact hlast hfC j hj (Nat.lt_of_not_le hjid)
    have hshape1 := hshape.congr hblock1
    simp only [if_neg (show ¬ maxIdBit ≤ i by omega)] at hstep
    cases l with
    | zero =>
      have hifree : used L (plug path (.layer bitmap ary count 0)) i = false := by
        rw [hshape1.used_eq rfl]
        unfold used
        rw [hslot1, hmclear]
      have hieq : i = f := by
        refine Nat.le_antisymm hif (Nat.le_of_not_lt fun hlt => ?_)
        rw [hleast i hid1 hlt] at hifree
        cases hifree
      subst hieq
      refine ⟨.found (.layer bitmap ary count 0) path i, free, fun fuel hlt => ?_, hclean, rfl,
        hiC, hshape1, rfl, hwf, Agree.refl _ _⟩
      obtain ⟨k, rfl⟩ := hfuel fuel hlt
      exact hstep k
    | succ l =>
      have hdec : (f - i) * (L + 1) ≤ (f - id) * (L + 1) :=
        Nat.mul_le_mul_right _ (by omega)
      cases hnull : (ary m).isNull with
      | true =>
        simp only [hnull, if_true] at hstep
        cases hget : getFromFreeList free with
        | none =>
          simp only [hget] at hstep
          refine ⟨.noMemory (plug path (.layer bitmap ary count (l + 1))), free,
            fun fuel hlt => ?_, hclean, hwf, Agree.refl _ _⟩
          obtain ⟨k, rfl⟩ := hfuel fuel hlt
          exact hstep k
        | some taken =>
          obtain ⟨new, free1⟩ := taken
          simp only [hget] at hstep
          obtain ⟨⟨level, rfl⟩, hclean1⟩ := getFromFreeList_spec hclean hget
          obtain ⟨hwf1, hagree⟩ := hshape1.addLayer hiC hwf hmlt hnull rfl
          have hshape2 : Shape i L l (⟨bitmap, ary, count + 1, l + 1, m⟩ :: path) :=
            ⟨hslot1.symm, hshape1⟩
          obtain ⟨r, free', hrun, hclean', hfinds⟩ := ih ((f - i) * (L + 1) + l)
            (by omega) hwf1 hshape2 rfl hiC hif
            (fun hfC => (hagree.used f hfC).trans (hfree hfC))
            (fun j hj hjf => (hagree.used j (by omega)).trans (hleast j (by omega) hjf))
            (fun hfC j hj hji => (hagree.used j (by omega)).trans (hseen hfC j hj hji))
            (.inr isFull_zero) hclean1 rfl
          refine ⟨r, free', fun fuel hlt => ?_, hclean', hfinds.agree hagree⟩
          obtain ⟨k, rfl⟩ := hfuel fuel hlt
          rw [hstep]
          exact hrun k (by omega)
      | false =>
        simp only [hnull, Bool.false_eq_true, if_false] at hstep
        obtain ⟨hchild, hbit⟩ := hpw.2.2 m hmlt
        have hsame : plug (⟨bitmap, ary, count, l + 1, m⟩ :: path) (ary m) =
            plug path (.layer bitmap ary count (l + 1)) := by
          change plug path (.layer bitmap (Function.update ary m (ary m)) count (l + 1)) = _
          rw [Function.update_eq_self]
        have hshape2 : Shape i L l (⟨bitmap, ary, count, l + 1, m⟩ :: path) :=
          ⟨hslot1.symm, hshape1⟩
        rw [← hsame] at hwf hfree hleast hseen ⊢
        obtain ⟨r, free', hrun, hrest⟩ := ih ((f - i) * (L + 1) + l) (by omega) hwf hshape2
          hnull hiC hif hfree (fun j hj => hleast j (by omega)) hseen
          (.inr (hbit.symm.trans hmclear)) hclean rfl
        refine ⟨r, free', fun fuel hlt => ?_, hrest⟩
        obtain ⟨k, rfl⟩ := hfuel fuel hlt
        rw [hstep]
        exact hrun k (by omega)

end AndroidKernel.Idr
