import AndroidKernel.Ebitmap.Model

/-!
# Lists of nodes

What `ebitmap_node_set_bit` and the others do to the bits of a node, and what `ebitmap_set_bit` does
to the bits of the list. `Canonical` is what it keeps of the list.
-/

namespace AndroidKernel.Ebitmap

open Library

theorem ebitmapSize_eq : ebitmapSize = 192 := rfl

/-! ## Words -/

theorem getLsbD_mask {x : BitVec 32} {k : Nat} (hk : k < 32) :
    (x &&& 1#32 <<< k != 0#32) = x.getLsbD k := by
  rw [← BitVec.twoPow_eq, BitVec.and_twoPow]
  split_ifs with h
  · rw [h, bne_iff_ne]
    intro hzero
    have hbit := congrArg (·.getLsbD k) hzero
    simp [hk] at hbit
  · rw [Bool.eq_false_iff.mpr h]
    rfl

theorem getLsbD_or_mask {x : BitVec 32} {k j : Nat} (hj : j < 32) :
    (x ||| 1#32 <<< k).getLsbD j = if j = k then true else x.getLsbD j := by
  rw [← BitVec.twoPow_eq, BitVec.getLsbD_or, BitVec.getLsbD_twoPow]
  by_cases h : j = k
  · simp [h, h ▸ hj]
  · simp [h, Ne.symm h]

theorem getLsbD_and_not_mask {x : BitVec 32} {k j : Nat} (hj : j < 32) :
    (x &&& ~~~ (1#32 <<< k)).getLsbD j = if j = k then false else x.getLsbD j := by
  rw [← BitVec.twoPow_eq, BitVec.getLsbD_and, BitVec.getLsbD_not, BitVec.getLsbD_twoPow]
  by_cases h : j = k
  · simp [h, h ▸ hj]
  · simp [h, Ne.symm h, hj]

/-! ## Nodes -/

namespace EbitmapNode

variable {n m : EbitmapNode} {bit i : Nat}

theorem bit_of_le (h : ebitmapSize ≤ i) : n.bit i = false := by
  rw [EbitmapNode.bit, dif_neg]
  rw [ebitmapSize_eq] at h
  show ¬ i / 32 < 6
  omega

theorem getBit_eq (h : n.index bit < ebitmapUnitNums) :
    n.getBit bit h = n.bit (bit - n.startbit) := by
  have hbit : n.bit (bit - n.startbit) = (n.maps ⟨n.index bit, h⟩).getLsbD (n.offset bit) :=
    dif_pos h
  rw [hbit]
  exact getLsbD_mask (Nat.mod_lt _ (by decide))

/-- Two numbers with the same word and the same place in it. -/
theorem eq_of_div_mod {i j : Nat} (hdiv : i / ebitmapUnitSize = j / ebitmapUnitSize)
    (hmod : i % ebitmapUnitSize = j % ebitmapUnitSize) : i = j := by
  rw [← Nat.div_add_mod i ebitmapUnitSize, hdiv, hmod, Nat.div_add_mod]

theorem bit_update {w : BitVec 32} {f : Bool → Bool} (h : n.index bit < ebitmapUnitNums)
    (hw : ∀ j < 32, w.getLsbD j =
      if j = n.offset bit then f ((n.maps ⟨n.index bit, h⟩).getLsbD j)
      else (n.maps ⟨n.index bit, h⟩).getLsbD j) :
    EbitmapNode.bit { n with maps := Function.update n.maps ⟨n.index bit, h⟩ w } i =
      if i = bit - n.startbit then f (n.bit i) else n.bit i := by
  unfold EbitmapNode.bit
  by_cases hi : i / ebitmapUnitSize < ebitmapUnitNums
  · rw [dif_pos hi, dif_pos hi]
    have hlt : i % ebitmapUnitSize < 32 := Nat.mod_lt i (by decide)
    by_cases hdiv : i / ebitmapUnitSize = n.index bit
    · have hfin : (⟨i / ebitmapUnitSize, hi⟩ : Fin ebitmapUnitNums) = ⟨n.index bit, h⟩ :=
        Fin.ext hdiv
      rw [hfin]
      dsimp only
      rw [Function.update_self, hw _ hlt]
      by_cases hmod : i % ebitmapUnitSize = n.offset bit
      · rw [if_pos hmod, if_pos (eq_of_div_mod hdiv hmod)]
      · rw [if_neg hmod, if_neg]
        rintro rfl
        exact hmod rfl
    · have hfin : (⟨i / ebitmapUnitSize, hi⟩ : Fin ebitmapUnitNums) ≠ ⟨n.index bit, h⟩ :=
        fun heq => hdiv (congrArg Fin.val heq)
      dsimp only
      rw [Function.update_of_ne hfin, if_neg]
      rintro rfl
      exact hdiv rfl
  · rw [dif_neg hi, dif_neg hi, if_neg]
    rintro rfl
    exact hi h

theorem setBit_bit (h : n.index bit < ebitmapUnitNums) :
    (n.setBit bit h).bit i = if i = bit - n.startbit then true else n.bit i :=
  @bit_update n bit i _ (fun _ => true) h fun _ hj => getLsbD_or_mask hj

theorem clrBit_bit (h : n.index bit < ebitmapUnitNums) :
    (n.clrBit bit h).bit i = if i = bit - n.startbit then false else n.bit i :=
  @bit_update n bit i _ (fun _ => false) h fun _ hj => getLsbD_and_not_mask hj

theorem zeroed_bit : (zeroed bit).bit i = false := by
  unfold EbitmapNode.bit zeroed
  split_ifs
  · exact BitVec.getLsbD_zero
  · rfl

theorem bit_at (k : Fin ebitmapUnitNums) {j : Nat} (hj : j < 32) :
    n.bit (32 * k.val + j) = (n.maps k).getLsbD j := by
  have hdiv : (32 * k.val + j) / ebitmapUnitSize = k.val := by
    show (32 * k.val + j) / 32 = k.val
    omega
  have hmod : (32 * k.val + j) % ebitmapUnitSize = j := by
    show (32 * k.val + j) % 32 = j
    omega
  have hk : (32 * k.val + j) / ebitmapUnitSize < ebitmapUnitNums := by
    rw [hdiv]
    exact k.isLt
  have hfin : (⟨(32 * k.val + j) / ebitmapUnitSize, hk⟩ : Fin ebitmapUnitNums) = k := Fin.ext hdiv
  unfold EbitmapNode.bit
  rw [dif_pos hk, hmod, hfin]

/-- A node is its maps and its place. -/
theorem eq_of_bit (hstart : n.startbit = m.startbit) (hbit : ∀ i, n.bit i = m.bit i) : n = m := by
  obtain ⟨maps, start⟩ := n
  obtain ⟨maps', start'⟩ := m
  obtain rfl : start = start' := hstart
  refine congrArg (EbitmapNode.mk · start) (funext fun k => ?_)
  refine BitVec.eq_of_getLsbD_eq fun j hj => ?_
  have hsame := hbit (32 * k.val + j)
  rw [bit_at k hj, bit_at k hj] at hsame
  exact hsame

/-- Some bit of the node is set. -/
def Occupied (n : EbitmapNode) : Prop :=
  ∃ i < ebitmapSize, n.bit i = true

/-- `find_first_bit` finds a bit in the nodes that are kept. -/
theorem findFirstBit_lt_iff : n.findFirstBit < ebitmapSize ↔ n.Occupied := by
  obtain ⟨_, _, hfound, hpassed⟩ :=
    @Bitmap.findNextZeroBit_spec (fun i => !n.bit i) ebitmapSize 0 (Nat.zero_le _)
  constructor
  · intro hlt
    exact ⟨n.findFirstBit, hlt, Bool.not_eq_eq_eq_not.mp (hfound hlt)⟩
  · rintro ⟨i, hi, hbit⟩
    by_contra hno
    have hclear := hpassed i (Nat.zero_le i) (Nat.lt_of_lt_of_le hi (Nat.not_lt.mp hno))
    rw [hbit] at hclear
    cases hclear

end EbitmapNode

/-! ## Lists -/

/-- The start of the node that a bit belongs to. -/
def nodeStart (bit : Nat) : Nat :=
  bit - bit % ebitmapSize

/-- The bit is set in some node. -/
def Has (nodes : List EbitmapNode) (bit : Nat) : Prop :=
  ∃ n ∈ nodes, n.startbit = nodeStart bit ∧ n.bit (bit % ebitmapSize) = true

/-- A node in its place, with some bit set. -/
structure NodeOk (n : EbitmapNode) : Prop where
  aligned : n.startbit % ebitmapSize = 0
  bounded : n.startbit + ebitmapSize < word
  occupied : n.Occupied

/-- Nodes in order, none of them empty. -/
structure Canonical (nodes : List EbitmapNode) : Prop where
  sorted : nodes.Pairwise fun n m => n.startbit < m.startbit
  ok : ∀ n ∈ nodes, NodeOk n

/-- The end of the last node, or of the one before the list. -/
def endOf : Option EbitmapNode → List EbitmapNode → Nat
  | none, [] => 0
  | some prev, [] => prev.startbit + ebitmapSize
  | _, n :: next => endOf (some n) next

variable {n : EbitmapNode} {next nodes : List EbitmapNode} {bit b : Nat}

theorem endOf_cons (prev : Option EbitmapNode) : endOf prev (n :: next) = endOf (some n) next := by
  cases prev with
  | none => rfl
  | some prev => rfl

theorem NodeOk.end_eq (h : NodeOk n) : wadd n.startbit ebitmapSize = n.startbit + ebitmapSize :=
  wadd_eq h.bounded

/-- The bits of a node. -/
theorem NodeOk.start_eq_iff (h : NodeOk n) :
    n.startbit = nodeStart b ↔ n.startbit ≤ b ∧ b < n.startbit + ebitmapSize := by
  have haligned := h.aligned
  rw [nodeStart]
  rw [ebitmapSize_eq] at *
  omega

theorem canonical_nil : Canonical [] :=
  ⟨.nil, nofun⟩

theorem canonical_cons :
    Canonical (n :: next) ↔
      NodeOk n ∧ (∀ m ∈ next, n.startbit < m.startbit) ∧ Canonical next := by
  constructor
  · rintro ⟨hsorted, hok⟩
    obtain ⟨hlt, hsorted⟩ := List.pairwise_cons.mp hsorted
    obtain ⟨hn, hok⟩ := List.forall_mem_cons.mp hok
    exact ⟨hn, hlt, hsorted, hok⟩
  · rintro ⟨hn, hlt, hsorted, hok⟩
    exact ⟨List.pairwise_cons.mpr ⟨hlt, hsorted⟩, List.forall_mem_cons.mpr ⟨hn, hok⟩⟩

theorem not_has_nil : ¬ Has [] b := by
  rintro ⟨n, hn, _⟩
  cases hn

theorem has_cons :
    Has (n :: next) b ↔
      n.startbit = nodeStart b ∧ n.bit (b % ebitmapSize) = true ∨ Has next b := by
  constructor
  · rintro ⟨m, hm, hstart, hbit⟩
    rcases List.mem_cons.mp hm with rfl | hm
    · exact .inl ⟨hstart, hbit⟩
    · exact .inr ⟨m, hm, hstart, hbit⟩
  · rintro (⟨hstart, hbit⟩ | ⟨m, hm, hstart, hbit⟩)
    · exact ⟨n, List.mem_cons_self, hstart, hbit⟩
    · exact ⟨m, List.mem_cons_of_mem _ hm, hstart, hbit⟩

/-- The bits before the end of a node are not behind it. -/
theorem not_has_of_le (hlt : ∀ m ∈ next, n.startbit < m.startbit)
    (hle : nodeStart b ≤ n.startbit) : ¬ Has next b := by
  rintro ⟨m, hm, hstart, _⟩
  have := hlt m hm
  omega

/-- The bits of a node, seen from the list that it heads. -/
theorem has_head (hlt : ∀ m ∈ next, n.startbit < m.startbit) (hstart : n.startbit = nodeStart b) :
    Has (n :: next) b ↔ n.bit (b % ebitmapSize) = true := by
  have hno := not_has_of_le hlt (Nat.le_of_eq hstart.symm)
  rw [has_cons, or_iff_left hno, and_iff_right hstart]

theorem has_tail (hstart : n.startbit ≠ nodeStart b) : Has (n :: next) b ↔ Has next b := by
  rw [has_cons, or_iff_right]
  rintro ⟨h, _⟩
  exact hstart h

theorem sub_eq_mod (hstart : n.startbit = nodeStart b) : b - n.startbit = b % ebitmapSize := by
  rw [hstart]
  exact Nat.sub_sub_self (Nat.mod_le b _)

/-- `ebitmap_get_bit` reads the bits of the list. -/
theorem getBitNodes_iff (h : Canonical nodes) : getBitNodes b nodes = true ↔ Has nodes b := by
  induction nodes with
  | nil =>
    refine ⟨nofun, fun hhas => absurd hhas not_has_nil⟩
  | cons n next ih =>
    obtain ⟨hn, hlt, hnext⟩ := canonical_cons.mp h
    rw [getBitNodes]
    split_ifs with hle hend
    · have hstart : n.startbit = nodeStart b := by
        rw [hn.end_eq] at hend
        exact hn.start_eq_iff.mpr ⟨hle, hend⟩
      rw [EbitmapNode.getBit_eq, sub_eq_mod hstart, has_head hlt hstart]
    · have hstart : n.startbit ≠ nodeStart b := by
        rw [hn.end_eq] at hend
        exact fun heq => hend (hn.start_eq_iff.mp heq).2
      rw [ih hnext, has_tail hstart]
    · refine ⟨nofun, fun hhas => ?_⟩
      have hstart : n.startbit ≠ nodeStart b := fun heq => hle (hn.start_eq_iff.mp heq).1
      rw [has_tail hstart] at hhas
      have hbelow : nodeStart b ≤ n.startbit :=
        Nat.le_trans (Nat.sub_le _ _) (Nat.le_of_not_le hle)
      exact absurd hhas (not_has_of_le hlt hbelow)

/-! ## Writing -/

/-- What `ebitmap_set_bit` makes of the list from some node on. -/
structure SetSpec (bit : Nat) (value : Bool) (prev : Option EbitmapNode)
    (nodes : List EbitmapNode) (result : SetResult) : Prop where
  canonical : Canonical result.nodes
  has : ∀ b, Has result.nodes b ↔
    if result.code = .ok ∧ b = bit then value = true else Has nodes b
  starts : ∀ m ∈ result.nodes, (∃ n ∈ nodes, n.startbit = m.startbit) ∨ m.startbit = nodeStart bit
  highbit : result.highbit.getD (endOf prev nodes) = endOf prev result.nodes

variable {value alloc : Bool} {prev : Option EbitmapNode}

/-- Nothing is to be done, or nothing can be done. -/
theorem SetSpec.unchanged {code : Code} (h : Canonical nodes)
    (hbit : code = .ok → (value = true ↔ Has nodes bit)) :
    SetSpec bit value prev nodes ⟨code, nodes, none⟩ := by
  refine ⟨h, ?_, fun m hm => .inl ⟨m, hm, rfl⟩, rfl⟩
  intro b
  split_ifs with hcase
  · obtain ⟨hcode, rfl⟩ := hcase
    exact (hbit hcode).symm
  · exact Iff.rfl

/-- The list goes on in front of the place of the bit. -/
theorem SetSpec.cons {result : SetResult} (h : Canonical (n :: next))
    (hspec : SetSpec bit value (some n) next result) (hlt : n.startbit < nodeStart bit) :
    SetSpec bit value prev (n :: next) { result with nodes := n :: result.nodes } := by
  obtain ⟨hn, hbelow, _⟩ := canonical_cons.mp h
  refine ⟨canonical_cons.mpr ⟨hn, ?_, hspec.canonical⟩, ?_, ?_, ?_⟩
  · intro m hm
    rcases hspec.starts m hm with ⟨m', hm', hstart⟩ | hstart
    · rw [← hstart]
      exact hbelow m' hm'
    · rw [hstart]
      exact hlt
  · intro b
    by_cases hstart : n.startbit = nodeStart b
    · have hne : b ≠ bit := by
        rintro rfl
        omega
      have hno := not_has_of_le hbelow (Nat.le_of_eq hstart.symm)
      have hno' : ¬ Has result.nodes b := by
        rw [hspec.has b, if_neg (fun hc => hne hc.2)]
        exact hno
      rw [if_neg (fun hc => hne hc.2)]
      show Has (n :: result.nodes) b ↔ _
      rw [has_cons, has_cons, or_iff_left hno, or_iff_left hno']
    · show Has (n :: result.nodes) b ↔ _
      rw [has_tail hstart, hspec.has b, has_tail hstart]
  · intro m hm
    rcases List.mem_cons.mp hm with rfl | hm
    · exact .inl ⟨m, List.mem_cons_self, rfl⟩
    · rcases hspec.starts m hm with ⟨m', hm', hstart⟩ | hstart
      · exact .inl ⟨m', List.mem_cons_of_mem _ hm', hstart⟩
      · exact .inr hstart
  · rw [endOf_cons, endOf_cons]
    exact hspec.highbit

/-- A bit of the first node is written, and the node stays. -/
theorem SetSpec.write {n' : EbitmapNode} (h : Canonical (n :: next))
    (hstart : n.startbit = nodeStart bit) (hsame : n'.startbit = n.startbit)
    (hbit : ∀ i, n'.bit i = if i = bit - n.startbit then value else n.bit i)
    (hoccupied : n'.Occupied) : SetSpec bit value prev (n :: next) ⟨.ok, n' :: next, none⟩ := by
  obtain ⟨hn, hbelow, hnext⟩ := canonical_cons.mp h
  have hbelow' : ∀ m ∈ next, n'.startbit < m.startbit := by
    rw [hsame]
    exact hbelow
  refine ⟨canonical_cons.mpr ⟨⟨?_, ?_, hoccupied⟩, hbelow', hnext⟩, ?_, ?_, ?_⟩
  · rw [hsame]
    exact hn.aligned
  · rw [hsame]
    exact hn.bounded
  · intro b
    by_cases hb : n.startbit = nodeStart b
    · rw [has_head hbelow' (hsame.trans hb), has_head hbelow hb, hbit, sub_eq_mod hstart]
      have hiff : b % ebitmapSize = bit % ebitmapSize ↔ b = bit := by
        rw [nodeStart] at hb hstart
        have := Nat.mod_le b ebitmapSize
        have := Nat.mod_le bit ebitmapSize
        omega
      by_cases hcase : b = bit
      · rw [if_pos (hiff.mpr hcase), if_pos ⟨rfl, hcase⟩]
      · rw [if_neg (fun hc => hcase (hiff.mp hc)), if_neg (fun hc => hcase hc.2)]
    · have hne : b ≠ bit := by
        rintro rfl
        exact hb hstart
      rw [has_tail (fun hc => hb (hsame.symm.trans hc)), has_tail hb, if_neg (fun hc => hne hc.2)]
  · intro m hm
    rcases List.mem_cons.mp hm with rfl | hm
    · exact .inl ⟨n, List.mem_cons_self, hsame.symm⟩
    · exact .inl ⟨m, List.mem_cons_of_mem _ hm, rfl⟩
  · show endOf prev (n :: next) = endOf prev (n' :: next)
    rw [endOf_cons, endOf_cons]
    cases next with
    | nil => exact congrArg (· + ebitmapSize) hsame.symm
    | cons m next => rfl

/-- The last bit of the first node is cleared, and the node is dropped. -/
theorem SetSpec.drop (h : Canonical (n :: next)) (hstart : n.startbit = nodeStart bit)
    (hclear : ∀ i < ebitmapSize, i ≠ bit - n.startbit → n.bit i = false)
    (hprev : ∀ p, prev = some p → NodeOk p) :
    SetSpec bit false prev (n :: next)
      ⟨.ok, next, if next.isEmpty then some (highbitBefore prev) else none⟩ := by
  obtain ⟨hn, hbelow, hnext⟩ := canonical_cons.mp h
  refine ⟨hnext, ?_, fun m hm => .inl ⟨m, List.mem_cons_of_mem _ hm, rfl⟩, ?_⟩
  · intro b
    by_cases hb : n.startbit = nodeStart b
    · have hno : ¬ Has next b := not_has_of_le hbelow (Nat.le_of_eq hb.symm)
      rw [iff_false_left hno]
      by_cases hcase : b = bit
      · rw [if_pos ⟨rfl, hcase⟩]
        exact Bool.false_ne_true
      rw [if_neg (fun hc => hcase hc.2), has_head hbelow hb]
      have hlt : b % ebitmapSize < ebitmapSize := Nat.mod_lt b (by decide)
      have hne : b % ebitmapSize ≠ bit - n.startbit := by
        rw [sub_eq_mod hstart]
        rw [nodeStart] at hb hstart
        have := Nat.mod_le b ebitmapSize
        have := Nat.mod_le bit ebitmapSize
        omega
      rw [hclear _ hlt hne]
      exact Bool.false_ne_true
    · have hne : b ≠ bit := by
        rintro rfl
        exact hb hstart
      refine Iff.trans ?_ (if_neg (fun hc => hne hc.2)).symm.to_iff
      exact (has_tail hb).symm
  cases next with
  | nil =>
    cases prev with
    | none => rfl
    | some p => exact (hprev p rfl).end_eq
  | cons m next =>
    show endOf prev (n :: m :: next) = endOf prev (m :: next)
    rw [endOf_cons, endOf_cons, endOf_cons]

/-- The first node is the one of the bit. -/
theorem SetSpec.found {hindex : n.index bit < ebitmapUnitNums} (h : Canonical (n :: next))
    (hstart : n.startbit = nodeStart bit) (hprev : ∀ p, prev = some p → NodeOk p) :
    SetSpec bit value prev (n :: next)
      (if value then ⟨.ok, n.setBit bit hindex :: next, none⟩
      else if (n.clrBit bit hindex).findFirstBit < ebitmapSize then
        ⟨.ok, n.clrBit bit hindex :: next, none⟩
      else ⟨.ok, next, if next.isEmpty then some (highbitBefore prev) else none⟩) := by
  cases value with
  | true =>
    rw [if_pos rfl]
    refine .write h hstart rfl (fun i => EbitmapNode.setBit_bit _) ?_
    refine ⟨bit % ebitmapSize, Nat.mod_lt bit (by decide), ?_⟩
    rw [EbitmapNode.setBit_bit, sub_eq_mod hstart, if_pos rfl]
  | false =>
    rw [if_neg Bool.false_ne_true]
    by_cases hoccupied : (n.clrBit bit hindex).findFirstBit < ebitmapSize
    · rw [if_pos hoccupied]
      exact .write h hstart rfl (fun i => EbitmapNode.clrBit_bit _)
        (EbitmapNode.findFirstBit_lt_iff.mp hoccupied)
    · rw [if_neg hoccupied]
      refine .drop h hstart ?_ hprev
      intro i hi hne
      by_contra hbit
      refine hoccupied (EbitmapNode.findFirstBit_lt_iff.mpr ⟨i, hi, ?_⟩)
      rw [EbitmapNode.clrBit_bit, if_neg hne]
      exact (Bool.not_eq_false _).mp hbit

/-- A new node is inserted in front of the list. -/
theorem SetSpec.insert (h : Canonical nodes) (hvalid : bit < word - 2 * ebitmapSize)
    (hbelow : ∀ m ∈ nodes, bit < m.startbit) :
    SetSpec bit value prev nodes (insertNode bit value alloc nodes) := by
  have hno : ∀ b, nodeStart b ≤ bit → ¬ Has nodes b := by
    rintro b hle ⟨m, hm, hstart, _⟩
    have := hbelow m hm
    omega
  have hstart_le : nodeStart bit ≤ bit := Nat.sub_le _ _
  rw [insertNode]
  by_cases hvalue : value = false
  · rw [if_pos hvalue]
    refine .unchanged h fun _ => ?_
    rw [hvalue]
    exact ⟨nofun, fun hhas => absurd hhas (hno bit hstart_le)⟩
  by_cases halloc : alloc = false
  · rw [if_neg hvalue, if_pos halloc]
    exact .unchanged h nofun
  rw [if_neg hvalue, if_neg halloc]
  dsimp only
  have hvalue := (Bool.not_eq_false _).mp hvalue
  have hbit : ∀ i, ((EbitmapNode.zeroed bit).setBit bit (EbitmapNode.zeroed_index_lt bit)).bit i =
      decide (i = bit % ebitmapSize) := by
    intro i
    rw [EbitmapNode.setBit_bit, @sub_eq_mod (EbitmapNode.zeroed bit) bit rfl,
      EbitmapNode.zeroed_bit]
    by_cases hi : i = bit % ebitmapSize
    · rw [if_pos hi, decide_eq_true hi]
    · rw [if_neg hi, decide_eq_false hi]
  generalize hnew : (EbitmapNode.zeroed bit).setBit bit (EbitmapNode.zeroed_index_lt bit) = new
    at hbit ⊢
  have hstart : new.startbit = nodeStart bit := by
    rw [← hnew]
    rfl
  have hlt : ∀ m ∈ nodes, new.startbit < m.startbit := by
    intro m hm
    rw [hstart]
    exact Nat.lt_of_le_of_lt hstart_le (hbelow m hm)
  have hok : NodeOk new := by
    refine ⟨?_, ?_, bit % ebitmapSize, Nat.mod_lt bit (by decide), ?_⟩
    · rw [hstart, nodeStart, ebitmapSize_eq]
      omega
    · rw [hstart]
      rw [ebitmapSize_eq] at hvalid ⊢
      omega
    · rw [hbit, decide_eq_true rfl]
  refine ⟨canonical_cons.mpr ⟨hok, hlt, h⟩, ?_, ?_, ?_⟩
  · intro b
    by_cases hb : new.startbit = nodeStart b
    · show Has (new :: nodes) b ↔ _
      rw [has_head hlt hb, hbit, decide_eq_true_iff]
      by_cases hcase : b = bit
      · rw [if_pos ⟨rfl, hcase⟩, hcase]
        exact ⟨fun _ => hvalue, fun _ => rfl⟩
      rw [if_neg (fun hc => hcase hc.2)]
      refine ⟨fun hmod => ?_, fun hhas => ?_⟩
      · rw [hstart, nodeStart, nodeStart] at hb
        have := Nat.mod_le b ebitmapSize
        have := Nat.mod_le bit ebitmapSize
        omega
      · refine absurd hhas (hno b ?_)
        rw [← hb, hstart]
        exact hstart_le
    · have hne : b ≠ bit := by
        rintro rfl
        exact hb hstart
      show Has (new :: nodes) b ↔ _
      rw [has_tail hb, if_neg (fun hc => hne hc.2)]
  · intro m hm
    rcases List.mem_cons.mp hm with rfl | hm
    · exact .inr hstart
    · exact .inl ⟨m, hm, rfl⟩
  · show Option.getD _ _ = endOf prev (new :: nodes)
    rw [endOf_cons]
    cases nodes with
    | nil => exact hok.end_eq
    | cons m rest =>
      show endOf prev (m :: rest) = endOf (some new) (m :: rest)
      rw [endOf_cons, endOf_cons]

/-- `ebitmap_set_bit` writes the bit in the list from any node on, or leaves it. -/
theorem setBitNodes_spec (h : Canonical nodes) (hvalid : bit < word - 2 * ebitmapSize)
    (hprev : ∀ p, prev = some p → NodeOk p) :
    SetSpec bit value prev nodes (setBitNodes bit value alloc prev nodes) := by
  induction nodes generalizing prev with
  | nil =>
    rw [setBitNodes]
    exact .insert h hvalid nofun
  | cons n next ih =>
    obtain ⟨hn, hbelow, hnext⟩ := canonical_cons.mp h
    rw [setBitNodes]
    by_cases hle : n.startbit ≤ bit
    · rw [if_pos hle]
      by_cases hend : bit < wadd n.startbit ebitmapSize
      · rw [dif_pos hend]
        rw [hn.end_eq] at hend
        exact .found h (hn.start_eq_iff.mpr ⟨hle, hend⟩) hprev
      rw [dif_neg hend]
      rw [hn.end_eq] at hend
      refine .cons h (ih hnext ?_) ?_
      · rintro p ⟨rfl⟩
        exact hn
      · have haligned := hn.aligned
        rw [nodeStart]
        rw [ebitmapSize_eq] at *
        omega
    · rw [if_neg hle]
      refine .insert h hvalid ?_
      intro m hm
      have hlt := Nat.lt_of_not_le hle
      rcases List.mem_cons.mp hm with rfl | hm
      · exact hlt
      · exact Nat.lt_trans hlt (hbelow m hm)

end AndroidKernel.Ebitmap
