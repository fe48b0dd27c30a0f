import AndroidKernel.Ebitmap.Nodes

/-!
# Sets of bits

Read `ebitmap_refines_set` first: whatever calls of `ebitmap_set_bit` made them, two bitmaps are
equal to `ebitmap_cmp` if they have the same bits, and `ebitmap_contains` is inclusion.
-/

namespace AndroidKernel.Ebitmap

open Library

variable {n n₁ n₂ : EbitmapNode} {nodes nodes₁ nodes₂ next next₁ next₂ : List EbitmapNode}

/-! ## Bits of canonical lists -/

/-- The number of a bit of a node. -/
theorem NodeOk.place (h : NodeOk n) {i : Nat} (hi : i < ebitmapSize) :
    nodeStart (n.startbit + i) = n.startbit ∧ (n.startbit + i) % ebitmapSize = i := by
  have haligned := h.aligned
  rw [nodeStart]
  rw [ebitmapSize_eq] at *
  omega

theorem has_head_add (h : Canonical (n :: next)) {i : Nat} (hi : i < ebitmapSize) :
    Has (n :: next) (n.startbit + i) ↔ n.bit i = true := by
  obtain ⟨hn, hlt, _⟩ := canonical_cons.mp h
  obtain ⟨hstart, hmod⟩ := hn.place hi
  rw [has_head hlt hstart.symm, hmod]

/-- Bits are not behind the end. -/
theorem startbit_add_le (prev : Option EbitmapNode) (h : Canonical nodes) (hmem : n ∈ nodes) :
    n.startbit + ebitmapSize ≤ endOf prev nodes := by
  induction nodes generalizing prev n with
  | nil => cases hmem
  | cons m next ih =>
    obtain ⟨_, hlt, hnext⟩ := canonical_cons.mp h
    rw [endOf_cons]
    rcases List.mem_cons.mp hmem with rfl | hmem
    · cases next with
      | nil => exact Nat.le_refl _
      | cons m next =>
        have := hlt m List.mem_cons_self
        have := ih (some n) hnext (n := m) List.mem_cons_self
        omega
    · exact ih (some m) hnext hmem

/-- The end is the end of a node. -/
theorem exists_has_end (prev : Option EbitmapNode) (h : Canonical (n :: next)) :
    ∃ b, Has (n :: next) b ∧ nodeStart b + ebitmapSize = endOf prev (n :: next) := by
  induction next generalizing prev n with
  | nil =>
    obtain ⟨hn, _⟩ := canonical_cons.mp h
    obtain ⟨i, hi, hbit⟩ := hn.occupied
    refine ⟨n.startbit + i, (has_head_add h hi).mpr hbit, ?_⟩
    rw [(hn.place hi).1, endOf_cons]
    rfl
  | cons m next ih =>
    obtain ⟨_, _, hnext⟩ := canonical_cons.mp h
    obtain ⟨b, hhas, hend⟩ := ih (some n) hnext
    refine ⟨b, has_cons.mpr (.inr hhas), ?_⟩
    rw [endOf_cons]
    exact hend

/-- If one list has all the bits of the other, its end is not lower. -/
theorem endOf_le (h₁ : Canonical nodes₁) (h₂ : Canonical nodes₂)
    (hsub : ∀ b, Has nodes₂ b → Has nodes₁ b) : endOf none nodes₂ ≤ endOf none nodes₁ := by
  cases nodes₂ with
  | nil => exact Nat.zero_le _
  | cons n next =>
    obtain ⟨b, hhas, hend⟩ := exists_has_end none h₂
    obtain ⟨m, hm, hstart, _⟩ := hsub b hhas
    have hle := startbit_add_le none h₁ hm
    rw [← hend, ← hstart]
    exact hle

/-- The first nodes of lists with the same bits start at the same place. -/
theorem startbit_le_of_has (h₁ : Canonical (n₁ :: next₁)) (h₂ : Canonical (n₂ :: next₂))
    (hsub : ∀ b, Has (n₂ :: next₂) b → Has (n₁ :: next₁) b) : n₁.startbit ≤ n₂.startbit := by
  obtain ⟨hn₂, _⟩ := canonical_cons.mp h₂
  obtain ⟨_, hlt, _⟩ := canonical_cons.mp h₁
  obtain ⟨i, hi, hbit⟩ := hn₂.occupied
  obtain ⟨m, hm, hstart, _⟩ := hsub _ ((has_head_add h₂ hi).mpr hbit)
  rw [(hn₂.place hi).1] at hstart
  rcases List.mem_cons.mp hm with rfl | hm
  · exact Nat.le_of_eq hstart
  · have := hlt m hm
    omega

/-- Inclusion, node by node. -/
theorem has_sub_iff (h₁ : Canonical (n₁ :: next₁)) (h₂ : Canonical (n₂ :: next₂))
    (hstart : n₁.startbit = n₂.startbit) :
    (∀ b, Has (n₂ :: next₂) b → Has (n₁ :: next₁) b) ↔
      (∀ i < ebitmapSize, n₂.bit i = true → n₁.bit i = true) ∧
        ∀ b, Has next₂ b → Has next₁ b := by
  obtain ⟨_, hlt₁, _⟩ := canonical_cons.mp h₁
  obtain ⟨_, hlt₂, _⟩ := canonical_cons.mp h₂
  constructor
  · intro hsub
    refine ⟨fun i hi hbit => ?_, fun b hhas => ?_⟩
    · have hhas := hsub _ ((has_head_add h₂ hi).mpr hbit)
      rw [← hstart] at hhas
      exact (has_head_add h₁ hi).mp hhas
    · have hne : n₂.startbit ≠ nodeStart b :=
        fun heq => not_has_of_le hlt₂ (Nat.le_of_eq heq.symm) hhas
      have hne' : n₁.startbit ≠ nodeStart b := fun heq => hne (hstart.symm.trans heq)
      exact (has_tail hne').mp (hsub b ((has_tail hne).mpr hhas))
  · rintro ⟨hhead, htail⟩ b hhas
    by_cases hb : n₂.startbit = nodeStart b
    · have hbit := (has_head hlt₂ hb).mp hhas
      exact (has_head hlt₁ (hstart.trans hb)).mpr (hhead _ (Nat.mod_lt b (by decide)) hbit)
    · have hb' : n₁.startbit ≠ nodeStart b := fun heq => hb (hstart.symm.trans heq)
      exact (has_tail hb').mpr (htail b ((has_tail hb).mp hhas))

/-- The list is determined by its bits. -/
theorem eq_of_has (h₁ : Canonical nodes₁) (h₂ : Canonical nodes₂)
    (hiff : ∀ b, Has nodes₁ b ↔ Has nodes₂ b) : nodes₁ = nodes₂ := by
  induction nodes₁ generalizing nodes₂ with
  | nil =>
    cases nodes₂ with
    | nil => rfl
    | cons n₂ next₂ =>
      obtain ⟨b, hhas, _⟩ := exists_has_end none h₂
      exact absurd ((hiff b).mpr hhas) not_has_nil
  | cons n₁ next₁ ih =>
    cases nodes₂ with
    | nil =>
      obtain ⟨b, hhas, _⟩ := exists_has_end none h₁
      exact absurd ((hiff b).mp hhas) not_has_nil
    | cons n₂ next₂ =>
      have hstart : n₁.startbit = n₂.startbit :=
        Nat.le_antisymm (startbit_le_of_has h₁ h₂ fun b => (hiff b).mpr)
          (startbit_le_of_has h₂ h₁ fun b => (hiff b).mp)
      obtain ⟨hbits₁, htail₁⟩ := (has_sub_iff h₁ h₂ hstart).mp fun b => (hiff b).mpr
      obtain ⟨hbits₂, htail₂⟩ := (has_sub_iff h₂ h₁ hstart.symm).mp fun b => (hiff b).mp
      have hnode : n₁ = n₂ := by
        refine EbitmapNode.eq_of_bit hstart fun i => ?_
        by_cases hi : i < ebitmapSize
        · exact Bool.eq_iff_iff.mpr ⟨hbits₂ i hi, hbits₁ i hi⟩
        · rw [EbitmapNode.bit_of_le (Nat.not_lt.mp hi),
            EbitmapNode.bit_of_le (Nat.not_lt.mp hi)]
      have hrest := ih (canonical_cons.mp h₁).2.2 (canonical_cons.mp h₂).2.2
        fun b => ⟨htail₂ b, htail₁ b⟩
      rw [hnode, hrest]

/-! ## The comparisons -/

theorem cmpNodes_iff : cmpNodes nodes₁ nodes₂ = true ↔ nodes₁ = nodes₂ := by
  induction nodes₁ generalizing nodes₂ with
  | nil =>
    cases nodes₂ with
    | nil => exact ⟨fun _ => rfl, fun _ => rfl⟩
    | cons n₂ next₂ => exact ⟨nofun, nofun⟩
  | cons n₁ next₁ ih =>
    cases nodes₂ with
    | nil => exact ⟨nofun, nofun⟩
    | cons n₂ next₂ =>
      rw [cmpNodes]
      split_ifs with hsame
      · obtain ⟨maps₁, start₁⟩ := n₁
        obtain ⟨maps₂, start₂⟩ := n₂
        obtain ⟨hstart, hmaps⟩ := hsame
        obtain rfl : start₁ = start₂ := hstart
        obtain rfl : maps₁ = maps₂ := funext hmaps
        rw [ih, List.cons_inj_right]
      · refine ⟨nofun, fun heq => ?_⟩
        obtain ⟨rfl, _⟩ := List.cons.inj heq
        exact absurd ⟨rfl, fun _ => rfl⟩ hsame

theorem maps_and_eq_iff :
    (∀ k, n₁.maps k &&& n₂.maps k = n₂.maps k) ↔
      ∀ i < ebitmapSize, n₂.bit i = true → n₁.bit i = true := by
  constructor
  · intro hmaps i _ hbit
    unfold EbitmapNode.bit at hbit ⊢
    split_ifs at hbit ⊢ with hi
    rw [← hmaps, BitVec.getLsbD_and] at hbit
    exact (Bool.and_eq_true_iff.mp hbit).1
  intro hbits k
  refine BitVec.eq_of_getLsbD_eq fun j hj => ?_
  have hlt : 32 * k.val + j < ebitmapSize := by
    have hk : k.val < 6 := k.isLt
    rw [ebitmapSize_eq]
    omega
  have hbit := hbits _ hlt
  rw [EbitmapNode.bit_at k hj, EbitmapNode.bit_at k hj] at hbit
  rw [BitVec.getLsbD_and]
  cases h₂ : (n₂.maps k).getLsbD j with
  | false => exact Bool.and_false _
  | true => exact Bool.and_eq_true_iff.mpr ⟨hbit h₂, rfl⟩

theorem containsNodes_iff (h₁ : Canonical nodes₁) (h₂ : Canonical nodes₂) :
    containsNodes nodes₁ nodes₂ = true ↔ ∀ b, Has nodes₂ b → Has nodes₁ b := by
  induction nodes₁ generalizing nodes₂ with
  | nil =>
    cases nodes₂ with
    | nil => exact ⟨fun _ _ h => h, fun _ => rfl⟩
    | cons n₂ next₂ =>
      refine ⟨nofun, fun hsub => ?_⟩
      obtain ⟨b, hhas, _⟩ := exists_has_end none h₂
      exact absurd (hsub b hhas) not_has_nil
  | cons n₁ next₁ ih =>
    obtain ⟨_, hlt₁, hnext₁⟩ := canonical_cons.mp h₁
    cases nodes₂ with
    | nil => exact ⟨fun _ _ h => absurd h not_has_nil, fun _ => rfl⟩
    | cons n₂ next₂ =>
      obtain ⟨_, hlt₂, hnext₂⟩ := canonical_cons.mp h₂
      rw [containsNodes]
      split_ifs with hle hlt hmaps
      · rw [ih hnext₁ h₂]
        refine forall_congr' fun b => imp_congr_right fun hhas => ?_
        -- the nodes of the second list all start behind the node that is skipped
        refine (has_tail ?_).symm
        obtain ⟨m, hm, hstart, _⟩ := hhas
        rcases List.mem_cons.mp hm with rfl | hm
        · omega
        · have := hlt₂ m hm
          omega
      · have hstart : n₁.startbit = n₂.startbit := by omega
        rw [ih hnext₁ hnext₂, has_sub_iff h₁ h₂ hstart, ← maps_and_eq_iff]
        exact (and_iff_right hmaps).symm
      · have hstart : n₁.startbit = n₂.startbit := by omega
        rw [has_sub_iff h₁ h₂ hstart, ← maps_and_eq_iff]
        exact ⟨nofun, fun hsub => absurd hsub.1 hmaps⟩
      · exact ⟨nofun, fun hsub => absurd (startbit_le_of_has h₁ h₂ hsub) hle⟩

/-- The list is canonical, and `highbit` is the end of the last node. -/
structure Wellformed (e : Ebitmap) : Prop where
  canonical : Canonical e.nodes
  highbit : e.highbit = endOf none e.nodes

variable {e e₁ e₂ : Ebitmap}

theorem Wellformed.getBit_iff (h : Wellformed e) (b : Nat) :
    ebitmapGetBit e b = true ↔ Has e.nodes b := by
  rw [ebitmapGetBit]
  split_ifs with hlt
  · refine ⟨nofun, fun hhas => ?_⟩
    obtain ⟨n, hn, hstart, _⟩ := hhas
    have hle := startbit_add_le none h.canonical hn
    have hin := ((h.canonical.ok n hn).start_eq_iff.mp hstart).2
    rw [h.highbit] at hlt
    omega
  · exact getBitNodes_iff h.canonical

theorem Wellformed.cmp_iff (h₁ : Wellformed e₁) (h₂ : Wellformed e₂) :
    ebitmapCmp e₁ e₂ = true ↔ ∀ b, ebitmapGetBit e₁ b = ebitmapGetBit e₂ b := by
  have hsame : (∀ b, ebitmapGetBit e₁ b = ebitmapGetBit e₂ b) ↔ e₁.nodes = e₂.nodes := by
    constructor
    · intro hall
      refine eq_of_has h₁.canonical h₂.canonical fun b => ?_
      rw [← h₁.getBit_iff, ← h₂.getBit_iff, hall b]
    · intro heq b
      refine Bool.eq_iff_iff.mpr ?_
      rw [h₁.getBit_iff, h₂.getBit_iff, heq]
  rw [hsame, ebitmapCmp]
  split_ifs with hne
  · refine ⟨nofun, fun heq => absurd ?_ hne⟩
    rw [h₁.highbit, h₂.highbit, heq]
  · exact cmpNodes_iff

theorem Wellformed.contains_iff (h₁ : Wellformed e₁) (h₂ : Wellformed e₂) :
    ebitmapContains e₁ e₂ = true ↔
      ∀ b, ebitmapGetBit e₂ b = true → ebitmapGetBit e₁ b = true := by
  have hsame : (∀ b, ebitmapGetBit e₂ b = true → ebitmapGetBit e₁ b = true) ↔
      ∀ b, Has e₂.nodes b → Has e₁.nodes b := by
    refine forall_congr' fun b => ?_
    rw [h₁.getBit_iff, h₂.getBit_iff]
  rw [hsame, ebitmapContains]
  split_ifs with hlt
  · refine ⟨nofun, fun hsub => ?_⟩
    have hle := endOf_le h₁.canonical h₂.canonical hsub
    rw [h₁.highbit, h₂.highbit] at hlt
    omega
  · exact containsNodes_iff h₁.canonical h₂.canonical

theorem Canonical.disjoint (h : Canonical nodes) :
    nodes.Pairwise fun n m => n.startbit + ebitmapSize ≤ m.startbit := by
  refine (List.Pairwise.and_mem.mp h.sorted).imp ?_
  rintro n m ⟨hn, hm, hlt⟩
  have hn := (h.ok n hn).aligned
  have hm := (h.ok m hm).aligned
  rw [ebitmapSize_eq] at *
  omega

/-! ## Runs -/

/-- What every run keeps: the list is canonical, `highbit` is the end of the last node, and the
bits are those that were written. -/
structure Refines (s : System) : Prop where
  canonical : Canonical s.map.nodes
  highbit : s.map.highbit = endOf none s.map.nodes
  has : ∀ b, Has s.map.nodes b ↔ s.written b = true

variable {s s₁ s₂ : System}

theorem refines_initial : Refines initial :=
  ⟨canonical_nil, rfl, fun _ => ⟨fun h => absurd h not_has_nil, nofun⟩⟩

theorem Refines.step (h : Refines s) {op : Op} (hop : Valid s op) :
    Refines (Ebitmap.step s op) := by
  have hspec : SetSpec op.bit op.value none s.map.nodes
      (setBitNodes op.bit op.value op.alloc none s.map.nodes) :=
    setBitNodes_spec h.canonical hop nofun
  rw [Ebitmap.step, ebitmapSetBit, h.highbit]
  generalize setBitNodes op.bit op.value op.alloc none s.map.nodes = result at hspec ⊢
  obtain ⟨code, nodes, highbit⟩ := result
  cases code with
  | ok =>
    refine ⟨hspec.canonical, hspec.highbit, fun b => ?_⟩
    rw [hspec.has b]
    show _ ↔ Function.update s.written op.bit op.value b = true
    by_cases hb : b = op.bit
    · rw [if_pos ⟨rfl, hb⟩, hb, Function.update_self]
    · rw [if_neg (fun hc => hb hc.2), Function.update_of_ne hb]
      exact h.has b
  | enomem =>
    refine ⟨hspec.canonical, hspec.highbit, fun b => ?_⟩
    rw [hspec.has b, if_neg nofun]
    exact h.has b

theorem Refines.wellformed (h : Refines s) : Wellformed s.map :=
  ⟨h.canonical, h.highbit⟩

/-- `ebitmap_get_bit` returns what was written last. -/
theorem Refines.getBit (h : Refines s) (b : Nat) : ebitmapGetBit s.map b = s.written b := by
  have hiff : ebitmapGetBit s.map b = true ↔ s.written b = true := by
    rw [h.wellformed.getBit_iff, h.has b]
  exact Bool.eq_iff_iff.mpr hiff

theorem Refines.cmp (h₁ : Refines s₁) (h₂ : Refines s₂) :
    ebitmapCmp s₁.map s₂.map = true ↔ ∀ b, s₁.written b = s₂.written b := by
  rw [h₁.wellformed.cmp_iff h₂.wellformed]
  refine forall_congr' fun b => ?_
  rw [h₁.getBit, h₂.getBit]

theorem Refines.contains (h₁ : Refines s₁) (h₂ : Refines s₂) :
    ebitmapContains s₁.map s₂.map = true ↔ ∀ b, s₂.written b = true → s₁.written b = true := by
  rw [h₁.wellformed.contains_iff h₂.wellformed]
  refine forall_congr' fun b => ?_
  rw [h₁.getBit, h₂.getBit]

theorem refines_of_reaches (hrun : Reaches Step Valid initial s) : Refines s := by
  refine hrun.invariant Refines ?_ refines_initial
  rintro s op _ hs hop rfl
  exact hs.step hop

/-- Whatever calls of `ebitmap_set_bit` made them, bitmaps have the bits that were written last,
their nodes are in order, apart and not empty, `highbit` is the end of the last node, and two of
them are compared as sets. -/
theorem ebitmap_refines_set (hrun₁ : Reaches Step Valid initial s₁)
    (hrun₂ : Reaches Step Valid initial s₂) :
    (∀ b, ebitmapGetBit s₁.map b = s₁.written b) ∧
      (s₁.map.nodes.Pairwise fun n m => n.startbit + ebitmapSize ≤ m.startbit) ∧
      (∀ n ∈ s₁.map.nodes, n.Occupied) ∧
      s₁.map.highbit = endOf none s₁.map.nodes ∧
      (ebitmapCmp s₁.map s₂.map = true ↔ ∀ b, s₁.written b = s₂.written b) ∧
      (ebitmapContains s₁.map s₂.map = true ↔
        ∀ b, s₂.written b = true → s₁.written b = true) := by
  have h₁ := refines_of_reaches hrun₁
  have h₂ := refines_of_reaches hrun₂
  exact ⟨h₁.getBit, h₁.canonical.disjoint, fun n hn => (h₁.canonical.ok n hn).occupied,
    h₁.highbit, h₁.cmp h₂, h₁.contains h₂⟩

/-- A bitmap with one bit has all the bits of the empty one. -/
theorem ebitmap_refines_set_one :
    Reaches Step Valid initial (step initial ⟨5, true, true⟩) ∧
      Reaches Step Valid initial initial ∧
      ebitmapContains (step initial ⟨5, true, true⟩).map initial.map = true := by
  have hvalid : Valid initial ⟨5, true, true⟩ := by
    show 5 < 2 ^ 32 - 2 * 192
    omega
  have hrun : Reaches Step Valid initial (step initial ⟨5, true, true⟩) :=
    (Reaches.refl _).tail rfl hvalid
  obtain ⟨_, _, _, _, _, hcontains⟩ := ebitmap_refines_set hrun (.refl initial)
  exact ⟨hrun, .refl initial, hcontains.mpr nofun⟩

/-!
## Reading a bitmap

A model of `ebitmap_read`. The policy file is the list of the bytes that are left; `alloc` says for
each number of nodes whether `kzalloc` succeeds for the next one, and a result `none` stands for a
write outside `n->maps`.
-/

def enomem : Int := 12
def einval : Int := 22

/-- `le32_to_cpu` and `le64_to_cpu`. -/
def leToCpu : List UInt8 → Nat
  | [] => 0
  | b :: bytes => b.toNat + 256 * leToCpu bytes

/-- `next_entry`: the bytes that are read, and the bytes that are left. -/
def nextEntry (bytes : Nat) (data : List UInt8) : Option (List UInt8 × List UInt8) :=
  if data.length < bytes then none else some (data.take bytes, data.drop bytes)

/-- What `ebitmap_read` leaves. -/
structure Read where
  rc : Int
  e : Ebitmap
  data : List UInt8

/-- The end of `ebitmap_read` behind the label `bad`. -/
def bad (rc : Int) (data : List UInt8) : Read where
  rc := if rc = 0 then -einval else rc
  e := ebitmapInit
  data := data

/-- `sizeof(u64) * 8`. -/
def mapunit : Nat := 64

/-- `e->highbit` is rounded up; both steps wrap. -/
def roundHighbit (highbit : Nat) : Nat :=
  let highbit := wadd highbit (ebitmapSize - 1)
  highbit - highbit % ebitmapSize

/-- The loop that writes `map`, with `EBITMAP_SHIFT_UNIT_SIZE`. -/
def storeMap (maps : Fin ebitmapUnitNums → BitVec 32) (index : Nat) (map : BitVec 64) :
    Option (Fin ebitmapUnitNums → BitVec 32) :=
  if map = 0#64 then some maps
  else if h : index < ebitmapUnitNums then
    storeMap (Function.update maps ⟨index, h⟩ (map.setWidth 32)) (index + 1)
      (map >>> (ebitmapUnitSize / 2) >>> (ebitmapUnitSize / 2))
  else none
termination_by ebitmapUnitNums - index

/-- The node of a unit, with the nodes before it: the last node, or a new one behind it. -/
def nodeOf (alloc : Nat → Bool) (before : List EbitmapNode) (n : Option EbitmapNode)
    (startbit : Nat) : Except Int (List EbitmapNode × EbitmapNode) :=
  let nodes := before ++ n.toList
  let new := if alloc nodes.length then .ok (nodes, .zeroed startbit) else .error (-enomem)
  match n with
  | none => new
  | some n =>
    if wadd n.startbit ebitmapSize ≤ startbit then new
    else if startbit ≤ n.startbit then .error 0
    else .ok (before, n)

/-- The loop of `ebitmap_read`, with the rounds that are left. `n` is the last node, and `before`
the nodes before it. -/
def readMaps (alloc : Nat → Bool) (highbit : Nat) :
    Nat → List EbitmapNode → Option EbitmapNode → List UInt8 → Option Read
  | 0, before, n, data => some ⟨0, ⟨before ++ n.toList, highbit⟩, data⟩
  | count + 1, before, n, data =>
    match nextEntry 4 data with
    | none => some (bad (-einval) data)
    | some (buf, data) =>
      let startbit := leToCpu buf
      if startbit &&& (mapunit - 1) ≠ 0 then some (bad 0 data)
      else if wsub highbit mapunit < startbit then some (bad 0 data)
      else
        match nodeOf alloc before n startbit with
        | .error rc => some (bad rc data)
        | .ok (before, n) =>
          match nextEntry 8 data with
          | none => some (bad (-einval) data)
          | some (buf, data) => do
            let map := BitVec.ofNat 64 (leToCpu buf)
            let index := (startbit - n.startbit) / ebitmapUnitSize
            let maps ← storeMap n.maps index map
            readMaps alloc highbit count before (some { n with maps := maps }) data

/-- `ebitmap_read`. -/
def ebitmapRead (alloc : Nat → Bool) (data : List UInt8) : Option Read :=
  match nextEntry 12 data with
  | none => some ⟨-einval, ebitmapInit, data⟩
  | some (buf, data) =>
    let highbit := roundHighbit (leToCpu ((buf.drop 4).take 4))
    let count := leToCpu (buf.drop 8)
    if leToCpu (buf.take 4) ≠ mapunit then some (bad 0 data)
    else if highbit = 0 then some ⟨0, ⟨[], highbit⟩, data⟩
    else readMaps alloc highbit count [] none data

end AndroidKernel.Ebitmap
