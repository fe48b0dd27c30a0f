import AndroidKernel.Bootmem.Model

/-!
# Exclusive reservations of boot memory

Read `reserve_bootmem_atomic_iff` first. Marking goes from node to node as long as the pages have the
other value. A conflict in one node leaves that node as it was, and the nodes before it are
marked back.
-/

namespace AndroidKernel.Bootmem

open Library

variable {bdata bdata' : Node} {nodes nodes' : List Node} {mark : Mark}
variable {sidx eidx idx n start stop pos lo hi pfn : Nat}

/-! ## One node -/

/-- Where a node and its bitmap are. -/
def Node.place (bdata : Node) : Nat × Nat × Option Nat :=
  (bdata.nodeMinPfn, bdata.nodeLowPfn, bdata.nodeBootmemMap)

/-- The page is one of the node's. -/
def Node.Contains (bdata : Node) (pfn : Nat) : Prop :=
  bdata.nodeMinPfn ≤ pfn ∧ pfn < bdata.nodeLowPfn

/-- The bit of a page. -/
def Node.marked (bdata : Node) (pfn : Nat) : Bool :=
  bdata.bits (pfn - bdata.nodeMinPfn)

/-- The pages of a node lie in the 32-bit physical space, and it has its bitmap. -/
structure Node.Linked (bdata : Node) : Prop where
  ordered : bdata.nodeMinPfn ≤ bdata.nodeLowPfn
  top : bdata.nodeLowPfn ≤ 2 ^ 20
  map : bdata.nodeBootmemMap.isSome = true

theorem Node.Linked.room (h : bdata.Linked) :
    bdata.nodeLowPfn - bdata.nodeMinPfn ≤ bdata.mapBits := by
  obtain ⟨pfn, hpfn⟩ := Option.isSome_iff_exists.mp h.map
  unfold Node.mapBits bootmapBytes
  rw [hpfn]
  dsimp only
  omega

theorem freeLoop_eq (hroom : idx + n ≤ bdata.mapBits)
    (hset : ∀ i, idx ≤ i → i < idx + n → bdata.bits i = true) :
    freeLoop n idx bdata =
      some { bdata with bits := Bitmap.writeBits false idx n bdata.bits } := by
  induction n generalizing idx bdata with
  | zero => rfl
  | succ n ih =>
    rw [freeLoop, if_neg (by omega), if_pos (hset idx (Nat.le_refl _) (by omega))]
    refine (ih ?_ ?_).trans rfl
    · show idx + 1 + n ≤ bdata.mapBits
      omega
    · intro i hlo hhi
      show Function.update bdata.bits idx false i = true
      rw [Function.update_of_ne (by omega)]
      exact hset i (by omega) (by omega)

/-- `__free` of set bits clears them. -/
theorem Node.free_eq (hroom : eidx ≤ bdata.mapBits)
    (hset : ∀ i, sidx ≤ i → i < eidx → bdata.bits i = true) :
    bdata.free sidx eidx = some { bdata with
      hintIdx := if bdata.hintIdx > sidx then sidx else bdata.hintIdx
      bits := Bitmap.writeBits false sidx (eidx - sidx) bdata.bits } := by
  unfold Node.free
  dsimp only
  rcases Nat.le_total sidx eidx with hle | hle
  · rw [freeLoop_eq]
    · show sidx + (eidx - sidx) ≤ bdata.mapBits
      omega
    · intro i hlo hhi
      exact hset i hlo (by omega)
  · rw [Nat.sub_eq_zero_of_le hle]
    rfl

/-- `__reserve` of clear bits sets them. -/
theorem reserveLoop_clear (exclusive : Bool) (hroom : idx + n ≤ bdata.mapBits)
    (hclear : ∀ i, idx ≤ i → i < idx + n → bdata.bits i = false) :
    reserveLoop exclusive sidx n idx bdata =
      some ({ bdata with bits := Bitmap.writeBits true idx n bdata.bits }, 0) := by
  induction n generalizing idx bdata with
  | zero => rfl
  | succ n ih =>
    have hidx := hclear idx (Nat.le_refl _) (by omega)
    rw [reserveLoop, if_neg (by omega), if_neg (by rw [hidx]; nofun)]
    refine (ih ?_ ?_).trans rfl
    · show idx + 1 + n ≤ bdata.mapBits
      omega
    · intro i hlo hhi
      show Function.update bdata.bits idx true i = false
      rw [Function.update_of_ne (by omega)]
      exact hclear i (by omega) (by omega)

/-- `__reserve` finds the first bit that is set. -/
theorem reserveLoop_conflict {c : Nat} (hroom : c < bdata.mapBits) (hlo : idx ≤ c)
    (hhi : c < idx + n) (hclear : ∀ i, idx ≤ i → i < c → bdata.bits i = false)
    (hset : bdata.bits c = true) :
    reserveLoop true sidx n idx bdata =
      (Node.free { bdata with bits := Bitmap.writeBits true idx (c - idx) bdata.bits } sidx c).map
        fun bdata => (bdata, ebusy) := by
  induction n generalizing idx bdata with
  | zero => omega
  | succ n ih =>
    rw [reserveLoop, if_neg (by omega)]
    by_cases hc : idx = c
    · subst hc
      rw [if_pos hset, if_pos rfl, Nat.sub_self]
      rfl
    have hidx := hclear idx (Nat.le_refl _) (by omega)
    rw [if_neg (by rw [hidx]; nofun)]
    have hrest : reserveLoop true sidx n (idx + 1) (bdata.write idx true) =
        (Node.free { bdata.write idx true with
          bits := Bitmap.writeBits true (idx + 1) (c - (idx + 1)) (bdata.write idx true).bits }
          sidx c).map fun bdata => (bdata, ebusy) := by
      refine ih hroom (by omega) (by omega) ?_ ?_
      · intro i hlo hhi
        show Function.update bdata.bits idx true i = false
        rw [Function.update_of_ne (by omega)]
        exact hclear i (by omega) (by omega)
      · show Function.update bdata.bits idx true c = true
        rw [Function.update_of_ne (Ne.symm hc)]
        exact hset
    rw [hrest, show c - idx = c - (idx + 1) + 1 by omega]
    rfl

/-- Setting a run of clear bits and clearing it again. -/
theorem writeBits_undo {m : Bitmap} (hclear : ∀ i, idx ≤ i → i < idx + n → m i = false) :
    Bitmap.writeBits false idx n (Bitmap.writeBits true idx n m) = m := by
  funext i
  rw [Bitmap.writeBits_apply, Bitmap.writeBits_apply]
  by_cases hin : idx ≤ i ∧ i < idx + n
  · rw [if_pos hin, hclear i hin.1 hin.2]
  · rw [if_neg hin, if_neg hin]

/-- `__reserve` with a conflict changes at most where the next search starts. -/
theorem reserve_conflict (hroom : eidx ≤ bdata.mapBits)
    (hset : ∃ i, sidx ≤ i ∧ i < eidx ∧ bdata.bits i = true) :
    ∃ hint, bdata.reserve sidx eidx true = some ({ bdata with hintIdx := hint }, ebusy) := by
  have hex : ∃ i, sidx ≤ i ∧ i < eidx ∧ bdata.bits i = true := hset
  obtain ⟨hlo, hhi, hset⟩ := Nat.find_spec hex
  have hmin : ∀ i, sidx ≤ i → i < Nat.find hex → bdata.bits i = false := by
    intro i hle hlt
    have hnot := Nat.find_min hex hlt
    cases hbit : bdata.bits i with
    | false => rfl
    | true => exact absurd ⟨hle, by omega, hbit⟩ hnot
  generalize Nat.find hex = c at *
  refine ⟨if bdata.hintIdx > sidx then sidx else bdata.hintIdx, ?_⟩
  have hfree := @Node.free_eq
    { bdata with bits := Bitmap.writeBits true sidx (c - sidx) bdata.bits } sidx c
    (show c ≤ bdata.mapBits by omega)
  rw [Node.reserve, reserveLoop_conflict (by omega) hlo (by omega) hmin hset, hfree]
  · dsimp only
    rw [Option.map_some, writeBits_undo]
    intro i hle hlt
    exact hmin i hle (by omega)
  · intro i hle hlt
    dsimp only
    rw [Bitmap.writeBits_apply, if_pos ⟨hle, by omega⟩]

/-- The pages of a node that lie in `[lo, hi)` have this value now, and the others are as before. -/
structure Marked (value : Bool) (lo hi : Nat) (bdata bdata' : Node) : Prop where
  place : bdata'.place = bdata.place
  bits : ∀ pfn, bdata.Contains pfn →
    bdata'.marked pfn = if lo ≤ pfn ∧ pfn < hi then value else bdata.marked pfn

/-- What a call writes. -/
def Mark.value : Mark → Bool
  | .free => false
  | .reserve _ => true

theorem Marked.none (value : Bool) (h : hi ≤ lo) (bdata : Node) : Marked value lo hi bdata bdata :=
  ⟨rfl, fun pfn _ => by rw [if_neg (by omega)]⟩

/-- A node that lies outside the range. -/
theorem Marked.outside (value : Bool) (h : hi ≤ bdata.nodeMinPfn ∨ bdata.nodeLowPfn ≤ lo) :
    Marked value lo hi bdata bdata := by
  refine ⟨rfl, ?_⟩
  intro pfn hpfn
  unfold Node.Contains at hpfn
  rw [if_neg (by omega)]

/-- The lower bound does not matter as long as it is not above the node. -/
theorem Marked.widen {value : Bool} (h : Marked value pos hi bdata bdata') (hle : lo ≤ pos)
    (hpos : pos ≤ bdata.nodeMinPfn) : Marked value lo hi bdata bdata' := by
  refine ⟨h.place, ?_⟩
  intro pfn hpfn
  have := hpfn.1
  rw [h.bits pfn hpfn]
  exact if_congr (by omega) rfl rfl

/-- The upper bound does not matter as long as it is not below the node's end. -/
theorem Marked.raise {value : Bool} (h : Marked value lo (min bdata.nodeLowPfn hi) bdata bdata') :
    Marked value lo hi bdata bdata' := by
  refine ⟨h.place, ?_⟩
  intro pfn hpfn
  have := hpfn.2
  rw [h.bits pfn hpfn]
  exact if_congr (by omega) rfl rfl

theorem Marked.writeBits (value : Bool) (hlo : bdata.nodeMinPfn ≤ lo) (hle : lo ≤ hi) (hint : Nat) :
    Marked value lo hi bdata { bdata with
      hintIdx := hint
      bits := Bitmap.writeBits value (lo - bdata.nodeMinPfn) (hi - lo) bdata.bits } := by
  refine ⟨rfl, ?_⟩
  intro pfn hpfn
  unfold Node.Contains at hpfn
  unfold Node.marked
  dsimp only
  rw [Bitmap.writeBits_apply]
  exact if_congr (by omega) rfl rfl

/-- Pages that all have the other value are marked. -/
theorem markBootmemNode_ok (mark : Mark) (h : bdata.Linked) (hlo : bdata.nodeMinPfn ≤ lo)
    (hle : lo ≤ hi) (hhi : hi ≤ bdata.nodeLowPfn)
    (hvalue : ∀ pfn, lo ≤ pfn → pfn < hi → bdata.marked pfn = !mark.value) :
    ∃ bdata', markBootmemNode mark bdata lo hi = some (bdata', 0) ∧
      Marked mark.value lo hi bdata bdata' := by
  have hroom := h.room
  have htop := h.top
  have hword : word = 2 ^ 32 := rfl
  have hbits : ∀ i, lo - bdata.nodeMinPfn ≤ i →
      i < lo - bdata.nodeMinPfn + (hi - bdata.nodeMinPfn - (lo - bdata.nodeMinPfn)) →
      bdata.bits i = !mark.value := by
    intro i hlo' hhi'
    have hbit := hvalue (bdata.nodeMinPfn + i) (by omega) (by omega)
    rwa [Node.marked, Nat.add_sub_cancel_left] at hbit
  have hcount : hi - bdata.nodeMinPfn - (lo - bdata.nodeMinPfn) = hi - lo := by omega
  unfold markBootmemNode
  rw [if_neg (by omega), wsub_eq hlo (by omega), wsub_eq (by omega) (by omega)]
  cases mark with
  | free =>
    dsimp only
    have hset : ∀ i, lo - bdata.nodeMinPfn ≤ i → i < hi - bdata.nodeMinPfn →
      bdata.bits i = true := fun i hlo' hhi' => hbits i hlo' (by omega)
    rw [Node.free_eq (by omega) hset, hcount]
    exact ⟨_, rfl, .writeBits false hlo hle _⟩
  | reserve exclusive =>
    dsimp only
    rw [Node.reserve, reserveLoop_clear exclusive (by omega) hbits, hcount]
    exact ⟨_, rfl, .writeBits true hlo hle _⟩

/-- A conflict leaves the node's pages as they were. -/
theorem markBootmemNode_conflict (h : bdata.Linked) (hlo : bdata.nodeMinPfn ≤ lo)
    (hhi : hi ≤ bdata.nodeLowPfn) (hset : ∃ pfn, lo ≤ pfn ∧ pfn < hi ∧ bdata.marked pfn = true) :
    ∃ bdata', markBootmemNode (.reserve true) bdata lo hi = some (bdata', ebusy) ∧
      Marked true lo lo bdata bdata' := by
  obtain ⟨pfn, hle, hlt, hbit⟩ := hset
  have hroom := h.room
  have htop := h.top
  have hword : word = 2 ^ 32 := rfl
  have hset : ∃ i, lo - bdata.nodeMinPfn ≤ i ∧ i < hi - bdata.nodeMinPfn ∧
      bdata.bits i = true := ⟨pfn - bdata.nodeMinPfn, by omega, by omega, hbit⟩
  obtain ⟨hint, heq⟩ := reserve_conflict (by omega) hset
  unfold markBootmemNode
  rw [if_neg (by omega), wsub_eq hlo (by omega), wsub_eq (by omega) (by omega)]
  dsimp only
  rw [heq]
  exact ⟨_, rfl, rfl, fun pfn _ => by rw [if_neg (by omega)]; rfl⟩

/-! ## The list of nodes -/

/-- The nodes lie one above the other, as `link_bootmem` puts them. -/
structure Listed (nodes : List Node) : Prop where
  ascending : nodes.Pairwise fun a b =>
    a.nodeMinPfn < b.nodeMinPfn ∧ a.nodeLowPfn ≤ b.nodeMinPfn
  linked : ∀ bdata ∈ nodes, bdata.Linked

/-- Some node has the page. -/
def Has (nodes : List Node) (pfn : Nat) : Prop :=
  ∃ bdata ∈ nodes, bdata.Contains pfn

/-- What the walk over the nodes needs at a position: the pages up to the end are there, and the
position is where the walk starts or in the first node that is left. -/
structure Walk (start stop pos : Nat) (nodes : List Node) : Prop where
  listed : Listed nodes
  le : pos ≤ stop
  here : Has nodes pos
  all : ∀ pfn, pos ≤ pfn → pfn < stop → Has nodes pfn
  first : pos = start ∨ ∃ bdata ∈ nodes.head?, bdata.Contains pos

theorem Listed.tail (h : Listed (bdata :: nodes)) : Listed nodes :=
  ⟨(List.pairwise_cons.mp h.ascending).2, fun b hb => h.linked b (List.mem_cons_of_mem _ hb)⟩

/-- The nodes after the first one start where it ends or later. -/
theorem Listed.above (h : Listed (bdata :: nodes)) {b : Node} (hb : b ∈ nodes) :
    bdata.nodeMinPfn < b.nodeMinPfn ∧ bdata.nodeLowPfn ≤ b.nodeMinPfn :=
  (List.pairwise_cons.mp h.ascending).1 b hb

/-- The first node lies below the position. -/
theorem Walk.skip (h : Walk start stop pos (bdata :: nodes)) (hnot : ¬ bdata.Contains pos) :
    pos = start ∧ bdata.nodeLowPfn ≤ pos ∧ Walk start stop pos nodes := by
  obtain ⟨hlisted, hle, ⟨b, hb, hin⟩, hall, hfirst⟩ := h
  have hstart : pos = start := by
    refine hfirst.resolve_right ?_
    intro hhead
    obtain ⟨b, hb, hin⟩ := hhead
    obtain rfl := Option.some.inj hb
    exact hnot hin
  have hb : b ∈ nodes := by
    rcases List.mem_cons.mp hb with rfl | hb
    · exact absurd hin hnot
    · exact hb
  have hbelow := hlisted.above hb
  have hlow : bdata.nodeLowPfn ≤ pos := hbelow.2.trans hin.1
  refine ⟨hstart, hlow, hlisted.tail, hle, ⟨b, hb, hin⟩, ?_, .inl hstart⟩
  intro pfn hpfn hlt
  obtain ⟨b', hb', hin'⟩ := hall pfn hpfn hlt
  rcases List.mem_cons.mp hb' with rfl | hb'
  · exact absurd (hin'.2.trans_le (hlow.trans hpfn)) (Nat.lt_irrefl _)
  · exact ⟨b', hb', hin'⟩

theorem Walk.next (h : Walk start stop pos (bdata :: nodes)) (hin : bdata.Contains pos)
    (hlt : bdata.nodeLowPfn < stop) : Walk start stop bdata.nodeLowPfn nodes := by
  obtain ⟨hlisted, hle, -, hall, -⟩ := h
  have hrest : ∀ pfn, bdata.nodeLowPfn ≤ pfn → pfn < stop → Has nodes pfn := by
    intro pfn hpfn hlt
    obtain ⟨b, hb, hin'⟩ := hall pfn (hin.2.le.trans hpfn) hlt
    rcases List.mem_cons.mp hb with rfl | hb
    · exact absurd (hin'.2.trans_le hpfn) (Nat.lt_irrefl _)
    · exact ⟨b, hb, hin'⟩
  have hhere := hrest _ (Nat.le_refl _) hlt
  refine ⟨hlisted.tail, hlt.le, hhere, hrest, .inr ?_⟩
  obtain ⟨b, hb, hin'⟩ := hhere
  cases nodes with
  | nil => cases hb
  | cons first rest =>
    refine ⟨first, rfl, ?_⟩
    rcases List.mem_cons.mp hb with rfl | hb
    · exact hin'
    · -- a node in between would start where this one ends
      have habove := hlisted.above List.mem_cons_self
      have hlater := hlisted.tail.above hb
      have := hin'.1
      omega

/-- What the nodes after the first one make of the range from its end on. -/
theorem widen_rest {value : Bool} (h : Listed (bdata :: nodes)) (hle : lo ≤ bdata.nodeLowPfn)
    (hmarked : List.Forall₂ (Marked value bdata.nodeLowPfn hi) nodes nodes') :
    List.Forall₂ (Marked value lo hi) nodes nodes' := by
  have hboth := (List.forall₂_and_left _ _).mpr
    ⟨fun b (hb : b ∈ nodes) => (h.above hb).2, hmarked⟩
  exact hboth.imp fun b b' hb => hb.2.widen hle hb.1

/-- Pages that all have the other value are marked, in every node. -/
theorem markNodes_ok (mark : Mark) (h : Walk start stop pos nodes)
    (hvalue : ∀ bdata ∈ nodes, ∀ pfn, bdata.Contains pfn → pos ≤ pfn → pfn < stop →
      bdata.marked pfn = !mark.value) :
    ∃ nodes', markNodes mark start stop pos nodes = some (nodes', none) ∧
      List.Forall₂ (Marked mark.value pos stop) nodes nodes' := by
  induction nodes generalizing pos with
  | nil =>
    obtain ⟨b, hb, -⟩ := h.here
    cases hb
  | cons bdata rest ih =>
    have hrest : ∀ b ∈ rest, ∀ pfn, b.Contains pfn → pos ≤ pfn → pfn < stop →
      b.marked pfn = !mark.value := fun b hb => hvalue b (List.mem_cons_of_mem _ hb)
    rw [markNodes]
    by_cases hin : bdata.Contains pos
    · have hguard : ¬ (pos < bdata.nodeMinPfn ∨ pos ≥ bdata.nodeLowPfn) := by
        unfold Node.Contains at hin
        omega
      have hle := h.le
      have hlow := hin.2
      obtain ⟨marked, heq, hmarked⟩ := markBootmemNode_ok mark
        (h.listed.linked bdata List.mem_cons_self) hin.1
        (Nat.le_min.mpr ⟨hlow.le, hle⟩) (Nat.min_le_left _ _) (by
          intro pfn hpfn hlt
          have hlt := Nat.lt_min.mp hlt
          exact hvalue bdata List.mem_cons_self pfn ⟨hin.1.trans hpfn, hlt.1⟩ hpfn hlt.2)
      have hhead := hmarked.raise
      rw [if_neg hguard]
      dsimp only
      rw [heq]
      dsimp only
      rw [if_neg (not_not.mpr rfl)]
      by_cases hmax : min bdata.nodeLowPfn stop = stop
      · rw [if_pos hmax]
        refine ⟨_, rfl, List.Forall₂.cons hhead ?_⟩
        rw [List.forall₂_same]
        intro b hb
        have := (h.listed.above hb).2
        exact .outside _ (.inl (by omega))
      · rw [if_neg hmax]
        obtain ⟨nodes', heq', hmarked'⟩ := ih (h.next hin (by omega))
          fun b hb pfn hpfn hlo => hrest b hb pfn hpfn (by omega)
        rw [heq']
        refine ⟨_, rfl, List.Forall₂.cons hhead ?_⟩
        exact (widen_rest h.listed hlow.le hmarked')
    · obtain ⟨hstart, hlow, hwalk⟩ := h.skip hin
      have hguard : pos < bdata.nodeMinPfn ∨ pos ≥ bdata.nodeLowPfn := .inr hlow
      obtain ⟨nodes', heq, hmarked⟩ := ih hwalk hrest
      rw [if_pos hguard, if_neg (not_not.mpr hstart), heq]
      exact ⟨_, rfl, List.Forall₂.cons (.outside _ (.inr hlow)) hmarked⟩

/-- A conflict ends the walk at the position `p` that the walk had come to. -/
theorem markNodes_conflict (h : Walk start stop pos nodes)
    (hset : ∃ bdata ∈ nodes, ∃ pfn, bdata.Contains pfn ∧ pos ≤ pfn ∧ pfn < stop ∧
      bdata.marked pfn = true) :
    ∃ nodes' p, markNodes (.reserve true) start stop pos nodes = some (nodes', some (p, ebusy)) ∧
      pos ≤ p ∧ p < stop ∧ List.Forall₂ (Marked true pos p) nodes nodes' ∧
      ∀ bdata ∈ nodes, ∀ pfn, bdata.Contains pfn → pos ≤ pfn → pfn < p →
        bdata.marked pfn = false := by
  induction nodes generalizing pos with
  | nil =>
    obtain ⟨b, hb, -⟩ := h.here
    cases hb
  | cons bdata rest ih =>
    obtain ⟨b, hb, pfn, hcontains, hle, hlt, hbit⟩ := hset
    rw [markNodes]
    by_cases hin : bdata.Contains pos
    · have hguard : ¬ (pos < bdata.nodeMinPfn ∨ pos ≥ bdata.nodeLowPfn) := by
        unfold Node.Contains at hin
        omega
      have hlow := hin.2
      have hlinked := h.listed.linked bdata List.mem_cons_self
      have hmax := Nat.min_le_left bdata.nodeLowPfn stop
      rw [if_neg hguard]
      dsimp only
      by_cases hhere : ∃ pfn, pos ≤ pfn ∧ pfn < min bdata.nodeLowPfn stop ∧
        bdata.marked pfn = true
      · obtain ⟨marked, heq, hmarked⟩ := markBootmemNode_conflict hlinked hin.1 hmax hhere
        rw [heq]
        dsimp only
        rw [if_pos (by decide)]
        refine ⟨_, pos, rfl, Nat.le_refl _, by omega, List.Forall₂.cons hmarked ?_, ?_⟩
        · rw [List.forall₂_same]
          exact fun b _ => .none true (Nat.le_refl _) b
        · intro b hb pfn hpfn hge hlt
          omega
      have hclear : ∀ pfn, pos ≤ pfn → pfn < min bdata.nodeLowPfn stop →
          bdata.marked pfn = !Mark.value (.reserve true) := by
        intro pfn hge hlt
        cases hbit : bdata.marked pfn with
        | false => rfl
        | true => exact absurd ⟨pfn, hge, hlt, hbit⟩ hhere
      obtain ⟨marked, heq, hmarked⟩ := markBootmemNode_ok (.reserve true) hlinked hin.1
        (Nat.le_min.mpr ⟨hlow.le, h.le⟩) hmax hclear
      have hlater : bdata.nodeLowPfn ≤ pfn := by
        by_contra hbelow
        exact hhere ⟨pfn, hle, by omega, by
          rcases List.mem_cons.mp hb with rfl | hb
          · exact hbit
          · have := (h.listed.above hb).2
            have := hcontains.1
            omega⟩
      have hb : b ∈ rest := by
        rcases List.mem_cons.mp hb with rfl | hb
        · exact absurd hcontains.2 (by omega)
        · exact hb
      obtain ⟨nodes', p, heq', hle', hlt', hmarked', hclear'⟩ :=
        ih (h.next hin (by omega)) ⟨b, hb, pfn, hcontains, hlater, hlt, hbit⟩
      rw [heq]
      dsimp only
      rw [if_neg (not_not.mpr rfl), if_neg (by omega), heq']
      have hhead : Marked true pos p bdata marked := by
        refine Marked.raise ?_
        rw [show min bdata.nodeLowPfn p = min bdata.nodeLowPfn stop by omega]
        exact hmarked
      refine ⟨_, p, rfl, by omega, hlt', List.Forall₂.cons hhead
        (widen_rest h.listed hlow.le hmarked'), ?_⟩
      intro b hb pfn hpfn hge hlt
      rcases List.mem_cons.mp hb with rfl | hb
      · exact hclear pfn hge (by have := hpfn.2; omega)
      · have := (h.listed.above hb).2
        exact hclear' b hb pfn hpfn (by have := hpfn.1; omega) hlt
    obtain ⟨hstart, hlow, hwalk⟩ := h.skip hin
    have hguard : pos < bdata.nodeMinPfn ∨ pos ≥ bdata.nodeLowPfn := .inr hlow
    have hb : b ∈ rest := by
      rcases List.mem_cons.mp hb with rfl | hb
      · exact absurd hcontains.2 (by omega)
      · exact hb
    obtain ⟨nodes', p, heq, hle', hlt', hmarked, hclear⟩ :=
      ih hwalk ⟨b, hb, pfn, hcontains, hle, hlt, hbit⟩
    rw [if_pos hguard, if_neg (not_not.mpr hstart), heq]
    refine ⟨_, p, rfl, hle', hlt', List.Forall₂.cons (.outside _ (.inr hlow)) hmarked, ?_⟩
    intro b hb pfn hpfn hge hlt
    rcases List.mem_cons.mp hb with rfl | hb
    · exact absurd hpfn.2 (by omega)
    · exact hclear b hb pfn hpfn hge hlt

/-! ## The call -/

/-- The pages of a node have the bits that they had. -/
structure SameBits (bdata bdata' : Node) : Prop where
  place : bdata'.place = bdata.place
  bits : ∀ pfn, bdata.Contains pfn → bdata'.marked pfn = bdata.marked pfn

/-- The pages of a node that lie in `[lo, hi)` were all clear and are all set. -/
structure Reserved (lo hi : Nat) (bdata bdata' : Node) : Prop where
  marked : Marked true lo hi bdata bdata'
  clear : ∀ pfn, bdata.Contains pfn → lo ≤ pfn → pfn < hi → bdata.marked pfn = false

/-- The number after that of the last page that holds a byte of the range. -/
def endPfn (addr size : Nat) : Nat :=
  (addr + size + (pageSize - 1)) / pageSize

/-- The nodes have every page of the range, and that of its address. -/
def Covered (nodes : List Node) (addr size : Nat) : Prop :=
  Has nodes (pfnDown addr) ∧ ∀ pfn, pfnDown addr ≤ pfn → pfn < endPfn addr size → Has nodes pfn

/-- The exclusive reservation takes all the pages of the range, or it leaves every bit alone. -/
def Atomic (nodes : List Node) (addr size : Nat) : Prop :=
  ∃ nodes' err, reserveBootmem nodes addr size true = some (nodes', err) ∧
    (err = 0 ∧ List.Forall₂ (Reserved (pfnDown addr) (endPfn addr size)) nodes nodes' ∨
      err = ebusy ∧ List.Forall₂ SameBits nodes nodes')

variable {addr size : Nat}

theorem SameBits.of_undo (hmarked : Marked true lo hi bdata bdata')
    (hclear : ∀ pfn, bdata.Contains pfn → lo ≤ pfn → pfn < hi → bdata.marked pfn = false)
    {bdata'' : Node} (hundo : Marked false lo hi bdata' bdata'') : SameBits bdata bdata'' := by
  refine ⟨hundo.place.trans hmarked.place, ?_⟩
  intro pfn hpfn
  have hplace := hmarked.place
  simp only [Node.place, Prod.mk.injEq] at hplace
  have hpfn' : bdata'.Contains pfn := by
    unfold Node.Contains at *
    omega
  rw [hundo.bits pfn hpfn']
  by_cases hin : lo ≤ pfn ∧ pfn < hi
  · rw [if_pos hin, hclear pfn hpfn hin.1 hin.2]
  · rw [if_neg hin, hmarked.bits pfn hpfn, if_neg hin]

/-- The nodes are where they were. -/
theorem place_eq {value : Bool} (h : List.Forall₂ (Marked value lo hi) nodes nodes') :
    nodes'.map Node.place = nodes.map Node.place := by
  induction h with
  | nil => rfl
  | cons hmarked _ ih => rw [List.map_cons, List.map_cons, hmarked.place, ih]

theorem exists_of_forall₂ {α β : Type} {R : α → β → Prop} {l : List α} {l' : List β}
    (h : List.Forall₂ R l l') {b : β} (hb : b ∈ l') : ∃ a ∈ l, R a b := by
  induction h with
  | nil => cases hb
  | @cons a b' _ _ hab _ ih =>
    rcases List.mem_cons.mp hb with rfl | hb
    · exact ⟨a, List.mem_cons_self, hab⟩
    · obtain ⟨a', ha', hr⟩ := ih hb
      exact ⟨a', List.mem_cons_of_mem _ ha', hr⟩

theorem forall₂_comp {α β γ : Type} {R : α → β → Prop} {S : β → γ → Prop} {T : α → γ → Prop}
    {l : List α} {l' : List β} {l'' : List γ} (h : List.Forall₂ R l l') (h' : List.Forall₂ S l' l'')
    (hcomp : ∀ a b c, R a b → S b c → T a c) : List.Forall₂ T l l'' := by
  induction h generalizing l'' with
  | nil =>
    cases h'
    exact .nil
  | cons hab _ ih =>
    cases h' with
    | cons hbc h' => exact .cons (hcomp _ _ _ hab hbc) (ih h')

/-- The node that was at the place of a node. -/
theorem exists_place (hplace : nodes'.map Node.place = nodes.map Node.place) (h : bdata' ∈ nodes') :
    ∃ bdata ∈ nodes, bdata'.nodeMinPfn = bdata.nodeMinPfn ∧
      bdata'.nodeLowPfn = bdata.nodeLowPfn ∧ bdata'.nodeBootmemMap = bdata.nodeBootmemMap := by
  have hmem : bdata'.place ∈ nodes.map Node.place := hplace ▸ List.mem_map_of_mem h
  obtain ⟨bdata, hbdata, heq⟩ := List.mem_map.mp hmem
  simp only [Node.place, Prod.mk.injEq] at heq
  exact ⟨bdata, hbdata, heq.1.symm, heq.2.1.symm, heq.2.2.symm⟩

theorem Listed.of_place (h : Listed nodes) (hplace : nodes'.map Node.place = nodes.map Node.place) :
    Listed nodes' := by
  constructor
  · have hmap : (nodes.map Node.place).Pairwise fun p q => p.1 < q.1 ∧ p.2.1 ≤ q.1 :=
      List.pairwise_map.mpr h.ascending
    rw [← hplace] at hmap
    exact List.pairwise_map.mp hmap
  · intro bdata' hbdata'
    obtain ⟨bdata, hbdata, hmin, hlow, hmap⟩ := exists_place hplace hbdata'
    obtain ⟨hordered, htop, hlinked⟩ := h.linked bdata hbdata
    exact ⟨by omega, by omega, hmap ▸ hlinked⟩

theorem Has.of_place (h : Has nodes pfn) (hplace : nodes'.map Node.place = nodes.map Node.place) :
    Has nodes' pfn := by
  obtain ⟨bdata, hbdata, hin⟩ := h
  obtain ⟨bdata', hbdata', hmin, hlow, -⟩ := exists_place hplace.symm hbdata
  refine ⟨bdata', hbdata', ?_⟩
  unfold Node.Contains at *
  omega

/-- Within the walk an exclusive reservation takes everything or nothing. -/
theorem markBootmem_reserve (h : Walk start stop start nodes) :
    ∃ nodes' err, markBootmem (.reserve true) start stop nodes = some (nodes', err) ∧
      (err = 0 ∧ List.Forall₂ (Reserved start stop) nodes nodes' ∨
        err = ebusy ∧ List.Forall₂ SameBits nodes nodes') := by
  unfold markBootmem
  by_cases hset : ∃ bdata ∈ nodes, ∃ pfn, bdata.Contains pfn ∧ start ≤ pfn ∧ pfn < stop ∧
    bdata.marked pfn = true
  · obtain ⟨nodes', p, heq, hle, hlt, hmarked, hclear⟩ := markNodes_conflict h hset
    have hplace := place_eq hmarked
    have hundo : Walk start p start nodes' := by
      refine ⟨h.listed.of_place hplace, hle, h.here.of_place hplace, ?_, .inl rfl⟩
      intro pfn hge hlt'
      exact (h.all pfn hge (hlt'.trans hlt)).of_place hplace
    have hvalue : ∀ bdata' ∈ nodes', ∀ pfn, bdata'.Contains pfn → start ≤ pfn → pfn < p →
        bdata'.marked pfn = !Mark.value .free := by
      intro bdata' hbdata' pfn hpfn hge hlt'
      obtain ⟨bdata, -, hm⟩ := exists_of_forall₂ hmarked hbdata'
      have hplace := hm.place
      simp only [Node.place, Prod.mk.injEq] at hplace
      have hpfn : bdata.Contains pfn := by
        unfold Node.Contains at *
        omega
      rw [hm.bits pfn hpfn, if_pos ⟨hge, hlt'⟩]
      rfl
    obtain ⟨nodes'', heq', hundone⟩ := markNodes_ok .free hundo hvalue
    rw [heq]
    dsimp only
    rw [heq']
    refine ⟨nodes'', ebusy, rfl, .inr ⟨rfl, ?_⟩⟩
    have hboth := (List.forall₂_and_left _ _).mpr ⟨hclear, hmarked⟩
    exact forall₂_comp hboth hundone fun _ _ _ hb hundo => .of_undo hb.2 hb.1 hundo
  have hclear : ∀ bdata ∈ nodes, ∀ pfn, bdata.Contains pfn → start ≤ pfn → pfn < stop →
      bdata.marked pfn = !Mark.value (.reserve true) := by
    intro bdata hbdata pfn hpfn hge hlt
    cases hbit : bdata.marked pfn with
    | false => rfl
    | true => exact absurd ⟨bdata, hbdata, pfn, hpfn, hge, hlt, hbit⟩ hset
  obtain ⟨nodes', heq, hmarked⟩ := markNodes_ok (.reserve true) h hclear
  rw [heq]
  refine ⟨nodes', 0, rfl, .inl ⟨rfl, ?_⟩⟩
  have hboth := (List.forall₂_and_left _ _).mpr ⟨hclear, hmarked⟩
  exact hboth.imp fun bdata bdata' hb => ⟨hb.2, hb.1⟩

/-! ## The end of the physical space -/

/-- A run of clear bits that goes on beyond the bitmap leaves it. -/
theorem reserveLoop_leaves (exclusive : Bool) (hclear : ∀ i, idx ≤ i → bdata.bits i = false)
    (hidx : idx ≤ bdata.mapBits) (hend : bdata.mapBits < idx + n) :
    reserveLoop exclusive sidx n idx bdata = none := by
  induction n generalizing idx bdata with
  | zero => omega
  | succ n ih =>
    rw [reserveLoop]
    by_cases hout : bdata.mapBits ≤ idx
    · rw [if_pos hout]
    rw [if_neg hout, if_neg (by rw [hclear idx (Nat.le_refl _)]; nofun)]
    refine ih ?_ ?_ ?_
    · intro i hi
      show Function.update bdata.bits idx true i = false
      rw [Function.update_of_ne (by omega)]
      exact hclear i (by omega)
    · show idx + 1 ≤ bdata.mapBits
      omega
    · show bdata.mapBits < idx + 1 + n
      omega

/-- With 0 as the end, clear nodes are left as they are, or a bitmap is left. -/
theorem markNodes_wrapped (hlinked : ∀ bdata ∈ nodes, bdata.Linked)
    (hclear : ∀ bdata ∈ nodes, ∀ i, bdata.bits i = false) (hhas : Has nodes start) :
    markNodes (.reserve true) start 0 start nodes = none ∨
      markNodes (.reserve true) start 0 start nodes = some (nodes, none) := by
  induction nodes with
  | nil => exact .inl rfl
  | cons bdata rest ih =>
    have hlink := hlinked bdata List.mem_cons_self
    have hbits := hclear bdata List.mem_cons_self
    rw [markNodes]
    by_cases hin : bdata.Contains start
    · have hguard : ¬ (start < bdata.nodeMinPfn ∨ start ≥ bdata.nodeLowPfn) := by
        unfold Node.Contains at hin
        omega
      have hordered : ¬ (start < bdata.nodeMinPfn ∨ 0 > bdata.nodeLowPfn) := by omega
      have htop := hlink.top
      have hlow := hin.2
      have hword : word = 2 ^ 32 := rfl
      rw [if_neg hguard]
      dsimp only
      rw [Nat.min_zero, markBootmemNode, if_neg hordered, wsub_eq hin.1 (by omega)]
      dsimp only
      by_cases hmin : bdata.nodeMinPfn = 0
      · have hwrap : wsub 0 bdata.nodeMinPfn = 0 := by
          rw [hmin]
          rfl
        rw [hwrap, Node.reserve, Nat.zero_sub]
        exact .inr rfl
      have hwrap : wsub 0 bdata.nodeMinPfn = 2 ^ 32 - bdata.nodeMinPfn := by
        unfold wsub
        rw [hword]
        omega
      have hroom : bdata.mapBits ≤ 2 ^ 20 + 64 := by
        obtain ⟨pfn, hpfn⟩ := Option.isSome_iff_exists.mp hlink.map
        unfold Node.mapBits bootmapBytes
        rw [hpfn]
        dsimp only
        omega
      have hfits := hlink.room
      rw [hwrap, Node.reserve, reserveLoop_leaves true (fun i _ => hbits i) (by omega) (by omega)]
      exact .inl rfl
    have hhas : Has rest start := by
      obtain ⟨b, hb, hcontains⟩ := hhas
      rcases List.mem_cons.mp hb with rfl | hb
      · exact absurd hcontains hin
      · exact ⟨b, hb, hcontains⟩
    have hguard : start < bdata.nodeMinPfn ∨ start ≥ bdata.nodeLowPfn := by
      unfold Node.Contains at hin
      omega
    rw [if_pos hguard, if_neg (not_not.mpr rfl)]
    rcases ih (fun b hb => hlinked b (List.mem_cons_of_mem _ hb))
      (fun b hb => hclear b (List.mem_cons_of_mem _ hb)) hhas with heq | heq
    · rw [heq]
      exact .inl rfl
    · rw [heq]
      exact .inr rfl

/-- The end of a range that is covered. -/
theorem Covered.end_le (h : Covered nodes addr size) (hlisted : Listed nodes) (haddr : addr < word) :
    addr + size ≤ word := by
  have hword : word = 2 ^ 32 := rfl
  by_contra hbeyond
  have hlast : pfnDown addr ≤ 2 ^ 20 ∧ 2 ^ 20 < endPfn addr size := by
    unfold pfnDown endPfn pageSize
    omega
  obtain ⟨bdata, hbdata, hin⟩ := h.2 (2 ^ 20) hlast.1 hlast.2
  have htop := (hlisted.linked bdata hbdata).top
  have := hin.2
  omega

/-- A range that ends in the last page of the physical space, with `PFN_UP` wrapping to 0. -/
theorem not_atomic_of_wrap (hlisted : Listed nodes) (hcovered : Covered nodes addr size)
    (haddr : addr < word) (hwrap : word ≤ addr + size + 4095)
    (hclear : ∀ bdata ∈ nodes, ∀ i, bdata.bits i = false) : ¬ Atomic nodes addr size := by
  have hend := hcovered.end_le hlisted haddr
  have hword : word = 2 ^ 32 := rfl
  have hstop : pfnUp (wadd addr size) = 0 := by
    unfold pfnUp wadd pageSize
    rcases Nat.eq_or_lt_of_le hend with heq | hlt
    · rw [heq, Nat.mod_self]
      decide
    · rw [Nat.mod_eq_of_lt hlt, hword]
      omega
  intro h
  obtain ⟨nodes', err, heq, hout⟩ := h
  rw [reserveBootmem, hstop, markBootmem] at heq
  rcases markNodes_wrapped hlisted.linked hclear hcovered.1 with hnone | hsame
  · rw [hnone] at heq
    cases heq
  rw [hsame] at heq
  cases heq
  rcases hout with hreserved | hbusy
  · obtain ⟨bdata, hbdata, hin⟩ := hcovered.1
    have hself := List.forall₂_same.mp hreserved.2 bdata hbdata
    have hbit := hself.marked.bits _ hin
    have hlt : pfnDown addr < endPfn addr size := by
      unfold pfnDown endPfn pageSize
      omega
    rw [if_pos ⟨Nat.le_refl _, hlt⟩, Node.marked, hclear bdata hbdata] at hbit
    cases hbit
  · cases hbusy.1

/-- For every layout of nodes and every range that they cover: the exclusive reservation is atomic
whatever the bitmaps are exactly when rounding up the end of the range does not wrap. -/
theorem reserve_bootmem_atomic_iff (layout : List Node) (hlisted : Listed layout) {addr size : Nat}
    (haddr : addr < word) (hcovered : Covered layout addr size) :
    (∀ nodes : List Node, nodes.map Node.place = layout.map Node.place → Atomic nodes addr size) ↔
      addr + size + 4095 < word := by
  constructor
  · intro h
    by_contra hwrap
    have hplace : (layout.map fun b => { b with bits := fun _ => false }).map Node.place =
        layout.map Node.place := by
      rw [List.map_map]
      rfl
    refine not_atomic_of_wrap (hlisted.of_place hplace) ?_ haddr (Nat.le_of_not_lt hwrap) ?_
      (h _ hplace)
    · exact ⟨hcovered.1.of_place hplace, fun pfn hlo hhi => (hcovered.2 pfn hlo hhi).of_place hplace⟩
    · intro bdata hbdata i
      obtain ⟨b, -, rfl⟩ := List.mem_map.mp hbdata
      rfl
  intro hfits nodes hplace
  have hstop : pfnUp (wadd addr size) = endPfn addr size := by
    unfold pfnUp endPfn pageSize
    rw [@wadd_eq addr size (by omega), wadd_eq (by omega)]
  rw [Atomic, reserveBootmem, hstop]
  refine markBootmem_reserve ⟨hlisted.of_place hplace, ?_, hcovered.1.of_place hplace, ?_, .inl rfl⟩
  · unfold pfnDown endPfn pageSize
    omega
  · intro pfn hlo hhi
    exact (hcovered.2 pfn hlo hhi).of_place hplace

/-- Two nodes of 16 pages each, with nothing reserved. -/
def twoNodes : List Node :=
  [⟨0, 16, some 0, fun _ => false, 0, 0⟩, ⟨16, 32, some 0, fun _ => false, 0, 0⟩]

theorem twoNodes_listed : Listed twoNodes := by
  refine ⟨by decide, ?_⟩
  intro bdata hbdata
  simp only [twoNodes, List.mem_cons, List.not_mem_nil, or_false] at hbdata
  rcases hbdata with rfl | rfl
  · exact ⟨by decide, by decide, rfl⟩
  · exact ⟨by decide, by decide, rfl⟩

theorem twoNodes_covered : Covered twoNodes 61440 8192 := by
  have hfirst : Has twoNodes 15 := ⟨_, List.mem_cons_self, by decide, by decide⟩
  have hsecond : Has twoNodes 16 :=
    ⟨_, List.mem_cons_of_mem _ List.mem_cons_self, by decide, by decide⟩
  refine ⟨hfirst, ?_⟩
  intro pfn hlo hhi
  have hlo : 15 ≤ pfn := hlo
  have hhi : pfn < 17 := hhi
  rcases Nat.lt_or_eq_of_le hlo with hlt | rfl
  · obtain rfl : pfn = 16 := by omega
    exact hsecond
  · exact hfirst

theorem reserve_bootmem_atomic_iff_twoNodes :
    (∀ nodes : List Node, nodes.map Node.place = twoNodes.map Node.place →
      Atomic nodes 61440 8192) ↔ 61440 + 8192 + 4095 < word :=
  reserve_bootmem_atomic_iff twoNodes twoNodes_listed (by decide) twoNodes_covered

/-- One node with all the pages of the physical space. -/
def wholeSpace : List Node :=
  [⟨0, 2 ^ 20, some 0, fun _ => false, 0, 0⟩]

/-- Reserving the last page reserves nothing. -/
theorem reserve_bootmem_last_page : ¬ Atomic wholeSpace 0xFFFFF000 4096 := by
  intro h
  obtain ⟨nodes', err, heq, hout⟩ := h
  have hcall : reserveBootmem wholeSpace 0xFFFFF000 4096 true = some (wholeSpace, 0) := rfl
  rw [hcall] at heq
  cases heq
  rcases hout with hreserved | hbusy
  · have hself := List.forall₂_same.mp hreserved.2 _ List.mem_cons_self
    have hbit := hself.marked.bits 0xFFFFF ⟨by decide, by decide⟩
    rw [if_pos (by decide)] at hbit
    cases hbit
  · cases hbusy.1

end AndroidKernel.Bootmem
