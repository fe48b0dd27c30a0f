import AndroidKernel.Filter.Safety

/-!
# What a filter reads

Read `sk_run_filter_reads` first: what a filter reads is data of the packet, as long as no load
with a negative offset reaches over the tail and no attribute is looked for where there is none.
-/

namespace AndroidKernel.Filter

/-! ## The data of a packet -/

/-- What holds of the fields of every packet. -/
structure SkbFields.WellFormed (f : SkbFields) : Prop where
  head_pos : 0 < f.head
  head_le : f.head ≤ f.data
  dataLen_le : f.dataLen ≤ f.len
  tail_eq : f.tail = f.data + f.headlen
  tail_lt : f.tail < 2 ^ 32
  len_lt : f.len < 2 ^ 31

inductive Skb.WellFormed : Skb → Prop
  | mk {fields : SkbFields} {frags : List Frag} {fragList : List Skb} (hfields : fields.WellFormed)
      (hlist : ∀ skb ∈ fragList, skb.WellFormed) : WellFormed (.mk fields frags fragList)

theorem Skb.WellFormed.fields {skb : Skb} (h : skb.WellFormed) : skb.fields.WellFormed := by
  cases h with
  | mk hfields _ => exact hfields

/-- The bytes that belong to a packet: those from its head to its tail, those of its fragments,
and those of the packets in its list. -/
inductive Owns : Skb → Access → Prop
  | linear {fields : SkbFields} {frags : List Frag} {fragList : List Skb} {addr : Nat}
      (hhead : fields.head ≤ addr) (htail : addr < fields.tail) :
      Owns (.mk fields frags fragList) (.linear addr)
  | page {fields : SkbFields} {frags : List Frag} {fragList : List Skb} {frag : Frag}
      {offset : Nat} (hfrag : frag ∈ frags) (hoffset : offset < frag.size) :
      Owns (.mk fields frags fragList) (.page frag offset)
  | nested {fields : SkbFields} {frags : List Frag} {fragList : List Skb} {skb : Skb}
      {access : Access} (hskb : skb ∈ fragList) (howns : Owns skb access) :
      Owns (.mk fields frags fragList) access

theorem owns_linear {skb : Skb} {addr : Nat} (hhead : skb.fields.head ≤ addr)
    (htail : addr < skb.fields.tail) : Owns skb (.linear addr) := by
  cases skb with
  | mk fields frags fragList => exact .linear hhead htail

theorem mem_linearAccesses {addr size : Nat} {access : Access}
    (h : access ∈ linearAccesses addr size) (hfit : addr + size ≤ 2 ^ 32) :
    ∃ i < size, access = .linear (addr + i) := by
  obtain ⟨i, hi, rfl⟩ := List.mem_map.mp h
  have hi : i < size := List.mem_range.mp hi
  exact ⟨i, hi, by rw [Nat.mod_eq_of_lt (by omega)]⟩

/-- A range of addresses within a packet. -/
theorem owns_of_mem_linearAccesses {skb : Skb} (h : skb.WellFormed) {addr size : Nat}
    {access : Access} (hmem : access ∈ linearAccesses addr size) (hhead : skb.fields.head ≤ addr)
    (htail : addr + size ≤ skb.fields.tail) : Owns skb access := by
  have := h.fields.tail_lt
  obtain ⟨i, hi, rfl⟩ := mem_linearAccesses hmem (by omega)
  exact owns_linear (by omega) (by omega)

/-! ## Copies -/

/-- The loop over the fragments reads within them. -/
theorem copyFrags_reads (frags : List Frag) (start offset len : Nat) (h : start ≤ offset) :
    ∀ access ∈ (copyFrags frags start offset len).1,
      ∃ frag ∈ frags, ∃ i < frag.size, access = .page frag i := by
  induction frags generalizing start offset len with
  | nil =>
    intro _ hmem
    exact absurd hmem List.not_mem_nil
  | cons frag frags ih =>
    have hhere : ∀ access ∈ (List.range (min (start + frag.size - offset) len)).map
        (fun i => Access.page frag (offset - start + i)),
        ∃ g ∈ frag :: frags, ∃ i < g.size, access = .page g i := by
      intro access hmem
      obtain ⟨i, hi, rfl⟩ := List.mem_map.mp hmem
      have hi := List.mem_range.mp hi
      exact ⟨frag, List.mem_cons_self, _, by omega, rfl⟩
    have hrest : ∀ {offset' len'}, start + frag.size ≤ offset' →
        ∀ access ∈ (copyFrags frags (start + frag.size) offset' len').1,
          ∃ g ∈ frag :: frags, ∃ i < g.size, access = .page g i := by
      intro offset' len' hoffset access hmem
      obtain ⟨g, hg, hread⟩ := ih _ _ _ hoffset access hmem
      exact ⟨g, List.mem_cons_of_mem _ hg, hread⟩
    rw [copyFrags]
    dsimp only
    intro access hmem
    split_ifs at hmem with hstop hlen
    · exact hhere access hmem
    · rcases List.mem_append.mp hmem with hmem | hmem
      · exact hhere access hmem
      · exact hrest (by omega) access hmem
    · exact hrest (by omega) access hmem

mutual

theorem skbCopyBits_owns : ∀ (skb : Skb) (offset len : Nat), skb.WellFormed →
    ∀ access ∈ (skbCopyBits skb offset len).1, Owns skb access
  | .mk fields frags fragList, offset, len, h => by
    have hreads : ∀ access ∈ linearAccesses (fields.data + offset)
        (min (fields.headlen - offset) len), Owns (.mk fields frags fragList) access := by
      intro access hmem
      have hf : fields.WellFormed := h.fields
      have := hf.head_le
      have := hf.tail_eq
      by_cases hlt : offset < fields.headlen
      · exact owns_of_mem_linearAccesses h hmem (show fields.head ≤ _ by omega)
          (show _ ≤ fields.tail by omega)
      · rw [show min (fields.headlen - offset) len = 0 by omega] at hmem
        exact absurd hmem List.not_mem_nil
    have hfrags : len - min (fields.headlen - offset) len ≠ 0 → ∀ access ∈ (copyFrags frags
        fields.headlen (offset + min (fields.headlen - offset) len)
        (len - min (fields.headlen - offset) len)).1,
        Owns (.mk fields frags fragList) access := by
      intro hne access hmem
      obtain ⟨frag, hfrag, i, hi, rfl⟩ := copyFrags_reads _ _ _ _ (by omega) access hmem
      exact .page hfrag hi
    have hlist : ∀ {start' offset' len'}, ∀ access ∈ (copyList fragList start' offset' len').1,
        Owns (.mk fields frags fragList) access := by
      intro start' offset' len' access hmem
      cases h with
      | mk _ hlist =>
        obtain ⟨skb, hskb, howns⟩ := copyList_owns fragList _ _ _ hlist access hmem
        exact .nested hskb howns
    rw [skbCopyBits]
    dsimp only
    intro access hmem
    split_ifs at hmem with hlen hdone hend
    · exact absurd hmem List.not_mem_nil
    · exact hreads access hmem
    · rcases List.mem_append.mp hmem with hmem | hmem
      · exact hreads access hmem
      · exact hfrags hdone access hmem
    · rcases List.mem_append.mp hmem with hmem | hmem
      · rcases List.mem_append.mp hmem with hmem | hmem
        · exact hreads access hmem
        · exact hfrags hdone access hmem
      · exact hlist access hmem

theorem copyList_owns : ∀ (fragList : List Skb) (start offset len : Nat),
    (∀ skb ∈ fragList, skb.WellFormed) →
    ∀ access ∈ (copyList fragList start offset len).1, ∃ skb ∈ fragList, Owns skb access
  | [], _, _, _, _ => fun _ hmem => absurd hmem List.not_mem_nil
  | skb :: rest, start, offset, len, h => by
    have hhere : ∀ {offset' len'}, ∀ access ∈ (skbCopyBits skb offset' len').1,
        ∃ s ∈ skb :: rest, Owns s access := by
      intro offset' len' access hmem
      exact ⟨skb, List.mem_cons_self,
        skbCopyBits_owns skb _ _ (h skb List.mem_cons_self) access hmem⟩
    have hrest : ∀ {start' offset' len'}, ∀ access ∈ (copyList rest start' offset' len').1,
        ∃ s ∈ skb :: rest, Owns s access := by
      intro start' offset' len' access hmem
      obtain ⟨s, hs, howns⟩ := copyList_owns rest _ _ _
        (fun s hs => h s (List.mem_cons_of_mem _ hs)) access hmem
      exact ⟨s, List.mem_cons_of_mem _ hs, howns⟩
    rw [copyList]
    dsimp only
    intro access hmem
    split_ifs at hmem with hstop hok hlen
    · exact hhere access hmem
    · rcases List.mem_append.mp hmem with hmem | hmem
      · exact hhere access hmem
      · exact hrest access hmem
    · exact hhere access hmem
    · exact hrest access hmem

end

theorem skbHeaderPointer_owns {skb : Skb} (h : skb.WellFormed) {offset size : Nat} :
    ∀ access ∈ (skbHeaderPointer skb offset size).1, Owns skb access := by
  intro access hmem
  unfold skbHeaderPointer at hmem
  split_ifs at hmem with hfit
  · have := h.fields.head_le
    have := h.fields.tail_eq
    exact owns_of_mem_linearAccesses h hmem (by omega) (by omega)
  · exact skbCopyBits_owns skb offset size h access hmem

/-- A load with a negative offset that starts before the tail ends there too. -/
def FitsTail (skb : Skb) (k : Int) (size : Nat) : Prop :=
  k < skfAdOff → skb.fields.head ≤ loadAddress skb k → loadAddress skb k < skb.fields.tail →
    loadAddress skb k + size ≤ skb.fields.tail

theorem loadPointer_owns {skb : Skb} (h : skb.WellFormed) {k : Int} {size : Nat}
    (hfits : FitsTail skb k size) : ∀ access ∈ (loadPointer skb k size).1, Owns skb access := by
  intro access hmem
  unfold loadPointer at hmem
  split_ifs at hmem with hk had
  · exact skbHeaderPointer_owns h access hmem
  · exact absurd hmem List.not_mem_nil
  · unfold loadPointerSlow at hmem
    dsimp only at hmem
    split_ifs at hmem with hptr
    · exact owns_of_mem_linearAccesses h hmem hptr.1 (hfits (by omega) hptr.1 hptr.2)
    · exact absurd hmem List.not_mem_nil

/-! ## Attributes -/

/-- A search for an attribute reads within what it is given. -/
theorem nlaFind_reads (memory : Memory) (nla : Nat) (rem attrtype : Int)
    (hfit : (nla : Int) + rem ≤ 2 ^ 32) :
    ∀ access ∈ (nlaFind memory nla rem attrtype).1,
      ∃ i : Nat, (i : Int) < rem ∧ access = .linear (nla + i) := by
  have hhere : ∀ {nla : Nat} {rem : Int} {size : Nat}, 4 ≤ rem → (nla : Int) + rem ≤ 2 ^ 32 →
      size ≤ 4 → ∀ access ∈ linearAccesses nla size,
        ∃ i : Nat, (i : Int) < rem ∧ access = .linear (nla + i) := by
    intro nla rem size hrem hfit hsize access hmem
    obtain ⟨i, hi, rfl⟩ := mem_linearAccesses hmem (by omega)
    exact ⟨i, by omega, rfl⟩
  fun_induction nlaFind memory nla rem attrtype with
  | case1 nla rem hrem nlaLen hok htype => exact hhere hrem hfit (Nat.le_refl 4)
  | case2 nla rem hrem nlaLen hok htype more found hfound ih =>
    rw [hfound] at ih
    intro access hmem
    rcases List.mem_append.mp hmem with hmem | hmem
    · exact hhere hrem hfit (Nat.le_refl 4) access hmem
    · obtain ⟨i, hi, rfl⟩ := ih (by omega) access hmem
      -- something is left, so the next attribute starts before the end of the memory
      have hmod : (nla + nlaAlign nlaLen) % 2 ^ 32 = nla + nlaAlign nlaLen :=
        Nat.mod_eq_of_lt (by omega)
      exact ⟨nlaAlign nlaLen + i, by omega, by rw [hmod, Nat.add_assoc]⟩
  | case3 nla rem hrem nlaLen hok => exact hhere hrem hfit (by omega)
  | case4 nla rem hrem =>
    intro access hmem
    exact absurd hmem List.not_mem_nil

theorem addressAt_of_lt {base offset : Nat} (h : base + offset < 2 ^ 32) :
    addressAt base offset = base + offset := by
  unfold addressAt
  omega

/-- A search within the data of a packet without fragments. -/
theorem nlaFind_owns {memory : Memory} {skb : Skb} (h : skb.WellFormed) {offset : Nat}
    {rem attrtype : Int} (hlinear : skb.fields.dataLen = 0)
    (hfit : 4 ≤ rem → offset + rem ≤ skb.fields.len) :
    ∀ access ∈ (nlaFind memory (addressAt skb.fields.data offset) rem attrtype).1,
      Owns skb access := by
  intro access hmem
  by_cases hrem : 4 ≤ rem
  · have hf := h.fields
    have hend := hf.tail_eq
    unfold SkbFields.headlen at hend
    have := hf.tail_lt
    have := hf.head_le
    have := hfit hrem
    rw [addressAt_of_lt (by omega)] at hmem
    obtain ⟨i, hi, rfl⟩ := nlaFind_reads memory _ rem attrtype (by omega) access hmem
    exact owns_linear (by omega) (by omega)
  · rw [nlaFind, if_neg hrem] at hmem
    exact absurd hmem List.not_mem_nil

/-! ## One instruction -/

/-- The condition on `SKF_AD_NLATTR`: the packet has room for the header of an attribute, or the
length that is left over is not taken for a positive number. -/
def NlattrFits (skb : Skb) (s : State) : Prop :=
  4 ≤ skb.fields.len ∨ signed (subU32 skb.fields.len s.a.toNat) < 4

/-- The condition on `SKF_AD_NLATTR_NEST`: the packet has room for the header of an attribute,
and the attribute is within the packet. -/
def NlattrNestFits (memory : Memory) (skb : Skb) (s : State) : Prop :=
  4 ≤ skb.fields.len ∧ (s.a.toNat + 4 ≤ skb.fields.len →
    s.a.toNat + readU16 memory (addressAt skb.fields.data s.a.toNat) ≤ skb.fields.len)

/-- The condition on a load. -/
structure LoadGuard (memory : Memory) (skb : Skb) (k : Int) (size : Nat) (s : State) : Prop where
  tail : FitsTail skb k size
  nlattr : k = skfAdOff + 12 → skb.fields.dataLen = 0 → NlattrFits skb s
  nest : k = skfAdOff + 16 → skb.fields.dataLen = 0 → NlattrNestFits memory skb s

/-- The condition on an instruction. -/
def Opcode.LoadGuard (memory : Memory) (skb : Skb) (f : SockFilter) (s : State) : Opcode → Prop
  | .ldAbs size => Filter.LoadGuard memory skb (signed f.k.toNat) size.bytes s
  | .ldInd size => Filter.LoadGuard memory skb (signed (s.x + f.k).toNat) size.bytes s
  | _ => True

def StepLoadGuard (memory : Memory) (skb : Skb) (f : SockFilter) (s : State) : Prop :=
  ∀ op, decode f.code = some op → op.LoadGuard memory skb f s

/-- All that is read belongs to the packet. -/
def ReadsOwned (skb : Skb) (events : List Event) : Prop :=
  ∀ access, Event.read access ∈ events → Owns skb access

theorem readsOwned_map {skb : Skb} {reads : List Access} (h : ∀ access ∈ reads, Owns skb access) :
    ReadsOwned skb (reads.map .read) := by
  intro access hmem
  obtain ⟨a, ha, heq⟩ := List.mem_map.mp hmem
  cases heq
  exact h access ha

theorem ReadsOwned.append {skb : Skb} {xs ys : List Event} (hx : ReadsOwned skb xs)
    (hy : ReadsOwned skb ys) : ReadsOwned skb (xs ++ ys) := by
  intro access hmem
  rcases List.mem_append.mp hmem with hmem | hmem
  · exact hx access hmem
  · exact hy access hmem

theorem readsOwned_nil {skb : Skb} : ReadsOwned skb [] :=
  fun _ hmem => absurd hmem List.not_mem_nil

variable {memory : Memory} {skb : Skb}

theorem signed_subU32 {a b : Nat} (ha : a < 2 ^ 31) (hle : b ≤ a) :
    signed (subU32 a b) = (a : Int) - b := by
  have : subU32 a b = a - b := by
    unfold subU32
    omega
  rw [this, signed_of_lt (by omega)]
  omega

/-- What the test for the room behind `A` says when there is no overflow. -/
theorem add_four_le_of_not_lt {len : Nat} {a : UInt32} (hlen : len < 2 ^ 32) (hfour : 4 ≤ len)
    (h : ¬ subU32 len 4 < a.toNat) : a.toNat + 4 ≤ len := by
  unfold subU32 at h
  omega

theorem execNlattr_reads (h : skb.WellFormed) {s : State}
    (hguard : skb.fields.dataLen = 0 → NlattrFits skb s) :
    ReadsOwned skb (execNlattr memory skb s).1 := by
  have hlen := h.fields.len_lt
  unfold execNlattr
  split_ifs with hlinear hroom
  · exact readsOwned_nil
  · exact readsOwned_nil
  refine readsOwned_map ?_
  rw [List.nil_append]
  refine nlaFind_owns h (by omega) ?_
  intro hrem
  rcases hguard (by omega) with hfour | hneg
  · have := add_four_le_of_not_lt (Nat.lt_trans hlen (by decide)) hfour hroom
    rw [signed_subU32 hlen (by omega)]
    omega
  · omega

theorem execNlattrNest_reads (h : skb.WellFormed) {s : State}
    (hguard : skb.fields.dataLen = 0 → NlattrNestFits memory skb s) :
    ReadsOwned skb (execNlattrNest memory skb s).1 := by
  have hlen := h.fields.len_lt
  have hend := h.fields.tail_eq
  unfold SkbFields.headlen at hend
  have htail := h.fields.tail_lt
  have hhead := h.fields.head_le
  unfold execNlattrNest
  split_ifs with hlinear hroom hcheck
  · exact readsOwned_nil
  · exact readsOwned_nil
  · obtain ⟨hfour, _⟩ := hguard (by omega)
    have := add_four_le_of_not_lt (Nat.lt_trans hlen (by decide)) hfour hroom
    refine readsOwned_map ?_
    rw [addressAt_of_lt (by omega)]
    intro access hmem
    exact owns_of_mem_linearAccesses h hmem (by omega) (by omega)
  obtain ⟨hfour, hnest⟩ := hguard (by omega)
  have hroom := add_four_le_of_not_lt (Nat.lt_trans hlen (by decide)) hfour hroom
  have hnest := hnest hroom
  refine readsOwned_map ?_
  intro access hmem
  rcases List.mem_append.mp hmem with hmem | hmem
  · rw [addressAt_of_lt (by omega)] at hmem
    exact owns_of_mem_linearAccesses h hmem (by omega) (by omega)
  · unfold nlaFindNested at hmem
    have hnext : addressAt (addressAt skb.fields.data s.a.toNat) 4 =
        addressAt skb.fields.data (s.a.toNat + 4 : Nat) := by
      unfold addressAt
      omega
    rw [hnext] at hmem
    exact nlaFind_owns h (by omega) (by omega) access hmem

theorem execLoad_reads (h : skb.WellFormed) {k : Int} {size : Size} {s : State}
    (hguard : LoadGuard memory skb k size.bytes s) :
    ReadsOwned skb (execLoad memory skb k size s).1 := by
  have hload : ReadsOwned skb ((loadPointer skb k size.bytes).1.map .read) :=
    readsOwned_map (loadPointer_owns h hguard.tail)
  have hancillary : ReadsOwned skb (execAncillary memory skb k s).1 := by
    unfold execAncillary
    split_ifs with h0 h4 h8 h12 h16
    · exact readsOwned_nil
    · exact readsOwned_nil
    · cases skb.fields.dev with
      | some ifindex => exact readsOwned_nil
      | none => exact readsOwned_nil
    · exact execNlattr_reads h (hguard.nlattr (by omega))
    · exact execNlattrNest_reads h (hguard.nest (by omega))
    · exact readsOwned_nil
  unfold execLoad
  generalize loadPointer skb k size.bytes = r at hload ⊢
  obtain ⟨reads, ok⟩ := r
  cases ok with
  | true => exact hload
  | false => exact hload.append hancillary

theorem execMsh_reads (h : skb.WellFormed) {k : Int} {s : State} :
    ReadsOwned skb (execMsh memory skb k s).1 := by
  have hload : ReadsOwned skb ((loadPointer skb k 1).1.map .read) :=
    readsOwned_map (loadPointer_owns h fun _ _ hlt => hlt)
  unfold execMsh
  generalize loadPointer skb k 1 = r at hload ⊢
  obtain ⟨reads, ok⟩ := r
  cases ok with
  | true => exact hload
  | false => exact hload

theorem readsOwned_execAlu {op : AluOp} {src : Src} {f : SockFilter} {s : State} :
    ReadsOwned skb (execAlu op src f s).1 := by
  intro access hmem
  cases op with
  | add | sub | mul | and | or => exact absurd hmem List.not_mem_nil
  | lsh | rsh => cases List.mem_singleton.mp hmem
  | div =>
    cases src with
    | k => cases List.mem_singleton.mp hmem
    | x =>
      unfold execAlu at hmem
      dsimp only at hmem
      split_ifs at hmem with hx
      · exact absurd hmem List.not_mem_nil
      · cases List.mem_singleton.mp hmem

theorem exec_reads (h : skb.WellFormed) {f : SockFilter} {s : State}
    (hguard : StepLoadGuard memory skb f s) : ReadsOwned skb (exec memory skb f s).1 := by
  cases hop : decode f.code with
  | none =>
    rw [exec, hop]
    exact readsOwned_nil
  | some op =>
    have hguard := hguard op hop
    rw [exec_of_decode hop]
    cases op with
    | alu op src => exact readsOwned_execAlu
    | ldAbs size | ldInd size =>
      rw [execOp]
      exact execLoad_reads h hguard
    | ldxMsh =>
      rw [execOp]
      exact execMsh_reads h
    | ldMem | ldxMem | st | stx =>
      intro access hmem
      cases List.mem_singleton.mp hmem
    | neg | ja | jmp | ldLen | ldxLen | ldImm | ldxImm | tax | txa | retK | retA =>
      exact readsOwned_nil

/-! ## A run -/

/-- Whatever a filter, accepted or not, reads of a packet belongs to the packet, in every run
whose instructions all meet the condition. -/
theorem sk_run_filter_reads (memory : Memory) (skb : Skb) (filter : List SockFilter) (fuel : Nat)
    (s : State) (h : skb.WellFormed)
    (hguard : ∀ step ∈ (skRunFilter memory skb filter fuel s).1,
      StepLoadGuard memory skb step.1 step.2.1) :
    ∀ step ∈ (skRunFilter memory skb filter fuel s).1, ReadsOwned skb step.2.2 := by
  induction fuel generalizing s with
  | zero =>
    intro step hstep
    exact absurd hstep List.not_mem_nil
  | succ fuel ih =>
    rw [skRunFilter] at hguard ⊢
    split_ifs at hguard ⊢ with hlt hneg
    · exact fun _ hstep => absurd hstep List.not_mem_nil
    · cases hf : filter[s.pc.toNat]? with
      | none => exact fun _ hstep => absurd hstep List.not_mem_nil
      | some f =>
        rw [hf] at hguard
        have hexec : StepLoadGuard memory skb f s →
            ReadsOwned skb (exec memory skb f s).1 := exec_reads h
        dsimp only at hguard ⊢
        generalize exec memory skb f s = r at hguard hexec ⊢
        obtain ⟨events, o⟩ := r
        cases o with
        | next s' =>
          rw [List.forall_mem_cons] at hguard ⊢
          exact ⟨hexec hguard.1, ih s' hguard.2⟩
        | returned value | rejected | warned | oops =>
          rw [List.forall_mem_singleton] at hguard ⊢
          exact hexec hguard
    · exact fun _ hstep => absurd hstep List.not_mem_nil

/-- A packet of four bytes, with the network header at its last byte. -/
def shortSkb : Skb :=
  .mk ⟨4096, 4096, 4100, 4099, 4096, 4, 0, 0, 0, none⟩ [] []

theorem shortSkb_wellFormed : shortSkb.WellFormed :=
  .mk ⟨by decide, Nat.le_refl _, by decide, rfl, by decide, by decide⟩ nofun

/-- `A = the word at offset k; return A`. -/
def loadProgram (k : UInt32) : List SockFilter :=
  [⟨bpfLd ||| bpfW ||| bpfAbs, 0, 0, k⟩, ⟨bpfRet ||| bpfA, 0, 0, 0⟩]

theorem sk_run_filter_reads_word :
    skChkFilter (loadProgram 0) = true ∧ shortSkb.WellFormed ∧
      ∀ step ∈ (skRunFilter (fun _ => 0) shortSkb (loadProgram 0) 2 (.initial fun _ => 0)).1,
        ReadsOwned shortSkb step.2.2 := by
  refine ⟨rfl, shortSkb_wellFormed, sk_run_filter_reads _ _ _ _ _ shortSkb_wellFormed ?_⟩
  have hload : StepLoadGuard (fun _ => 0) shortSkb ⟨bpfLd ||| bpfW ||| bpfAbs, 0, 0, 0⟩
      (.initial fun _ => 0) := by
    intro op hop
    have hop : Opcode.ldAbs .w = op := Option.some.inj hop
    rw [← hop]
    exact ⟨fun hneg => absurd hneg (by decide), fun hk => absurd hk (by decide),
      fun hk => absurd hk (by decide)⟩
  have hret : ∀ s, StepLoadGuard (fun _ => 0) shortSkb ⟨bpfRet ||| bpfA, 0, 0, 0⟩ s := by
    intro s op hop
    have hop : Opcode.retA = op := Option.some.inj hop
    rw [← hop]
    trivial
  intro step hstep
  rcases List.mem_cons.mp hstep with rfl | hstep
  · exact hload
  · rw [List.mem_singleton.mp hstep]
    exact hret _

/-- A load at `SKF_NET_OFF` reads three bytes behind the tail. -/
theorem sk_run_filter_reads_behind_tail :
    skChkFilter (loadProgram 0xfff00000) = true ∧ shortSkb.WellFormed ∧
      ¬ ∀ step ∈ (skRunFilter (fun _ => 0) shortSkb (loadProgram 0xfff00000) 2
          (.initial fun _ => 0)).1, ReadsOwned shortSkb step.2.2 := by
  refine ⟨rfl, shortSkb_wellFormed, ?_⟩
  intro h
  have howns : Owns shortSkb (.linear 4100) :=
    h _ (.head _) (.linear 4100) (.tail _ (.head _))
  cases howns with
  | linear hhead htail => exact absurd htail (by decide)
  | nested hskb howns => cases hskb

end AndroidKernel.Filter
