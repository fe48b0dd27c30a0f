import AndroidKernel.Filter.Safety

/-!
# What a filter sees of its scratch memory

Read `sk_run_filter_scratch_iff` first. Nothing sets the scratch memory before a filter runs, and
`sk_chk_filter` tests only the index of a load. A run that loads a slot before it stores there sees
what the kernel left in it; a run that does not is the same for all contents.
-/

namespace AndroidKernel.Filter

variable {memory : Memory} {skb : Skb} {s : State} {f : SockFilter}

/-! ## States that differ in their scratch memory -/

/-- The same registers, with another scratch memory. -/
def State.withMem (s : State) (mem : Nat → UInt32) : State :=
  { s with mem := mem }

def Outcome.withMem (mem : Nat → UInt32) : Outcome → Outcome
  | .next s => .next (s.withMem mem)
  | o => o

/-- The outcome of an instruction in another scratch memory. -/
def withMem (mem : Nat → UInt32) (r : List Event × Outcome) : List Event × Outcome :=
  (r.1, r.2.withMem mem)

section Registers

variable (mem : Nat → UInt32)

theorem execAlu_withMem (op : AluOp) (src : Src) :
    execAlu op src f (s.withMem mem) = withMem mem (execAlu op src f s) := by
  have hv : src.value f (s.withMem mem) = src.value f s := by
    cases src with
    | k => rfl
    | x => rfl
  cases op with
  | div =>
    cases src with
    | k => rfl
    | x =>
      simp only [execAlu, hv]
      split_ifs
      · rfl
      · rfl
  | add | sub | mul | and | or | lsh | rsh =>
    simp only [execAlu, hv]
    rfl

theorem execAncillary_withMem (k : Int) :
    execAncillary memory skb k (s.withMem mem) = withMem mem (execAncillary memory skb k s) := by
  rw [execAncillary, execAncillary]
  split_ifs
  · rfl
  · rfl
  · cases skb.fields.dev with
    | some ifindex => rfl
    | none => rfl
  · rw [execNlattr, execNlattr, apply_ite (Filter.withMem mem), apply_ite (Filter.withMem mem)]
    rfl
  · rw [execNlattrNest, execNlattrNest, apply_ite (Filter.withMem mem), apply_ite (Filter.withMem mem),
      apply_ite (Filter.withMem mem)]
    rfl
  · rfl

theorem execLoad_withMem (k : Int) (size : Size) :
    execLoad memory skb k size (s.withMem mem) = withMem mem (execLoad memory skb k size s) := by
  rw [execLoad, execLoad]
  split
  · rfl
  · rw [execAncillary_withMem]
    rfl

theorem execMsh_withMem (k : Int) :
    execMsh memory skb k (s.withMem mem) = withMem mem (execMsh memory skb k s) := by
  rw [execMsh, execMsh]
  split <;> rfl

theorem jump_withMem (offset : Nat) :
    (s.withMem mem).jump offset = (s.jump offset).withMem mem := by
  have hpc : (s.withMem mem).pc = s.pc := rfl
  rw [State.jump, State.jump, hpc]
  generalize signed ((s.pc + offset + 1) % 2 ^ 32).toNat = pc
  rfl

/-- An instruction that does not use the scratch memory neither reads nor changes it. -/
theorem execOp_withMem {op : Opcode} (h : op.usesMem = false) :
    execOp memory skb f (s.withMem mem) op = withMem mem (execOp memory skb f s op) := by
  cases op with
  | alu op src =>
    simp only [execOp]
    exact execAlu_withMem mem op src
  | ldAbs size | ldInd size =>
    simp only [execOp]
    exact execLoad_withMem mem _ size
  | ldxMsh =>
    simp only [execOp]
    exact execMsh_withMem mem _
  | jmp op src =>
    have hv : src.value f (s.withMem mem) = src.value f s := by
      cases src with
      | k => rfl
      | x => rfl
    simp only [execOp, hv, jump_withMem]
    rfl
  | ja =>
    simp only [execOp, jump_withMem]
    rfl
  | ldMem | ldxMem | st | stx => cases h
  | neg | ldLen | ldxLen | ldImm | ldxImm | tax | txa | retK | retA =>
    simp only [execOp]
    rfl

end Registers

theorem Outcome.mem_of_withMem {s' : State} {o : Outcome} {mem : Nat → UInt32}
    (h : o = o.withMem mem) (hnext : o = .next s') : s'.mem = mem := by
  subst hnext
  exact congrArg State.mem (Outcome.next.inj h)

/-! ## Slots that are stored -/

/-- Whether the instruction loads a slot. -/
def Opcode.loads : Opcode → Bool
  | .ldMem | .ldxMem => true
  | _ => false

/-- The slots that are stored after an instruction. -/
def Opcode.stored (op : Opcode) (k : Nat) (stored : List Nat) : List Nat :=
  match op with
  | .st | .stx => k :: stored
  | _ => stored

/-- Every load of a run is from a slot to which the run has stored. -/
def LoadsStored : List Nat → List Step → Prop
  | _, [] => True
  | stored, (fentry, _, _) :: rest =>
    match decode fentry.code with
    | none => LoadsStored stored rest
    | some op => (op.loads = true → fentry.k.toNat ∈ stored) ∧
        LoadsStored (op.stored fentry.k.toNat stored) rest

/-- The scratch memories agree on the slots that are stored. -/
def AgreeOn (stored : List Nat) (mem mem' : Nat → UInt32) : Prop :=
  ∀ i ∈ stored, mem' i = mem i

/-- What is seen of a run: the counter and the registers before each instruction, and its end. -/
def observe (run : List Step × Result) : List (Int × UInt32 × UInt32) × Result :=
  (run.1.map fun step => (step.2.1.pc, step.2.1.a, step.2.1.x), run.2)

/-- How an instruction ends in two scratch memories that agree on what is stored. -/
inductive SameOutcome (stored : List Nat) : Outcome → Outcome → Prop
  | next (s : State) (mem : Nat → UInt32) (agree : AgreeOn stored s.mem mem) :
      SameOutcome stored (.next s) (.next (s.withMem mem))
  | returned (value : UInt32) : SameOutcome stored (.returned value) (.returned value)
  | rejected : SameOutcome stored .rejected .rejected
  | warned : SameOutcome stored .warned .warned
  | oops : SameOutcome stored .oops .oops

variable {op : Opcode} {mem : Nat → UInt32} {stored : List Nat}

theorem SameOutcome.withMem {o : Outcome}
    (h : ∀ s', o = .next s' → AgreeOn stored s'.mem mem) : SameOutcome stored o (o.withMem mem) := by
  cases o with
  | next s => exact .next s mem (h s rfl)
  | returned value => exact .returned value
  | rejected => exact .rejected
  | warned => exact .warned
  | oops => exact .oops

theorem withMem_self (s : State) : s.withMem s.mem = s :=
  rfl

/-- A store makes the memories agree on one more slot. -/
theorem AgreeOn.update {k : Nat} {v : UInt32} {m : Nat → UInt32} (h : AgreeOn stored m mem) :
    AgreeOn (k :: stored) (Function.update m k v) (Function.update mem k v) := by
  intro i hi
  by_cases hk : i = k
  · subst hk
    rw [Function.update_self, Function.update_self]
  · rw [Function.update_of_ne hk, Function.update_of_ne hk]
    exact h i ((List.mem_cons.mp hi).resolve_left hk)

/-- An instruction that loads a stored slot, or none, does the same in both memories. -/
theorem execOp_agree (hload : op.loads = true → f.k.toNat ∈ stored)
    (h : AgreeOn stored s.mem mem) :
    (execOp memory skb f (s.withMem mem) op).1 = (execOp memory skb f s op).1 ∧
      SameOutcome (op.stored f.k.toNat stored) (execOp memory skb f s op).2
        (execOp memory skb f (s.withMem mem) op).2 := by
  by_cases huses : op.usesMem = false
  · have hsame := @execOp_withMem memory skb s f s.mem op huses
    have hstored : op.stored f.k.toNat stored = stored := by
      cases op with
      | st | stx => cases huses
      | _ => rfl
    rw [execOp_withMem mem huses, hstored]
    refine ⟨rfl, .withMem fun s' hs' => ?_⟩
    rw [withMem_self] at hsame
    have hmem := Outcome.mem_of_withMem (congrArg Prod.snd hsame) hs'
    rw [hmem]
    exact h
  cases op with
  | ldMem =>
    have hslot : mem f.k.toNat = s.mem f.k.toNat := h _ (hload rfl)
    simp only [execOp, State.withMem, hslot]
    exact ⟨trivial, .next _ mem h⟩
  | ldxMem =>
    have hslot : mem f.k.toNat = s.mem f.k.toNat := h _ (hload rfl)
    simp only [execOp, State.withMem, hslot]
    exact ⟨trivial, .next _ mem h⟩
  | st => exact ⟨rfl, .next _ (Function.update mem f.k.toNat s.a) h.update⟩
  | stx => exact ⟨rfl, .next _ (Function.update mem f.k.toNat s.x) h.update⟩
  | _ => exact absurd rfl huses

/-- For each scratch memory after an instruction that agrees on what is stored then, there is one
before it. -/
theorem execOp_back {events : List Event} {s' : State}
    (hexec : execOp memory skb f s op = (events, .next s'))
    (hload : op.loads = true → f.k.toNat ∈ stored)
    (h : AgreeOn (op.stored f.k.toNat stored) s'.mem mem) :
    ∃ before, AgreeOn stored s.mem before ∧
      execOp memory skb f (s.withMem before) op = (events, .next (s'.withMem mem)) := by
  -- what a store has overwritten is put back
  have hstore : ∀ v, AgreeOn (f.k.toNat :: stored) (Function.update s.mem f.k.toNat v) mem →
      AgreeOn stored s.mem (Function.update mem f.k.toNat (s.mem f.k.toNat)) ∧
        Function.update (Function.update mem f.k.toNat (s.mem f.k.toNat)) f.k.toNat v = mem := by
    intro v hv
    constructor
    · intro i hi
      by_cases hk : i = f.k.toNat
      · rw [hk, Function.update_self]
      · have hslot := hv i (List.mem_cons_of_mem _ hi)
        rw [Function.update_of_ne hk] at hslot ⊢
        exact hslot
    · have hslot := hv _ List.mem_cons_self
      rw [Function.update_self] at hslot
      rw [Function.update_idem, ← hslot, Function.update_eq_self]
  by_cases huses : op.usesMem = false
  · have hsame := @execOp_withMem memory skb s f s.mem op huses
    rw [withMem_self, hexec] at hsame
    have hmem := Outcome.mem_of_withMem (congrArg Prod.snd hsame) rfl
    have hstored : op.stored f.k.toNat stored = stored := by
      cases op with
      | st | stx => cases huses
      | _ => rfl
    rw [hstored, hmem] at h
    refine ⟨mem, h, ?_⟩
    rw [execOp_withMem mem huses, hexec]
    rfl
  cases op with
  | ldMem =>
    obtain ⟨rfl, hnext⟩ := Prod.mk.inj hexec
    obtain rfl := Outcome.next.inj hnext
    have hslot : mem f.k.toNat = s.mem f.k.toNat := h _ (hload rfl)
    refine ⟨mem, h, ?_⟩
    simp only [execOp, State.withMem, hslot]
    rfl
  | ldxMem =>
    obtain ⟨rfl, hnext⟩ := Prod.mk.inj hexec
    obtain rfl := Outcome.next.inj hnext
    have hslot : mem f.k.toNat = s.mem f.k.toNat := h _ (hload rfl)
    refine ⟨mem, h, ?_⟩
    simp only [execOp, State.withMem, hslot]
    rfl
  | st =>
    obtain ⟨rfl, hnext⟩ := Prod.mk.inj hexec
    obtain rfl := Outcome.next.inj hnext
    obtain ⟨hagree, hmem⟩ := hstore s.a h
    refine ⟨_, hagree, ?_⟩
    simp only [execOp, State.withMem, hmem]
    rfl
  | stx =>
    obtain ⟨rfl, hnext⟩ := Prod.mk.inj hexec
    obtain rfl := Outcome.next.inj hnext
    obtain ⟨hagree, hmem⟩ := hstore s.x h
    refine ⟨_, hagree, ?_⟩
    simp only [execOp, State.withMem, hmem]
    rfl
  | _ => exact absurd rfl huses

/-! ## Runs of an accepted filter -/

/-- The run after an instruction. -/
def Outcome.rest (run : State → List Step × Result) : Outcome → List Step × Result
  | .next s => run s
  | .returned value => ([], .returned value)
  | .rejected => ([], .rejected)
  | .warned => ([], .warned)
  | .oops => ([], .oops)

/-- What is executed is put in front of the rest of the run. -/
theorem skRunFilter_succ {filter : List SockFilter} {fuel : Nat} (hpc : 0 ≤ s.pc)
    (hlt : s.pc < filter.length) (hf : filter[s.pc.toNat]? = some f)
    (hop : decode f.code = some op) :
    skRunFilter memory skb filter (fuel + 1) s =
      ((f, s, (execOp memory skb f s op).1) ::
          ((execOp memory skb f s op).2.rest (skRunFilter memory skb filter fuel)).1,
        ((execOp memory skb f s op).2.rest (skRunFilter memory skb filter fuel)).2) := by
  rw [skRunFilter, if_pos hlt, if_neg (Int.not_lt.mpr hpc), hf]
  dsimp only
  rw [exec_of_decode hop]
  obtain ⟨events, o⟩ := execOp memory skb f s op
  cases o with
  | next s' => rfl
  | returned value => rfl
  | rejected | warned | oops => rfl

theorem loadsStored_cons {step : Step} {rest : List Step} (hop : decode step.1.code = some op) :
    LoadsStored stored (step :: rest) ↔ (op.loads = true → step.1.k.toNat ∈ stored) ∧
      LoadsStored (op.stored step.1.k.toNat stored) rest := by
  rw [LoadsStored, hop]

/-- A run that loads only what it has stored is the same in every scratch memory that agrees on
what is stored. -/
theorem Accepted.observe_eq {filter : List SockFilter} (haccepted : Accepted filter) {fuel : Nat}
    {s : State} {mem : Nat → UInt32} {stored : List Nat} (hpc : 0 ≤ s.pc)
    (hlt : s.pc < filter.length) (hagree : AgreeOn stored s.mem mem)
    (hloads : LoadsStored stored (skRunFilter memory skb filter fuel s).1) :
    observe (skRunFilter memory skb filter fuel (s.withMem mem)) =
      observe (skRunFilter memory skb filter fuel s) := by
  induction fuel generalizing s mem stored with
  | zero => rfl
  | succ fuel ih =>
    obtain ⟨f, hf⟩ : ∃ f, filter[s.pc.toNat]? = some f :=
      ⟨_, List.getElem?_eq_getElem (by omega)⟩
    obtain ⟨op, hop, haccepts, hnext⟩ := haccepted.insn hf
    have hgoes :=
      (@exec_spec memory skb _ _ f op s hop haccepts hnext haccepted.le (by omega)).1
    rw [exec_of_decode hop] at hgoes
    have hrun' := @skRunFilter_succ memory skb (s.withMem mem) f op filter fuel hpc hlt hf hop
    rw [skRunFilter_succ hpc hlt hf hop] at hloads ⊢
    rw [hrun']
    obtain ⟨hload, hrest⟩ := (loadsStored_cons hop).mp hloads
    obtain ⟨_, hsame⟩ := @execOp_agree memory skb s f op mem stored hload hagree
    have hobserve : observe ((execOp memory skb f (s.withMem mem) op).2.rest
          (skRunFilter memory skb filter fuel)) =
        observe ((execOp memory skb f s op).2.rest (skRunFilter memory skb filter fuel)) := by
      generalize (execOp memory skb f s op).2 = o at hsame hgoes hrest
      generalize (execOp memory skb f (s.withMem mem) op).2 = o' at hsame
      cases hsame with
      | next s' mem' hagree' =>
        cases hgoes with
        | next forward inside => exact ih (by omega) inside hagree' hrest
      | returned value => rfl
      | rejected | warned | oops => rfl
    obtain ⟨htrace, hresult⟩ := Prod.mk.inj hobserve
    exact Prod.ext (congrArg (List.cons (s.pc, s.a, s.x)) htrace) hresult

/-- The first thing that is seen of a run. -/
theorem observe_head {filter : List SockFilter} {fuel : Nat} (hpc : 0 ≤ s.pc)
    (hlt : s.pc < filter.length) (haccepted : Accepted filter) (hfuel : 0 < fuel) :
    (observe (skRunFilter memory skb filter fuel s)).1.head? = some (s.pc, s.a, s.x) := by
  obtain ⟨fuel, rfl⟩ : ∃ n, fuel = n + 1 := ⟨fuel - 1, by omega⟩
  obtain ⟨f, hf⟩ : ∃ f, filter[s.pc.toNat]? = some f := ⟨_, List.getElem?_eq_getElem (by omega)⟩
  obtain ⟨op, hop, _⟩ := haccepted.insn hf
  rw [skRunFilter_succ hpc hlt hf hop]
  rfl

theorem add_one_ne (v : UInt32) : v + 1 ≠ v := by
  intro h
  have hone : (1 : UInt32) = 0 := by
    calc (1 : UInt32) = v + 1 - v := by rw [UInt32.add_comm, UInt32.add_sub_cancel]
      _ = 0 := by rw [h, UInt32.sub_self]
  exact absurd hone (by decide)

/-- A slot that is loaded without a store shows in the register that it is loaded to. -/
theorem load_shows {k : Nat} (hload : op.loads = true) (hk : f.k.toNat = k) :
    ∃ s₁ s₂ : State, (execOp memory skb f s op).2 = .next s₁ ∧
      (execOp memory skb f (s.withMem (Function.update s.mem k (s.mem k + 1))) op).2 = .next s₂ ∧
      s₁.pc = s.pc + 1 ∧ s₂.pc = s.pc + 1 ∧ (s₁.a, s₁.x) ≠ (s₂.a, s₂.x) := by
  subst hk
  have hslot : Function.update s.mem f.k.toNat (s.mem f.k.toNat + 1) f.k.toNat =
      s.mem f.k.toNat + 1 := Function.update_self ..
  cases op with
  | ldMem =>
    refine ⟨_, _, rfl, rfl, rfl, rfl, fun heq => ?_⟩
    have ha := (Prod.mk.inj heq).1
    exact add_one_ne _ (hslot.symm.trans ha.symm)
  | ldxMem =>
    refine ⟨_, _, rfl, rfl, rfl, rfl, fun heq => ?_⟩
    have hx := (Prod.mk.inj heq).2
    exact add_one_ne _ (hslot.symm.trans hx.symm)
  | _ => cases hload

/-- A run that loads a slot before it stores there can be told from another one. -/
theorem Accepted.observe_ne {filter : List SockFilter} (haccepted : Accepted filter) {fuel : Nat}
    {s : State} {stored : List Nat} (hpc : 0 ≤ s.pc) (hlt : s.pc < filter.length)
    (hfuel : filter.length ≤ s.pc + fuel)
    (hloads : ¬ LoadsStored stored (skRunFilter memory skb filter fuel s).1) :
    ∃ mem, AgreeOn stored s.mem mem ∧ observe (skRunFilter memory skb filter fuel (s.withMem mem)) ≠
      observe (skRunFilter memory skb filter fuel s) := by
  induction fuel generalizing s stored with
  | zero => exact absurd trivial hloads
  | succ fuel ih =>
    obtain ⟨f, hf⟩ : ∃ f, filter[s.pc.toNat]? = some f :=
      ⟨_, List.getElem?_eq_getElem (by omega)⟩
    obtain ⟨op, hop, haccepts, hnext⟩ := haccepted.insn hf
    have hgoes :=
      (@exec_spec memory skb _ _ f op s hop haccepts hnext haccepted.le (by omega)).1
    rw [exec_of_decode hop] at hgoes
    have hrun' : ∀ mem, skRunFilter memory skb filter (fuel + 1) (s.withMem mem) = _ :=
      fun mem => @skRunFilter_succ memory skb (s.withMem mem) f op filter fuel hpc hlt hf hop
    rw [skRunFilter_succ hpc hlt hf hop] at hloads ⊢
    rw [loadsStored_cons hop, not_and_or] at hloads
    by_cases hload : op.loads = true → f.k.toNat ∈ stored
    · -- the load comes later
      have hlater := hloads.resolve_left (not_not.mpr hload)
      obtain ⟨events, o, hexec⟩ : ∃ events o, execOp memory skb f s op = (events, o) :=
        ⟨_, _, rfl⟩
      rw [hexec] at hgoes hlater ⊢
      cases hgoes with
      | next forward inside =>
        obtain ⟨mem₂, hagree₂, hne⟩ := ih (by omega) inside (by omega) hlater
        obtain ⟨mem, hagree, hback⟩ := execOp_back hexec hload hagree₂
        refine ⟨mem, hagree, fun heq => hne ?_⟩
        rw [hrun', hback] at heq
        obtain ⟨htrace, hresult⟩ := Prod.mk.inj heq
        exact Prod.ext (List.cons.inj htrace).2 hresult
      | returned value => exact absurd trivial hlater
      | rejected | oops => exact absurd trivial hlater
    -- the slot is loaded here, and the next instruction is executed with what it held
    obtain ⟨hisload, hnot⟩ := Classical.not_imp.mp hload
    obtain ⟨s₁, s₂, h₁, h₂, hpc₁, hpc₂, hregs⟩ := @load_shows memory skb s f op _ hisload rfl
    have hret : op.isRet = false := by
      cases op with
      | ldMem | ldxMem => rfl
      | _ => cases hisload
    have hinside := hnext hret
    refine ⟨Function.update s.mem f.k.toNat (s.mem f.k.toNat + 1), fun i hi => ?_, fun heq => ?_⟩
    · have hne : i ≠ f.k.toNat := fun hk => hnot (hk ▸ hi)
      exact Function.update_of_ne hne ..
    rw [hrun'] at heq
    obtain ⟨htrace, _⟩ := Prod.mk.inj heq
    have htail := (List.cons.inj htrace).2
    rw [h₁, h₂] at htail
    have hhead₁ := @observe_head memory skb s₁ filter fuel (by omega) (by omega) haccepted
      (by omega)
    have hhead₂ := @observe_head memory skb s₂ filter fuel (by omega) (by omega) haccepted
      (by omega)
    have hsame : some (s₂.pc, s₂.a, s₂.x) = some (s₁.pc, s₁.a, s₁.x) :=
      hhead₂.symm.trans ((congrArg List.head? htail).trans hhead₁)
    exact hregs (Prod.mk.inj (Option.some.inj hsame)).2.symm

/-! ## Main result -/

/-- The run of a filter on a packet. -/
abbrev runOf (memory : Memory) (skb : Skb) (filter : List SockFilter) (mem : Nat → UInt32) :
    List Step × Result :=
  skRunFilter memory skb filter filter.length (.initial mem)

/-- The registers of a run, and with them what it returns, are the same for all contents of the
scratch memory exactly when the run loads no slot to which it has not stored. -/
theorem sk_run_filter_scratch_iff (memory : Memory) (skb : Skb) (filter : List SockFilter)
    (mem : Nat → UInt32) (h : skChkFilter filter = true) :
    (LoadsStored [] (runOf memory skb filter mem).1 ↔
      ∀ mem', observe (runOf memory skb filter mem') = observe (runOf memory skb filter mem)) ∧
    (LoadsStored [] (runOf memory skb filter mem).1 →
      ∀ mem', (runOf memory skb filter mem').2 = (runOf memory skb filter mem).2) := by
  have haccepted := accepted_of_skChkFilter h
  have hpos := haccepted.pos
  have hlt : (State.initial mem).pc < filter.length := by
    show (0 : Int) < filter.length
    omega
  have hfuel : (filter.length : Int) ≤ (State.initial mem).pc + filter.length := by
    show (filter.length : Int) ≤ 0 + filter.length
    omega
  have hforward : LoadsStored [] (runOf memory skb filter mem).1 → ∀ mem',
      observe (runOf memory skb filter mem') = observe (runOf memory skb filter mem) :=
    fun hloads mem' =>
      @Accepted.observe_eq memory skb filter haccepted filter.length (.initial mem) mem' []
        (Int.le_refl 0) hlt (fun _ hi => absurd hi List.not_mem_nil) hloads
  refine ⟨⟨hforward, fun hsame => ?_⟩, fun hloads mem' => (Prod.mk.inj (hforward hloads mem')).2⟩
  by_contra hloads
  obtain ⟨mem', _, hne⟩ := haccepted.observe_ne (s := .initial mem) (Int.le_refl 0) hlt hfuel hloads
  exact hne (hsame mem')

/-- `M[0] = A; A = M[0]; return A`. -/
def storeProgram : List SockFilter :=
  [⟨bpfSt, 0, 0, 0⟩, ⟨bpfLd ||| bpfMem, 0, 0, 0⟩, ⟨bpfRet ||| bpfA, 0, 0, 0⟩]

theorem sk_run_filter_scratch_iff_store :
    skChkFilter storeProgram = true ∧ ∀ mem',
      (runOf (fun _ => 0) emptySkb storeProgram mem').2 =
        (runOf (fun _ => 0) emptySkb storeProgram fun _ => 0).2 := by
  have hchk : skChkFilter storeProgram = true := rfl
  refine ⟨hchk, (sk_run_filter_scratch_iff _ emptySkb storeProgram (fun _ => 0) hchk).2 ?_⟩
  show (false = true → 0 ∈ []) ∧ (true = true → 0 ∈ [0]) ∧ (false = true → 0 ∈ [0]) ∧ True
  exact ⟨nofun, fun _ => List.mem_cons_self, nofun, trivial⟩

/-- `A = M[0]; return A`. -/
def scratchProgram : List SockFilter :=
  [⟨bpfLd ||| bpfMem, 0, 0, 0⟩, ⟨bpfRet ||| bpfA, 0, 0, 0⟩]

/-- An accepted filter returns what the kernel has left in the scratch memory. -/
theorem sk_chk_filter_accepts_unset_load :
    skChkFilter scratchProgram = true ∧
      (runOf (fun _ => 0) emptySkb scratchProgram fun _ => 7).2 = .returned 7 ∧
      (runOf (fun _ => 0) emptySkb scratchProgram fun _ => 0).2 = .returned 0 :=
  ⟨rfl, rfl, rfl⟩

end AndroidKernel.Filter
