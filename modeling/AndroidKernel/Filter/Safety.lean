import AndroidKernel.Filter.Model
import Mathlib.Tactic.ByContra
import Mathlib.Tactic.SplitIfs

/-!
# Execution of an accepted filter

Read `sk_chk_filter_safe` first: a filter that `sk_chk_filter` accepts runs without going wrong
when no instruction shifts by the width of a register or asks for a device that is not there.
-/

namespace AndroidKernel.Filter

/-! ## What is accepted -/

/-- Whether the operand of an instruction needs no check. -/
def Opcode.plain : Opcode → Bool
  | .alu .div .k | .ja | .jmp _ _ | .ldMem | .ldxMem | .st | .stx => false
  | _ => true

/-- Whether an instruction uses the scratch memory. -/
def Opcode.usesMem : Opcode → Bool
  | .ldMem | .ldxMem | .st | .stx => true
  | _ => false

def Opcode.isJump : Opcode → Bool
  | .jmp _ _ => true
  | _ => false

def Opcode.isRet : Opcode → Bool
  | .retK | .retA => true
  | _ => false

/-- What `sk_chk_filter` has checked about an instruction. -/
def Accepts (flen pc : Nat) (f : SockFilter) : Opcode → Prop
  | .alu .div .k => f.k ≠ 0
  | .ja => pc + f.k.toNat + 1 < flen
  | .jmp _ _ => pc + f.jt.toNat + 1 < flen ∧ pc + f.jf.toNat + 1 < flen
  | .ldMem | .ldxMem | .st | .stx => f.k.toNat < bpfMemwords
  | _ => True

theorem accepts_of_plain {flen pc : Nat} {f : SockFilter} {op : Opcode} (h : op.plain = true) :
    Accepts flen pc f op := by
  cases op with
  | alu op src =>
    cases op with
    | div =>
      cases src with
      | k => cases h
      | x => trivial
    | _ => trivial
  | ja | jmp | ldMem | ldxMem | st | stx => cases h
  | _ => trivial

theorem accepts_of_usesMem {flen pc : Nat} {f : SockFilter} {op : Opcode}
    (h : op.usesMem = true) (hk : f.k.toNat < bpfMemwords) : Accepts flen pc f op := by
  cases op with
  | ldMem | ldxMem | st | stx => exact hk
  | _ => cases h

theorem accepts_of_isJump {flen pc : Nat} {f : SockFilter} {op : Opcode} (h : op.isJump = true)
    (hk : pc + f.jt.toNat + 1 < flen ∧ pc + f.jf.toNat + 1 < flen) : Accepts flen pc f op := by
  cases op with
  | jmp => exact hk
  | _ => cases h

/-- The two switches agree on the instructions that are accepted as they are. -/
theorem plain_of_mem_plainCodes : ∀ c ∈ plainCodes, (decode c).any Opcode.plain = true :=
  List.all_eq_true.mp (by decide)

theorem usesMem_of_mem_memCodes : ∀ c ∈ memCodes, (decode c).any Opcode.usesMem = true :=
  List.all_eq_true.mp (by decide)

theorem isJump_of_mem_jumpCodes : ∀ c ∈ jumpCodes, (decode c).any Opcode.isJump = true :=
  List.all_eq_true.mp (by decide)

/-- An accepted instruction has a case in `sk_run_filter`. -/
theorem accepts_of_chkInsn {flen pc : Nat} {f : SockFilter} (h : chkInsn flen pc f = true) :
    ∃ op, decode f.code = some op ∧ Accepts flen pc f op := by
  unfold chkInsn at h
  split_ifs at h with hplain hdiv hmem hja hjump
  · obtain ⟨op, hop, hp⟩ := (Option.any_eq_true _ _).mp (plain_of_mem_plainCodes _ hplain)
    exact ⟨op, hop, accepts_of_plain hp⟩
  · exact ⟨.alu .div .k, by rw [hdiv]; rfl, show f.k ≠ 0 from of_decide_eq_true h⟩
  · obtain ⟨op, hop, hp⟩ := (Option.any_eq_true _ _).mp (usesMem_of_mem_memCodes _ hmem)
    exact ⟨op, hop, accepts_of_usesMem hp (Nat.lt_of_not_le (of_decide_eq_true h))⟩
  · refine ⟨.ja, by rw [hja]; rfl, ?_⟩
    have := of_decide_eq_true h
    show pc + f.k.toNat + 1 < flen
    omega
  · obtain ⟨op, hop, hp⟩ := (Option.any_eq_true _ _).mp (isJump_of_mem_jumpCodes _ hjump)
    have := of_decide_eq_true h
    exact ⟨op, hop, accepts_of_isJump hp ⟨by omega, by omega⟩⟩

/-- The instructions of class `BPF_RET`. -/
theorem isRet_of_class : ∀ c ∈ runCases, bpfClass c.1 = bpfRet → c.2.isRet = true := by
  decide

theorem isRet_of_decode {c : UInt16} {op : Opcode} (h : decode c = some op)
    (hclass : bpfClass c = bpfRet) : op.isRet = true := by
  unfold decode at h
  obtain ⟨e, he, rfl⟩ := Option.map_eq_some_iff.mp h
  have hc : e.1 = c := by simpa using List.find?_some he
  exact isRet_of_class e (List.mem_of_find?_eq_some he) (by rw [hc, hclass])

theorem chkInsn_of_chkInsns {flen : Nat} {filter : List SockFilter} {pc i : Nat} {f : SockFilter}
    (h : chkInsns flen pc filter = true) (hi : filter[i]? = some f) :
    chkInsn flen (pc + i) f = true := by
  induction filter generalizing pc i with
  | nil => cases hi
  | cons g rest ih =>
    rw [chkInsns, Bool.and_eq_true] at h
    cases i with
    | zero =>
      cases hi
      exact h.1
    | succ i =>
      have := ih h.2 hi
      rwa [Nat.add_right_comm] at this

/-- What holds of every instruction of an accepted filter; the last one returns. -/
structure Accepted (filter : List SockFilter) : Prop where
  pos : 0 < filter.length
  le : filter.length ≤ bpfMaxinsns
  insn : ∀ {i f}, filter[i]? = some f → ∃ op, decode f.code = some op ∧
    Accepts filter.length i f op ∧ (op.isRet = false → i + 1 < filter.length)

theorem accepted_of_skChkFilter {filter : List SockFilter} (h : skChkFilter filter = true) :
    Accepted filter := by
  unfold skChkFilter at h
  split_ifs at h with hlen hchk
  have hpos : 0 < filter.length := by omega
  refine ⟨hpos, by omega, ?_⟩
  intro i f hi
  have hinsn := chkInsn_of_chkInsns hchk hi
  rw [Nat.zero_add] at hinsn
  obtain ⟨op, hop, haccepts⟩ := accepts_of_chkInsn hinsn
  refine ⟨op, hop, haccepts, ?_⟩
  intro hret
  have hlt : i < filter.length := (List.getElem?_eq_some_iff.mp hi).1
  by_contra hlast
  -- the instruction at the end is of class `BPF_RET`
  have hi' : filter.getLast? = some f := by
    rw [List.getLast?_eq_getElem?, show filter.length - 1 = i by omega, hi]
  rw [hi'] at h
  rw [isRet_of_decode hop (of_decide_eq_true h)] at hret
  cases hret

/-! ## One instruction -/

def Event.Safe : Event → Prop
  | .divide by' => by' ≠ 0
  | .shift by' => by'.toNat < 32
  | .scratch index => index < bpfMemwords
  | .read _ => True

/-- `SKF_AD_IFINDEX` is asked for only when the packet has a device. -/
def HasDevice (skb : Skb) (k : Int) : Prop :=
  k = skfAdOff + 8 → skb.fields.dev ≠ none

/-- The condition on an instruction: no shift by the width of a register, and a device where
there has to be one. -/
def Opcode.Guard (skb : Skb) (f : SockFilter) (s : State) : Opcode → Prop
  | .alu .lsh src => (src.value f s).toNat < 32
  | .alu .rsh src => (src.value f s).toNat < 32
  | .ldAbs _ => HasDevice skb (signed f.k.toNat)
  | .ldInd _ => HasDevice skb (signed (s.x + f.k).toNat)
  | _ => True

def StepGuard (skb : Skb) (f : SockFilter) (s : State) : Prop :=
  ∀ op, decode f.code = some op → op.Guard skb f s

/-- How an instruction at `s.pc` may end. -/
inductive Goes (flen : Nat) (s : State) : Outcome → Prop
  | next {s' : State} (forward : s.pc < s'.pc) (inside : s'.pc < flen) : Goes flen s (.next s')
  | returned (value : UInt32) : Goes flen s (.returned value)
  | rejected : Goes flen s .rejected
  | oops : Goes flen s .oops

/-- Nothing went wrong. -/
def Harmless (r : List Event × Outcome) : Prop :=
  (∀ e ∈ r.1, e.Safe) ∧ r.2 ≠ .oops

theorem goes_continue {flen : Nat} {s s' : State} (hpc : s'.pc = s.pc)
    (h : s.pc + 1 < flen) : Goes flen s (.next s'.continue) := by
  refine .next ?_ ?_
  · show s.pc < s'.pc + 1
    omega
  · show s'.pc + 1 < flen
    omega

theorem harmless_reads {reads : List Access} {o : Outcome} (h : o ≠ .oops) :
    Harmless (reads.map .read, o) := by
  refine ⟨?_, h⟩
  intro e he
  obtain ⟨access, _, rfl⟩ := List.mem_map.mp he
  trivial

theorem harmless_nil {o : Outcome} (h : o ≠ .oops) : Harmless ([], o) :=
  ⟨fun _ he => absurd he List.not_mem_nil, h⟩

theorem harmless_single {e : Event} {o : Outcome} (he : e.Safe) (h : o ≠ .oops) :
    Harmless ([e], o) := by
  refine ⟨?_, h⟩
  intro e' he'
  rw [List.mem_singleton.mp he']
  exact he

theorem signed_of_lt {n : Nat} (h : n < 2 ^ 31) : signed n = n := by
  unfold signed
  rw [Int.bmod_eq_of_le] <;> omega

/-- A jump forward within the program. -/
theorem goes_jump {flen offset : Nat} {s : State} (hpc : 0 ≤ s.pc)
    (h : s.pc + offset + 1 < flen) (hflen : flen ≤ bpfMaxinsns) :
    Goes flen s (.next (s.jump offset)) := by
  have hmax : bpfMaxinsns = 4096 := rfl
  have hmod : ((s.pc + offset + 1) % 2 ^ 32).toNat = (s.pc + offset + 1).toNat := by
    rw [Int.emod_eq_of_lt] <;> omega
  have hto : (s.jump offset).pc = s.pc + offset + 1 := by
    unfold State.jump
    dsimp only
    rw [hmod, signed_of_lt (by omega)]
    omega
  refine .next ?_ ?_
  · rw [hto]
    omega
  · rw [hto]
    exact h

variable {memory : Memory} {skb : Skb}

theorem execNlattr_goes {flen : Nat} {s : State} (h : s.pc + 1 < flen) :
    Goes flen s (execNlattr memory skb s).2 ∧ Harmless (execNlattr memory skb s) := by
  unfold execNlattr
  split_ifs with h1 h2
  · exact ⟨.rejected, harmless_nil nofun⟩
  · exact ⟨.rejected, harmless_nil nofun⟩
  · exact ⟨goes_continue rfl h, harmless_reads nofun⟩

theorem execNlattrNest_goes {flen : Nat} {s : State} (h : s.pc + 1 < flen) :
    Goes flen s (execNlattrNest memory skb s).2 ∧ Harmless (execNlattrNest memory skb s) := by
  unfold execNlattrNest
  split_ifs with h1 h2 h3
  · exact ⟨.rejected, harmless_nil nofun⟩
  · exact ⟨.rejected, harmless_nil nofun⟩
  · exact ⟨.rejected, harmless_reads nofun⟩
  · exact ⟨goes_continue rfl h, harmless_reads nofun⟩

/-- The ancillary data: only the device may be missing. -/
theorem execAncillary_spec {flen : Nat} {s : State} (k : Int) (h : s.pc + 1 < flen) :
    Goes flen s (execAncillary memory skb k s).2 ∧
      (Harmless (execAncillary memory skb k s) ↔ HasDevice skb k) := by
  unfold execAncillary
  split_ifs with h0 h4 h8 h12 h16
  · exact ⟨goes_continue rfl h, fun _ hk => by omega, fun _ => harmless_nil nofun⟩
  · exact ⟨goes_continue rfl h, fun _ hk => by omega, fun _ => harmless_nil nofun⟩
  · cases hdev : skb.fields.dev with
    | some ifindex =>
      exact ⟨goes_continue rfl h, fun _ _ => by rw [hdev]; nofun, fun _ => harmless_nil nofun⟩
    | none => exact ⟨.oops, fun hs => absurd rfl hs.2, fun hk => absurd hdev (hk (by omega))⟩
  · obtain ⟨hgoes, hsafe⟩ := execNlattr_goes h
    exact ⟨hgoes, fun _ hk => by omega, fun _ => hsafe⟩
  · obtain ⟨hgoes, hsafe⟩ := execNlattrNest_goes h
    exact ⟨hgoes, fun _ hk => by omega, fun _ => hsafe⟩
  · exact ⟨.rejected, fun _ hk => by omega, fun _ => harmless_nil nofun⟩

theorem harmless_reads_append {reads : List Access} {r : List Event × Outcome} :
    Harmless (reads.map .read ++ r.1, r.2) ↔ Harmless r := by
  constructor
  · intro hs
    exact ⟨fun e he => hs.1 e (List.mem_append_right _ he), hs.2⟩
  · intro hs
    refine ⟨?_, hs.2⟩
    intro e he
    rcases List.mem_append.mp he with he | he
    · obtain ⟨access, _, rfl⟩ := List.mem_map.mp he
      trivial
    · exact hs.1 e he

theorem execLoad_spec {flen : Nat} {s : State} (k : Int) (size : Size) (h : s.pc + 1 < flen) :
    Goes flen s (execLoad memory skb k size s).2 ∧
      (Harmless (execLoad memory skb k size s) ↔ HasDevice skb k) := by
  unfold execLoad
  split
  · next reads hok =>
      refine ⟨goes_continue rfl h, ?_, fun _ => harmless_reads nofun⟩
      intro _ hk
      have hoff : skfAdOff = -4096 := rfl
      rw [loadPointer, if_neg (by omega), if_pos (by omega)] at hok
      cases hok
  · obtain ⟨hgoes, hsafe⟩ := @execAncillary_spec memory skb flen s k h
    rw [harmless_reads_append]
    exact ⟨hgoes, hsafe⟩

theorem execMsh_goes {flen : Nat} {s : State} (k : Int) (h : s.pc + 1 < flen) :
    Goes flen s (execMsh memory skb k s).2 ∧ Harmless (execMsh memory skb k s) := by
  unfold execMsh
  split
  · exact ⟨goes_continue rfl h, harmless_reads nofun⟩
  · exact ⟨.rejected, harmless_reads nofun⟩

/-- What an accepted arithmetic instruction does. -/
theorem execAlu_spec {flen pc : Nat} {f : SockFilter} {op : AluOp} {src : Src} {s : State}
    (haccepts : Accepts flen pc f (.alu op src)) (h : s.pc + 1 < flen) :
    Goes flen s (execAlu op src f s).2 ∧
      (Harmless (execAlu op src f s) ↔ (Opcode.alu op src).Guard skb f s) := by
  cases op with
  | add | sub | mul | and | or =>
    exact ⟨goes_continue rfl h, fun _ => trivial, fun _ => harmless_nil nofun⟩
  | div =>
    cases src with
    | k => exact ⟨goes_continue rfl h, fun _ => trivial, fun _ => harmless_single haccepts nofun⟩
    | x =>
      unfold execAlu
      dsimp only
      split_ifs with hx
      · exact ⟨.rejected, fun _ => trivial, fun _ => harmless_nil nofun⟩
      · exact ⟨goes_continue rfl h, fun _ => trivial, fun _ => harmless_single hx nofun⟩
  | lsh | rsh =>
    refine ⟨goes_continue rfl h, ?_, fun hv => harmless_single hv nofun⟩
    intro hs
    exact hs.1 _ List.mem_cons_self

theorem exec_of_decode {f : SockFilter} {op : Opcode} {s : State} (h : decode f.code = some op) :
    exec memory skb f s = execOp memory skb f s op := by
  rw [exec, h]

/-- What an accepted instruction does. -/
theorem exec_spec {flen pc : Nat} {f : SockFilter} {op : Opcode} {s : State}
    (hop : decode f.code = some op) (haccepts : Accepts flen pc f op)
    (hnext : op.isRet = false → pc + 1 < flen) (hflen : flen ≤ bpfMaxinsns) (hpc : s.pc = pc) :
    Goes flen s (exec memory skb f s).2 ∧
      (Harmless (exec memory skb f s) ↔ StepGuard skb f s) := by
  have hguard : StepGuard skb f s ↔ op.Guard skb f s := by
    constructor
    · intro h
      exact h op hop
    · intro h op' hop'
      rw [hop] at hop'
      cases hop'
      exact h
  rw [hguard]
  have hstep : op.isRet = false → s.pc + 1 < flen := by
    intro h
    have := hnext h
    omega
  rw [exec_of_decode hop]
  cases op with
  | alu op src => exact execAlu_spec haccepts (hstep rfl)
  | ja =>
    have hk : pc + f.k.toNat + 1 < flen := haccepts
    exact ⟨goes_jump (by omega) (by omega) hflen, fun _ => trivial, fun _ => harmless_nil nofun⟩
  | jmp op src =>
    obtain ⟨hjt, hjf⟩ := haccepts
    have hoffset : s.pc + f.offset (op.holds s.a (src.value f s)) + 1 < flen := by
      unfold SockFilter.offset
      split_ifs <;> omega
    have hgoes := goes_jump (by omega) hoffset hflen
    exact ⟨hgoes, fun _ => trivial, fun _ => harmless_nil nofun⟩
  | ldAbs size | ldInd size =>
    rw [execOp]
    exact execLoad_spec _ size (hstep rfl)
  | ldxMsh =>
    rw [execOp]
    obtain ⟨hgoes, hsafe⟩ := @execMsh_goes memory skb flen s (signed f.k.toNat) (hstep rfl)
    exact ⟨hgoes, fun _ => trivial, fun _ => hsafe⟩
  | ldMem | ldxMem | st | stx =>
    exact ⟨goes_continue rfl (hstep rfl), fun _ => trivial,
      fun _ => harmless_single haccepts nofun⟩
  | retK | retA => exact ⟨.returned _, fun _ => trivial, fun _ => harmless_nil nofun⟩
  | neg | ldLen | ldxLen | ldImm | ldxImm | tax | txa =>
    exact ⟨goes_continue rfl (hstep rfl), fun _ => trivial, fun _ => harmless_nil nofun⟩

/-! ## A run -/

/-- An instruction with the state it is executed in and its events. -/
abbrev Step := SockFilter × State × List Event

/-- The filter ended with a `BPF_RET` or a rejection. -/
def Result.Ended : Result → Prop
  | .returned _ => True
  | .rejected => True
  | _ => False

/-- A run that stays within the program, ends and does nothing wrong. -/
structure SafeRun (filter : List SockFilter) (run : List Step × Result) : Prop where
  ended : run.2.Ended
  pc : ∀ step ∈ run.1, 0 ≤ step.2.1.pc ∧ step.2.1.pc < filter.length
  count : run.1.length ≤ filter.length
  events : ∀ step ∈ run.1, ∀ e ∈ step.2.2, e.Safe

/-- What is known of a run from inside an accepted program. -/
structure RunSpec (skb : Skb) (filter : List SockFilter) (start : Int)
    (run : List Step × Result) : Prop where
  pc : ∀ step ∈ run.1, 0 ≤ step.2.1.pc ∧ step.2.1.pc < filter.length
  count : run.1.length + start ≤ filter.length
  safe : run.2.Ended ∧ (∀ step ∈ run.1, ∀ e ∈ step.2.2, e.Safe) ↔
    ∀ step ∈ run.1, StepGuard skb step.1 step.2.1

theorem RunSpec.single {filter : List SockFilter} {f : SockFilter} {s : State}
    {events : List Event} {o : Outcome} {r : Result} (hpc : 0 ≤ s.pc) (hlt : s.pc < filter.length)
    (hsafe : Harmless (events, o) ↔ StepGuard skb f s) (hended : r.Ended ↔ o ≠ .oops) :
    RunSpec skb filter s.pc ([(f, s, events)], r) := by
  refine ⟨?_, ?_, ?_⟩
  · intro step hstep
    rw [List.mem_singleton.mp hstep]
    exact ⟨hpc, hlt⟩
  · show ((1 : Nat) : Int) + s.pc ≤ filter.length
    omega
  · simp only [List.mem_singleton, forall_eq]
    rw [← hsafe, hended]
    exact And.comm

theorem RunSpec.cons {filter : List SockFilter} {f : SockFilter} {s s' : State}
    {events : List Event} {run : List Step × Result} (hpc : 0 ≤ s.pc) (forward : s.pc < s'.pc)
    (inside : s'.pc < filter.length) (hsafe : Harmless (events, .next s') ↔ StepGuard skb f s)
    (h : RunSpec skb filter s'.pc run) :
    RunSpec skb filter s.pc ((f, s, events) :: run.1, run.2) := by
  refine ⟨?_, ?_, ?_⟩
  · intro step hstep
    rcases List.mem_cons.mp hstep with rfl | hstep
    · exact ⟨hpc, by dsimp only; omega⟩
    · exact h.pc step hstep
  · have := h.count
    rw [List.length_cons]
    push_cast
    omega
  · rw [List.forall_mem_cons, List.forall_mem_cons, ← h.safe, ← hsafe]
    constructor
    · rintro ⟨hended, hevents, hrest⟩
      exact ⟨⟨hevents, nofun⟩, hended, hrest⟩
    · rintro ⟨⟨hevents, _⟩, hended, hrest⟩
      exact ⟨hended, hevents, hrest⟩

theorem Accepted.run {filter : List SockFilter} (h : Accepted filter) {fuel : Nat} {s : State}
    (hpc : 0 ≤ s.pc) (hlt : s.pc < filter.length) (hfuel : filter.length ≤ s.pc + fuel) :
    RunSpec skb filter s.pc (skRunFilter memory skb filter fuel s) := by
  induction fuel generalizing s with
  | zero => omega
  | succ fuel ih =>
    obtain ⟨f, hf⟩ : ∃ f, filter[s.pc.toNat]? = some f :=
      ⟨_, List.getElem?_eq_getElem (by omega)⟩
    obtain ⟨op, hop, haccepts, hnext⟩ := h.insn hf
    obtain ⟨hgoes, hsafe⟩ := @exec_spec memory skb _ _ f op s hop haccepts hnext h.le (by omega)
    rw [skRunFilter, if_pos hlt, if_neg (by omega), hf]
    dsimp only
    generalize exec memory skb f s = r at hgoes hsafe ⊢
    obtain ⟨events, o⟩ := r
    cases hgoes with
    | next forward inside =>
      exact .cons hpc forward inside hsafe (ih (by omega) inside (by omega))
    | returned value =>
      exact .single hpc hlt hsafe ⟨fun _ => nofun, fun _ => trivial⟩
    | rejected => exact .single hpc hlt hsafe ⟨fun _ => nofun, fun _ => trivial⟩
    | oops => exact .single hpc hlt hsafe ⟨fun he => he.elim, fun ho => absurd rfl ho⟩

/-- A filter that is accepted runs safely, with any packet and whatever the scratch memory
holds, exactly when each instruction that it executes meets its condition. -/
theorem sk_chk_filter_safe (memory : Memory) (skb : Skb) (filter : List SockFilter)
    (mem : Nat → UInt32) (h : skChkFilter filter = true) :
    SafeRun filter (skRunFilter memory skb filter filter.length (.initial mem)) ↔
      ∀ step ∈ (skRunFilter memory skb filter filter.length (.initial mem)).1,
        StepGuard skb step.1 step.2.1 := by
  have haccepted := accepted_of_skChkFilter h
  have hpos := haccepted.pos
  have hrun : RunSpec skb filter 0
      (skRunFilter memory skb filter filter.length (.initial mem)) :=
    haccepted.run (s := .initial mem) (Int.le_refl 0) (show (0 : Int) < _ by omega)
      (show _ ≤ (0 : Int) + _ by omega)
  rw [← hrun.safe]
  constructor
  · intro hs
    exact ⟨hs.ended, hs.events⟩
  · rintro ⟨hended, hevents⟩
    refine ⟨hended, hrun.pc, ?_, hevents⟩
    have := hrun.count
    omega

/-- A packet without data and without a device. -/
def emptySkb : Skb :=
  .mk ⟨4096, 4096, 4096, 4096, 4096, 0, 0, 0, 0, none⟩ [] []

/-- `return 7`. -/
def retProgram : List SockFilter :=
  [⟨bpfRet ||| bpfK, 0, 0, 7⟩]

theorem sk_chk_filter_safe_ret :
    skChkFilter retProgram = true ∧
      SafeRun retProgram (skRunFilter (fun _ => 0) emptySkb retProgram 1 (.initial fun _ => 0)) := by
  have hchk : skChkFilter retProgram = true := rfl
  refine ⟨hchk, (sk_chk_filter_safe (fun _ => 0) emptySkb retProgram (fun _ => 0) hchk).mpr ?_⟩
  intro step hstep
  have htrace : step = (⟨bpfRet ||| bpfK, 0, 0, 7⟩, .initial fun _ => 0, []) :=
    List.mem_singleton.mp hstep
  rw [htrace]
  intro op hop
  have hret : Opcode.retK = op := Option.some.inj hop
  rw [← hret]
  trivial

/-- `X = 32; A <<= X; return A`. -/
def shiftProgram : List SockFilter :=
  [⟨bpfLdx ||| bpfImm, 0, 0, 32⟩, ⟨bpfAlu ||| bpfLsh ||| bpfX, 0, 0, 0⟩, ⟨bpfRet ||| bpfA, 0, 0, 0⟩]

/-- An accepted filter may shift by the width of a register. -/
theorem sk_chk_filter_accepts_wide_shift :
    skChkFilter shiftProgram = true ∧
      ¬ SafeRun shiftProgram
        (skRunFilter (fun _ => 0) emptySkb shiftProgram 3 (.initial fun _ => 0)) := by
  refine ⟨rfl, ?_⟩
  intro h
  have hshift : (32 : UInt32).toNat < 32 :=
    h.events (⟨bpfAlu ||| bpfLsh ||| bpfX, 0, 0, 0⟩, ⟨1, 0, 32, fun _ => 0⟩, [.shift 32])
      (.tail _ (.head _)) (.shift 32) (.head _)
  exact absurd hshift (by decide)

end AndroidKernel.Filter
