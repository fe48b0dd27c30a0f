import AndroidKernel.Library.Ranges
import AndroidKernel.Slob.Model

/-!
# Allocation within a page

`slob_page_alloc` takes a range of units out of one free block. What is left of the block in
front of the range and behind it stays in the list.
-/

/-!
## Free lists in memory

A chain is a list of free blocks as the memory encodes it. Only the first units of its blocks
matter for that.
-/

namespace AndroidKernel.Slob

open Library.Ranges

/-- A free block. -/
structure Free where
  start : Nat
  units : Nat

/-- The unit behind a block. -/
def Free.stop (f : Free) : Nat :=
  f.start + f.units

/-! ## One block -/

/-- A pointer to a later place of the page of `s`, or to its end. -/
def Ahead (s next : Nat) : Prop :=
  base s < next ∧ next ≤ base s + pageUnits

/-- The memory says that a block of `units` is at `s`, and that `next` is the one after it. -/
structure Cell (mem : Memory) (s units next : Nat) : Prop where
  pos : 0 < units
  le : units ≤ pageUnits
  ahead : Ahead s next
  first : mem s = if 1 < units then (units : Int) else (base s : Int) - next
  second : 1 < units → mem (s + 1) = (next : Int) - base s

theorem Cell.slobUnits_eq {mem : Memory} {s units next : Nat} (h : Cell mem s units next) :
    slobUnits mem s = units := by
  have hpos := h.pos
  have hahead := h.ahead.1
  unfold slobUnits
  rw [h.first]
  by_cases hone : 1 < units
  · rw [if_pos hone, if_pos (by omega)]
  · rw [if_neg hone, if_neg (by omega)]
    omega

theorem Cell.slobNext_eq {mem : Memory} {s units next : Nat} (h : Cell mem s units next) :
    slobNext mem s = next := by
  have hahead := h.ahead.1
  unfold slobNext
  rw [h.first]
  by_cases hone : 1 < units
  · rw [if_pos hone, if_neg (by omega), h.second hone]
    omega
  · rw [if_neg hone, if_pos (by omega)]
    omega

theorem slobidx_of_lt {n : Int} (hlo : -(2 ^ 15) ≤ n) (hhi : n < 2 ^ 15) : slobidx n = n := by
  unfold slobidx
  rw [Int.bmod_eq_of_le]
  · omega
  · omega

theorem setSlob_cell (mem : Memory) {s units next : Nat} (hpos : 0 < units)
    (hle : units ≤ pageUnits) (hahead : Ahead s next) :
    Cell (setSlob mem s units next) s units next := by
  have hmax : pageUnits = 2048 := rfl
  obtain ⟨hlo, hhi⟩ := hahead
  have hunits : slobidx units = units := slobidx_of_lt (by omega) (by omega)
  have hoff : slobidx ((next : Int) - base s) = next - base s :=
    slobidx_of_lt (by omega) (by omega)
  unfold setSlob
  rw [hunits, hoff]
  by_cases hone : 1 < units
  · rw [if_pos (by omega)]
    refine ⟨hpos, hle, ⟨hlo, hhi⟩, ?_, fun _ => Function.update_self _ _ _⟩
    rw [Function.update_of_ne (by omega), Function.update_self, if_pos hone]
  · rw [if_neg (by omega), slobidx_of_lt (by omega) (by omega)]
    refine ⟨hpos, hle, ⟨hlo, hhi⟩, ?_, fun h => absurd h hone⟩
    rw [Function.update_self, if_neg hone]
    omega

/-- `set_slob` writes only within the block. -/
theorem setSlob_of_ne (mem : Memory) {s units next a : Nat} (hle : units ≤ pageUnits)
    (h : a < s ∨ s + units ≤ a) (hpos : 0 < units) : setSlob mem s units next a = mem a := by
  have hmax : pageUnits = 2048 := rfl
  have hunits : slobidx units = units := slobidx_of_lt (by omega) (by omega)
  unfold setSlob
  rw [hunits]
  split_ifs with hone
  · rw [Function.update_of_ne (by omega), Function.update_of_ne (by omega)]
  · rw [Function.update_of_ne (by omega)]

/-- A block depends only on the memory within it. -/
theorem Cell.congr {mem mem' : Memory} {s units next : Nat} (h : Cell mem s units next)
    (heq : ∀ a, s ≤ a → a < s + units → mem' a = mem a) : Cell mem' s units next := by
  have hpos := h.pos
  refine ⟨h.pos, h.le, h.ahead, ?_, ?_⟩
  · rw [heq s (Nat.le_refl s) (by omega), h.first]
  · intro hone
    rw [heq (s + 1) (by omega) (by omega), h.second hone]

/-! ## Chains -/

/-- The blocks that a walk from a pointer meets before it comes to `stop`. -/
inductive Chain (mem : Memory) (stop : Nat) : Nat → List Free → Prop
  | nil : Chain mem stop stop []
  | cons {s units next : Nat} {rest : List Free} (hcell : Cell mem s units next)
      (hrest : Chain mem stop next rest) : Chain mem stop s (⟨s, units⟩ :: rest)

theorem Chain.append {mem : Memory} {p q stop : Nat} {first second : List Free}
    (h : Chain mem q p first) (h' : Chain mem stop q second) :
    Chain mem stop p (first ++ second) := by
  induction h with
  | nil => exact h'
  | cons hcell _ ih => exact .cons hcell ih

theorem Chain.split {mem : Memory} {p stop : Nat} {first second : List Free}
    (h : Chain mem stop p (first ++ second)) :
    ∃ q, Chain mem q p first ∧ Chain mem stop q second := by
  induction first generalizing p with
  | nil => exact ⟨p, .nil, h⟩
  | cons f first ih =>
    cases h with
    | cons hcell hrest =>
      obtain ⟨q, hfirst, hsecond⟩ := ih hrest
      exact ⟨q, .cons hcell hfirst, hsecond⟩

/-- A chain depends only on the memory within its blocks. -/
theorem Chain.congr {mem mem' : Memory} {p stop : Nat} {blocks : List Free}
    (h : Chain mem stop p blocks)
    (heq : ∀ f ∈ blocks, ∀ a, f.start ≤ a → a < f.stop → mem' a = mem a) :
    Chain mem' stop p blocks := by
  induction h with
  | nil => exact .nil
  | cons hcell _ ih =>
    rw [List.forall_mem_cons] at heq
    exact .cons (hcell.congr heq.1) (ih heq.2)

theorem Chain.eq_of_nil {mem : Memory} {p stop : Nat} (h : Chain mem stop p []) : p = stop := by
  cases h with
  | nil => rfl

/-- The pointer to a chain is to its first block. -/
theorem Chain.eq_of_cons {mem : Memory} {p stop : Nat} {f : Free} {rest : List Free}
    (h : Chain mem stop p (f :: rest)) : p = f.start := by
  cases h with
  | cons => rfl

/-- The last block of a chain points to what comes after it. -/
theorem Chain.snoc {mem : Memory} {p stop : Nat} {first : List Free} {f : Free}
    (h : Chain mem stop p (first ++ [f])) :
    Chain mem f.start p first ∧ Cell mem f.start f.units stop := by
  obtain ⟨q, hfirst, hlast⟩ := h.split
  cases hlast with
  | cons hcell hrest =>
    cases hrest with
    | nil => exact ⟨hfirst, hcell⟩

theorem Chain.of_snoc {mem : Memory} {p stop : Nat} {first : List Free} {f : Free}
    (h : Chain mem f.start p first) (hcell : Cell mem f.start f.units stop) :
    Chain mem stop p (first ++ [f]) :=
  h.append (.cons hcell .nil)

/-- Blocks in the order of their addresses. -/
def Ordered (blocks : List Free) : Prop :=
  blocks.Pairwise fun f g => f.stop ≤ g.start

/-- The memory has the same contents outside of the blocks. -/
def SameOutside (blocks : List Free) (mem mem' : Memory) : Prop :=
  ∀ a, (∀ f ∈ blocks, a < f.start ∨ f.stop ≤ a) → mem' a = mem a

/-- All blocks lie in the page `p`. -/
def InPage (p : Nat) (blocks : List Free) : Prop :=
  ∀ f ∈ blocks, p * pageUnits ≤ f.start ∧ f.stop ≤ p * pageUnits + pageUnits ∧ 0 < f.units

theorem base_eq {p s : Nat} (hlo : p * pageUnits ≤ s) (hhi : s < p * pageUnits + pageUnits) :
    base s = p * pageUnits := by
  unfold pageUnits at hlo hhi
  unfold base pageUnits
  omega

theorem ahead_of {p s next : Nat} (hlo : p * pageUnits ≤ s) (hhi : s < p * pageUnits + pageUnits)
    (hnext : p * pageUnits < next) (hstop : next ≤ p * pageUnits + pageUnits) : Ahead s next := by
  unfold Ahead
  rw [base_eq hlo hhi]
  exact ⟨hnext, hstop⟩

variable {mem : Memory} {p free cur : Nat} {prev : Option Nat} {pre post : List Free}

/-- What `prev` points to is changed. -/
theorem relink_spec {next : Nat} (h : Chain mem cur free pre) (hord : Ordered pre)
    (hpage : InPage p pre) (hprev : prev = pre.getLast?.map Free.start)
    (hnext : ∀ f ∈ pre, f.start < next) (hstop : next ≤ p * pageUnits + pageUnits) :
    Chain (relink mem free prev next).1 next (relink mem free prev next).2 pre ∧
      SameOutside pre mem (relink mem free prev next).1 := by
  rcases List.eq_nil_or_concat pre with rfl | ⟨first, f, rfl⟩
  · rw [List.getLast?_nil] at hprev
    subst hprev
    exact ⟨.nil, fun _ _ => rfl⟩
  rw [List.concat_eq_append] at *
  rw [List.getLast?_append, List.getLast?_singleton] at hprev
  have hprev : prev = some f.start := hprev
  subst hprev
  obtain ⟨hfirst, hcell⟩ := h.snoc
  have hf : f ∈ first ++ [f] := List.mem_append_right _ List.mem_cons_self
  obtain ⟨hlo, hhi, hpos⟩ := hpage f hf
  have hfstop : f.stop = f.start + f.units := rfl
  have hahead : Ahead f.start next :=
    ahead_of hlo (by omega) (Nat.lt_of_le_of_lt hlo (hnext f hf)) hstop
  unfold relink
  dsimp only
  rw [hcell.slobUnits_eq]
  constructor
  · refine .of_snoc (hfirst.congr ?_) (setSlob_cell mem hcell.pos hcell.le hahead)
    intro g hg a _ ha
    have hgf := (List.pairwise_append.mp hord).2.2 g hg f List.mem_cons_self
    exact setSlob_of_ne mem hcell.le (.inl (by omega)) hcell.pos
  · intro a ha
    exact setSlob_of_ne mem hcell.le (ha f hf) hcell.pos

/-- What is left of a block when `units` are taken from its start. -/
def leftover (start units taken : Nat) : List Free :=
  if units = taken then [] else [⟨start + taken, units - taken⟩]

/-- `units` are taken from the start of a block. -/
theorem carve_spec {n units next : Nat} (h : Chain mem cur free pre) (hcell : Cell mem cur n next)
    (hpost : Chain mem (p * pageUnits + pageUnits) next post)
    (hord : Ordered (pre ++ ⟨cur, n⟩ :: post)) (hpage : InPage p (pre ++ ⟨cur, n⟩ :: post))
    (hprev : prev = pre.getLast?.map Free.start) (hpos : 0 < units) (hle : units ≤ n) :
    Chain (carve mem free prev cur units).1 (p * pageUnits + pageUnits)
        (carve mem free prev cur units).2 (pre ++ leftover cur n units ++ post) ∧
      SameOutside (pre ++ ⟨cur, n⟩ :: post) mem (carve mem free prev cur units).1 := by
  obtain ⟨hordpre, hordrest, hboth⟩ := List.pairwise_append.mp hord
  obtain ⟨hcur, hordpost⟩ := List.pairwise_cons.mp hordrest
  have hpre : InPage p pre := fun f hf => hpage f (List.mem_append_left _ hf)
  obtain ⟨hlo, hhi, _⟩ := hpage ⟨cur, n⟩ (List.mem_append_right _ List.mem_cons_self)
  have hstop : Free.stop ⟨cur, n⟩ = cur + n := rfl
  have hbefore : ∀ f ∈ pre, f.stop ≤ cur := fun f hf => hboth f hf _ List.mem_cons_self
  have hstart : ∀ f ∈ pre, f.start < cur := by
    intro f hf
    have := hbefore f hf
    have := (hpre f hf).2.2
    have hfstop : f.stop = f.start + f.units := rfl
    omega
  have hafter : ∀ f ∈ post, cur + n ≤ f.start := fun f hf => hcur f hf
  have hlocur : p * pageUnits ≤ cur := hlo
  rw [hstop] at hhi
  -- the pointer behind the block
  have hnext : cur < next ∧ next ≤ p * pageUnits + pageUnits := by
    cases hpost with
    | nil => exact ⟨by omega, Nat.le_refl _⟩
    | @cons _ m _ _ hcell' _ =>
      have := hafter ⟨next, m⟩ List.mem_cons_self
      have hin := hpage ⟨next, m⟩
        (List.mem_append_right _ (List.mem_cons_of_mem _ List.mem_cons_self))
      have hs : Free.stop ⟨next, m⟩ = next + m := rfl
      have : cur + n ≤ next := this
      omega
  unfold carve leftover
  rw [hcell.slobUnits_eq, hcell.slobNext_eq]
  by_cases hfit : n = units
  · rw [if_pos (by omega), if_pos hfit, List.append_nil]
    obtain ⟨hchain, hsame⟩ := relink_spec h hordpre hpre hprev
      (fun f hf => Nat.lt_trans (hstart f hf) hnext.1) hnext.2
    refine ⟨hchain.append (hpost.congr ?_), ?_⟩
    · intro g hg a ha _
      refine hsame a fun f hf => .inr ?_
      have := hbefore f hf
      have := hafter g hg
      omega
    · intro a ha
      exact hsame a fun f hf => ha f (List.mem_append_left _ hf)
  rw [if_neg (by omega), if_neg hfit]
  obtain ⟨hchain, hsame⟩ := @relink_spec mem p free cur prev pre (cur + units) h hordpre hpre
    hprev (fun f hf => by have := hstart f hf; omega) (by omega)
  generalize relink mem free prev (cur + units) = linked at hchain hsame ⊢
  have hsub : ((n : Int) - units) = ((n - units : Nat) : Int) := by omega
  have hnle : n ≤ pageUnits := hcell.le
  have hahead : Ahead (cur + units) next := by
    refine ahead_of (by omega) (by omega) (by omega) hnext.2
  rw [hsub]
  dsimp only
  refine ⟨?_, ?_⟩
  · have hmid : Chain (setSlob linked.1 (cur + units) (n - units : Nat) next) next (cur + units)
        [⟨cur + units, n - units⟩] :=
      .cons (setSlob_cell _ (by omega) (by omega) hahead) .nil
    refine ((hchain.congr ?_).append hmid).append (hpost.congr ?_)
    · intro f hf a _ ha
      have := hbefore f hf
      exact setSlob_of_ne _ (by omega) (.inl (by omega)) (by omega)
    · intro g hg a ha _
      have := hafter g hg
      rw [setSlob_of_ne _ (by omega) (.inr (by omega)) (by omega)]
      refine hsame a fun f hf => .inr ?_
      have := hbefore f hf
      omega
  · intro a ha
    have hcur := ha ⟨cur, n⟩ (List.mem_append_right _ List.mem_cons_self)
    rw [hstop] at hcur
    have hcur : a < cur ∨ cur + n ≤ a := hcur
    rw [setSlob_of_ne _ (by omega) (by omega) (by omega)]
    exact hsame a fun f hf => ha f (List.mem_append_left _ hf)

/-- The head of a block is split off. -/
theorem splitHead_spec {n d next : Nat} (hcell : Cell mem cur n next) (hpos : 0 < d) (hlt : d < n)
    (hlo : p * pageUnits ≤ cur) (hhi : cur + n ≤ p * pageUnits + pageUnits)
    (hnext : cur + n ≤ next) (hstop : next ≤ p * pageUnits + pageUnits) :
    Cell (splitHead mem cur (cur + d) d) cur d (cur + d) ∧
      Cell (splitHead mem cur (cur + d) d) (cur + d) (n - d) next ∧
      ∀ a, a < cur ∨ cur + n ≤ a → splitHead mem cur (cur + d) d a = mem a := by
  have hnle : n ≤ pageUnits := hcell.le
  have hsub : ((n : Int) - d) = ((n - d : Nat) : Int) := by omega
  unfold splitHead
  rw [hcell.slobUnits_eq, hcell.slobNext_eq, hsub]
  refine ⟨?_, ?_, ?_⟩
  · exact setSlob_cell _ hpos (by omega) (ahead_of hlo (by omega) (by omega) (by omega))
  · refine (setSlob_cell mem (by omega) (by omega)
      (ahead_of (by omega) (by omega) (by omega) hstop)).congr ?_
    intro a ha _
    exact setSlob_of_ne _ (by omega) (.inr ha) hpos
  · intro a ha
    rw [setSlob_of_ne _ (by omega) (by omega) hpos,
      setSlob_of_ne _ (by omega) (by omega) (by omega)]

/-- What is left of a block when the units from `b` on are taken from it. -/
def cut (f : Free) (b units : Nat) : List Free :=
  (if f.start < b then [⟨f.start, b - f.start⟩] else []) ++ leftover b (f.stop - b) units

/-- A block is carved out of a free one, behind `d` units. -/
theorem carveAligned_spec {n units align next d : Nat} (h : Chain mem cur free pre)
    (hcell : Cell mem cur n next) (hpost : Chain mem (p * pageUnits + pageUnits) next post)
    (hord : Ordered (pre ++ ⟨cur, n⟩ :: post)) (hpage : InPage p (pre ++ ⟨cur, n⟩ :: post))
    (hprev : prev = pre.getLast?.map Free.start) (hpos : 0 < units)
    (hdelta : alignDelta cur align = d) (hle : units + d ≤ n) :
    (carveAligned mem free prev cur units align).1 = cur + d ∧
      Chain (carveAligned mem free prev cur units align).2.1 (p * pageUnits + pageUnits)
        (carveAligned mem free prev cur units align).2.2
        (pre ++ cut ⟨cur, n⟩ (cur + d) units ++ post) ∧
      SameOutside (pre ++ ⟨cur, n⟩ :: post) mem (carveAligned mem free prev cur units align).2.1 := by
  have hstop : Free.stop ⟨cur, n⟩ = cur + n := rfl
  unfold carveAligned cut
  rw [hdelta, hstop]
  by_cases hzero : d = 0
  · subst hzero
    rw [if_neg (by omega), if_neg (by dsimp only; omega), List.nil_append,
      Nat.add_zero, Nat.add_sub_cancel_left]
    obtain ⟨hchain, hsame⟩ := carve_spec h hcell hpost hord hpage hprev hpos (by omega)
    exact ⟨rfl, hchain, hsame⟩
  have haligned : alignPtr cur align = cur + d := by
    unfold alignDelta at hdelta
    split_ifs at hdelta with halign
    · omega
    · omega
  obtain ⟨hordpre, hordrest, hboth⟩ := List.pairwise_append.mp hord
  obtain ⟨hcur, hordpost⟩ := List.pairwise_cons.mp hordrest
  obtain ⟨hlo, hhi, _⟩ := hpage ⟨cur, n⟩ (List.mem_append_right _ List.mem_cons_self)
  have hlo : p * pageUnits ≤ cur := hlo
  rw [hstop] at hhi
  have hnext : cur + n ≤ next ∧ next ≤ p * pageUnits + pageUnits := by
    cases hpost with
    | nil => exact ⟨hhi, Nat.le_refl _⟩
    | @cons _ m _ _ _ _ =>
      have hin := hpage ⟨next, m⟩
        (List.mem_append_right _ (List.mem_cons_of_mem _ List.mem_cons_self))
      have hs : Free.stop ⟨next, m⟩ = next + m := rfl
      exact ⟨hcur ⟨next, m⟩ List.mem_cons_self, by omega⟩
  obtain ⟨hhead, hrest, hsame⟩ := splitHead_spec hcell (show 0 < d by omega) (by omega) hlo hhi
    hnext.1 hnext.2
  rw [if_pos (by omega), if_pos (by dsimp only; omega), haligned]
  generalize splitHead mem cur (cur + d) d = mem' at hhead hrest hsame ⊢
  have hbefore : ∀ f ∈ pre, f.stop ≤ cur := fun f hf => hboth f hf _ List.mem_cons_self
  have hafter : ∀ f ∈ post, cur + n ≤ f.start := fun f hf => hcur f hf
  have hpre' : Chain mem' (cur + d) free (pre ++ [⟨cur, d⟩]) := by
    refine Chain.of_snoc (f := ⟨cur, d⟩) (h.congr ?_) hhead
    intro f hf a _ ha
    have := hbefore f hf
    exact hsame a (by omega)
  have hpost' : Chain mem' (p * pageUnits + pageUnits) next post := by
    refine hpost.congr ?_
    intro f hf a ha _
    have := hafter f hf
    exact hsame a (by omega)
  have hs1 : Free.stop ⟨cur, d⟩ = cur + d := rfl
  have hs2 : Free.stop ⟨cur + d, n - d⟩ = cur + n := by
    show cur + d + (n - d) = cur + n
    omega
  have hord' : Ordered ((pre ++ [⟨cur, d⟩]) ++ ⟨cur + d, n - d⟩ :: post) := by
    rw [List.append_assoc]
    refine List.pairwise_append.mpr ⟨hordpre, ?_, ?_⟩
    · refine List.pairwise_cons.mpr ⟨?_, List.pairwise_cons.mpr ⟨?_, hordpost⟩⟩
      · intro g hg
        rcases List.mem_cons.mp hg with rfl | hg
        · exact Nat.le_refl _
        · have := hafter g hg
          omega
      · intro g hg
        rw [hs2]
        exact hafter g hg
    intro f hf g hg
    have := hbefore f hf
    rcases List.mem_cons.mp hg with rfl | hg
    · exact this
    · rcases List.mem_cons.mp hg with rfl | hg
      · show f.stop ≤ cur + d
        omega
      · have := hafter g hg
        omega
  have hpage' : InPage p ((pre ++ [⟨cur, d⟩]) ++ ⟨cur + d, n - d⟩ :: post) := by
    intro g hg
    rw [List.append_assoc] at hg
    rcases List.mem_append.mp hg with hg | hg
    · exact hpage g (List.mem_append_left _ hg)
    rcases List.mem_cons.mp hg with rfl | hg
    · refine ⟨hlo, ?_, ?_⟩
      · omega
      · show 0 < d
        omega
    rcases List.mem_cons.mp hg with rfl | hg
    · refine ⟨?_, ?_, ?_⟩
      · show p * pageUnits ≤ cur + d
        omega
      · omega
      · show 0 < n - d
        omega
    · exact hpage g (List.mem_append_right _ (List.mem_cons_of_mem _ hg))
  have hlast : some cur = (pre ++ [(⟨cur, d⟩ : Free)]).getLast?.map Free.start := by
    rw [List.getLast?_append, List.getLast?_singleton]
    rfl
  obtain ⟨hchain, hsame'⟩ := carve_spec hpre' hrest hpost' hord' hpage' hlast hpos (by omega)
  refine ⟨rfl, ?_, ?_⟩
  · rw [show cur + n - (cur + d) = n - d by omega]
    rw [List.append_assoc pre, List.append_assoc pre] at hchain
    rw [List.append_assoc pre]
    rw [show cur + d - cur = d by omega]
    exact hchain
  intro a ha
  have hc := ha ⟨cur, n⟩ (List.mem_append_right _ List.mem_cons_self)
  rw [hstop] at hc
  have hc : a < cur ∨ cur + n ≤ a := hc
  rw [hsame' a, hsame a hc]
  intro g hg
  rw [List.append_assoc] at hg
  rcases List.mem_append.mp hg with hg | hg
  · exact ha g (List.mem_append_left _ hg)
  · rcases List.mem_cons.mp hg with rfl | hg
    · show a < cur ∨ _
      omega
    · rcases List.mem_cons.mp hg with rfl | hg
      · show a < cur + d ∨ _
        omega
      · exact ha g (List.mem_append_right _ (List.mem_cons_of_mem _ hg))

/-! ## The loop -/

/-- A block has been taken out of a list of free blocks. -/
structure Took (p : Nat) (mem : Memory) (blocks : List Free) (units align b : Nat) (mem' : Memory)
    (free' : Nat) : Prop where
  split : ∃ pre f post, blocks = pre ++ f :: post ∧ f.start ≤ b ∧ b + units ≤ f.stop ∧
    alignDelta f.start align = (b : Int) - f.start ∧
    Chain mem' (p * pageUnits + pageUnits) free' (pre ++ cut f b units ++ post)
  same : SameOutside blocks mem mem'

/-- Addresses do not wrap when they are aligned. -/
def NoWrap (p align : Nat) : Prop :=
  2 * (p * pageUnits + pageUnits) + align ≤ 2 ^ 32

theorem alignDelta_nonneg {cur align : Nat} (h : 2 * cur + align ≤ 2 ^ 32) :
    0 ≤ alignDelta cur align := by
  unfold alignDelta
  split_ifs with hzero
  · exact Int.le_refl 0
  have hge : 2 * cur ≤ (2 * cur + align - 1) / align * align := by
    have hmod := Nat.div_add_mod (2 * cur + align - 1) align
    have hlt := Nat.mod_lt (2 * cur + align - 1) (Nat.pos_of_ne_zero hzero)
    rw [Nat.mul_comm] at hmod
    omega
  unfold alignPtr
  rw [Nat.mod_eq_of_lt (by omega)]
  omega

/-- `slob_page_alloc` finds a block or comes to the end of the list. -/
theorem pageAllocLoop_spec {units align fuel : Nat} (h : Chain mem cur free pre)
    (hpost : Chain mem (p * pageUnits + pageUnits) cur post) (hne : post ≠ [])
    (hord : Ordered (pre ++ post)) (hpage : InPage p (pre ++ post))
    (hprev : prev = pre.getLast?.map Free.start) (hpos : 0 < units) (hwrap : NoWrap p align)
    (hfuel : post.length ≤ fuel) :
    pageAllocLoop mem free units align fuel prev cur = .full ∨
      ∃ b mem' free', pageAllocLoop mem free units align fuel prev cur = .found b mem' free' ∧
        Took p mem (pre ++ post) units align b mem' free' := by
  induction fuel generalizing pre post prev cur with
  | zero => exact absurd (List.eq_nil_of_length_eq_zero (Nat.le_zero.mp hfuel)) hne
  | succ fuel ih =>
    cases hpost with
    | nil => exact absurd rfl hne
    | @cons _ n next rest hcell hrest =>
      have hin := hpage ⟨cur, n⟩ (List.mem_append_right _ List.mem_cons_self)
      have hstop : Free.stop ⟨cur, n⟩ = cur + n := rfl
      have hnonneg : 0 ≤ alignDelta cur align := by
        refine alignDelta_nonneg ?_
        unfold NoWrap at hwrap
        omega
      obtain ⟨d, hd⟩ := Int.eq_ofNat_of_zero_le hnonneg
      rw [pageAllocLoop, hcell.slobUnits_eq]
      split_ifs with hroom hlast
      · refine .inr ⟨_, _, _, rfl, ?_⟩
        obtain ⟨hb, hchain, hsame⟩ := carveAligned_spec h hcell hrest hord hpage hprev hpos hd
          (by omega)
        refine ⟨⟨pre, ⟨cur, n⟩, rest, rfl, ?_, ?_, ?_, ?_⟩, hsame⟩
        · rw [hb]
          exact Nat.le_add_right _ _
        · rw [hb, hstop]
          omega
        · rw [hb, hd]
          push_cast
          omega
        · rw [hb]
          exact hchain
      · exact .inl rfl
      rw [hcell.slobNext_eq]
      have hrest_ne : rest ≠ [] := by
        rintro rfl
        apply hlast
        unfold slobLast
        rw [hcell.slobNext_eq, hrest.eq_of_nil]
        unfold pageUnits
        exact decide_eq_true (by omega)
      have happend : pre ++ ⟨cur, n⟩ :: rest = (pre ++ [⟨cur, n⟩]) ++ rest := by
        rw [List.append_assoc]
        rfl
      rw [happend] at hord hpage ⊢
      refine ih (h.of_snoc (f := ⟨cur, n⟩) hcell) hrest hrest_ne hord hpage ?_ ?_
      · rw [List.getLast?_append, List.getLast?_singleton]
        rfl
      · rw [List.length_cons] at hfuel
        omega

/-! ## The list after an allocation -/

/-- The number of free units. -/
def total (blocks : List Free) : Nat :=
  (blocks.map Free.units).sum

theorem total_append (xs ys : List Free) : total (xs ++ ys) = total xs + total ys := by
  unfold total
  rw [List.map_append, List.sum_append]

theorem total_cons (f : Free) (xs : List Free) : total (f :: xs) = f.units + total xs := by
  unfold total
  rw [List.map_cons, List.sum_cons]

/-- The blocks of a page are separated and have the total that the page says. -/
structure FreeList (p : Nat) (mem : Memory) (free : Nat) (blocks : List Free) : Prop where
  chain : Chain mem (p * pageUnits + pageUnits) free blocks
  separated : Separated Free.start Free.stop blocks
  inPage : InPage p blocks

theorem ordered_of_separated {blocks : List Free} (h : Separated Free.start Free.stop blocks) :
    Ordered blocks :=
  h.2.imp fun hlt => Nat.le_of_lt hlt

theorem length_le_of_ordered {blocks : List Free} {lo hi : Nat} (h : Ordered blocks)
    (hin : ∀ f ∈ blocks, lo ≤ f.start ∧ f.stop ≤ hi ∧ 0 < f.units) (hle : lo ≤ hi) :
    lo + blocks.length ≤ hi := by
  induction blocks generalizing lo with
  | nil => exact hle
  | cons f rest ih =>
    obtain ⟨hlater, hrest⟩ := List.pairwise_cons.mp h
    obtain ⟨hflo, hfhi, hpos⟩ := hin f List.mem_cons_self
    have hstop : f.stop = f.start + f.units := rfl
    have hlen := @ih f.stop hrest
      (fun g hg => ⟨hlater g hg, (hin g (List.mem_cons_of_mem _ hg)).2⟩) hfhi
    rw [List.length_cons]
    omega

/-- A page has no more free blocks than units. -/
theorem FreeList.length_le {p free : Nat} {mem : Memory} {blocks : List Free}
    (h : FreeList p mem free blocks) : blocks.length ≤ pageUnits := by
  have := length_le_of_ordered (ordered_of_separated h.separated) h.inPage (Nat.le_add_right _ _)
  omega

/-- The free units of a list. -/
def freeUnits (blocks : List Free) : Set Nat :=
  covers Free.start Free.stop blocks

section Cut

variable {f : Free} {b units : Nat} (hb : f.start ≤ b) (hpos : 0 < units)
  (hend : b + units ≤ f.stop)

include hb hpos hend

theorem mem_cut {g : Free} (h : g ∈ cut f b units) :
    f.start ≤ g.start ∧ g.stop ≤ f.stop ∧ 0 < g.units ∧ (g.stop ≤ b ∨ b + units ≤ g.start) := by
  have hstop : g.stop = g.start + g.units := rfl
  unfold cut leftover at h
  rcases List.mem_append.mp h with h | h
  · split_ifs at h with hlt
    · rw [List.mem_singleton.mp h] at hstop ⊢
      dsimp only at hstop ⊢
      omega
    · cases h
  · split_ifs at h with hfit
    · cases h
    · rw [List.mem_singleton.mp h] at hstop ⊢
      dsimp only at hstop ⊢
      omega

theorem total_cut : total (cut f b units) + units = f.units := by
  have hstop : f.stop = f.start + f.units := rfl
  unfold cut leftover
  rw [total_append]
  split_ifs with hlt hfit hfit
  all_goals
    simp only [total, List.map_nil, List.sum_nil, List.map_cons, List.sum_cons]
    omega

theorem separated_cut : Separated Free.start Free.stop (cut f b units) := by
  unfold cut leftover
  split_ifs with hlt hfit hfit
  · refine separated_cons.mpr ⟨?_, nofun, separated_nil⟩
    show f.start < f.start + (b - f.start)
    omega
  · refine separated_cons.mpr ⟨?_, ?_, separated_cons.mpr ⟨?_, nofun, separated_nil⟩⟩
    · show f.start < f.start + (b - f.start)
      omega
    · intro g hg
      rw [List.mem_singleton.mp hg]
      show f.start + (b - f.start) < b + units
      omega
    · show b + units < b + units + (f.stop - b - units)
      omega
  · exact separated_nil
  · refine separated_cons.mpr ⟨?_, nofun, separated_nil⟩
    show b + units < b + units + (f.stop - b - units)
    omega

theorem freeUnits_cut :
    freeUnits (cut f b units) = Set.Ico f.start f.stop \ Set.Ico b (b + units) := by
  unfold Free.stop at hend
  ext a
  unfold freeUnits cut leftover
  split_ifs with hlt hfit hfit
  all_goals
    unfold Free.stop at hfit
    simp only [covers_append, covers_cons, covers_nil, Set.mem_union, Set.mem_Ico, Set.mem_sdiff,
      Free.stop, Set.mem_empty_iff_false, or_false, false_or, false_iff]
    omega

end Cut

/-- The list after an allocation: its units are taken out of it. -/
theorem Took.freeList {p free units align b free' : Nat} {mem mem' : Memory} {blocks : List Free}
    (h : FreeList p mem free blocks) (ht : Took p mem blocks units align b mem' free')
    (hpos : 0 < units) :
    ∃ blocks', FreeList p mem' free' blocks' ∧
      freeUnits blocks' = freeUnits blocks \ Set.Ico b (b + units) ∧
      total blocks' + units = total blocks ∧ Set.Ico b (b + units) ⊆ freeUnits blocks := by
  obtain ⟨⟨pre, f, post, rfl, hb, hend, _, hchain⟩, _⟩ := ht
  have hsep := h.separated
  have hcut : ∀ g ∈ cut f b units, f.start ≤ g.start ∧ g.stop ≤ f.stop := by
    intro g hg
    obtain ⟨hlo, hhi, _⟩ := mem_cut hb hpos hend hg
    exact ⟨hlo, hhi⟩
  have hsub : Set.Ico b (b + units) ⊆ Set.Ico f.start f.stop := Set.Ico_subset_Ico hb hend
  refine ⟨_, ⟨hchain, hsep.replace (separated_cut hb hpos hend) hcut, ?_⟩, ?_, ?_, ?_⟩
  · intro g hg
    rcases List.mem_append.mp hg with hg | hg
    · rcases List.mem_append.mp hg with hg | hg
      · exact h.inPage g (List.mem_append_left _ hg)
      · obtain ⟨hlo, hhi, hgpos, _⟩ := mem_cut hb hpos hend hg
        obtain ⟨hflo, hfhi, _⟩ := h.inPage f (List.mem_append_right _ List.mem_cons_self)
        exact ⟨by omega, by omega, hgpos⟩
    · exact h.inPage g (List.mem_append_right _ (List.mem_cons_of_mem _ hg))
  · have hdiff := hsep.covers_diff hsub
    unfold freeUnits at *
    rw [hdiff, ← freeUnits_cut hb hpos hend]
    unfold freeUnits
    rw [covers_append, covers_append, covers_append, Set.union_comm (covers _ _ pre),
      Set.union_assoc]
  · have := total_cut hb hpos hend
    rw [total_append, total_append, total_append, total_cons]
    omega
  · exact hsub.trans (Ico_subset_covers (List.mem_append_right _ List.mem_cons_self))

end AndroidKernel.Slob
