import AndroidKernel.Library.Runs
import Mathlib.Algebra.BigOperators.Group.List.Basic
import Mathlib.Algebra.GroupWithZero.Nat
import Mathlib.Data.List.Nodup

/-!
# Hierarchical resource counters

`res_counter_charge` and `res_counter_uncharge` of `kernel/res_counter.c`, each lock section one
step, with any number of calls in progress. An `unsigned long` has 32 bits. `charges_exact` says
whose charges the usage of a counter is.
-/

namespace AndroidKernel.ResCounter

open Library

/-- The parents of the counters. -/
structure Tree (C : Type) where
  parent : C → Option C
  depth : C → Nat
  depth_parent : ∀ c p, parent c = some p → depth p < depth c

/-- The fields of a `struct res_counter` but for its parent. -/
structure Counter where
  usage : Nat
  maxUsage : Nat
  limit : Nat
  failcnt : Nat

/-- A call in progress: what it does next, with its variables `c` or `u`. -/
inductive Call (C : Type)
  | charging (counter : C) (val : Nat) (c : Option C)
  | undoing (val : Nat) (u : Option C) (c : C)
  | uncharging (val : Nat) (c : Option C)
  deriving DecidableEq

/-- The counters, the charges that calls have made and no call has begun to return, and the calls
in progress. `warned` says that the `WARN_ON` was met, or a NULL pointer. -/
structure State (C : Type) where
  counters : C → Counter
  charges : List (C × Nat)
  calls : List (Call C)
  warned : Bool

variable {C : Type}

/-- The pointers a loop from `c` up to the root goes through, in at most that many rounds. -/
def Tree.walk (tree : Tree C) : Nat → Option C → List C
  | 0, _ => []
  | _ + 1, none => []
  | rounds + 1, some c => c :: tree.walk rounds (tree.parent c)

/-- A counter and those above it. -/
def Tree.chain (tree : Tree C) : Option C → List C
  | none => []
  | some c => tree.walk (tree.depth c + 1) (some c)

variable {tree : Tree C} {c x : C}

theorem Tree.walk_none (rounds : Nat) : tree.walk rounds none = [] := by
  cases rounds with
  | zero => rfl
  | succ rounds => rfl

/-- The depth bounds the rounds. -/
theorem Tree.walk_eq {rounds more : Nat} (h : tree.depth c < rounds) (hmore : tree.depth c < more) :
    tree.walk rounds (some c) = tree.walk more (some c) := by
  induction rounds generalizing more c with
  | zero => omega
  | succ rounds ih =>
    cases more with
    | zero => omega
    | succ more =>
      rw [walk, walk]
      cases hp : tree.parent c with
      | none => rw [walk_none, walk_none]
      | some p =>
        have hd := tree.depth_parent c p hp
        exact congrArg (c :: ·) (ih (by omega) (by omega))

theorem Tree.chain_some (c : C) : tree.chain (some c) = c :: tree.chain (tree.parent c) := by
  rw [chain, walk]
  cases hp : tree.parent c with
  | none => rw [walk_none, chain]
  | some p =>
    have hd := tree.depth_parent c p hp
    rw [chain, walk_eq hd (Nat.lt_succ_self _)]

theorem Tree.depth_le_of_mem {rounds : Nat} (h : x ∈ tree.walk rounds (some c)) :
    tree.depth x ≤ tree.depth c := by
  induction rounds generalizing c with
  | zero => cases h
  | succ rounds ih =>
    rcases List.mem_cons.mp h with rfl | h
    · exact Nat.le_refl _
    cases hp : tree.parent c with
    | none =>
      rw [hp, walk_none] at h
      cases h
    | some p =>
      rw [hp] at h
      exact Nat.le_of_lt (Nat.lt_of_le_of_lt (ih h) (tree.depth_parent c p hp))

/-- No counter is above itself. -/
theorem Tree.not_mem_walk (c : C) (rounds : Nat) : c ∉ tree.walk rounds (tree.parent c) := by
  intro h
  cases hp : tree.parent c with
  | none =>
    rw [hp, walk_none] at h
    cases h
  | some p =>
    rw [hp] at h
    exact Nat.not_lt.mpr (tree.depth_le_of_mem h) (tree.depth_parent c p hp)

theorem Tree.nodup_walk (rounds : Nat) (start : Option C) : (tree.walk rounds start).Nodup := by
  induction rounds generalizing start with
  | zero => exact List.nodup_nil
  | succ rounds ih =>
    cases start with
    | none => exact List.nodup_nil
    | some c => exact List.nodup_cons.mpr ⟨tree.not_mem_walk c rounds, ih _⟩

theorem Tree.nodup_chain (start : Option C) : (tree.chain start).Nodup := by
  cases start with
  | none => exact List.nodup_nil
  | some c => exact tree.nodup_walk _ _

theorem Tree.not_mem_chain (c : C) : c ∉ tree.chain (tree.parent c) :=
  (List.nodup_cons.mp (tree.chain_some c ▸ tree.nodup_chain (some c))).1

/-- `res_counter_charge_locked`, and whether it returns 0. -/
def chargeLocked (counter : Counter) (val : Nat) : Counter × Bool :=
  if (counter.usage + val) % 2 ^ 64 > counter.limit then
    ({ counter with failcnt := (counter.failcnt + 1) % 2 ^ 64 }, false)
  else
    let usage := (counter.usage + val) % 2 ^ 64
    ({ counter with usage := usage, maxUsage := max counter.maxUsage usage }, true)

/-- `res_counter_uncharge_locked`, and whether it warns. -/
def unchargeLocked (counter : Counter) (val : Nat) : Counter × Bool :=
  if counter.usage < val then ({ counter with usage := counter.usage - counter.usage }, true)
  else ({ counter with usage := counter.usage - val }, false)

variable [DecidableEq C]

/-- The lock section of a counter in the loops that uncharge. -/
def State.unchargeAt (s : State C) (c : C) (val : Nat) (next : Call C) : State C :=
  let result := unchargeLocked (s.counters c) val
  { s with
    counters := Function.update s.counters c result.1
    calls := next :: s.calls
    warned := s.warned || result.2 }

/-- A call goes on, in a state without it. -/
def State.advance (tree : Tree C) (s : State C) : Call C → State C
  | .charging counter val none => { s with charges := (counter, val) :: s.charges }
  | .charging counter val (some c) =>
    let result := chargeLocked (s.counters c) val
    { s with
      counters := Function.update s.counters c result.1
      calls := (if result.2 then .charging counter val (tree.parent c)
        else .undoing val (some counter) c) :: s.calls }
  | .undoing val u c =>
    -- the call returns when the loop comes to the counter that refused
    if u = some c then s
    else
      match u with
      | none => { s with warned := true }
      | some u => s.unchargeAt u val (.undoing val (tree.parent u) c)
  | .uncharging _ none => s
  | .uncharging val (some c) => s.unchargeAt c val (.uncharging val (tree.parent c))

/-- A call begins or goes on. -/
inductive Op (C : Type)
  | charge (counter : C) (val : Nat)
  | uncharge (counter : C) (val : Nat)
  | advance (call : Call C)

/-- One step. A charge is returned once. -/
def Step (tree : Tree C) (s : State C) : Op C → State C → Prop
  | .charge counter val, t =>
    val < 2 ^ 32 ∧ t = { s with calls := .charging counter val (some counter) :: s.calls }
  | .uncharge counter val, t =>
    (counter, val) ∈ s.charges ∧
      t = { s with
        charges := s.charges.erase (counter, val)
        calls := .uncharging val (some counter) :: s.calls }
  | .advance call, t =>
    call ∈ s.calls ∧ t = ({ s with calls := s.calls.erase call } : State C).advance tree call

/-- Nothing has been charged. -/
def State.initial (limit : C → Nat) : State C where
  counters c := { usage := 0, maxUsage := 0, limit := limit c, failcnt := 0 }
  charges := []
  calls := []
  warned := false

/-! ## The counters a call has reached -/

/-- The counters from one to below another. -/
def Tree.span (tree : Tree C) (start stop : Option C) : List C :=
  (tree.chain start).takeWhile fun c => some c ≠ stop

/-- The counters that a call has charged and not yet uncharged, or that it has still to uncharge. -/
def Call.reached (tree : Tree C) : Call C → List C
  | .charging counter _ c => tree.span (some counter) c
  | .undoing _ u c => tree.span u (some c)
  | .uncharging _ c => tree.chain c

def Call.val : Call C → Nat
  | .charging _ val _ => val
  | .undoing val _ _ => val
  | .uncharging val _ => val

/-- What a call in progress has in a counter. -/
def Call.part (tree : Tree C) (c : C) (call : Call C) : Nat :=
  if c ∈ call.reached tree then call.val else 0

/-- What a charge has in a counter: it is in the subtree of the counter or not. -/
def Tree.share (tree : Tree C) (c : C) (charge : C × Nat) : Nat :=
  if c ∈ tree.chain (some charge.1) then charge.2 else 0

/-- The charges in the subtree of a counter and the parts of the calls that have reached it. -/
def State.held (tree : Tree C) (s : State C) (c : C) : Nat :=
  (s.charges.map (tree.share c)).sum + (s.calls.map (Call.part tree c)).sum

variable {s : State C} {limit : C → Nat}

/-- The counters below a place on the way up. -/
theorem Tree.span_eq {start stop : Option C} {pre : List C}
    (h : tree.chain start = pre ++ tree.chain stop) : tree.span start stop = pre := by
  have hnodup := h ▸ tree.nodup_chain start
  rw [span, h]
  cases stop with
  | none =>
    rw [chain, List.takeWhile_append_of_pos, List.takeWhile_nil, List.append_nil]
    exact fun _ _ => rfl
  | some c =>
    rw [chain_some] at hnodup ⊢
    obtain ⟨_, _, hne⟩ := List.nodup_append.mp hnodup
    rw [List.takeWhile_append_of_pos, List.takeWhile_cons_of_neg, List.append_nil]
    · exact fun h => absurd rfl (of_decide_eq_true h)
    · intro x hx
      refine decide_eq_true fun heq => ?_
      exact hne x hx c List.mem_cons_self (Option.some.inj heq)

/-- The way up from `c`, when it goes on. -/
theorem Tree.span_cons {stop : Option C} (h : some c ≠ stop) :
    tree.span (some c) stop = c :: tree.span (tree.parent c) stop := by
  rw [span, chain_some, List.takeWhile_cons_of_pos (by simpa using h)]
  rfl

/-! ## One step -/

theorem held_cons (call : Call C) : State.held tree { s with calls := call :: s.calls } c =
    call.part tree c + s.held tree c := by
  simp only [State.held, List.map_cons, List.sum_cons]
  omega

theorem held_erase {call : Call C} (h : call ∈ s.calls) :
    s.held tree c = call.part tree c +
      State.held tree { s with calls := s.calls.erase call } c := by
  have hperm := ((List.perm_cons_erase h).map (Call.part tree c)).sum_eq
  rw [List.map_cons, List.sum_cons] at hperm
  simp only [State.held]
  omega

/-- The variables of a call are on the way up from its counter. -/
def Call.Ok (tree : Tree C) : Call C → Prop
  | .charging counter val c =>
    val < 2 ^ 32 ∧ ∃ pre, tree.chain (some counter) = pre ++ tree.chain c
  | .undoing _ u c => c ∈ tree.chain u
  | .uncharging _ _ => True

/-- Each counter has what is held of it, and `extra` more. -/
structure Covers (tree : Tree C) (limit : C → Nat) (extra : C → Nat) (s : State C) : Prop where
  usage : ∀ c, (s.counters c).usage = extra c + s.held tree c
  limit_eq : ∀ c, (s.counters c).limit = limit c
  le : ∀ c, (s.counters c).usage ≤ limit c
  calls : ∀ call ∈ s.calls, call.Ok tree
  warned : s.warned = false

variable {extra extra' : C → Nat} {call : Call C} {val : Nat}

/-- A call is taken out to go on. -/
theorem Covers.take (h : Covers tree limit (fun _ => 0) s) (hcall : call ∈ s.calls) :
    Covers tree limit (fun c => call.part tree c) { s with calls := s.calls.erase call } where
  usage c := (h.usage c).trans ((Nat.zero_add _).trans (held_erase hcall))
  limit_eq := h.limit_eq
  le := h.le
  calls other hother := h.calls other (List.mem_of_mem_erase hother)
  warned := h.warned

theorem Covers.put (h : Covers tree limit (fun c => call.part tree c) s) (hok : call.Ok tree) :
    Covers tree limit (fun _ => 0) { s with calls := call :: s.calls } where
  usage c := (h.usage c).trans ((Nat.zero_add _).trans (held_cons call)).symm
  limit_eq := h.limit_eq
  le := h.le
  calls := List.forall_mem_cons.mpr ⟨hok, h.calls⟩
  warned := h.warned

theorem Covers.congr (h : Covers tree limit extra s) (heq : ∀ c, extra c = extra' c) :
    Covers tree limit extra' s where
  usage c := heq c ▸ h.usage c
  limit_eq := h.limit_eq
  le := h.le
  calls := h.calls
  warned := h.warned

/-- The lock section of a counter leaves the others alone. -/
theorem Covers.update {counter : Counter} (h : Covers tree limit extra s)
    (husage : counter.usage = extra' x + s.held tree x) (hlimit : counter.limit = limit x)
    (hle : counter.usage ≤ limit x) (hsame : ∀ c, c ≠ x → extra' c = extra c) :
    Covers tree limit extra' { s with counters := Function.update s.counters x counter } where
  usage := (Function.forall_update_iff s.counters fun c counter =>
    counter.usage = extra' c + s.held tree c).mpr ⟨husage, fun c hc => hsame c hc ▸ h.usage c⟩
  limit_eq := (Function.forall_update_iff s.counters fun c counter =>
    counter.limit = limit c).mpr ⟨hlimit, fun c _ => h.limit_eq c⟩
  le := (Function.forall_update_iff s.counters fun c counter =>
    counter.usage ≤ limit c).mpr ⟨hle, fun c _ => h.le c⟩
  calls := h.calls
  warned := h.warned

/-- The lock section of an uncharging loop: the usage covers the value. -/
theorem Covers.unchargeAt {old : Call C} (h : Covers tree limit (fun c => old.part tree c) s)
    (hold : old.val = val) (hval : call.val = val)
    (hreached : old.reached tree = x :: call.reached tree) (hno : x ∉ call.reached tree)
    (hok : call.Ok tree) : Covers tree limit (fun _ => 0) (s.unchargeAt x val call) := by
  have husage := h.usage x
  have hle := h.le x
  have hx : old.part tree x = val := by
    rw [Call.part, hreached, if_pos List.mem_cons_self, hold]
  have hx' : call.part tree x = 0 := if_neg hno
  have hrun : unchargeLocked (s.counters x) val =
      ({ s.counters x with usage := (s.counters x).usage - val }, false) := if_neg (by omega)
  have hupdate : Covers tree limit (fun c => call.part tree c) { s with
      counters := Function.update s.counters x
        { s.counters x with usage := (s.counters x).usage - val } } := by
    refine h.update ?_ (h.limit_eq x) (Nat.le_trans (Nat.sub_le _ _) hle) fun c hc => ?_
    · show (s.counters x).usage - val = call.part tree x + _
      omega
    · rw [Call.part, Call.part, hreached, hold, hval]
      simp [hc]
  unfold State.unchargeAt
  rw [hrun]
  dsimp only
  rw [Bool.or_false]
  exact hupdate.put hok

theorem Covers.charge {counter : C} {pre : List C} (hlimit : ∀ c, limit c < 2 ^ 63)
    (h : Covers tree limit (fun c => (Call.charging counter val (some x)).part tree c) s)
    (hval : val < 2 ^ 32) (hpath : tree.chain (some counter) = pre ++ tree.chain (some x)) :
    Covers tree limit (fun _ => 0) (s.advance tree (.charging counter val (some x))) := by
  have hpath' : tree.chain (some counter) = (pre ++ [x]) ++ tree.chain (tree.parent x) := by
    rw [hpath, tree.chain_some x, List.append_assoc, List.singleton_append]
  have hspan := tree.span_eq hpath
  have hspan' := tree.span_eq hpath'
  have hxpre : x ∉ pre := by
    have hnodup := hpath ▸ tree.nodup_chain (some counter)
    rw [tree.chain_some] at hnodup
    exact fun hx => (List.nodup_cons.mp (List.nodup_middle.mp hnodup)).1
      (List.mem_append_left _ hx)
  have hpart : ∀ c, (Call.charging counter val (some x)).part tree c =
      if c ∈ pre then val else 0 := fun c => by rw [Call.part, Call.reached, hspan, Call.val]
  have husage := h.usage x
  rw [hpart, if_neg hxpre] at husage
  have hlim := h.limit_eq x
  have hle := h.le x
  have hbound := hlimit x
  have hmod : ((s.counters x).usage + val) % 2 ^ 64 = (s.counters x).usage + val :=
    Nat.mod_eq_of_lt (by omega)
  rw [State.advance]
  unfold chargeLocked
  rw [hmod]
  by_cases hfull : (s.counters x).usage + val > (s.counters x).limit
  · -- the counter refuses: the call turns back and holds what it held
    have hsame : ∀ c, (Call.undoing val (some counter) x).part tree c =
        if c ∈ pre then val else 0 := fun c => by rw [Call.part, Call.reached, hspan, Call.val]
    have hnew := h.congr fun c => (hpart c).trans (hsame c).symm
    have hupdate : Covers tree limit _ { s with
        counters := Function.update s.counters x
          { s.counters x with failcnt := ((s.counters x).failcnt + 1) % 2 ^ 64 } } :=
      hnew.update (hnew.usage x) hlim hle fun _ _ => rfl
    rw [if_pos hfull]
    dsimp only
    rw [if_neg Bool.false_ne_true]
    refine hupdate.put ?_
    show x ∈ tree.chain (some counter)
    rw [hpath, tree.chain_some]
    exact List.mem_append_right _ List.mem_cons_self
  · have hmore : ∀ c, (Call.charging counter val (tree.parent x)).part tree c =
        if c ∈ pre ++ [x] then val else 0 := fun c => by
      rw [Call.part, Call.reached, hspan', Call.val]
    have hupdate : Covers tree limit (fun c => (Call.charging counter val (tree.parent x)).part tree c)
        { s with
          counters := Function.update s.counters x
            { s.counters x with
              usage := (s.counters x).usage + val
              maxUsage := max (s.counters x).maxUsage ((s.counters x).usage + val) } } := by
      refine h.update ?_ hlim ?_ fun c hc => ?_
      · show (s.counters x).usage + val = _
        rw [hmore, if_pos (List.mem_append_right _ List.mem_cons_self)]
        omega
      · show (s.counters x).usage + val ≤ limit x
        omega
      · rw [hmore, hpart]
        simp [hc]
    rw [if_neg hfull]
    dsimp only
    rw [if_pos rfl]
    exact hupdate.put ⟨hval, _, hpath'⟩

/-- A call that goes on keeps the counters exact. -/
theorem Covers.advance (hlimit : ∀ c, limit c < 2 ^ 63)
    (h : Covers tree limit (fun c => call.part tree c) s) (hok : call.Ok tree) :
    Covers tree limit (fun _ => 0) (s.advance tree call) := by
  cases call with
  | charging counter val next =>
    obtain ⟨hval, pre, hpath⟩ := hok
    cases next with
    | some x => exact h.charge hlimit hval hpath
    | none =>
      -- the call returns 0: it has reached what its charge has a share in
      have hspan := tree.span_eq hpath
      rw [Tree.chain, List.append_nil] at hpath
      refine ⟨fun c => (h.usage c).trans ?_, h.limit_eq, h.le, h.calls, h.warned⟩
      have hpart : (Call.charging counter val none).part tree c = tree.share c (counter, val) := by
        rw [Call.part, Call.reached, hspan, ← hpath]
        rfl
      show _ = 0 + ((((counter, val) :: s.charges).map (tree.share c)).sum +
        (s.calls.map (Call.part tree c)).sum)
      rw [hpart, List.map_cons, List.sum_cons, State.held]
      omega
  | undoing val u x =>
    by_cases hu : u = some x
    · rw [State.advance.eq_def]
      dsimp only
      rw [if_pos hu]
      refine h.congr fun c => ?_
      subst hu
      have hspan : tree.span (some x) (some x) = [] := Tree.span_eq rfl
      rw [Call.part, Call.reached, hspan, if_neg List.not_mem_nil]
    · cases u with
      | none => cases hok
      | some u =>
        have hux : u ≠ x := fun heq => hu (congrArg some heq)
        have hspan : tree.span (some u) (some x) = u :: tree.span (tree.parent u) (some x) :=
          Tree.span_cons hu
        have hok' : x ∈ tree.chain (tree.parent u) := by
          have hmem : x ∈ tree.chain (some u) := hok
          rw [tree.chain_some] at hmem
          exact (List.mem_cons.mp hmem).resolve_left hux.symm
        have hno : u ∉ tree.span (tree.parent u) (some x) :=
          fun hmem => tree.not_mem_chain u (List.takeWhile_sublist _ |>.subset hmem)
        rw [State.advance.eq_def]
        dsimp only
        rw [if_neg hu]
        exact h.unchargeAt rfl rfl hspan hno hok'
  | uncharging val next =>
    cases next with
    | none => exact h.congr fun c => if_neg List.not_mem_nil
    | some x => exact h.unchargeAt rfl rfl (tree.chain_some x) (tree.not_mem_chain x) trivial

theorem Covers.step (hlimit : ∀ c, limit c < 2 ^ 63) {t : State C} {op : Op C}
    (h : Covers tree limit (fun _ => 0) s) (hstep : Step tree s op t) :
    Covers tree limit (fun _ => 0) t := by
  cases op with
  | charge counter val =>
    obtain ⟨hval, rfl⟩ := hstep
    refine (h.congr fun c => ?_).put ⟨hval, [], rfl⟩
    have hspan : tree.span (some counter) (some counter) = [] := Tree.span_eq rfl
    rw [Call.part, Call.reached, hspan, if_neg List.not_mem_nil]
  | uncharge counter val =>
    obtain ⟨hmem, rfl⟩ := hstep
    have hcovers : Covers tree limit
        (fun c => (Call.uncharging val (some counter)).part tree c)
        { s with charges := s.charges.erase (counter, val) } := by
      refine ⟨fun c => (h.usage c).trans ?_, h.limit_eq, h.le, h.calls, h.warned⟩
      have hperm := ((List.perm_cons_erase hmem).map (tree.share c)).sum_eq
      rw [List.map_cons, List.sum_cons] at hperm
      show 0 + ((s.charges.map (tree.share c)).sum + (s.calls.map (Call.part tree c)).sum) =
        tree.share c (counter, val) + (((s.charges.erase (counter, val)).map (tree.share c)).sum +
          (s.calls.map (Call.part tree c)).sum)
      omega
    exact hcovers.put trivial
  | advance call =>
    obtain ⟨hmem, rfl⟩ := hstep
    exact (h.take hmem).advance hlimit (h.calls call hmem)

theorem covers_initial (tree : Tree C) (limit : C → Nat) :
    Covers tree limit (fun _ => 0) (State.initial limit) where
  usage _ := rfl
  limit_eq _ := rfl
  le _ := Nat.zero_le _
  calls _ h := absurd h List.not_mem_nil
  warned := rfl

/-- In every interleaving of charges and uncharges the usage of a counter is what the charges in
its subtree and the calls in progress hold of it. It is within the limit, and no call warns. A
call that is about to return an error holds nothing. -/
theorem charges_exact (tree : Tree C) (limit : C → Nat) (hlimit : ∀ c, limit c < 2 ^ 63)
    (hrun : Reaches (Step tree) anyStep (State.initial limit) s) :
    (∀ c, (s.counters c).usage = s.held tree c ∧ (s.counters c).usage ≤ (s.counters c).limit ∧
      (s.counters c).limit = limit c) ∧
    s.warned = false ∧
    (∀ val x, .undoing val (some x) x ∈ s.calls →
      ∀ c, (Call.undoing val (some x) x).part tree c = 0) := by
  have h := hrun.invariant (Covers tree limit fun _ => 0) (fun _ _ _ h _ hstep => h.step hlimit hstep)
    (covers_initial tree limit)
  refine ⟨fun c => ⟨(h.usage c).trans (Nat.zero_add _), ?_, h.limit_eq c⟩, h.warned, ?_⟩
  · rw [h.limit_eq]
    exact h.le c
  · intro val x _ c
    have hspan : tree.span (some x) (some x) = [] := Tree.span_eq rfl
    rw [Call.part, Call.reached, hspan, if_neg List.not_mem_nil]

/-- A counter, and its parent `true`. -/
def twoCounters : Tree Bool where
  parent c := if c then none else some true
  depth c := if c then 0 else 1
  depth_parent := by decide

/-- The parent refuses a charge, which turns back. -/
theorem charges_exact_refused : ∃ s : State Bool, Call.undoing 5 (some true) true ∈ s.calls ∧
    (s.counters false).usage = s.held twoCounters false ∧ s.warned = false ∧
    (Call.undoing 5 (some true) true).part twoCounters false = 0 := by
  have hstart : Reaches (Step twoCounters) anyStep (State.initial fun c => if c then 3 else 10) _ :=
    .refl _
  have hcharged := hstart.tail (show Step twoCounters _ (.charge false 5) _ from
    ⟨by decide, rfl⟩) trivial
  have hreached := hcharged.tail (show Step twoCounters _
    (.advance (.charging false 5 (some false))) _ from ⟨List.mem_cons_self, rfl⟩) trivial
  have hrefused := hreached.tail (show Step twoCounters _
    (.advance (.charging false 5 (some true))) _ from ⟨List.mem_cons_self, rfl⟩) trivial
  have hundone := hrefused.tail (show Step twoCounters _
    (.advance (.undoing 5 (some false) true)) _ from ⟨List.mem_cons_self, rfl⟩) trivial
  obtain ⟨hcounters, hwarned, hreturns⟩ := charges_exact twoCounters (fun c => if c then 3 else 10)
    (by decide) hundone
  exact ⟨_, List.mem_cons_self, (hcounters false).1, hwarned, hreturns 5 true List.mem_cons_self false⟩

end AndroidKernel.ResCounter
