import Mathlib.Algebra.BigOperators.Group.List.Basic
import AndroidKernel.SysvSem.Model

/-!
# Atomic operations

A sequence of operations is done as a whole, or changes nothing.
-/

namespace AndroidKernel.SysvSem

variable {v v' : Values} {sops done : List Sembuf} {sop : Sembuf} {un : Option Nat} {pid : Int}
variable {n : Nat} {q : SemQueue}

/-! ## One operation -/

theorem addSemval_semval (d : Int) (m : Nat) :
    (v.addSemval n d).semval m = v.semval m + if m = n then d else 0 := by
  rw [Values.semval, Values.addSemval]
  dsimp only
  rw [Function.update_apply]
  split_ifs with hm
  · rw [hm]
  · rw [Int.add_zero]
    rfl

/-- A change that is taken back. -/
theorem addSemval_neg (d : Int) : (v.addSemval n d).addSemval n (-d) = v := by
  have hvalue : (v.addSemval n d).semval n + -d = (v.semBase n).semval := by
    rw [addSemval_semval, if_pos rfl, Int.add_neg_cancel_right]
    rfl
  have hself : (v.addSemval n d).semBase n = { v.semBase n with semval := v.semval n + d } :=
    Function.update_self ..
  rw [Values.addSemval, hvalue, hself]
  simp only [Values.addSemval, Function.update_idem, Function.update_eq_self]

/-- Every value is between 0 and `SEMVMX`. -/
def InRange (v : Values) : Prop :=
  ∀ n, 0 ≤ v.semval n ∧ v.semval n ≤ semvmx

/-- The codes that stop a sequence: 1 if the task has to wait, an error otherwise. -/
theorem refuses_code {semval code : Int} {semadj : Int16}
    (h : refuses sop semval semadj = some code) : code = 1 ∨ code < 0 := by
  have hblock : (if sop.ipcNowait then -eagain else 1) = (1 : Int) ∨
      (if sop.ipcNowait then -eagain else 1) < (0 : Int) := by
    split_ifs
    · exact .inr (by decide)
    · exact .inl rfl
  have hrange : -erange = 1 ∨ -erange < 0 := .inr (by decide)
  unfold refuses at h
  dsimp only at h
  generalize (if sop.ipcNowait then -eagain else 1) = wouldBlock at h hblock
  split_ifs at h <;> cases h
  · exact hblock
  · exact hblock
  · exact hrange
  · exact hrange

/-- An operation that is not refused gives a value in range. -/
theorem refuses_none {semval : Int} {semadj : Int16} (h : refuses sop semval semadj = none) :
    0 ≤ semval + sop.semOp.toInt ∧ semval + sop.semOp.toInt ≤ semvmx := by
  unfold refuses at h
  dsimp only at h
  split_ifs at h with h₁ h₂ h₃ h₄
  exact ⟨Int.not_lt.mp h₂, Int.not_lt.mp h₃⟩

theorem InRange.addSemval (h : InRange v)
    (hnone : refuses sop (v.semval sop.semNum) (v.adjustment un sop.semNum) = none) :
    InRange (v.addSemval sop.semNum sop.semOp.toInt) := by
  intro m
  rw [addSemval_semval]
  by_cases hm : m = sop.semNum
  · rw [if_pos hm, hm]
    exact refuses_none hnone
  · rw [if_neg hm, Int.add_zero]
    exact h m

/-! ## A sequence -/

/-- The semaphores after the operations that have been done, the last one first. -/
def addOps : List Sembuf → Values → Values
  | [], v => v
  | sop :: done, v => (addOps done v).addSemval sop.semNum sop.semOp.toInt

theorem undoOps_addOps (done : List Sembuf) (v : Values) : undoOps done (addOps done v) = v := by
  induction done with
  | nil => rfl
  | cons sop done ih => rw [addOps, undoOps, addSemval_neg, ih]

/-- The values after a sequence of operations, each done once. -/
def applyOps (sops : List Sembuf) (un : Option Nat) (pid : Int) (v : Values) : Values :=
  commitOps un pid sops.reverse (addOps sops.reverse v)

/-- What the operations of a sequence do to a semaphore together. -/
def netOp (sops : List Sembuf) (n : Nat) : Int :=
  (sops.map fun sop => if n = sop.semNum then sop.semOp.toInt else 0).sum

theorem addOps_semval (done : List Sembuf) (v : Values) (n : Nat) :
    (addOps done v).semval n = v.semval n + netOp done n := by
  induction done with
  | nil => exact (Int.add_zero _).symm
  | cons sop done ih =>
    rw [addOps, addSemval_semval, ih, netOp, netOp, List.map_cons, List.sum_cons]
    omega

theorem commitOps_semval (done : List Sembuf) (v : Values) (n : Nat) :
    (commitOps un pid done v).semval n = v.semval n := by
  induction done generalizing v with
  | nil => rfl
  | cons sop done ih =>
    rw [commitOps, ih, Values.semval]
    dsimp only
    rw [Function.update_apply]
    split_ifs with hn
    · rw [hn]
      rfl
    · rfl

theorem applyOps_semval (sops : List Sembuf) (v : Values) (n : Nat) :
    (applyOps sops un pid v).semval n = v.semval n + netOp sops n := by
  rw [applyOps, commitOps_semval, addOps_semval, netOp, netOp, List.map_reverse,
    List.sum_reverse_int]

/-- A sequence is done as a whole, in range, or changes nothing. -/
inductive Tried (v : Values) (sops : List Sembuf) (un : Option Nat) (pid : Int) :
    Int × Values → Prop
  | done (h : InRange v → InRange (applyOps sops un pid v)) :
      Tried v sops un pid (0, applyOps sops un pid v)
  | refused {code : Int} (h : code = 1 ∨ code < 0) : Tried v sops un pid (code, v)

theorem tryLoop_tried (hrange : InRange v → InRange (addOps done v)) :
    Tried v (done.reverse ++ sops) un pid (tryLoop un pid done sops (addOps done v)) := by
  induction sops generalizing done with
  | nil =>
    have hsame : commitOps un pid done (addOps done v) =
        applyOps (done.reverse ++ []) un pid v := by
      rw [applyOps, List.append_nil, List.reverse_reverse]
    rw [tryLoop, hsame]
    refine .done fun hv n => ?_
    have hn := hrange hv n
    rw [← hsame, commitOps_semval]
    exact hn
  | cons sop sops ih =>
    rw [tryLoop]
    cases hrefuses : refuses sop ((addOps done v).semval sop.semNum)
        ((addOps done v).adjustment un sop.semNum) with
    | some code =>
      dsimp only
      rw [undoOps_addOps]
      exact .refused (refuses_code hrefuses)
    | none =>
      have hnext := @ih (sop :: done) fun hv => (hrange hv).addSemval hrefuses
      rw [List.reverse_cons, List.append_assoc] at hnext
      exact hnext

theorem tryAtomicSemop_tried (v : Values) (sops : List Sembuf) (un : Option Nat) (pid : Int) :
    Tried v sops un pid (tryAtomicSemop v sops un pid) :=
  @tryLoop_tried v sops [] un pid id

/-- All or nothing. -/
theorem tryAtomicSemop_unchanged (h : (tryAtomicSemop v sops un pid).1 ≠ 0) :
    (tryAtomicSemop v sops un pid).2 = v := by
  generalize htried : tryAtomicSemop v sops un pid = tried at h
  have hcases := htried ▸ tryAtomicSemop_tried v sops un pid
  cases hcases with
  | done => exact absurd rfl h
  | refused => rfl

/-! ## What the result depends on -/

/-- The values and adjustments that the result of a sequence depends on are the same. -/
structure Agree (un : Option Nat) (v v' : Values) : Prop where
  semval : ∀ n, v'.semval n = v.semval n
  adjustment : ∀ n, v'.adjustment un n = v.adjustment un n

theorem Agree.addSemval (h : Agree un v v') (n : Nat) (d : Int) :
    Agree un (v.addSemval n d) (v'.addSemval n d) where
  semval m := by rw [addSemval_semval, addSemval_semval, h.semval]
  adjustment := h.adjustment

theorem tryLoop_agree (h : Agree un v v') :
    (tryLoop un pid done sops v').1 = (tryLoop un pid done sops v).1 := by
  induction sops generalizing done v v' with
  | nil => rfl
  | cons sop sops ih =>
    rw [tryLoop, tryLoop, h.semval, h.adjustment]
    cases refuses sop (v.semval sop.semNum) (v.adjustment un sop.semNum) with
    | some code => rfl
    | none => exact ih (h.addSemval _ _)

/-- The entry would have to wait. -/
def Blocked (v : Values) (q : SemQueue) : Prop :=
  (q.try v).1 = 1

theorem Blocked.of_agree (h : Blocked v q) (hagree : Agree q.undo v v') : Blocked v' q :=
  (tryLoop_agree hagree).trans h

/-! ## Operations that do not alter the array -/

theorem semOp_eq_zero (h : alters sops = false) (hsop : sop ∈ sops) : sop.semOp = 0 := by
  have hnot := List.any_eq_false.mp h sop hsop
  simpa only [bne_iff_ne, ne_eq, not_not] using hnot

theorem netOp_eq_zero (h : alters sops = false) (n : Nat) : netOp sops n = 0 := by
  refine List.sum_eq_zero fun d hd => ?_
  obtain ⟨sop, hsop, rfl⟩ := List.mem_map.mp hd
  rw [semOp_eq_zero h hsop]
  exact ite_self 0

theorem commitOps_semadj (h : ∀ sop ∈ done, sop.semOp = 0) (v : Values) :
    (commitOps un pid done v).semadj = v.semadj := by
  induction done generalizing v with
  | nil => rfl
  | cons sop done ih =>
    rw [commitOps, ih fun sop hsop => h sop (List.mem_cons_of_mem _ hsop)]
    funext u m
    dsimp only
    rw [h sop (List.mem_cons_self ..), Int16.sub_zero]
    split_ifs with hm
    · rw [hm.2.1]
    · rfl

theorem addOps_semadj (done : List Sembuf) (v : Values) : (addOps done v).semadj = v.semadj := by
  induction done with
  | nil => rfl
  | cons sop done ih => exact ih

/-- Such operations change neither a value nor an adjustment. -/
theorem agree_applyOps (h : alters sops = false) (un' : Option Nat) :
    Agree un' v (applyOps sops un pid v) where
  semval n := by rw [applyOps_semval, netOp_eq_zero h, Int.add_zero]
  adjustment n := by
    have hsame : (applyOps sops un pid v).semadj = v.semadj := by
      rw [applyOps, commitOps_semadj, addOps_semadj]
      exact fun sop hsop => semOp_eq_zero h (List.mem_reverse.mp hsop)
    rw [Values.adjustment, hsame]
    rfl

/-!
## The queue of a semaphore array

`update_queue` leaves no entry that could be completed, and completes each entry that it wakes once.
-/

variable {v : Values} {before rest : List SemQueue} {q : SemQueue}

/-- The values after the operations of an entry. -/
def SemQueue.apply (q : SemQueue) (v : Values) : Values :=
  applyOps q.sops q.undo q.pid v

/-- The values after a task is woken: its operations are done if its result is 0. -/
def applyWoken (v : Values) (woken : SemQueue × Int) : Values :=
  if woken.2 = 0 then woken.1.apply v else v

/-- What `update_queue` does to the entries `entries`. -/
structure Settles (v : Values) (entries : List SemQueue) (updated : Updated) : Prop where
  range : InRange v → InRange updated.values
  blocked : ∀ q ∈ updated.pending, Blocked updated.values q
  perm : (updated.pending ++ updated.woken.map Prod.fst).Perm entries
  values : updated.values = updated.woken.foldl applyWoken v
  error : ∀ woken ∈ updated.woken, woken.2 ≤ 0

/-- An entry that is woken, and what `update_queue` does then. -/
theorem Settles.cons {entries entries' : List SemQueue} {updated : Updated} {error : Int}
    {v' : Values} (h : Settles v' entries updated)
    (htried : Tried v q.sops q.undo q.pid (error, v')) (herror : error ≤ 0)
    (hentries : (q :: entries).Perm entries') :
    Settles v entries' { updated with woken := (q, error) :: updated.woken } where
  range hv := by
    cases htried with
    | done hdone => exact h.range (hdone hv)
    | refused => exact h.range hv
  blocked := h.blocked
  perm := by
    refine .trans ?_ hentries
    rw [List.map_cons]
    exact List.perm_middle.trans (h.perm.cons q)
  values := by
    have hv' : applyWoken v (q, error) = v' := by
      cases htried with
      | done => exact if_pos rfl
      | refused hcode => exact if_neg (show error ≠ 0 by omega)
    rw [List.foldl_cons, hv']
    exact h.values
  error woken hwoken := by
    rcases List.mem_cons.mp hwoken with rfl | hwoken
    · exact herror
    · exact h.error woken hwoken

/-- The entries that the scan has passed stay blocked: after an entry that may alter the array it
starts again, and other entries change nothing that a result depends on. -/
theorem updateQueue_settles (before rest : List SemQueue) (v : Values)
    (hbefore : ∀ q ∈ before, Blocked v q) :
    Settles v (before ++ rest) (updateQueue before rest v) := by
  induction before, rest, v using updateQueue.induct with
  | case1 before v =>
    rw [updateQueue, List.append_nil]
    exact ⟨id, hbefore, by rw [List.map_nil, List.append_nil], rfl, nofun⟩
  | case2 before v q rest tried herror ih₁ ih₂ =>
    have htried : Tried v q.sops q.undo q.pid tried := tryAtomicSemop_tried v q.sops q.undo q.pid
    have hentries : (q :: (before ++ rest)).Perm (before ++ q :: rest) := List.perm_middle.symm
    rw [updateQueue]
    dsimp only
    rw [if_pos herror]
    by_cases halter : q.alter = true
    · rw [if_pos halter]
      exact (ih₁ nofun).cons htried herror hentries
    · rw [if_neg halter]
      have hzero : alters q.sops = false := q.alter_eq ▸ (Bool.not_eq_true _).mp halter
      refine (ih₂ fun p hp => ?_).cons htried herror hentries
      generalize htry : tried = t at htried ⊢
      cases htried with
      | done => exact (hbefore p hp).of_agree (agree_applyOps hzero p.undo)
      | refused => exact hbefore p hp
  | case3 before v q rest tried herror ih =>
    have htried : Tried v q.sops q.undo q.pid tried := tryAtomicSemop_tried v q.sops q.undo q.pid
    rw [updateQueue]
    dsimp only
    rw [if_neg herror]
    have hsame : tried.2 = v ∧ tried.1 = 1 := by
      generalize htry : tried = t at htried herror ⊢
      cases htried with
      | done => exact absurd (Int.le_refl 0) herror
      | refused hcode =>
        refine ⟨rfl, hcode.resolve_right fun hneg => herror ?_⟩
        exact Int.le_of_lt hneg
    have hnext := ih fun p hp => by
      rw [hsame.1]
      rcases List.mem_append.mp hp with hp | hp
      · exact hbefore p hp
      · rw [List.mem_singleton.mp hp]
        exact hsame.2
    rw [List.append_assoc, hsame.1] at hnext
    rw [show (q.try v).2 = v from hsame.1]
    exact hnext

/-!
## Settled arrays

Between two calls no entry of the queue could be completed, and every call that is completed has
been applied once. `Kept` is what holds also before `update_queue`.
-/

variable {s : System}

/-- What an event does to the values. -/
def Event.effect (v : Values) : Event → Values
  | .applied q => q.apply v
  | .allocated u => v.allocUndo u
  | .setVal listId n val pid => v.setVal listId n val pid
  | .setAll listId vals => v.setAll listId vals
  | .exited u nsems pid => v.exit u nsems pid

/-- The call that an event applies. -/
def Event.appliedId : Event → Option Nat
  | .applied q => some q.id
  | _ => none

/-- The calls that are completed. -/
def System.completed (s : System) : List Nat :=
  (s.finished.filter fun call => call.2 = 0).map Prod.fst

/-- The values of a new array. -/
def Values.initial : Values := ⟨fun _ => ⟨0, 0⟩, fun _ _ => 0⟩

/-- The entry is that of its call. -/
def System.IsCall (s : System) (q : SemQueue) : Prop :=
  s.calls[q.id]? = some q.sops

/-- What every call keeps. -/
structure Kept (s : System) : Prop where
  range : InRange s.values
  undo : ∀ q ∈ s.pending, ∀ u, q.undo = some u →
    u ∈ s.listId ∧ s.undoList q.sleeper = some u
  shared : ∀ u (tasks : List Nat), tasks.Nodup → (∀ t ∈ tasks, s.undoList t = some u) →
    tasks.length ≤ s.refcnt u
  fresh : ∀ t u, s.undoList t = some u → u < s.nextList
  once : (s.finished.map Prod.fst ++ s.pending.map SemQueue.id).Perm (List.range s.calls.length)
  pending_isCall : ∀ q ∈ s.pending, s.IsCall q
  log_isCall : ∀ q, .applied q ∈ s.log → s.IsCall q
  applied : s.log.filterMap Event.appliedId = s.completed
  replay : s.values = s.log.foldl Event.effect .initial

/-- No entry of the queue could be completed. -/
def Settled (s : System) : Prop :=
  ∀ q ∈ s.pending, Blocked s.values q

/-! ## The queue is updated -/

theorem wokenEvent_of_zero (q : SemQueue) {error : Int} (h : error = 0) :
    wokenEvent (q, error) = some (.applied q) :=
  if_pos h

theorem wokenEvent_of_ne (q : SemQueue) {error : Int} (h : error ≠ 0) :
    wokenEvent (q, error) = none :=
  if_neg h

theorem foldl_wokenEvent (woken : List (SemQueue × Int)) (v : Values) :
    (woken.filterMap wokenEvent).foldl Event.effect v = woken.foldl applyWoken v := by
  induction woken generalizing v with
  | nil => rfl
  | cons first woken ih =>
    rw [List.foldl_cons, applyWoken]
    by_cases hzero : first.2 = 0
    · rw [List.filterMap_cons_some (wokenEvent_of_zero first.1 hzero), List.foldl_cons,
        if_pos hzero]
      exact ih _
    · rw [List.filterMap_cons_none (wokenEvent_of_ne first.1 hzero), if_neg hzero]
      exact ih v

/-- The result of a woken call. -/
def wokenResult (woken : SemQueue × Int) : Nat × Int := (woken.1.id, woken.2)

theorem appliedId_wokenEvent (woken : List (SemQueue × Int)) :
    (woken.filterMap wokenEvent).filterMap Event.appliedId =
      ((woken.map wokenResult).filter fun call => call.2 = 0).map Prod.fst := by
  induction woken with
  | nil => rfl
  | cons first woken ih =>
    have hdone : decide ((wokenResult first).2 = 0) = true ↔ first.2 = 0 := decide_eq_true_iff
    by_cases hzero : first.2 = 0
    · have hid : Event.appliedId (.applied first.1) = some first.1.id := rfl
      rw [List.filterMap_cons_some (wokenEvent_of_zero first.1 hzero),
        List.filterMap_cons_some hid,
        List.map_cons, List.filter_cons,
        if_pos (hdone.mpr hzero), List.map_cons, ih]
      rfl
    · rw [List.filterMap_cons_none (wokenEvent_of_ne first.1 hzero), List.map_cons,
        List.filter_cons, if_neg (hzero ∘ hdone.mp), ih]

theorem mem_wokenEvent {woken : List (SemQueue × Int)} {q : SemQueue}
    (h : .applied q ∈ woken.filterMap wokenEvent) : q ∈ woken.map Prod.fst := by
  obtain ⟨entry, hmem, hevent⟩ := List.mem_filterMap.mp h
  unfold wokenEvent at hevent
  split_ifs at hevent
  cases hevent
  exact List.mem_map_of_mem hmem

/-- After `update_queue` the array is settled. -/
theorem Kept.updateQueue (h : Kept s) : Kept s.updateQueue ∧ Settled s.updateQueue := by
  have hsettles := updateQueue_settles [] s.pending s.values nofun
  rw [List.nil_append] at hsettles
  refine ⟨?_, hsettles.blocked⟩
  unfold System.updateQueue
  generalize SysvSem.updateQueue [] s.pending s.values = updated at hsettles
  obtain ⟨hrange, _, hperm, hvalues, _⟩ := hsettles
  have hpending : ∀ q ∈ updated.pending, q ∈ s.pending := fun q hq =>
    hperm.subset (List.mem_append_left _ hq)
  refine ⟨hrange h.range, fun q hq => h.undo q (hpending q hq), h.shared, h.fresh, ?_,
    fun q hq => h.pending_isCall q (hpending q hq), fun q hq => ?_, ?_, ?_⟩
  · refine .trans ?_ h.once
    dsimp only
    rw [List.map_append, List.append_assoc]
    refine List.Perm.append_left _ ?_
    refine .trans List.perm_append_comm ?_
    have hids := hperm.map SemQueue.id
    rw [List.map_append, List.map_map] at hids
    rw [List.map_map]
    exact hids
  · rcases List.mem_append.mp hq with hq | hq
    · exact h.log_isCall q hq
    · exact h.pending_isCall q (hperm.subset (List.mem_append_right _ (mem_wokenEvent hq)))
  · rw [System.completed, List.filterMap_append, List.filter_append, List.map_append, h.applied,
      appliedId_wokenEvent]
    rfl
  · dsimp only
    rw [List.foldl_append, ← h.replay, foldl_wokenEvent]
    exact hvalues

end AndroidKernel.SysvSem
