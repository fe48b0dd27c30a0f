import AndroidKernel.SysvSem.Atomic
import AndroidKernel.Library.Runs

/-!
# Calls on a semaphore array

What the calls of `ipc/sem.c` keep, each between the points where it takes and releases the lock of
the array.
-/

namespace AndroidKernel.SysvSem

variable {s : System} {task : Nat} {v : Values}

/-- What holds between two calls. -/
structure Sound (s : System) : Prop where
  kept : Kept s
  settled : Settled s

/-- The task does not sleep in the queue. -/
def System.Awake (s : System) (task : Nat) : Prop :=
  ∀ q ∈ s.pending, q.sleeper ≠ task

/-! ## Values -/

/-- The values change in a way that is no completed call. -/
theorem Kept.event (h : Kept s) (event : Event) (hid : event.appliedId = none)
    (hrange : InRange (event.effect s.values)) :
    Kept { s with values := event.effect s.values, log := s.log ++ [event] } where
  range := hrange
  undo := h.undo
  shared := h.shared
  fresh := h.fresh
  once := h.once
  pending_isCall := h.pending_isCall
  log_isCall q hq := by
    rcases List.mem_append.mp hq with hq | hq
    · exact h.log_isCall q hq
    · rw [← List.mem_singleton.mp hq] at hid
      exact absurd hid nofun
  applied := by
    rw [List.filterMap_append, List.filterMap_cons_none hid, List.filterMap_nil, List.append_nil]
    exact h.applied
  replay := by rw [List.foldl_append, ← h.replay, List.foldl_cons, List.foldl_nil]

/-- The undo structures of the array change, but those of the queue are still there. -/
theorem Kept.relist (h : Kept s) {listId : List Nat}
    (hlist : ∀ q ∈ s.pending, ∀ u, q.undo = some u → u ∈ listId) :
    Kept { s with listId := listId } :=
  ⟨h.range, fun q hq u hu => ⟨hlist q hq u hu, (h.undo q hq u hu).2⟩, h.shared, h.fresh, h.once,
    h.pending_isCall, h.log_isCall, h.applied, h.replay⟩

theorem setVal_range (h : InRange v) (listId : List Nat) {n : Nat} {val : Int} (pid : Int)
    (hval : ¬ (semvmx < val ∨ val < 0)) : InRange (v.setVal listId n val pid) := by
  intro m
  rw [Values.semval, Values.setVal]
  dsimp only
  rw [Function.update_apply]
  split_ifs
  · exact ⟨Int.not_lt.mp fun hneg => hval (.inr hneg), Int.not_lt.mp fun hmax => hval (.inl hmax)⟩
  · exact h m

theorem setAll_range (h : InRange v) (listId : List Nat) {vals : List Nat}
    (hvals : ¬ ∃ val ∈ vals, semvmx < val) : InRange (v.setAll listId vals) := by
  intro m
  rw [Values.semval, Values.setAll]
  dsimp only
  split_ifs with hm
  · exact ⟨Int.natCast_nonneg _,
      Int.not_lt.mp fun hmax => hvals ⟨vals[m], List.getElem_mem hm, hmax⟩⟩
  · exact h m

theorem exit_range (h : InRange v) (u nsems : Nat) (pid : Int) : InRange (v.exit u nsems pid) := by
  intro m
  rw [Values.semval, Values.exit]
  dsimp only
  have hm : 0 ≤ (v.semBase m).semval ∧ (v.semBase m).semval ≤ semvmx := h m
  by_cases hlt : m < nsems
  · rw [if_pos hlt, adjusted]
    by_cases hzero : v.semadj u m = 0
    · rw [if_pos hzero]
      exact hm
    · rw [if_neg hzero]
      dsimp only [semvmx] at hm ⊢
      omega
  · rw [if_neg hlt]
    exact hm

/-- `SETVAL` leaves a settled array. -/
theorem Sound.setVal (h : Sound s) (n : Nat) (val pid : Int) : Sound (s.setVal n val pid) := by
  unfold System.setVal
  by_cases hn : s.nsems ≤ n
  · rw [if_pos hn]
    exact h
  rw [if_neg hn]
  by_cases hval : semvmx < val ∨ val < 0
  · rw [if_pos hval]
    exact h
  · rw [if_neg hval]
    have hkept : Kept { s with
        values := s.values.setVal s.listId n val pid
        log := s.log ++ [.setVal s.listId n val pid] } :=
      h.kept.event (.setVal s.listId n val pid) rfl
        (setVal_range h.kept.range s.listId pid hval)
    exact ⟨hkept.updateQueue.1, hkept.updateQueue.2⟩

/-- `SETALL` leaves a settled array. -/
theorem Sound.setAll (h : Sound s) (vals : List Nat) : Sound (s.setAll vals) := by
  unfold System.setAll
  by_cases hlength : vals.length ≠ s.nsems
  · rw [if_pos hlength]
    exact h
  rw [if_neg hlength]
  by_cases hvals : ∃ val ∈ vals, semvmx < val
  · rw [if_pos hvals]
    exact h
  · rw [if_neg hvals]
    have hkept : Kept { s with
        values := s.values.setAll s.listId vals
        log := s.log ++ [.setAll s.listId vals] } :=
      h.kept.event (.setAll s.listId vals) rfl (setAll_range h.kept.range s.listId hvals)
    exact ⟨hkept.updateQueue.1, hkept.updateQueue.2⟩

/-! ## Undo lists -/

/-- The task has the undo list `u`; the array is as it was. -/
structure Listed (s s' : System) (task u : Nat) : Prop where
  kept : Kept s'
  values : s'.values = s.values
  pending : s'.pending = s.pending
  undoList : s'.undoList task = some u
  others : ∀ t ≠ task, s'.undoList t = s.undoList t

theorem getUndoList_listed (h : Kept s) (task : Nat) :
    Listed s (s.getUndoList task).2 task (s.getUndoList task).1 := by
  unfold System.getUndoList
  cases hlist : s.undoList task with
  | some u => exact ⟨h, rfl, rfl, hlist, fun _ _ => rfl⟩
  | none =>
    refine ⟨⟨h.range, fun q hq u hu => ?_, fun u tasks hnodup htasks => ?_, fun t u ht => ?_,
      h.once, h.pending_isCall, h.log_isCall, h.applied, h.replay⟩, rfl, rfl,
      Function.update_self .., fun t ht => Function.update_of_ne ht ..⟩
    · obtain ⟨hmem, hsleeper⟩ := h.undo q hq u hu
      have hne : q.sleeper ≠ task := by
        rintro heq
        rw [heq, hlist] at hsleeper
        exact absurd hsleeper nofun
      exact ⟨hmem, (Function.update_of_ne hne ..).trans hsleeper⟩
    · dsimp only at htasks ⊢
      by_cases hu : u = s.nextList
      · -- Nobody else has the new list.
        subst hu
        rw [Function.update_self]
        have hall : ∀ t ∈ tasks, t = task := by
          intro t ht
          by_contra hne
          have hold := htasks t ht
          rw [Function.update_of_ne hne] at hold
          exact absurd (h.fresh t _ hold) (Nat.lt_irrefl _)
        have hrepeat := List.eq_replicate_of_mem hall
        rw [hrepeat] at hnodup
        exact List.nodup_replicate.mp hnodup
      · rw [Function.update_of_ne hu]
        refine h.shared u tasks hnodup fun t ht => ?_
        have hold := htasks t ht
        by_cases hne : t = task
        · rw [hne, Function.update_self, Option.some.injEq] at hold
          exact absurd hold.symm hu
        · rwa [Function.update_of_ne hne] at hold
    · dsimp only at ht ⊢
      by_cases hne : t = task
      · rw [hne, Function.update_self, Option.some.injEq] at ht
        omega
      · rw [Function.update_of_ne hne] at ht
        exact Nat.lt_succ_of_lt (h.fresh t u ht)

theorem allocUndo_agree {u : Nat} {un : Option Nat} (hne : un ≠ some u) :
    Agree un v (v.allocUndo u) where
  semval _ := rfl
  adjustment n := by
    cases un with
    | none => rfl
    | some u' =>
      have hu : u' ≠ u := fun heq => hne (congrArg some heq)
      rw [Values.adjustment, Values.allocUndo, Option.elim_some]
      dsimp only
      rw [Function.update_of_ne hu]
      rfl

/-- After `find_alloc_undo` the task has an undo structure in the array. -/
theorem Sound.findAllocUndo (h : Sound s) (task : Nat) :
    Sound (s.findAllocUndo task) ∧ (s.findAllocUndo task).pending = s.pending ∧
      ∃ u ∈ (s.findAllocUndo task).listId, (s.findAllocUndo task).undoList task = some u := by
  unfold System.findAllocUndo
  obtain ⟨hkept, hvalues, hpending, hundo, _⟩ := getUndoList_listed h.kept task
  generalize s.getUndoList task = listed at hkept hvalues hpending hundo
  obtain ⟨u, s'⟩ := listed
  have hsettled : Settled s' := by
    rw [Settled, hpending, hvalues]
    exact h.settled
  dsimp only at hkept hpending hundo ⊢
  by_cases hmem : u ∈ s'.listId
  · rw [if_pos hmem]
    exact ⟨⟨hkept, hsettled⟩, hpending, u, hmem, hundo⟩
  · rw [if_neg hmem]
    have hrange : InRange (Event.effect s'.values (.allocated u)) := hkept.range
    refine ⟨⟨(hkept.event (.allocated u) rfl hrange).relist fun q hq u' hu' =>
      List.mem_cons_of_mem _ (hkept.undo q hq u' hu').1, fun q hq => ?_⟩, hpending, u,
      List.mem_cons_self .., hundo⟩
    refine (hsettled q hq).of_agree (allocUndo_agree fun hu => ?_)
    exact hmem (hkept.undo q hq u hu).1

/-! ## Exits -/

/-- A task gives its undo list up. -/
theorem Kept.leave (h : Kept s) (hawake : s.Awake task) {u : Nat}
    (hlist : s.undoList task = some u) :
    Kept { s with
      undoList := Function.update s.undoList task none
      refcnt := Function.update s.refcnt u (s.refcnt u - 1) } where
  range := h.range
  undo q hq u' hu' := by
    obtain ⟨hmem, hsleeper⟩ := h.undo q hq u' hu'
    exact ⟨hmem, (Function.update_of_ne (hawake q hq) ..).trans hsleeper⟩
  shared u' tasks hnodup htasks := by
    dsimp only at htasks ⊢
    have hnot : task ∉ tasks := by
      intro hmem
      have hnone := htasks task hmem
      rw [Function.update_self] at hnone
      exact absurd hnone nofun
    have hold : ∀ t ∈ tasks, s.undoList t = some u' := by
      intro t ht
      have hnew := htasks t ht
      rwa [Function.update_of_ne fun heq : t = task => hnot (heq ▸ ht)] at hnew
    by_cases hu : u' = u
    · subst hu
      have hall := h.shared u' (task :: tasks) (List.nodup_cons.mpr ⟨hnot, hnodup⟩)
        (List.forall_mem_cons.mpr ⟨hlist, hold⟩)
      rw [List.length_cons] at hall
      rw [Function.update_self]
      omega
    · rw [Function.update_of_ne hu]
      exact h.shared u' tasks hnodup hold
  fresh t u' ht := by
    dsimp only at ht
    by_cases hne : t = task
    · rw [hne, Function.update_self] at ht
      exact absurd ht nofun
    · rw [Function.update_of_ne hne] at ht
      exact h.fresh t u' ht
  once := h.once
  pending_isCall := h.pending_isCall
  log_isCall := h.log_isCall
  applied := h.applied
  replay := h.replay

/-- No task sleeps with an undo list whose last task exits. -/
theorem Kept.not_asleep (h : Kept s) (hawake : s.Awake task) {u : Nat}
    (hlist : s.undoList task = some u) (hlast : s.refcnt u - 1 = 0) :
    ∀ q ∈ s.pending, q.undo ≠ some u := by
  intro q hq hu
  obtain ⟨_, hsleeper⟩ := h.undo q hq u hu
  have hnodup : [task, q.sleeper].Nodup :=
    List.nodup_cons.mpr ⟨fun hmem => hawake q hq (List.mem_singleton.mp hmem).symm,
      List.nodup_cons.mpr ⟨List.not_mem_nil, List.nodup_nil⟩⟩
  have hall := h.shared u [task, q.sleeper] hnodup
    (List.forall_mem_cons.mpr ⟨hlist, List.forall_mem_singleton.mpr hsleeper⟩)
  rw [List.length_cons, List.length_singleton] at hall
  omega

/-- `exit_sem` leaves a settled array. -/
theorem Sound.exitSem (h : Sound s) (hawake : s.Awake task) (pid : Int) :
    Sound (s.exitSem task pid) := by
  unfold System.exitSem
  cases hlist : s.undoList task with
  | none => exact h
  | some u =>
    have hkept := h.kept.leave hawake hlist
    have hrefcnt : Function.update s.refcnt u (s.refcnt u - 1) u = s.refcnt u - 1 :=
      Function.update_self ..
    dsimp only
    by_cases hlast : s.refcnt u - 1 = 0
    · rw [if_neg (not_not_intro (hrefcnt.trans hlast))]
      by_cases hmem : u ∈ s.listId
      · rw [if_pos hmem]
        have hfree := h.kept.not_asleep hawake hlist hlast
        have hlisted : ∀ q ∈ s.pending, ∀ u', q.undo = some u' → u' ∈ s.listId.erase u :=
          fun q hq u' hu' => (List.mem_erase_of_ne fun heq : u' = u =>
            hfree q hq (heq ▸ hu')).mpr (hkept.undo q hq u' hu').1
        have hleft := hkept.relist hlisted
        have hexited := hleft.event (.exited u s.nsems pid) rfl
          (exit_range h.kept.range u s.nsems pid)
        exact ⟨hexited.updateQueue.1, hexited.updateQueue.2⟩
      · rw [if_neg hmem]
        exact ⟨hkept, h.settled⟩
    · rw [if_pos fun hzero => hlast (hrefcnt.symm.trans hzero)]
      exact ⟨hkept, h.settled⟩

/-- A child that does not sleep shares the undo list. -/
theorem Sound.copySemundo (h : Sound s) (task : Nat) {child : Nat} (hawake : s.Awake child) :
    Sound (s.copySemundo task child) := by
  unfold System.copySemundo
  obtain ⟨hkept, hvalues, hpending, hundo, _⟩ := getUndoList_listed h.kept task
  generalize s.getUndoList task = listed at hkept hvalues hpending hundo
  obtain ⟨u, s'⟩ := listed
  dsimp only at hkept hvalues hpending hundo ⊢
  refine ⟨⟨hkept.range, fun q hq u' hu' => ?_, fun u' tasks hnodup htasks => ?_,
    fun t u' ht => ?_, hkept.once, hkept.pending_isCall, hkept.log_isCall, hkept.applied,
    hkept.replay⟩, ?_⟩
  · obtain ⟨hmem, hsleeper⟩ := hkept.undo q hq u' hu'
    have hne : q.sleeper ≠ child := hawake q (hpending ▸ hq)
    exact ⟨hmem, (Function.update_of_ne hne ..).trans hsleeper⟩
  · dsimp only at htasks ⊢
    -- Without the child the tasks have had the list before.
    have hold : ∀ t ∈ tasks.erase child, s'.undoList t = some u' := by
      intro t ht
      have hne : t ≠ child := fun heq => hnodup.not_mem_erase (heq ▸ ht)
      have hnew := htasks t (List.mem_of_mem_erase ht)
      rwa [Function.update_of_ne hne] at hnew
    have hcount := hkept.shared u' (tasks.erase child) (hnodup.erase child) hold
    by_cases hu : u' = u
    · subst hu
      rw [Function.update_self]
      by_cases hmem : child ∈ tasks
      · rw [← List.length_erase_add_one hmem]
        exact Nat.succ_le_succ hcount
      · rw [List.erase_of_not_mem hmem] at hcount
        exact Nat.le_succ_of_le hcount
    · rw [Function.update_of_ne hu]
      have hnot : child ∉ tasks := by
        intro hmem
        have hchild := htasks child hmem
        rw [Function.update_self, Option.some.injEq] at hchild
        exact hu hchild.symm
      rwa [List.erase_of_not_mem hnot] at hcount
  · dsimp only at ht
    by_cases hne : t = child
    · rw [hne, Function.update_self, Option.some.injEq] at ht
      exact ht ▸ hkept.fresh task u hundo
    · rw [Function.update_of_ne hne] at ht
      exact hkept.fresh t u' ht
  · rw [Settled]
    dsimp only
    rw [hpending, hvalues]
    exact h.settled

/-!
## Runs of a semaphore array

Operations, waits that end early, `SETVAL`, `SETALL` and exits in any order.
-/

open Library

variable {s t : System} {task : Nat} {sops : List Sembuf}

/-! ## Operations -/

theorem getElem_append {α : Type} {l : List α} {i : Nat} {a : α} (b : α) (h : l[i]? = some a) :
    (l ++ [b])[i]? = some a := by
  obtain ⟨hlt, _⟩ := List.getElem?_eq_some_iff.mp h
  rw [List.getElem?_append_left hlt]
  exact h

theorem range_concat {l : List Nat} {n : Nat} (h : l.Perm (List.range n)) :
    (l ++ [n]).Perm (List.range (n + 1)) := by
  rw [List.range_succ]
  exact h.append_right _

theorem Kept.finish (h : Kept s) {q : SemQueue} {error : Int} {v : Values}
    (hid : q.id = s.calls.length) (hsops : q.sops = sops)
    (htried : Tried s.values q.sops q.undo q.pid (error, v)) :
    Kept { s.finish sops error with
      values := v
      log := s.log ++ (wokenEvent (q, error)).toList } where
  range := by
    cases htried with
    | done hdone => exact hdone h.range
    | refused => exact h.range
  undo := h.undo
  shared := h.shared
  fresh := h.fresh
  once := by
    rw [System.finish]
    dsimp only
    rw [List.map_append, List.length_append, List.append_assoc]
    refine .trans ?_ (range_concat h.once)
    rw [List.append_assoc]
    exact List.Perm.append_left _ List.perm_append_comm
  pending_isCall p hp := getElem_append sops (h.pending_isCall p hp)
  log_isCall p hp := by
    rcases List.mem_append.mp hp with hp | hp
    · exact getElem_append sops (h.log_isCall p hp)
    · by_cases hzero : error = 0
      · rw [wokenEvent, if_pos hzero, Option.toList_some, List.mem_singleton] at hp
        obtain rfl : p = q := Event.applied.inj hp
        show (s.calls ++ [sops])[p.id]? = some p.sops
        rw [hid, List.getElem?_concat_length, hsops]
      · rw [wokenEvent, if_neg hzero] at hp
        exact absurd hp List.not_mem_nil
  applied := by
    rw [System.completed, System.finish]
    dsimp only
    rw [List.filterMap_append, List.filter_append, List.map_append, h.applied, System.completed]
    by_cases hzero : error = 0
    · rw [wokenEvent_of_zero q hzero, hzero, ← hid]
      rfl
    · rw [wokenEvent_of_ne q hzero, List.filter_cons,
        if_neg fun hd => hzero (of_decide_eq_true hd)]
      rfl
  replay := by
    rw [List.foldl_append, ← h.replay]
    cases htried with
    | done => rfl
    | refused hcode =>
      rw [wokenEvent_of_ne q (show error ≠ 0 by omega)]
      rfl

theorem Sound.finish (h : Sound s) {error : Int} (herror : error < 0) :
    Sound (s.finish sops error) := by
  let q : SemQueue := ⟨s.calls.length, 0, none, 0, sops, alters sops, rfl⟩
  have hkept := h.kept.finish (q := q) rfl rfl (.refused (.inr herror))
  rw [wokenEvent_of_ne q (Int.ne_of_lt herror), Option.toList_none,
    List.append_nil] at hkept
  exact ⟨hkept, h.settled⟩

theorem Kept.enqueue (h : Kept s) {q : SemQueue} {pending : List SemQueue}
    (hid : q.id = s.calls.length) (hsops : q.sops = sops)
    (hundo : ∀ u, q.undo = some u → u ∈ s.listId ∧ s.undoList q.sleeper = some u)
    (hpending : pending.Perm (q :: s.pending)) :
    Kept { s with calls := s.calls ++ [sops], pending := pending } where
  range := h.range
  undo p hp u hu := by
    rcases List.mem_cons.mp (hpending.subset hp) with rfl | hp
    · exact hundo u hu
    · exact h.undo p hp u hu
  shared := h.shared
  fresh := h.fresh
  once := by
    dsimp only
    rw [List.length_append]
    refine .trans ?_ (range_concat h.once)
    rw [List.append_assoc]
    refine List.Perm.append_left _ ((hpending.map SemQueue.id).trans ?_)
    rw [List.map_cons, hid]
    exact (List.perm_append_singleton _ _).symm
  pending_isCall p hp := by
    rcases List.mem_cons.mp (hpending.subset hp) with rfl | hp
    · show (s.calls ++ [sops])[p.id]? = some p.sops
      rw [hid, List.getElem?_concat_length, hsops]
    · exact getElem_append sops (h.pending_isCall p hp)
  log_isCall p hp := getElem_append sops (h.log_isCall p hp)
  applied := h.applied
  replay := h.replay

/-- The end of a call that does not have to wait. -/
theorem Sound.complete (h : Sound s) {q : SemQueue} (hid : q.id = s.calls.length)
    (hsops : q.sops = sops) (herror : (q.try s.values).1 ≤ 0) :
    Sound (if q.alter ∧ (q.try s.values).1 = 0 then
      System.updateQueue { s.finish sops (q.try s.values).1 with
        values := (q.try s.values).2
        log := s.log ++ (wokenEvent (q, (q.try s.values).1)).toList }
      else { s.finish sops (q.try s.values).1 with
        values := (q.try s.values).2
        log := s.log ++ (wokenEvent (q, (q.try s.values).1)).toList }) := by
  have htried : Tried s.values q.sops q.undo q.pid (q.try s.values) :=
    tryAtomicSemop_tried s.values q.sops q.undo q.pid
  generalize q.try s.values = tried at htried herror
  obtain ⟨error, v⟩ := tried
  have hkept := h.kept.finish hid hsops htried
  by_cases hupdate : q.alter = true ∧ error = 0
  · rw [if_pos hupdate]
    exact ⟨hkept.updateQueue.1, hkept.updateQueue.2⟩
  · rw [if_neg hupdate]
    refine ⟨hkept, fun p hp => ?_⟩
    cases htried with
    | done =>
      have halter : q.alter = false := (Bool.not_eq_true _).mp fun ha => hupdate ⟨ha, rfl⟩
      exact (h.settled p hp).of_agree (agree_applyOps (q.alter_eq ▸ halter) p.undo)
    | refused => exact h.settled p hp

/-- A call that has to wait leaves the values as they are. -/
theorem try_of_pos {q : SemQueue} {v : Values} (h : ¬ (q.try v).1 ≤ 0) :
    (q.try v).1 = 1 ∧ (q.try v).2 = v := by
  have htried : Tried v q.sops q.undo q.pid (q.try v) :=
    tryAtomicSemop_tried v q.sops q.undo q.pid
  generalize q.try v = tried at h htried
  cases htried with
  | done => exact absurd (Int.le_refl 0) h
  | refused hcode =>
    refine ⟨hcode.resolve_right fun hneg => h ?_, rfl⟩
    exact Int.le_of_lt hneg

/-- `sys_semtimedop` leaves a settled array. -/
theorem Sound.semtimedop (h : Sound s) (task : Nat) (pid : Int) (sops : List Sembuf) :
    Sound (s.semtimedop task pid sops) := by
  unfold System.semtimedop
  by_cases hempty : sops.length < 1
  · rw [if_pos hempty]
    exact h.finish (by decide)
  rw [if_neg hempty]
  by_cases hlong : s.semopm < sops.length
  · rw [if_pos hlong]
    exact h.finish (by decide)
  rw [if_neg hlong]
  dsimp only
  have hsound : Sound (if undos sops then s.findAllocUndo task else s) ∧
      (undos sops = true → ∃ u ∈ (if undos sops then s.findAllocUndo task else s).listId,
        (if undos sops then s.findAllocUndo task else s).undoList task = some u) := by
    by_cases hundos : undos sops = true
    · rw [if_pos hundos]
      obtain ⟨hsound, _, hun⟩ := h.findAllocUndo task
      exact ⟨hsound, fun _ => hun⟩
    · rw [if_neg hundos]
      exact ⟨h, fun hu => absurd hu hundos⟩
  generalize (if undos sops then s.findAllocUndo task else s) = s' at hsound
  obtain ⟨hsound, hun⟩ := hsound
  by_cases hbig : s'.nsems ≤ maxNum sops
  · rw [if_pos hbig]
    exact hsound.finish (by decide)
  rw [if_neg hbig]
  let q : SemQueue := ⟨s'.calls.length, task, if undos sops then s'.undoList task else none, pid,
    sops, alters sops, rfl⟩
  by_cases herror : (q.try s'.values).1 ≤ 0
  · rw [if_pos herror]
    exact hsound.complete (q := q) rfl rfl herror
  rw [if_neg herror]
  obtain ⟨hone, hsame⟩ := try_of_pos herror
  have hundo : ∀ u, q.undo = some u → u ∈ s'.listId ∧ s'.undoList q.sleeper = some u := by
    intro u hu
    change (if undos sops then s'.undoList task else none) = some u at hu
    split_ifs at hu with hundos
    obtain ⟨u', hmem, hlist⟩ := hun hundos
    rw [hlist, Option.some.injEq] at hu
    exact ⟨hu ▸ hmem, hu ▸ hlist⟩
  have hpending : (if alters sops = true then s'.pending ++ [q] else q :: s'.pending).Perm
      (q :: s'.pending) := by
    split_ifs
    · exact List.perm_append_singleton _ _
    · exact .refl _
  change Sound { s' with
    values := (q.try s'.values).2
    calls := s'.calls ++ [sops]
    pending := if alters sops = true then s'.pending ++ [q] else q :: s'.pending }
  rw [hsame]
  refine ⟨hsound.kept.enqueue rfl rfl hundo hpending, fun p hp => ?_⟩
  rcases List.mem_cons.mp (hpending.subset hp) with rfl | hp
  · exact hone
  · exact hsound.settled p hp

theorem perm_eraseP {p : SemQueue → Bool} {l : List SemQueue} {q : SemQueue}
    (h : l.find? p = some q) : l.Perm (q :: l.eraseP p) := by
  obtain ⟨hp, before, after, rfl, hbefore⟩ := List.find?_eq_some_iff_append.mp h
  rw [List.eraseP_append_right _ fun b hb => by simpa using hbefore b hb,
    List.eraseP_cons_of_pos hp]
  exact List.perm_middle

/-- A wait that ends early leaves a settled array. -/
theorem Sound.interrupted (h : Sound s) (task : Nat) (timedOut : Bool) :
    Sound (s.interrupted task timedOut) := by
  unfold System.interrupted
  cases hfind : s.pending.find? fun q => q.sleeper = task with
  | none => exact h
  | some q =>
    have hperm := perm_eraseP hfind
    have hsub : ∀ p ∈ s.pending.eraseP fun q => q.sleeper = task, p ∈ s.pending := fun p hp =>
      hperm.mem_iff.mpr (List.mem_cons_of_mem q hp)
    have hkept := h.kept
    refine ⟨⟨hkept.range, fun p hp => hkept.undo p (hsub p hp), hkept.shared, hkept.fresh, ?_,
      fun p hp => hkept.pending_isCall p (hsub p hp), hkept.log_isCall, ?_, hkept.replay⟩,
      fun p hp => h.settled p (hsub p hp)⟩
    · dsimp only
      refine .trans ?_ hkept.once
      rw [List.map_append, List.append_assoc]
      exact List.Perm.append_left _ (hperm.map SemQueue.id).symm
    rw [hkept.applied, System.completed, System.completed]
    dsimp only
    have herror : (if timedOut = true then -eagain else -eintr) ≠ (0 : Int) := by
      split_ifs
      · decide
      · decide
    rw [List.filter_append, List.filter_cons, if_neg fun hd => herror (of_decide_eq_true hd),
      List.filter_nil, List.append_nil]

/-! ## Runs -/

/-- What is done between taking and releasing the lock of the array. -/
inductive Op
  | findAllocUndo (task : Nat)
  | semtimedop (task : Nat) (pid : Int) (sops : List Sembuf)
  | interrupted (task : Nat) (timedOut : Bool)
  | setVal (n : Nat) (val pid : Int)
  | setAll (vals : List Nat)
  | exitSem (task : Nat) (pid : Int)
  | copySemundo (task child : Nat)

def step (s : System) : Op → System
  | .findAllocUndo task => s.findAllocUndo task
  | .semtimedop task pid sops => s.semtimedop task pid sops
  | .interrupted task timedOut => s.interrupted task timedOut
  | .setVal n val pid => s.setVal n val pid
  | .setAll vals => s.setAll vals
  | .exitSem task pid => s.exitSem task pid
  | .copySemundo task child => s.copySemundo task child

def Step (s : System) (op : Op) (t : System) : Prop :=
  step s op = t

/-- A task that sleeps in the queue neither exits nor is a new child. -/
def Legal (s : System) : Op → Prop
  | .exitSem task _ => s.Awake task
  | .copySemundo _ child => s.Awake child
  | _ => True

theorem newary_sound (nsems semopm : Nat) : Sound (newary nsems semopm) :=
  ⟨⟨fun _ => ⟨Int.le_refl 0, show (0 : Int) ≤ 32767 by decide⟩, nofun, fun _ tasks _ htasks => by
    cases tasks with
    | nil => exact Nat.zero_le _
    | cons t tasks => exact absurd (htasks t (List.mem_cons_self ..)) nofun,
    nofun, .refl _, nofun, nofun, rfl, rfl⟩, nofun⟩

theorem Sound.step (h : Sound s) {op : Op} (hlegal : Legal s op) : Sound (step s op) := by
  cases op with
  | findAllocUndo task => exact (h.findAllocUndo task).1
  | semtimedop task pid sops => exact h.semtimedop task pid sops
  | interrupted task timedOut => exact h.interrupted task timedOut
  | setVal n val pid => exact h.setVal n val pid
  | setAll vals => exact h.setAll vals
  | exitSem task pid => exact h.exitSem hlegal pid
  | copySemundo task child => exact h.copySemundo task hlegal

/-- Operations are all or nothing; in every state that a run reaches the values are in range and no
entry of the queue could be completed; each call is in the queue or has a result, but not both; and
the values are those of the completed calls, each applied once, and of the other events. -/
theorem semaphores_settled {nsems semopm : Nat}
    (hrun : Reaches Step Legal (newary nsems semopm) s) :
    (∀ v sops un pid, (tryAtomicSemop v sops un pid).1 ≠ 0 →
        (tryAtomicSemop v sops un pid).2 = v) ∧
      (∀ n, 0 ≤ s.values.semval n ∧ s.values.semval n ≤ semvmx) ∧
      (∀ q ∈ s.pending, (tryAtomicSemop s.values q.sops q.undo q.pid).1 = 1) ∧
      (s.finished.map Prod.fst ++ s.pending.map SemQueue.id).Perm (List.range s.calls.length) ∧
      (∀ q, .applied q ∈ s.log → s.calls[q.id]? = some q.sops) ∧
      s.log.filterMap Event.appliedId = s.completed ∧
      s.values = s.log.foldl Event.effect .initial := by
  have h : Sound s := by
    refine hrun.invariant Sound ?_ (newary_sound nsems semopm)
    rintro s op _ hs hop rfl
    exact hs.step hop
  exact ⟨fun _ _ _ _ => tryAtomicSemop_unchanged, h.kept.range, h.settled, h.kept.once,
    h.kept.log_isCall, h.kept.applied, h.kept.replay⟩

/-- Two calls that wait for zero are completed, and one that takes a semaphore has to wait. -/
theorem semaphores_settled_wait :
    ∃ s q, Reaches Step Legal (newary 2 10) s ∧ s.pending = [q] ∧ q.sleeper = 4 ∧
      (tryAtomicSemop s.values q.sops q.undo q.pid).1 = 1 ∧ s.completed = [0, 1] ∧
      s.values = s.log.foldl Event.effect .initial := by
  have hfirst : Reaches Step Legal (newary 2 10)
      (step (newary 2 10) (.semtimedop 3 5 [⟨1, 0, false, false⟩])) :=
    (Reaches.refl _).tail rfl trivial
  have hsecond := hfirst.tail (rfl : Step _ (.semtimedop 3 5 [⟨1, 0, true, false⟩]) _) trivial
  have hwait := hsecond.tail
    (rfl : Step _ (.semtimedop 4 6 [⟨0, 0, false, false⟩, ⟨1, -1, true, false⟩]) _) trivial
  obtain ⟨_, _, hblocked, _, _, _, hreplay⟩ := semaphores_settled hwait
  exact ⟨_, _, hwait, rfl, rfl, hblocked _ (List.mem_singleton.mpr rfl), rfl, hreplay⟩

end AndroidKernel.SysvSem
