import AndroidKernel.SysvSem.Runs

/-!
# Undo adjustments

`try_atomic_semop` checks each `SEM_UNDO` operation against the adjustment that is stored before
the sequence, and subtracts all of them after it. The adjustment is minus the sum of the operations
as long as each sequence, taken as a whole, leaves it in range: `semadj_exact_iff`.
-/

namespace AndroidKernel.SysvSem

open Library

variable {s : System} {v : Values} {u n : Nat} {log : List Event} {event : Event} {pid : Int}

/-! ## The sum -/

/-- What the `SEM_UNDO` operations of a sequence do to a semaphore together. -/
def undoOp (sops : List Sembuf) (n : Nat) : Int :=
  (sops.map fun sop => if n = sop.semNum ∧ sop.semUndo then sop.semOp.toInt else 0).sum

/-- The sum of the `SEM_UNDO` operations of an undo structure on a semaphore, after an event.
`SETVAL` and `SETALL` start it again, and so does the allocation of the structure. -/
def Event.undoSum (u n : Nat) (sum : Int) : Event → Int
  | .applied q => if q.undo = some u then sum + undoOp q.sops n else sum
  | .allocated u' => if u' = u then 0 else sum
  | .setVal _ m _ _ => if m = n then 0 else sum
  | .setAll _ vals => if n < vals.length then 0 else sum
  | .exited _ _ _ => sum

def undoSum (u n : Nat) (log : List Event) : Int :=
  log.foldl (Event.undoSum u n) 0

/-- The undo structures of the array after an event. -/
def Event.live (listId : List Nat) : Event → List Nat
  | .allocated u => u :: listId
  | .exited u _ _ => listId.erase u
  | _ => listId

def liveUndos (log : List Event) : List Nat :=
  log.foldl Event.live []

def replay (log : List Event) : Values :=
  log.foldl Event.effect .initial

theorem undoSum_concat (u n : Nat) (log : List Event) (event : Event) :
    undoSum u n (log ++ [event]) = event.undoSum u n (undoSum u n log) :=
  List.foldl_concat ..

theorem liveUndos_concat (log : List Event) (event : Event) :
    liveUndos (log ++ [event]) = event.live (liveUndos log) :=
  List.foldl_concat ..

theorem replay_concat (log : List Event) (event : Event) :
    replay (log ++ [event]) = event.effect (replay log) :=
  List.foldl_concat ..

/-! ## What is logged -/

/-- An event names only undo structures of the array; `SETVAL` and `SETALL` name all of them. -/
def Event.Names (listId : List Nat) : Event → Prop
  | .applied q => ∀ u, q.undo = some u → u ∈ listId
  | .setVal undos _ _ _ => undos = listId
  | .setAll undos _ => undos = listId
  | _ => True

inductive Logged : List Event → Prop
  | nil : Logged []
  | concat {log : List Event} {event : Event} (h : Logged log)
      (hnames : event.Names (liveUndos log)) : Logged (log ++ [event])

/-! ## The adjustment -/

theorem commitOps_semadj_of_ne {un : Option Nat} (hne : un ≠ some u) (done : List Sembuf)
    (v : Values) : (commitOps un pid done v).semadj u n = v.semadj u n := by
  induction done generalizing v with
  | nil => rfl
  | cons sop done ih =>
    rw [commitOps, ih]
    exact if_neg fun h => hne h.1

/-- The operations are subtracted one after another, each time modulo 2^16. -/
theorem commitOps_semadj_self {a : Int} (done : List Sembuf)
    (h : v.semadj u n = Int16.ofInt a) :
    (commitOps (some u) pid done v).semadj u n = Int16.ofInt (a - undoOp done n) := by
  induction done generalizing v a with
  | nil =>
    rw [commitOps, h, undoOp, List.map_nil, List.sum_nil, Int.sub_zero]
  | cons sop done ih =>
    have hsum : a - undoOp (sop :: done) n =
        a - (if n = sop.semNum ∧ sop.semUndo then sop.semOp.toInt else 0) - undoOp done n := by
      rw [undoOp, List.map_cons, List.sum_cons, undoOp]
      omega
    rw [commitOps, hsum]
    refine ih ?_
    dsimp only
    by_cases hsop : n = sop.semNum ∧ sop.semUndo
    · rw [if_pos ⟨rfl, hsop⟩, if_pos hsop, ← hsop.1, h, Int16.ofInt_sub, Int16.ofInt_toInt]
    · rw [if_neg fun hcond => hsop hcond.2, if_neg hsop, Int.sub_zero, h]

theorem undoOp_reverse (sops : List Sembuf) (n : Nat) : undoOp sops.reverse n = undoOp sops n := by
  rw [undoOp, undoOp, List.map_reverse, List.sum_reverse_int]

theorem apply_semadj_self {q : SemQueue} {a : Int} (hundo : q.undo = some u)
    (h : v.semadj u n = Int16.ofInt a) :
    (q.apply v).semadj u n = Int16.ofInt (a - undoOp q.sops n) := by
  rw [SemQueue.apply, applyOps, hundo, ← undoOp_reverse]
  refine commitOps_semadj_self _ ?_
  rw [addOps_semadj]
  exact h

theorem apply_semadj_of_ne {q : SemQueue} (hne : q.undo ≠ some u) :
    (q.apply v).semadj u n = v.semadj u n := by
  rw [SemQueue.apply, applyOps, commitOps_semadj_of_ne hne, addOps_semadj]

/-- The adjustment of an undo structure of the array is minus the sum, cut to 16 bits. -/
theorem Logged.semadj (h : Logged log) (n : Nat) (hu : u ∈ liveUndos log) :
    (replay log).semadj u n = Int16.ofInt (-undoSum u n log) := by
  induction h with
  | nil => exact absurd hu List.not_mem_nil
  | @concat log event _ hnames ih =>
    rw [liveUndos_concat] at hu
    rw [replay_concat, undoSum_concat]
    cases event with
    | applied q =>
      by_cases hq : q.undo = some u
      · rw [Event.undoSum, if_pos hq, Int.neg_add, ← Int.sub_eq_add_neg]
        exact apply_semadj_self hq (ih hu)
      · rw [Event.undoSum, if_neg hq, ← ih hu]
        exact apply_semadj_of_ne hq
    | allocated u' =>
      show Function.update (replay log).semadj u' (fun _ => 0) u n = _
      rw [Event.undoSum]
      by_cases heq : u' = u
      · rw [if_pos heq, heq, Function.update_self]
        rfl
      · have hold : u ∈ liveUndos log := (List.mem_cons.mp hu).resolve_left (Ne.symm heq)
        rw [if_neg heq, Function.update_of_ne (Ne.symm heq), ih hold]
    | setVal undos m val pid =>
      obtain rfl : undos = liveUndos log := hnames
      have hu : u ∈ liveUndos log := hu
      show (if u ∈ liveUndos log ∧ n = m then 0 else (replay log).semadj u n) = _
      rw [Event.undoSum]
      by_cases heq : m = n
      · rw [if_pos ⟨hu, heq.symm⟩, if_pos heq]
        rfl
      · rw [if_neg fun hcond => heq hcond.2.symm, if_neg heq, ih hu]
    | setAll undos vals =>
      obtain rfl : undos = liveUndos log := hnames
      have hu : u ∈ liveUndos log := hu
      show (if u ∈ liveUndos log ∧ n < vals.length then 0 else (replay log).semadj u n) = _
      rw [Event.undoSum]
      by_cases hlt : n < vals.length
      · rw [if_pos ⟨hu, hlt⟩, if_pos hlt]
        rfl
      · rw [if_neg fun hcond => hlt hcond.2, if_neg hlt, ih hu]
    | exited u' nsems pid => exact ih (List.mem_of_mem_erase hu)

/-! ## Sequences that fit -/

/-- The range of an adjustment. -/
def InUndoRange (undo : Int) : Prop :=
  -semvmx - 1 ≤ undo ∧ undo ≤ semvmx

/-- A sequence, taken as a whole, leaves each adjustment in range. -/
def Fits (v : Values) : Event → Prop
  | .applied q => ∀ u, q.undo = some u → ∀ n,
      InUndoRange ((v.semadj u n).toInt - undoOp q.sops n)
  | _ => True

/-- Each sequence fits when it is applied. -/
def AllFit (log : List Event) : Prop :=
  ∀ before event, before ++ [event] <+: log → Fits (replay before) event

/-- Each adjustment is minus the sum of the operations. -/
def Accounted (log : List Event) : Prop :=
  ∀ u ∈ liveUndos log, ∀ n,
    ((replay log).semadj u n).toInt = -undoSum u n log ∧ InUndoRange (-undoSum u n log)

theorem inUndoRange_toInt (semadj : Int16) : InUndoRange semadj.toInt :=
  ⟨semadj.le_toInt, Int.le_of_lt_add_one semadj.toInt_lt⟩

theorem toInt_ofInt_of_inUndoRange {undo : Int} (h : InUndoRange undo) :
    (Int16.ofInt undo).toInt = undo :=
  Int16.toInt_ofInt_of_le h.1 (Int.lt_add_one_of_le h.2)

/-- Only the range has to be checked: what the code stores is right but for the cut. -/
theorem Logged.accounted_iff (h : Logged log) :
    Accounted log ↔ ∀ u ∈ liveUndos log, ∀ n, InUndoRange (-undoSum u n log) := by
  refine ⟨fun hall u hu n => (hall u hu n).2, fun hall u hu n => ⟨?_, hall u hu n⟩⟩
  rw [h.semadj n hu]
  exact toInt_ofInt_of_inUndoRange (hall u hu n)

theorem allFit_concat : AllFit (log ++ [event]) ↔ AllFit log ∧ Fits (replay log) event := by
  constructor
  · intro h
    exact ⟨fun before last hbefore => h before last (hbefore.trans (List.prefix_append ..)),
      h log event (List.prefix_refl _)⟩
  · rintro ⟨h, hlast⟩ before last hpre
    rcases List.prefix_concat_iff.mp hpre with heq | hpre
    · obtain ⟨rfl, rfl⟩ := List.append_singleton_inj.mp heq
      exact hlast
    · exact h before last hpre

/-- One event keeps the adjustments exact if and only if it fits. -/
theorem Logged.fits_iff (h : Logged log) (hnames : event.Names (liveUndos log))
    (haccounted : Accounted log) : Fits (replay log) event ↔ Accounted (log ++ [event]) := by
  rw [(h.concat hnames).accounted_iff, liveUndos_concat]
  cases event with
  | applied q =>
    constructor
    · intro hfits u hu n
      obtain ⟨hexact, hrange⟩ := haccounted u hu n
      rw [undoSum_concat, Event.undoSum]
      by_cases hq : q.undo = some u
      · have hnew := hfits u hq n
        rw [hexact, Int.sub_eq_add_neg, ← Int.neg_add] at hnew
        rwa [if_pos hq]
      · rwa [if_neg hq]
    · intro hall u hq n
      have hu : u ∈ liveUndos log := hnames u hq
      have hnew := hall u hu n
      rw [undoSum_concat, Event.undoSum, if_pos hq] at hnew
      rwa [(haccounted u hu n).1, Int.sub_eq_add_neg, ← Int.neg_add]
  | allocated u' =>
    refine ⟨fun _ u hu n => ?_, fun _ => trivial⟩
    rw [undoSum_concat, Event.undoSum]
    by_cases heq : u' = u
    · rw [if_pos heq]
      exact inUndoRange_toInt 0
    · rw [if_neg heq]
      exact (haccounted u ((List.mem_cons.mp hu).resolve_left (Ne.symm heq)) n).2
  | setVal undos m val pid =>
    refine ⟨fun _ u hu n => ?_, fun _ => trivial⟩
    rw [undoSum_concat, Event.undoSum]
    by_cases heq : m = n
    · rw [if_pos heq]
      exact inUndoRange_toInt 0
    · rw [if_neg heq]
      exact (haccounted u hu n).2
  | setAll undos vals =>
    refine ⟨fun _ u hu n => ?_, fun _ => trivial⟩
    rw [undoSum_concat, Event.undoSum]
    by_cases hlt : n < vals.length
    · rw [if_pos hlt]
      exact inUndoRange_toInt 0
    · rw [if_neg hlt]
      exact (haccounted u hu n).2
  | exited u' nsems pid =>
    refine ⟨fun _ u hu n => ?_, fun _ => trivial⟩
    rw [undoSum_concat]
    exact (haccounted u (List.mem_of_mem_erase hu) n).2

theorem accounted_nil : Accounted [] :=
  fun _ hu => absurd hu List.not_mem_nil

theorem Logged.allFit_iff (h : Logged log) :
    AllFit log ↔ ∀ before, before <+: log → Accounted before := by
  induction h with
  | nil =>
    refine ⟨fun _ before hpre => ?_, fun _ before event hpre => ?_⟩
    · rw [List.prefix_nil.mp hpre]
      exact accounted_nil
    · exact absurd (List.prefix_nil.mp hpre) (List.concat_ne_nil _ _)
  | @concat log event h hnames ih =>
    rw [allFit_concat, ih]
    constructor
    · rintro ⟨hall, hfits⟩ before hpre
      rcases List.prefix_concat_iff.mp hpre with rfl | hpre
      · exact (h.fits_iff hnames (hall log (List.prefix_refl _))).mp hfits
      · exact hall before hpre
    · intro hall
      refine ⟨fun before hbefore => hall before (hbefore.trans (List.prefix_append ..)), ?_⟩
      have hlog := hall log (List.prefix_append ..)
      exact (h.fits_iff hnames hlog).mpr (hall _ (List.prefix_refl _))

/-! ## Calls -/

/-- The undo structures of the array are those of the log. -/
structure Recorded (s : System) : Prop where
  listId : s.listId = liveUndos s.log
  logged : Logged s.log

theorem Recorded.concat (h : Recorded s) (hnames : event.Names s.listId) :
    liveUndos (s.log ++ [event]) = event.live s.listId ∧ Logged (s.log ++ [event]) := by
  rw [liveUndos_concat, ← h.listId]
  exact ⟨rfl, h.logged.concat (h.listId ▸ hnames)⟩

/-- Only sequences are applied. -/
theorem Logged.append_applied (h : Logged log) (events : List Event)
    (happlied : ∀ event ∈ events, ∃ q, event = .applied q ∧ event.Names (liveUndos log)) :
    Logged (log ++ events) ∧ liveUndos (log ++ events) = liveUndos log := by
  induction events generalizing log with
  | nil =>
    rw [List.append_nil]
    exact ⟨h, rfl⟩
  | cons event events ih =>
    obtain ⟨q, rfl, hnames⟩ := happlied event (List.mem_cons_self ..)
    have hlive : liveUndos (log ++ [.applied q]) = liveUndos log := liveUndos_concat ..
    have hrest := ih (h.concat hnames) fun event hevent => by
      rw [hlive]
      exact happlied event (List.mem_cons_of_mem _ hevent)
    rwa [hlive, List.append_assoc] at hrest

theorem wokenEvent_applied {woken : SemQueue × Int} (h : wokenEvent woken = some event) :
    event = .applied woken.1 := by
  unfold wokenEvent at h
  split_ifs at h
  exact (Option.some.inj h).symm

theorem Recorded.updateQueue (h : Recorded s)
    (hundo : ∀ q ∈ s.pending, ∀ u, q.undo = some u → u ∈ s.listId) : Recorded s.updateQueue := by
  have hperm := (updateQueue_settles [] s.pending s.values nofun).perm
  rw [List.nil_append] at hperm
  obtain ⟨hlogged, hlive⟩ := h.logged.append_applied
    ((SysvSem.updateQueue [] s.pending s.values).woken.filterMap wokenEvent) fun event hevent => by
      obtain ⟨woken, _, hwoken⟩ := List.mem_filterMap.mp hevent
      obtain rfl := wokenEvent_applied hwoken
      have hmem := hperm.subset (List.mem_append_right _ (mem_wokenEvent hevent))
      exact ⟨woken.1, rfl, fun u hu => h.listId ▸ hundo woken.1 hmem u hu⟩
  exact ⟨h.listId.trans hlive.symm, hlogged⟩

/-- Setting values does not change the undo structures. -/
theorem Recorded.set (h : Recorded s) (hkept : Kept s) (event : Event)
    (hnames : event.Names s.listId) (hlive : event.live s.listId = s.listId) (v : Values) :
    Recorded (System.updateQueue { s with values := v, log := s.log ++ [event] }) := by
  obtain ⟨hlisted, hlogged⟩ := h.concat hnames
  have hrecorded : Recorded { s with values := v, log := s.log ++ [event] } :=
    ⟨(hlisted.trans hlive).symm, hlogged⟩
  exact hrecorded.updateQueue fun q hq u hu => (hkept.undo q hq u hu).1

theorem Recorded.getUndoList (h : Recorded s) (task : Nat) : Recorded (s.getUndoList task).2 := by
  unfold System.getUndoList
  split
  · exact h
  · exact ⟨h.listId, h.logged⟩

theorem Recorded.findAllocUndo (h : Recorded s) (task : Nat) : Recorded (s.findAllocUndo task) := by
  unfold System.findAllocUndo
  have hlist := h.getUndoList task
  generalize s.getUndoList task = listed at hlist
  obtain ⟨u, s'⟩ := listed
  dsimp only at hlist ⊢
  split_ifs
  · exact hlist
  · obtain ⟨hlisted, hlogged⟩ := @Recorded.concat _ (.allocated u) hlist trivial
    exact ⟨hlisted.symm, hlogged⟩

theorem Recorded.complete (h : Recorded s) (hkept : Kept s) {q : SemQueue} {sops : List Sembuf}
    {tried : Int × Values} (hundo : ∀ u, q.undo = some u → u ∈ s.listId) :
    Recorded (if q.alter ∧ tried.1 = 0 then
      System.updateQueue { s.finish sops tried.1 with
        values := tried.2
        log := s.log ++ (wokenEvent (q, tried.1)).toList }
      else { s.finish sops tried.1 with
        values := tried.2
        log := s.log ++ (wokenEvent (q, tried.1)).toList }) := by
  have hnow : Recorded { s.finish sops tried.1 with
      values := tried.2
      log := s.log ++ (wokenEvent (q, tried.1)).toList } := by
    obtain ⟨hlogged, hlive⟩ := h.logged.append_applied (wokenEvent (q, tried.1)).toList
      fun event hevent => by
        obtain rfl := wokenEvent_applied (Option.mem_toList.mp hevent)
        exact ⟨q, rfl, fun u hu => h.listId ▸ hundo u hu⟩
    exact ⟨h.listId.trans hlive.symm, hlogged⟩
  by_cases hupdate : q.alter = true ∧ tried.1 = 0
  · rw [if_pos hupdate]
    exact hnow.updateQueue fun p hp u hu => (hkept.undo p hp u hu).1
  · rw [if_neg hupdate]
    exact hnow

theorem Recorded.semtimedop (h : Recorded s) (hsound : Sound s) (task : Nat) (pid : Int)
    (sops : List Sembuf) : Recorded (s.semtimedop task pid sops) := by
  unfold System.semtimedop
  by_cases hempty : sops.length < 1
  · rw [if_pos hempty]
    exact ⟨h.listId, h.logged⟩
  rw [if_neg hempty]
  by_cases hlong : s.semopm < sops.length
  · rw [if_pos hlong]
    exact ⟨h.listId, h.logged⟩
  rw [if_neg hlong]
  dsimp only
  have hfound : Recorded (if undos sops then s.findAllocUndo task else s) ∧
      Kept (if undos sops then s.findAllocUndo task else s) ∧
      ∀ u, (if undos sops then (if undos sops then s.findAllocUndo task else s).undoList task
        else none) = some u → u ∈ (if undos sops then s.findAllocUndo task else s).listId := by
    by_cases hundos : undos sops = true
    · obtain ⟨hfind, _, u, hmem, hlist⟩ := hsound.findAllocUndo task
      rw [if_pos hundos, if_pos hundos]
      refine ⟨h.findAllocUndo task, hfind.kept, fun u' hu' => ?_⟩
      rw [hlist, Option.some.injEq] at hu'
      exact hu' ▸ hmem
    · rw [if_neg hundos, if_neg hundos]
      exact ⟨h, hsound.kept, nofun⟩
  generalize (if undos sops then s.findAllocUndo task else s) = s' at hfound
  obtain ⟨hrecorded, hkept, hundo⟩ := hfound
  by_cases hbig : s'.nsems ≤ maxNum sops
  · rw [if_pos hbig]
    exact ⟨hrecorded.listId, hrecorded.logged⟩
  rw [if_neg hbig]
  let q : SemQueue := ⟨s'.calls.length, task, if undos sops then s'.undoList task else none, pid,
    sops, alters sops, rfl⟩
  by_cases herror : (q.try s'.values).1 ≤ 0
  · rw [if_pos herror]
    exact hrecorded.complete (q := q) hkept hundo
  · rw [if_neg herror]
    exact ⟨hrecorded.listId, hrecorded.logged⟩

theorem Recorded.exitSem (h : Recorded s) (hkept : Kept s) {task : Nat} (hawake : s.Awake task)
    (pid : Int) : Recorded (s.exitSem task pid) := by
  unfold System.exitSem
  cases hlist : s.undoList task with
  | none => exact h
  | some u =>
    dsimp only
    split_ifs with hlast hmem
    · exact ⟨h.listId, h.logged⟩
    · rw [not_not, Function.update_self] at hlast
      have hfree := hkept.not_asleep hawake hlist hlast
      obtain ⟨hlisted, hlogged⟩ := @Recorded.concat _ (.exited u s.nsems pid) h trivial
      refine Recorded.updateQueue ⟨hlisted.symm, hlogged⟩ fun q hq u' hu' => ?_
      have hne : u' ≠ u := fun heq => hfree q hq (heq ▸ hu')
      exact (List.mem_erase_of_ne hne).mpr (hkept.undo q hq u' hu').1
    · exact ⟨h.listId, h.logged⟩

theorem Recorded.step (h : Recorded s) (hsound : Sound s) {op : Op} (hlegal : Legal s op) :
    Recorded (step s op) := by
  cases op with
  | findAllocUndo task => exact h.findAllocUndo task
  | semtimedop task pid sops => exact h.semtimedop hsound task pid sops
  | interrupted task timedOut =>
    show Recorded (s.interrupted task timedOut)
    unfold System.interrupted
    split
    · exact h
    · exact ⟨h.listId, h.logged⟩
  | setVal n val pid =>
    show Recorded (s.setVal n val pid)
    unfold System.setVal
    split_ifs
    · exact h
    · exact h
    · exact h.set hsound.kept (.setVal s.listId n val pid) rfl rfl _
  | setAll vals =>
    show Recorded (s.setAll vals)
    unfold System.setAll
    split_ifs
    · exact h
    · exact h
    · exact h.set hsound.kept (.setAll s.listId vals) rfl rfl _
  | exitSem task pid => exact h.exitSem hsound.kept hlegal pid
  | copySemundo task child =>
    have hlist := h.getUndoList task
    exact ⟨hlist.listId, hlist.logged⟩

/-! ## Runs -/

/-- `exit_sem` adds the adjustment, and cuts the result off at 0 and `SEMVMX`. -/
theorem exit_semval (h : InRange v) {nsems : Nat} (hn : n < nsems) :
    (v.exit u nsems pid).semval n = max 0 (min semvmx (v.semval n + (v.semadj u n).toInt)) := by
  have hrange : 0 ≤ (v.semBase n).semval ∧ (v.semBase n).semval ≤ 32767 := h n
  show (if n < nsems then adjusted (v.semBase n) (v.semadj u n) pid else v.semBase n).semval = _
  rw [if_pos hn, adjusted, Values.semval, semvmx]
  by_cases hzero : v.semadj u n = 0
  · have htoInt : (v.semadj u n).toInt = 0 := by rw [hzero, Int16.toInt_zero]
    rw [if_pos hzero, htoInt]
    omega
  · rw [if_neg hzero]
    dsimp only
    omega

/-- In every run each sequence fits if and only if the adjustments have been exact all the time; if
so, they are exact now, and an exit takes back what the task has done. -/
theorem sem_undo_exact_iff {nsems semopm : Nat}
    (hrun : Reaches Step Legal (newary nsems semopm) s) :
    (AllFit s.log ↔ ∀ before, before <+: s.log → Accounted before) ∧
      (AllFit s.log → ∀ u ∈ s.listId, ∀ n,
        (s.values.semadj u n).toInt = -undoSum u n s.log ∧
        InUndoRange (s.values.semadj u n).toInt ∧
        (n < s.nsems → ∀ pid, (s.values.exit u s.nsems pid).semval n =
          max 0 (min semvmx (s.values.semval n - undoSum u n s.log)))) := by
  have h : Sound s ∧ Recorded s := by
    refine hrun.invariant (fun s => Sound s ∧ Recorded s) ?_
      ⟨newary_sound nsems semopm, rfl, .nil⟩
    rintro s op _ ⟨hsound, hrecorded⟩ hop rfl
    exact ⟨hsound.step hop, hrecorded.step hsound hop⟩
  obtain ⟨hsound, hrecorded⟩ := h
  have hiff := hrecorded.logged.allFit_iff
  refine ⟨hiff, fun hfit u hu n => ?_⟩
  have hvalues : s.values = replay s.log := hsound.kept.replay
  have hexact : (s.values.semadj u n).toInt = -undoSum u n s.log := by
    rw [hvalues]
    exact (hiff.mp hfit s.log (List.prefix_refl _) u (hrecorded.listId ▸ hu) n).1
  refine ⟨hexact, inUndoRange_toInt _, fun hn pid => ?_⟩
  rw [exit_semval hsound.kept.range hn, hexact, Int.sub_eq_add_neg]

theorem updateQueue_of_nil (h : s.pending = []) : s.updateQueue = s := by
  obtain ⟨⟩ := s
  cases h
  simp only [System.updateQueue, SysvSem.updateQueue, List.map_nil, List.filterMap_nil,
    List.append_nil]

/-- A sequence takes four and gives one back; the task exits. -/
theorem sem_undo_exact_iff_three :
    ∃ s, Reaches Step Legal (newary 1 10) s ∧ 0 ∈ s.listId ∧ s.values.semval 0 = 3 ∧
      (s.values.semadj 0 0).toInt = -undoSum 0 0 s.log ∧
      (s.values.exit 0 1 5).semval 0 = max 0 (min semvmx (3 - undoSum 0 0 s.log)) := by
  let sops : List Sembuf := [⟨0, 4, true, false⟩, ⟨0, -1, true, false⟩]
  have hstep : Step (newary 1 10) (.semtimedop 3 5 sops) _ := updateQueue_of_nil rfl
  have hrun : Reaches Step Legal (newary 1 10) _ := (Reaches.refl _).tail hstep trivial
  have hlog : AllFit [.allocated 0, .applied ⟨0, 3, some 0, 5, sops, true, rfl⟩] := by
    refine (@allFit_concat [_] _).mpr ⟨(@allFit_concat [] _).mpr ⟨fun before event hpre => ?_,
      trivial⟩, fun u hu n => ?_⟩
    · exact absurd (List.prefix_nil.mp hpre) (List.concat_ne_nil _ _)
    obtain rfl : 0 = u := Option.some.inj hu
    show InUndoRange (0 - undoOp sops n)
    by_cases hn : n = 0
    · subst hn
      exact ⟨by decide, by decide⟩
    · have hzero : undoOp sops n = 0 := by simp [undoOp, sops, hn]
      rw [hzero]
      exact ⟨by decide, by decide⟩
  obtain ⟨hexact, _, hexit⟩ := (sem_undo_exact_iff hrun).2 hlog 0 (List.mem_singleton.mpr rfl) 0
  exact ⟨_, hrun, List.mem_singleton.mpr rfl, rfl, hexact, hexit Nat.zero_lt_one 5⟩

/-- Two operations of one sequence, each in range against the adjustment 0, add up to 60000; the
adjustment is cut to 16 bits, and the exit of the task adds to the semaphore. -/
theorem sem_undo_truncated :
    ∃ s, Reaches Step Legal (newary 1 10) s ∧ s.finished = [(0, 0)] ∧ 0 ∈ s.listId ∧
      s.values.semval 0 = 30000 ∧ undoSum 0 0 s.log = 60000 ∧
      (s.values.semadj 0 0).toInt = 5536 ∧ (s.values.exit 0 1 5).semval 0 = 32767 := by
  let sops : List Sembuf :=
    [⟨0, 30000, true, false⟩, ⟨0, -30000, false, false⟩, ⟨0, 30000, true, false⟩]
  have hstep : Step (newary 1 10) (.semtimedop 3 5 sops) _ := updateQueue_of_nil rfl
  have hrun : Reaches Step Legal (newary 1 10) _ := (Reaches.refl _).tail hstep trivial
  exact ⟨_, hrun, rfl, List.mem_singleton.mpr rfl, rfl, by decide, by decide, by decide⟩

end AndroidKernel.SysvSem
