import AndroidKernel.RtMutex.Walk

/-!
# Deadlock detection

When the chain walk finds a deadlock. The walk was made to pass priorities on, so the code leaves
it at a task whose top waiter is not the one at hand, also when it looks for a deadlock:
`deadlock_detection_exact_iff`, and `deadlock_missed` for a run.
-/

namespace AndroidKernel.RtMutex

open Relation

variable {s σ : System} {current lock owner w v t next n : Nat} {p q : Int}

namespace System

theorem LeadsBack.waits (h : s.LeadsBack t current) (hne : t ≠ current) :
    ∃ next, s.WaitsFor t next ∧ s.LeadsBack next current := by
  rcases ReflTransGen.cases_head h with heq | hnext
  · exact absurd heq hne
  · exact hnext

theorem leadsBack_iff (hwaits : s.WaitsFor t next) (hne : t ≠ current) :
    s.LeadsBack t current ↔ s.LeadsBack next current := by
  constructor
  · intro h
    obtain ⟨next', hwaits', hback⟩ := h.waits hne
    obtain rfl := hwaits.unique hwaits'
    exact hback
  · exact fun h => ReflTransGen.head hwaits h

theorem urgent_iff (hblocked : (s.task t).piBlockedOn = some v)
    (howner : (s.lock (s.waiter v).lock).owner = some next) (hne : next ≠ current) :
    s.Urgent current t p ↔ ∃ q, s.Passes v next p q ∧ s.Urgent current next q := by
  constructor
  · intro h
    cases h with
    | back hblocked' howner' =>
      obtain rfl := Option.some.inj (hblocked.symm.trans hblocked')
      exact absurd (Option.some.inj (howner.symm.trans howner')) hne
    | pass hblocked' howner' hpass hrest =>
      obtain rfl := Option.some.inj (hblocked.symm.trans hblocked')
      obtain rfl := Option.some.inj (howner.symm.trans howner')
      exact ⟨_, hpass, hrest⟩
  · rintro ⟨q, hpass, hrest⟩
    exact .pass hblocked howner hpass hrest

theorem propagate_task (s : System) (owner v top : Nat) (first : PlistNode) :
    (s.propagate owner v top first).1.task owner =
      if v = first.waiter then (s.task owner).exchange top first
      else if top = v then (s.task owner).exchange v first else s.task owner := by
  unfold propagate lend
  split_ifs
  · exact Function.update_self ..
  · exact Function.update_self ..
  · rfl

/-- The walk comes to the next task. Whether it is left there, and with which priority it goes on,
is told by `Passes`. -/
theorem Walking.step (h : s.Walking σ lock w current (n + 1) t p) (hl : s.Linked)
    (hunused : s.Unused w) (hblocked : (s.task t).piBlockedOn = some v)
    (howner : (s.lock (s.waiter v).lock).owner = some next) (hrest : s.ChainLength next n)
    (hlock : lock ≠ (s.waiter v).lock) (hnext : next ≠ current) {u : Nat}
    (htop : (σ.task t).topPiWaiter = some u) :
    ∃ u' σ', (∀ depth, σ.adjustPrioChain true (some lock) (some w) current (depth + 1) t (some u) =
        σ'.adjustPrioChain true (some lock) (some w) current depth next (some u')) ∧
      (∀ q, s.Passes v next p q ↔
        (σ'.task next).topPiWaiter = some u' ∧ (σ'.task next).prio = q) ∧
      s.Walking σ' lock w current n next (σ'.task next).prio := by
  have hv : v ≠ w := fun heq => hunused.blocked t (heq ▸ hblocked)
  obtain ⟨node, hnode, _⟩ := hl.queued t v hblocked
  obtain ⟨top, htopOf⟩ : ∃ top, s.topOf v = some top :=
    Option.isSome_iff_exists.mp (List.isSome_head?.mpr (List.ne_nil_of_mem hnode))
  obtain ⟨first, hfirst⟩ := exists_head_plistAdd ⟨p, v⟩ (s.others v)
  have hsameLock := h.lock_eq hv howner hrest hlock
  have htask := propagate_task (σ.requeue t v) next v top.waiter first
  rw [show (σ.requeue t v).task next = s.task next from
    h.tasks next n hnext hrest (Nat.lt_succ_self n)] at htask
  refine ⟨first.waiter, ((σ.requeue t v).propagate next v top.waiter first).1, fun depth => ?_,
    fun q => passes_iff hl htopOf hfirst htask, h.round hv howner hnext hrest rfl rfl⟩
  refine adjustPrioChain_round (h.waits hl hunused hblocked) htop ?_ ?_ ?_ hnext ?_
  · rw [(h.waiters v hv).2]
    exact hlock
  · rw [hsameLock]
    exact htopOf
  · rw [hsameLock, howner]
  · rw [h.prio, others, hsameLock]
    exact hfirst

/-- What the walk answers from `t` on. -/
theorem Walking.answer (hl : s.Linked) (hunused : s.Unused w) (hchain : s.ChainLength t n)
    (hfirst : ∀ t' m, (s.lock lock).owner = some t' → s.ChainLength t' m → n ≤ m)
    (ht : t ≠ current) (h : s.Walking σ lock w current n t p) {u depth : Nat}
    (htop : (σ.task t).topPiWaiter = some u) (hdepth : n ≤ depth) :
    ∃ res σ', σ.adjustPrioChain true (some lock) (some w) current (depth + 1) t (some u) =
        some (res, σ') ∧
      (s.LeadsBack t current → (res = -edeadlk ↔ s.Urgent current t p)) ∧
      (¬ s.LeadsBack t current → res = 0) := by
  induction hchain generalizing σ p u depth with
  | @done t hnone =>
    refine ⟨0, σ, adjustPrioChain_unblocked (h.blocked.trans hnone), fun hback => ?_,
      fun _ => rfl⟩
    obtain ⟨next, ⟨v, hblocked, _⟩, _⟩ := hback.waits ht
    exact nomatch hnone.symm.trans hblocked
  | @link t next n hwaits hrest ih =>
    obtain ⟨v, hblocked, howner⟩ := id hwaits
    have hlock : lock ≠ (s.waiter v).lock := by
      intro heq
      have hle := hfirst next n (heq ▸ howner) hrest
      omega
    by_cases hnext : next = current
    · -- the lock belongs to the task that blocks
      subst hnext
      have hv : v ≠ w := fun heq => hunused.blocked t (heq ▸ hblocked)
      refine ⟨-edeadlk, σ, adjustPrioChain_deadlock (h.waits hl hunused hblocked) htop
        (.inr ?_), fun _ => iff_of_true rfl (.back hblocked howner), fun hno => ?_⟩
      · rw [h.lock_eq hv howner hrest hlock, howner]
      · exact absurd (ReflTransGen.single hwaits) hno
    obtain ⟨u', σ', hround, hpasses, hwalk⟩ :=
      h.step hl hunused hblocked howner hrest hlock hnext htop
    obtain ⟨depth, rfl⟩ : ∃ k, depth = k + 1 := ⟨depth - 1, by omega⟩
    rw [hround, leadsBack_iff hwaits ht, urgent_iff hblocked howner hnext]
    by_cases hpass : (σ'.task next).topPiWaiter = some u'
    · -- the walk goes on
      have hiff : (∃ q, s.Passes v next p q ∧ s.Urgent current next q) ↔
          s.Urgent current next (σ'.task next).prio := by
        constructor
        · rintro ⟨q, hq, hurgent⟩
          rwa [((hpasses q).mp hq).2]
        · exact fun hurgent => ⟨_, (hpasses _).mpr ⟨hpass, rfl⟩, hurgent⟩
      rw [hiff]
      exact ih (fun t' m ht' hm => Nat.le_of_succ_le (hfirst t' m ht' hm)) hnext hwalk hpass
        (by omega)
    · -- the walk is left, whatever lies ahead
      refine ⟨0, σ', adjustPrioChain_left hpass, fun _ => iff_of_false (by decide) ?_,
        fun _ => rfl⟩
      rintro ⟨q, hq, _⟩
      exact hpass ((hpasses q).mp hq).1

/-! ## Blocking on a lock -/

/-- How a task that runs blocks on a lock: the lock has an owner, and the waiter is not in use. -/
structure Blocks (s : System) (lock current w owner : Nat) : Prop where
  linked : s.Linked
  owned : (s.lock lock).owner = some owner
  running : (s.task current).piBlockedOn = none
  unused : s.Unused w
  short : ∃ n < maxLockDepth, s.ChainLength owner n

/-- The node of the task that blocks. -/
def nodeOf (s : System) (current w : Nat) : PlistNode :=
  ⟨(s.task current).getprio, w⟩

theorem enqueue_lock (s : System) (lock w current : Nat) :
    (s.enqueue lock w current).lock lock =
      { s.lock lock with waitList := plistAdd (s.nodeOf current w) (s.lock lock).waitList } :=
  Function.update_self ..

theorem otherLenders_eq (h : s.Unused w) :
    s.otherLenders lock owner =
      plistDel (((s.lock lock).topWaiter.map (·.waiter)).getD w) (s.task owner).piWaiters := by
  unfold otherLenders
  cases (s.lock lock).topWaiter with
  | none =>
    exact (List.filter_eq_self.mpr fun node hnode =>
      decide_eq_true (h.lent owner node hnode)).symm
  | some top => rfl

theorem enqueue_piWaiters (s : System) (lock w current t : Nat) :
    ((s.enqueue lock w current).task t).piWaiters = (s.task t).piWaiters ∧
      ((s.enqueue lock w current).task t).normalPrio = (s.task t).normalPrio := by
  by_cases heq : t = current
  · subst heq
    simp [enqueue, setTask, setWaiter, setWaitList, Task.adjustPrio]
  · simp [enqueue, setTask, setWaiter, setWaitList, heq]

theorem enqueue_task_of_ne (hne : t ≠ current) :
    (s.enqueue lock w current).task t = s.task t :=
  Function.update_of_ne hne ..

theorem enqueue_waiter (s : System) (lock w current : Nat) :
    (s.enqueue lock w current).waiter w =
      ⟨some current, lock, (s.task current).getprio, (s.task current).getprio⟩ :=
  Function.update_self ..

theorem enqueue_waiter_of_ne (hne : v ≠ w) :
    (s.enqueue lock w current).waiter v = s.waiter v :=
  Function.update_of_ne hne ..

/-- The walk starts in vain if the task that blocks is not the first one of the lock. -/
theorem Blocks.late (h : s.Blocks lock current w owner)
    (hfirst : ¬ Precedes (s.task current).getprio (s.lock lock).waitList) :
    ∃ s', s.taskBlocksOnRtMutex lock w true current = some (0, s') := by
  rcases head_plistAdd (s.nodeOf current w) (s.lock lock).waitList with ⟨hlt, _⟩ | ⟨_, hhead⟩
  · exact absurd hlt hfirst
  obtain ⟨first, hfirst'⟩ := exists_head_plistAdd (s.nodeOf current w) (s.lock lock).waitList
  have hne : first.waiter ≠ w :=
    h.unused.listed lock first (List.mem_of_head? (hhead.symm.trans hfirst'))
  have htop : ((s.enqueue lock w current).task owner).topPiWaiter ≠ some w := by
    rw [Task.topPiWaiter, (enqueue_piWaiters ..).1]
    intro heq
    obtain ⟨node, hnode, hw⟩ := Option.map_eq_some_iff.mp heq
    exact h.unused.lent owner node (List.mem_of_head? hnode) hw
  refine ⟨s.enqueue lock w current, ?_⟩
  rw [taskBlocksOnRtMutex, h.owned]
  simp only [Option.bind_eq_bind, Option.bind_some, Lock.topWaiter, enqueue_lock, hfirst']
  rw [if_neg hne, if_pos trivial]
  exact adjustPrioChain_left htop

/-- The state in which the walk starts. -/
def boosted (s : System) (lock w current owner : Nat) : System :=
  (s.enqueue lock w current).setTask owner
    (((s.enqueue lock w current).task owner).exchange
      (((s.lock lock).topWaiter.map (·.waiter)).getD w) (s.nodeOf current w))

/-- The walk starts once the owner is boosted. -/
theorem Blocks.early (h : s.Blocks lock current w owner)
    (hfirst : Precedes (s.task current).getprio (s.lock lock).waitList) :
    s.taskBlocksOnRtMutex lock w true current =
      if ((s.boosted lock w current owner).task owner).piBlockedOn ≠ none then
        (s.boosted lock w current owner).adjustPrioChain true (some lock) (some w) current
          maxLockDepth owner (some w)
      else some (0, s.boosted lock w current owner) := by
  rcases head_plistAdd (s.nodeOf current w) (s.lock lock).waitList with ⟨_, hhead⟩ | ⟨hnot, _⟩
  · rw [taskBlocksOnRtMutex, h.owned]
    simp only [Option.bind_eq_bind, Option.bind_some, Lock.topWaiter, enqueue_lock, hhead]
    rw [if_pos (show (s.nodeOf current w).waiter = w from rfl), enqueue_waiter]
    rfl
  · exact absurd hfirst hnot

theorem boosted_task (s : System) (lock w current owner : Nat) :
    (s.boosted lock w current owner).task owner =
      ((s.enqueue lock w current).task owner).exchange
        (((s.lock lock).topWaiter.map (·.waiter)).getD w) (s.nodeOf current w) :=
  Function.update_self ..

/-- The task that blocks becomes the top waiter of the owner if it comes before the others. -/
theorem Blocks.topPiWaiter (h : s.Blocks lock current w owner) :
    ((s.boosted lock w current owner).task owner).topPiWaiter = some w ↔
      Precedes (s.task current).getprio (s.otherLenders lock owner) := by
  rw [boosted_task, Task.topPiWaiter, otherLenders_eq h.unused]
  show (plistAdd _ (plistDel _ (Task.piWaiters _))).head?.map _ = _ ↔ _
  rw [(enqueue_piWaiters ..).1]
  refine head_plistAdd_iff fun node hnode => ?_
  exact h.unused.lent owner node (List.mem_filter.mp (List.mem_of_mem_head? hnode)).1

theorem Blocks.boosted_prio (h : s.Blocks lock current w owner)
    (hlender : Precedes (s.task current).getprio (s.otherLenders lock owner)) :
    ((s.boosted lock w current owner).task owner).prio =
      min (s.task current).getprio (s.task owner).normalPrio := by
  rw [otherLenders_eq h.unused] at hlender
  rw [boosted_task, getprio_exchange, (enqueue_piWaiters ..).2]
  · rfl
  · rw [(enqueue_piWaiters ..).1]
    exact hlender

/-- Nothing that lies ahead of the owner is changed yet. -/
theorem Blocks.walking (h : s.Blocks lock current w owner) (hne : owner ≠ current)
    (hlender : Precedes (s.task current).getprio (s.otherLenders lock owner))
    (hchain : s.ChainLength owner n) :
    s.Walking (s.boosted lock w current owner) lock w current n owner
      (min (s.task current).getprio (s.task owner).normalPrio) where
  prio := h.boosted_prio hlender
  blocked := by
    rw [boosted_task]
    show ((s.enqueue lock w current).task owner).piBlockedOn = _
    rw [enqueue_task_of_ne hne]
  orig := by
    show ((s.enqueue lock w current).waiter w).task ≠ none
    rw [enqueue_waiter]
    exact Option.some_ne_none current
  waiters v hv := by
    show ((s.enqueue lock w current).waiter v).task = _ ∧ _
    rw [show (s.boosted lock w current owner).waiter v = s.waiter v from enqueue_waiter_of_ne hv,
      enqueue_waiter_of_ne hv]
    exact ⟨rfl, rfl⟩
  tasks t' m ht' hm hlt := by
    have ho : t' ≠ owner := by
      rintro rfl
      exact absurd hlt (hchain.unique hm ▸ Nat.lt_irrefl n)
    exact (Function.update_of_ne ho ..).trans (enqueue_task_of_ne ht')
  locks l t' m hl _ _ _ := Function.update_of_ne hl ..

/-- A task that blocks on a lock it owns. -/
theorem boosted_self (s : System) (lock w current : Nat) :
    ((s.boosted lock w current current).task current).piBlockedOn = some w := by
  rw [boosted_task]
  show ((s.enqueue lock w current).task current).piBlockedOn = some w
  simp [enqueue, setTask, setWaiter, setWaitList]

theorem boosted_self_answer
    (htop : ((s.boosted lock w current current).task current).topPiWaiter = some w) :
    (s.boosted lock w current current).adjustPrioChain true (some lock) (some w) current
      maxLockDepth current (some w) = some (-edeadlk, s.boosted lock w current current) := by
  have hwaiter : (s.boosted lock w current current).waiter w =
      ⟨some current, lock, (s.task current).getprio, (s.task current).getprio⟩ :=
    enqueue_waiter ..
  have htask : ((s.boosted lock w current current).waiter w).task ≠ none := by
    rw [hwaiter]
    exact Option.some_ne_none current
  exact adjustPrioChain_deadlock ⟨boosted_self .., htask, htask⟩ htop (.inl (by rw [hwaiter]))

/-- What a task that blocks is told. -/
theorem Blocks.answer (h : s.Blocks lock current w owner) :
    ∃ res s', s.taskBlocksOnRtMutex lock w true current = some (res, s') ∧
      (s.LeadsBack owner current → (res = -edeadlk ↔ s.BlocksUrgently lock current owner)) ∧
      (¬ s.LeadsBack owner current → res = 0) := by
  by_cases hfirst : ¬ Precedes (s.task current).getprio (s.lock lock).waitList
  · obtain ⟨s', hs'⟩ := h.late hfirst
    exact ⟨0, s', hs', fun _ => iff_of_false (by decide) fun hurgent => hfirst hurgent.first,
      fun _ => rfl⟩
  rw [Classical.not_not] at hfirst
  rw [h.early hfirst]
  by_cases htop : ((s.boosted lock w current owner).task owner).topPiWaiter ≠ some w
  · -- the owner has a waiter that does not come after the new one
    refine ⟨0, s.boosted lock w current owner, ?_, fun _ => iff_of_false (by decide) fun hurgent =>
      htop (h.topPiWaiter.mpr hurgent.lender), fun _ => rfl⟩
    split_ifs
    · exact adjustPrioChain_left htop
    · rfl
  rw [ne_eq, Decidable.not_not] at htop
  have hlender := h.topPiWaiter.mp htop
  by_cases hself : owner = current
  · subst hself
    rw [if_pos (by rw [boosted_self]; exact Option.some_ne_none w), boosted_self_answer htop]
    exact ⟨_, _, rfl, fun _ => iff_of_true rfl ⟨hfirst, hlender, fun hne => absurd rfl hne⟩,
      fun hno => absurd ReflTransGen.refl hno⟩
  obtain ⟨n, hn, hchain⟩ := h.short
  have hwalk := h.walking hself hlender hchain
  have hfirst' : ∀ t' m, (s.lock lock).owner = some t' → s.ChainLength t' m → n ≤ m := by
    intro t' m ht' hm
    obtain rfl := Option.some.inj (h.owned.symm.trans ht')
    exact Nat.le_of_eq (hchain.unique hm)
  obtain ⟨res, s', hanswer, hiff, hno⟩ :=
    hwalk.answer h.linked h.unused hchain hfirst' hself htop (Nat.le_of_lt_succ hn)
  by_cases hblocked : ((s.boosted lock w current owner).task owner).piBlockedOn = none
  · -- the owner runs
    rw [if_neg (not_not_intro hblocked)]
    refine ⟨0, _, rfl, fun hback => ?_, fun _ => rfl⟩
    obtain ⟨next, ⟨v, hv, _⟩, _⟩ := hback.waits hself
    exact nomatch (hwalk.blocked.symm.trans hblocked).symm.trans hv
  · rw [if_pos hblocked]
    refine ⟨res, s', hanswer, fun hback => (hiff hback).trans ?_, hno⟩
    exact ⟨fun hurgent => ⟨hfirst, hlender, fun _ => hurgent⟩, fun hurgent => hurgent.chain hself⟩

/-! ## Detection -/

/-- The walk tells that there is a deadlock exactly if there is one, as long as a task that closes
a cycle comes first wherever the walk looks. -/
theorem deadlock_detection_exact_iff (h : s.Blocks lock current w owner) :
    ∃ res s', s.taskBlocksOnRtMutex lock w true current = some (res, s') ∧
      ((res = -edeadlk ↔ s.LeadsBack owner current) ↔
        (s.LeadsBack owner current → s.BlocksUrgently lock current owner)) := by
  obtain ⟨res, s', hblocks, hiff, hno⟩ := h.answer
  refine ⟨res, s', hblocks, ?_⟩
  by_cases hback : s.LeadsBack owner current
  · rw [iff_true_right hback, hiff hback]
    exact ⟨fun hurgent _ => hurgent, fun hurgent => hurgent hback⟩
  · refine iff_of_true (iff_of_false ?_ hback) fun hback' => absurd hback' hback
    rw [hno hback]
    decide

/-- Task 1 owns lock 1, for which task 2 waits, which owns lock 2. -/
def crossed : System where
  task
    | 1 => ⟨10, 10, [⟨10, 2⟩], none⟩
    | 2 => ⟨10, 10, [], some 2⟩
    | _ => ⟨10, 10, [], none⟩
  waiter
    | 2 => ⟨some 2, 1, 10, 10⟩
    | _ => ⟨none, 0, 0, 0⟩
  lock
    | 1 => ⟨some 1, [⟨10, 2⟩]⟩
    | 2 => ⟨some 2, []⟩
    | _ => ⟨none, []⟩

theorem crossed_blocks : crossed.Blocks 2 1 1 2 where
  linked := by
    refine ⟨fun t v h => ?_, fun t v h => ?_, fun l node h => ?_, fun t node h => ?_⟩
    · match t, h with
      | 2, rfl => rfl
    · match t, h with
      | 2, rfl => exact ⟨_, List.mem_cons_self, rfl⟩
    · match l, h with
      | 0, h | 2, h | _ + 3, h => exact absurd h List.not_mem_nil
      | 1, h =>
        rw [List.mem_singleton.mp h]
        rfl
    · match t, h with
      | 0, h | 2, h | _ + 3, h => exact absurd h List.not_mem_nil
      | 1, h =>
        rw [List.mem_singleton.mp h]
        rfl
  owned := rfl
  running := rfl
  unused := by
    refine ⟨fun t h => ?_, fun l node h => ?_, fun t node h => ?_⟩
    · match t, h with
      | 2, h => cases h
    · match l, h with
      | 0, h | 2, h | _ + 3, h => exact absurd h List.not_mem_nil
      | 1, h =>
        rw [List.mem_singleton.mp h]
        decide
    · match t, h with
      | 0, h | 2, h | _ + 3, h => exact absurd h List.not_mem_nil
      | 1, h =>
        rw [List.mem_singleton.mp h]
        decide
  short := ⟨1, by decide, .link ⟨2, rfl, rfl⟩ (.done rfl)⟩

theorem deadlock_detection_exact_iff_crossed :
    ∃ res s', crossed.taskBlocksOnRtMutex 2 1 true 1 = some (res, s') ∧
      ((res = -edeadlk ↔ crossed.LeadsBack 2 1) ↔
        (crossed.LeadsBack 2 1 → crossed.BlocksUrgently 2 1 2)) :=
  deadlock_detection_exact_iff crossed_blocks

/-- Tasks 1 and 2 own the locks 1 and 2. -/
def apart : System where
  task
    | 3 => ⟨1, 1, [], none⟩
    | _ => ⟨10, 10, [], none⟩
  waiter _ := ⟨none, 0, 0, 0⟩
  lock
    | 1 => ⟨some 1, []⟩
    | 2 => ⟨some 2, []⟩
    | _ => ⟨none, []⟩

/-- Task 3 waits for lock 2 and has lent its priority to task 2, and this one to task 1. -/
def contended : System where
  task
    | 1 => ⟨1, 10, [⟨1, 2⟩], none⟩
    | 2 => ⟨1, 10, [⟨1, 3⟩], some 2⟩
    | 3 => ⟨1, 1, [], some 3⟩
    | _ => ⟨10, 10, [], none⟩
  waiter
    | 2 => ⟨some 2, 1, 1, 1⟩
    | 3 => ⟨some 3, 2, 1, 1⟩
    | _ => ⟨none, 0, 0, 0⟩
  lock
    | 1 => ⟨some 1, [⟨1, 2⟩]⟩
    | 2 => ⟨some 2, [⟨1, 3⟩]⟩
    | _ => ⟨none, []⟩

theorem contended_blocks : contended.Blocks 2 1 1 2 where
  linked := by
    refine ⟨fun t v h => ?_, fun t v h => ?_, fun l node h => ?_, fun t node h => ?_⟩
    · match t, h with
      | 2, rfl | 3, rfl => rfl
    · match t, h with
      | 2, rfl | 3, rfl => exact ⟨_, List.mem_cons_self, rfl⟩
    · match l, h with
      | 0, h | _ + 3, h => exact absurd h List.not_mem_nil
      | 1, h | 2, h =>
        rw [List.mem_singleton.mp h]
        rfl
    · match t, h with
      | 0, h | 3, h | _ + 4, h => exact absurd h List.not_mem_nil
      | 1, h | 2, h =>
        rw [List.mem_singleton.mp h]
        rfl
  owned := rfl
  running := rfl
  unused := by
    refine ⟨fun t h => ?_, fun l node h => ?_, fun t node h => ?_⟩
    · match t, h with
      | 2, h | 3, h => cases h
    · match l, h with
      | 0, h | _ + 3, h => exact absurd h List.not_mem_nil
      | 1, h | 2, h =>
        rw [List.mem_singleton.mp h]
        decide
    · match t, h with
      | 0, h | 3, h | _ + 4, h => exact absurd h List.not_mem_nil
      | 1, h | 2, h =>
        rw [List.mem_singleton.mp h]
        decide
  short := ⟨1, by decide, .link ⟨2, rfl, rfl⟩ (.done rfl)⟩

/-- In this run task 1 closes a cycle and is not told. -/
theorem deadlock_missed :
    (do
      let (_, s) ← apart.taskBlocksOnRtMutex 2 3 true 3
      let (_, s) ← s.taskBlocksOnRtMutex 1 2 true 2
      pure s) = some contended ∧
    contended.Blocks 2 1 1 2 ∧ contended.LeadsBack 2 1 ∧
      (contended.taskBlocksOnRtMutex 2 1 true 1).map Prod.fst = some 0 := by
  refine ⟨?_, contended_blocks, .single ⟨2, rfl, rfl⟩, rfl⟩
  refine (rfl : _ = some _).trans (congrArg some ?_)
  refine System.ext (funext fun t => ?_) (funext fun v => ?_) (funext fun l => ?_)
  · match t with
    | 0 | 1 | 2 | 3 | _ + 4 => rfl
  · match v with
    | 0 | 1 | 2 | 3 | _ + 4 => rfl
  · match l with
    | 0 | 1 | 2 | _ + 3 => rfl

end System

end AndroidKernel.RtMutex
