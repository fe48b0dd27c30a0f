import AndroidKernel.RtMutex.Model
import Mathlib.Logic.Relation
import Mathlib.Tactic.SplitIfs

/-!
# Rounds of the chain walk

What one round of the walk does to the waiter at hand, its lock and the owner, and whether the
first waiter of the lock then is the owner's top waiter (`passes_iff`). A round leaves what lies
ahead on the chain as it was (`Walking.round`).
-/

namespace AndroidKernel.RtMutex

open Relation

variable {s σ : System} {current lock owner w v t next n : Nat} {p q : Int}

/-! ## Lists with priorities -/

/-- A new node of priority `p` becomes the first one of the list. -/
def Precedes (p : Int) (list : List PlistNode) : Prop :=
  ∀ node ∈ list.head?, p < node.prio

theorem head_plistAdd (node : PlistNode) (list : List PlistNode) :
    Precedes node.prio list ∧ (plistAdd node list).head? = some node ∨
      ¬ Precedes node.prio list ∧ (plistAdd node list).head? = list.head? := by
  cases list with
  | nil => exact .inl ⟨nofun, rfl⟩
  | cons iter rest =>
    by_cases hlt : node.prio < iter.prio
    · refine .inl ⟨fun _ h => Option.some.inj h ▸ hlt, ?_⟩
      rw [plistAdd, if_pos hlt, List.head?_cons]
    · refine .inr ⟨fun h => hlt (h iter rfl), ?_⟩
      rw [plistAdd, if_neg hlt, List.head?_cons, List.head?_cons]

theorem exists_head_plistAdd (node : PlistNode) (list : List PlistNode) :
    ∃ first, (plistAdd node list).head? = some first := by
  rcases head_plistAdd node list with ⟨_, hhead⟩ | ⟨hnot, hhead⟩
  · exact ⟨node, hhead⟩
  · cases list with
    | nil => exact absurd nofun hnot
    | cons iter rest => exact ⟨iter, hhead⟩

theorem head_plistDel_ne {list : List PlistNode} {node : PlistNode}
    (h : (plistDel w list).head? = some node) : node.waiter ≠ w :=
  of_decide_eq_true (List.mem_filter.mp (List.mem_of_head? h)).2

/-- A waiter that is added to the list is the first one if it precedes the others. -/
theorem head_plistAdd_iff {node : PlistNode} {list : List PlistNode}
    (hnot : ∀ other ∈ list.head?, other.waiter ≠ node.waiter) :
    (plistAdd node list).head?.map (·.waiter) = some node.waiter ↔ Precedes node.prio list := by
  rcases head_plistAdd node list with ⟨hfirst, hhead⟩ | ⟨hfirst, hhead⟩
  · simp only [hhead, Option.map_some, hfirst]
  · rw [hhead, Option.map_eq_some_iff]
    exact iff_of_false (fun ⟨other, hother, heq⟩ => hnot other hother heq) hfirst

theorem getprio_exchange (task : Task) (old : Nat) (node : PlistNode)
    (h : Precedes node.prio (plistDel old task.piWaiters)) :
    (task.exchange old node).prio = min node.prio task.normalPrio := by
  rcases head_plistAdd node (plistDel old task.piWaiters) with ⟨_, hhead⟩ | ⟨hnot, _⟩
  · obtain ⟨rest, hlist⟩ := List.head?_eq_some_iff.mp hhead
    simp only [Task.exchange, Task.adjustPrio, Task.getprio, hlist]
  · exact absurd h hnot

/-! ## The graph -/

namespace System

/-- Following `pi_blocked_on` and then the owner of its lock. -/
def WaitsFor (s : System) (t next : Nat) : Prop :=
  ∃ v, (s.task t).piBlockedOn = some v ∧ (s.lock (s.waiter v).lock).owner = some next

/-- From the owner of the lock the links lead back to the task that blocks on it. -/
def LeadsBack (s : System) (owner current : Nat) : Prop :=
  ReflTransGen s.WaitsFor owner current

/-- The chain of a task ends, after `n` links, at a task that is not blocked. -/
inductive ChainLength (s : System) : Nat → Nat → Prop
  | done {t : Nat} (h : (s.task t).piBlockedOn = none) : ChainLength s t 0
  | link {t next n : Nat} (h : s.WaitsFor t next) (hrest : ChainLength s next n) :
      ChainLength s t (n + 1)

/-- How the tasks, waiters and locks of a state belong together. -/
structure Linked (s : System) : Prop where
  waiting : ∀ t v, (s.task t).piBlockedOn = some v → (s.waiter v).task = some t
  queued : ∀ t v, (s.task t).piBlockedOn = some v →
    ∃ node ∈ (s.lock (s.waiter v).lock).waitList, node.waiter = v
  listed : ∀ l, ∀ node ∈ (s.lock l).waitList, (s.waiter node.waiter).lock = l
  lent : ∀ t, ∀ node ∈ (s.task t).piWaiters,
    (s.lock (s.waiter node.waiter).lock).topWaiter.map (·.waiter) = some node.waiter

/-- No task is blocked with this waiter, and it is on no list. -/
structure Unused (s : System) (w : Nat) : Prop where
  blocked : ∀ t, (s.task t).piBlockedOn ≠ some w
  listed : ∀ l, ∀ node ∈ (s.lock l).waitList, node.waiter ≠ w
  lent : ∀ t, ∀ node ∈ (s.task t).piWaiters, node.waiter ≠ w

/-- The waiters of the lock of `v` other than `v`. -/
def others (s : System) (v : Nat) : List PlistNode :=
  plistDel v (s.lock (s.waiter v).lock).waitList

/-- The top waiter of the lock of `v`. -/
def topOf (s : System) (v : Nat) : Option PlistNode :=
  (s.lock (s.waiter v).lock).topWaiter

/-- Once `v` waits with priority `p`, the first waiter of its lock is the top waiter of the owner
`next`, which then has priority `q`. -/
inductive Passes (s : System) (v next : Nat) (p : Int) : Int → Prop
  /-- The waiter comes before the others of its lock, and before those of the owner's other
  locks. -/
  | first {top : PlistNode} (htop : s.topOf v = some top) (hlock : Precedes p (s.others v))
      (howner : Precedes p (plistDel top.waiter (s.task next).piWaiters)) :
      Passes s v next p (min p (s.task next).normalPrio)
  /-- The waiter was the first one, and another one takes its place. -/
  | displaced {top node : PlistNode} (htop : s.topOf v = some top) (hsame : top.waiter = v)
      (hnode : (s.others v).head? = some node) (hlock : node.prio ≤ p)
      (howner : Precedes node.prio (plistDel v (s.task next).piWaiters)) :
      Passes s v next p (min node.prio (s.task next).normalPrio)
  /-- Another waiter was the first one and stays so. -/
  | behind {top : PlistNode} (htop : s.topOf v = some top) (hother : top.waiter ≠ v)
      (hlock : top.prio ≤ p) (howner : (s.task next).topPiWaiter = some top.waiter) :
      Passes s v next p (s.task next).prio

/-- From `t` with priority `p` up to a lock of `current`, every owner's top waiter is the first
waiter of the lock the walk comes from. -/
inductive Urgent (s : System) (current : Nat) : Nat → Int → Prop
  | back {t v : Nat} {p : Int} (hblocked : (s.task t).piBlockedOn = some v)
      (howner : (s.lock (s.waiter v).lock).owner = some current) : Urgent s current t p
  | pass {t v next : Nat} {p q : Int} (hblocked : (s.task t).piBlockedOn = some v)
      (howner : (s.lock (s.waiter v).lock).owner = some next) (hpass : s.Passes v next p q)
      (hrest : Urgent s current next q) : Urgent s current t p

/-- The waiters that lend `owner` their priority, without the top waiter of the lock. -/
def otherLenders (s : System) (lock owner : Nat) : List PlistNode :=
  match (s.lock lock).topWaiter with
  | none => (s.task owner).piWaiters
  | some top => plistDel top.waiter (s.task owner).piWaiters

/-- The task that blocks comes before all waiters of the lock and of the owner's other locks, and
it goes on like this up to a lock of its own. -/
structure BlocksUrgently (s : System) (lock current owner : Nat) : Prop where
  first : Precedes (s.task current).getprio (s.lock lock).waitList
  lender : Precedes (s.task current).getprio (s.otherLenders lock owner)
  chain : owner ≠ current →
    s.Urgent current owner (min (s.task current).getprio (s.task owner).normalPrio)

/-! ## What the walk changes -/

theorem WaitsFor.unique (h : s.WaitsFor t next) {next' : Nat} (h' : s.WaitsFor t next') :
    next = next' := by
  obtain ⟨v, hblocked, howner⟩ := h
  obtain ⟨v', hblocked', howner'⟩ := h'
  obtain rfl := Option.some.inj (hblocked.symm.trans hblocked')
  exact Option.some.inj (howner.symm.trans howner')

theorem ChainLength.unique (h : s.ChainLength t n) {m : Nat} (h' : s.ChainLength t m) : n = m := by
  induction h generalizing m with
  | done hnone =>
    cases h' with
    | done => rfl
    | link hwaits _ =>
      obtain ⟨v, hblocked, _⟩ := hwaits
      exact nomatch hnone.symm.trans hblocked
  | link hwaits _ ih =>
    cases h' with
    | done hnone =>
      obtain ⟨v, hblocked, _⟩ := hwaits
      exact nomatch hnone.symm.trans hblocked
    | link hwaits' hrest' =>
      obtain rfl := hwaits.unique hwaits'
      rw [ih hrest']

/-- The waiters belong to the same tasks and locks. -/
def SameWaiters (s σ : System) : Prop :=
  ∀ u, (σ.waiter u).task = (s.waiter u).task ∧ (σ.waiter u).lock = (s.waiter u).lock

theorem requeue_waiters (s : System) (t v : Nat) : s.SameWaiters (s.requeue t v) := by
  intro u
  by_cases heq : u = v
  · subst heq
    simp [requeue, setWaiter, setWaitList]
  · simp [requeue, setWaiter, setWaitList, heq]

theorem requeue_lock_of_ne {l : Nat} (h : l ≠ (s.waiter v).lock) :
    (s.requeue t v).lock l = s.lock l :=
  Function.update_of_ne h _ _

theorem requeue_lock (s : System) (t v : Nat) :
    (s.requeue t v).lock (s.waiter v).lock =
      { s.lock (s.waiter v).lock with waitList := plistAdd ⟨(s.task t).prio, v⟩ (s.others v) } :=
  Function.update_self ..

theorem propagate_lock (s : System) (owner v top : Nat) (first : PlistNode) :
    (s.propagate owner v top first).1.lock = s.lock := by
  unfold propagate
  split_ifs <;> rfl

theorem propagate_waiters (s : System) (owner v top : Nat) (first : PlistNode) :
    s.SameWaiters (s.propagate owner v top first).1 := by
  have hlend : ∀ old, s.SameWaiters (s.lend owner old first) := by
    intro old u
    by_cases heq : u = first.waiter
    · subst heq
      simp [lend, setWaiter, setTask]
    · simp [lend, setWaiter, setTask, heq]
  unfold propagate
  split_ifs
  · exact hlend top
  · exact hlend v
  · exact fun _ => ⟨rfl, rfl⟩

theorem propagate_task_of_ne {u top : Nat} {first : PlistNode} (h : u ≠ owner) :
    (s.propagate owner v top first).1.task u = s.task u := by
  unfold propagate
  split_ifs
  · exact Function.update_of_ne h _ _
  · exact Function.update_of_ne h _ _
  · rfl

theorem propagate_blocked (s : System) (owner v top : Nat) (first : PlistNode) :
    ((s.propagate owner v top first).1.task owner).piBlockedOn = (s.task owner).piBlockedOn := by
  unfold propagate lend
  split_ifs <;> simp [setTask, setWaiter, Task.exchange, Task.adjustPrio]

/-! ## One round of the walk -/

variable {top node first : PlistNode}

theorem others_head_of_ne (htop : s.topOf v = some top) (hne : top.waiter ≠ v) :
    (s.others v).head? = some top := by
  obtain ⟨rest, hlist⟩ := List.head?_eq_some_iff.mp htop
  rw [others, hlist, plistDel,
    List.filter_cons_of_pos (by simpa only [decide_eq_true_eq] using hne), List.head?_cons]

/-- `v` comes before all others of its lock. -/
theorem passes_first_iff (htop : s.topOf v = some top) (hlock : Precedes p (s.others v)) :
    s.Passes v next p q ↔ Precedes p (plistDel top.waiter (s.task next).piWaiters) ∧
      min p (s.task next).normalPrio = q := by
  constructor
  · intro h
    cases h with
    | first htop' _ howner =>
      obtain rfl := Option.some.inj (htop.symm.trans htop')
      exact ⟨howner, rfl⟩
    | displaced _ _ hnode hle => exact absurd (hlock _ hnode) (Int.not_lt.mpr hle)
    | behind htop' hother hle =>
      exact absurd (hlock _ (others_head_of_ne htop' hother)) (Int.not_lt.mpr hle)
  · rintro ⟨howner, rfl⟩
    exact .first htop hlock howner

/-- `v` was the first one and `node` takes its place. -/
theorem passes_displaced_iff (htop : s.topOf v = some top) (hsame : top.waiter = v)
    (hnode : (s.others v).head? = some node) (hle : node.prio ≤ p) :
    s.Passes v next p q ↔ Precedes node.prio (plistDel v (s.task next).piWaiters) ∧
      min node.prio (s.task next).normalPrio = q := by
  constructor
  · intro h
    cases h with
    | first _ hlock _ => exact absurd (hlock _ hnode) (Int.not_lt.mpr hle)
    | displaced _ _ hnode' _ howner =>
      obtain rfl := Option.some.inj (hnode.symm.trans hnode')
      exact ⟨howner, rfl⟩
    | behind htop' hother =>
      obtain rfl := Option.some.inj (htop.symm.trans htop')
      exact absurd hsame hother
  · rintro ⟨howner, rfl⟩
    exact .displaced htop hsame hnode hle howner

/-- `top` was the first one and stays so. -/
theorem passes_behind_iff (htop : s.topOf v = some top) (hother : top.waiter ≠ v)
    (hle : top.prio ≤ p) :
    s.Passes v next p q ↔
      (s.task next).topPiWaiter = some top.waiter ∧ (s.task next).prio = q := by
  constructor
  · intro h
    cases h with
    | first _ hlock _ =>
      exact absurd (hlock _ (others_head_of_ne htop hother)) (Int.not_lt.mpr hle)
    | displaced htop' hsame =>
      obtain rfl := Option.some.inj (htop.symm.trans htop')
      exact absurd hsame hother
    | behind htop' _ _ howner =>
      obtain rfl := Option.some.inj (htop.symm.trans htop')
      exact ⟨howner, rfl⟩
  · rintro ⟨howner, rfl⟩
    exact .behind htop hother hle howner

/-- In place of the top waiter of a lock, a waiter of the lock becomes the top waiter of the owner
if it comes before the owner's other waiters. -/
theorem exchange_topPiWaiter (hl : s.Linked) (htop : s.topOf v = some top)
    (hlock : (s.waiter node.waiter).lock = (s.waiter v).lock) :
    ((s.task next).exchange top.waiter node).topPiWaiter = some node.waiter ↔
      Precedes node.prio (plistDel top.waiter (s.task next).piWaiters) := by
  refine head_plistAdd_iff fun other hother heq => head_plistDel_ne hother ?_
  -- a waiter that lends its priority is the top waiter of its lock
  have hlent := hl.lent next other (List.mem_filter.mp (List.mem_of_mem_head? hother)).1
  rw [heq, hlock] at hlent
  rw [show (s.lock (s.waiter v).lock).topWaiter = some top from htop] at hlent
  exact heq.trans (Option.some.inj hlent).symm

/-- The owner after the round, and whether its top waiter is the first one of the lock. -/
theorem passes_iff (hl : s.Linked) (htop : s.topOf v = some top)
    (hfirst : (plistAdd ⟨p, v⟩ (s.others v)).head? = some first) {task : Task}
    (htask : task = if v = first.waiter then (s.task next).exchange top.waiter first
      else if top.waiter = v then (s.task next).exchange v first else s.task next) :
    s.Passes v next p q ↔ task.topPiWaiter = some first.waiter ∧ task.prio = q := by
  subst htask
  rcases head_plistAdd ⟨p, v⟩ (s.others v) with ⟨hlock, hhead⟩ | ⟨hlock, hhead⟩
  · obtain rfl := Option.some.inj (hhead.symm.trans hfirst)
    rw [if_pos rfl, passes_first_iff htop hlock, exchange_topPiWaiter hl htop rfl]
    exact and_congr_right fun howner => by rw [getprio_exchange _ _ _ howner]
  have hnode : (s.others v).head? = some first := hhead.symm.trans hfirst
  have hne : first.waiter ≠ v := head_plistDel_ne hnode
  have hle : first.prio ≤ p := by
    refine Int.not_lt.mp fun hlt => hlock fun node hmem => ?_
    obtain rfl := Option.some.inj (hnode.symm.trans hmem)
    exact hlt
  rw [if_neg hne.symm]
  by_cases hsame : top.waiter = v
  · have hfirstLock : (s.waiter first.waiter).lock = (s.waiter v).lock :=
      hl.listed _ _ (List.mem_filter.mp (List.mem_of_head? hnode)).1
    have htopPi : ((s.task next).exchange top.waiter first).topPiWaiter = some first.waiter ↔
        Precedes first.prio (plistDel top.waiter (s.task next).piWaiters) :=
      exchange_topPiWaiter hl htop hfirstLock
    rw [hsame] at htopPi
    rw [if_pos hsame, passes_displaced_iff htop hsame hnode hle, htopPi]
    exact and_congr_right fun howner => by rw [getprio_exchange _ _ _ howner]
  · obtain rfl := Option.some.inj ((others_head_of_ne htop hsame).symm.trans hnode)
    rw [if_neg hsame, passes_behind_iff htop hsame hle]

/-! ## The walk -/

section Rounds

variable {u top depth : Nat} {detect : Bool} {origLock origWaiter : Option Nat} {first : PlistNode}

theorem adjustPrioChain_unblocked (h : (σ.task t).piBlockedOn = none) :
    σ.adjustPrioChain detect origLock origWaiter current (depth + 1) t (some u) = some (0, σ) := by
  rw [adjustPrioChain, h]

/-- A task that waits, as the walk looks for it. -/
structure Waits (σ : System) (w t v : Nat) : Prop where
  blocked : (σ.task t).piBlockedOn = some v
  waiting : (σ.waiter v).task ≠ none
  orig : (σ.waiter w).task ≠ none

theorem Waits.ne_none (h : σ.Waits w t v) :
    ¬ ((σ.waiter v).task = none ∨ ∃ w' ∈ some w, (σ.waiter w').task = none) := by
  rintro (hnone | ⟨w', hw', hnone⟩)
  · exact h.waiting hnone
  · obtain rfl := Option.some.inj hw'
    exact h.orig hnone

/-- Another waiter than the one at hand is the top waiter of the task. -/
theorem adjustPrioChain_left (htop : (σ.task t).topPiWaiter ≠ some u) :
    σ.adjustPrioChain detect origLock origWaiter current (depth + 1) t (some u) = some (0, σ) := by
  rw [adjustPrioChain]
  cases (σ.task t).piBlockedOn with
  | none => rfl
  | some v =>
    dsimp only
    rw [if_pos (show ∃ u' ∈ some u, (σ.task t).topPiWaiter ≠ some u' from ⟨u, rfl, htop⟩),
      ite_self]

theorem not_left (htop : (σ.task t).topPiWaiter = some u) :
    ¬ ∃ u' ∈ some u, (σ.task t).topPiWaiter ≠ some u' := by
  rintro ⟨u', hu', hne⟩
  obtain rfl := Option.some.inj hu'
  exact hne htop

theorem adjustPrioChain_deadlock (h : σ.Waits w t v) (htop : (σ.task t).topPiWaiter = some u)
    (hback : lock = (σ.waiter v).lock ∨ (σ.lock (σ.waiter v).lock).owner = some current) :
    σ.adjustPrioChain true (some lock) (some w) current (depth + 1) t (some u) =
      some (-edeadlk, σ) := by
  rw [adjustPrioChain, h.blocked]
  dsimp only
  rw [if_neg h.ne_none, if_neg (not_left htop), if_neg (by rintro ⟨⟨⟩, _⟩),
    if_pos (hback.imp_left (congrArg some)), if_pos rfl]

/-- A round that goes on. -/
theorem adjustPrioChain_round (h : σ.Waits w t v) (htop : (σ.task t).topPiWaiter = some u)
    (hlock : lock ≠ (σ.waiter v).lock) {node : PlistNode}
    (hnode : (σ.lock (σ.waiter v).lock).topWaiter = some node)
    (howner : (σ.lock (σ.waiter v).lock).owner = some next) (hnext : next ≠ current)
    (hfirst : (plistAdd ⟨(σ.task t).prio, v⟩ (σ.others v)).head? = some first) :
    σ.adjustPrioChain true (some lock) (some w) current (depth + 1) t (some u) =
      ((σ.requeue t v).propagate next v node.waiter first).1.adjustPrioChain true (some lock)
        (some w) current depth next (some first.waiter) := by
  have hnotBack : ¬ (some lock = some (σ.waiter v).lock ∨
      (σ.lock (σ.waiter v).lock).owner = some current) := by
    rintro (heq | heq)
    · exact hlock (Option.some.inj heq)
    · exact hnext (Option.some.inj (howner.symm.trans heq))
  rw [adjustPrioChain, h.blocked]
  dsimp only
  rw [if_neg h.ne_none, if_neg (not_left htop), if_neg (by rintro ⟨⟨⟩, _⟩), if_neg hnotBack, hnode]
  simp only [requeue_lock, howner, Lock.topWaiter, hfirst, Option.bind_eq_bind, Option.bind_some]
  rw [if_neg (by rintro ⟨⟨⟩, _⟩)]

end Rounds

/-- The state when the walk comes to `t`, which the owner's chain reaches with `n` links left: what
lies ahead is as before the task blocked. -/
structure Walking (s σ : System) (lock w current n t : Nat) (p : Int) : Prop where
  prio : (σ.task t).prio = p
  blocked : (σ.task t).piBlockedOn = (s.task t).piBlockedOn
  orig : (σ.waiter w).task ≠ none
  waiters : ∀ v, v ≠ w → (σ.waiter v).task = (s.waiter v).task ∧
    (σ.waiter v).lock = (s.waiter v).lock
  tasks : ∀ t' m, t' ≠ current → s.ChainLength t' m → m < n → σ.task t' = s.task t'
  locks : ∀ l t' m, l ≠ lock → (s.lock l).owner = some t' → s.ChainLength t' m → m < n →
    σ.lock l = s.lock l

theorem Walking.waits (h : s.Walking σ lock w current n t p) (hl : s.Linked) (hunused : s.Unused w)
    (hblocked : (s.task t).piBlockedOn = some v) : σ.Waits w t v := by
  have hv : v ≠ w := fun heq => hunused.blocked t (heq ▸ hblocked)
  refine ⟨h.blocked.trans hblocked, ?_, h.orig⟩
  rw [(h.waiters v hv).1, hl.waiting t v hblocked]
  exact Option.some_ne_none t

/-- The lock of the waiter of `t` is as before. -/
theorem Walking.lock_eq (h : s.Walking σ lock w current (n + 1) t p) (hv : v ≠ w)
    (howner : (s.lock (s.waiter v).lock).owner = some next) (hrest : s.ChainLength next n)
    (hlock : lock ≠ (s.waiter v).lock) :
    σ.lock (σ.waiter v).lock = s.lock (s.waiter v).lock := by
  rw [(h.waiters v hv).2]
  exact h.locks _ next n hlock.symm howner hrest (Nat.lt_succ_self n)

variable {top first : PlistNode}

/-- A round changes the lock of `v` and its owner only. -/
theorem Walking.round (h : s.Walking σ lock w current (n + 1) t p) (hv : v ≠ w)
    (howner : (s.lock (s.waiter v).lock).owner = some next) (hnext : next ≠ current)
    (hrest : s.ChainLength next n) {σ' : System}
    (hround : σ' = ((σ.requeue t v).propagate next v top.waiter first).1)
    (hprio : (σ'.task next).prio = q) : s.Walking σ' lock w current n next q := by
  subst hround
  have hsame : ∀ u, _ ∧ _ := fun u =>
    ⟨((propagate_waiters (σ.requeue t v) next v top.waiter first u).1).trans
      (requeue_waiters σ t v u).1,
      ((propagate_waiters (σ.requeue t v) next v top.waiter first u).2).trans
      (requeue_waiters σ t v u).2⟩
  refine ⟨hprio, ?_, ?_, fun u hu => ?_, fun t' m ht' hm hlt => ?_, fun l t' m hl ht' hm hlt => ?_⟩
  · rw [propagate_blocked]
    exact congrArg Task.piBlockedOn (h.tasks next n hnext hrest (Nat.lt_succ_self n))
  · rw [(hsame w).1]
    exact h.orig
  · rw [(hsame u).1, (hsame u).2]
    exact h.waiters u hu
  · have hne : t' ≠ next := by
      rintro rfl
      exact absurd hlt (hrest.unique hm ▸ Nat.lt_irrefl n)
    rw [propagate_task_of_ne hne]
    exact h.tasks t' m ht' hm (Nat.lt_succ_of_lt hlt)
  · have hne : l ≠ (σ.waiter v).lock := by
      rintro rfl
      rw [(h.waiters v hv).2, howner] at ht'
      obtain rfl := Option.some.inj ht'
      exact absurd hlt (hrest.unique hm ▸ Nat.lt_irrefl n)
    rw [propagate_lock, requeue_lock_of_ne hne]
    exact h.locks l t' m hl ht' hm (Nat.lt_succ_of_lt hlt)

end System

end AndroidKernel.RtMutex
