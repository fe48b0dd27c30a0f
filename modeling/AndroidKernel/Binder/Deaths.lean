import AndroidKernel.Binder.RefRuns

/-!
# Death notifications

The life of a death notification: a reference owns it from the request on; it is linked only
once its node is dead, and then as a dead binder; clearing it takes it from its reference, and
it is answered once no dead binder is outstanding. `NoticeOk` says this of one notification
together with what the history of the run records of it, and each transition moves at most
one notification at a time.
-/

namespace AndroidKernel.Binder

open Library

/-- The notification an event is about. -/
def DeathEvent.id : DeathEvent → Id
  | .requested d | .queued d | .deadBinder d | .acknowledged d | .cleared d | .clearDone d => d

@[simp] theorem id_requested (d : Id) : (DeathEvent.requested d).id = d := rfl
@[simp] theorem id_queued (d : Id) : (DeathEvent.queued d).id = d := rfl
@[simp] theorem id_deadBinder (d : Id) : (DeathEvent.deadBinder d).id = d := rfl
@[simp] theorem id_acknowledged (d : Id) : (DeathEvent.acknowledged d).id = d := rfl
@[simp] theorem id_cleared (d : Id) : (DeathEvent.cleared d).id = d := rfl
@[simp] theorem id_clearDone (d : Id) : (DeathEvent.clearDone d).id = d := rfl

/-- What the history records of one notification, newest first. -/
def State.events (s : State) (d : Id) : List DeathEvent :=
  s.history.filter fun e => e.id = d

/-- An event is recorded of its own notification and of no other. -/
theorem events_cons {s s' : State} {e : DeathEvent} (h : s'.history = e :: s.history) (d : Id) :
    s'.events d = if e.id = d then e :: s.events d else s.events d := by
  by_cases hd : e.id = d
  · simp [State.events, h, hd]
  · simp [State.events, h, hd]

/-- Whether a list is one that work is delivered from. -/
def ListHead.isTodo : ListHead → Bool
  | .procTodo _ | .threadTodo _ => true
  | .asyncTodo _ | .deliveredDeath _ => false

/-- Whether a list of work is of a process or of one of its threads. -/
def ofProc (s : State) (p : Id) : ListHead → Prop
  | .procTodo q | .deliveredDeath q => q = p
  | .threadTodo th => (s.threads th).map Thread.proc = some p
  | .asyncTodo _ => False

/-- The reference that owns a notification. -/
def Owns (s : State) (r : Id) (ref : Ref) (d : Id) : Prop :=
  s.refs r = some ref ∧ ref.death = some d

/-- In a history, newest first, a clear is answered only after a dead binder that was queued
before has been acknowledged. -/
def AckBefore (events : List DeathEvent) (d : Id) : Prop :=
  ∀ later earlier, events = later ++ .clearDone d :: earlier →
    .queued d ∈ earlier → .acknowledged d ∈ earlier

/-- What the history of one notification never breaks. Acknowledgement is only promised under
`ack`, that no thread exits by itself. -/
structure HistoryOk (ack : Prop) (events : List DeathEvent) (d : Id) : Prop where
  dead_queued : .deadBinder d ∈ events → .queued d ∈ events
  dead_once : events.count (.deadBinder d) ≤ 1
  done_once : events.count (.clearDone d) ≤ 1
  ack_before : ack → AckBefore events d

theorem HistoryOk.nil (ack : Prop) (d : Id) : HistoryOk ack [] d :=
  ⟨nofun, Nat.zero_le _, Nat.zero_le _, fun _ later earlier heq => by simp at heq⟩

/-- A new event is no second dead binder, no second answer, and no early answer. -/
theorem HistoryOk.cons {ack : Prop} {events : List DeathEvent} {d : Id} {e : DeathEvent}
    (h : HistoryOk ack events d)
    (hdead : e = .deadBinder d → .queued d ∈ events ∧ .deadBinder d ∉ events)
    (hdone : e = .clearDone d → .clearDone d ∉ events ∧
      (ack → .queued d ∈ events → .acknowledged d ∈ events)) : HistoryOk ack (e :: events) d := by
  refine ⟨fun hmem => ?_, ?_, ?_, fun hack later earlier heq => ?_⟩
  · rcases List.mem_cons.1 hmem with heq | hmem
    · exact List.mem_cons_of_mem _ (hdead heq.symm).1
    · exact List.mem_cons_of_mem _ (h.dead_queued hmem)
  · by_cases he : e = .deadBinder d
    · simp [he, List.count_eq_zero_of_not_mem (hdead he).2]
    · simpa [List.count_cons_of_ne he] using h.dead_once
  · by_cases he : e = .clearDone d
    · simp [he, List.count_eq_zero_of_not_mem (hdone he).1]
    · simpa [List.count_cons_of_ne he] using h.done_once
  · cases later with
    | nil =>
      obtain ⟨he, rfl⟩ := List.cons.inj heq
      exact (hdone he).2 hack
    | cons e' later => exact h.ack_before hack later earlier (List.cons.inj heq).2

/-- An event that is neither a dead binder nor an answer. -/
theorem HistoryOk.quiet {ack : Prop} {events : List DeathEvent} {d : Id} {e : DeathEvent}
    (h : HistoryOk ack events d) (hdead : e ≠ .deadBinder d) (hdone : e ≠ .clearDone d) :
    HistoryOk ack (e :: events) d :=
  h.cons (fun heq => absurd heq hdead) fun heq => absurd heq hdone

/-- The invariant of one notification. A process in `X` is being released: work of its threads
is dropped before its references go. -/
structure NoticeOk (ack : Prop) (X : Id → Prop) (s : State) (d : Id) : Prop where
  owner_unique : ∀ r ref r' ref', Owns s r ref d → Owns s r' ref' d → r = r'
  owner_death : ∀ r ref, Owns s r ref d → s.deaths d ≠ none
  linked_death : ∀ q, s.lists.home (.death d) = some q → s.deaths d ≠ none
  linked_async : ∀ n, s.lists.home (.death d) ≠ some (.asyncTodo n)
  fresh : s.lastId < d → s.deaths d = none ∧ s.events d = []
  alive_unlinked : ∀ r ref node, Owns s r ref d → s.nodes ref.node = some node →
    node.proc ≠ none → s.lists.home (.death d) = none ∧ .queued d ∉ s.events d
  owned_linked : ∀ r ref q x, Owns s r ref d → s.lists.home (.death d) = some q →
    s.deaths d = some x → x.type = .deadBinder ∧ ofProc s ref.proc q
  cleared_linked : ∀ q x, (∀ r ref, ¬Owns s r ref d) → s.lists.home (.death d) = some q →
    s.deaths d = some x →
    x.type = .deadBinderAndClear ∨ (x.type = .clearDeathNotification ∧ q.isTodo)
  linked_queued : ∀ q x, s.lists.home (.death d) = some q → s.deaths d = some x →
    x.type ≠ .clearDeathNotification → .queued d ∈ s.events d
  undelivered : ∀ q x, s.lists.home (.death d) = some q → q.isTodo → s.deaths d = some x →
    x.type ≠ .clearDeathNotification → .deadBinder d ∉ s.events d
  done_gone : .clearDone d ∈ s.events d → s.deaths d = none
  ack_cleared : ack → ∀ x, s.deaths d = some x → x.type = .clearDeathNotification →
    .queued d ∈ s.events d → .acknowledged d ∈ s.events d
  ack_owned : ack → ∀ r ref, Owns s r ref d → ¬X ref.proc → s.lists.home (.death d) = none →
    .queued d ∈ s.events d → .acknowledged d ∈ s.events d
  history : HistoryOk ack (s.events d) d

/-- The invariant of all notifications, with what it needs of the threads. -/
structure DeathInv (ack : Prop) (X : Id → Prop) (s : State) : Prop where
  notice : ∀ d, NoticeOk ack X s d
  threads_fresh : ∀ th, s.lastId < th → s.threads th = none
  threads_proc : ∀ p th thread, th ∈ (s.procs p).threads → s.threads th = some thread →
    thread.proc = p
  threads_le : ∀ p th, th ∈ (s.procs p).threads → th ≤ s.lastId
  no_bug : ∀ c, s.crashed = some c → c.isDeathBug = false

section

variable {ack : Prop} {X : Id → Prop} {s s' : State} {d : Id}

/-- A notification that is neither owned nor linked nor there. -/
theorem NoticeOk.absent (howner : ∀ r ref, ¬Owns s r ref d) (hdeath : s.deaths d = none)
    (hhome : s.lists.home (.death d) = none) (hfresh : s.lastId < d → s.events d = [])
    (hhistory : HistoryOk ack (s.events d) d) : NoticeOk ack X s d where
  owner_unique r ref _ _ ho := absurd ho (howner r ref)
  owner_death r ref ho := absurd ho (howner r ref)
  linked_death q hq := by simp [hhome] at hq
  linked_async n := by simp [hhome]
  fresh hd := ⟨hdeath, hfresh hd⟩
  alive_unlinked r ref _ ho := absurd ho (howner r ref)
  owned_linked r ref _ _ ho := absurd ho (howner r ref)
  cleared_linked q x _ hq := by simp [hhome] at hq
  linked_queued q x hq := by simp [hhome] at hq
  undelivered q x hq := by simp [hhome] at hq
  done_gone _ := hdeath
  ack_cleared _ x hx := by simp [hdeath] at hx
  ack_owned _ r ref ho := absurd ho (howner r ref)
  history := hhistory

/-- A notification that was there before. -/
theorem NoticeOk.gone (h : NoticeOk ack X s d) (howner : ∀ r ref, ¬Owns s' r ref d)
    (hdeath : s'.deaths d = none) (hhome : s'.lists.home (.death d) = none)
    (hevents : s'.events d = s.events d) (hlast : s.lastId ≤ s'.lastId) :
    NoticeOk ack X s' d :=
  .absent howner hdeath hhome
    (fun hd => hevents ▸ (h.fresh (Nat.lt_of_le_of_lt hlast hd)).2) (hevents ▸ h.history)

theorem deathInv_initial : DeathInv ack X State.initial where
  notice d := .absent (fun _ _ ho => by cases ho.1) rfl rfl (fun _ => rfl) (.nil ack d)
  threads_fresh _ _ := rfl
  threads_proc _ _ _ hmem := by cases hmem
  threads_le _ _ hmem := by cases hmem
  no_bug _ hc := by cases hc

/-! ## Frames -/

/-- What leaves one notification as it is. -/
structure SameNotice (s s' : State) (d : Id) : Prop where
  owner : ∀ r ref', Owns s' r ref' d →
    ∃ ref, Owns s r ref d ∧ ref.proc = ref'.proc ∧ ref.node = ref'.node
  owned : ∀ r ref, Owns s r ref d → ∃ r' ref', Owns s' r' ref' d
  alive : ∀ r ref' node', Owns s' r ref' d → s'.nodes ref'.node = some node' →
    node'.proc ≠ none → ∃ node, s.nodes ref'.node = some node ∧ node.proc ≠ none
  death : s'.deaths d = s.deaths d
  home : s'.lists.home (.death d) = s.lists.home (.death d)
  list : ∀ p q, s.lists.home (.death d) = some q → ofProc s p q → ofProc s' p q
  events : s'.events d = s.events d
  lastId_le : s.lastId ≤ s'.lastId

/-- A frame keeps the invariant of the notification. -/
theorem NoticeOk.frame (h : NoticeOk ack X s d) (hf : SameNotice s s' d) :
    NoticeOk ack X s' d := by
  refine ⟨?_, ?_, ?_, ?_, ?_, ?_, ?_, ?_, ?_, ?_, ?_, ?_, ?_, ?_⟩
  · intro r ref r' ref' ho ho'
    obtain ⟨ref1, ho1, -⟩ := hf.owner r ref ho
    obtain ⟨ref2, ho2, -⟩ := hf.owner r' ref' ho'
    exact h.owner_unique r ref1 r' ref2 ho1 ho2
  · intro r ref ho
    obtain ⟨ref1, ho1, -⟩ := hf.owner r ref ho
    exact hf.death ▸ h.owner_death r ref1 ho1
  · intro q hq
    exact hf.death ▸ h.linked_death q (hf.home ▸ hq)
  · intro n
    exact hf.home ▸ h.linked_async n
  · intro hd
    rw [hf.death, hf.events]
    exact h.fresh (Nat.lt_of_le_of_lt hf.lastId_le hd)
  · intro r ref' node' ho hn hp
    obtain ⟨ref, ho0, -, hnode⟩ := hf.owner r ref' ho
    obtain ⟨node, hn0, hp0⟩ := hf.alive r ref' node' ho hn hp
    rw [hf.home, hf.events]
    exact h.alive_unlinked r ref node ho0 (hnode ▸ hn0) hp0
  · intro r ref' q x ho hq hx
    obtain ⟨ref, ho0, hproc, -⟩ := hf.owner r ref' ho
    rw [hf.home] at hq
    obtain ⟨hty, hlist⟩ := h.owned_linked r ref q x ho0 hq (hf.death ▸ hx)
    exact ⟨hty, hf.list _ q hq (hproc ▸ hlist)⟩
  · intro q x hno hq hx
    refine h.cleared_linked q x (fun r ref ho => ?_) (hf.home ▸ hq) (hf.death ▸ hx)
    obtain ⟨r', ref', ho'⟩ := hf.owned r ref ho
    exact hno r' ref' ho'
  · intro q x hq hx
    rw [hf.events]
    exact h.linked_queued q x (hf.home ▸ hq) (hf.death ▸ hx)
  · intro q x hq hto hx
    rw [hf.events]
    exact h.undelivered q x (hf.home ▸ hq) hto (hf.death ▸ hx)
  · rw [hf.events, hf.death]
    exact h.done_gone
  · intro hack x hx
    rw [hf.events]
    exact h.ack_cleared hack x (hf.death ▸ hx)
  · intro hack r ref' ho hX hhome
    obtain ⟨ref, ho0, hproc, -⟩ := hf.owner r ref' ho
    rw [hf.events]
    exact h.ack_owned hack r ref ho0 (hproc ▸ hX) (hf.home ▸ hhome)
  · exact hf.events ▸ h.history

/-- What the invariant needs of the threads, kept. -/
structure ThreadFrame (s s' : State) : Prop where
  threads : ∀ th, (s'.threads th).map Thread.proc = (s.threads th).map Thread.proc
  procThreads : ∀ p, (s'.procs p).threads ⊆ (s.procs p).threads
  lastId_le : s.lastId ≤ s'.lastId
  crashed : s'.crashed = s.crashed ∨ ∃ c, s'.crashed = some c ∧ c.isDeathBug = false

theorem ThreadFrame.ofProc_iff (h : ThreadFrame s s') (p : Id) (q : ListHead) :
    ofProc s' p q ↔ ofProc s p q := by
  cases q with
  | threadTodo th => simp [ofProc, h.threads]
  | procTodo _ => exact Iff.rfl
  | asyncTodo _ => exact Iff.rfl
  | deliveredDeath _ => exact Iff.rfl

/-- A transition keeps the invariant when each notification is framed or looked at by itself. -/
theorem DeathInv.step (h : DeathInv ack X s) (ht : ThreadFrame s s')
    (hd : ∀ d, SameNotice s s' d ∨ NoticeOk ack X s' d) : DeathInv ack X s' := by
  refine ⟨fun d => ?_, fun th hth => ?_, fun p th thread' hmem hth => ?_, fun p th hmem => ?_,
    fun c hc => ?_⟩
  · exact (hd d).elim (h.notice d).frame id
  · have := ht.threads th
    rw [h.threads_fresh th (Nat.lt_of_le_of_lt ht.lastId_le hth)] at this
    simpa using this
  · have := ht.threads th
    rw [hth, Option.map_some] at this
    obtain ⟨thread, hth0, hp⟩ := Option.map_eq_some_iff.1 this.symm
    rw [← hp]
    exact h.threads_proc p th thread (ht.procThreads p hmem) hth0
  · exact Nat.le_trans (h.threads_le p th (ht.procThreads p hmem)) ht.lastId_le
  · rcases ht.crashed with heq | ⟨c', hc', hb⟩
    · exact h.no_bug c (heq ▸ hc)
    · rw [hc] at hc'
      cases hc'
      exact hb

/-- A transition that moves one notification. -/
theorem DeathInv.move (h : DeathInv ack X s) (ht : ThreadFrame s s')
    (hothers : ∀ d', d' ≠ d → SameNotice s s' d') (hok : NoticeOk ack X s' d) :
    DeathInv ack X s' := by
  refine h.step ht fun d' => ?_
  by_cases hd : d' = d
  · exact .inr (hd ▸ hok)
  · exact .inl (hothers d' hd)

/-- What leaves every notification as it is. -/
structure DeathFrame (s s' : State) : Prop where
  same : ∀ d, SameNotice s s' d
  threads : ThreadFrame s s'

theorem DeathInv.frame (h : DeathInv ack X s) (hf : DeathFrame s s') : DeathInv ack X s' :=
  h.step hf.threads fun d => .inl (hf.same d)

end

namespace ThreadFrame

theorem refl (s : State) : ThreadFrame s s :=
  ⟨fun _ => rfl, fun _ => List.Subset.refl _, Nat.le_refl _, .inl rfl⟩

theorem trans {s t u : State} (h : ThreadFrame s t) (h' : ThreadFrame t u) : ThreadFrame s u where
  threads th := (h'.threads th).trans (h.threads th)
  procThreads p := List.Subset.trans (h'.procThreads p) (h.procThreads p)
  lastId_le := Nat.le_trans h.lastId_le h'.lastId_le
  crashed := by
    rcases h'.crashed with heq | hnew
    · rw [heq]
      exact h.crashed
    · exact .inr hnew

end ThreadFrame

namespace SameNotice

variable {s s' : State} {d : Id}

/-- References and nodes are untouched. -/
theorem of_eq (hrefs : s'.refs = s.refs) (hnodes : s'.nodes = s.nodes)
    (hdeath : s'.deaths d = s.deaths d)
    (hhome : s'.lists.home (.death d) = s.lists.home (.death d)) (ht : ThreadFrame s s')
    (hevents : s'.events d = s.events d) : SameNotice s s' d where
  owner r ref ho := ⟨ref, by rwa [Owns, ← hrefs], rfl, rfl⟩
  owned r ref ho := ⟨r, ref, by rwa [Owns, hrefs]⟩
  alive r ref node _ hn hp := ⟨node, hnodes ▸ hn, hp⟩
  death := hdeath
  home := hhome
  list p q _ hq := (ht.ofProc_iff p q).2 hq
  events := hevents
  lastId_le := ht.lastId_le

theorem refl (s : State) (d : Id) : SameNotice s s d :=
  .of_eq rfl rfl rfl rfl (.refl s) rfl

theorem trans {t u : State} (h : SameNotice s t d) (h' : SameNotice t u d) : SameNotice s u d where
  owner r ref'' ho := by
    obtain ⟨ref', ho', hp', hn'⟩ := h'.owner r ref'' ho
    obtain ⟨ref, ho0, hp, hn⟩ := h.owner r ref' ho'
    exact ⟨ref, ho0, hp.trans hp', hn.trans hn'⟩
  owned r ref ho := by
    obtain ⟨r', ref', ho'⟩ := h.owned r ref ho
    exact h'.owned r' ref' ho'
  alive r ref'' node'' ho hn hp := by
    obtain ⟨ref', ho', -, hnode⟩ := h'.owner r ref'' ho
    obtain ⟨node', hn', hp'⟩ := h'.alive r ref'' node'' ho hn hp
    rw [← hnode] at hn' ⊢
    exact h.alive r ref' node' ho' hn' hp'
  death := h'.death.trans h.death
  home := h'.home.trans h.home
  list p q hq hp := h'.list p q (h.home ▸ hq) (h.list p q hq hp)
  events := h'.events.trans h.events
  lastId_le := Nat.le_trans h.lastId_le h'.lastId_le

/-- A reference is written or freed that owns another notification, before and after. -/
theorem setRef {r : Id} {y : Option Ref} (hrefs : s'.refs = Function.update s.refs r y)
    (hnew : ∀ x, y = some x → x.death ≠ some d)
    (hold : ∀ x, s.refs r = some x → x.death ≠ some d) (hnodes : s'.nodes = s.nodes)
    (ht : ThreadFrame s s') (hdeath : s'.deaths d = s.deaths d)
    (hhome : s'.lists.home (.death d) = s.lists.home (.death d))
    (hevents : s'.events d = s.events d) : SameNotice s s' d := by
  have howns : ∀ a x, Owns s' a x d ↔ Owns s a x d := by
    intro a x
    by_cases ha : a = r
    · subst ha
      simp only [Owns, hrefs, Function.update_self]
      exact ⟨fun ho => absurd ho.2 (hnew x ho.1), fun ho => absurd ho.2 (hold x ho.1)⟩
    · simp [Owns, hrefs, ha]
  exact ⟨fun a x ho => ⟨x, (howns a x).1 ho, rfl, rfl⟩, fun a x ho => ⟨a, x, (howns a x).2 ho⟩,
    fun a x node _ hn hp => ⟨node, hnodes ▸ hn, hp⟩, hdeath, hhome,
    fun p q _ hq => (ht.ofProc_iff p q).2 hq, hevents, ht.lastId_le⟩

end SameNotice

namespace DeathFrame

theorem refl (s : State) : DeathFrame s s := ⟨fun d => .refl s d, .refl s⟩

theorem trans {s t u : State} (h : DeathFrame s t) (h' : DeathFrame t u) : DeathFrame s u :=
  ⟨fun d => (h.same d).trans (h'.same d), h.threads.trans h'.threads⟩

/-- Neither references nor nodes nor notifications are touched. -/
theorem of_eq {s s' : State} (ht : ThreadFrame s s') (hrefs : s'.refs = s.refs)
    (hnodes : s'.nodes = s.nodes) (hdeaths : s'.deaths = s.deaths)
    (hhome : ∀ d, s'.lists.home (.death d) = s.lists.home (.death d))
    (hhistory : s'.history = s.history) : DeathFrame s s' :=
  ⟨fun d => .of_eq hrefs hnodes (by rw [hdeaths]) (hhome d) ht (by rw [State.events, hhistory]; rfl),
    ht⟩

theorem lists {s : State} {l : LinkedLists ListHead Work}
    (hhome : ∀ d, l.home (.death d) = s.lists.home (.death d)) :
    DeathFrame s { s with lists := l } :=
  .of_eq { ThreadFrame.refl s with } rfl rfl rfl hhome rfl

theorem crash (s : State) {c : Crash} (hc : c.isDeathBug = false) :
    DeathFrame s (s.crash c) := by
  refine .of_eq { ThreadFrame.refl s with crashed := ?_ } rfl rfl rfl (fun _ => rfl) rfl
  cases hs : s.crashed with
  | none => exact .inr ⟨c, by simp [hs], hc⟩
  | some _ => exact .inl (by simp [hs])

theorem setProc {s : State} {p : Id} {x : Proc} (hx : x.threads ⊆ (s.procs p).threads) :
    DeathFrame s (s.setProc p x) := by
  refine .of_eq { ThreadFrame.refl s with procThreads := fun q => ?_ } rfl rfl rfl (fun _ => rfl) rfl
  by_cases hq : q = p
  · simpa [hq] using hx
  · simp [hq]

/-- No node comes to life. -/
theorem setNode {s : State} {n : Id} {node node' : Node} (hn : s.nodes n = some node)
    (hproc : node'.proc ≠ none → node.proc ≠ none) : DeathFrame s (s.setNode n (some node')) := by
  refine ⟨fun d => { SameNotice.refl s d with alive := fun r ref m _ hm hp => ?_ },
    { ThreadFrame.refl s with }⟩
  by_cases heq : ref.node = n
  · simp only [State.setNode, heq, Function.update_self, Option.some.injEq] at hm
    subst hm
    exact ⟨node, heq ▸ hn, hproc hp⟩
  · exact ⟨m, by simpa [heq] using hm, hp⟩

/-- The counts of a reference are written. -/
theorem setRef {s : State} {r : Id} {ref ref' : Ref} (hr : s.refs r = some ref)
    (hproc : ref'.proc = ref.proc) (hnode : ref'.node = ref.node) (hdeath : ref'.death = ref.death) :
    DeathFrame s (s.setRef r (some ref')) := by
  have howns : ∀ a x d, Owns (s.setRef r (some ref')) a x d →
      ∃ y, Owns s a y d ∧ y.proc = x.proc ∧ y.node = x.node := by
    intro a x d ho
    by_cases ha : a = r
    · subst ha
      simp only [Owns, State.setRef, Function.update_self, Option.some.injEq] at ho
      obtain ⟨rfl, hd⟩ := ho
      exact ⟨ref, ⟨hr, hdeath ▸ hd⟩, hproc.symm, hnode.symm⟩
    · exact ⟨x, by simpa [Owns, ha] using ho, rfl, rfl⟩
  refine ⟨fun d => { SameNotice.refl s d with
    owner := fun a x ho => howns a x d ho, owned := fun a x ho => ?_,
    alive := fun a x node ho hn hp => ⟨node, hn, hp⟩ }, { ThreadFrame.refl s with }⟩
  by_cases ha : a = r
  · subst ha
    have hx : x = ref := Option.some.inj (ho.1.symm.trans hr)
    exact ⟨a, ref', by simp [Owns, hdeath, ← hx, ho.2]⟩
  · exact ⟨a, x, by simpa [Owns, ha] using ho⟩

/-- Work that is no notification is linked or unlinked. -/
theorem work {s : State} {w : Work} (hw : w.isDeath = false) :
    (∀ q, DeathFrame s (s.listAddTail q w)) ∧ DeathFrame s (s.listDel w) := by
  have hne : ∀ d, Work.death d ≠ w := by
    rintro d rfl
    cases hw
  exact ⟨fun q => .lists fun d => by simp [hne d], .lists fun d => by simp [hne d]⟩

theorem freeNode (n : Id) (node : Node) (by_ : FreedBy) (s : State) :
    DeathFrame s (freeNode n node by_ s) := by
  have hgone : ∀ (s : State) (x : List (Id × Node × FreedBy)),
      DeathFrame s { s.setNode n none with freedNodes := x } := by
    intro s x
    refine ⟨fun d => { SameNotice.refl s d with alive := fun r ref m _ hm hp => ?_ },
      { ThreadFrame.refl s with }⟩
    by_cases heq : ref.node = n
    · simp [heq] at hm
    · exact ⟨m, by simpa [heq] using hm, hp⟩
  have hdel : DeathFrame s (s.listDel (.node n)) := (DeathFrame.work rfl).2
  unfold Binder.freeNode
  cases node.proc with
  | none => exact hdel.trans (hgone _ _)
  | some p =>
    have hproc : DeathFrame (s.listDel (.node n)) ((s.listDel (.node n)).setProc p
        { (s.listDel (.node n)).procs p with nodes := ((s.listDel (.node n)).procs p).nodes.erase n }) :=
      .setProc (List.Subset.refl _)
    exact (hdel.trans hproc).trans (hgone _ _)

theorem setThread {s : State} {th : Id} {x y : Thread} (hth : s.threads th = some y)
    (hproc : x.proc = y.proc) : DeathFrame s (s.setThread th (some x)) := by
  refine .of_eq { ThreadFrame.refl s with threads := fun a => ?_ } rfl rfl rfl (fun _ => rfl) rfl
  by_cases ha : a = th
  · simp [ha, hth, hproc]
  · simp [ha]

end DeathFrame

/-- The call layer leaves notifications alone. -/
theorem CallFrame.deathFrame {s s' : State} (h : CallFrame s s') : DeathFrame s s' := by
  have ht : ThreadFrame s s' :=
    ⟨h.threads, fun p => by
      have hthreads : (s'.procs p).withoutBuffers.threads = (s.procs p).withoutBuffers.threads := by
        rw [h.procs]
      exact fun _ hth => hthreads ▸ hth, h.lastId_le, h.crashed⟩
  have hhome : ∀ d, s'.lists.home (.death d) = s.lists.home (.death d) := by
    intro d
    refine Option.ext fun q => ?_
    have hfilter := congrArg (Work.death d ∈ ·) (h.lists q)
    simpa [List.mem_filter, Work.isDeath, LinkedLists.mem_items] using hfilter
  refine ⟨fun d => ?_, ht⟩
  refine ⟨fun r ref ho => ⟨ref, by rwa [Owns, ← h.refs], rfl, rfl⟩,
    fun r ref ho => ⟨r, ref, by rwa [Owns, h.refs]⟩, fun r ref node' ho hn hp => ?_,
    by rw [h.deaths], hhome d, fun p q _ hq => (ht.ofProc_iff p q).2 hq,
    by rw [State.events, h.history]; rfl, h.lastId_le⟩
  have hnode := h.nodes ref.node
  rw [hn, Option.map_some] at hnode
  obtain ⟨node, hn0, heq⟩ := Option.map_eq_some_iff.1 hnode.symm
  have hproc : node.withoutAsync.proc = node'.withoutAsync.proc := by rw [heq]
  exact ⟨node, hn0, fun hnone => hp (hproc.symm.trans hnone)⟩

/-! ## The reference layer -/

theorem deathFrame_binderDecNode (n : Id) (strong internal : Bool) (s : State) :
    DeathFrame s (binderDecNode n strong internal s) := by
  cases hn : s.nodes n with
  | none =>
    have : binderDecNode n strong internal s = s.crash .freedNode := by
      simp only [binderDecNode, hn]
    rw [this]
    exact .crash s rfl
  | some node =>
    have hset : DeathFrame s (s.setNode n (some (node.decremented strong internal))) :=
      .setNode hn (by rw [decremented_proc]; exact id)
    rcases binderDecNode_cases hn strong internal with heq | ⟨p, -, heq⟩ | ⟨-, -, -, heq⟩
    · rw [heq]
      exact hset
    · rw [heq]
      exact hset.trans ((DeathFrame.work rfl).1 _)
    · rw [heq]
      exact hset.trans (.freeNode ..)

theorem deathFrame_binderIncNode (n : Id) (strong internal : Bool) (target : Option ListHead)
    (s : State) : DeathFrame s (binderIncNode n strong internal target s).1 := by
  cases hn : s.nodes n with
  | none =>
    have : (binderIncNode n strong internal target s).1 = s.crash .freedNode := by
      simp only [binderIncNode, hn]
    rw [this]
    exact .crash s rfl
  | some node =>
    have hset : DeathFrame s (s.setNode n (some (node.incremented strong internal))) :=
      .setNode hn (by
        have hproc : (node.incremented strong internal).proc = node.proc :=
          congrArg Prod.fst (incremented_key node strong internal)
        rw [hproc]
        exact id)
    rcases binderIncNode_cases hn strong internal target with
      ⟨heq, -⟩ | heq | ⟨-, heq⟩ | ⟨q, -, heq⟩
    · rw [heq]
      exact .refl s
    · rw [heq]
      exact hset
    · rw [heq]
      exact hset
    · rw [heq]
      exact hset.trans ((DeathFrame.work rfl).1 _)

/-- A new node is unreferenced, so no notification waits for it. -/
theorem RefInv.deathFrame_newNode {s : State} (h : RefInv s) (p ptr cookie : Nat)
    (acceptFds memory : Bool) :
    DeathFrame s (binderNewNode p ptr cookie acceptFds memory s).1 := by
  unfold binderNewNode
  split
  · exact .refl s
  split
  · have ht : ThreadFrame s (linkNode p (.fresh p ptr cookie acceptFds) s) := by
      refine { ThreadFrame.refl s with lastId_le := Nat.le_succ _, procThreads := fun q => ?_ }
      by_cases hq : q = p
      · simp [linkNode, hq]
      · simp [linkNode, hq]
    refine ⟨fun d => ⟨fun r ref ho => ⟨ref, ho, rfl, rfl⟩, fun r ref ho => ⟨r, ref, ho⟩,
      fun r ref node ho hn hp => ?_, rfl, rfl, fun p q _ hq => (ht.ofProc_iff p q).2 hq, rfl,
      Nat.le_succ _⟩, ht⟩
    obtain ⟨node0, hn0, -⟩ := h.node_of_ref ho.1
    have hne : ref.node ≠ s.lastId + 1 := fun heq => by
      rw [heq, h.nodes_fresh _ (Nat.lt_succ_self _)] at hn0
      cases hn0
    exact ⟨node, by simpa [linkNode, hne] using hn, hp⟩
  · exact .refl s

/-- A new reference owns no notification. -/
theorem deathFrame_linkRef {s : State} {n : Id} {node : Node} (hn : s.nodes n = some node)
    (hfresh : s.refs (s.lastId + 1) = none) (p desc : Nat) :
    DeathFrame s (linkRef p n desc node s) := by
  have ht : ThreadFrame s (linkRef p n desc node s) := by
    refine { ThreadFrame.refl s with lastId_le := Nat.le_succ _, procThreads := fun q => ?_ }
    by_cases hq : q = p
    · simp [linkRef, hq]
    · simp [linkRef, hq]
  have howns : ∀ r ref d, Owns (linkRef p n desc node s) r ref d ↔ Owns s r ref d := by
    intro r ref d
    by_cases hr : r = s.lastId + 1
    · subst hr
      simp only [Owns, hfresh]
      simp only [linkRef, State.setNode, State.setProc, State.setRef, Function.update_self]
      constructor
      · rintro ⟨heq, hd⟩
        cases heq
        cases hd
      · rintro ⟨heq, -⟩
        cases heq
    · simp [Owns, linkRef, hr]
  refine ⟨fun d => ⟨fun r ref ho => ⟨ref, (howns r ref d).1 ho, rfl, rfl⟩,
    fun r ref ho => ⟨r, ref, (howns r ref d).2 ho⟩, fun r ref node' ho hn' hp => ?_, rfl, rfl,
    fun p q _ hq => (ht.ofProc_iff p q).2 hq, rfl, Nat.le_succ _⟩, ht⟩
  by_cases heq : ref.node = n
  · simp only [linkRef, State.setNode, heq, Function.update_self, Option.some.injEq] at hn'
    subst hn'
    exact ⟨node, heq ▸ hn, hp⟩
  · exact ⟨node', by simpa [linkRef, heq] using hn', hp⟩

theorem RefInv.deathFrame_getRefForNode {s : State} (h : RefInv s) (p n : Id) (memory : Bool) :
    DeathFrame s (binderGetRefForNode p n memory s).1 := by
  rcases h.getRefForNode_cases p n memory with
    ⟨r, ref, -, -, -, heq⟩ | heq | heq | ⟨node, desc, hn, -, -, heq⟩
  · rw [heq]
    exact .refl s
  · rw [heq]
    exact .refl s
  · rw [heq]
    exact .crash s rfl
  · rw [heq]
    exact deathFrame_linkRef hn (h.refs_fresh _ (Nat.lt_succ_self _)) p desc

theorem RefInv.deathFrame_incRef {s : State} (h : RefInv s) (r : Id) (strong : Bool)
    (target : Option ListHead) : DeathFrame s (binderIncRef r strong target s).1 := by
  cases hr : s.refs r with
  | none =>
    have : (binderIncRef r strong target s).1 = s.crash .freedRef := by
      simp only [binderIncRef, hr]
    rw [this]
    exact .crash s rfl
  | some ref =>
    have hsame : (ref.incremented strong).proc = ref.proc ∧
        (ref.incremented strong).node = ref.node ∧
        (ref.incremented strong).death = ref.death := by
      cases strong <;> exact ⟨rfl, rfl, rfl⟩
    obtain ⟨node, hn, -⟩ := h.node_of_ref hr
    rcases binderIncRef_cases hr hn strong target with
      ⟨heq, -⟩ | ⟨-, heq⟩ | ⟨-, l, heq, hl⟩
    · rw [heq]
      unfold State.refuse
      split
      · exact .of_eq { ThreadFrame.refl s with } rfl rfl rfl (fun _ => rfl) rfl
      · exact .refl s
    · rw [heq]
      exact .setRef hr hsame.1 hsame.2.1 hsame.2.2
    rw [heq]
    have hlist : DeathFrame s { s with lists := l } := by
      rcases hl with rfl | ⟨q, -, rfl⟩
      · exact .refl s
      · exact (DeathFrame.work rfl).1 q
    have hproc : (node.incremented strong true).proc = node.proc :=
      congrArg Prod.fst (incremented_key node strong true)
    have hset : DeathFrame { s with lists := l }
        ({ s with lists := l }.setNode ref.node (some (node.incremented strong true))) :=
      .setNode hn (by rw [hproc]; exact id)
    exact (hlist.trans hset).trans (.setRef hr hsame.1 hsame.2.1 hsame.2.2)

/-- The reference that goes takes its notification along. -/
theorem DeathInv.dropRef {ack : Prop} {X : Id → Prop} {s : State} (h : DeathInv ack X s) {r : Id}
    {ref : Ref} (hr : s.refs r = some ref) :
    DeathInv ack X ((freeDeath ref.death s).setRef r none) := by
  cases hdeath : ref.death with
  | none =>
    refine h.step { ThreadFrame.refl s with } fun d => .inl ?_
    refine .setRef rfl (fun x hx => by cases hx) (fun x hx => ?_) rfl { ThreadFrame.refl s with }
      rfl rfl rfl
    rw [Option.some.inj (hx.symm.trans hr), hdeath]
    exact nofun
  | some d0 =>
    have howner : Owns s r ref d0 := ⟨hr, hdeath⟩
    refine h.step { ThreadFrame.refl s with } fun d => ?_
    by_cases hd : d = d0
    · subst hd
      refine .inr ((h.notice d).gone (fun a x ho => ?_) (by simp [freeDeath])
        (by simp [freeDeath]) rfl (Nat.le_refl _))
      by_cases ha : a = r
      · simp [Owns, ha] at ho
      · have ho' : Owns s a x d := by simpa [Owns, ha, freeDeath] using ho
        exact ha ((h.notice d).owner_unique a x r ref ho' howner)
    · refine .inl (.setRef rfl (fun x hx => by cases hx) (fun x hx => ?_) rfl
        { ThreadFrame.refl s with } (by simp [freeDeath, hd]) (by simp [freeDeath, hd]) rfl)
      rw [Option.some.inj (hx.symm.trans hr), hdeath]
      exact fun heq => hd (Option.some.inj heq).symm

theorem DeathInv.deleteRef {ack : Prop} {X : Id → Prop} {s : State} (h : DeathInv ack X s)
    (href : RefInv s) (r : Id) : DeathInv ack X (binderDeleteRef r s) := by
  cases hr : s.refs r with
  | none =>
    have : binderDeleteRef r s = s.crash .freedRef := by simp only [binderDeleteRef, hr]
    rw [this]
    exact h.frame (.crash s rfl)
  | some ref =>
    obtain ⟨node, hn, hmem⟩ := href.node_of_ref hr
    generalize hs1 : s.setProc ref.proc
      { s.procs ref.proc with
        refsByDesc := (s.procs ref.proc).refsByDesc.erase r
        refsByNode := (s.procs ref.proc).refsByNode.erase r } = s1
    have h1 : DeathFrame s s1 := by
      rw [← hs1]
      exact .setProc (List.Subset.refl _)
    have hn1 : s1.nodes ref.node = some node := by rw [← hs1]; exact hn
    obtain ⟨l, hunlink, hl⟩ := unlinkRef_decNode hn1 hmem (decide (ref.strong ≠ 0))
    have hlist : DeathFrame s1 { s1 with lists := l } := by
      rcases hl with rfl | ⟨q, -, rfl⟩
      · exact .refl s1
      · exact (DeathFrame.work rfl).1 _
    have hset : DeathFrame { s1 with lists := l } ({ s1 with lists := l }.setNode ref.node
        (some (node.withoutRef r (decide (ref.strong ≠ 0))))) :=
      .setNode hn1 (by
        have : (node.withoutRef r (decide (ref.strong ≠ 0))).proc = node.proc :=
          congrArg Prod.fst (withoutRef_key node r _)
        rw [this]
        exact id)
    have h2 := (h1.trans hlist).trans hset
    generalize hs2 : ({ s1 with lists := l }.setNode ref.node
      (some (node.withoutRef r (ref.strong ≠ 0)))) = s2 at hunlink h2
    have hdelete : binderDeleteRef r s =
        (freeDeath ref.death (binderDecNode ref.node false true s2)).setRef r none := by
      rw [← hunlink, ← hs1]
      simp only [binderDeleteRef, hr, decide_eq_true_eq]
    rw [hdelete]
    have hdec := h2.trans (deathFrame_binderDecNode ref.node false true s2)
    refine (h.frame hdec).dropRef ?_
    rw [(binderDecNode_refs ref.node false true s2).1, ← hs2, ← hs1]
    exact hr

theorem DeathInv.decRef {ack : Prop} {X : Id → Prop} {s : State} (h : DeathInv ack X s)
    (href : RefInv s) (r : Id) (strong : Bool) : DeathInv ack X (binderDecRef r strong s) := by
  cases hr : s.refs r with
  | none =>
    have : binderDecRef r strong s = s.crash .freedRef := by simp only [binderDecRef, hr]
    rw [this]
    exact h.frame (.crash s rfl)
  | some ref =>
    have hlow : DeathFrame s (lowerRef r ref strong s) := by
      have hset : DeathFrame s (s.setRef r (some (ref.decremented strong))) :=
        .setRef hr (by cases strong <;> rfl) (by cases strong <;> rfl) (by cases strong <;> rfl)
      unfold lowerRef
      simp only
      split
      · exact hset.trans (deathFrame_binderDecNode ..)
      · exact hset
    rw [binderDecRef_eq hr]
    split
    · exact h
    · rename_i hcount
      split
      · exact (h.frame hlow).deleteRef (href.lowerRef hr hcount) r
      · exact h.frame hlow

/-- Every call of the reference layer keeps both invariants. -/
theorem refClosed_deathInv (ack : Prop) (X : Id → Prop) :
    RefClosed fun s => RefInv s ∧ DeathInv ack X s where
  crash s h := ⟨h.1.keep (.crash s _), h.2.frame (.crash s rfl)⟩
  newNode _ _ _ _ _ _ h := ⟨h.1.keep (h.1.newNode ..), h.2.frame (h.1.deathFrame_newNode ..)⟩
  takeRef p n memory strong target s h := by
    have hget := h.1.getRefForNode p n memory
    have hframe := h.2.frame (h.1.deathFrame_getRefForNode p n memory)
    unfold takeRef
    generalize binderGetRefForNode p n memory s = out at hget hframe ⊢
    obtain ⟨s1, found⟩ := out
    cases found with
    | none => exact ⟨hget.1, hframe⟩
    | some r => exact ⟨hget.1.incRef .., hframe.frame (hget.1.deathFrame_incRef ..)⟩
  incNode n _ s h := ⟨h.1.keep (keeps_binderIncNode s n (by simp) none),
    h.2.frame (deathFrame_binderIncNode ..)⟩
  decNode n _ _ h := ⟨h.1.keep (h.1.decNode n (by simp)), h.2.frame (deathFrame_binderDecNode ..)⟩
  decRef r strong _ h := ⟨h.1.decRef r strong, h.2.decRef h.1 r strong⟩

end AndroidKernel.Binder
