import AndroidKernel.Binder.Deaths

/-!
# Death notifications over whole runs

Each command and each delivery moves one notification from one phase of its life to another.
A released process first drops the work of its threads and then its references.
-/

namespace AndroidKernel.Binder

open Library

section Phases

variable {ack : Prop} {X : Id → Prop} {s : State} {d : Id} {x : Death}

/-- An owned notification that is linked: a dead binder. -/
theorem NoticeOk.ownedLinked {r : Id} {ref : Ref} {q : ListHead}
    (howner : ∀ a y, Owns s a y d ↔ a = r ∧ y = ref) (hdeath : s.deaths d = some x)
    (hhome : s.lists.home (.death d) = some q) (hlast : d ≤ s.lastId)
    (hnode : ∀ node, s.nodes ref.node = some node → node.proc = none)
    (hq : ofProc s ref.proc q) (htype : x.type = .deadBinder) (hqueued : .queued d ∈ s.events d)
    (hundelivered : q.isTodo → .deadBinder d ∉ s.events d) (hdone : .clearDone d ∉ s.events d)
    (hhistory : HistoryOk ack (s.events d) d) : NoticeOk ack X s d where
  owner_unique a y a' y' ho ho' := ((howner a y).1 ho).1.trans ((howner a' y').1 ho').1.symm
  owner_death _ _ _ := by simp [hdeath]
  linked_death _ _ := by simp [hdeath]
  linked_async n := by
    rw [hhome]
    rintro heq
    rw [Option.some.inj heq] at hq
    exact hq
  fresh hd := absurd hd (Nat.not_lt.2 hlast)
  alive_unlinked a y node ho hn hp := by
    rw [((howner a y).1 ho).2] at hn
    exact absurd (hnode node hn) hp
  owned_linked a y q' x' ho hq' hx' := by
    rw [hhome] at hq'
    rw [hdeath] at hx'
    cases hq'
    cases hx'
    rw [((howner a y).1 ho).2]
    exact ⟨htype, hq⟩
  cleared_linked _ _ hno := absurd ((howner r ref).2 ⟨rfl, rfl⟩) (hno r ref)
  linked_queued _ _ _ _ _ := hqueued
  undelivered q' _ hq' htodo _ _ := by
    rw [hhome] at hq'
    cases hq'
    exact hundelivered htodo
  done_gone hmem := absurd hmem hdone
  ack_cleared _ x' hx' hty := by
    rw [hdeath] at hx'
    cases hx'
    simp [htype] at hty
  ack_owned _ _ _ _ _ hnone := by simp [hhome] at hnone
  history := hhistory

/-- An owned notification that is not linked. -/
theorem NoticeOk.ownedUnlinked {r : Id} {ref : Ref}
    (howner : ∀ a y, Owns s a y d ↔ a = r ∧ y = ref) (hdeath : s.deaths d = some x)
    (hhome : s.lists.home (.death d) = none) (hlast : d ≤ s.lastId)
    (hnode : ∀ node, s.nodes ref.node = some node → node.proc ≠ none → .queued d ∉ s.events d)
    (hdone : .clearDone d ∉ s.events d)
    (hack : .queued d ∈ s.events d → .acknowledged d ∈ s.events d)
    (hhistory : HistoryOk ack (s.events d) d) : NoticeOk ack X s d where
  owner_unique a y a' y' ho ho' := ((howner a y).1 ho).1.trans ((howner a' y').1 ho').1.symm
  owner_death _ _ _ := by simp [hdeath]
  linked_death q hq := by simp [hhome] at hq
  linked_async n := by simp [hhome]
  fresh hd := absurd hd (Nat.not_lt.2 hlast)
  alive_unlinked a y node ho hn hp := by
    rw [((howner a y).1 ho).2] at hn
    exact ⟨hhome, hnode node hn hp⟩
  owned_linked a y q _ _ hq := by simp [hhome] at hq
  cleared_linked _ _ hno := absurd ((howner r ref).2 ⟨rfl, rfl⟩) (hno r ref)
  linked_queued q _ hq := by simp [hhome] at hq
  undelivered q _ hq := by simp [hhome] at hq
  done_gone hmem := absurd hmem hdone
  ack_cleared _ _ _ _ := hack
  ack_owned _ _ _ _ _ _ := hack
  history := hhistory

/-- A cleared notification that is linked: a dead binder is outstanding, or the answer is
queued. -/
theorem NoticeOk.cleared {q : ListHead} (howner : ∀ a y, ¬Owns s a y d)
    (hdeath : s.deaths d = some x) (hhome : s.lists.home (.death d) = some q)
    (hasync : ∀ n, q ≠ .asyncTodo n) (hlast : d ≤ s.lastId)
    (htype : (x.type = .deadBinderAndClear ∧ .queued d ∈ s.events d ∧
        (q.isTodo → .deadBinder d ∉ s.events d)) ∨
      (x.type = .clearDeathNotification ∧ q.isTodo ∧
        (ack → .queued d ∈ s.events d → .acknowledged d ∈ s.events d)))
    (hdone : .clearDone d ∉ s.events d) (hhistory : HistoryOk ack (s.events d) d) :
    NoticeOk ack X s d where
  owner_unique a y _ _ ho := absurd ho (howner a y)
  owner_death a y ho := absurd ho (howner a y)
  linked_death _ _ := by simp [hdeath]
  linked_async n := by
    rw [hhome]
    exact fun heq => hasync n (Option.some.inj heq)
  fresh hd := absurd hd (Nat.not_lt.2 hlast)
  alive_unlinked a y _ ho := absurd ho (howner a y)
  owned_linked a y _ _ ho := absurd ho (howner a y)
  cleared_linked q' x' _ hq' hx' := by
    rw [hhome] at hq'
    rw [hdeath] at hx'
    cases hq'
    cases hx'
    exact htype.imp And.left fun h => ⟨h.1, h.2.1⟩
  linked_queued q' x' _ hx' hty := by
    rw [hdeath] at hx'
    cases hx'
    rcases htype with h | h
    · exact h.2.1
    · exact absurd h.1 hty
  undelivered q' x' hq' htodo hx' hty := by
    rw [hhome] at hq'
    rw [hdeath] at hx'
    cases hq'
    cases hx'
    rcases htype with h | h
    · exact h.2.2 htodo
    · exact absurd h.1 hty
  done_gone hmem := absurd hmem hdone
  ack_cleared hack x' hx' hty := by
    rw [hdeath] at hx'
    cases hx'
    rcases htype with h | h
    · simp [h.1] at hty
    · exact h.2.2 hack
  ack_owned _ a y ho := absurd ho (howner a y)
  history := hhistory

end Phases

/-! ## Commands -/

section Commands

variable {ack : Prop} {X : Id → Prop} {s : State} {th : Id} {thread : Thread}

/-- A reference gains or loses a notification: no other notification moves. -/
theorem sameNotice_setDeath {s s' : State} {r : Id} {ref ref' : Ref} {d d' : Id}
    (hr : s.refs r = some ref) (hrefs : s'.refs = Function.update s.refs r (some ref'))
    (hold : ∀ e, ref.death = some e → e = d) (hnew : ∀ e, ref'.death = some e → e = d)
    (hnodes : s'.nodes = s.nodes) (ht : ThreadFrame s s') (hd : d' ≠ d)
    (hdeath : s'.deaths d' = s.deaths d')
    (hhome : s'.lists.home (.death d') = s.lists.home (.death d'))
    (hevents : s'.events d' = s.events d') : SameNotice s s' d' := by
  refine .setRef hrefs (fun y hy => ?_) (fun y hy => ?_) hnodes ht hdeath hhome hevents
  · cases hy
    exact fun heq => hd (hnew d' heq)
  · rw [Option.some.inj (hy.symm.trans hr)]
    exact fun heq => hd (hold d' heq)

/-- The list for death work is one of the process. -/
theorem ofProc_deathList (hth : s.threads th = some thread) :
    ofProc s thread.proc (deathList th thread) := by
  unfold deathList
  split
  · simp [ofProc, hth]
  · exact rfl

theorem isTodo_deathList (th : Id) (thread : Thread) : (deathList th thread).isTodo := by
  unfold deathList
  split
  · rfl
  · rfl

/-- A fresh notification of a reference, the second half of `BC_REQUEST_DEATH_NOTIFICATION`:
it waits for its node, or is queued at once when the node is dead. -/
theorem DeathInv.newNotice (h : DeathInv ack X s) {r : Id} {ref : Ref} {node : Node}
    (hr : s.refs r = some ref) (hn : s.nodes ref.node = some node) (hdeath : ref.death = none)
    {s' : State} {x : Death} {home : Option ListHead}
    (hrefs : s'.refs = Function.update s.refs r (some { ref with death := some (s.lastId + 1) }))
    (hnodes : s'.nodes = s.nodes) (ht : ThreadFrame s s') (hlast : s'.lastId = s.lastId + 1)
    (hdeaths : s'.deaths = Function.update s.deaths (s.lastId + 1) (some x))
    (hhome : s'.lists.home = Function.update s.lists.home (.death (s.lastId + 1)) home)
    (hcase : (node.proc = none ∧ x.type = .deadBinder ∧
        (∃ q, home = some q ∧ ofProc s ref.proc q) ∧
        s'.history = .queued (s.lastId + 1) :: .requested (s.lastId + 1) :: s.history) ∨
      (node.proc ≠ none ∧ home = none ∧ s'.history = .requested (s.lastId + 1) :: s.history)) :
    DeathInv ack X s' := by
  have hfresh := (h.notice (s.lastId + 1)).fresh (Nat.lt_succ_self _)
  have hnone : ∀ a y, ¬Owns s a y (s.lastId + 1) := fun a y ho =>
    (h.notice _).owner_death a y ho hfresh.1
  have howns : ∀ a y, Owns s' a y (s.lastId + 1) ↔
      a = r ∧ y = { ref with death := some (s.lastId + 1) } := by
    intro a y
    by_cases ha : a = r
    · simp only [Owns, hrefs, ha, Function.update_self, Option.some.injEq, true_and]
      exact ⟨fun ho => ho.1.symm, fun heq => ⟨heq.symm, heq ▸ rfl⟩⟩
    · simp only [Owns, hrefs, Function.update_of_ne ha, ha, false_and, iff_false]
      exact hnone a y
  have hothers : (∀ d', d' ≠ s.lastId + 1 → s'.events d' = s.events d') →
      ∀ d', d' ≠ s.lastId + 1 → SameNotice s s' d' := fun hevents d' hd =>
    sameNotice_setDeath hr hrefs (by simp [hdeath]) (by simp) hnodes ht hd
      (by rw [hdeaths, Function.update_of_ne hd]) (by simp [hhome, hd]) (hevents d' hd)
  rcases hcase with ⟨hdead, htype, ⟨q, rfl, hq⟩, hhist⟩ | ⟨halive, rfl, hhist⟩
  · have hevents : s'.events (s.lastId + 1) =
        [.queued (s.lastId + 1), .requested (s.lastId + 1)] := by
      have := hfresh.2
      simp only [State.events] at this ⊢
      simp [hhist, this]
    refine h.move ht (hothers fun d' hd => ?_) ?_
    · simp [State.events, hhist, Ne.symm hd]
    refine .ownedLinked (x := x) howns (by simp [hdeaths]) (by simp [hhome])
      (Nat.le_of_eq hlast.symm) (fun node' hn' => ?_) ((ht.ofProc_iff _ _).2 hq) htype ?_ ?_ ?_ ?_
    · rw [hnodes] at hn'
      rw [← Option.some.inj (hn.symm.trans hn')]
      exact hdead
    · simp [hevents]
    · simp [hevents]
    · simp [hevents]
    · rw [hevents]
      exact ((HistoryOk.nil ack _).quiet (by simp) (by simp)).quiet (by simp) (by simp)
  have hevents : s'.events (s.lastId + 1) = [.requested (s.lastId + 1)] := by
    have := hfresh.2
    simp only [State.events] at this ⊢
    simp [hhist, this]
  refine h.move ht (hothers fun d' hd => ?_) ?_
  · simp [State.events, hhist, Ne.symm hd]
  · refine .ownedUnlinked (x := x) howns (by simp [hdeaths]) (by simp [hhome])
      (Nat.le_of_eq hlast.symm) ?_ ?_ ?_ ?_
    · simp [hevents]
    · simp [hevents]
    · simp [hevents]
    · rw [hevents]
      exact (HistoryOk.nil ack _).quiet (by simp) (by simp)

theorem DeathInv.requestDeath (h : DeathInv ack X s) (href : RefInv s)
    (hth : s.threads th = some thread) (target cookie : Nat) (memory : Bool) :
    DeathInv ack X (requestDeath th thread target cookie memory s) := by
  unfold Binder.requestDeath
  cases hget : binderGetRef s thread.proc target with
  | none => exact h
  | some r =>
    obtain ⟨ref, hr, hproc, -⟩ := href.getRef hget
    obtain ⟨node, hn, -⟩ := href.node_of_ref hr
    simp only [hr]
    cases hdeath : ref.death with
    | some d => exact h
    | none =>
      cases memory with
      | false =>
        exact h.frame (.setThread (x := { thread with returnError := .error }) hth rfl)
      | true =>
        have ht : ∀ s' : State, s'.threads = s.threads → s'.procs = s.procs →
            s'.lastId = s.lastId + 1 → s'.crashed = s.crashed → ThreadFrame s s' :=
          fun s' h1 h2 h3 h4 => ⟨fun _ => by rw [h1], fun _ => by rw [h2]; exact fun _ => id,
            h3 ▸ Nat.le_succ _, .inl h4⟩
        simp only [Option.isSome_none, Bool.false_eq_true, if_false, if_true]
        simp only [State.note, State.setRef, hn]
        split
        · rename_i hdead
          exact h.newNotice (x := ⟨cookie, .deadBinder⟩) hr hn hdeath rfl rfl
            (ht _ rfl rfl rfl rfl) rfl rfl rfl
            (.inl ⟨hdead, rfl, ⟨_, rfl, hproc ▸ ofProc_deathList hth⟩, rfl⟩)
        rename_i halive
        have hhome : s.lists.home (.death (s.lastId + 1)) = none := by
          cases hhome : s.lists.home (.death (s.lastId + 1)) with
          | none => rfl
          | some q =>
            exact absurd ((h.notice _).fresh (Nat.lt_succ_self _)).1
              ((h.notice _).linked_death q hhome)
        exact h.newNotice (x := ⟨cookie, .unset⟩) hr hn hdeath rfl rfl
          (ht _ rfl rfl rfl rfl) rfl rfl (by simp [← hhome]) (.inr ⟨halive, rfl, rfl⟩)

/-- An owned notification has not been answered. -/
theorem NoticeOk.not_done {d : Id} {x : Death} (h : NoticeOk ack X s d)
    (hdeath : s.deaths d = some x) : .clearDone d ∉ s.events d := fun hmem => by
  simp [h.done_gone hmem] at hdeath

theorem NoticeOk.le_lastId {d : Id} {x : Death} (h : NoticeOk ack X s d)
    (hdeath : s.deaths d = some x) : d ≤ s.lastId := by
  refine Nat.le_of_not_lt fun hd => ?_
  rw [(h.fresh hd).1] at hdeath
  cases hdeath

/-- The type assertion of `BC_CLEAR_DEATH_NOTIFICATION` holds, since a linked notification that
a reference still owns is a dead binder. -/
theorem DeathInv.clearDeath (h : DeathInv ack X s) (href : RefInv s)
    (hth : s.threads th = some thread) (hX : ∀ p, ¬X p) (target cookie : Nat) :
    DeathInv ack X (clearDeath th thread target cookie s) := by
  unfold Binder.clearDeath
  cases hget : binderGetRef s thread.proc target with
  | none => exact h
  | some r =>
    obtain ⟨ref, hr, -⟩ := href.getRef hget
    simp only [hr]
    cases hd : ref.death with
    | none => exact h
    | some d =>
      have howner : Owns s r ref d := ⟨hr, hd⟩
      have hok := h.notice d
      cases hx : s.deaths d with
      | none => exact absurd hx (hok.owner_death r ref howner)
      | some x =>
        simp only [hx]
        split
        · exact h
        have hnone : ∀ s' : State, s'.refs =
            Function.update s.refs r (some { ref with death := none }) →
            ∀ a y, ¬Owns s' a y d := by
          intro s' hrefs a y ho
          by_cases ha : a = r
          · simp only [Owns, hrefs, ha, Function.update_self, Option.some.injEq] at ho
            rw [← ho.1] at ho
            cases ho.2
          · have ho' : Owns s a y d := by simpa [Owns, hrefs, ha] using ho
            exact ha (hok.owner_unique a y r ref ho' howner)
        have hmove : ∀ s' : State,
            s'.refs = Function.update s.refs r (some { ref with death := none }) →
            s'.nodes = s.nodes → ThreadFrame s s' → s'.history = .cleared d :: s.history →
            (∀ d', d' ≠ d → s'.deaths d' = s.deaths d' ∧
              s'.lists.home (.death d') = s.lists.home (.death d')) →
            NoticeOk ack X s' d → DeathInv ack X s' := by
          intro s' hrefs hnodes ht hhist hother hok'
          refine h.move ht (fun d' hd' => ?_) hok'
          refine sameNotice_setDeath hr hrefs ?_ (by rintro _ ⟨⟩) hnodes ht hd' (hother d' hd').1
            (hother d' hd').2 ?_
          · intro e he
            rw [hd] at he
            exact (Option.some.inj he).symm
          · simp [State.events, hhist, Ne.symm hd']
        have hhist : HistoryOk ack (.cleared d :: s.events d) d :=
          hok.history.quiet (by simp) (by simp)
        have hevents : ∀ s' : State, s'.history = .cleared d :: s.history →
            s'.events d = .cleared d :: s.events d := fun s' hs' => by
          simp [events_cons hs']
        have hunlinked : ((s.setRef r (some { ref with death := none })).note
            (.cleared d)).unlinked (.death d) = (s.lists.home (.death d)).isNone := rfl
        rw [hunlinked]
        cases hhome : s.lists.home (.death d) with
        | none =>
          -- No dead binder is outstanding: the answer is queued.
          simp only [Option.isNone_none, if_true]
          refine hmove _ rfl rfl { ThreadFrame.refl s with } rfl (fun d' hd' => ?_) ?_
          · simp [hd']
          refine .cleared (x := { x with type := .clearDeathNotification })
            (q := deathList th thread) (hnone _ rfl) (by simp) (by simp) (fun n => ?_)
            (hok.le_lastId hx) (.inr ⟨rfl, isTodo_deathList th thread, ?_⟩) ?_ ?_
          · have := isTodo_deathList th thread
            rintro heq
            simp [heq, ListHead.isTodo] at this
          · rw [hevents _ rfl]
            simpa using fun hack => hok.ack_owned hack r ref howner (hX _) hhome
          · rw [hevents _ rfl]
            simpa using hok.not_done hx
          · rw [hevents _ rfl]
            exact hhist
        | some q =>
          obtain ⟨htype, -⟩ := hok.owned_linked r ref q x howner hhome hx
          simp only [Option.isNone_some, Bool.false_eq_true, if_false, htype, ne_eq,
            not_true_eq_false]
          refine hmove _ rfl rfl { ThreadFrame.refl s with } rfl (fun d' hd' => ?_) ?_
          · simp [hd']
          have hty : x.type ≠ .clearDeathNotification := by simp [htype]
          refine .cleared (x := { x with type := .deadBinderAndClear }) (q := q)
            (hnone _ rfl) (by simp) hhome (fun n heq => ?_)
            (hok.le_lastId hx) (.inl ⟨rfl, ?_, fun hq => ?_⟩) ?_ ?_
          · exact hok.linked_async n (heq ▸ hhome)
          · rw [hevents _ rfl]
            simpa using hok.linked_queued q x hhome hx hty
          · rw [hevents _ rfl]
            simpa using hok.undelivered q x hhome hq hx hty
          · rw [hevents _ rfl]
            simpa using hok.not_done hx
          · rw [hevents _ rfl]
            exact hhist

/-- References stay, and one notification moves. -/
theorem DeathInv.moveDeath (h : DeathInv ack X s) {s' : State} {d : Id} {e : DeathEvent}
    (hrefs : s'.refs = s.refs) (hnodes : s'.nodes = s.nodes) (ht : ThreadFrame s s')
    (hother : ∀ d', d' ≠ d → s'.deaths d' = s.deaths d' ∧
      s'.lists.home (.death d') = s.lists.home (.death d'))
    (he : e.id = d) (hhist : s'.history = e :: s.history)
    (hok : s'.events d = e :: s.events d → NoticeOk ack X s' d) : DeathInv ack X s' := by
  refine h.move ht (fun d' hd' => ?_) (hok ?_)
  · exact .of_eq hrefs hnodes (hother d' hd').1 (hother d' hd').2 ht
      (by rw [events_cons hhist, if_neg (he ▸ Ne.symm hd')])
  · rw [events_cons hhist, if_pos he]

/-- Owners are the same in a state with the same references. -/
theorem owns_congr {s' : State} (hrefs : s'.refs = s.refs) (r : Id) (ref : Ref) (d : Id) :
    Owns s' r ref d ↔ Owns s r ref d := by
  simp [Owns, hrefs]

/-- The owner of a notification, when there is one. -/
theorem NoticeOk.owner_iff {d r : Id} {ref : Ref} (h : NoticeOk ack X s d) (ho : Owns s r ref d)
    (a : Id) (y : Ref) : Owns s a y d ↔ a = r ∧ y = ref := by
  constructor
  · intro ho'
    have ha := h.owner_unique a y r ref ho' ho
    subst ha
    exact ⟨rfl, Option.some.inj (ho'.1.symm.trans ho.1)⟩
  · rintro ⟨rfl, rfl⟩
    exact ho

theorem DeathInv.deadBinderDone (h : DeathInv ack X s) (cookie : Nat) :
    DeathInv ack X (deadBinderDone th thread cookie s) := by
  unfold Binder.deadBinderDone
  cases hfind : deliveredDeath s thread.proc cookie with
  | none => exact h
  | some d =>
    have hhome : s.lists.home (.death d) = some (.deliveredDeath thread.proc) := by
      obtain ⟨w, hw, hmatch⟩ := List.exists_of_findSome?_eq_some hfind
      cases w with
      | death d' =>
        simp only [Option.ite_none_right_eq_some] at hmatch
        rw [← Option.some.inj hmatch.2]
        exact (s.lists.mem_items _ _).1 hw
      | transaction _ => cases hmatch
      | transactionComplete _ => cases hmatch
      | node _ => cases hmatch
    have hok := h.notice d
    cases hx : s.deaths d with
    | none => exact absurd hx (hok.linked_death _ hhome)
    | some x =>
      have hhist : HistoryOk ack (.acknowledged d :: s.events d) d :=
        hok.history.quiet (by simp) (by simp)
      simp only [hx]
      split
      · rename_i htype
        have hnone : ∀ a y, ¬Owns s a y d := fun a y ho => by
          have := (hok.owned_linked a y _ x ho hhome hx).1
          simp [htype] at this
        refine h.moveDeath (d := d) rfl rfl { ThreadFrame.refl s with } (fun d' hd' => ?_) rfl rfl
          fun hevents => ?_
        · simp [hd']
        refine .cleared (x := { x with type := .clearDeathNotification })
          (q := deathList th thread) (fun a y => hnone a y) (by simp) (by simp) (fun n => ?_)
          (hok.le_lastId hx) (.inr ⟨rfl, isTodo_deathList th thread, ?_⟩) ?_ ?_
        · have := isTodo_deathList th thread
          rintro heq
          simp [heq, ListHead.isTodo] at this
        · rw [hevents]
          simp
        · rw [hevents]
          simpa using hok.not_done hx
        · rw [hevents]
          exact hhist
      rename_i htype
      -- A notification on `delivered_death` that is not to be cleared has an owner.
      have howned : ∃ r ref, Owns s r ref d := by
        by_contra hno
        simp only [not_exists] at hno
        rcases hok.cleared_linked _ x hno hhome hx with hty | ⟨-, htodo⟩
        · exact htype hty
        · cases htodo
      obtain ⟨r, ref, ho⟩ := howned
      refine h.moveDeath (d := d) rfl rfl { ThreadFrame.refl s with } (fun d' hd' => ?_) rfl rfl
        fun hevents => ?_
      · simp [hd']
      refine .ownedUnlinked (x := x) (fun a y => hok.owner_iff ho a y) hx (by simp)
        (hok.le_lastId hx) (fun node hn hp => ?_) ?_ ?_ ?_
      · have := (hok.alive_unlinked r ref node ho hn hp).1
        rw [hhome] at this
        cases this
      · rw [hevents]
        simpa using hok.not_done hx
      · rw [hevents]
        simp
      · rw [hevents]
        exact hhist

end Commands

/-! ## Delivery -/

section Delivery

variable {ack : Prop} {X : Id → Prop} {s : State} {th : Id} {thread : Thread}

/-- The work taken next is on the thread's list or on its process's. -/
theorem nextWork_home {w : Work} (h : nextWork th thread s = some w) :
    s.lists.home w = some (.threadTodo th) ∨ s.lists.home w = some (.procTodo thread.proc) := by
  unfold nextWork at h
  split at h
  · rename_i v rest hitems
    rw [← Option.some.inj h]
    exact .inl ((s.lists.mem_items _ _).1 (by simp [hitems]))
  · simp only [Option.ite_none_right_eq_some] at h
    exact .inr ((s.lists.mem_items _ _).1 (List.mem_of_mem_head? h.2))

/-- A dead binder goes to `delivered_death`, and an answer ends the notification. -/
theorem DeathInv.deliverDeath (h : DeathInv ack X s) (hth : s.threads th = some thread) {d : Id}
    (hwork : s.lists.home (.death d) = some (.threadTodo th) ∨
      s.lists.home (.death d) = some (.procTodo thread.proc)) :
    DeathInv ack X (deliverDeath th thread d s) := by
  obtain ⟨q, hhome, htodo, hproc⟩ : ∃ q, s.lists.home (.death d) = some q ∧ q.isTodo ∧
      ∀ p, ofProc s p q → thread.proc = p := by
    rcases hwork with hhome | hhome
    · exact ⟨_, hhome, rfl, fun p hp => by simpa [ofProc, hth] using hp⟩
    · exact ⟨_, hhome, rfl, fun p hp => hp⟩
  have hok := h.notice d
  unfold Binder.deliverDeath
  cases hx : s.deaths d with
  | none => exact absurd hx (hok.linked_death q hhome)
  | some x =>
    simp only
    split
    · rename_i htype
      have hnone : ∀ a y, ¬Owns s a y d := fun a y ho => by
        have := (hok.owned_linked a y q x ho hhome hx).1
        simp [htype] at this
      refine h.moveDeath (d := d) rfl rfl { ThreadFrame.refl s with } (fun d' hd' => ?_) rfl rfl
        fun hevents => ?_
      · simp [hd']
      have hhist : HistoryOk ack (.clearDone d :: s.events d) d :=
        hok.history.cons (by simp) fun _ => ⟨hok.not_done hx, fun hack =>
          hok.ack_cleared hack x hx htype⟩
      exact
        { owner_unique := fun a y _ _ ho => absurd ho (hnone a y)
          owner_death := fun a y ho => absurd ho (hnone a y)
          linked_death := fun q hq => by simp at hq
          linked_async := fun n => by simp
          fresh := fun hd => absurd hd (Nat.not_lt.2 (hok.le_lastId hx))
          alive_unlinked := fun a y _ ho => absurd ho (hnone a y)
          owned_linked := fun a y _ _ ho => absurd ho (hnone a y)
          cleared_linked := fun q _ _ hq => by simp at hq
          linked_queued := fun q _ hq => by simp at hq
          undelivered := fun q _ hq => by simp at hq
          done_gone := fun _ => by simp
          ack_cleared := fun _ x hx => by simp at hx
          ack_owned := fun _ a y ho => absurd ho (hnone a y)
          history := hevents ▸ hhist }
    rename_i htype
    have hqueued := hok.linked_queued q x hhome hx htype
    have hnew := hok.undelivered q x hhome htodo hx htype
    have hhist : HistoryOk ack (.deadBinder d :: s.events d) d :=
      hok.history.cons (fun _ => ⟨hqueued, hnew⟩) (by simp)
    have ht : ThreadFrame s (((s.listMove (.deliveredDeath thread.proc) (.death d)).setThread th
        (some { thread with reading := none })).note (.deadBinder d)) := by
      refine { ThreadFrame.refl s with threads := fun a => ?_ }
      by_cases ha : a = th
      · simp [ha, hth]
      · simp [ha]
    refine h.moveDeath (d := d) rfl rfl ht (fun d' hd' => ?_) rfl rfl fun hevents => ?_
    · simp [hd']
    by_cases howned : ∃ r ref, Owns s r ref d
    · obtain ⟨r, ref, ho⟩ := howned
      obtain ⟨hty, hq⟩ := hok.owned_linked r ref q x ho hhome hx
      refine .ownedLinked (x := x) (q := .deliveredDeath thread.proc)
        (fun a y => hok.owner_iff ho a y) hx (by simp) (hok.le_lastId hx)
        (fun node hn => ?_) (hproc _ hq) hty ?_ (by rintro ⟨⟩) ?_ (hevents ▸ hhist)
      · by_contra hp
        have := (hok.alive_unlinked r ref node ho hn hp).1
        rw [hhome] at this
        cases this
      · rw [hevents]
        exact List.mem_cons_of_mem _ hqueued
      · rw [hevents]
        simpa using hok.not_done hx
    simp only [not_exists] at howned
    have hty : x.type = .deadBinderAndClear := by
      rcases hok.cleared_linked q x howned hhome hx with hty | ⟨hty, -⟩
      · exact hty
      · exact absurd hty htype
    refine .cleared (x := x) (q := .deliveredDeath thread.proc) (fun a y => howned a y) hx
      (by simp) (by rintro _ ⟨⟩) (hok.le_lastId hx) (.inl ⟨hty, ?_, by rintro ⟨⟩⟩) ?_
      (hevents ▸ hhist)
    · rw [hevents]
      exact List.mem_cons_of_mem _ hqueued
    · rw [hevents]
      simpa using hok.not_done hx

theorem deathFrame_deliverNode (n : Id) (s : State) : DeathFrame s (deliverNode n s) := by
  unfold deliverNode
  split
  · exact .crash s rfl
  rename_i node hn
  simp only
  split
  · exact .setNode hn id
  split
  · exact .setNode hn id
  · split
    · exact .setNode hn id
    · split
      · exact .setNode hn id
      · split
        · exact .freeNode ..
        · exact (DeathFrame.work rfl).2

theorem DeathInv.deliver (h : DeathInv ack X s) (hth : s.threads th = some thread) :
    DeathInv ack X (deliver th thread s) := by
  unfold Binder.deliver
  split
  · exact h
  · exact h.frame (callFrame_deliverTransaction hth _).deathFrame
  · exact h.frame (DeathFrame.work rfl).2
  · exact h.frame (deathFrame_deliverNode _ s)
  · rename_i d hnext
    exact h.deliverDeath hth (nextWork_home hnext)

end Delivery

/-! ## Release -/

section Release

variable {ack : Prop} {X : Id → Prop} {s : State}

/-- Dropping a notification from a list is harmless for a process that is being released, or
where acknowledgement is not promised. -/
theorem DeathInv.dropWork (h : DeathInv ack X s) {d : Id}
    (hdrop : ack → ∀ r ref, Owns s r ref d → X ref.proc) : DeathInv ack X (s.listDel (.death d)) := by
  refine h.move (d := d) { ThreadFrame.refl s with } (fun d' hd' => ?_) ?_
  · exact .of_eq rfl rfl rfl (by simp [hd']) { ThreadFrame.refl s with } rfl
  have hok := h.notice d
  exact
    { owner_unique := hok.owner_unique
      owner_death := hok.owner_death
      linked_death := fun q hq => by simp at hq
      linked_async := fun n => by simp
      fresh := hok.fresh
      alive_unlinked := fun r ref node ho hn hp =>
        ⟨by simp, (hok.alive_unlinked r ref node ho hn hp).2⟩
      owned_linked := fun r ref q x ho hq => by simp at hq
      cleared_linked := fun q x _ hq => by simp at hq
      linked_queued := fun q x hq => by simp at hq
      undelivered := fun q x hq => by simp at hq
      done_gone := hok.done_gone
      ack_cleared := hok.ack_cleared
      ack_owned := fun hack r ref ho hX => absurd (hdrop hack r ref ho) hX
      history := hok.history }

/-- Releasing work of a list whose notifications may be dropped; none is left on it. -/
theorem DeathInv.releaseWork (h : DeathInv ack X s) (q : ListHead)
    (hdrop : ack → ∀ p, ofProc s p q → X p) :
    DeathInv ack X (binderReleaseWork q s) ∧
      (∀ d, (binderReleaseWork q s).lists.home (.death d) ≠ some q) ∧
      ∀ th, ((binderReleaseWork q s).threads th).map Thread.proc =
        (s.threads th).map Thread.proc := by
  have hloop : ∀ (ws : List Work) (s : State), DeathInv ack X s →
      (ack → ∀ p, ofProc s p q → X p) →
      (∀ d, s.lists.home (.death d) = some q → .death d ∈ ws) →
      (∀ d, .death d ∈ ws → s.lists.home (.death d) = some q) → ws.Nodup →
      DeathInv ack X (ws.foldl releaseWorkItem s) ∧
        (∀ d, (ws.foldl releaseWorkItem s).lists.home (.death d) ≠ some q) ∧
        ∀ th, ((ws.foldl releaseWorkItem s).threads th).map Thread.proc =
          (s.threads th).map Thread.proc := by
    intro ws
    induction ws with
    | nil =>
      intro s h _ hall _ _
      exact ⟨h, fun d hd => by simpa using hall d hd, fun _ => rfl⟩
    | cons w rest ih =>
      intro s h hdrop hall hrest hnodup
      rw [List.nodup_cons] at hnodup
      have hone : DeathInv ack X (releaseWorkItem s w) ∧ ThreadFrame s (releaseWorkItem s w) ∧
          ∀ d, (releaseWorkItem s w).lists.home (.death d) =
            if w = .death d then none else s.lists.home (.death d) := by
        have hframe : w.isDeath = false → DeathFrame s (releaseWorkItem s w) →
            DeathInv ack X (releaseWorkItem s w) ∧ ThreadFrame s (releaseWorkItem s w) ∧
            ∀ d, (releaseWorkItem s w).lists.home (.death d) =
              if w = .death d then none else s.lists.home (.death d) := by
          intro hw hf
          refine ⟨h.frame hf, hf.threads, fun d => ?_⟩
          rw [(hf.same d).home, if_neg]
          rintro rfl
          cases hw
        cases w with
        | transaction t => exact hframe rfl (callFrame_releaseTransaction t s).deathFrame
        | transactionComplete c => exact hframe rfl (DeathFrame.work rfl).2
        | node n => exact hframe rfl (DeathFrame.work rfl).2
        | death d =>
          refine ⟨h.dropWork fun hack r ref ho => ?_, { ThreadFrame.refl s with }, fun d' => ?_⟩
          · have hhome := hrest d (by simp)
            obtain ⟨x, hx⟩ := Option.ne_none_iff_exists'.1 ((h.notice d).linked_death q hhome)
            exact hdrop hack _ ((h.notice d).owned_linked r ref q x ho hhome hx).2
          · by_cases hd : d = d'
            · simp [releaseWorkItem, hd]
            · simp [releaseWorkItem, hd, Ne.symm hd]
      obtain ⟨h', ht, hhome⟩ := hone
      have := ih (releaseWorkItem s w) h' ?_ ?_ ?_ hnodup.2
      · exact ⟨this.1, this.2.1, fun th => (this.2.2 th).trans (ht.threads th)⟩
      · exact fun hack p hp => hdrop hack p ((ht.ofProc_iff p q).1 hp)
      · intro d hd
        rw [hhome] at hd
        split at hd
        · cases hd
        · rename_i hne
          exact (List.mem_cons.1 (hall d hd)).resolve_left fun heq => hne heq.symm
      · intro d hd
        have hne : w ≠ .death d := fun heq => hnodup.1 (heq ▸ hd)
        rw [hhome, if_neg hne]
        exact hrest d (List.mem_cons_of_mem _ hd)
  exact hloop _ s h hdrop (fun d hd => (s.lists.mem_items _ _).2 hd)
    (fun d hd => (s.lists.mem_items _ _).1 hd) (s.lists.nodup_items q)

/-- A thread goes with its work. -/
theorem DeathInv.freeThread (h : DeathInv ack X s) (th : Id)
    (hdrop : ack → ∀ thread, s.threads th = some thread → X thread.proc) :
    DeathInv ack X (binderFreeThread s th) ∧
      ∀ a x, (binderFreeThread s th).threads a = some x →
        (s.threads a).map Thread.proc = some x.proc := by
  unfold binderFreeThread
  split
  · exact ⟨h.frame (.crash s rfl), fun a x ha => by
      have ha : s.threads a = some x := ha
      simp [ha]⟩
  rename_i thread hth
  simp only
  have hproc : DeathFrame s (s.setProc thread.proc
      { s.procs thread.proc with threads := (s.procs thread.proc).threads.erase th }) :=
    .setProc List.erase_subset
  have hwalk := hproc.trans
    (callFrame_releaseStack th (2 * s.lastId + 2) thread.transactionStack _).deathFrame
  have hsent : ∀ s', DeathFrame s s' → DeathInv ack X
      ((binderReleaseWork (.threadTodo th) s').setThread th none) ∧
      ∀ a x, ((binderReleaseWork (.threadTodo th) s').setThread th none).threads a = some x →
        (s.threads a).map Thread.proc = some x.proc := by
    intro s' hf
    obtain ⟨h', hleft, hthreads⟩ := (h.frame hf).releaseWork (.threadTodo th) (by
      intro hack p hp
      rw [ofProc, hf.threads.threads, hth] at hp
      rw [← Option.some.inj hp]
      exact hdrop hack thread hth)
    generalize binderReleaseWork (.threadTodo th) s' = s'' at h' hleft hthreads
    refine ⟨⟨fun d => (h'.notice d).frame ?_, fun a ha => ?_, fun p a x hmem ha => ?_,
      h'.threads_le, h'.no_bug⟩, fun a x ha => ?_⟩
    · refine { SameNotice.refl s'' d with list := fun p q hq hp => ?_ }
      cases q with
      | threadTodo a =>
        have hne : a ≠ th := fun heq => hleft d (heq ▸ hq)
        simpa [ofProc, hne] using hp
      | procTodo _ => exact hp
      | asyncTodo _ => exact hp
      | deliveredDeath _ => exact hp
    · by_cases hne : a = th
      · simp [hne]
      · simpa [hne] using h'.threads_fresh a ha
    · have hne : a ≠ th := fun heq => by simp [heq] at ha
      exact h'.threads_proc p a x hmem (by simpa [hne] using ha)
    · have hne : a ≠ th := fun heq => by simp [heq] at ha
      have ha : s''.threads a = some x := by simpa [hne] using ha
      rw [← hf.threads.threads, ← hthreads, ha, Option.map_some]
  split
  · exact hsent _ (hwalk.trans (callFrame_binderSendFailedReply ..).deathFrame)
  · exact hsent _ hwalk

/-- A dying node queues the notification of each of its references. The notifications still to
be queued are unlinked and were never queued, so the assertion holds. -/
theorem DeathInv.queueDeaths :
    ∀ (rs : List Id) {s : State}, DeathInv ack X s → rs.Nodup →
      (∀ r ∈ rs, ∀ ref d, Owns s r ref d → s.lists.home (.death d) = none ∧
        .queued d ∉ s.events d ∧ ∀ node, s.nodes ref.node = some node → node.proc = none) →
      DeathInv ack X (rs.foldl queueDeath s) := by
  intro rs
  induction rs with
  | nil => exact fun h _ _ => h
  | cons r rest ih =>
    intro s h hnodup hrest
    rw [List.nodup_cons] at hnodup
    have hkeep : ∀ s', s'.refs = s.refs → s'.nodes = s.nodes → DeathInv ack X s' →
        (∀ d, (∀ ref, ¬Owns s r ref d) → s'.lists.home (.death d) = s.lists.home (.death d) ∧
          s'.events d = s.events d) → DeathInv ack X (rest.foldl queueDeath s') := by
      intro s' hrefs hnodes h' hsame
      refine ih h' hnodup.2 fun r' hr' ref d ho => ?_
      rw [owns_congr hrefs] at ho
      have hne : ∀ ref', ¬Owns s r ref' d := fun ref' ho' =>
        hnodup.1 ((h.notice d).owner_unique r' ref r ref' ho ho' ▸ hr')
      rw [(hsame d hne).1, (hsame d hne).2, hnodes]
      exact hrest r' (List.mem_cons_of_mem _ hr') ref d ho
    rw [List.foldl_cons]
    unfold queueDeath
    cases hr : s.refs r with
    | none => exact hkeep _ rfl rfl (h.frame (.crash s rfl)) fun _ _ => ⟨rfl, rfl⟩
    | some ref =>
      cases hd : ref.death with
      | none =>
        simp only [hd]
        exact hkeep s rfl rfl h fun _ _ => ⟨rfl, rfl⟩
      | some d =>
        have ho : Owns s r ref d := ⟨hr, hd⟩
        obtain ⟨hhome, hqueued, hnode⟩ := hrest r (by simp) ref d ho
        have hok := h.notice d
        cases hx : s.deaths d with
        | none => exact absurd hx (hok.owner_death r ref ho)
        | some x =>
          have hun : s.unlinked (.death d) = true := by simp [State.unlinked, hhome]
          simp only [hd, hx, hun, if_true]
          refine hkeep _ rfl rfl ?_ fun d' hnot => ?_
          · refine h.moveDeath (d := d) rfl rfl { ThreadFrame.refl s with }
              (fun d' hd' => ?_) rfl rfl fun hevents => ?_
            · simp [hd']
            have hdead : .deadBinder d ∉ s.events d := fun hmem =>
              hqueued (hok.history.dead_queued hmem)
            refine .ownedLinked (x := { x with type := .deadBinder })
              (q := .procTodo ref.proc) (fun a y => hok.owner_iff ho a y) (by simp)
              (by simp) (hok.le_lastId hx) hnode rfl rfl ?_ ?_ ?_ ?_
            · rw [hevents]
              simp
            · rw [hevents]
              simpa using fun _ => hdead
            · rw [hevents]
              simpa using hok.not_done hx
            · rw [hevents]
              exact hok.history.quiet (by simp) (by simp)
          · have hne : d' ≠ d := fun heq => hnot ref (heq ▸ ho)
            refine ⟨by simp [hne], ?_⟩
            simp [State.events, State.note, Ne.symm hne]

theorem DeathInv.releaseNode (h : DeathInv ack X s) (href : RefInv s) {p n : Id}
    (howner : ∀ node, s.nodes n = some node → node.proc = some p) :
    DeathInv ack X (releaseNode p s n) := by
  unfold Binder.releaseNode
  split
  · exact h.frame (.crash s rfl)
  rename_i node hn
  split
  · exact h.frame (.freeNode ..)
  have hproc : DeathFrame s
      (s.setProc p { s.procs p with nodes := (s.procs p).nodes.erase n }) :=
    .setProc (List.Subset.refl _)
  have hset : ∀ s' : State, s'.nodes n = some node →
      DeathFrame s' (s'.setNode n (some node.orphaned)) :=
    fun s' hn' => .setNode hn' fun hne => absurd rfl hne
  have hdel := hproc.trans (DeathFrame.work (w := .node n) rfl).2
  obtain ⟨hnodup, hrefs, -⟩ := href.strongRefsCounted n node hn
  refine DeathInv.queueDeaths node.refs (h.frame (hdel.trans (hset _ hn))) hnodup ?_
  intro r hr ref d ho
  obtain ⟨ref', hr', hnode⟩ := (hrefs r).1 hr
  have ho' : Owns s r ref d := ho
  have heq : ref.node = n := by
    rw [Option.some.inj (ho'.1.symm.trans hr')]
    exact hnode
  have halive := (h.notice d).alive_unlinked r ref node ho' (heq ▸ hn) (by simp [howner node hn])
  refine ⟨halive.1, halive.2, fun node' hn' => ?_⟩
  simp only [State.setNode, heq, Function.update_self, Option.some.injEq] at hn'
  rw [← hn']
  rfl

/-- Which processes are being released matters only for owners. -/
theorem DeathInv.change (h : DeathInv ack X s) {Y : Id → Prop}
    (hY : ∀ r ref d, Owns s r ref d → ¬Y ref.proc → ¬X ref.proc) : DeathInv ack Y s :=
  { h with notice := fun d => { h.notice d with
      ack_owned := fun hack r ref ho hnot => (h.notice d).ack_owned hack r ref ho (hY r ref d ho hnot) } }

/-- Freeing the threads of a process. -/
theorem DeathInv.freeThreads {p : Id} : ∀ (ths : List Id) {s : State},
    DeathInv ack (· = p) s → (∀ th ∈ ths, ∀ thread, s.threads th = some thread → thread.proc = p) →
    DeathInv ack (· = p) (ths.foldl binderFreeThread s) := by
  intro ths
  induction ths with
  | nil => exact fun h _ => h
  | cons th rest ih =>
    intro s h howner
    obtain ⟨h', hthreads⟩ := h.freeThread th fun _ => howner th (by simp)
    refine ih h' fun a ha x hx => ?_
    obtain ⟨y, hy, hproc⟩ := Option.map_eq_some_iff.1 (hthreads a x hx)
    rw [← hproc]
    exact howner a (List.mem_cons_of_mem _ ha) y hy

/-- Releasing a process. Only between the loss of its threads and of its references may its
notifications be unlinked without having been acknowledged. -/
theorem DeathInv.deferredRelease (h : DeathInv ack (fun _ => False) s) (hbook : BookInv s) (p : Id) :
    DeathInv ack (fun _ => False) (binderDeferredRelease p s) := by
  unfold binderDeferredRelease
  have hctx : BookInv (releaseContextMgr p s) ∧
      DeathInv ack (· = p) (releaseContextMgr p s) := by
    have hX : DeathInv ack (· = p) s := h.change fun _ _ _ _ _ => id
    unfold releaseContextMgr
    split
    · exact ⟨hbook, hX⟩
    · split
      · exact ⟨hbook.keep (.crash s _), hX.frame (.crash s rfl)⟩
      · split
        · exact ⟨hbook.keep (.elsewhere rfl),
            hX.frame (.of_eq { ThreadFrame.refl s with } rfl rfl rfl (fun _ => rfl) rfl)⟩
        · exact ⟨hbook, hX⟩
  generalize releaseContextMgr p s = s1 at hctx
  have hbook2 := hctx.1.keep (Keeps.foldl keeps_binderFreeThread (s1.procs p).threads s1)
  have hthreads : DeathInv ack (· = p) ((s1.procs p).threads.foldl binderFreeThread s1) :=
    DeathInv.freeThreads _ hctx.2 fun th hmem thread hth => hctx.2.threads_proc p th thread hmem hth
  simp only
  generalize (s1.procs p).threads.foldl binderFreeThread s1 = s2 at hbook2 hthreads ⊢
  have htree := hbook2.refInv.tree
  have hnodes : BookInv ((s2.procs p).nodes.foldl (Binder.releaseNode p) s2) ∧
      DeathInv ack (· = p) ((s2.procs p).nodes.foldl (Binder.releaseNode p) s2) :=
    foldl_releaseNode (P := fun s => BookInv s ∧ DeathInv ack (· = p) s)
      (fun _ _ h howner => ⟨h.1.releaseNode howner, h.2.releaseNode h.1.refInv howner⟩) _ s2
      (htree.nodup p) ⟨hbook2, hthreads⟩ fun n hn => htree.owner hn
  generalize (s2.procs p).nodes.foldl (Binder.releaseNode p) s2 = s3 at hnodes ⊢
  have hrefs : BookInv ((s3.procs p).refsByDesc.foldl (fun s r => binderDeleteRef r s) s3) ∧
      DeathInv ack (· = p) ((s3.procs p).refsByDesc.foldl (fun s r => binderDeleteRef r s) s3) :=
    foldl_invariant (P := fun s => BookInv s ∧ DeathInv ack (· = p) s)
      (f := fun s r => binderDeleteRef r s) (fun _ r h =>
        ⟨BookInv.deleteRef h.1.refInv fun r' ref _ hr' => h.1.counted r' ref hr',
          h.2.deleteRef h.1.refInv r⟩) _ hnodes
  have hgone : ∀ r ref, ((s3.procs p).refsByDesc.foldl (fun s r => binderDeleteRef r s) s3).refs r =
      some ref → ref.proc ≠ p := by
    intro r ref hr hp
    rw [foldl_deleteRef_refs] at hr
    split at hr
    · cases hr
    · rename_i hnot
      exact hnot (((hnodes.1.refInv.treesAgree p).2.1 r).2 ⟨ref, hr, hp⟩)
  generalize (s3.procs p).refsByDesc.foldl (fun s r => binderDeleteRef r s) s3 = s4 at hrefs hgone ⊢
  have hwork := (hrefs.2.releaseWork (.procTodo p) fun _ q hq => hq.symm).1
  have hkeep := keeps_binderReleaseWork (.procTodo p) s4
  generalize binderReleaseWork (.procTodo p) s4 = s5 at hwork hkeep ⊢
  have hdone : DeathInv ack (fun _ => False) s5 := by
    refine hwork.change fun r ref d ho _ hp => ?_
    have hedge : s4.graph.edge r = some ref.edge := hkeep.graph ▸ graph_edge ho.1
    obtain ⟨ref', hr', heq⟩ := graph_edge_some hedge
    have hproc : ref'.proc = ref.proc := congrArg Edge.proc heq
    exact hgone r ref' hr' (hproc.trans hp)
  have hbuffers : ∀ (bs : List Id) (s : State), DeathInv ack (fun _ => False) s →
      DeathInv ack (fun _ => False) (bs.foldl (releaseBuffer p) s) := fun bs s h =>
    foldl_invariant (fun s b h => h.frame (callFrame_releaseBuffer p s b).deathFrame) bs h
  exact (hbuffers _ s5 hdone).frame (.setProc (List.Subset.refl _))

end Release

/-! ## Runs -/

variable {ack : Prop} {s : State}

theorem DeathInv.transaction (h : DeathInv ack (fun _ => False) s) (href : RefInv s) (th : Id)
    (tr : TransactionData) (reply : Bool) (sup : Supply) :
    DeathInv ack (fun _ => False) (binderTransaction th tr reply sup s) :=
  ((refClosed_deathInv ack _).transaction
    (fun _ _ hf h => ⟨h.1.keep hf.keeps, h.2.frame hf.deathFrame⟩) ⟨href, h⟩ th tr reply sup).2

theorem DeathInv.setContextMgr (h : DeathInv ack (fun _ => False) s) (href : RefInv s)
    (p euid : Nat) (memory : Bool) :
    DeathInv ack (fun _ => False) (setContextMgr p euid memory s) := by
  unfold Binder.setContextMgr
  split
  · have huid : DeathFrame s { s with contextMgrUid := some euid } :=
      .of_eq { ThreadFrame.refl s with } rfl rfl rfl (fun _ => rfl) rfl
    have href' : RefInv { s with contextMgrUid := some euid } := href.keep (.elsewhere rfl)
    have hnew := (h.frame huid).frame (href'.deathFrame_newNode p 0 0 false memory)
    simp only
    generalize binderNewNode p 0 0 false memory { s with contextMgrUid := some euid } = out at hnew
    obtain ⟨s1, found⟩ := out
    cases found with
    | none => exact hnew
    | some n =>
      simp only
      split
      · exact hnew.frame (.crash _ rfl)
      · rename_i node hn
        refine (hnew.frame (.setNode hn ?_)).frame
          (.of_eq { ThreadFrame.refl _ with } rfl rfl rfl (fun _ => rfl) rfl)
        exact id
  · exact h

theorem DeathInv.existing (h : DeathInv ack (fun _ => False) s) (href : RefInv s)
    (cmd : RefCommand) (found : Option Id) :
    DeathInv ack (fun _ => False) (match (s, found) with
      | (s, none) => s
      | (s, some r) =>
        match cmd with
        | .increfs => (binderIncRef r false none s).1
        | .acquire => (binderIncRef r true none s).1
        | .release => binderDecRef r true s
        | .decrefs => binderDecRef r false s) := by
  cases found with
  | none => exact h
  | some r =>
    cases cmd with
    | increfs => exact h.frame (href.deathFrame_incRef ..)
    | acquire => exact h.frame (href.deathFrame_incRef ..)
    | release => exact h.decRef href r true
    | decrefs => exact h.decRef href r false

theorem DeathInv.refCommand (h : DeathInv ack (fun _ => False) s) (href : RefInv s) (p : Id)
    (cmd : RefCommand) (target : Nat) (memory : Bool) :
    DeathInv ack (fun _ => False) (refCommand p cmd target memory s) := by
  unfold Binder.refCommand commandRef
  cases hctx : s.contextMgrNode with
  | none => exact h.existing href cmd _
  | some n =>
    by_cases hzero : target = 0 ∧ cmd.increments = true
    · have hget := href.getRefForNode p n memory
      have hframe := h.frame (href.deathFrame_getRefForNode p n memory)
      simp only [if_pos hzero]
      generalize binderGetRefForNode p n memory s = out at hget hframe
      obtain ⟨s1, found⟩ := out
      cases found with
      | none => exact hframe.frame (.crash s1 rfl)
      | some r => exact hframe.existing hget.1 cmd (some r)
    · simp only [if_neg hzero]
      exact h.existing href cmd _

theorem DeathInv.nodeDone (h : DeathInv ack (fun _ => False) s) (p : Id) (strong : Bool)
    (ptr cookie : Nat) : DeathInv ack (fun _ => False) (nodeDone p strong ptr cookie s) := by
  unfold Binder.nodeDone
  split
  · exact h
  rename_i n _
  split
  · exact h.frame (.crash s rfl)
  rename_i node hn
  split
  · exact h
  · split
    · exact h
    · have hproc : (node.clearPending strong).proc = node.proc := by cases strong <;> rfl
      have hset : DeathFrame s (s.setNode n (some (node.clearPending strong))) :=
        .setNode hn (by rw [hproc]; exact id)
      exact (h.frame hset).frame (deathFrame_binderDecNode ..)

theorem DeathInv.freeBuffer (h : DeathInv ack (fun _ => False) s) (href : RefInv s) (p th b : Id) :
    DeathInv ack (fun _ => False) (freeBuffer p th b s) := by
  unfold Binder.freeBuffer
  split
  · split
    · exact h.frame (.crash s rfl)
    rename_i buffer _
    split
    · exact h
    have hcall := (callFrame_detachTransaction buffer s).trans
      (.setBuffer _ b (some { buffer with transaction := none }))
    have hdetach := h.frame hcall.deathFrame
    have hhand := callFrame_handOverAsync th buffer ((detachTransaction buffer s).setBuffer b
      (some { buffer with transaction := none })) (by
        intro n w hw
        cases w with
        | death d =>
          exact absurd ((LinkedLists.mem_items _ _ _).1 hw)
            ((hdetach.notice d).linked_async n)
        | transaction _ => rfl
        | transactionComplete _ => rfl
        | node _ => rfl)
    have hboth := (refClosed_deathInv ack (fun _ => False)).bufferRelease p buffer none
      ⟨href.keep (hcall.trans hhand).keeps, hdetach.frame hhand.deathFrame⟩
    exact hboth.2.frame (callFrame_binderFreeBuf ..).deathFrame
  · exact h

/-- A new thread has a new name, so no work is on its list. -/
theorem DeathInv.newThread (h : DeathInv ack (fun _ => False) s) (p pid : Nat) :
    DeathInv ack (fun _ => False) (binderGetThread p pid s) := by
  have hfresh := h.threads_fresh (s.lastId + 1) (Nat.lt_succ_self _)
  have hthreads : (binderGetThread p pid s).threads = Function.update s.threads (s.lastId + 1)
      (some ⟨p, pid, false, none, .ok, .ok, none⟩) := rfl
  have hmem : ∀ q th, th ∈ ((binderGetThread p pid s).procs q).threads →
      (q = p ∧ th = s.lastId + 1) ∨ th ∈ (s.procs q).threads := by
    intro q th hth
    by_cases hq : q = p
    · subst hq
      simp only [binderGetThread, State.setProc, State.setThread, Function.update_self] at hth
      exact ((List.mem_orderedInsert _).1 hth).imp_left fun heq => ⟨rfl, heq⟩
    · simp only [binderGetThread, State.setProc, State.setThread, Function.update_of_ne hq] at hth
      exact .inr hth
  refine ⟨fun d => (h.notice d).frame ?_, fun th hth => ?_, fun q th thread hq hth => ?_,
    fun q th hq => ?_, fun c hc => h.no_bug c hc⟩
  · refine { SameNotice.refl s d with lastId_le := Nat.le_succ _, list := fun q hd hq hp => ?_ }
    cases hd with
    | threadTodo th =>
      have hne : th ≠ s.lastId + 1 := fun heq => by simp [ofProc, heq, hfresh] at hp
      simpa [ofProc, hthreads, hne] using hp
    | procTodo _ => exact hp
    | asyncTodo _ => exact hp
    | deliveredDeath _ => exact hp
  · have hth : s.lastId + 1 < th := hth
    rw [hthreads, Function.update_of_ne (Nat.ne_of_gt hth)]
    exact h.threads_fresh th (Nat.lt_of_succ_lt hth)
  · rcases hmem q th hq with ⟨rfl, rfl⟩ | hold
    · rw [hthreads, Function.update_self] at hth
      rw [← Option.some.inj hth]
    · have hne : th ≠ s.lastId + 1 := Nat.ne_of_lt (Nat.lt_succ_of_le (h.threads_le q th hold))
      rw [hthreads, Function.update_of_ne hne] at hth
      exact h.threads_proc q th thread hold hth
  · rcases hmem q th hq with ⟨-, rfl⟩ | hold
    · exact Nat.le_refl _
    · exact Nat.le_succ_of_le (h.threads_le q th hold)

/-- Whether a transition is a thread's own exit. -/
def Op.isThreadExit : Op → Bool
  | .threadExit _ => true
  | _ => false

/-- Every transition keeps the invariant; acknowledgement is promised without thread exits. -/
theorem DeathInv.run (h : DeathInv ack (fun _ => False) s) (hbook : BookInv s) {op : Op}
    (hexit : ack → op.isThreadExit = false) : DeathInv ack (fun _ => False) (run s op) := by
  have href := hbook.refInv
  cases op with
  | openDriver =>
    refine h.frame (.of_eq { ThreadFrame.refl s with
      lastId_le := Nat.le_succ _, procThreads := fun q => ?_ } rfl rfl rfl (fun _ => rfl) rfl)
    by_cases hq : q = s.lastId + 1
    · simp [Binder.run, binderOpen, hq]
    · simp [Binder.run, binderOpen, hq]
  | newThread p pid =>
    unfold Binder.run
    simp only
    split
    · exact h.newThread p pid
    · exact h
  | setContextMgr th euid memory => exact onIdle_keeps h fun _ _ _ => h.setContextMgr href ..
  | refCommand th cmd target memory => exact onWrite_keeps h fun _ _ _ _ => h.refCommand href ..
  | nodeDone th strong ptr cookie => exact onWrite_keeps h fun _ _ _ _ => h.nodeDone ..
  | freeBuffer th b => exact onWrite_keeps h fun _ _ _ _ => h.freeBuffer href ..
  | transaction th tr sup => exact onWrite_keeps h fun _ _ _ _ => h.transaction href ..
  | reply th tr sup => exact onWrite_keeps h fun _ _ _ _ => h.transaction href ..
  | enterLooper th =>
    exact onWrite_keeps h fun thread hth _ _ =>
      h.frame (.setThread (x := { thread with looper := true }) hth rfl)
  | requestDeath th target cookie memory =>
    exact onWrite_keeps h fun _ hth _ _ => h.requestDeath href hth ..
  | clearDeath th target cookie =>
    exact onWrite_keeps h fun _ hth _ _ => h.clearDeath href hth (fun _ => id) ..
  | deadBinderDone th cookie => exact onWrite_keeps h fun _ _ _ _ => h.deadBinderDone ..
  | enterRead th room =>
    exact onIdle_keeps h fun _ hth _ => h.frame (callFrame_enterRead hth room).deathFrame
  | deliver th => exact onRead_keeps h fun _ hth _ => h.deliver hth
  | leaveRead th =>
    exact onRead_keeps h fun thread hth _ =>
      h.frame (.setThread (x := { thread with reading := none }) hth rfl)
  | threadExit th =>
    exact onIdle_keeps h fun _ _ _ => (h.freeThread th fun hack => absurd (hexit hack) (by
      simp [Op.isThreadExit])).1
  | release p =>
    unfold Binder.run
    simp only
    split
    · exact h.deferredRelease hbook p
    · exact h

theorem deathInv_of_reaches (ack : Prop) {ok : State → Op → Prop} (hok : ack → ∀ s op, ok s op →
      op.isThreadExit = false) (hrun : Reaches Step ok State.initial s) :
    DeathInv ack (fun _ => False) s := by
  have hboth : BookInv s ∧ DeathInv ack (fun _ => False) s :=
    hrun.invariant (fun s => BookInv s ∧ DeathInv ack (fun _ => False) s)
      (fun s op _ h hs hstep => by
        rw [hstep.2]
        exact ⟨h.1.run op, h.2.run h.1 fun hack => hok hack s op hs⟩)
      ⟨⟨refInv_initial, fun _ _ hr => by cases hr⟩, deathInv_initial⟩
  exact hboth.2

/-- In every reachable state each notification was delivered as a dead binder at most once and
answered as cleared at most once, and neither assertion about notifications has failed. In a
run in which no thread exits by itself, a clear is answered only after a dead binder that was
queued before has been acknowledged. -/
theorem death_notifications {ok : State → Op → Prop} (hrun : Reaches Step ok State.initial s) :
    (∀ d, s.history.count (.deadBinder d) ≤ 1 ∧ s.history.count (.clearDone d) ≤ 1) ∧
      s.crashed ≠ some (.bug .clearDeathType) ∧ s.crashed ≠ some (.bug .deferredReleaseDeath) ∧
      ((∀ s op, ok s op → op.isThreadExit = false) → ∀ d, AckBefore s.history d) := by
  have h := deathInv_of_reaches (∀ s op, ok s op → op.isThreadExit = false) id hrun
  have hcount : ∀ (e : DeathEvent), s.history.count e = (s.events e.id).count e := fun e =>
    (List.count_filter (by simp)).symm
  refine ⟨fun d => ⟨?_, ?_⟩, fun hc => ?_, fun hc => ?_, fun hexit d later earlier heq hq => ?_⟩
  · rw [hcount]
    exact (h.notice d).history.dead_once
  · rw [hcount]
    exact (h.notice d).history.done_once
  · have := h.no_bug _ hc
    cases this
  · have := h.no_bug _ hc
    cases this
  · have hevents : s.events d = later.filter (fun e => e.id = d) ++
        .clearDone d :: earlier.filter (fun e => e.id = d) := by
      simp [State.events, heq]
    have := (h.notice d).history.ack_before hexit _ _ hevents (List.mem_filter.2 ⟨hq, by simp⟩)
    exact (List.mem_filter.1 this).1

/-- A client asks for the death of a service, is told of it, clears the request before it
acknowledges, and is answered afterwards. -/
def clearRun : List Op :=
  [.openDriver, .openDriver, .newThread 1 0, .newThread 2 0, .setContextMgr 3 0 true,
    .refCommand 4 .acquire 0 true, .requestDeath 4 0 7 true, .release 1, .enterRead 4 0,
    .deliver 4, .clearDeath 4 0 7, .deadBinderDone 4 7, .enterRead 4 0, .deliver 4]

theorem death_notifications_clear :
    (clearRun.foldl run State.initial).history =
        [.clearDone 7, .acknowledged 7, .cleared 7, .deadBinder 7, .queued 7, .requested 7] ∧
      AckBefore (clearRun.foldl run State.initial).history 7 :=
  have hrun : Reaches Step (fun _ op => (!op.isThreadExit) = true) State.initial
      (clearRun.foldl run State.initial) :=
    reaches_of_admissible (by decide +kernel)
  ⟨by decide +kernel, (death_notifications hrun).2.2.2 (fun _ _ h => by simpa using h) 7⟩

end AndroidKernel.Binder
