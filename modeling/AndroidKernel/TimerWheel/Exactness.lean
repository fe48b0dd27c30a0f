import AndroidKernel.TimerWheel.Cascades

/-!
# When a timer is run

After it has been added a timer is in one list, once, until the iteration of its expiry takes it,
and then in the work list until it is run. Read `timer_runs_exactly` first.
-/

namespace AndroidKernel.TimerWheel

open Library

variable {small : Bool} {T k index j i n x : Nat} {t timer : Timer} {base : TvecBase} {s s' s₁ : State}
  {op : Op} {ops : List Op} {o : Option Timer}

/-- The timers of a list with an id. -/
def withId (x : Nat) (timers : List Timer) : List Timer :=
  timers.filter fun timer => timer.id = x

theorem withId_append (x : Nat) (first second : List Timer) :
    withId x (first ++ second) = withId x first ++ withId x second :=
  List.filter_append ..

theorem withId_cons (x : Nat) (timer : Timer) (timers : List Timer) :
    withId x (timer :: timers) = if timer.id = x then timer :: withId x timers else withId x timers := by
  unfold withId
  rw [List.filter_cons]
  split_ifs <;> simp_all

theorem withId_remove {y : Nat} (hne : y ≠ x) (timers : List Timer) :
    withId x (timers.filter fun timer => timer.id ≠ y) = withId x timers := by
  unfold withId
  rw [List.filter_filter]
  refine List.filter_congr fun timer _ => ?_
  by_cases heq : timer.id = x
  · simp [heq, Ne.symm hne]
  · simp [heq]

theorem withId_removed (x : Nat) (timers : List Timer) :
    withId x (timers.filter fun timer => timer.id ≠ x) = [] := by
  unfold withId
  rw [List.filter_filter, List.filter_eq_nil_iff]
  intro timer _
  simp

/-- What the wheel has of an id: nothing, or one timer in one list. -/
inductive Content (x : Nat) (base : TvecBase) : Option Timer → Prop
  | absent (h : ∀ k index, withId x (base.vec k index) = []) : Content x base none
  | alone (t : Timer) (j i : Nat) (h : ∀ k index, withId x (base.vec k index) =
      if (k, index) = (j, i) then [t] else []) : Content x base (some t)

theorem withId_internalAddTimer : withId x ((internalAddTimer small base timer).vec k index) =
    withId x (base.vec k index) ++
      if timer.id = x ∧ vecOf small base.timerJiffies timer.expires = (k, index) then [timer]
      else [] := by
  rw [vec_internalAddTimer]
  by_cases hplace : vecOf small base.timerJiffies timer.expires = (k, index)
  · rw [if_pos hplace, withId_append, withId_cons]
    simp [hplace, withId]
  · simp [hplace]

theorem withId_foldl (timers : List Timer) :
    withId x ((timers.foldl (internalAddTimer small) base).vec k index) =
      withId x (base.vec k index) ++ (withId x timers).filter fun timer =>
        vecOf small base.timerJiffies timer.expires = (k, index) := by
  induction timers generalizing base with
  | nil => simp [withId]
  | cons timer timers ih =>
    rw [List.foldl_cons, ih, withId_internalAddTimer, withId_cons, List.append_assoc]
    congr 1
    show _ ++ (withId x timers).filter (fun timer =>
      vecOf small base.timerJiffies timer.expires = (k, index)) = _
    by_cases hid : timer.id = x
    · by_cases hplace : vecOf small base.timerJiffies timer.expires = (k, index)
      · simp [hid, hplace]
      · simp [hid, hplace]
    · simp [hid]

theorem withId_replaceInit : withId x ((replaceInit base j i).2.vec k index) =
    if (k, index) = (j, i) then [] else withId x (base.vec k index) := by
  rw [vec_replaceInit, apply_ite (withId x)]
  rfl

theorem withId_cascade : withId x ((cascade small base j i).vec k index) =
    (if (k, index) = (j, i) then [] else withId x (base.vec k index)) ++
      (withId x (base.vec j i)).filter fun timer =>
        vecOf small base.timerJiffies timer.expires = (k, index) := by
  unfold cascade
  rw [withId_foldl, withId_replaceInit]
  rfl

/-- A timer that is cascaded goes from one list to one list. -/
theorem Content.cascade (h : Content x base o) (small : Bool) (j i : Nat) :
    Content x (cascade small base j i) o := by
  cases h with
  | absent h =>
    refine .absent fun k index => ?_
    rw [withId_cascade, h, h, ite_self]
    rfl
  | alone t j' i' h =>
    by_cases hlist : (j, i) = (j', i')
    · refine .alone t (vecOf small base.timerJiffies t.expires).1
        (vecOf small base.timerJiffies t.expires).2 fun k index => ?_
      rw [withId_cascade, h, h, if_pos hlist, ← hlist]
      by_cases hplace : vecOf small base.timerJiffies t.expires = (k, index)
      · simp [hplace]
      · simp [hplace, Ne.symm hplace]
    · refine .alone t j' i' fun k index => ?_
      rw [withId_cascade, h, h, if_neg hlist, List.filter_nil, List.append_nil]
      by_cases hk : (k, index) = (j, i)
      · rw [if_pos hk, if_neg (hk ▸ hlist)]
      · rw [if_neg hk]

theorem Content.cascades (h : Content x base o) (small : Bool) (k n : Nat) :
    Content x (cascades small base k n) o := by
  induction n generalizing k base with
  | zero => exact h
  | succ n ih =>
    unfold TimerWheel.cascades
    dsimp only
    split
    · exact ih (h.cascade ..) _
    · exact h.cascade ..

/-- A list that is taken off the wheel has the timer, or the wheel keeps it. -/
theorem Content.replaceInit (h : Content x base o) (j i : Nat) :
    (withId x (base.vec j i) = o.toList ∧ Content x (replaceInit base j i).2 none) ∨
      (withId x (base.vec j i) = [] ∧ Content x (replaceInit base j i).2 o) := by
  cases h with
  | absent h =>
    refine Or.inl ⟨h j i, .absent fun k index => ?_⟩
    rw [withId_replaceInit, h, ite_self]
  | alone t j' i' h =>
    by_cases hlist : (j, i) = (j', i')
    · refine Or.inl ⟨?_, .absent fun k index => ?_⟩
      · rw [h, if_pos hlist]
        rfl
      · rw [withId_replaceInit, h, ← hlist]
        by_cases hk : (k, index) = (j, i)
        · rw [if_pos hk]
        · rw [if_neg hk, if_neg hk]
    · refine Or.inr ⟨?_, .alone t j' i' fun k index => ?_⟩
      · rw [h, if_neg hlist]
      · rw [withId_replaceInit, h]
        by_cases hk : (k, index) = (j, i)
        · rw [if_pos hk, if_neg (hk ▸ hlist)]
        · rw [if_neg hk]

theorem Content.iteration (h : Content x base o) (small : Bool) :
    (withId x (runTimersIteration small base).1 = o.toList ∧
        Content x (runTimersIteration small base).2 none) ∨
      (withId x (runTimersIteration small base).1 = [] ∧
        Content x (runTimersIteration small base).2 o) := by
  unfold runTimersIteration
  dsimp only
  have hcascaded : Content x
      (if bucket small 0 base.timerJiffies = 0 then TimerWheel.cascades small base 1 4 else base) o := by
    split
    · exact h.cascades small 1 4
    · exact h
  generalize (if bucket small 0 base.timerJiffies = 0 then TimerWheel.cascades small base 1 4
    else base) = base' at hcascaded
  have hnext : Content x { base' with timerJiffies := wadd base'.timerJiffies 1 } o := by
    cases hcascaded with
    | absent hnone => exact .absent hnone
    | alone t j i hone => exact .alone t j i hone
  exact hnext.replaceInit 0 (bucket small 0 base.timerJiffies)

theorem Content.exists_mem (h : Content x base (some t)) : ∃ k index, t ∈ base.vec k index := by
  cases h with
  | alone t j i h =>
    have hlist := h j i
    rw [if_pos rfl] at hlist
    exact ⟨j, i, List.mem_of_mem_filter (hlist ▸ List.mem_singleton_self t)⟩

theorem Content.detachTimer {y : Nat} (h : Content x base o) (hne : y ≠ x) :
    Content x (detachTimer base y) o := by
  cases h with
  | absent h => exact .absent fun k index => (withId_remove hne _).trans (h k index)
  | alone t j i h => exact .alone t j i fun k index => (withId_remove hne _).trans (h k index)

theorem content_detachTimer (x : Nat) (base : TvecBase) : Content x (detachTimer base x) none :=
  .absent fun _ _ => withId_removed x _

theorem Content.internalAddTimer (h : Content x base o) (small : Bool) (hne : timer.id ≠ x) :
    Content x (internalAddTimer small base timer) o := by
  have hsame (k index : Nat) : withId x ((TimerWheel.internalAddTimer small base timer).vec k index) =
      withId x (base.vec k index) := by
    rw [withId_internalAddTimer, if_neg fun hand => hne hand.1, List.append_nil]
  cases h with
  | absent h => exact .absent fun k index => (hsame k index).trans (h k index)
  | alone t j i h => exact .alone t j i fun k index => (hsame k index).trans (h k index)

theorem Content.added (h : Content t.id base none) (small : Bool) :
    Content t.id (TimerWheel.internalAddTimer small base t) (some t) := by
  cases h with
  | absent h =>
    refine .alone t (vecOf small base.timerJiffies t.expires).1
      (vecOf small base.timerJiffies t.expires).2 fun k index => ?_
    rw [withId_internalAddTimer, h, List.nil_append]
    by_cases hplace : vecOf small base.timerJiffies t.expires = (k, index)
    · rw [if_pos ⟨rfl, hplace⟩, hplace, if_pos rfl]
    · rw [if_neg fun hand => hplace hand.2, if_neg fun heq => hplace heq.symm]

/-! ## Traces -/

/-- A run with the steps it takes. -/
inductive Trace (small : Bool) (s : State) : List Op → State → Prop
  | nil : Trace small s [] s
  | snoc {ops : List Op} {s' s'' : State} {op : Op} (htrace : Trace small s ops s')
      (hstep : Step small s' op s'') : Trace small s (ops ++ [op]) s''

/-- The number of iterations of `__run_timers`. -/
def iterations (ops : List Op) : Nat :=
  ops.countP fun op => match op with | .iteration => true | _ => false

/-- Whether a step modifies or deletes the timer with an id. -/
def Touches (x : Nat) : Op → Prop
  | .modTimer timer => timer.id = x
  | .delTimer id => id = x
  | _ => False

/-- No timer with an id is run. -/
def NoRun (x : Nat) (ops : List Op) : Prop :=
  ∀ timer, .run timer ∈ ops → timer.id ≠ x

/-- The iterations that come before the one that takes a timer: the next one takes what is late. -/
def ahead (T : Nat) (t : Timer) : Nat :=
  if 2 ^ 31 ≤ wsub t.expires T then 0 else wsub t.expires T

theorem iterations_append (first second : List Op) :
    iterations (first ++ second) = iterations first + iterations second :=
  List.countP_append

theorem NoRun.snoc (h : NoRun x ops) (hop : ∀ timer, op = .run timer → timer.id ≠ x) :
    NoRun x (ops ++ [op]) := by
  intro timer hmem
  rcases List.mem_append.mp hmem with hold | hnew
  · exact h timer hold
  · exact hop timer (List.mem_singleton.mp hnew).symm

/-- Where a timer is after some steps, if `d` iterations come before the one that takes it. -/
inductive Phase (t : Timer) (d : Nat) (ops : List Op) (s : State) : Prop
  | waiting (hrun : NoRun t.id ops) (hcount : iterations ops + ahead s.base.timerJiffies t = d)
      (hwheel : Content t.id s.base (some t)) (hwork : withId t.id s.workList = [])
  | taken (hrun : NoRun t.id ops) (hcount : iterations ops = d + 1)
      (hwheel : Content t.id s.base none) (hwork : withId t.id s.workList = [t])
  | done (pre post : List Op) (hops : ops = pre ++ .run t :: post) (hpre : iterations pre = d + 1)
      (hbefore : NoRun t.id pre) (hafter : NoRun t.id post) (hwheel : Content t.id s.base none)
      (hwork : withId t.id s.workList = [])

/-- A step that leaves the timer where it is. -/
theorem Phase.keep {d : Nat} (h : Phase t d ops s) (hrun : ∀ timer, op = .run timer → timer.id ≠ t.id)
    (hcount : iterations [op] = 0)
    (hwheel : ∀ o, Content t.id s.base o → Content t.id s'.base o)
    (htime : s'.base.timerJiffies = s.base.timerJiffies)
    (hwork : withId t.id s'.workList = withId t.id s.workList) : Phase t d (ops ++ [op]) s' := by
  cases h with
  | waiting hrun' hcount' hwheel' hwork' =>
    refine .waiting (hrun'.snoc hrun) ?_ (hwheel _ hwheel') (hwork.trans hwork')
    rw [iterations_append, hcount, htime]
    exact hcount'
  | taken hrun' hcount' hwheel' hwork' =>
    refine .taken (hrun'.snoc hrun) ?_ (hwheel _ hwheel') (hwork.trans hwork')
    rw [iterations_append, hcount]
    exact hcount'
  | done pre post hops hpre hbefore hafter hwheel' hwork' =>
    refine .done pre (post ++ [op]) ?_ hpre hbefore (hafter.snoc hrun) (hwheel _ hwheel')
      (hwork.trans hwork')
    rw [hops, List.append_assoc]
    rfl

theorem ahead_next (hT : T < word) (hnow : t.expires ≠ T) (ht : t.expires < word)
    (hahead : wsub t.expires T < 2 ^ 31) : ahead T t = ahead (wadd T 1) t + 1 := by
  unfold ahead
  rw [if_neg (by omega)]
  unfold wsub wadd at *
  unfold word at *
  split_ifs <;> omega

theorem ahead_eq_zero (hT : T < word) (h : t.expires = T ∨ 2 ^ 31 ≤ wsub t.expires T) :
    ahead T t = 0 := by
  unfold ahead
  split
  · rfl
  · rw [h.resolve_right ‹_›, wsub_eq le_rfl hT, Nat.sub_self]

theorem Phase.iteration {d : Nat} (h : Phase t d ops s) (hplaced : WellPlaced small s.base)
    (hidle : s.workList = []) :
    Phase t d (ops ++ [.iteration])
      { s with
        base := (runTimersIteration small s.base).2
        workList := (runTimersIteration small s.base).1 } := by
  have hspec := runTimersIteration_spec hplaced
  have hcount (ops : List Op) : iterations (ops ++ [.iteration]) = iterations ops + 1 := by
    rw [iterations_append]
    rfl
  cases h with
  | waiting hrun hcount' hwheel hwork =>
    obtain ⟨k, index, hmem⟩ := hwheel.exists_mem
    have hexpires := (hplaced.placed k index t hmem).2.1
    rcases hwheel.iteration small with ⟨htaken, hnone⟩ | ⟨hleft, hsome⟩
    · have hin : t ∈ withId t.id (runTimersIteration small s.base).1 := by
        rw [htaken]
        exact List.mem_singleton_self t
      have ht : t ∈ (runTimersIteration small s.base).1 := List.mem_of_mem_filter hin
      refine .taken (hrun.snoc nofun) ?_ hnone htaken
      rw [hcount, ← hcount', ahead_eq_zero hplaced.lt (hspec.due t ht)]
    · obtain ⟨k', index', hmem'⟩ := hsome.exists_mem
      obtain ⟨hnow, hahead⟩ := hspec.later k' index' t hmem'
      refine .waiting (hrun.snoc nofun) ?_ hsome hleft
      show _ + ahead (runTimersIteration small s.base).2.timerJiffies t = d
      rw [hcount, ← hcount', ahead_next hplaced.lt hnow hexpires hahead, ← hspec.timerJiffies]
      omega
  | taken hrun hcount' hwheel hwork =>
    rw [hidle] at hwork
    cases hwork
  | done pre post hops hpre hbefore hafter hwheel hwork =>
    have hboth := hwheel.iteration small
    rw [Option.toList_none, or_self_iff] at hboth
    refine .done pre (post ++ [.iteration]) ?_ hpre hbefore (hafter.snoc nofun) hboth.2 hboth.1
    rw [hops, List.append_assoc]
    rfl

theorem Phase.run {d : Nat} {rest : List Timer} (h : Phase t d ops s)
    (hnext : s.workList = timer :: rest) :
    Phase t d (ops ++ [.run timer]) { s with workList := rest } := by
  by_cases hid : timer.id = t.id
  · cases h with
    | waiting hrun hcount hwheel hwork =>
      rw [hnext, withId_cons, if_pos hid] at hwork
      cases hwork
    | taken hrun hcount hwheel hwork =>
      rw [hnext, withId_cons, if_pos hid, List.cons.injEq] at hwork
      obtain ⟨rfl, hrest⟩ := hwork
      exact .done ops [] rfl hcount hrun nofun hwheel hrest
    | done pre post hops hpre hbefore hafter hwheel hwork =>
      rw [hnext, withId_cons, if_pos hid] at hwork
      cases hwork
  · refine h.keep (fun other heq => ?_) rfl (fun o hwheel => hwheel) rfl ?_
    · rw [← (Op.run.inj heq)]
      exact hid
    · rw [hnext, withId_cons, if_neg hid]

theorem Phase.step {d : Nat} (h : Phase t d ops s) (hplaced : WellPlaced small s.base)
    (hkeep : ¬Touches t.id op) (hstep : Step small s op s') : Phase t d (ops ++ [op]) s' := by
  cases hstep with
  | modTimer timer hexpires =>
    exact h.keep nofun rfl (fun o hwheel => (hwheel.detachTimer hkeep).internalAddTimer small hkeep)
      rfl (withId_remove hkeep _)
  | delTimer id =>
    exact h.keep nofun rfl (fun o hwheel => hwheel.detachTimer hkeep) rfl (withId_remove hkeep _)
  | tick => exact h.keep nofun rfl (fun o hwheel => hwheel) rfl rfl
  | iteration hidle hdue => exact h.iteration hplaced hidle
  | run timer rest hnext => exact h.run hnext

theorem Trace.wellPlaced (h : WellPlaced small s.base) (htrace : Trace small s ops s') :
    WellPlaced small s'.base := by
  induction htrace with
  | nil => exact h
  | snoc _ hstep ih => exact ih.step hstep

theorem Phase.of_trace {d : Nat} (h : Phase t d [] s) (hplaced : WellPlaced small s.base)
    (htrace : Trace small s ops s') (hkeep : ∀ op ∈ ops, ¬Touches t.id op) : Phase t d ops s' := by
  induction htrace with
  | nil => exact h
  | snoc htrace hstep ih =>
    rw [List.forall_mem_append, List.forall_mem_singleton] at hkeep
    exact (ih hkeep.1).step (htrace.wellPlaced hplaced) hkeep.2 hstep

/-- Each iteration takes one jiffy. -/
theorem Trace.timerJiffies (hplaced : WellPlaced small s.base) (htrace : Trace small s ops s') :
    s'.base.timerJiffies = (s.base.timerJiffies + iterations ops) % word := by
  induction htrace with
  | nil => exact (Nat.mod_eq_of_lt hplaced.lt).symm
  | snoc htrace hstep ih =>
    rw [iterations_append]
    cases hstep with
    | iteration hidle hdue =>
      have hspec := runTimersIteration_spec (htrace.wellPlaced hplaced)
      show (runTimersIteration small _).2.timerJiffies = _
      rw [hspec.timerJiffies, ih, wadd, Nat.mod_add_mod, Nat.add_assoc]
      rfl
    | modTimer timer hexpires => exact ih
    | delTimer id => exact ih
    | tick => exact ih
    | run timer rest hnext => exact ih

/-- A timer that is added to a wheel in any state a run reaches, and what follows until it is
modified or deleted: it is run at most once, after the iteration has begun before which as many
iterations come as its expiry is ahead, and that one is over only when it has been run. The
iteration has the expiry as its `timer_jiffies`, unless the timer was late and it is the next one. -/
theorem timer_runs_exactly {jiffies : Nat} (hjiffies : jiffies < word)
    (hreach : Reaches (Step small) anyStep (State.initial jiffies) s)
    (hadd : Step small s (.modTimer t) s₁) (htrace : Trace small s₁ ops s')
    (hkeep : ∀ op ∈ ops, ¬Touches t.id op) :
    ((NoRun t.id ops ∧ (s'.workList = [] → iterations ops ≤ ahead s.base.timerJiffies t)) ∨
      ∃ pre post, ops = pre ++ .run t :: post ∧
        iterations pre = ahead s.base.timerJiffies t + 1 ∧ NoRun t.id pre ∧ NoRun t.id post) ∧
    (iterations ops = ahead s.base.timerJiffies t → wsub t.expires s.base.timerJiffies < 2 ^ 31 →
      s'.base.timerJiffies = t.expires) := by
  have hplaced : WellPlaced small s.base :=
    hreach.invariant (fun s => WellPlaced small s.base) (fun _ _ _ h _ hstep => h.step hstep)
      (wellPlaced_initial hjiffies)
  have hplaced₁ := hplaced.step hadd
  cases hadd with
  | modTimer _ hexpires =>
    have hphase : Phase t (ahead s.base.timerJiffies t) [] (modTimer small s t) :=
      .waiting nofun (Nat.zero_add _) ((content_detachTimer t.id s.base).added small)
        (withId_removed t.id s.workList)
    constructor
    · cases hphase.of_trace hplaced₁ htrace hkeep with
      | waiting hrun hcount hwheel hwork => exact Or.inl ⟨hrun, fun _ => by omega⟩
      | taken hrun hcount hwheel hwork =>
        refine Or.inl ⟨hrun, fun hidle => ?_⟩
        rw [hidle] at hwork
        cases hwork
      | done pre post hops hpre hbefore hafter hwheel hwork =>
        exact Or.inr ⟨pre, post, hops, hpre, hbefore, hafter⟩
    · intro hcount hahead
      have htime := htrace.timerJiffies hplaced₁
      have hdist : ahead s.base.timerJiffies t = wsub t.expires s.base.timerJiffies :=
        if_neg (by omega)
      rw [htime, hcount, hdist]
      exact due_mod s.base.timerJiffies hexpires

/-- A timer for the jiffy after the last one of the range of words, and what two iterations leave. -/
def wrapping : State :=
  modTimer false (State.initial (word - 1)) ⟨1, 0, false⟩

def wrapped : State :=
  { wrapping with
    base := (runTimersIteration false wrapping.base).2
    workList := (runTimersIteration false wrapping.base).1
    jiffies := 0 }

def overdue : State :=
  { wrapped with
    base := (runTimersIteration false wrapped.base).2
    workList := (runTimersIteration false wrapped.base).1 }

theorem workList_overdue : overdue.workList = [⟨1, 0, false⟩] := by
  decide +kernel

theorem trace_wrapping : Trace false wrapping [.iteration, .tick, .iteration, .run ⟨1, 0, false⟩]
    { overdue with workList := [] } := by
  have hfirst : Trace false wrapping [.iteration] { wrapped with jiffies := word - 1 } :=
    .snoc .nil (.iteration rfl (by decide))
  have hsecond : Trace false wrapping [.iteration, .tick] wrapped := hfirst.snoc .tick
  have hidle : wrapped.workList = [] := by decide +kernel
  have hthird : Trace false wrapping [.iteration, .tick, .iteration] overdue :=
    hsecond.snoc (.iteration hidle (by decide +kernel))
  exact hthird.snoc (.run _ _ workList_overdue)

theorem timer_runs_exactly_wrapping :
    ∃ pre post, ([.iteration, .tick, .iteration, .run ⟨1, 0, false⟩] : List Op) =
      pre ++ .run ⟨1, 0, false⟩ :: post ∧ iterations pre = 2 := by
  have hadd : Step false (State.initial (word - 1)) (.modTimer ⟨1, 0, false⟩) wrapping :=
    .modTimer _ (by decide)
  have hkeep : ∀ op ∈ ([.iteration, .tick, .iteration, .run ⟨1, 0, false⟩] : List Op),
      ¬Touches 1 op := by
    simp [Touches]
  have h := (timer_runs_exactly (by decide) (Reaches.refl _) hadd trace_wrapping hkeep).1
  rcases h with ⟨hrun, -⟩ | ⟨pre, post, hops, hpre, -⟩
  · exact absurd rfl (hrun ⟨1, 0, false⟩ (by simp))
  · exact ⟨pre, post, hops, hpre⟩

end AndroidKernel.TimerWheel
