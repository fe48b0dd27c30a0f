import AndroidKernel.Binder.Objects
import AndroidKernel.Binder.References

/-!
# What the call layer leaves alone

The functions that move transactions between stacks and lists do not touch references or death
notifications, and of a node they write only its one-way flag.
-/

namespace AndroidKernel.Binder

open Library

/-- Whether work is a death notification. -/
def Work.isDeath : Work → Bool
  | .death _ => true
  | .node _ | .transaction _ | .transactionComplete _ => false

/-- A node but for its one-way flag. -/
def Node.withoutAsync (node : Node) : Node :=
  { node with hasAsyncTransaction := false }

/-- A process structure but for its buffers. -/
def Proc.withoutBuffers (proc : Proc) : Proc :=
  { proc with allocatedBuffers := [] }

/-- The two assertions about death notifications. -/
def Crash.isDeathBug : Crash → Bool
  | .bug .clearDeathType | .bug .deferredReleaseDeath => true
  | _ => false

/-- What a call-layer function keeps. -/
structure CallFrame (s s' : State) : Prop where
  nodes : ∀ n, (s'.nodes n).map Node.withoutAsync = (s.nodes n).map Node.withoutAsync
  refs : s'.refs = s.refs
  deaths : s'.deaths = s.deaths
  procs : ∀ p, (s'.procs p).withoutBuffers = (s.procs p).withoutBuffers
  threads : ∀ th, (s'.threads th).map Thread.proc = (s.threads th).map Thread.proc
  lists : ∀ q, (s'.lists.items q).filter Work.isDeath = (s.lists.items q).filter Work.isDeath
  contextMgrNode : s'.contextMgrNode = s.contextMgrNode
  lastId_le : s.lastId ≤ s'.lastId
  freedNodes : s'.freedNodes = s.freedNodes
  refused : s'.refused = s.refused
  history : s'.history = s.history
  crashed : s'.crashed = s.crashed ∨ ∃ c, s'.crashed = some c ∧ c.isDeathBug = false

/-- Erasing an entry that a filter drops does not change what it lets through. -/
theorem filter_erase_of_neg {l : List Work} {p : Work → Bool} {w : Work} (hw : p w = false) :
    (l.erase w).filter p = l.filter p := by
  induction l with
  | nil => rfl
  | cons v rest ih =>
    by_cases hv : v = w
    · subst hv
      simp [hw]
    · rw [List.erase_cons_tail (by simpa using hv)]
      by_cases hp : p v = true
      · simp [hp, ih]
      · simp [hp, ih]

theorem filter_items_addTail {l : LinkedLists ListHead Work} {p : Work → Bool} {w : Work}
    (hw : p w = false) (q r : ListHead) :
    ((l.addTail q w).items r).filter p = (l.items r).filter p := by
  rw [LinkedLists.items_addTail]
  split
  · rename_i hr
    simp [filter_erase_of_neg hw, hw, hr]
  · exact filter_erase_of_neg hw

namespace CallFrame

theorem refl (s : State) : CallFrame s s :=
  ⟨fun _ => rfl, rfl, rfl, fun _ => rfl, fun _ => rfl, fun _ => rfl, rfl, Nat.le_refl _, rfl, rfl,
    rfl, .inl rfl⟩

theorem trans {s t u : State} (h : CallFrame s t) (h' : CallFrame t u) : CallFrame s u where
  nodes n := (h'.nodes n).trans (h.nodes n)
  refs := h'.refs.trans h.refs
  deaths := h'.deaths.trans h.deaths
  procs p := (h'.procs p).trans (h.procs p)
  threads th := (h'.threads th).trans (h.threads th)
  lists q := (h'.lists q).trans (h.lists q)
  contextMgrNode := h'.contextMgrNode.trans h.contextMgrNode
  lastId_le := Nat.le_trans h.lastId_le h'.lastId_le
  freedNodes := h'.freedNodes.trans h.freedNodes
  refused := h'.refused.trans h.refused
  history := h'.history.trans h.history
  crashed := by
    rcases h'.crashed with heq | hnew
    · rw [heq]
      exact h.crashed
    · exact .inr hnew

theorem crash (s : State) {c : Crash} (hc : c.isDeathBug = false) : CallFrame s (s.crash c) := by
  refine { refl s with crashed := ?_ }
  cases hs : s.crashed with
  | none => exact .inr ⟨c, by simp [hs], hc⟩
  | some _ => exact .inl (by simp [hs])

theorem setThread {s : State} {th : Id} {x y : Thread} (hth : s.threads th = some y)
    (hproc : x.proc = y.proc) : CallFrame s (s.setThread th (some x)) := by
  refine { refl s with threads := fun a => ?_ }
  by_cases ha : a = th
  · simp [ha, hth, hproc]
  · simp [ha]

theorem setTransaction (s : State) (t : Id) (x : Option Transaction) :
    CallFrame s (s.setTransaction t x) := { refl s with }

theorem setBuffer (s : State) (b : Id) (x : Option Buffer) : CallFrame s (s.setBuffer b x) :=
  { refl s with }

theorem setAsync {s : State} {n : Id} {node : Node} (hn : s.nodes n = some node) (async : Bool) :
    CallFrame s (s.setNode n (some { node with hasAsyncTransaction := async })) := by
  refine { refl s with nodes := fun m => ?_ }
  by_cases hm : m = n
  · simp [hm, hn, Node.withoutAsync]
  · simp [hm]

theorem setProc {s : State} {p : Id} {x : Proc}
    (hx : x.withoutBuffers = (s.procs p).withoutBuffers) : CallFrame s (s.setProc p x) := by
  refine { refl s with procs := fun q => ?_ }
  by_cases hq : q = p
  · simp [hq, hx]
  · simp [hq]

theorem addTail (s : State) (q : ListHead) {w : Work} (hw : w.isDeath = false) :
    CallFrame s (s.listAddTail q w) :=
  { refl s with lists := fun r => filter_items_addTail hw q r }

theorem del (s : State) {w : Work} (hw : w.isDeath = false) : CallFrame s (s.listDel w) :=
  { refl s with lists := fun _ => filter_erase_of_neg hw }

theorem alloc (s : State) {i : Nat} (hi : s.lastId ≤ i) : CallFrame s { s with lastId := i } :=
  { refl s with lastId_le := hi }

end CallFrame

/-! ## Stacks -/

theorem callFrame_detachBuffer (buffer : Option Id) (s : State) :
    CallFrame s (detachBuffer buffer s) := by
  unfold detachBuffer
  split
  · exact .refl s
  · split
    · exact .crash s rfl
    · exact .setBuffer s _ _

theorem callFrame_binderPopTransaction (th : Option Id) (t : Id) (s : State) :
    CallFrame s (binderPopTransaction th t s) := by
  unfold binderPopTransaction
  split
  · exact .crash s rfl
  rename_i x _
  split
  · exact (callFrame_detachBuffer x.buffer s).trans (.setTransaction _ _ _)
  split
  · exact .crash s rfl
  rename_i thread hth
  split
  · exact .crash s rfl
  · split
    · exact .crash s rfl
    · have hset : CallFrame s _ :=
        .setThread (x := { thread with transactionStack := x.fromParent }) hth rfl
      exact hset.trans ((callFrame_detachBuffer x.buffer _).trans (.setTransaction _ _ _))

theorem shiftError_proc (thread : Thread) : thread.shiftError.proc = thread.proc := by
  unfold Thread.shiftError
  split
  · rfl
  · rfl

theorem callFrame_sendFailedReplyLoop (fuel : Nat) (t : Id) (e : ReturnError) (s : State) :
    CallFrame s (sendFailedReplyLoop fuel t e s) := by
  induction fuel generalizing t s with
  | zero => exact .crash s rfl
  | succ fuel ih =>
    unfold sendFailedReplyLoop
    split
    · exact .crash s rfl
    rename_i x _
    split
    · rename_i th _
      split
      · exact .crash s rfl
      rename_i thread hth
      have hshift : CallFrame s (s.setThread th (some thread.shiftError)) :=
        .setThread hth (shiftError_proc thread)
      simp only
      split
      · have hpop := hshift.trans
          (callFrame_binderPopTransaction (some th) t
            (s.setThread th (some thread.shiftError)))
        split
        · exact hpop.trans (.crash _ rfl)
        · rename_i thread' hth'
          exact hpop.trans (.setThread (x := { thread' with returnError := e }) hth' rfl)
      · exact hshift
    · have hpop := callFrame_binderPopTransaction none t s
      simp only
      split
      · exact hpop
      · exact hpop.trans (ih _ _)

theorem callFrame_binderSendFailedReply (t : Id) (e : ReturnError) (s : State) :
    CallFrame s (binderSendFailedReply t e s) := by
  unfold binderSendFailedReply
  split
  · exact .crash s rfl
  · split
    · exact .crash s rfl
    · exact callFrame_sendFailedReplyLoop ..

theorem callFrame_failTransaction (th : Id) (inReplyTo : Option Id) (e : ReturnError) (s : State) :
    CallFrame s (failTransaction th inReplyTo e s) := by
  unfold failTransaction
  split
  · exact .crash s rfl
  rename_i thread hth
  split
  · exact .crash s rfl
  · split
    · have hset : CallFrame s _ :=
        .setThread (x := { thread with returnError := .transactionComplete }) hth rfl
      exact hset.trans (callFrame_binderSendFailedReply ..)
    · exact .setThread (x := { thread with returnError := e }) hth rfl

theorem callFrame_enqueueTransaction (target : Target) (t : Id) (oneWay : Bool) (s : State) :
    CallFrame s (enqueueTransaction target t oneWay s) := by
  unfold enqueueTransaction
  simp only
  split
  · exact .addTail s _ rfl
  split
  · split
    · exact .crash s rfl
    · rename_i node hn
      split
      · exact .addTail s _ rfl
      · exact (CallFrame.setAsync hn true).trans (.addTail _ _ rfl)
  · exact .addTail s _ rfl

theorem callFrame_pushTransaction (th t : Id) (s : State) :
    CallFrame s (pushTransaction th t s) := by
  unfold pushTransaction
  split
  · exact .crash s rfl
  · rename_i thread hth
    exact .setThread (x := { thread with transactionStack := some t }) hth rfl

theorem callFrame_allocTransaction (th : Id) (tr : TransactionData) (reply : Bool)
    (target : Target) (data : Nat → Nat) (s : State) :
    CallFrame s (allocTransaction th tr reply target data s) := by
  unfold allocTransaction
  simp only
  refine CallFrame.trans ?_ (.setTransaction _ _ _)
  refine CallFrame.trans ?_ (.setBuffer _ _ _)
  exact (CallFrame.alloc s (Nat.le_add_right s.lastId 3)).trans (.setProc rfl)

theorem callFrame_completeTransaction (th : Id) (tr : TransactionData) (reply : Bool)
    (target : Target) (data : Nat → Nat) (s : State) :
    CallFrame s (completeTransaction th tr reply target data s) := by
  unfold completeTransaction
  simp only
  refine CallFrame.trans ?_ (.addTail _ _ rfl)
  refine CallFrame.trans ?_ (callFrame_enqueueTransaction ..)
  have hnew := callFrame_allocTransaction th tr reply target data s
  split
  · exact hnew.trans (callFrame_binderPopTransaction ..)
  · split
    · exact hnew.trans (callFrame_pushTransaction ..)
    · exact hnew

theorem callFrame_replyTarget {th : Id} {thread : Thread} {s : State}
    (hth : s.threads th = some thread) : CallFrame s (replyTarget th thread s).1 := by
  unfold replyTarget
  split
  · exact .refl s
  split
  · exact .refl s
  rename_i x _
  have hset : CallFrame s _ :=
    .setThread (x := { thread with transactionStack := x.toParent }) hth rfl
  split
  · exact .refl s
  simp only
  split
  · exact hset
  · split
    · exact hset
    · split
      · exact hset
      · exact hset

/-! ## Delivery, buffers and thread exit -/

theorem callFrame_detachTransaction (buffer : Buffer) (s : State) :
    CallFrame s (detachTransaction buffer s) := by
  unfold detachTransaction
  split
  · exact .refl s
  · split
    · exact .crash s rfl
    · exact .setTransaction s _ _

theorem callFrame_handOverAsync (th : Id) (buffer : Buffer) (s : State)
    (hasync : ∀ n, ∀ w ∈ s.lists.items (.asyncTodo n), w.isDeath = false) :
    CallFrame s (handOverAsync th buffer s) := by
  unfold handOverAsync
  split
  · rename_i n _ _
    split
    · exact .crash s rfl
    · rename_i node hn
      split
      · exact .crash s rfl
      · split
        · exact .setAsync hn false
        · rename_i w rest hitems
          exact .addTail s _ (hasync n w (by simp [hitems]))
  · exact .refl s

theorem callFrame_binderFreeBuf (p b : Id) (s : State) : CallFrame s (binderFreeBuf p b s) :=
  (CallFrame.setBuffer s b none).trans (.setProc rfl)

theorem callFrame_enterRead {th : Id} {thread : Thread} {s : State}
    (hth : s.threads th = some thread) (room : Nat) :
    CallFrame s (enterRead th thread room s) := by
  unfold enterRead
  split
  · split
    · exact .refl s
    · exact .setThread (x := { thread with returnError2 := .ok, returnError := .ok }) hth rfl
  · exact .setThread (x := { thread with reading := _ }) hth rfl

theorem callFrame_deliverTransaction {th : Id} {thread : Thread} {s : State}
    (hth : s.threads th = some thread) (t : Id) :
    CallFrame s (deliverTransaction th thread t s) := by
  unfold deliverTransaction
  split
  · exact .crash s rfl
  rename_i x _
  split
  · exact .crash s rfl
  rename_i b _
  split
  · exact .crash s rfl
  rename_i buffer _
  split
  · exact .crash s rfl
  split
  · exact .crash s rfl
  have hdel : CallFrame s (s.listDel (.transaction t)) := .del s rfl
  simp only
  split
  · exact (hdel.trans (.setBuffer _ _ _)).trans ((CallFrame.setTransaction _ _ _).trans
      (.setThread (x := { thread with reading := none, transactionStack := some t })
        hth rfl))
  · exact (hdel.trans (.setBuffer _ _ _)).trans ((CallFrame.setTransaction _ _ _).trans
      (.setThread (x := { thread with reading := none }) hth rfl))

theorem callFrame_releaseStack (th : Id) (fuel : Nat) (t : Option Id) (s : State) :
    CallFrame s (releaseStack th fuel t s) := by
  induction fuel generalizing t s with
  | zero =>
    cases t with
    | none => exact .refl s
    | some t => exact .crash s rfl
  | succ fuel ih =>
    cases t with
    | none => exact .refl s
    | some t =>
      unfold releaseStack
      split
      · exact .crash s rfl
      · rename_i x _
        split
        · exact ((callFrame_detachBuffer x.buffer s).trans (.setTransaction _ _ _)).trans (ih _ _)
        · split
          · exact (CallFrame.setTransaction _ _ _).trans (ih _ _)
          · exact .crash s rfl

theorem callFrame_releaseTransaction (t : Id) (s : State) :
    CallFrame s (releaseWorkItem s (.transaction t)) := by
  unfold releaseWorkItem
  have hdel : CallFrame s (s.listDel (.transaction t)) := .del s rfl
  simp only
  split
  · exact hdel.trans (.crash _ rfl)
  · split
    · exact hdel.trans (.crash _ rfl)
    · split
      · exact hdel.trans (.crash _ rfl)
      · split
        · exact hdel.trans (callFrame_binderSendFailedReply ..)
        · exact hdel

theorem callFrame_releaseBuffer (p : Id) (s : State) (b : Id) :
    CallFrame s (releaseBuffer p s b) := by
  unfold releaseBuffer
  split
  · exact .crash s rfl
  · exact (callFrame_detachTransaction ..).trans (callFrame_binderFreeBuf ..)

/-! ## Whole transactions -/

theorem findTargetThread_error (s : State) (p : Id) {c : Crash} (fuel : Nat) (t found : Option Id)
    (h : findTargetThread s p fuel t found = .error c) : c.isDeathBug = false := by
  induction fuel generalizing t found with
  | zero =>
    cases t with
    | none => cases h
    | some t =>
      cases h
      rfl
  | succ fuel ih =>
    cases t with
    | none => cases h
    | some t =>
      unfold findTargetThread at h
      split at h
      · cases h
        rfl
      · split at h
        · exact ih _ _ h
        · split at h
          · cases h
            rfl
          · exact ih _ _ h

/-- Target selection stops the machine only on freed memory or an endless walk. -/
theorem callTarget_stopped {s : State} {th : Id} {thread : Thread} {tr : TransactionData}
    {c : Crash} (h : callTarget s th thread tr = .stopped c) : c.isDeathBug = false := by
  unfold callTarget at h
  split at h
  · cases h
  split at h
  · cases h
    rfl
  split at h
  · cases h
  split at h
  · split at h
    · cases h
      rfl
    · split at h
      · cases h
      · split at h
        · rename_i c' hwalk
          cases h
          exact findTargetThread_error _ _ _ _ _ hwalk
        · cases h
  · cases h

theorem replyTarget_stopped {s : State} {th : Id} {thread : Thread} {c : Crash}
    (h : (replyTarget th thread s).2 = .stopped c) : c.isDeathBug = false := by
  unfold replyTarget at h
  split at h
  · cases h
  split at h
  · cases h
    rfl
  split at h
  · cases h
  simp only at h
  split at h
  · cases h
  · split at h
    · cases h
      rfl
    · split at h
      · cases h
      · cases h

/-- What both layers keep, a transaction keeps. -/
theorem RefClosed.transaction {P : State → Prop} (hP : RefClosed P)
    (hcall : ∀ s s', CallFrame s s' → P s → P s') {s : State} (h : P s) (th : Id)
    (tr : TransactionData) (reply : Bool) (sup : Supply) :
    P (binderTransaction th tr reply sup s) := by
  have hsend : ∀ (s : State) (thread : Thread) (target : Target), P s →
      P (sendTransaction th thread tr reply sup target s) := by
    intro s thread target h
    unfold sendTransaction
    split
    · have hall := hP.translatePayload th thread tr sup target h
      simp only
      split
      · exact hcall _ _ (callFrame_completeTransaction ..) hall
      · exact hcall _ _ (callFrame_failTransaction ..) (hP.bufferRelease _ _ _ hall)
    · exact hcall _ _ (callFrame_failTransaction ..) h
  unfold binderTransaction
  split
  · exact hcall _ _ (.crash s rfl) h
  rename_i thread hth
  have hsel : P (if reply then replyTarget th thread s
        else (s, callTarget s th thread tr)).1 ∧
      ∀ c, (if reply then replyTarget th thread s
        else (s, callTarget s th thread tr)).2 = .stopped c → c.isDeathBug = false := by
    split
    · exact ⟨hcall _ _ (callFrame_replyTarget hth) h, fun c => replyTarget_stopped⟩
    · exact ⟨h, fun c => callTarget_stopped⟩
  generalize (if reply then replyTarget th thread s
      else (s, callTarget s th thread tr)) = out at hsel
  obtain ⟨s1, selected⟩ := out
  cases selected with
  | stopped c => exact hcall _ _ (.crash _ (hsel.2 c rfl)) hsel.1
  | failed inReplyTo e => exact hcall _ _ (callFrame_failTransaction ..) hsel.1
  | target target => exact hsend s1 thread target hsel.1

end AndroidKernel.Binder
