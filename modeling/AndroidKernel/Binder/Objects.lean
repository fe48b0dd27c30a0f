import AndroidKernel.Binder.Driver

/-!
# What transitions are made of

A transition of a thread does nothing or runs its function on that thread. Translating the objects of a transaction and releasing a buffer are sequences of calls of the
reference layer, chosen by the payload. A property that each of those calls keeps is kept by
both loops, whatever the payload is.
-/

namespace AndroidKernel.Binder

open Library

section Requests

variable {P : State → Prop} {s : State} {th : Id} {f : Thread → State → State}

theorem onWrite_keeps (h : P s)
    (hf : ∀ thread, s.threads th = some thread → thread.reading = none →
      thread.returnError = .ok → P (f thread s)) : P (onWrite s th f) := by
  unfold onWrite
  split
  · exact h
  · rename_i thread hth
    split
    · rename_i hok
      exact hf thread hth hok.1 hok.2
    · exact h

theorem onIdle_keeps (h : P s)
    (hf : ∀ thread, s.threads th = some thread → thread.reading = none → P (f thread s)) :
    P (onIdle s th f) := by
  unfold onIdle
  split
  · exact h
  · rename_i thread hth
    split
    · rename_i hok
      exact hf thread hth hok
    · exact h

theorem onRead_keeps (h : P s)
    (hf : ∀ thread, s.threads th = some thread → thread.reading.isSome → P (f thread s)) :
    P (onRead s th f) := by
  unfold onRead
  split
  · exact h
  · rename_i thread hth
    split
    · rename_i hok
      exact hf thread hth hok
    · exact h

end Requests

/-! ## Concrete runs -/

/-- Whether a sequence of transitions meets a guard at each state before the machine stops. -/
def admissible (ok : State → Op → Bool) : State → List Op → Bool
  | _, [] => true
  | s, op :: rest => s.crashed.isNone && ok s op && admissible ok (run s op) rest

/-- An admissible sequence is a run. -/
theorem reaches_of_admissible {ok : State → Op → Bool} {s : State} {ops : List Op}
    (h : admissible ok s ops = true) :
    Reaches Step (fun s op => ok s op = true) s (ops.foldl run s) := by
  induction ops generalizing s with
  | nil => exact .refl s
  | cons op rest ih =>
    simp only [admissible, Bool.and_eq_true, Option.isNone_iff_eq_none] at h
    exact Relation.ReflTransGen.head ⟨op, h.1.2, h.1.1, rfl⟩ (ih h.2)

/-- A sequence that does not stop the machine is a run. -/
theorem reaches_runAll {s : State} {ops : List Op}
    (h : admissible (fun _ _ => true) s ops = true) :
    Reaches Step anyStep s (ops.foldl run s) :=
  (reaches_of_admissible h).mono fun _ _ _ => trivial

/-- Every allocation and every copy from user space succeeds. -/
def Supply.plenty : Supply where
  transaction := true
  tcomplete := true
  buffer := true
  copyData := true
  copyOffsets := true
  node _ := true
  ref _ := true
  fget _ := true
  unusedFd i := some i
  garbage := .failedReply

/-- A transaction whose payload is a list of words, with the given byte offsets of objects. -/
def TransactionData.ofWords (handle : Nat) (oneWay : Bool) (words offsets : List Nat) :
    TransactionData where
  handle := handle
  oneWay := oneWay
  acceptFds := false
  dataSize := 4 * words.length
  data i := words.getD i 0
  offsetsSize := 4 * offsets.length
  offsetArray i := offsets.getD i 0

/-! ## The object loops -/

/-- Finds or makes the reference of a process to a node and counts on it. -/
def takeRef (p n : Id) (memory strong : Bool) (target : Option ListHead) (s : State) : State :=
  match binderGetRefForNode p n memory s with
  | (s, none) => s
  | (s, some r) => (binderIncRef r strong target s).1

/-- A property that the calls of the reference layer keep. A reference is made only to be
counted on at once. -/
structure RefClosed (P : State → Prop) : Prop where
  crash : ∀ s, P s → P (s.crash .freedNode)
  newNode : ∀ p ptr cookie acceptFds memory s, P s →
    P (binderNewNode p ptr cookie acceptFds memory s).1
  takeRef : ∀ p n memory strong target s, P s → P (takeRef p n memory strong target s)
  incNode : ∀ n strong s, P s → P (binderIncNode n strong false none s).1
  decNode : ∀ n strong s, P s → P (binderDecNode n strong false s)
  decRef : ∀ r strong s, P s → P (binderDecRef r strong s)

namespace RefClosed

variable {P : State → Prop}

theorem getOrNewNode (hP : RefClosed P) (p : Id) (fp : FlatObject) (memory : Bool) {s : State}
    (h : P s) : P (getOrNewNode p fp memory s).1 := by
  unfold Binder.getOrNewNode
  cases binderGetNode s p fp.binder with
  | some n => exact h
  | none => exact hP.newNode _ _ _ _ _ _ h

theorem translateBinder (hP : RefClosed P) (p th : Id) (target : Target) (sup : Supply)
    (i off : Nat) (strong : Bool) (data : Nat → Nat) {s : State} (h : P s) :
    P (translateBinder p th target sup i off strong data s).state := by
  unfold Binder.translateBinder
  simp only
  have hnode := hP.getOrNewNode p (readObject data off) (sup.node i) h
  generalize Binder.getOrNewNode p (readObject data off) (sup.node i) s = out at hnode ⊢
  obtain ⟨s1, found⟩ := out
  cases found with
  | none => exact hnode
  | some n =>
    simp only
    split
    · have href := hP.takeRef target.proc n (sup.ref i) strong (some (.threadTodo th)) s1 hnode
      unfold Binder.takeRef at href
      generalize binderGetRefForNode target.proc n (sup.ref i) s1 = out at href ⊢
      obtain ⟨s2, found⟩ := out
      cases found with
      | none => exact href
      | some r => exact href
    · exact hnode

theorem translateHandle (hP : RefClosed P) (p : Id) (target : Target) (sup : Supply)
    (i off : Nat) (strong : Bool) (data : Nat → Nat) {s : State} (h : P s) :
    P (translateHandle p target sup i off strong data s).state := by
  unfold Binder.translateHandle
  simp only
  split
  · exact h
  rename_i ref _
  split
  · exact hP.crash s h
  split
  · exact hP.incNode ref.node strong s h
  · have href := hP.takeRef target.proc ref.node (sup.ref i) strong none s h
    unfold Binder.takeRef at href
    generalize binderGetRefForNode target.proc ref.node (sup.ref i) s = out at href ⊢
    obtain ⟨s2, found⟩ := out
    cases found with
    | none => exact href
    | some r => exact href

theorem translateObject (hP : RefClosed P) (p th : Id) (target : Target) (sup : Supply)
    (dataSize i off : Nat) (data : Nat → Nat) {s : State} (h : P s) :
    P (translateObject p th target sup dataSize i off data s).state := by
  unfold Binder.translateObject
  split
  · exact h
  split
  · exact hP.translateBinder _ _ _ _ _ _ _ _ h
  · exact hP.translateHandle _ _ _ _ _ _ _ h
  · unfold translateFd
    simp only
    split
    · split
      · exact h
      · exact h
    · exact h
  · exact h

/-- The loop over the objects of a transaction. -/
theorem translateObjects (hP : RefClosed P) (p th : Id) (target : Target) (sup : Supply)
    (dataSize i : Nat) (offsets : List Nat) (data : Nat → Nat) {s : State} (h : P s) :
    P (translateObjects p th target sup dataSize i offsets data s).state := by
  induction offsets generalizing i data s with
  | nil => exact h
  | cons off rest ih =>
    have hone := hP.translateObject p th target sup dataSize i off data h
    unfold Binder.translateObjects
    simp only
    split
    · exact hone
    · exact ih (i + 1) _ hone

theorem releaseObject (hP : RefClosed P) (p : Id) (buffer : Buffer) (off : Nat) {s : State}
    (h : P s) : P (releaseObject p buffer s off) := by
  unfold Binder.releaseObject
  split
  · exact h
  simp only
  split
  · split
    · exact hP.decNode _ _ _ h
    · exact h
  · split
    · exact hP.decRef _ _ _ h
    · exact h
  · exact h
  · exact h

theorem bufferRelease (hP : RefClosed P) (p : Id) (buffer : Buffer) (failedAt : Option Nat)
    {s : State} (h : P s) : P (binderTransactionBufferRelease p buffer failedAt s) := by
  have hloop : ∀ (offsets : List Nat) (s : State), P s →
      P (offsets.foldl (Binder.releaseObject p buffer) s) := by
    intro offsets
    induction offsets with
    | nil => exact fun s h => h
    | cons off rest ih => exact fun s h => ih _ (hP.releaseObject p buffer off h)
  unfold binderTransactionBufferRelease releaseTargetNode
  refine hloop _ _ ?_
  split
  · exact hP.decNode _ _ _ h
  · exact h

/-- Taking the target node's count and translating, as `binder_transaction` begins. -/
theorem translatePayload (hP : RefClosed P) (th : Id) (thread : Thread) (tr : TransactionData)
    (sup : Supply) (target : Target) {s : State} (h : P s) :
    P (translatePayload th thread tr sup target s).state := by
  have hcount : P (countTargetNode target s) := by
    unfold countTargetNode
    split
    · exact hP.incNode _ true s h
    · exact h
  unfold Binder.translatePayload
  simp only
  split
  · exact hP.translateObjects _ _ _ _ _ _ _ _ hcount
  · exact hcount

end RefClosed

end AndroidKernel.Binder
