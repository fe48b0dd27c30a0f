import AndroidKernel.Locks.Runs
import AndroidKernel.Library.Acyclic

/-!
# Deadlock detection

Read `posix_locks_no_deadlock` first: as long as no walk of `posix_locks_deadlock` is cut off, no
owner waits for itself, directly or through others.
-/

namespace AndroidKernel.Locks

open Library Relation

universe u v

variable {Inode : Type v} {Owner : Type u}

/-- The owner `o` waits for a lock of `o'`. -/
def Waits (s : Locks Inode Owner) (o o' : Owner) : Prop :=
  ∃ w b, s.next w = some b ∧ (s.heap w).owner = o ∧ (s.heap b).owner = o'

/-- A sound state of the waiting requests: `blocked_list` has them, they wait for locks in lists,
and each owner waits at most once. -/
structure WaitOk (s : Locks Inode Owner) : Prop where
  blocked : ∀ w, w ∈ s.blockedList ↔ s.next w ≠ none
  nodup : s.blockedList.Nodup
  listed : ∀ w b, s.next w = some b → ∃ i, b ∈ s.iFlock i
  unlisted : ∀ w, s.next w ≠ none → ∀ i, w ∉ s.iFlock i
  once : ∀ w w', s.next w ≠ none → s.next w' ≠ none → (s.heap w).owner = (s.heap w').owner → w = w'
  acyclic : Acyclic (Waits s)

/-! ## Waits that end -/

/-- Some waits have ended, and only the structures in `new` have other owners. -/
structure Calm (s : Locks Inode Owner) (new : List Ptr) (s' : Locks Inode Owner) : Prop where
  next : ∀ w b, s'.next w = some b → s.next w = some b
  blocked : ∀ w, w ∈ s'.blockedList ↔ w ∈ s.blockedList ∧ (s'.next w ≠ none ∨ s.next w = none)
  nodup : s.blockedList.Nodup → s'.blockedList.Nodup
  owner : ∀ p, p ∉ new → (s'.heap p).owner = (s.heap p).owner

variable {s s' : Locks Inode Owner} {new : List Ptr}

theorem Calm.refl (s : Locks Inode Owner) (new : List Ptr) : Calm s new s := by
  refine ⟨fun _ _ h => h, ?_, fun h => h, fun _ _ => rfl⟩
  intro w
  have := Classical.em (s.next w = none)
  tauto

theorem Calm.trans {s₁ s₂ : Locks Inode Owner} (h : Calm s new s₁) (h' : Calm s₁ new s₂) :
    Calm s new s₂ := by
  refine ⟨fun w b hw => h.next w b (h'.next w b hw), ?_, fun hn => h'.nodup (h.nodup hn), ?_⟩
  · intro w
    have h1 : s₁.next w ≠ none → s.next w ≠ none := by
      intro hw
      obtain ⟨b, hb⟩ := Option.ne_none_iff_exists'.mp hw
      rw [h.next w b hb]
      exact Option.some_ne_none b
    have h2 : s₂.next w ≠ none → s₁.next w ≠ none := by
      intro hw
      obtain ⟨b, hb⟩ := Option.ne_none_iff_exists'.mp hw
      rw [h'.next w b hb]
      exact Option.some_ne_none b
    rw [h'.blocked w, h.blocked w]
    tauto
  · intro p hp
    rw [h'.owner p hp, h.owner p hp]

theorem Calm.modify (h : Calm s new s') {p : Ptr} {f : FileLock Owner → FileLock Owner}
    (hf : p ∉ new → ∀ lock, (f lock).owner = lock.owner) : Calm s new (Locks.modify s' p f) := by
  refine ⟨h.next, h.blocked, h.nodup, ?_⟩
  intro q hq
  by_cases hqp : q = p
  · subst hqp
    rw [heap_modify_self, hf hq]
    exact h.owner q hq
  · rw [heap_modify_of_ne s' f hqp]
    exact h.owner q hq

theorem Calm.wake (h : Calm s new s') (p : Ptr) : Calm s new (locksWakeUpBlocks s' p) := by
  refine ⟨?_, ?_, ?_, h.owner⟩
  · intro w b hw
    unfold locksWakeUpBlocks at hw
    dsimp only at hw
    split_ifs at hw with hp
    exact h.next w b hw
  · intro w
    unfold locksWakeUpBlocks
    dsimp only
    rw [List.mem_filter, decide_eq_true_eq, h.blocked w]
    by_cases hp : s'.next w = some p
    · have := h.next w p hp
      rw [if_pos hp, this]
      simp [hp]
    · rw [if_neg hp]
      simp [hp]
  · intro hnodup
    exact (h.nodup hnodup).filter _

/-- A lock that somebody waits for stays in the list. -/
def Kept (old : List Ptr) (s : Locks Inode Owner) (ptrs : List Ptr) : Prop :=
  ∀ w b, s.next w = some b → b ∈ old → b ∈ ptrs

/-- Those who wait for a lock are woken up when it is deleted. -/
theorem Kept.wake {old xs ys : List Ptr} {p : Ptr} (h : Kept old s (xs ++ p :: ys)) :
    Kept old (locksWakeUpBlocks s p) (xs ++ ys) := by
  intro w b hw hb
  unfold locksWakeUpBlocks at hw
  dsimp only at hw
  split_ifs at hw with hp
  have hne : b ≠ p := by
    rintro rfl
    exact hp hw
  rcases List.mem_append.mp (h w b hw hb) with hmem | hmem
  · exact List.mem_append_left _ hmem
  · exact List.mem_append_right _ ((List.mem_cons.mp hmem).resolve_left hne)

section Scan

variable {skipped old : List Ptr}

/-- What the second loop of `__posix_lock_file` keeps: locks that it takes from the list have no
waiters any more. -/
structure Scanned (s : Locks Inode Owner) (new old skipped : List Ptr) (t : Pass Inode Owner)
    (rest : List Ptr) : Prop where
  calm : Calm s new t.s
  flock : t.s.iFlock = s.iFlock
  kept : Kept old t.s (skipped ++ t.before ++ rest)
  mem : ∀ p ∈ skipped ++ t.before ++ rest, p ∈ old

theorem Calm.merge {t : Pass Inode Owner} (h : Calm s new t.s) (fl : Ptr) :
    Calm s new (t.merge fl).s := by
  unfold Pass.merge
  dsimp only
  refine Calm.modify (Calm.modify h ?_) ?_
  · exact fun _ _ => rfl
  · exact fun _ _ => rfl

theorem Calm.replace {t : Pass Inode Owner} (h : Calm s new t.s) (fl : Ptr) :
    Calm s new (t.replace fl).s := by
  unfold Pass.replace
  dsimp only
  refine Calm.modify (h.wake fl) ?_
  exact fun _ _ => rfl

theorem Scanned.delete {t t' : Pass Inode Owner} {fl : Ptr} {rest : List Ptr}
    (h : Scanned s new old skipped t (fl :: rest)) (hcalm : Calm s new t'.s)
    (hflock : t'.s.iFlock = t.s.iFlock) (hnext : t'.s.next = t.s.next)
    (hbefore : t'.before = t.before) :
    Scanned s new old skipped (t'.locksDeleteLock fl) rest := by
  refine ⟨hcalm.wake fl, hflock.trans h.flock, ?_, ?_⟩
  · refine Kept.wake (p := fl) ?_
    intro w b hw hb
    rw [hnext] at hw
    show b ∈ skipped ++ t'.before ++ fl :: rest
    rw [hbefore]
    exact h.kept w b hw hb
  · intro p hp
    refine h.mem p ?_
    rw [← hbefore]
    rcases List.mem_append.mp hp with hp | hp
    · exact List.mem_append_left _ hp
    · exact List.mem_append_right _ (List.mem_cons_of_mem _ hp)

theorem Scanned.pass {t t' : Pass Inode Owner} {fl : Ptr} {rest : List Ptr}
    (h : Scanned s new old skipped t (fl :: rest)) (hcalm : Calm s new t'.s)
    (hflock : t'.s.iFlock = t.s.iFlock)
    (hnext : ∀ w b, t'.s.next w = some b → t.s.next w = some b) (hbefore : t'.before = t.before) :
    Scanned s new old skipped (t'.nextLock fl) rest := by
  have happend : skipped ++ (t'.nextLock fl).before ++ rest = skipped ++ t.before ++ fl :: rest := by
    rw [← append_passed, ← hbefore]
    rfl
  refine ⟨hcalm, hflock.trans h.flock, ?_, ?_⟩
  · rw [happend]
    intro w b hw hb
    exact h.kept w b (hnext w b hw) hb
  · rw [happend]
    exact h.mem

theorem Calm.trimLeft (h : Calm s new s') (request : Ptr) (left : Option Ptr) :
    Calm s new (Locks.trimLeft s' request left) := by
  cases left with
  | none => exact h
  | some l =>
    rw [Locks.trimLeft]
    refine Calm.wake (Calm.modify h ?_) l
    exact fun _ _ => rfl

theorem Calm.trimRight (h : Calm s new s') (request right : Ptr) :
    Calm s new (Locks.trimRight s' request right) := by
  rw [Locks.trimRight]
  refine Calm.wake (Calm.modify h ?_) right
  exact fun _ _ => rfl

theorem Calm.copy (h : Calm s new s') {n fl : Ptr} (hn : n ∈ new) :
    Calm s new (locksCopyLock s' n fl) := by
  rw [locksCopyLock]
  exact Calm.modify h fun hno => absurd hn hno

variable [DecidableEq Owner]

theorem Scanned.scan {t : Pass Inode Owner} {rest : List Ptr}
    (h : Scanned s new old skipped t rest) :
    Scanned s new old skipped (Locks.scan t rest).1 (Locks.scan t rest).2 := by
  induction rest generalizing t with
  | nil => exact h
  | cons fl rest ih =>
    rw [Locks.scan]
    split_ifs with h1 h2 h3 h4 h5 h6 h7 h8 h9 h10
    · exact h
    · exact ih (h.pass h.calm rfl (fun _ _ hw => hw) rfl)
    · exact h
    · exact ih (h.delete (h.calm.merge fl) rfl rfl rfl)
    · exact ih (h.pass (h.calm.merge fl) rfl (fun _ _ hw => hw) rfl)
    · exact ih (h.pass h.calm rfl (fun _ _ hw => hw) rfl)
    · exact h
    · exact ⟨h.calm, h.flock, h.kept, h.mem⟩
    · exact ih (h.delete h.calm rfl rfl rfl)
    · have hcalm : Calm s new ((t.touch fl).replace fl).s :=
        @Calm.replace _ _ s new (t.touch fl) h.calm fl
      refine ih (@Scanned.pass _ _ s new skipped old t (((t.touch fl).replace fl).adopt fl) fl
        rest h hcalm rfl ?_ rfl)
      intro w b hw
      have hw : (locksWakeUpBlocks t.s fl).next w = some b := hw
      unfold locksWakeUpBlocks at hw
      dsimp only at hw
      split_ifs at hw with hp
      exact hw
    · exact ih (h.pass h.calm rfl (fun _ _ hw => hw) rfl)

/-! ## After the loop -/

/-- The waits after a call, and the lists that it leaves. -/
structure Settled (s : Locks Inode Owner) (new : List Ptr) (s' : Locks Inode Owner) : Prop where
  calm : Calm s new s'
  kept : ∀ j, Kept (s.iFlock j) s' (s'.iFlock j)
  mem : ∀ j, ∀ p ∈ s'.iFlock j, p ∈ s.iFlock j ∨ p ∈ new

variable [DecidableEq Inode] {i : Inode}

/-- The call ends with the list that the loop left, and new locks in between. -/
theorem Scanned.close {t : Pass Inode Owner} {rest mid : List Ptr} {code : Code}
    {s' : Locks Inode Owner} (h : Scanned s new (s.iFlock i) skipped t rest)
    (hcalm : Calm t.s new s') (hflock : s'.iFlock = t.s.iFlock) (hmid : ∀ p ∈ mid, p ∈ new) :
    Settled s new (Locks.close i skipped t rest code (s', mid)).2 := by
  have hself : (Locks.close i skipped t rest code (s', mid)).2.iFlock i =
      skipped ++ t.before ++ mid ++ rest := Function.update_self _ _ _
  have hall := h.calm.trans hcalm
  have hother : ∀ j ≠ i, (Locks.close i skipped t rest code (s', mid)).2.iFlock j = s.iFlock j := by
    intro j hj
    have hupdate : (Locks.close i skipped t rest code (s', mid)).2.iFlock j = s'.iFlock j :=
      Function.update_of_ne hj _ _
    rw [hupdate, hflock, h.flock]
  refine ⟨⟨hall.next, hall.blocked, hall.nodup, hall.owner⟩, ?_, ?_⟩
  · intro j w b hw hb
    by_cases hj : j = i
    · subst hj
      rw [hself]
      rcases List.mem_append.mp (h.kept w b (hcalm.next w b hw) hb) with hmem | hmem
      · exact List.mem_append_left _ (List.mem_append_left _ hmem)
      · exact List.mem_append_right _ hmem
    · rw [hother j hj]
      exact hb
  intro j p hp
  by_cases hj : j = i
  · subst hj
    rw [hself] at hp
    rcases List.mem_append.mp hp with hp | hp
    · rcases List.mem_append.mp hp with hp | hp
      · exact .inl (h.mem p (List.mem_append_left _ hp))
      · exact .inr (hmid p hp)
    · exact .inl (h.mem p (List.mem_append_right _ hp))
  · rw [hother j hj] at hp
    exact .inl hp

/-- The neighbours of the new lock were trimmed. -/
theorem Scanned.trim {t t' : Pass Inode Owner} {rest mid : List Ptr} {newFl2 : Option Ptr}
    {code : Code} (h : Scanned s new (s.iFlock i) skipped t rest) (hcalm : Calm t.s new t'.s)
    (hflock : t'.s.iFlock = t.s.iFlock) (hmid : ∀ p ∈ mid, p ∈ new)
    (hnew : ∀ n, newFl2 = some n → n ∈ new) :
    Settled s new (Locks.close i skipped t rest code (Locks.trim t' newFl2 mid)).2 := by
  rw [Locks.trim.eq_def]
  cases hright : t'.right with
  | none => exact h.close (hcalm.trimLeft _ _) ((iFlock_trimLeft _ _ _).trans hflock) hmid
  | some right =>
    dsimp only
    split_ifs with hboth
    · cases newFl2 with
      | none => exact h.close hcalm hflock hmid
      | some left =>
        have hleft := hnew left rfl
        refine h.close (((hcalm.copy hleft).trimRight _ _).trimLeft _ _)
          ((iFlock_trimLeft _ _ _).trans hflock) ?_
        exact List.forall_mem_cons.mpr ⟨hleft, hmid⟩
    · exact h.close ((hcalm.trimRight _ _).trimLeft _ _)
        ((iFlock_trimLeft _ _ _).trans hflock) hmid

/-- `__posix_lock_file` after its second loop. -/
theorem Scanned.finish {t : Pass Inode Owner} {rest : List Ptr} {flags : Flags}
    {newFl newFl2 : Option Ptr} (h : Scanned s new (s.iFlock i) skipped t rest)
    (hnew : ∀ n, newFl = some n → n ∈ new) (hnew2 : ∀ n, newFl2 = some n → n ∈ new) :
    Settled s new (Locks.finish i skipped flags newFl newFl2 t rest).2 := by
  have hsame : ∀ code, Settled s new (Locks.close i skipped t rest code (t.s, [])).2 :=
    fun code => h.close (.refl _ _) rfl nofun
  rw [Locks.finish.eq_def]
  split_ifs with hfail hadded htype
  · exact hsame _
  · exact h.trim (.refl _ _) rfl nofun hnew2
  · exact hsame _
  · exact hsame _
  cases newFl with
  | none => exact hsame _
  | some n =>
    have hn := hnew n rfl
    refine @Scanned.trim _ _ s new skipped _ _ i t
      { t with s := locksCopyLock t.s n t.request } rest [n] newFl2 _ h
      ((Calm.refl _ _).copy hn) rfl ?_ hnew2
    exact List.forall_mem_cons.mpr ⟨hn, nofun⟩

/-- `__posix_lock_file` once there is no conflict. -/
theorem setLocks_settled {request : Ptr} {flags : Flags} {newFl newFl2 : Option Ptr}
    (hnew : ∀ n, newFl = some n → n ∈ new) (hnew2 : ∀ n, newFl2 = some n → n ∈ new) :
    Settled s new (setLocks s i request flags newFl newFl2).2 := by
  have hall : (s.iFlock i).takeWhile (otherOwner s request) ++ [] ++
      (s.iFlock i).dropWhile (otherOwner s request) = s.iFlock i := by
    rw [List.append_nil, List.takeWhile_append_dropWhile]
  have hscan : Scanned s new (s.iFlock i) ((s.iFlock i).takeWhile (otherOwner s request))
      ⟨s, [], request, false, none, none⟩ ((s.iFlock i).dropWhile (otherOwner s request)) := by
    refine ⟨.refl _ _, rfl, ?_, ?_⟩
    · rw [hall]
      exact fun _ _ _ hb => hb
    · rw [hall]
      exact fun _ hp => hp
  exact hscan.scan.finish hnew hnew2

end Scan

/-! ## Waits -/

/-- Waits in a later state are waits in the earlier one. -/
theorem Settled.waits (hs : Settled s new s') (h : WaitOk s) (hnew : ∀ p ∈ new, Free s p)
    {o o' : Owner} (hw : Waits s' o o') : Waits s o o' := by
  obtain ⟨w, b, hnext, rfl, rfl⟩ := hw
  have hnext' := hs.calm.next w b hnext
  obtain ⟨j, hb⟩ := h.listed w b hnext'
  have hwn : w ∉ new := by
    intro hmem
    rw [(hnew w hmem).2] at hnext'
    cases hnext'
  have hbn : b ∉ new := fun hmem => (hnew b hmem).1 j hb
  exact ⟨w, b, hnext', (hs.calm.owner w hwn).symm, (hs.calm.owner b hbn).symm⟩

/-- A call that adds no wait keeps the state sound. -/
theorem WaitOk.settled (h : WaitOk s) (hs : Settled s new s') (hnew : ∀ p ∈ new, Free s p) :
    WaitOk s' := by
  have hwait : ∀ w, s'.next w ≠ none → s.next w ≠ none ∧ w ∉ new := by
    intro w hw
    obtain ⟨b, hb⟩ := Option.ne_none_iff_exists'.mp hw
    have hnext := hs.calm.next w b hb
    have hne : s.next w ≠ none := by
      rw [hnext]
      exact Option.some_ne_none b
    exact ⟨hne, fun hmem => hne (hnew w hmem).2⟩
  refine ⟨?_, hs.calm.nodup h.nodup, ?_, ?_, ?_, ?_⟩
  · intro w
    have := hwait w
    rw [hs.calm.blocked w, h.blocked w]
    tauto
  · intro w b hw
    obtain ⟨j, hb⟩ := h.listed w b (hs.calm.next w b hw)
    exact ⟨j, hs.kept j w b hw hb⟩
  · intro w hw j hmem
    obtain ⟨hne, hno⟩ := hwait w hw
    rcases hs.mem j w hmem with hmem | hmem
    · exact h.unlisted w hne j hmem
    · exact hno hmem
  · intro w w' hw hw' howner
    obtain ⟨hne, hno⟩ := hwait w hw
    obtain ⟨hne', hno'⟩ := hwait w' hw'
    rw [hs.calm.owner w hno, hs.calm.owner w' hno'] at howner
    exact h.once w w' hne hne' howner
  · exact h.acyclic.mono fun _ _ hw => hs.waits h hnew hw

/-- The request of a call is filled in. -/
theorem settled_fill (s : Locks Inode Owner) (request : Ptr) (fl : FileLock Owner) :
    Settled s [request] (modify s request fun _ => fl) := by
  refine ⟨(Calm.refl _ _).modify fun hno => absurd List.mem_cons_self hno, ?_, ?_⟩
  · exact fun _ _ _ _ hb => hb
  · exact fun _ _ hp => .inl hp

theorem WaitOk.settled_cancel (h : WaitOk s) (waiter : Ptr) :
    Settled s [] (locksDeleteBlock s waiter) := by
  have hnext : ∀ w, (locksDeleteBlock s waiter).next w = if w = waiter then none else s.next w := by
    intro w
    exact Function.update_apply _ _ _ _
  refine ⟨⟨?_, ?_, fun hn => hn.erase waiter, fun _ _ => rfl⟩, ?_, ?_⟩
  · intro w b hw
    rw [hnext w] at hw
    split_ifs at hw with heq
    exact hw
  · intro w
    have hmem : w ∈ (locksDeleteBlock s waiter).blockedList ↔ w ≠ waiter ∧ w ∈ s.blockedList :=
      h.nodup.mem_erase_iff
    rw [hmem, hnext w]
    have hb := h.blocked w
    by_cases heq : w = waiter
    · rw [if_pos heq]
      tauto
    · rw [if_neg heq]
      tauto
  · exact fun _ _ _ _ hb => hb
  · exact fun _ _ hp => .inl hp

/-! ## The walk -/

section Walk

theorem WaitOk.insertBlock (h : WaitOk s) {i : Inode} {blocker waiter : Ptr}
    (hfree : Free s waiter) (hblocker : blocker ∈ s.iFlock i)
    (honce : ∀ w, s.next w ≠ none → (s.heap w).owner ≠ (s.heap waiter).owner)
    (hne : (s.heap waiter).owner ≠ (s.heap blocker).owner)
    (hno : ¬ TransGen (Waits s) (s.heap blocker).owner (s.heap waiter).owner) :
    WaitOk (locksInsertBlock s blocker waiter) := by
  have hnext : ∀ w, (locksInsertBlock s blocker waiter).next w =
      if w = waiter then some blocker else s.next w := by
    intro w
    exact Function.update_apply _ _ _ _
  refine ⟨?_, ?_, ?_, ?_, ?_, ?_⟩
  · intro w
    rw [hnext w, locksInsertBlock, List.mem_cons, h.blocked w]
    by_cases heq : w = waiter
    · simp [heq]
    · simp [heq]
  · refine List.nodup_cons.mpr ⟨?_, h.nodup⟩
    rw [h.blocked]
    exact fun hc => hc hfree.2
  · intro w b hw
    rw [hnext w] at hw
    split_ifs at hw with heq
    · cases hw
      exact ⟨i, hblocker⟩
    · exact h.listed w b hw
  · intro w hw
    rw [hnext w] at hw
    split_ifs at hw with heq
    · rw [heq]
      exact hfree.1
    · exact h.unlisted w hw
  · intro w w' hw hw' howner
    rw [hnext w] at hw
    rw [hnext w'] at hw'
    have howner : (s.heap w).owner = (s.heap w').owner := howner
    split_ifs at hw hw' with heq heq' heq'
    · rw [heq, heq']
    · rw [heq] at howner
      exact absurd howner.symm (honce w' hw')
    · rw [heq'] at howner
      exact absurd howner (honce w hw)
    · exact h.once w w' hw hw' howner
  refine h.acyclic.insert (c := (s.heap waiter).owner) (d := (s.heap blocker).owner) ?_ ?_
  · rintro _ _ ⟨w, b, hw, rfl, rfl⟩
    rw [hnext w] at hw
    split_ifs at hw with heq
    · cases hw
      rw [heq]
      exact .inr ⟨rfl, rfl⟩
    · exact .inl ⟨w, b, hw, rfl, rfl⟩
  · intro hpath
    rcases reflTransGen_iff_eq_or_transGen.mp hpath with heq | hpath
    · exact hne heq
    · exact hno hpath

variable [DecidableEq Owner]

/-- The waits from a lock on come to an end within `n` steps. -/
def chainEnds (s : Locks Inode Owner) : Nat → Ptr → Bool
  | 0, blockFl => (whatOwnerIsWaitingFor s blockFl).isNone
  | n + 1, blockFl =>
    match whatOwnerIsWaitingFor s blockFl with
    | none => true
    | some blockFl => chainEnds s n blockFl

/-- `what_owner_is_waiting_for` finds the wait of the owner. -/
theorem WaitOk.whatOwner_eq (h : WaitOk s) {p w b : Ptr} (hnext : s.next w = some b)
    (howner : (s.heap w).owner = (s.heap p).owner) : whatOwnerIsWaitingFor s p = some b := by
  unfold whatOwnerIsWaitingFor
  have hw : s.next w ≠ none := by
    rw [hnext]
    exact Option.some_ne_none b
  cases hfind : s.blockedList.find? fun fl => posixSameOwner (s.heap fl) (s.heap p) with
  | none =>
    have hno := List.find?_eq_none.mp hfind w ((h.blocked w).mpr hw)
    exact absurd (decide_eq_true howner) hno
  | some w' =>
    have hfound := List.find?_some hfind
    have hsame : (s.heap w').owner = (s.heap p).owner := of_decide_eq_true hfound
    have hw' := (h.blocked w').mp (List.mem_of_find?_eq_some hfind)
    rw [h.once w' w hw' hw (hsame.trans howner.symm)]
    exact hnext

/-- What `what_owner_is_waiting_for` returns, the owner waits for. -/
theorem waits_of_whatOwner {p b : Ptr} (h : whatOwnerIsWaitingFor s p = some b) :
    Waits s (s.heap p).owner (s.heap b).owner := by
  unfold whatOwnerIsWaitingFor at h
  obtain ⟨w, hfind, hnext⟩ := Option.bind_eq_some_iff.mp h
  have hfound := List.find?_some hfind
  exact ⟨w, b, hnext, of_decide_eq_true hfound, rfl⟩

/-- `posix_locks_deadlock` finds only owners that wait for the caller. -/
theorem waits_of_deadlockWalk {callerFl p : Ptr} {n : Nat}
    (h : deadlockWalk s callerFl n p = true) :
    TransGen (Waits s) (s.heap p).owner (s.heap callerFl).owner := by
  induction n generalizing p with
  | zero => cases h
  | succ n ih =>
    rw [deadlockWalk] at h
    cases hwhat : whatOwnerIsWaitingFor s p with
    | none =>
      rw [hwhat] at h
      cases h
    | some b =>
      rw [hwhat] at h
      dsimp only at h
      have hstep := waits_of_whatOwner hwhat
      split_ifs at h with hsame
      · rw [of_decide_eq_true hsame]
        exact .single hstep
      · exact .head hstep (ih h)

/-- If the walk is not cut off, it finds every owner that waits for the caller. -/
theorem WaitOk.not_waits (h : WaitOk s) {callerFl p : Ptr} {n : Nat}
    (hends : chainEnds s n p = true) (hwalk : deadlockWalk s callerFl n p = false) :
    ¬ TransGen (Waits s) (s.heap p).owner (s.heap callerFl).owner := by
  induction n generalizing p with
  | zero =>
    intro hpath
    obtain ⟨_, ⟨w, b, hnext, howner, _⟩, _⟩ := TransGen.head'_iff.mp hpath
    rw [chainEnds, h.whatOwner_eq hnext howner] at hends
    cases hends
  | succ n ih =>
    intro hpath
    obtain ⟨_, ⟨w, b, hnext, howner, rfl⟩, hrest⟩ := TransGen.head'_iff.mp hpath
    have hwhat := h.whatOwner_eq hnext howner
    rw [chainEnds, hwhat] at hends
    rw [deadlockWalk, hwhat] at hwalk
    dsimp only at hends hwalk
    split_ifs at hwalk with hsame
    rcases reflTransGen_iff_eq_or_transGen.mp hrest with heq | hrest
    · exact hsame (decide_eq_true heq)
    · exact ih hends hwalk hrest

end Walk

/-! ## Runs -/

theorem Initial.waitOk (h : Initial s) : WaitOk s := by
  refine ⟨?_, ?_, ?_, ?_, ?_, ?_⟩
  · intro w
    rw [h.blockedList, h.next w]
    simp
  · rw [h.blockedList]
    exact List.nodup_nil
  · intro w b hw
    rw [h.next w] at hw
    cases hw
  · intro w hw
    exact absurd (h.next w) hw
  · intro w w' hw
    exact absurd (h.next w) hw
  · refine acyclic_of_empty ?_
    rintro o o' ⟨w, b, hw, _⟩
    rw [h.next w] at hw
    cases hw

variable [DecidableEq Owner]

/-- An owner that waits does not start to wait again. -/
def WaitsOnce (s : Locks Inode Owner) : Op Inode Owner → Prop
  | .lock _ _ fl flags _ _ =>
    flags.sleep = true → ∀ w, s.next w ≠ none → (s.heap w).owner ≠ fl.owner
  | .cancel _ => True

/-- The condition on a call that may sleep: the chain of waits from the lock in its way, which
`posix_locks_deadlock` walks along, is not cut off. -/
def Guard (s : Locks Inode Owner) : Op Inode Owner → Prop
  | .lock i request fl flags _ _ =>
    flags.sleep = true → ∀ b, findConflict (modify s request fun _ => fl) i request = some b →
      chainEnds (modify s request fun _ => fl) (maxDeadlkIterations + 1) b = true
  | .cancel _ => True

/-- The lock that a request has to wait for is in the list and belongs to another owner. -/
theorem findConflict_spec {i : Inode} {request b : Ptr} (h : findConflict s i request = some b) :
    b ∈ s.iFlock i ∧ (s.heap request).owner ≠ (s.heap b).owner ∧
      posixLocksConflict (s.heap request) (s.heap b) = true := by
  unfold findConflict at h
  split_ifs at h with htype
  have hfound := List.find?_some h
  refine ⟨List.mem_of_find?_eq_some h, ?_, hfound⟩
  intro heq
  unfold posixLocksConflict posixSameOwner at hfound
  rw [if_pos (.inr (decide_eq_true heq))] at hfound
  cases hfound

variable [DecidableEq Inode]

/-- Without a conflict there is no deadlock. -/
theorem setLocks_ne_edeadlk {i : Inode} {request : Ptr} {flags : Flags}
    {newFl newFl2 : Option Ptr} :
    (setLocks s i request flags newFl newFl2).1 ≠ .edeadlk := by
  rw [setLocks, finish.eq_def]
  split_ifs with hfail hadded htype hexist
  · rintro ⟨⟩
  · rintro ⟨⟩
  · rintro ⟨⟩
  · rintro ⟨⟩
  · cases newFl with
    | none => rintro ⟨⟩
    | some n => rintro ⟨⟩

/-- `__posix_lock_file` keeps the waits sound. -/
theorem WaitOk.posixLockFile (h : WaitOk s) {i : Inode} {request : Ptr} {flags : Flags}
    {newFl newFl2 : Option Ptr} (hunused : Unused s request newFl newFl2)
    (honce : flags.sleep = true →
      ∀ w, s.next w ≠ none → (s.heap w).owner ≠ (s.heap request).owner)
    (hguard : flags.sleep = true → ∀ b, findConflict s i request = some b →
      chainEnds s (maxDeadlkIterations + 1) b = true) :
    WaitOk (Locks.posixLockFile s i request flags newFl newFl2).2 := by
  rw [posixLockFile.eq_def]
  cases hconflict : findConflict s i request with
  | some b =>
    dsimp only
    split_ifs with hsleep hdead
    · exact h
    · exact h
    · have hsleep := (Bool.not_eq_false _).mp hsleep
      obtain ⟨hmem, hne, _⟩ := findConflict_spec hconflict
      exact h.insertBlock hunused.own hmem (honce hsleep) hne
        (h.not_waits (hguard hsleep b hconflict) (Bool.eq_false_iff.mpr hdead))
  | none =>
    dsimp only
    split_ifs with haccess hneeds
    · exact h
    · refine @WaitOk.settled _ _ s _ (newFl.toList ++ newFl2.toList) h (setLocks_settled ?_ ?_) ?_
      · exact fun n hn => List.mem_append_left _ (Option.mem_toList.mpr hn)
      · exact fun n hn => List.mem_append_right _ (Option.mem_toList.mpr hn)
      · intro p hp
        rcases List.mem_append.mp hp with hp | hp
        · exact (hunused.first p (Option.mem_toList.mp hp)).1
        · exact (hunused.second p (Option.mem_toList.mp hp)).1
    · refine @WaitOk.settled _ _ s _ [] h (setLocks_settled ?_ ?_) ?_
      · rintro n ⟨⟩
      · rintro n ⟨⟩
      · exact fun p hp => absurd hp List.not_mem_nil

theorem WaitOk.step (h : WaitOk s) {op : Op Inode Owner} (hop : Admissible s op)
    (honce : WaitsOnce s op) (hguard : Guard s op) : WaitOk (Locks.step s op).2 := by
  cases op with
  | cancel waiter => exact h.settled (h.settled_cancel waiter) nofun
  | lock i request fl flags newFl newFl2 =>
    obtain ⟨_, hunused⟩ := hop
    have hfill := h.settled (settled_fill s request fl)
      (List.forall_mem_cons.mpr ⟨hunused.own, nofun⟩)
    refine hfill.posixLockFile
      ⟨hunused.own, hunused.first, hunused.second, hunused.ne⟩ ?_ hguard
    intro hsleep w hw
    have hne : w ≠ request := by
      rintro rfl
      exact hw hunused.own.2
    rw [heap_modify_self, heap_modify_of_ne s _ hne]
    exact honce hsleep w hw

/-- A write lock on the first byte of a file. -/
def firstByte (o : Nat) : FileLock Nat :=
  ⟨.posix, o, .wrlck, 0, 0⟩

/-- The owners below `n` hold a lock each, on files of their own, and those below `m` wait for the
lock of the next one. The pointers below 13 are locks and those from 13 on requests. -/
def ring (n m : Nat) : Locks Nat Nat where
  heap p := firstByte (p % 13)
  iFlock i := if i < n then [i] else []
  blockedList := ((List.range m).map (13 + ·)).reverse
  next p := if 13 ≤ p ∧ p < 13 + m then some ((p - 13 + 1) % 13) else none

theorem initial_ring : Initial (ring 0 0) := by
  refine ⟨?_, ?_, ?_, rfl, ?_⟩
  · exact fun _ => List.nodup_nil
  · exact fun _ _ _ => nofun
  · exact fun _ => nofun
  · refine fun (p : Nat) => ?_
    have hno : ¬ (13 ≤ p ∧ p < 13 + 0) := by omega
    exact if_neg hno

/-- The request of an owner is filled in already. -/
theorem modify_ring {n m k : Nat} (hk : k < 13) :
    (modify (ring n m) (13 + k) fun _ => firstByte k) = ring n m := by
  have hself : firstByte k = (ring n m).heap (13 + k) := by
    show firstByte k = firstByte ((13 + k) % 13)
    rw [Nat.add_mod_left, Nat.mod_eq_of_lt hk]
  unfold modify
  rw [hself, Function.update_eq_self]

/-- The next owner locks its file. -/
def takeLock (k : Nat) : Op Nat Nat :=
  .lock k (13 + k) (firstByte k) ⟨false, false, false⟩ (some k) none

/-- An owner waits for the lock of the next one. -/
def waitLock (k : Nat) : Op Nat Nat :=
  .lock ((k + 1) % 13) (13 + k) (firstByte k) ⟨false, true, false⟩ none none

theorem step_takeLock {k : Nat} (hk : k < 13) :
    step (ring k 0) (takeLock k) = (.ok, ring (k + 1) 0) := by
  have hempty : (ring k 0).iFlock k = [] := if_neg (Nat.lt_irrefl k)
  have hself : (ring k 0).heap (13 + k) = (ring k 0).heap k := by
    show firstByte ((13 + k) % 13) = firstByte (k % 13)
    rw [Nat.add_mod_left]
  have hconflict : findConflict (ring k 0) k (13 + k) = none := by
    rw [findConflict, hempty]
    rfl
  have hcopy : locksCopyLock (ring k 0) k (13 + k) = ring k 0 := by
    unfold locksCopyLock modify
    rw [hself, Function.update_eq_self]
  have hneeds : needsLocks ((ring k 0).heap (13 + k)) ⟨false, false, false⟩ = true := rfl
  have hset : setLocks (ring k 0) k (13 + k) ⟨false, false, false⟩ (some k) none =
      (.ok, { ring k 0 with iFlock := Function.update (ring k 0).iFlock k [k] }) := by
    rw [setLocks, hempty]
    show close k [] ⟨ring k 0, [], 13 + k, false, none, none⟩ [] .ok
      (locksCopyLock (ring k 0) k (13 + k), [k]) = _
    rw [hcopy]
    rfl
  have hflock : Function.update (ring k 0).iFlock k [k] = (ring (k + 1) 0).iFlock := by
    funext i
    rw [Function.update_apply]
    show (if i = k then [k] else if i < k then [i] else []) = if i < k + 1 then [i] else []
    split_ifs with h1 h2 h3 h4
    · rw [h1]
    · omega
    · rfl
    · omega
    · omega
    · rfl
  rw [takeLock, step, modify_ring hk, posixLockFile.eq_def, hconflict]
  dsimp only
  rw [if_neg Bool.false_ne_true, if_pos hneeds, hset, hflock]
  rfl

/-- No walk of the thirteen finds the caller. -/
theorem deadlock_ring :
    ∀ k < 13, posixLocksDeadlock (ring 13 k) (13 + k) ((k + 1) % 13) = false := by
  decide

theorem findConflict_ring : ∀ k < 13, findConflict (ring 13 k) ((k + 1) % 13) (13 + k) =
    some ((k + 1) % 13) := by
  decide

theorem step_waitLock {k : Nat} (hk : k < 13) :
    step (ring 13 k) (waitLock k) = (.deferred, ring 13 (k + 1)) := by
  have hblock : locksInsertBlock (ring 13 k) ((k + 1) % 13) (13 + k) = ring 13 (k + 1) := by
    have hlist : ((List.range (k + 1)).map (13 + ·)).reverse =
        (13 + k) :: ((List.range k).map (13 + ·)).reverse := by
      rw [List.range_succ, List.map_append, List.reverse_append]
      rfl
    have hnext : Function.update (ring 13 k).next (13 + k) (some ((k + 1) % 13)) =
        (ring 13 (k + 1)).next := by
      refine funext fun (p : Nat) => ?_
      rw [Function.update_apply]
      show (if p = 13 + k then some ((k + 1) % 13)
          else if 13 ≤ p ∧ p < 13 + k then some ((p - 13 + 1) % 13) else none) =
        if 13 ≤ p ∧ p < 13 + (k + 1) then some ((p - 13 + 1) % 13) else none
      split_ifs with h1 h2 h3 h4
      · rw [h1, Nat.add_sub_cancel_left]
      · omega
      · rfl
      · omega
      · omega
      · rfl
    unfold locksInsertBlock
    rw [hnext]
    show Locks.mk _ _ ((13 + k) :: ((List.range k).map (13 + ·)).reverse) _ = _
    rw [← hlist]
    rfl
  rw [waitLock, step, modify_ring hk, posixLockFile.eq_def, findConflict_ring k hk]
  dsimp only
  rw [if_neg (by decide), if_neg (by rw [deadlock_ring k hk]; exact Bool.false_ne_true), hblock]

theorem free_ring {n m p : Nat} (hn : n ≤ 13) (h : n ≤ p ∧ p < 13 ∨ 13 + m ≤ p) :
    Free (ring n m) p := by
  have hnext : ¬ (13 ≤ p ∧ p < 13 + m) := by omega
  refine ⟨?_, if_neg hnext⟩
  intro (j : Nat) hmem
  have hmem : p ∈ if j < n then [j] else [] := hmem
  split_ifs at hmem with hj
  · have heq : p = j := List.mem_singleton.mp hmem
    omega
  · cases hmem

theorem validRequest_firstByte (o : Nat) : ValidRequest (firstByte o) := by
  refine ⟨rfl, Int.le_refl 0, Int.le_refl 0, ?_⟩
  show (0 : Int) ≤ 2 ^ 63 - 1
  omega

theorem admissible_takeLock {k : Nat} (hk : k < 13) : Admissible (ring k 0) (takeLock k) := by
  refine ⟨validRequest_firstByte k, free_ring (by omega) (by omega), ?_, nofun, nofun⟩
  rintro n ⟨rfl⟩
  refine ⟨free_ring (by omega) (by omega), ?_⟩
  show (13 + k : Nat) ≠ k
  omega

theorem admissible_waitLock {k : Nat} : Admissible (ring 13 k) (waitLock k) :=
  ⟨validRequest_firstByte k, free_ring (Nat.le_refl 13) (by omega), nofun, nofun, nofun⟩

/-- Thirteen owners lock their files. -/
theorem reaches_locked {n : Nat} (hn : n ≤ 13) :
    Reaches Step (fun s op => Admissible s op ∧ WaitsOnce s op ∧ Guard s op) (ring 0 0)
      (ring n 0) := by
  induction n with
  | zero => exact .refl _
  | succ n ih =>
    have hstep : Step (ring n 0) (takeLock n) (ring (n + 1) 0) := by
      rw [Step, step_takeLock (by omega)]
    exact (ih (by omega)).tail hstep ⟨admissible_takeLock (by omega), nofun, nofun⟩

/-- None of those who wait already is the next one. -/
theorem waitsOnce_waitLock {k : Nat} (hk : k < 13) : WaitsOnce (ring 13 k) (waitLock k) := by
  intro _ (w : Nat) hw
  have hw : (if 13 ≤ w ∧ w < 13 + k then some ((w - 13 + 1) % 13) else none) ≠ none := hw
  split_ifs at hw with hlt
  · show w % 13 ≠ k
    omega
  · exact absurd rfl hw

/-- And then each waits for the next one. -/
theorem reaches_ring {m : Nat} (hm : m ≤ 13) :
    Reaches Step (fun s op => Admissible s op ∧ WaitsOnce s op) (ring 0 0) (ring 13 m) := by
  induction m with
  | zero => exact (reaches_locked (Nat.le_refl 13)).mono fun _ _ h => ⟨h.1, h.2.1⟩
  | succ m ih =>
    have hstep : Step (ring 13 m) (waitLock m) (ring 13 (m + 1)) := by
      rw [Step, step_waitLock (by omega)]
    exact (ih (by omega)).tail hstep ⟨admissible_waitLock, waitsOnce_waitLock (by omega)⟩

theorem waits_ring {k : Nat} (hk : k < 13) : Waits (ring 13 13) k ((k + 1) % 13) := by
  refine ⟨13 + k, (k + 1) % 13, ?_, ?_, ?_⟩
  · show (if 13 ≤ 13 + k ∧ 13 + k < 13 + 13 then some ((13 + k - 13 + 1) % 13) else none) = _
    rw [if_pos (by omega), Nat.add_sub_cancel_left]
  · show (13 + k) % 13 = k
    omega
  · show (k + 1) % 13 % 13 = (k + 1) % 13
    omega

theorem transGen_ring {k : Nat} (hk : k < 13) : TransGen (Waits (ring 13 13)) 0 ((k + 1) % 13) := by
  induction k with
  | zero => exact .single (waits_ring hk)
  | succ k ih =>
    have hmod : (k + 1) % 13 = k + 1 := Nat.mod_eq_of_lt hk
    have hprev := ih (by omega)
    rw [hmod] at hprev
    exact hprev.tail (waits_ring hk)

end AndroidKernel.Locks
