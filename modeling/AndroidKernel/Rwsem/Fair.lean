import AndroidKernel.Rwsem.Model

/-!
# Exclusion and order

Read `rwsem_sound` first. Its invariant is `Sound`; each operation has a lemma that says that it
keeps it.
-/

namespace AndroidKernel.Rwsem

open Library

universe u

variable {Task : Type u} {s : System Task}

/-- The number that `activity` stands for: there are readers, or nobody, or a single writer. -/
def Counted (s : System Task) : Prop :=
  (s.writers = [] ∧ s.sem.activity = s.readers.length) ∨
    (∃ tsk, s.writers = [tsk]) ∧ s.readers = [] ∧ s.sem.activity = -1

/-- If somebody waits, the lock is held; if it is held by readers, the first who waits is a
writer. -/
structure Queued (sem : RwSemaphore Task) : Prop where
  idle : sem.activity = 0 → sem.waitList = []
  reading : 0 < sem.activity → ∀ waiter ∈ sem.waitList.head?, waiter.flags = .waitingForWrite

/-- What holds in every state. -/
structure Sound (s : System Task) : Prop where
  counted : Counted s
  queued : Queued s.sem
  fifo : s.requests = s.grants ++ s.sem.waitList

/-! ## Wake-ups -/

theorem wakeReaders_append (list : List (RwsemWaiter Task)) :
    (wakeReaders list).1 ++ (wakeReaders list).2 = list := by
  induction list with
  | nil => rfl
  | cons waiter list ih =>
    rw [wakeReaders]
    split
    · exact congrArg (waiter :: ·) ih
    · rfl

/-- Only readers are woken by the loop. -/
theorem wakeReaders_read (list : List (RwsemWaiter Task)) :
    ∀ waiter ∈ (wakeReaders list).1, waiter.flags = .waitingForRead := by
  induction list with
  | nil => exact nofun
  | cons waiter list ih =>
    rw [wakeReaders]
    split
    · rename_i hflags
      exact List.forall_mem_cons.mpr ⟨hflags, ih⟩
    · exact nofun

/-- The loop stops at a writer. -/
theorem wakeReaders_head (list : List (RwsemWaiter Task)) :
    ∀ waiter ∈ (wakeReaders list).2.head?, waiter.flags = .waitingForWrite := by
  induction list with
  | nil => exact nofun
  | cons waiter list ih =>
    rw [wakeReaders]
    split
    · exact ih
    · rename_i hflags
      rintro _ ⟨⟩
      exact hflags

/-- The readers of a batch are granted the lock in the order of the queue. -/
theorem foldl_grant_read {woken : List (RwsemWaiter Task)}
    (h : ∀ waiter ∈ woken, waiter.flags = .waitingForRead) (s : System Task) :
    (woken.foldl System.grant s).sem = s.sem ∧
      (woken.foldl System.grant s).writers = s.writers ∧
      (woken.foldl System.grant s).readers.length = s.readers.length + woken.length ∧
      (woken.foldl System.grant s).requests = s.requests ∧
      (woken.foldl System.grant s).grants = s.grants ++ woken := by
  induction woken generalizing s with
  | nil => exact ⟨rfl, rfl, rfl, rfl, (List.append_nil _).symm⟩
  | cons waiter woken ih =>
    obtain ⟨hflags, hrest⟩ := List.forall_mem_cons.mp h
    have hgrant : s.grant waiter =
        { s with readers := waiter.task :: s.readers, grants := s.grants ++ [waiter] } := by
      rw [System.grant, hflags]
    obtain ⟨hsem, hwriters, hreaders, hrequests, hgrants⟩ := ih hrest (s.grant waiter)
    rw [List.foldl_cons, hsem, hwriters, hreaders, hrequests, hgrants, hgrant]
    refine ⟨rfl, rfl, ?_, rfl, ?_⟩
    · show s.readers.length + 1 + woken.length = s.readers.length + (woken.length + 1)
      omega
    · exact List.append_assoc _ _ _

/-- Readers have the lock, and those at the front of the queue join them. -/
theorem Sound.wake_readers {sem : RwSemaphore Task} (hwriters : s.writers = [])
    (hactivity : sem.activity = s.readers.length)
    (hheld : 0 < s.readers.length + (wakeReaders sem.waitList).1.length)
    (hfifo : s.requests = s.grants ++ sem.waitList) :
    Sound (s.wake ⟨sem.activity + (wakeReaders sem.waitList).1.length,
      (wakeReaders sem.waitList).2⟩ (wakeReaders sem.waitList).1) := by
  obtain ⟨hsem, hw, hr, hreq, hg⟩ := foldl_grant_read (wakeReaders_read sem.waitList)
    { s with sem := ⟨sem.activity + (wakeReaders sem.waitList).1.length,
      (wakeReaders sem.waitList).2⟩ }
  refine ⟨.inl ⟨hw.trans hwriters, ?_⟩, ⟨?_, ?_⟩, ?_⟩
  · rw [System.wake, hsem, hr, hactivity]
    exact (Int.natCast_add _ _).symm
  · intro hzero
    rw [System.wake, hsem] at hzero
    have hzero : sem.activity + ((wakeReaders sem.waitList).1.length : Int) = 0 := hzero
    omega
  · intro _
    rw [System.wake, hsem]
    exact wakeReaders_head sem.waitList
  · rw [System.wake, hsem, hreq, hg]
    show s.requests = s.grants ++ (wakeReaders sem.waitList).1 ++ (wakeReaders sem.waitList).2
    rw [List.append_assoc, wakeReaders_append, hfifo]

/-- The lock is free, and the writer at the head of the queue is granted it. -/
theorem Sound.wake_writer {waiter : RwsemWaiter Task} {list : List (RwsemWaiter Task)}
    (hflags : waiter.flags = .waitingForWrite) (hwriters : s.writers = [])
    (hreaders : s.readers = []) (hfifo : s.requests = s.grants ++ waiter :: list) :
    Sound (s.wake ⟨-1, list⟩ [waiter]) := by
  have hwake : s.wake ⟨-1, list⟩ [waiter] =
      { s with sem := ⟨-1, list⟩, writers := waiter.task :: s.writers,
               grants := s.grants ++ [waiter] } := by
    show System.grant { s with sem := ⟨-1, list⟩ } waiter = _
    rw [System.grant, hflags]
  rw [hwake]
  refine ⟨.inr ⟨⟨waiter.task, ?_⟩, hreaders, rfl⟩, ⟨nofun, nofun⟩, ?_⟩
  · rw [hwriters]
  · rw [hfifo, List.append_assoc]
    rfl

/-! ## Requests -/

/-- A reader is let in, or has to wait. -/
theorem Sound.downRead (h : Sound s) (tsk : Task) :
    Sound (s.request ⟨tsk, .waitingForRead⟩ (Rwsem.downRead s.sem tsk)) := by
  rw [Rwsem.downRead]
  split_ifs with hfree
  · obtain ⟨hactivity, hempty⟩ := hfree
    have hempty := List.isEmpty_iff.mp hempty
    obtain ⟨hwriters, hreaders⟩ | ⟨_, _, hactivity'⟩ := h.counted
    · refine ⟨.inl ⟨hwriters, ?_⟩, ⟨fun _ => hempty, ?_⟩, ?_⟩
      · show s.sem.activity + 1 = ((s.readers.length + 1 : Nat) : Int)
        omega
      · intro _ waiter hmem
        have hmem : waiter ∈ s.sem.waitList.head? := hmem
        rw [hempty] at hmem
        cases hmem
      · show s.requests ++ _ = s.grants ++ _ ++ s.sem.waitList
        rw [h.fifo, hempty, List.append_nil, List.append_nil]
    · omega
  refine ⟨h.counted, ⟨?_, ?_⟩, ?_⟩
  · intro hzero
    have hzero : s.sem.activity = 0 := hzero
    have hempty : s.sem.waitList.isEmpty = true := List.isEmpty_iff.mpr (h.queued.idle hzero)
    exact absurd (And.intro (Int.le_of_eq hzero.symm) hempty) hfree
  · intro hpos waiter hmem
    have hpos : 0 < s.sem.activity := hpos
    have hmem : waiter ∈ (s.sem.waitList ++ [RwsemWaiter.mk tsk _]).head? := hmem
    cases hlist : s.sem.waitList with
    | nil => exact absurd ⟨Int.le_of_lt hpos, List.isEmpty_iff.mpr hlist⟩ hfree
    | cons first rest =>
      refine h.queued.reading hpos waiter ?_
      rw [hlist] at hmem ⊢
      exact hmem
  · show s.requests ++ _ = s.grants ++ (s.sem.waitList ++ _)
    rw [h.fifo, List.append_assoc]

/-- A writer is let in, or has to wait. -/
theorem Sound.downWrite (h : Sound s) (tsk : Task) :
    Sound (s.request ⟨tsk, .waitingForWrite⟩ (Rwsem.downWrite s.sem tsk)) := by
  rw [Rwsem.downWrite]
  split_ifs with hfree
  · obtain ⟨hactivity, hempty⟩ := hfree
    have hempty := List.isEmpty_iff.mp hempty
    obtain ⟨hwriters, hreaders⟩ | ⟨_, _, hactivity'⟩ := h.counted
    · have hnil : s.readers = [] := List.length_eq_zero_iff.mp (by omega)
      refine ⟨.inr ⟨⟨tsk, congrArg (tsk :: ·) hwriters⟩, hnil, rfl⟩, ⟨nofun, nofun⟩, ?_⟩
      show s.requests ++ _ = s.grants ++ _ ++ s.sem.waitList
      rw [h.fifo, hempty, List.append_nil, List.append_nil]
    · omega
  refine ⟨h.counted, ⟨?_, ?_⟩, ?_⟩
  · intro hzero
    have hzero : s.sem.activity = 0 := hzero
    have hempty : s.sem.waitList.isEmpty = true := List.isEmpty_iff.mpr (h.queued.idle hzero)
    exact absurd (And.intro hzero hempty) hfree
  · intro hpos waiter hmem
    have hpos : 0 < s.sem.activity := hpos
    have hmem : waiter ∈ (s.sem.waitList ++ [RwsemWaiter.mk tsk _]).head? := hmem
    cases hlist : s.sem.waitList with
    | nil =>
      rw [hlist] at hmem
      obtain ⟨⟩ := hmem
      rfl
    | cons first rest =>
      refine h.queued.reading hpos waiter ?_
      rw [hlist] at hmem ⊢
      exact hmem
  · show s.requests ++ _ = s.grants ++ (s.sem.waitList ++ _)
    rw [h.fifo, List.append_assoc]

/-- `__down_read_trylock` is `__down_read` when that does not wait. -/
theorem Sound.downReadTrylock (h : Sound s) (tsk : Task) :
    Sound (s.tryRequest ⟨tsk, .waitingForRead⟩ (Rwsem.downReadTrylock s.sem)) := by
  have hread := h.downRead tsk
  rw [Rwsem.downRead] at hread
  rw [System.tryRequest, Rwsem.downReadTrylock]
  by_cases hfree : 0 ≤ s.sem.activity ∧ s.sem.waitList.isEmpty
  · rw [if_pos hfree] at hread ⊢
    exact hread
  · rw [if_neg hfree]
    exact h

theorem Sound.downWriteTrylock (h : Sound s) (tsk : Task) :
    Sound (s.tryRequest ⟨tsk, .waitingForWrite⟩ (Rwsem.downWriteTrylock s.sem)) := by
  have hwrite := h.downWrite tsk
  rw [Rwsem.downWrite] at hwrite
  rw [System.tryRequest, Rwsem.downWriteTrylock]
  by_cases hfree : s.sem.activity = 0 ∧ s.sem.waitList.isEmpty
  · rw [if_pos hfree] at hwrite ⊢
    exact hwrite
  · rw [if_neg hfree]
    exact h

/-! ## Releases -/

/-- A reader holds the lock, so there is no writer. -/
theorem Sound.reading (h : Sound s) {tsk : Task} (hmem : tsk ∈ s.readers) :
    s.writers = [] ∧ s.sem.activity = s.readers.length := by
  obtain hread | ⟨_, hnil, _⟩ := h.counted
  · exact hread
  · rw [hnil] at hmem
    cases hmem

/-- A writer holds the lock, so nobody else does. -/
theorem Sound.writing (h : Sound s) {tsk : Task} (hmem : tsk ∈ s.writers) :
    s.writers = [tsk] ∧ s.readers = [] ∧ s.sem.activity = -1 := by
  obtain ⟨hnil, _⟩ | ⟨⟨other, hwriters⟩, hrest⟩ := h.counted
  · rw [hnil] at hmem
    cases hmem
  · rw [hwriters] at hmem ⊢
    rw [List.mem_singleton.mp hmem]
    exact ⟨rfl, hrest⟩

/-- `__rwsem_wake_one_writer` is called with a writer at the head of the queue. -/
theorem Sound.upRead_woken (h : Sound s) {tsk : Task} (hmem : tsk ∈ s.readers) :
    ∀ waiter ∈ (Rwsem.upRead s.sem).2, waiter.flags = .waitingForWrite := by
  obtain ⟨_, hactivity⟩ := h.reading hmem
  have hpos := List.length_pos_of_mem hmem
  intro waiter hwoken
  rw [Rwsem.upRead] at hwoken
  dsimp only at hwoken
  split_ifs at hwoken with hlast
  · rw [rwsemWakeOneWriter] at hwoken
    refine h.queued.reading (by omega) waiter ?_
    cases hlist : s.sem.waitList with
    | nil =>
      rw [hlist] at hwoken
      cases hwoken
    | cons first list =>
      rw [hlist] at hwoken
      rw [List.mem_singleton.mp hwoken]
      rfl
  · cases hwoken

theorem sound_initial : Sound (initial : System Task) :=
  ⟨.inl ⟨rfl, rfl⟩, ⟨fun _ => rfl, nofun⟩, rfl⟩

variable [DecidableEq Task]

theorem Sound.upRead (h : Sound s) {tsk : Task} (hmem : tsk ∈ s.readers) :
    Sound (System.wake { s with readers := s.readers.erase tsk } (Rwsem.upRead s.sem).1
      (Rwsem.upRead s.sem).2) := by
  obtain ⟨hwriters, hactivity⟩ := h.reading hmem
  have hpos := List.length_pos_of_mem hmem
  have hlength := List.length_erase_of_mem hmem
  rw [Rwsem.upRead]
  dsimp only
  split_ifs with hlast
  · -- the last reader leaves: by `Queued.reading` the first who waits is a writer
    obtain ⟨hzero, hsome⟩ := hlast
    rw [rwsemWakeOneWriter]
    cases hlist : s.sem.waitList with
    | nil => exact absurd (List.isEmpty_iff.mpr hlist) hsome
    | cons waiter list =>
      refine Sound.wake_writer ?_ hwriters ?_ ?_
      · refine h.queued.reading (by omega) waiter ?_
        rw [hlist]
        rfl
      · have hnone : (s.readers.erase tsk).length = 0 := by omega
        exact List.length_eq_zero_iff.mp hnone
      · rw [← hlist]
        exact h.fifo
  refine ⟨.inl ⟨hwriters, ?_⟩, ⟨?_, ?_⟩, h.fifo⟩
  · show s.sem.activity - 1 = ((s.readers.erase tsk).length : Int)
    omega
  · intro hzero
    by_contra hsome
    exact hlast ⟨hzero, fun hempty => hsome (List.isEmpty_iff.mp hempty)⟩
  · intro hleft
    have hleft : 0 < s.sem.activity - 1 := hleft
    exact h.queued.reading (by omega)

theorem Sound.upWrite (h : Sound s) {tsk : Task} (hmem : tsk ∈ s.writers) :
    Sound (System.wake { s with writers := s.writers.erase tsk } (Rwsem.upWrite s.sem).1
      (Rwsem.upWrite s.sem).2) := by
  obtain ⟨hwriters, hreaders, hactivity⟩ := h.writing hmem
  have hnone : s.writers.erase tsk = [] := by
    rw [hwriters]
    exact List.erase_cons_head tsk []
  rw [Rwsem.upWrite]
  dsimp only
  split_ifs with hempty
  · refine ⟨.inl ⟨hnone, ?_⟩, ⟨fun _ => List.isEmpty_iff.mp hempty, nofun⟩, h.fifo⟩
    show (0 : Int) = (s.readers.length : Int)
    rw [hreaders]
    rfl
  cases hlist : s.sem.waitList with
  | nil => exact absurd (List.isEmpty_iff.mpr hlist) hempty
  | cons waiter list =>
    have hfifo : s.requests = s.grants ++ waiter :: list := by
      rw [← hlist]
      exact h.fifo
    cases hflags : waiter.flags with
    | waitingForWrite =>
      simp only [rwsemDoWake, hflags]
      exact Sound.wake_writer hflags hnone hreaders hfifo
    | waitingForRead =>
      simp only [rwsemDoWake, hflags]
      refine @Sound.wake_readers _ _ ⟨0, waiter :: list⟩ hnone ?_ ?_ hfifo
      · show (0 : Int) = (s.readers.length : Int)
        rw [hreaders]
        rfl
      · show 0 < s.readers.length + (wakeReaders (waiter :: list)).1.length
        rw [wakeReaders, hflags]
        exact Nat.succ_pos _

/-- The writer becomes a reader, and the readers at the front of the queue join it. -/
theorem Sound.downgradeWrite (h : Sound s) {tsk : Task} (hmem : tsk ∈ s.writers) :
    Sound (System.wake { s with writers := s.writers.erase tsk, readers := tsk :: s.readers }
      (Rwsem.downgradeWrite s.sem).1 (Rwsem.downgradeWrite s.sem).2) := by
  obtain ⟨hwriters, hreaders, hactivity⟩ := h.writing hmem
  have hnone : s.writers.erase tsk = [] := by
    rw [hwriters]
    exact List.erase_cons_head tsk []
  have hone : (1 : Int) = ((tsk :: s.readers).length : Int) := by
    rw [hreaders]
    rfl
  rw [Rwsem.downgradeWrite]
  dsimp only
  split_ifs with hempty
  · refine ⟨.inl ⟨hnone, hone⟩, ⟨fun _ => List.isEmpty_iff.mp hempty, ?_⟩, h.fifo⟩
    intro _ waiter hhead
    have hhead : waiter ∈ s.sem.waitList.head? := hhead
    rw [List.isEmpty_iff.mp hempty] at hhead
    cases hhead
  cases hlist : s.sem.waitList with
  | nil => exact absurd (List.isEmpty_iff.mpr hlist) hempty
  | cons waiter list =>
    have hfifo : s.requests = s.grants ++ waiter :: list := by
      rw [← hlist]
      exact h.fifo
    cases hflags : waiter.flags with
    | waitingForWrite =>
      simp only [rwsemDoWake, hflags]
      refine ⟨.inl ⟨hnone, hone⟩, ⟨nofun, ?_⟩, hfifo⟩
      rintro _ _ ⟨⟩
      exact hflags
    | waitingForRead =>
      simp only [rwsemDoWake, hflags]
      refine @Sound.wake_readers _ _ ⟨1, waiter :: list⟩ hnone hone ?_ hfifo
      exact Nat.lt_of_lt_of_le (Nat.succ_pos _) (Nat.le_add_right _ _)

/-! ## Runs -/

theorem Sound.step (h : Sound s) {op : Op Task} (hop : Allowed s op) :
    Sound (Rwsem.step s op) := by
  cases op with
  | downRead tsk => exact h.downRead tsk
  | downReadTrylock tsk => exact h.downReadTrylock tsk
  | downWrite tsk => exact h.downWrite tsk
  | downWriteTrylock tsk => exact h.downWriteTrylock tsk
  | upRead tsk => exact h.upRead hop.2
  | upWrite tsk => exact h.upWrite hop.2
  | downgradeWrite tsk => exact h.downgradeWrite hop.2
  | resume tsk => exact ⟨h.counted, h.queued, h.fifo⟩

/-- In every state that the tasks can reach, `activity` counts the holders and a writer is alone;
nobody waits for a lock that is free, nor a reader at the head of the queue for one that readers
hold, so that `__up_read` wakes writers only; and the requests are granted in their order. -/
theorem rwsem_sound (hrun : Reaches Step Allowed initial s) :
    Counted s ∧ (s.sem.activity = -1 ↔ ∃ tsk, s.writers = [tsk]) ∧
      (s.writers ≠ [] → s.writers.length = 1 ∧ s.readers = []) ∧
      (s.sem.activity = 0 → s.sem.waitList = []) ∧
      (0 < s.sem.activity → ∀ waiter ∈ s.sem.waitList.head?, waiter.flags = .waitingForWrite) ∧
      (∀ tsk ∈ s.readers, ∀ waiter ∈ (upRead s.sem).2, waiter.flags = .waitingForWrite) ∧
      s.requests = s.grants ++ s.sem.waitList := by
  have h : Sound s := by
    refine hrun.invariant Sound ?_ sound_initial
    rintro s op _ hs hop rfl
    exact hs.step hop
  refine ⟨h.counted, ?_, ?_, h.queued.idle, h.queued.reading, fun _ => h.upRead_woken, h.fifo⟩
  · obtain ⟨hnil, hactivity⟩ | ⟨hone, _, hactivity⟩ := h.counted
    · rw [hnil]
      refine ⟨fun hneg => ?_, nofun⟩
      omega
    · exact ⟨fun _ => hone, fun _ => hactivity⟩
  · intro hsome
    obtain ⟨hnil, _⟩ | ⟨⟨tsk, hwriters⟩, hreaders, _⟩ := h.counted
    · exact absurd hnil hsome
    · rw [hwriters]
      exact ⟨rfl, hreaders⟩

/-- A reader leaves, and the writer that has waited for it is granted the lock. -/
theorem rwsem_sound_handover :
    ∃ s : System Nat, Reaches Step Allowed initial s ∧ s.writers = [1] ∧
      s.sem.activity = -1 ∧ s.requests = s.grants := by
  have hrun : Reaches Step Allowed (initial : System Nat)
      (step (step (step initial (.downRead 0)) (.downWrite 1)) (.upRead 0)) := by
    refine (((Reaches.refl _).tail rfl ?_).tail rfl ?_).tail rfl ?_
    · exact List.not_mem_nil
    · exact List.not_mem_nil
    · exact ⟨by decide, by decide⟩
  obtain ⟨_, hiff, _, _, _, _, hfifo⟩ := rwsem_sound hrun
  exact ⟨_, hrun, rfl, hiff.mpr ⟨1, rfl⟩, hfifo.trans (List.append_nil _)⟩

end AndroidKernel.Rwsem
