import AndroidKernel.Locks.Pass
import AndroidKernel.Library.Runs

/-!
# Sequences of lock requests

Read `posix_locks_refine_bytes` first: a request that succeeds sets the bytes of its range for its
owner, and every other one changes nothing.
-/

namespace AndroidKernel.Locks

open Library

universe u v

theorem takeWhile_dropWhile {p : Ptr → Bool} {xs ys : List Ptr} (hxs : ∀ x ∈ xs, p x = true)
    (hys : ∀ y ∈ ys.head?, p y = false) :
    (xs ++ ys).takeWhile p = xs ∧ (xs ++ ys).dropWhile p = ys := by
  rw [List.takeWhile_append_of_pos hxs, List.dropWhile_append_of_pos hxs]
  cases ys with
  | nil => exact ⟨List.append_nil _, rfl⟩
  | cons y ys =>
    have hy := hys y rfl
    constructor
    · rw [List.takeWhile_cons_of_neg (by rw [hy]; exact Bool.false_ne_true), List.append_nil]
    · rw [List.dropWhile_cons_of_neg (by rw [hy]; exact Bool.false_ne_true)]

variable {Inode : Type v} {Owner : Type u} [DecidableEq Owner]

/-- A sound state: the lists are disjoint and each of them is in order. -/
structure LocksOk (s : Locks Inode Owner) : Prop where
  nodup : ∀ i, (s.iFlock i).Nodup
  apart : ∀ i j, i ≠ j → ∀ p ∈ s.iFlock i, p ∉ s.iFlock j
  list : ∀ i, ListOk (s.locks i)

/-- Structures that are in no list do not matter. -/
theorem LocksOk.congr {s s' : Locks Inode Owner} (h : LocksOk s) (hflock : s'.iFlock = s.iFlock)
    (hheap : ∀ i, ∀ p ∈ s.iFlock i, s'.heap p = s.heap p) :
    LocksOk s' ∧ ∀ i, s'.locks i = s.locks i := by
  have hlocks : ∀ i, s'.locks i = s.locks i := by
    intro i
    unfold Locks.locks
    rw [hflock]
    exact map_heap_congr (hheap i)
  refine ⟨⟨?_, ?_, ?_⟩, hlocks⟩
  · rw [hflock]
    exact h.nodup
  · rw [hflock]
    exact h.apart
  · intro i
    rw [hlocks i]
    exact h.list i

variable {s s' : Locks Inode Owner} {i : Inode}

/-- A call that did not change what is locked. -/
theorem LocksOk.kept (h : LocksOk s) (hflock : s'.iFlock = s.iFlock) (hheap : s'.heap = s.heap) :
    LocksOk s' ∧ ∀ j, s'.locks j = s.locks j :=
  h.congr hflock fun _ p _ => congrFun hheap p

/-- The request of a call is filled in. -/
theorem LocksOk.fill (h : LocksOk s) {request : Ptr} (hreq : ∀ j, request ∉ s.iFlock j)
    (fl : FileLock Owner) :
    LocksOk (modify s request fun _ => fl) ∧
      ∀ j, (modify s request fun _ => fl).locks j = s.locks j := by
  refine h.congr rfl ?_
  intro j p hp
  refine heap_modify_of_ne s _ ?_
  rintro rfl
  exact hreq j hp

/-- Lists of flocks and leases only, and nobody waits. -/
structure Initial (s : Locks Inode Owner) : Prop where
  nodup : ∀ i, (s.iFlock i).Nodup
  apart : ∀ i j, i ≠ j → ∀ p ∈ s.iFlock i, p ∉ s.iFlock j
  other : ∀ i, ∀ l ∈ s.locks i, l.cls ≠ .posix
  blockedList : s.blockedList = []
  next : ∀ p, s.next p = none

theorem Initial.locksOk (h : Initial s) : LocksOk s := by
  refine ⟨h.nodup, h.apart, ?_⟩
  intro i
  refine ⟨⟨s.locks i, [], (List.append_nil _).symm, h.other i, .nil⟩, ?_⟩
  intro o o' x _ hw
  obtain ⟨l, hl, hposix, _⟩ := exists_of_byteMap hw
  exact absurd hposix (h.other i l hl)

/-- Without a conflict the owners stay compatible. -/
theorem compatible_of_findConflict {request : Ptr} (h : Compatible (byteMap (s.locks i)))
    (hconflict : findConflict s i request = none) :
    Compatible ((byteMap (s.locks i)).setRange (s.heap request).owner (s.heap request).start
      (s.heap request).stop (s.heap request).type) := by
  refine h.setRange ?_
  intro htype o' ho x hlo hhi type' hlock
  obtain ⟨l, hl, hposix, howner, hstart, hstop, rfl⟩ := exists_of_byteMap hlock
  obtain ⟨p, hp, rfl⟩ := List.mem_map.mp hl
  rw [findConflict, if_neg htype, List.find?_eq_none] at hconflict
  have hno := hconflict p hp
  unfold posixLocksConflict posixSameOwner locksOverlap locksConflict at hno
  have hne : (s.heap request).owner ≠ (s.heap p).owner := by
    rw [howner]
    exact Ne.symm ho
  simp only [hposix, hne, ne_eq, not_true_eq_false, decide_false, false_or,
    Bool.false_eq_true, if_false, ge_iff_le, Bool.and_eq_false_iff, decide_eq_false_iff_not] at hno
  rw [if_neg (by omega)] at hno
  split_ifs at hno with h1 h2
  · exact absurd rfl hno
  · exact absurd rfl hno
  · exact ⟨h2, h1⟩

variable [DecidableEq Inode]

/-- The list of `i` was changed for one owner. -/
theorem LocksOk.outcome (h : LocksOk s) {new : List Ptr} {request : Ptr} {o : Owner}
    {front pre g g' post : List (FileLock Owner)} {lo hi : Int} {type : LockType}
    (hlocks : s.locks i = front ++ (pre ++ (g ++ post)))
    (hout : Outcome i s (s.iFlock i) new request (front ++ (pre ++ (g' ++ post))) s')
    (hfront : ∀ l ∈ front, l.cls ≠ .posix) (hpre : ∀ l ∈ pre, l.owner ≠ o)
    (hpost : ∀ l ∈ post, l.owner ≠ o) (hg : Group o g) (hg' : Group o g')
    (hgrouped : Grouped (pre ++ (g' ++ post)))
    (htypes : ∀ x, typeAt g' x = if lo ≤ x ∧ x ≤ hi then type.held else typeAt g x)
    (hfree : Compatible ((byteMap (s.locks i)).setRange o lo hi type))
    (hnew : ∀ p ∈ new, ∀ j, p ∉ s.iFlock j) (hreq : ∀ j, request ∉ s.iFlock j) :
    LocksOk s' ∧ (∀ j ≠ i, s'.locks j = s.locks j) ∧
      byteMap (s'.locks i) = (byteMap (s.locks i)).setRange o lo hi type := by
  obtain ⟨⟨ptrs, hptrs, hvals, hnodup, hmem⟩, hframe⟩ := hout
  have hself : s'.iFlock i = ptrs := by
    rw [hptrs, Function.update_self]
  have hother : ∀ j ≠ i, s'.iFlock j = s.iFlock j := by
    intro j hj
    rw [hptrs, Function.update_of_ne hj]
  have hheap : ∀ j ≠ i, ∀ p ∈ s.iFlock j, s'.heap p = s.heap p := by
    intro j hj p hp
    refine hframe p (h.apart j i hj p hp) (fun hn => hnew p hn j hp) ?_
    rintro rfl
    exact hreq j hp
  have hlocks' : ∀ j ≠ i, s'.locks j = s.locks j := by
    intro j hj
    unfold Locks.locks
    rw [hother j hj]
    exact map_heap_congr (hheap j hj)
  have hlocksi : s'.locks i = front ++ (pre ++ (g' ++ post)) := by
    unfold Locks.locks
    rw [hself]
    exact hvals
  have hmap : byteMap (s'.locks i) = (byteMap (s.locks i)).setRange o lo hi type := by
    funext o' x
    unfold ByteMap.setRange
    rw [hlocksi, hlocks]
    by_cases ho : o' = o
    · subst ho
      rw [byteMap_group hfront hpre hg' hpost, byteMap_group hfront hpre hg hpost, htypes x]
      simp only [true_and]
    · rw [byteMap_other ho hg hg', if_neg (fun hc => ho hc.1)]
  have hapart : ∀ j ≠ i, ∀ p ∈ ptrs, p ∉ s.iFlock j := by
    intro j hj p hp
    rcases hmem p hp with hp | hp
    · exact h.apart i j (Ne.symm hj) p hp
    · exact hnew p hp j
  refine ⟨⟨?_, ?_, ?_⟩, hlocks', hmap⟩
  · intro j
    by_cases hj : j = i
    · subst hj
      rw [hself]
      exact hnodup
    · rw [hother j hj]
      exact h.nodup j
  · intro j k hjk
    by_cases hj : j = i
    · subst hj
      rw [hself, hother k (Ne.symm hjk)]
      exact hapart k (Ne.symm hjk)
    rw [hother j hj]
    by_cases hk : k = i
    · subst hk
      rw [hself]
      intro p hp hp'
      exact hapart j hj p hp' hp
    · rw [hother k hk]
      exact h.apart j k hjk
  intro j
  by_cases hj : j = i
  · subst hj
    refine ⟨⟨front, _, hlocksi, hfront, hgrouped⟩, ?_⟩
    rw [hmap]
    exact hfree
  · rw [hlocks' j hj]
    exact h.list j

/-- A structure is neither in a list nor waiting. -/
def Free (s : Locks Inode Owner) (p : Ptr) : Prop :=
  (∀ j, p ∉ s.iFlock j) ∧ s.next p = none

/-- The structures of a call are different and not in use. -/
structure Unused (s : Locks Inode Owner) (request : Ptr) (newFl newFl2 : Option Ptr) : Prop where
  own : Free s request
  first : ∀ n, newFl = some n → Free s n ∧ request ≠ n
  second : ∀ n, newFl2 = some n → Free s n ∧ request ≠ n
  ne : ∀ n, newFl = some n → newFl2 ≠ some n

/-- A request for a range of bytes. -/
structure ValidRequest (fl : FileLock Owner) : Prop where
  posix : fl.cls = .posix
  nonneg : 0 ≤ fl.start
  le : fl.start ≤ fl.stop
  stop_le : fl.stop ≤ offsetMax

/-- `__posix_lock_file` once there is no conflict. -/
theorem setLocks_spec (h : LocksOk s) {request : Ptr} {flags : Flags} {newFl newFl2 : Option Ptr}
    (hunused : Unused s request newFl newFl2) (hvalid : ValidRequest (s.heap request))
    (hconflict : findConflict s i request = none) :
    ((setLocks s i request flags newFl newFl2).1 = .ok ∧
        LocksOk (setLocks s i request flags newFl newFl2).2 ∧
        (∀ j ≠ i, (setLocks s i request flags newFl newFl2).2.locks j = s.locks j) ∧
        byteMap ((setLocks s i request flags newFl newFl2).2.locks i) =
          (byteMap (s.locks i)).setRange (s.heap request).owner (s.heap request).start
            (s.heap request).stop (s.heap request).type) ∨
      ((setLocks s i request flags newFl newFl2).1 ≠ .ok ∧
        (setLocks s i request flags newFl newFl2).2 = s) := by
  obtain ⟨front, posix, hlocks, hfront, hgrouped⟩ := (h.list i).shape
  obtain ⟨pre, g, post, rfl, hpre, hg, hpost, hempty, hclose⟩ :=
    hgrouped.split (s.heap request).owner
  have hcompat := compatible_of_findConflict (h.list i).compatible hconflict
  have hmap : (s.iFlock i).map s.heap = (front ++ pre) ++ (g ++ post) := by
    rw [List.append_assoc]
    exact hlocks
  obtain ⟨sk, rest, hptrs, hsk, hrest⟩ := List.map_eq_append_iff.mp hmap
  obtain ⟨ps, po, rfl, hps, hpo⟩ := List.map_eq_append_iff.mp hrest
  have hspan : (s.iFlock i).takeWhile (otherOwner s request) = sk ∧
      (s.iFlock i).dropWhile (otherOwner s request) = ps ++ po := by
    rw [hptrs]
    refine takeWhile_dropWhile ?_ ?_
    · intro p hp
      have hmem : s.heap p ∈ front ++ pre := hsk ▸ List.mem_map_of_mem hp
      unfold otherOwner posixSameOwner
      rcases List.mem_append.mp hmem with hmem | hmem
      · rw [decide_eq_true (hfront _ hmem), Bool.true_or]
      · rw [decide_eq_false (Ne.symm (hpre _ hmem)), Bool.not_false, Bool.or_true]
    intro p hp
    cases ps with
    | nil =>
      have hgnil : g = [] := hps.symm
      have hpostnil := hempty hgnil
      rw [hpostnil, List.map_eq_nil_iff] at hpo
      rw [hpo] at hp
      cases hp
    | cons p' ps =>
      cases hp
      have hmem : s.heap p ∈ g := hps ▸ List.mem_map_of_mem List.mem_cons_self
      have hheld := hg.held _ hmem
      unfold otherOwner posixSameOwner
      rw [decide_eq_false (fun hne => hne hheld.posix), decide_eq_true hheld.owner.symm]
      rfl
  have hrun : setLocks s i request flags newFl newFl2 =
      run i sk flags newFl newFl2 ⟨s, [], request, false, none, none⟩ (ps ++ po) := by
    rw [setLocks, hspan.1, hspan.2, run]
  have hall : sk ++ [] ++ (ps ++ po) = s.iFlock i := by
    rw [List.append_nil, hptrs]
  have hnodup : (sk ++ [] ++ (ps ++ po)).Nodup := hall ▸ h.nodup i
  have hq : request ∉ sk ++ [] ++ (ps ++ po) := hall ▸ hunused.own.1 i
  have hfresh : Fresh newFl newFl2 request (sk ++ [] ++ (ps ++ po)) := by
    rw [hall]
    exact ⟨fun n hn => (hunused.first n hn).imp_left fun h => h.1 i,
      fun n hn => (hunused.second n hn).imp_left fun h => h.1 i, hunused.ne⟩
  have hnew : ∀ p ∈ newFl.toList ++ newFl2.toList, ∀ j, p ∉ s.iFlock j := by
    intro p hp
    rcases List.mem_append.mp hp with hp | hp
    · exact (hunused.first p (Option.mem_toList.mp hp)).1.1
    · exact (hunused.second p (Option.mem_toList.mp hp)).1.1
  have hpohead : ∀ p ∈ po.head?, (s.heap p).owner ≠ (s.heap request).owner := by
    intro p hp
    refine hpost (s.heap p) ?_
    rw [← hpo]
    exact List.mem_map_of_mem (List.mem_of_mem_head? hp)
  have hrefused : Refused i s (sk ++ [] ++ (ps ++ po))
      (run i sk flags newFl newFl2 ⟨s, [], request, false, none, none⟩ (ps ++ po)) →
      (run i sk flags newFl newFl2 ⟨s, [], request, false, none, none⟩ (ps ++ po)).1 ≠ .ok ∧
        (run i sk flags newFl newFl2 ⟨s, [], request, false, none, none⟩ (ps ++ po)).2 = s := by
    rintro ⟨hcode, hstate⟩
    constructor
    · rcases hcode with hcode | hcode
      · rw [hcode]
        rintro ⟨⟩
      · rw [hcode]
        rintro ⟨⟩
    · rw [hstate, hall, Function.update_eq_self]
  have hvals : ∀ g', sk.map s.heap ++ [].map (cutAt none (s.heap request).start s.heap) ++
      (g' ++ po.map s.heap) = front ++ (pre ++ (g' ++ post)) := by
    intro g'
    rw [hsk, hpo, List.map_nil, List.append_nil, List.append_assoc]
  rw [hrun]
  by_cases htype : (s.heap request).type = .unlck
  · rcases @run_remove _ _ _ _ i sk flags newFl newFl2 (s.heap request).owner
      ⟨s, [], request, false, none, none⟩ [] ps po htype rfl rfl rfl
      (by rintro _ ⟨⟩) (fun hl => absurd rfl hl) hnodup hq (hps ▸ hg) (by rintro ⟨⟩) hpohead hfresh with
      ⟨_, hno⟩ | ⟨hcode, hout⟩
    · exact .inr (hrefused hno)
    obtain ⟨hg', htypes⟩ := remove_spec hvalid.le hg
    refine .inl ⟨hcode, h.outcome hlocks ?_ hfront hpre hpost hg hg' (hclose _ hg') ?_ hcompat
      hnew hunused.own.1⟩
    · have hout := hall ▸ hout
      rw [← hvals, ← hps]
      exact hout
    · rw [htype]
      exact htypes
  have hheld : Held (s.heap request).owner (s.heap request) :=
    ⟨hvalid.posix, rfl, htype, hvalid.nonneg, hvalid.le, hvalid.stop_le⟩
  rcases @run_place _ _ _ _ i sk flags newFl newFl2 (s.heap request).owner
    ⟨s, [], request, false, none, none⟩ [] ps po rfl rfl rfl (by rintro _ ⟨⟩) hnodup hq hheld (hps ▸ hg)
    (fun hl => absurd rfl hl) hpohead hfresh with hno | ⟨hcode, hout⟩
  · exact .inr (hrefused hno)
  obtain ⟨hg', htypes⟩ := place_spec hheld hg
  refine .inl ⟨hcode, h.outcome hlocks ?_ hfront hpre hpost hg hg' (hclose _ hg') ?_ hcompat
    hnew hunused.own.1⟩
  · have hout := hall ▸ hout
    rw [← hvals, ← hps]
    exact hout
  intro x
  rw [htypes x, typeAt_cons]
  have hsome : (s.heap request).type.held = some (s.heap request).type := by
    cases hty : (s.heap request).type with
    | rdlck => rfl
    | wrlck => rfl
    | unlck => exact absurd hty htype
  rw [hsome]

/-! ## Calls -/

/-- What a call does to the lists. -/
structure Called (s : Locks Inode Owner) (i : Inode) (request : Ptr) (flags : Flags) (code : Code)
    (s' : Locks Inode Owner) : Prop where
  locksOk : LocksOk s'
  other : ∀ j ≠ i, s'.locks j = s.locks j
  set : code = .ok → flags.access = false → byteMap (s'.locks i) =
    (byteMap (s.locks i)).setRange (s.heap request).owner (s.heap request).start
      (s.heap request).stop (s.heap request).type
  kept : code ≠ .ok ∨ flags.access = true → s'.locks i = s.locks i

theorem posixLockFile_spec (h : LocksOk s) {request : Ptr} {flags : Flags}
    {newFl newFl2 : Option Ptr} (hunused : Unused s request newFl newFl2)
    (hvalid : ValidRequest (s.heap request)) {code : Code}
    (hcall : posixLockFile s i request flags newFl newFl2 = (code, s')) :
    Called s i request flags code s' := by
  have hkept : code ≠ .ok ∨ flags.access = true → s'.iFlock = s.iFlock → s'.heap = s.heap →
      Called s i request flags code s' := by
    intro hcode hflock hheap
    obtain ⟨hok, hlocks⟩ := h.kept hflock hheap
    refine ⟨hok, fun j _ => hlocks j, ?_, fun _ => hlocks i⟩
    intro hc ha
    rcases hcode with hcode | hcode
    · exact absurd hc hcode
    · rw [ha] at hcode
      cases hcode
  have hset : ∀ n n2, Unused s request n n2 → findConflict s i request = none →
      flags.access = false → setLocks s i request flags n n2 = (code, s') →
      Called s i request flags code s' := by
    intro n n2 hn hconflict haccess hcall
    have hspec := @setLocks_spec _ _ _ s i _ h request flags n n2 hn hvalid hconflict
    rw [hcall] at hspec
    rcases hspec with ⟨hcode, hok, hother, hmap⟩ | ⟨hcode, hstate⟩
    · refine ⟨hok, hother, fun _ _ => hmap, ?_⟩
      rintro (hne | ha)
      · exact absurd hcode hne
      · rw [haccess] at ha
        cases ha
    · have hstate : s' = s := hstate
      exact hkept (.inl hcode) (by rw [hstate]) (by rw [hstate])
  rw [posixLockFile.eq_def] at hcall
  cases hconflict : findConflict s i request with
  | some fl =>
    rw [hconflict] at hcall
    dsimp only at hcall
    split_ifs at hcall with hsleep hdead
    · cases hcall
      exact hkept (.inl nofun) rfl rfl
    · cases hcall
      exact hkept (.inl nofun) rfl rfl
    · cases hcall
      exact hkept (.inl nofun) rfl rfl
  | none =>
    rw [hconflict] at hcall
    dsimp only at hcall
    split_ifs at hcall with haccess hneeds
    · cases hcall
      exact hkept (.inr haccess) rfl rfl
    · exact hset newFl newFl2 hunused hconflict (Bool.eq_false_iff.mpr haccess) hcall
    · exact hset none none ⟨hunused.own, nofun, nofun, nofun⟩ hconflict
        (Bool.eq_false_iff.mpr haccess) hcall

/-- The calls: ranges within a file, in structures that are not in use. -/
def Admissible (s : Locks Inode Owner) : Op Inode Owner → Prop
  | .lock _ request fl _ newFl newFl2 => ValidRequest fl ∧ Unused s request newFl newFl2
  | .cancel _ => True

def Step (s : Locks Inode Owner) (op : Op Inode Owner) (s' : Locks Inode Owner) : Prop :=
  (step s op).2 = s'

theorem LocksOk.step (h : LocksOk s) {op : Op Inode Owner} (hop : Admissible s op) :
    LocksOk (Locks.step s op).2 := by
  cases op with
  | cancel waiter => exact (@LocksOk.kept _ _ _ s (locksDeleteBlock s waiter) h rfl rfl).1
  | lock i request fl flags newFl newFl2 =>
    obtain ⟨hvalid, hunused⟩ := hop
    have hfill := h.fill hunused.own.1 fl
    exact (posixLockFile_spec hfill.1 ⟨hunused.own, hunused.first, hunused.second, hunused.ne⟩
      (by rw [heap_modify_self]; exact hvalid) rfl).1

/-- In every run, the list of each inode is grouped by owner behind the locks that are not POSIX
locks, each owner's locks are in order, disjoint and not adjacent if their types are equal, and
owners are compatible. A request for locks that returns 0 sets its range for its owner and nothing
else; every other call leaves the bytes of all owners as they are. -/
theorem posix_locks_refine_bytes {start s : Locks Inode Owner} (hstart : Initial start)
    (hrun : Reaches Step Admissible start s) :
    (∀ i, ListOk (s.locks i)) ∧
      ∀ i request fl flags newFl newFl2, Admissible s (.lock i request fl flags newFl newFl2) →
        ∀ code s', step s (.lock i request fl flags newFl newFl2) = (code, s') →
          (∀ j ≠ i, byteMap (s'.locks j) = byteMap (s.locks j)) ∧
          (code = .ok → flags.access = false → byteMap (s'.locks i) =
            (byteMap (s.locks i)).setRange fl.owner fl.start fl.stop fl.type) ∧
          (code ≠ .ok ∨ flags.access = true → byteMap (s'.locks i) = byteMap (s.locks i)) := by
  have hok : LocksOk s := by
    refine hrun.invariant LocksOk ?_ hstart.locksOk
    rintro s op t hs hop rfl
    exact hs.step hop
  refine ⟨hok.list, ?_⟩
  rintro i request fl flags newFl newFl2 ⟨hvalid, hunused⟩ code s' hcall
  obtain ⟨hfill, hlocks⟩ := hok.fill hunused.own.1 fl
  have hself : (modify s request fun _ => fl).heap request = fl := heap_modify_self s request _
  obtain ⟨_, hother, hset, hkept⟩ := posixLockFile_spec hfill
    ⟨hunused.own, hunused.first, hunused.second, hunused.ne⟩ (by rw [hself]; exact hvalid) hcall
  rw [hself, hlocks i] at hset
  refine ⟨?_, hset, ?_⟩
  · intro j hj
    rw [hother j hj, hlocks j]
  · intro hcode
    rw [hkept hcode, hlocks i]

/-- No locks at all. -/
def noLocks : Locks Unit Nat :=
  ⟨fun _ => ⟨.posix, 0, .unlck, 0, 0⟩, fun _ => [], [], fun _ => none⟩

theorem initial_noLocks : Initial noLocks :=
  ⟨fun _ => List.nodup_nil, nofun, nofun, rfl, fun _ => rfl⟩

theorem admissible_noLocks (flags : Flags) :
    Admissible noLocks (.lock () 1 ⟨.posix, 7, .wrlck, 0, 9⟩ flags (some 2) (some 3)) := by
  refine ⟨⟨rfl, by decide, by decide, by decide⟩, ⟨nofun, rfl⟩, ?_, ?_, ?_⟩
  · intro n hn
    cases hn
    exact ⟨⟨nofun, rfl⟩, by decide⟩
  · intro n hn
    cases hn
    exact ⟨⟨nofun, rfl⟩, by decide⟩
  · intro n hn
    cases hn
    decide

theorem posix_locks_refine_bytes_first :
    byteMap ((step noLocks (.lock () 1 ⟨.posix, 7, .wrlck, 0, 9⟩ ⟨false, false, false⟩ (some 2)
      (some 3))).2.locks ()) = (byteMap (noLocks.locks ())).setRange 7 0 9 .wrlck := by
  exact ((posix_locks_refine_bytes initial_noLocks (.refl _)).2 () 1 ⟨.posix, 7, .wrlck, 0, 9⟩
    ⟨false, false, false⟩ (some 2) (some 3) (admissible_noLocks _) _ _ rfl).2.1 rfl rfl

/-- A request with `FL_ACCESS` returns 0 and locks nothing. -/
theorem posix_locks_access_unchanged :
    ∃ s' : Locks Unit Nat, Initial noLocks ∧
      Admissible noLocks (.lock () 1 ⟨.posix, 7, .wrlck, 0, 9⟩ ⟨true, false, false⟩ (some 2)
        (some 3)) ∧
      step noLocks (.lock () 1 ⟨.posix, 7, .wrlck, 0, 9⟩ ⟨true, false, false⟩ (some 2) (some 3)) =
        (.ok, s') ∧
      byteMap (s'.locks ()) ≠ (byteMap (noLocks.locks ())).setRange 7 0 9 .wrlck := by
  refine ⟨_, initial_noLocks, admissible_noLocks _, rfl, ?_⟩
  intro heq
  have hx := congrFun (congrFun heq 7) 0
  cases hx

end AndroidKernel.Locks
