import AndroidKernel.Locks.Owned
import Mathlib.Data.List.Nodup

/-!
# The pass over the locks of the owner

The second loop of `__posix_lock_file` and what comes after it compute `place` or `remove`. The
structures of other locks stay as they are.
-/

namespace AndroidKernel.Locks

universe u v

variable {Inode : Type v} {Owner : Type u}

@[simp] theorem heap_locksWakeUpBlocks (s : Locks Inode Owner) (fl : Ptr) :
    (locksWakeUpBlocks s fl).heap = s.heap := rfl

theorem heap_modify_self (s : Locks Inode Owner) (fl : Ptr) (f : FileLock Owner → FileLock Owner) :
    (modify s fl f).heap fl = f (s.heap fl) :=
  Function.update_self _ _ _

theorem heap_modify_of_ne (s : Locks Inode Owner) {fl p : Ptr}
    (f : FileLock Owner → FileLock Owner) (h : p ≠ fl) : (modify s fl f).heap p = s.heap p :=
  Function.update_of_ne h _ _

/-- A lock with its end cut off if it is `left`. -/
def cutAt (left : Option Ptr) (n : Int) (heap : Ptr → FileLock Owner) (p : Ptr) : FileLock Owner :=
  if left = some p then { heap p with stop := n - 1 } else heap p

theorem cutAt_of_ne {left : Option Ptr} {n : Int} {heap : Ptr → FileLock Owner} {p : Ptr}
    (h : left ≠ some p) : cutAt left n heap p = heap p :=
  if_neg h

theorem heap_trimLeft (s : Locks Inode Owner) (request : Ptr) (left : Option Ptr) (p : Ptr) :
    (trimLeft s request left).heap p = cutAt left (s.heap request).start s.heap p := by
  unfold cutAt
  cases left with
  | none => rw [if_neg nofun]; rfl
  | some l =>
    rw [trimLeft, heap_locksWakeUpBlocks]
    by_cases hp : p = l
    · subst hp
      rw [if_pos rfl, heap_modify_self]
    · rw [if_neg (fun h => hp (Option.some.inj h).symm), heap_modify_of_ne s _ hp]

theorem iFlock_trimLeft (s : Locks Inode Owner) (request : Ptr) (left : Option Ptr) :
    (trimLeft s request left).iFlock = s.iFlock := by
  cases left with
  | none => rfl
  | some l => rfl

theorem heap_trimRight_self (s : Locks Inode Owner) (request right : Ptr) :
    (trimRight s request right).heap right =
      { s.heap right with start := (s.heap request).stop + 1 } := by
  rw [trimRight, heap_locksWakeUpBlocks, heap_modify_self]

theorem heap_trimRight_of_ne (s : Locks Inode Owner) (request : Ptr) {right p : Ptr}
    (h : p ≠ right) : (trimRight s request right).heap p = s.heap p := by
  rw [trimRight, heap_locksWakeUpBlocks, heap_modify_of_ne s _ h]

section

variable {t : Pass Inode Owner} {skipped b ps rest : List Ptr}

theorem map_cutAt {left : Option Ptr} {n : Int} {heap : Ptr → FileLock Owner} {ps : List Ptr}
    (h : ∀ l, left = some l → l ∉ ps) : ps.map (cutAt left n heap) = ps.map heap := by
  refine List.map_congr_left ?_
  intro p hp
  exact cutAt_of_ne fun hl => h p hl hp

theorem map_heap_congr {heap heap' : Ptr → FileLock Owner} {ps : List Ptr}
    (h : ∀ p ∈ ps, heap' p = heap p) : ps.map heap' = ps.map heap :=
  List.map_congr_left h

/-- The list around the locks of the owner. -/
theorem vals_congr {heap heap' : Ptr → FileLock Owner} {post : List Ptr} {left : Option Ptr}
    {n : Int} {vals : List (FileLock Owner)}
    (h : ∀ p ∈ skipped ++ b ++ post, heap' p = heap p) :
    skipped.map heap' ++ b.map (cutAt left n heap') ++ (vals ++ post.map heap') =
      skipped.map heap ++ b.map (cutAt left n heap) ++ (vals ++ post.map heap) := by
  obtain ⟨hfirst, hpost⟩ := List.forall_mem_append.mp h
  obtain ⟨hskip, hb⟩ := List.forall_mem_append.mp hfirst
  have hcut : b.map (cutAt left n heap') = b.map (cutAt left n heap) := by
    refine List.map_congr_left ?_
    intro p hp
    unfold cutAt
    rw [hb p hp]
  rw [hcut, map_heap_congr hskip, map_heap_congr hpost]

theorem append_passed (p : Ptr) (rest : List Ptr) :
    skipped ++ (b ++ [p]) ++ rest = skipped ++ b ++ p :: rest := by
  rw [← List.append_assoc, List.append_assoc (skipped ++ b), List.singleton_append]

theorem vals_passed {f g : Ptr → FileLock Owner} {p : Ptr} {vals : List (FileLock Owner)} :
    skipped.map g ++ (b ++ [p]).map f ++ vals = skipped.map g ++ b.map f ++ (f p :: vals) := by
  rw [List.map_append, List.map_singleton, List.append_assoc, List.append_assoc,
    List.append_assoc, List.singleton_append]

theorem merge_request {p : Ptr} (hne : t.request ≠ p) :
    (t.merge p).s.heap t.request =
      { t.req with
        start := min (t.s.heap p).start t.req.start
        stop := max (t.s.heap p).stop t.req.stop } := by
  rw [Pass.merge, heap_modify_self, heap_modify_of_ne _ _ hne]
  rfl

theorem merge_of_ne {p x : Ptr} (hp : x ≠ p) (hq : x ≠ t.request) :
    (t.merge p).s.heap x = t.s.heap x := by
  rw [Pass.merge, heap_modify_of_ne _ _ hq, heap_modify_of_ne _ _ hp]

theorem nodup_two {xs zs : List Ptr} {r p : Ptr} (h : (xs ++ r :: p :: zs).Nodup) :
    r ≠ p ∧ r ∉ xs ++ zs ∧ p ∉ xs ++ zs ∧ (xs ++ r :: zs).Nodup := by
  obtain ⟨hr, hrest⟩ := List.nodup_cons.mp (List.nodup_middle.mp h)
  obtain ⟨hp, hrest⟩ := List.nodup_cons.mp (List.nodup_middle.mp hrest)
  have hr' : r ∉ xs ++ zs := by
    intro hmem
    refine hr (List.mem_append.mpr ?_)
    exact (List.mem_append.mp hmem).imp id (List.mem_cons_of_mem p)
  refine ⟨?_, hr', hp, List.nodup_middle.mpr (List.nodup_cons.mpr ⟨hr', hrest⟩)⟩
  rintro rfl
  exact hr (List.mem_append_right _ List.mem_cons_self)

theorem locksCopyLock_self (s : Locks Inode Owner) (new fl : Ptr) :
    (locksCopyLock s new fl).heap new = s.heap fl :=
  heap_modify_self s new _

theorem locksCopyLock_of_ne (s : Locks Inode Owner) {new p : Ptr} (fl : Ptr) (h : p ≠ new) :
    (locksCopyLock s new fl).heap p = s.heap p :=
  heap_modify_of_ne s _ h

theorem trimLeft_congr {s : Locks Inode Owner} {q q' : Ptr} {left : Option Ptr}
    (h : s.heap q = s.heap q') : trimLeft s q left = trimLeft s q' left := by
  cases left with
  | none => rfl
  | some l => rw [trimLeft, trimLeft, h]

end

variable [DecidableEq Owner]

/-- The loop ends at the locks of the next owner. -/
theorem scan_post {t : Pass Inode Owner} {post : List Ptr}
    (h : ∀ p ∈ post.head?, (t.s.heap p).owner ≠ t.req.owner) : scan t post = (t, post) := by
  cases post with
  | nil => rfl
  | cons p post =>
    have hp := h p rfl
    rw [scan, if_pos]
    exact decide_eq_false (Ne.symm hp)

variable [DecidableEq Inode]

/-- The list of an inode was changed: it has the locks `vals` now, in the old structures or in new
ones. No other structure but the request changed. -/
structure Outcome (i : Inode) (s : Locks Inode Owner) (old new : List Ptr) (request : Ptr)
    (vals : List (FileLock Owner)) (s' : Locks Inode Owner) : Prop where
  list : ∃ ptrs, s'.iFlock = Function.update s.iFlock i ptrs ∧ ptrs.map s'.heap = vals ∧
    ptrs.Nodup ∧ ∀ p ∈ ptrs, p ∈ old ∨ p ∈ new
  frame : ∀ p, p ∉ old → p ∉ new → p ≠ request → s'.heap p = s.heap p

/-- The locks of the pass from `rest` on have become `vals`, and those before it in `b` are as they
were, but for the end of `left`. -/
def Pass.Done (t : Pass Inode Owner) (i : Inode) (skipped b rest new : List Ptr)
    (vals : List (FileLock Owner)) (r : Code × Locks Inode Owner) : Prop :=
  r.1 = .ok ∧ Outcome i t.s (skipped ++ b ++ rest) new t.request
    (skipped.map t.s.heap ++ b.map (cutAt t.left t.req.start t.s.heap) ++ vals) r.2

variable (i : Inode) (skipped : List Ptr) (flags : Flags) (newFl newFl2 : Option Ptr)

/-- The loop and what comes after it. -/
def run (t : Pass Inode Owner) (rest : List Ptr) : Code × Locks Inode Owner :=
  finish i skipped flags newFl newFl2 (scan t rest).1 (scan t rest).2

variable {i skipped flags newFl newFl2}

/-- `__posix_lock_file` when the new lock stands in the list. -/
theorem finish_added {t : Pass Inode Owner} {rest : List Ptr} (hadded : t.added = true)
    (hright : t.right = none) :
    finish i skipped flags newFl newFl2 t rest =
      close i skipped t rest .ok (trimLeft t.s t.request t.left, []) := by
  rw [finish.eq_def, if_neg (by rw [hright]; exact fun h => nomatch h.1), if_pos hadded, trim, hright]

/-- The same with a lock that reaches beyond the new one. -/
theorem finish_added_right {t : Pass Inode Owner} {rest : List Ptr} {p : Ptr}
    (hadded : t.added = true) (hright : t.right = some p) (hne : t.left ≠ some p) :
    finish i skipped flags newFl newFl2 t rest =
      close i skipped t rest .ok
        (trimLeft (trimRight t.s t.request p) t.request t.left, []) := by
  rw [finish.eq_def, if_neg (by rw [hright]; exact fun h => hne h.2.1), if_pos hadded, trim, hright]
  dsimp only
  rw [if_neg hne]

variable {o : Owner} {t : Pass Inode Owner} {b ps rest : List Ptr} {r : Ptr}

theorem outcome_close {code : Code} {s s' : Locks Inode Owner} {old new mid : List Ptr} {q : Ptr}
    {vals : List (FileLock Owner)} (hflock : s'.iFlock = s.iFlock)
    (hvals : (skipped ++ t.before ++ mid ++ rest).map s'.heap = vals)
    (hnodup : (skipped ++ t.before ++ mid ++ rest).Nodup)
    (hmem : ∀ p ∈ skipped ++ t.before ++ mid ++ rest, p ∈ old ∨ p ∈ new)
    (hframe : ∀ p, p ∉ old → p ∉ new → p ≠ q → s'.heap p = s.heap p) :
    Outcome i s old new q vals (close i skipped t rest code (s', mid)).2 := by
  refine ⟨⟨_, ?_, hvals, hnodup, hmem⟩, hframe⟩
  rw [close, hflock]

omit [DecidableEq Owner] in
/-- More structures may have changed. -/
theorem Outcome.mono {s s₀ s' : Locks Inode Owner} {old old₀ new new₀ : List Ptr} {q q₀ : Ptr}
    {vals : List (FileLock Owner)} (h : Outcome i s old new q vals s')
    (hflock : s.iFlock = s₀.iFlock) (hold : ∀ p, p ∈ old ∨ p ∈ new → p ∈ old₀ ∨ p ∈ new₀)
    (hq : (q ∈ old₀ ∨ q ∈ new₀) ∨ q = q₀)
    (hheap : ∀ p, ¬ (p ∈ old₀ ∨ p ∈ new₀) → p ≠ q₀ → s.heap p = s₀.heap p) :
    Outcome i s₀ old₀ new₀ q₀ vals s' := by
  obtain ⟨⟨ptrs, hptrs, hvals, hnodup, hmem⟩, hframe⟩ := h
  refine ⟨⟨ptrs, hflock ▸ hptrs, hvals, hnodup, fun p hp => hold p (hmem p hp)⟩, ?_⟩
  intro p hpo hpn hpq
  have hno : ¬ (p ∈ old₀ ∨ p ∈ new₀) := fun h => h.elim hpo hpn
  have hne : p ≠ q := by
    rintro rfl
    exact hq.elim hno hpq
  rw [hframe p (fun h => hno (hold p (.inl h))) (fun h => hno (hold p (.inr h))) hne]
  exact hheap p hno hpq

theorem trim_done {code : Code} (hbefore : t.before = b) (hleft : ∀ l, t.left = some l → l ∈ b)
    (hnodup : (skipped ++ b ++ rest).Nodup) :
    Outcome i t.s (skipped ++ b ++ rest) [] t.request
      (skipped.map t.s.heap ++ b.map (cutAt t.left t.req.start t.s.heap) ++ rest.map t.s.heap)
      (close i skipped t rest code (trimLeft t.s t.request t.left, [])).2 := by
  have happend : skipped ++ t.before ++ [] ++ rest = skipped ++ b ++ rest := by
    rw [hbefore, List.append_nil]
  obtain ⟨hfirst, _, hne⟩ := List.nodup_append.mp hnodup
  obtain ⟨_, _, hne'⟩ := List.nodup_append.mp hfirst
  have hskip : ∀ l, t.left = some l → l ∉ skipped :=
    fun l hl hmem => hne' l hmem l (hleft l hl) rfl
  have hrest : ∀ l, t.left = some l → l ∉ rest :=
    fun l hl hmem => hne l (List.mem_append_right _ (hleft l hl)) l hmem rfl
  have hheap : (trimLeft t.s t.request t.left).heap = cutAt t.left t.req.start t.s.heap := by
    funext p
    exact heap_trimLeft _ _ _ _
  refine outcome_close (iFlock_trimLeft _ _ _) ?_ ?_ ?_ ?_
  · rw [happend, hheap, List.map_append, List.map_append, map_cutAt hskip, map_cutAt hrest]
  · rw [happend]
    exact hnodup
  · rw [happend]
    exact fun p hp => .inl hp
  · intro p hp _ _
    rw [hheap]
    refine cutAt_of_ne ?_
    intro hl
    exact hp (List.mem_append_left _ (List.mem_append_right _ (hleft p hl)))

/-- The same with a lock `p` that reaches beyond the request. -/
theorem trim_doneRight {code : Code} {p : Ptr} (hbefore : t.before = b)
    (hleft : ∀ l, t.left = some l → l ∈ b) (hnodup : (skipped ++ b ++ p :: rest).Nodup)
    (hqp : t.request ≠ p) :
    Outcome i t.s (skipped ++ b ++ p :: rest) [] t.request
      (skipped.map t.s.heap ++ b.map (cutAt t.left t.req.start t.s.heap) ++
        { t.s.heap p with start := t.req.stop + 1 } :: rest.map t.s.heap)
      (close i skipped t (p :: rest) code
        (trimLeft (trimRight t.s t.request p) t.request t.left, [])).2 := by
  have hdone := @trim_done _ _ _ _ i skipped { t with s := trimRight t.s t.request p } b (p :: rest)
    code hbefore hleft hnodup
  obtain ⟨hpno, _⟩ := List.nodup_cons.mp (List.nodup_middle.mp hnodup)
  have hother : ∀ x, x ≠ p → (trimRight t.s t.request p).heap x = t.s.heap x :=
    fun x hx => heap_trimRight_of_ne t.s t.request hx
  have hpall : p ∈ skipped ++ b ++ p :: rest := List.mem_append_right _ List.mem_cons_self
  have hself : (trimRight t.s t.request p).heap p =
      { t.s.heap p with start := t.req.stop + 1 } := heap_trimRight_self t.s t.request p
  have hreq : Pass.req { t with s := trimRight t.s t.request p } = t.req := hother _ hqp
  have hcongr := @vals_congr _ skipped b t.s.heap (trimRight t.s t.request p).heap rest t.left
    t.req.start [(trimRight t.s t.request p).heap p]
    (fun x hx => hother x fun h => hpno (h ▸ hx))
  rw [hreq, List.map_cons] at hdone
  rw [hself] at hcongr hdone
  have hdone := hcongr ▸ hdone
  refine hdone.mono rfl (fun _ h => h) (.inr rfl) ?_
  intro x hx _
  exact hother x fun h => hx (.inl (h ▸ hpall))

/-- The new lock `r` stands in the list, and no other lock meets it. -/
theorem run_done {code : Code} (hbefore : t.before = b ++ [r]) (hreq : t.request = r)
    (hleft : ∀ l, t.left = some l → l ∈ b) (hnodup : (skipped ++ b ++ r :: rest).Nodup) :
    Outcome i t.s (skipped ++ b ++ r :: rest) [] r
      (skipped.map t.s.heap ++ b.map (cutAt t.left (t.s.heap r).start t.s.heap) ++
        t.s.heap r :: rest.map t.s.heap)
      (close i skipped t rest code (trimLeft t.s t.request t.left, [])).2 := by
  subst hreq
  rw [← append_passed] at hnodup ⊢
  have hdone := @trim_done _ _ _ _ i skipped t (b ++ [t.request]) rest code hbefore
    (fun l hl => List.mem_append_left _ (hleft l hl)) hnodup
  have hcut : cutAt t.left t.req.start t.s.heap t.request = t.s.heap t.request := by
    refine cutAt_of_ne ?_
    intro hl
    rw [append_passed] at hnodup
    obtain ⟨hno, _⟩ := List.nodup_cons.mp (List.nodup_middle.mp hnodup)
    exact hno (List.mem_append_left _ (List.mem_append_right _ (hleft _ hl)))
  rw [vals_passed, hcut] at hdone
  exact hdone

/-- The same with a lock `p` that reaches beyond the new one. -/
theorem run_doneRight {code : Code} {p : Ptr} (hbefore : t.before = b ++ [r]) (hreq : t.request = r)
    (hleft : ∀ l, t.left = some l → l ∈ b) (hnodup : (skipped ++ b ++ r :: p :: rest).Nodup) :
    Outcome i t.s (skipped ++ b ++ r :: p :: rest) [] r
      (skipped.map t.s.heap ++ b.map (cutAt t.left (t.s.heap r).start t.s.heap) ++
        t.s.heap r :: { t.s.heap p with start := (t.s.heap r).stop + 1 } :: rest.map t.s.heap)
      (close i skipped t (p :: rest) code
        (trimLeft (trimRight t.s t.request p) t.request t.left, [])).2 := by
  subst hreq
  obtain ⟨hno, _⟩ := List.nodup_cons.mp (List.nodup_middle.mp hnodup)
  rw [← append_passed] at hnodup ⊢
  have hdone := @trim_doneRight _ _ _ _ i skipped t (b ++ [t.request]) rest code p hbefore
    (fun l hl => List.mem_append_left _ (hleft l hl)) hnodup
    (fun h => hno (h ▸ List.mem_append_right _ List.mem_cons_self))
  have hcut : cutAt t.left t.req.start t.s.heap t.request = t.s.heap t.request := by
    refine cutAt_of_ne ?_
    intro hl
    exact hno (List.mem_append_left _ (List.mem_append_right _ (hleft _ hl)))
  rw [vals_passed, hcut] at hdone
  exact hdone

theorem run_of_scan {t' : Pass Inode Owner} {rest' : List Ptr} (h : scan t rest = scan t' rest') :
    run i skipped flags newFl newFl2 t rest = run i skipped flags newFl newFl2 t' rest' := by
  rw [run, h, run]

theorem run_stop {t' : Pass Inode Owner} {rest' : List Ptr} (h : scan t rest = (t', rest')) :
    run i skipped flags newFl newFl2 t rest = finish i skipped flags newFl newFl2 t' rest' := by
  rw [run, h]

/-- The loop from the new lock on. -/
theorem run_absorb {post : List Ptr} (hadded : t.added = true) (hright : t.right = none)
    (hbefore : t.before = b ++ [r]) (hreq : t.request = r)
    (hleft : ∀ l, t.left = some l → l ∈ b) (hnodup : (skipped ++ b ++ r :: (ps ++ post)).Nodup)
    (hr : Held o (t.s.heap r)) (hg : Group o (ps.map t.s.heap))
    (hle : ∀ v ∈ ps.map t.s.heap, (t.s.heap r).start ≤ v.start)
    (hpost : ∀ p ∈ post.head?, (t.s.heap p).owner ≠ o) :
    (run i skipped flags newFl newFl2 t (ps ++ post)).1 = .ok ∧
      Outcome i t.s (skipped ++ b ++ r :: (ps ++ post)) [] r
        (skipped.map t.s.heap ++ b.map (cutAt t.left (t.s.heap r).start t.s.heap) ++
          (absorb (t.s.heap r) (ps.map t.s.heap) ++ post.map t.s.heap))
        (run i skipped flags newFl newFl2 t (ps ++ post)).2 := by
  have hreqr : t.req = t.s.heap r := by rw [Pass.req, hreq]
  induction ps generalizing t with
  | nil =>
    have hstop : scan t post = (t, post) := by
      refine scan_post ?_
      intro p hp
      rw [hreqr, hr.owner]
      exact hpost p hp
    rw [List.nil_append, run_stop hstop, finish_added hadded hright]
    exact ⟨rfl, run_done hbefore hreq hleft hnodup⟩
  | cons p ps ih =>
    obtain ⟨hv, hlater, hvs⟩ := group_cons.mp hg
    obtain ⟨hrv, hrvs⟩ := List.forall_mem_cons.mp hle
    have hvle := hv.le
    have hvpos := hv.nonneg
    have hvmax := hv.stop_le
    have hrle := hr.le
    have hrpos := hr.nonneg
    have hrmax := hr.stop_le
    have howner : posixSameOwner t.req (t.s.heap p) ≠ false := by
      rw [hreqr]
      unfold posixSameOwner
      rw [hr.owner, hv.owner]
      simp
    rw [List.cons_append] at hnodup ⊢
    obtain ⟨hrp, hrno, hpno, hnodup'⟩ := nodup_two hnodup
    have hmem : ∀ x ∈ skipped ++ b ++ r :: (ps ++ post),
        x ∈ skipped ++ b ++ r :: p :: (ps ++ post) := by
      intro x hx
      rcases List.mem_append.mp hx with hx | hx
      · exact List.mem_append_left _ hx
      · refine List.mem_append_right _ ?_
        exact (List.mem_cons.mp hx).elim (fun h => h ▸ List.mem_cons_self)
          fun h => List.mem_cons_of_mem _ (List.mem_cons_of_mem _ h)
    have hrall : r ∈ skipped ++ b ++ r :: p :: (ps ++ post) :=
      List.mem_append_right _ List.mem_cons_self
    have hpall : p ∈ skipped ++ b ++ r :: p :: (ps ++ post) :=
      List.mem_append_right _ (List.mem_cons_of_mem _ List.mem_cons_self)
    have hthis : ∀ x ∈ skipped ++ b ++ post, x ≠ p ∧ x ≠ r := by
      intro x hx
      have hx' : x ∈ skipped ++ b ++ (ps ++ post) := by
        rcases List.mem_append.mp hx with hx | hx
        · exact List.mem_append_left _ hx
        · exact List.mem_append_right _ (List.mem_append_right _ hx)
      exact ⟨fun h => hpno (h ▸ hx'), fun h => hrno (h ▸ hx')⟩
    have hps : ∀ x ∈ ps, x ≠ p ∧ x ≠ r := by
      intro x hx
      have hx' : x ∈ skipped ++ b ++ (ps ++ post) :=
        List.mem_append_right _ (List.mem_append_left _ hx)
      exact ⟨fun h => hpno (h ▸ hx'), fun h => hrno (h ▸ hx')⟩
    rw [List.map_cons, absorb]
    by_cases htype : (t.s.heap r).type = (t.s.heap p).type
    · rw [if_pos htype]
      by_cases hgap : (t.s.heap p).start - 1 > (t.s.heap r).stop
      · have hstop : scan t (p :: (ps ++ post)) = (t, p :: (ps ++ post)) := by
          rw [scan, if_neg howner, hreqr, if_pos htype, if_neg (by omega), if_pos hgap]
        rw [if_pos hgap, run_stop hstop, finish_added hadded hright]
        refine ⟨rfl, ?_⟩
        have hdone := @run_done _ _ _ _ i skipped t b (p :: (ps ++ post)) r .ok hbefore hreq hleft
          hnodup
        rw [List.map_cons, List.map_append] at hdone
        exact hdone
      have hnext : scan t (p :: (ps ++ post)) =
          scan ((t.merge p).locksDeleteLock p) (ps ++ post) := by
        rw [scan, if_neg howner, hreqr, if_pos htype, if_neg (by omega), if_neg hgap,
          if_pos hadded]
      have hself : ((t.merge p).locksDeleteLock p).s.heap r =
          { t.s.heap r with
            start := min (t.s.heap p).start (t.s.heap r).start
            stop := max (t.s.heap p).stop (t.s.heap r).stop } := by
        have hmerge := @merge_request _ _ t p (by rw [hreq]; exact hrp)
        rw [hreqr, hreq] at hmerge
        exact hmerge
      have hother : ∀ x, x ≠ p → x ≠ r →
          ((t.merge p).locksDeleteLock p).s.heap x = t.s.heap x := by
        intro x hxp hxr
        exact merge_of_ne hxp (by rw [hreq]; exact hxr)
      have hvals : ps.map ((t.merge p).locksDeleteLock p).s.heap = ps.map t.s.heap :=
        map_heap_congr fun x hx => hother x (hps x hx).1 (hps x hx).2
      obtain ⟨hcode, hout⟩ := @ih ((t.merge p).locksDeleteLock p) hadded hright hbefore hreq
        hleft hnodup'
        (by
          rw [hself]
          exact hr.range (by omega) (by omega) (by omega))
        (by rw [hvals]; exact hvs)
        (by
          rw [hvals, hself]
          intro w hw
          have := hrvs w hw
          show min (t.s.heap p).start (t.s.heap r).start ≤ w.start
          omega)
        (by
          intro x hx
          have hx' := hthis x (List.mem_append_right _ (List.mem_of_mem_head? hx))
          rw [hother x hx'.1 hx'.2]
          exact hpost x hx)
        (by rw [Pass.req]; exact congrArg _ hreq)
      rw [if_neg hgap, run_of_scan hnext]
      refine ⟨hcode, ?_⟩
      rw [hvals, hself, vals_congr fun x hx => hother x (hthis x hx).1 (hthis x hx).2] at hout
      have hmin : min (t.s.heap p).start (t.s.heap r).start = (t.s.heap r).start := by omega
      have hcut : b.map (cutAt t.left (min (t.s.heap p).start (t.s.heap r).start) t.s.heap) =
          b.map (cutAt t.left (t.s.heap r).start t.s.heap) := by rw [hmin]
      rw [← hcut]
      refine hout.mono rfl (fun x hx => hx.imp_left (hmem x)) (.inr rfl) ?_
      intro x hx hxr
      exact hother x (fun h => hx (.inl (h ▸ hpall))) hxr
    rw [if_neg htype]
    by_cases hafter : (t.s.heap p).start > (t.s.heap r).stop
    · have hstop : scan t (p :: (ps ++ post)) = (t, p :: (ps ++ post)) := by
        rw [scan, if_neg howner, hreqr, if_neg htype, if_neg (by omega), if_pos hafter]
      rw [if_pos hafter, run_stop hstop, finish_added hadded hright]
      refine ⟨rfl, ?_⟩
      have hdone := @run_done _ _ _ _ i skipped t b (p :: (ps ++ post)) r .ok hbefore hreq hleft
        hnodup
      rw [List.map_cons, List.map_append] at hdone
      exact hdone
    rw [if_neg hafter]
    have hleft' : (t.touch p).left = t.left := by
      rw [Pass.touch, hreqr]
      exact if_neg (by omega)
    have hadded' : (t.touch p).added = true := by
      rw [Pass.touch, hadded]
      rfl
    have hleftne : (t.touch p).left ≠ some p := by
      rw [hleft']
      intro h
      exact hpno (List.mem_append_left _ (List.mem_append_right _ (hleft p h)))
    by_cases hover : (t.s.heap p).stop > (t.s.heap r).stop
    · have hstop : scan t (p :: (ps ++ post)) =
          ((t.touch p).setRight p, p :: (ps ++ post)) := by
        rw [scan, if_neg howner, hreqr, if_neg htype, if_neg (by omega), if_neg hafter,
          if_pos hover]
      have hfinish := @finish_added_right _ _ _ _ i skipped flags newFl newFl2
        ((t.touch p).setRight p) (p :: (ps ++ post)) p hadded' rfl hleftne
      rw [if_pos hover, run_stop hstop, hfinish]
      refine ⟨rfl, ?_⟩
      have hleft'' : ((t.touch p).setRight p).left = t.left := hleft'
      have hdone := @run_doneRight _ _ _ _ i skipped ((t.touch p).setRight p) b (ps ++ post) r
        .ok p hbefore hreq (by rw [hleft'']; exact hleft) hnodup
      rw [List.map_append, hleft''] at hdone
      rw [hleft'']
      exact hdone
    have hnext : scan t (p :: (ps ++ post)) =
        scan ((t.touch p).locksDeleteLock p) (ps ++ post) := by
      rw [scan, if_neg howner, hreqr, if_neg htype, if_neg (by omega), if_neg hafter,
        if_neg hover, if_pos hrv, if_pos hadded']
    obtain ⟨hcode, hout⟩ := @ih ((t.touch p).locksDeleteLock p) hadded' hright hbefore hreq
      (by
        show ∀ l, (t.touch p).left = some l → l ∈ b
        rw [hleft']
        exact hleft)
      hnodup' hr hvs hrvs hpost hreqr
    rw [if_neg hover, run_of_scan hnext]
    refine ⟨hcode, ?_⟩
    have hleft'' : ((t.touch p).locksDeleteLock p).left = t.left := hleft'
    rw [hleft''] at hout
    exact hout.mono rfl (fun x hx => hx.imp_left (hmem x)) (.inr rfl) fun _ _ _ => rfl

/-! ## A new lock -/

omit [DecidableEq Owner] in
/-- A new lock in the middle is one that was passed. -/
theorem close_mid {s s' : Locks Inode Owner} {code : Code} {n q : Ptr} {before : List Ptr}
    {added : Bool} {left right : Option Ptr} :
    close i skipped ⟨s, before, q, added, left, right⟩ rest code (s', [n]) =
      close i skipped ⟨s, before ++ [n], q, added, left, right⟩ rest code (s', []) := by
  unfold close
  dsimp only
  rw [List.append_nil, List.append_assoc skipped]

omit [DecidableEq Owner] in
/-- The new lock is a structure of its own. -/
theorem Outcome.copy {n q : Ptr} {s s' : Locks Inode Owner} {vals : List (FileLock Owner)}
    (h : Outcome i (locksCopyLock s n q) (skipped ++ b ++ n :: rest) [] n vals s') :
    Outcome i s (skipped ++ b ++ rest) [n] q vals s' := by
  refine h.mono rfl ?_ (.inl (.inr List.mem_cons_self)) ?_
  · rintro p (hp | hp)
    · rcases List.mem_append.mp hp with hp | hp
      · exact .inl (List.mem_append_left _ hp)
      · rcases List.mem_cons.mp hp with rfl | hp
        · exact .inr List.mem_cons_self
        · exact .inl (List.mem_append_right _ hp)
    · cases hp
  · intro p hp _
    refine locksCopyLock_of_ne s q ?_
    rintro rfl
    exact hp (.inr List.mem_cons_self)

section Insert

variable {n q : Ptr} {s : Locks Inode Owner} {added : Bool} {left right : Option Ptr}

/-- The new lock is put in front of the rest. -/
theorem insert_done (hleft : ∀ l, left = some l → l ∈ b) (hnodup : (skipped ++ b ++ rest).Nodup)
    (hn : n ∉ skipped ++ b ++ rest) (hnq : q ≠ n) :
    Outcome i s (skipped ++ b ++ rest) [n] q
      (skipped.map s.heap ++ b.map (cutAt left (s.heap q).start s.heap) ++
        (s.heap q :: rest.map s.heap))
      (close i skipped ⟨s, b, q, added, left, right⟩ rest .ok
        (trimLeft (locksCopyLock s n q) q left, [n])).2 := by
  have hsame : (locksCopyLock s n q).heap q = (locksCopyLock s n q).heap n := by
    rw [locksCopyLock_self, locksCopyLock_of_ne s q hnq]
  have hother : ∀ p ∈ skipped ++ b ++ rest, (locksCopyLock s n q).heap p = s.heap p :=
    fun p hp => locksCopyLock_of_ne s q fun h => hn (h ▸ hp)
  have hdone := @run_done _ _ _ _ i skipped ⟨locksCopyLock s n q, b ++ [n], n, added, left, right⟩
    b rest n .ok rfl rfl hleft (List.nodup_middle.mpr (List.nodup_cons.mpr ⟨hn, hnodup⟩))
  have hvals := @vals_congr _ skipped b _ _ rest left (s.heap q).start [s.heap q] hother
  rw [locksCopyLock_self] at hdone
  rw [trimLeft_congr hsame, close_mid]
  refine Outcome.copy ?_
  rw [show s.heap q :: rest.map s.heap = [s.heap q] ++ rest.map s.heap from rfl, ← hvals]
  exact hdone

/-- The same with a lock `p` that reaches beyond the new one. -/
theorem insert_doneRight {p : Ptr} (hleft : ∀ l, left = some l → l ∈ b)
    (hnodup : (skipped ++ b ++ p :: rest).Nodup) (hn : n ∉ skipped ++ b ++ p :: rest)
    (hnq : q ≠ n) (hq : q ∉ skipped ++ b ++ p :: rest) :
    Outcome i s (skipped ++ b ++ p :: rest) [n] q
      (skipped.map s.heap ++ b.map (cutAt left (s.heap q).start s.heap) ++
        (s.heap q :: { s.heap p with start := (s.heap q).stop + 1 } :: rest.map s.heap))
      (close i skipped ⟨s, b, q, added, left, right⟩ (p :: rest) .ok
        (trimLeft (trimRight (locksCopyLock s n q) q p) q left, [n])).2 := by
  have hpall : p ∈ skipped ++ b ++ p :: rest := List.mem_append_right _ List.mem_cons_self
  have hnp : n ≠ p := fun h => hn (h ▸ hpall)
  have hqp : q ≠ p := fun h => hq (h ▸ hpall)
  have hsame : (locksCopyLock s n q).heap q = (locksCopyLock s n q).heap n := by
    rw [locksCopyLock_self, locksCopyLock_of_ne s q hnq]
  have hsame' : (trimRight (locksCopyLock s n q) q p).heap q =
      (trimRight (locksCopyLock s n q) q p).heap n := by
    rw [heap_trimRight_of_ne _ _ hqp, heap_trimRight_of_ne _ _ hnp, hsame]
  have hright : trimRight (locksCopyLock s n q) q p = trimRight (locksCopyLock s n q) n p := by
    rw [trimRight, trimRight, hsame]
  have hother : ∀ x ∈ skipped ++ b ++ p :: rest, (locksCopyLock s n q).heap x = s.heap x :=
    fun x hx => locksCopyLock_of_ne s q fun h => hn (h ▸ hx)
  have hdone := @run_doneRight _ _ _ _ i skipped
    ⟨locksCopyLock s n q, b ++ [n], n, added, left, right⟩ b rest n .ok p rfl rfl hleft
    (List.nodup_middle.mpr (List.nodup_cons.mpr ⟨hn, hnodup⟩))
  have hvals := @vals_congr _ skipped b _ _ rest left (s.heap q).start
    [s.heap q, { s.heap p with start := (s.heap q).stop + 1 }]
    (fun x hx => hother x (by
      rcases List.mem_append.mp hx with hx | hx
      · exact List.mem_append_left _ hx
      · exact List.mem_append_right _ (List.mem_cons_of_mem _ hx)))
  rw [locksCopyLock_self, hother p hpall] at hdone
  rw [trimLeft_congr hsame', hright, close_mid]
  refine Outcome.copy ?_
  rw [show s.heap q :: { s.heap p with start := (s.heap q).stop + 1 } :: rest.map s.heap =
    [s.heap q, { s.heap p with start := (s.heap q).stop + 1 }] ++ rest.map s.heap from rfl, ← hvals]
  exact hdone

theorem split_done {p n2 : Ptr} {mid : List Ptr} (hnodup : (skipped ++ b ++ mid ++ p :: rest).Nodup)
    (hn2 : n2 ∉ skipped ++ b ++ mid ++ p :: rest) (hnq : q ≠ n2)
    (hq : q ∉ skipped ++ b ++ mid ++ p :: rest) {s₀ : Locks Inode Owner} :
    Outcome i s (skipped ++ b ++ mid ++ p :: rest) [n2] q
      (skipped.map s.heap ++ b.map s.heap ++
        ({ s.heap p with stop := (s.heap q).start - 1 } :: (mid.map s.heap ++
          { s.heap p with start := (s.heap q).stop + 1 } :: rest.map s.heap)))
      (close i skipped ⟨s₀, b, q, added, left, right⟩ (p :: rest) .ok
        (trimLeft (trimRight (locksCopyLock s n2 p) q p) q (some n2), n2 :: mid)).2 := by
  have hpall : p ∈ skipped ++ b ++ mid ++ p :: rest := List.mem_append_right _ List.mem_cons_self
  have hn2p : n2 ≠ p := fun h => hn2 (h ▸ hpall)
  have hqp : q ≠ p := fun h => hq (h ▸ hpall)
  obtain ⟨hpno, _⟩ := List.nodup_cons.mp (List.nodup_middle.mp hnodup)
  have hqheap : (trimRight (locksCopyLock s n2 p) q p).heap q = s.heap q := by
    rw [heap_trimRight_of_ne _ _ hqp, locksCopyLock_of_ne _ _ hnq]
  have hother : ∀ x, x ≠ n2 → x ≠ p →
      (trimLeft (trimRight (locksCopyLock s n2 p) q p) q (some n2)).heap x = s.heap x := by
    intro x hxn hxp
    rw [heap_trimLeft, cutAt_of_ne (fun h => hxn (Option.some.inj h).symm),
      heap_trimRight_of_ne _ _ hxp, locksCopyLock_of_ne _ _ hxn]
  have hself2 : (trimLeft (trimRight (locksCopyLock s n2 p) q p) q (some n2)).heap n2 =
      { s.heap p with stop := (s.heap q).start - 1 } := by
    rw [heap_trimLeft, cutAt, if_pos rfl, hqheap, heap_trimRight_of_ne _ _ hn2p,
      locksCopyLock_self]
  have hselfp : (trimLeft (trimRight (locksCopyLock s n2 p) q p) q (some n2)).heap p =
      { s.heap p with start := (s.heap q).stop + 1 } := by
    rw [heap_trimLeft, cutAt_of_ne (fun h => hn2p (Option.some.inj h)), heap_trimRight_self,
      locksCopyLock_of_ne _ _ hnq, locksCopyLock_of_ne _ _ (Ne.symm hn2p)]
  have hmap : ∀ xs : List Ptr, (∀ x ∈ xs, x ∈ skipped ++ b ++ mid ++ rest) →
      xs.map (trimLeft (trimRight (locksCopyLock s n2 p) q p) q (some n2)).heap = xs.map s.heap := by
    intro xs hxs
    refine map_heap_congr ?_
    intro x hx
    refine hother x ?_ fun h => hpno (h ▸ hxs x hx)
    rintro rfl
    refine hn2 ?_
    rcases List.mem_append.mp (hxs _ hx) with hx | hx
    · exact List.mem_append_left _ hx
    · exact List.mem_append_right _ (List.mem_cons_of_mem _ hx)
  refine outcome_close (iFlock_trimLeft _ _ _) ?_ ?_ ?_ ?_
  · dsimp only
    rw [List.map_append, List.map_append, List.map_append, List.map_cons, List.map_cons, hself2,
      hselfp, hmap skipped (by simp +contextual), hmap b (by simp +contextual),
      hmap mid (by simp +contextual), hmap rest (by simp +contextual), List.append_assoc,
      List.cons_append]
  · dsimp only
    rw [List.append_assoc, List.cons_append]
    refine List.nodup_middle.mpr (List.nodup_cons.mpr ?_)
    rw [← List.append_assoc]
    exact ⟨hn2, hnodup⟩
  · dsimp only
    intro x hx
    rw [List.append_assoc, List.cons_append] at hx
    rcases List.mem_append.mp hx with hx | hx
    · exact .inl (List.mem_append_left _ (List.mem_append_left _ hx))
    · rcases List.mem_cons.mp hx with rfl | hx
      · exact .inr List.mem_cons_self
      · refine .inl ?_
        rw [List.append_assoc]
        exact List.mem_append_right _ hx
  · intro x hx hxn _
    exact hother x (fun h => hxn (h ▸ List.mem_cons_self)) fun h => hx (h ▸ hpall)

end Insert

/-! ## How the call ends -/

/-- The new structures are not in use. -/
structure Fresh (newFl newFl2 : Option Ptr) (q : Ptr) (all : List Ptr) : Prop where
  first : ∀ n, newFl = some n → n ∉ all ∧ q ≠ n
  second : ∀ n, newFl2 = some n → n ∉ all ∧ q ≠ n
  ne : ∀ n, newFl = some n → newFl2 ≠ some n

/-- An error was returned, and the list is what it was. -/
def Refused (i : Inode) (s : Locks Inode Owner) (ptrs : List Ptr) (r : Code × Locks Inode Owner) :
    Prop :=
  (r.1 = .enolck ∨ r.1 = .enoent) ∧ r.2 = { s with iFlock := Function.update s.iFlock i ptrs }

/-- The call fails, or it changes the locks from `rest` on. -/
def Pass.Settles (t : Pass Inode Owner) (i : Inode) (skipped b rest new : List Ptr)
    (vals : List (FileLock Owner)) (r : Code × Locks Inode Owner) : Prop :=
  Refused i t.s (skipped ++ b ++ rest) r ∨ t.Done i skipped b rest new vals r

omit [DecidableEq Owner] in
theorem refused_enolck (hbefore : t.before = b) :
    Refused i t.s (skipped ++ b ++ rest) (close i skipped t rest .enolck (t.s, [])) := by
  refine ⟨.inl rfl, ?_⟩
  rw [close, List.append_nil, hbefore]

/-- The call ends with a new lock in front of the rest. -/
theorem finish_insert (hadded : t.added = false) (hright : t.right = none)
    (htype : t.req.type ≠ .unlck) (hbefore : t.before = b)
    (hleft : ∀ l, t.left = some l → l ∈ b) (hnodup : (skipped ++ b ++ rest).Nodup)
    (hfresh : Fresh newFl newFl2 t.request (skipped ++ b ++ rest)) :
    t.Settles i skipped b rest (newFl.toList ++ newFl2.toList) (t.req :: rest.map t.s.heap)
      (finish i skipped flags newFl newFl2 t rest) := by
  rw [finish.eq_def, if_neg (by rw [hright]; exact fun h => nomatch h.1),
    if_neg (by rw [hadded]; exact Bool.false_ne_true), if_neg htype]
  cases newFl with
  | none => exact .inl (refused_enolck hbefore)
  | some n =>
    obtain ⟨hn, hnq⟩ := hfresh.first n rfl
    obtain ⟨s, before, q, added, left, right⟩ := t
    cases hbefore
    cases hright
    refine .inr ⟨rfl, ?_⟩
    have hdone := @insert_done _ _ _ _ i skipped before rest n q s added left none hleft hnodup hn
      hnq
    exact hdone.mono rfl (fun p hp => hp.imp_right (List.mem_append_left _)) (.inr rfl)
      fun _ _ _ => rfl

/-- The same with a lock `p` that reaches beyond the new one. -/
theorem finish_insertRight {p : Ptr} (hadded : t.added = false) (hright : t.right = some p)
    (hne : t.left ≠ some p) (htype : t.req.type ≠ .unlck) (hbefore : t.before = b)
    (hleft : ∀ l, t.left = some l → l ∈ b) (hnodup : (skipped ++ b ++ p :: rest).Nodup)
    (hq : t.request ∉ skipped ++ b ++ p :: rest)
    (hfresh : Fresh newFl newFl2 t.request (skipped ++ b ++ p :: rest)) :
    t.Settles i skipped b (p :: rest) (newFl.toList ++ newFl2.toList)
      (t.req :: { t.s.heap p with start := t.req.stop + 1 } :: rest.map t.s.heap)
      (finish i skipped flags newFl newFl2 t (p :: rest)) := by
  rw [finish.eq_def, if_neg (by rw [hright]; exact fun h => hne h.2.1),
    if_neg (by rw [hadded]; exact Bool.false_ne_true), if_neg htype]
  cases newFl with
  | none => exact .inl (refused_enolck hbefore)
  | some n =>
    obtain ⟨hn, hnq⟩ := hfresh.first n rfl
    obtain ⟨s, before, q, added, left, right⟩ := t
    cases hbefore
    cases hright
    refine .inr ⟨rfl, ?_⟩
    have hdone := @insert_doneRight _ _ _ _ i skipped before rest n q s added left (some p) p
      hleft hnodup hn hnq hq
    dsimp only [trim]
    rw [if_neg hne]
    exact hdone.mono rfl (fun p hp => hp.imp_right (List.mem_append_left _)) (.inr rfl)
      fun _ _ _ => rfl

/-- The same when the new lock breaks `p` in two. -/
theorem finish_insertSplit {p : Ptr} (hadded : t.added = false) (hright : t.right = some p)
    (hleft : t.left = some p) (htype : t.req.type ≠ .unlck) (hbefore : t.before = b)
    (hnodup : (skipped ++ b ++ p :: rest).Nodup) (hq : t.request ∉ skipped ++ b ++ p :: rest)
    (hfresh : Fresh newFl newFl2 t.request (skipped ++ b ++ p :: rest)) :
    Refused i t.s (skipped ++ b ++ p :: rest)
        (finish i skipped flags newFl newFl2 t (p :: rest)) ∨
      (finish i skipped flags newFl newFl2 t (p :: rest)).1 = .ok ∧
        Outcome i t.s (skipped ++ b ++ p :: rest) (newFl.toList ++ newFl2.toList) t.request
          (skipped.map t.s.heap ++ b.map t.s.heap ++
            ({ t.s.heap p with stop := t.req.start - 1 } :: t.req ::
              { t.s.heap p with start := t.req.stop + 1 } :: rest.map t.s.heap))
          (finish i skipped flags newFl newFl2 t (p :: rest)).2 := by
  cases newFl2 with
  | none =>
    rw [finish.eq_def, if_pos ⟨by rw [hright]; rfl, hleft.trans hright.symm, rfl⟩]
    exact .inl (refused_enolck hbefore)
  | some n2 =>
    rw [finish.eq_def, if_neg (fun h => nomatch h.2.2),
      if_neg (by rw [hadded]; exact Bool.false_ne_true), if_neg htype]
    cases newFl with
    | none => exact .inl (refused_enolck hbefore)
    | some n =>
      obtain ⟨hn, hnq⟩ := hfresh.first n rfl
      obtain ⟨hn2, hnq2⟩ := hfresh.second n2 rfl
      have hnn : n2 ≠ n := fun h => hfresh.ne n rfl (congrArg some h)
      obtain ⟨s, before, q, added, left, right⟩ := t
      cases hbefore
      cases hright
      cases hleft
      refine .inr ⟨rfl, ?_⟩
      dsimp only [trim]
      rw [if_pos rfl]
      have happend : skipped ++ before ++ [n] ++ p :: rest =
          (skipped ++ before) ++ n :: p :: rest := by
        rw [List.append_assoc, List.singleton_append]
      have hmem : ∀ x, x ∈ skipped ++ before ++ [n] ++ p :: rest →
          x = n ∨ x ∈ skipped ++ before ++ p :: rest := by
        intro x hx
        rw [happend] at hx
        rcases List.mem_append.mp hx with hx | hx
        · exact .inr (List.mem_append_left _ hx)
        · exact (List.mem_cons.mp hx).imp_right (List.mem_append_right _)
      have hdone := @split_done _ _ _ _ i skipped before rest q (locksCopyLock s n q) added
        (some p) (some p) p n2 [n]
        (by
          rw [happend]
          exact List.nodup_middle.mpr (List.nodup_cons.mpr ⟨hn, hnodup⟩))
        (fun h => (hmem n2 h).elim hnn hn2) hnq2 (fun h => (hmem q h).elim hnq hq)
        (locksCopyLock s n q)
      have hother : ∀ x ∈ skipped ++ before ++ p :: rest,
          (locksCopyLock s n q).heap x = s.heap x :=
        fun x hx => locksCopyLock_of_ne s q fun h => hn (h ▸ hx)
      obtain ⟨hfirst, hrest⟩ := List.forall_mem_append.mp hother
      obtain ⟨hskip, hbefore⟩ := List.forall_mem_append.mp hfirst
      obtain ⟨hp, hrest⟩ := List.forall_mem_cons.mp hrest
      rw [map_heap_congr hskip, map_heap_congr hbefore, map_heap_congr hrest, hp,
        locksCopyLock_of_ne s q hnq, List.map_singleton, locksCopyLock_self] at hdone
      refine hdone.mono rfl ?_ (.inr rfl) ?_
      · rintro x (hx | hx)
        · rcases hmem x hx with rfl | hx
          · exact .inr List.mem_cons_self
          · exact .inl hx
        · exact .inr (List.mem_append_right _ hx)
      · intro x hx _
        exact locksCopyLock_of_ne s q fun h => hx (.inr (h ▸ List.mem_cons_self))

end AndroidKernel.Locks
