import AndroidKernel.Locks.Scan

/-!
# Locking and unlocking

The whole pass of `__posix_lock_file` over the locks of the owner, from the first one on.
-/

namespace AndroidKernel.Locks

universe u v

variable {Inode : Type v} {Owner : Type u}

theorem sameOwner_of_held {o : Owner} {x y : FileLock Owner} (hx : x.owner = o) (hy : y.owner = o)
    [DecidableEq Owner] : posixSameOwner x y ≠ false := by
  unfold posixSameOwner
  rw [hx, hy]
  simp

theorem merge_lock {t : Pass Inode Owner} {p : Ptr} (hne : t.request ≠ p) :
    (t.merge p).s.heap p =
      { t.s.heap p with
        start := min (t.s.heap p).start t.req.start
        stop := max (t.s.heap p).stop t.req.stop } := by
  rw [Pass.merge, heap_modify_of_ne _ _ (Ne.symm hne), heap_modify_self]

theorem replace_lock {t : Pass Inode Owner} {p : Ptr} :
    (t.replace p).s.heap p =
      { t.s.heap p with start := t.req.start, stop := t.req.stop, type := t.req.type } := by
  rw [Pass.replace, heap_modify_self, heap_locksWakeUpBlocks]

theorem replace_of_ne {t : Pass Inode Owner} {p x : Ptr} (h : x ≠ p) :
    (t.replace p).s.heap x = t.s.heap x := by
  rw [Pass.replace, heap_modify_of_ne _ _ h, heap_locksWakeUpBlocks]

variable [DecidableEq Inode] [DecidableEq Owner] {i : Inode} {skipped : List Ptr} {flags : Flags}
  {newFl newFl2 : Option Ptr} {o : Owner} {t : Pass Inode Owner} {b ps post : List Ptr}

/-- A lock that was passed counts among the later ones. -/
theorem Pass.Done.passed {p : Ptr} {rest new : List Ptr} {vals : List (FileLock Owner)}
    {r : Code × Locks Inode Owner} (hne : t.left ≠ some p)
    (h : (t.nextLock p).Done i skipped (b ++ [p]) rest new vals r) :
    t.Done i skipped b (p :: rest) new (t.s.heap p :: vals) r := by
  have hcut : cutAt (t.nextLock p).left (t.nextLock p).req.start (t.nextLock p).s.heap p =
      t.s.heap p := cutAt_of_ne hne
  rw [Pass.Done, append_passed, vals_passed, hcut] at h
  exact h

/-- A lock that was passed has its end cut off if it reaches into the range. -/
theorem Pass.Done.passed_left {p : Ptr} {rest new : List Ptr} {vals : List (FileLock Owner)}
    {r : Code × Locks Inode Owner} (hnone : t.left = none) (hpb : p ∉ b)
    (hlt : (t.s.heap p).start < t.req.start)
    (h : ((t.touch p).nextLock p).Done i skipped (b ++ [p]) rest new vals r) :
    t.Done i skipped b (p :: rest) new ({ t.s.heap p with stop := t.req.start - 1 } :: vals) r := by
  have hleft : ((t.touch p).nextLock p).left = some p := if_pos hlt
  have hself : cutAt (some p) ((t.touch p).nextLock p).req.start
      ((t.touch p).nextLock p).s.heap p = { t.s.heap p with stop := t.req.start - 1 } := if_pos rfl
  have hcut : b.map (cutAt (some p) ((t.touch p).nextLock p).req.start
      ((t.touch p).nextLock p).s.heap) = b.map t.s.heap := by
    refine map_cutAt ?_
    rintro l ⟨⟩
    exact hpb
  have hkeep : b.map (cutAt none t.req.start t.s.heap) = b.map t.s.heap :=
    map_cutAt (by rintro l ⟨⟩)
  rw [Pass.Done, append_passed, vals_passed, hleft, hself, hcut] at h
  rw [Pass.Done, hnone, hkeep]
  exact h

/-- The lock `p` becomes the new lock. -/
theorem run_adopt {t' : Pass Inode Owner} {p : Ptr} (hadded : t'.added = true)
    (hright : t'.right = none) (hbefore : t'.before = b ++ [p]) (hreq : t'.request = p)
    (hleft' : t'.left = t.left) (hleft : ∀ l, t.left = some l → l ∈ b)
    (hnodup : (skipped ++ b ++ p :: (ps ++ post)).Nodup)
    (hq : t.request ∉ skipped ++ b ++ p :: (ps ++ post)) (hp : Held o (t'.s.heap p))
    (hg : Group o (ps.map t.s.heap))
    (hle : ∀ v ∈ ps.map t.s.heap, (t'.s.heap p).start ≤ v.start)
    (hpost : ∀ x ∈ post.head?, (t.s.heap x).owner ≠ o)
    (hflock : t'.s.iFlock = t.s.iFlock)
    (hheap : ∀ x, x ≠ p → x ≠ t.request → t'.s.heap x = t.s.heap x)
    (hstart : t.left ≠ none → (t'.s.heap p).start = t.req.start) :
    t.Done i skipped b (p :: (ps ++ post)) (newFl.toList ++ newFl2.toList)
      (absorb (t'.s.heap p) (ps.map t.s.heap) ++ post.map t.s.heap)
      (run i skipped flags newFl newFl2 t' (ps ++ post)) := by
  have hpall : p ∈ skipped ++ b ++ p :: (ps ++ post) := List.mem_append_right _ List.mem_cons_self
  obtain ⟨hpno, _⟩ := List.nodup_cons.mp (List.nodup_middle.mp hnodup)
  have hrest : ∀ x ∈ skipped ++ b ++ (ps ++ post), t'.s.heap x = t.s.heap x := by
    intro x hx
    refine hheap x (fun h => hpno (h ▸ hx)) ?_
    rintro rfl
    refine hq ?_
    rcases List.mem_append.mp hx with hx | hx
    · exact List.mem_append_left _ hx
    · exact List.mem_append_right _ (List.mem_cons_of_mem _ hx)
  obtain ⟨hfirst, hlast⟩ := List.forall_mem_append.mp hrest
  obtain ⟨hps, hposts⟩ := List.forall_mem_append.mp hlast
  have hvals : ps.map t'.s.heap = ps.map t.s.heap := map_heap_congr hps
  obtain ⟨hcode, hout⟩ := @run_absorb _ _ _ _ i skipped flags newFl newFl2 o t' b ps p post hadded
    hright hbefore hreq (by rw [hleft']; exact hleft) hnodup hp (by rw [hvals]; exact hg)
    (by rw [hvals]; exact hle)
    (by
      intro x hx
      rw [hposts x (List.mem_of_mem_head? hx)]
      exact hpost x hx)
  refine ⟨hcode, ?_⟩
  have hcut : b.map (cutAt t.left t.req.start t.s.heap) =
      b.map (cutAt t.left (t'.s.heap p).start t.s.heap) := by
    cases hl : t.left with
    | none => rfl
    | some l => rw [hstart (by rw [hl]; exact Option.some_ne_none l)]
  have hcongr := @vals_congr _ skipped b t.s.heap t'.s.heap post t.left (t'.s.heap p).start
    (absorb (t'.s.heap p) (ps.map t.s.heap))
    (List.forall_mem_append.mpr ⟨hfirst, hposts⟩)
  rw [hvals, hleft', hcongr, ← hcut] at hout
  refine hout.mono hflock ?_ (.inl (.inl hpall)) ?_
  · rintro x (hx | hx)
    · exact .inl hx
    · cases hx
  · intro x hx hxq
    exact hheap x (fun h => hx (.inl (h ▸ hpall))) hxq

/-- The call locks the range of the request. -/
theorem run_place (hadded : t.added = false) (hright : t.right = none) (hbefore : t.before = b)
    (hleft : ∀ l, t.left = some l → l ∈ b) (hnodup : (skipped ++ b ++ (ps ++ post)).Nodup)
    (hq : t.request ∉ skipped ++ b ++ (ps ++ post)) (hQ : Held o t.req)
    (hg : Group o (ps.map t.s.heap))
    (hk : t.left ≠ none → ∀ v ∈ ps.map t.s.heap, t.req.start ≤ v.start)
    (hpost : ∀ p ∈ post.head?, (t.s.heap p).owner ≠ o)
    (hfresh : Fresh newFl newFl2 t.request (skipped ++ b ++ (ps ++ post))) :
    t.Settles i skipped b (ps ++ post) (newFl.toList ++ newFl2.toList)
      (place t.req (ps.map t.s.heap) ++ post.map t.s.heap)
      (run i skipped flags newFl newFl2 t (ps ++ post)) := by
  induction ps generalizing t b with
  | nil =>
    have hstop : scan t post = (t, post) := by
      refine scan_post ?_
      intro p hp
      rw [hQ.owner]
      exact hpost p hp
    rw [List.nil_append] at hnodup hq hfresh ⊢
    rw [run_stop hstop]
    exact finish_insert hadded hright hQ.type hbefore hleft hnodup hfresh
  | cons p ps ih =>
    obtain ⟨hv, hlater, hvs⟩ := group_cons.mp hg
    have hvle := hv.le
    have hvpos := hv.nonneg
    have hvmax := hv.stop_le
    have hqle := hQ.le
    have hqpos := hQ.nonneg
    have hqmax := hQ.stop_le
    have howner := sameOwner_of_held hQ.owner hv.owner
    rw [List.cons_append] at hnodup hq hfresh ⊢
    have hpall : p ∈ skipped ++ b ++ p :: (ps ++ post) :=
      List.mem_append_right _ List.mem_cons_self
    obtain ⟨hpno, hnodup'⟩ := List.nodup_cons.mp (List.nodup_middle.mp hnodup)
    have hqp : t.request ≠ p := fun h => hq (h ▸ hpall)
    have hleftp : t.left ≠ some p := fun h =>
      hpno (List.mem_append_left _ (List.mem_append_right _ (hleft p h)))
    have hpb : p ∉ skipped ++ b := fun h => hpno (List.mem_append_left _ h)
    have hskip : scan t (p :: (ps ++ post)) = scan (t.nextLock p) (ps ++ post) →
        t.Settles i skipped b (p :: (ps ++ post)) (newFl.toList ++ newFl2.toList)
          (t.s.heap p :: place t.req (ps.map t.s.heap) ++ post.map t.s.heap)
          (run i skipped flags newFl newFl2 t (p :: (ps ++ post))) := by
      intro hscan
      have hnext := @ih (t.nextLock p) (b ++ [p]) hadded hright
        (by rw [Pass.nextLock, hbefore]) (fun l hl => List.mem_append_left _ (hleft l hl))
        (by rwa [append_passed]) (by rwa [append_passed]) hQ hvs
        (fun hl => (List.forall_mem_cons.mp (hk hl)).2) hpost (by rwa [append_passed])
      rw [run_of_scan hscan]
      refine hnext.imp (fun hrefused => ?_) (Pass.Done.passed hleftp)
      rwa [append_passed] at hrefused
    rw [List.map_cons, place]
    by_cases htype : t.req.type = (t.s.heap p).type
    · rw [if_pos htype]
      by_cases hbelow : (t.s.heap p).stop < t.req.start - 1
      · rw [if_pos hbelow]
        exact hskip (by rw [scan, if_neg howner, if_pos htype, if_pos hbelow])
      rw [if_neg hbelow]
      by_cases hgap : (t.s.heap p).start - 1 > t.req.stop
      · have hstop : scan t (p :: (ps ++ post)) = (t, p :: (ps ++ post)) := by
          rw [scan, if_neg howner, if_pos htype, if_neg hbelow, if_pos hgap]
        rw [if_pos hgap, run_stop hstop]
        have hdone := @finish_insert _ _ _ _ i skipped flags newFl newFl2 t b
          (p :: (ps ++ post)) hadded hright hQ.type hbefore hleft hnodup hfresh
        rw [List.map_cons, List.map_append] at hdone
        exact hdone
      have hnext : scan t (p :: (ps ++ post)) =
          scan (((t.merge p).adopt p).nextLock p) (ps ++ post) := by
        rw [scan, if_neg howner, if_pos htype, if_neg hbelow, if_neg hgap,
          if_neg (by rw [hadded]; exact Bool.false_ne_true)]
      have hself := merge_lock hqp
      have hadopt := @run_adopt _ _ _ _ i skipped flags newFl newFl2 o t b ps post
        (((t.merge p).adopt p).nextLock p) p rfl hright
        (by show t.before ++ [p] = _; rw [hbefore]) rfl rfl hleft hnodup hq
        (by
          show Held o ((t.merge p).s.heap p)
          rw [hself]
          exact hv.range (by omega) (by omega) (by omega))
        hvs
        (by
          show ∀ v ∈ ps.map t.s.heap, ((t.merge p).s.heap p).start ≤ v.start
          rw [hself]
          intro w hw
          have := (hlater w hw).1
          show min (t.s.heap p).start t.req.start ≤ w.start
          omega)
        hpost rfl (fun x hxp hxq => merge_of_ne hxp hxq)
        (by
          intro hl
          have := hk hl (t.s.heap p) List.mem_cons_self
          show ((t.merge p).s.heap p).start = _
          rw [hself]
          show min (t.s.heap p).start t.req.start = _
          omega)
      rw [if_neg hgap, run_of_scan hnext, ← hself]
      exact .inr hadopt
    rw [if_neg htype]
    by_cases hbelow : (t.s.heap p).stop < t.req.start
    · rw [if_pos hbelow]
      exact hskip (by rw [scan, if_neg howner, if_neg htype, if_pos hbelow])
    rw [if_neg hbelow]
    by_cases hafter : (t.s.heap p).start > t.req.stop
    · have hstop : scan t (p :: (ps ++ post)) = (t, p :: (ps ++ post)) := by
        rw [scan, if_neg howner, if_neg htype, if_neg hbelow, if_pos hafter]
      rw [if_pos hafter, run_stop hstop]
      have hdone := @finish_insert _ _ _ _ i skipped flags newFl newFl2 t b
        (p :: (ps ++ post)) hadded hright hQ.type hbefore hleft hnodup hfresh
      rw [List.map_cons, List.map_append] at hdone
      exact hdone
    rw [if_neg hafter]
    have hadded' : (t.touch p).added = false := by
      rw [Pass.touch, hadded, decide_eq_false hQ.type]
      rfl
    by_cases hover : (t.s.heap p).stop > t.req.stop
    · have hstop : scan t (p :: (ps ++ post)) =
          ((t.touch p).setRight p, p :: (ps ++ post)) := by
        rw [scan, if_neg howner, if_neg htype, if_neg hbelow, if_neg hafter, if_pos hover]
      rw [if_pos hover, run_stop hstop, headPart]
      by_cases hhead : (t.s.heap p).start < t.req.start
      · have hnone : t.left = none := by
          by_contra hl
          have := hk hl (t.s.heap p) List.mem_cons_self
          omega
        have hdone := @finish_insertSplit _ _ _ _ i skipped flags newFl newFl2
          ((t.touch p).setRight p) b (ps ++ post) p hadded' rfl (if_pos hhead) hQ.type
          hbefore hnodup hq hfresh
        rw [if_pos hhead, Pass.Settles, Pass.Done, hnone]
        rw [List.map_append] at hdone
        exact hdone
      have hleft' : (t.touch p).left = t.left := if_neg hhead
      have hdone := @finish_insertRight _ _ _ _ i skipped flags newFl newFl2
        ((t.touch p).setRight p) b (ps ++ post) p hadded' rfl
        (by
          show (t.touch p).left ≠ some p
          rw [hleft']
          exact hleftp)
        hQ.type hbefore
        (by
          show ∀ l, (t.touch p).left = some l → l ∈ b
          rw [hleft']
          exact hleft)
        hnodup hq hfresh
      have hleft'' : ((t.touch p).setRight p).left = t.left := hleft'
      rw [if_neg hhead]
      rw [Pass.Settles, Pass.Done, List.map_append, hleft''] at hdone
      exact hdone
    rw [if_neg hover]
    by_cases hin : (t.s.heap p).start ≥ t.req.start
    · have hleft' : (t.touch p).left = t.left := if_neg (by omega)
      have hnext : scan t (p :: (ps ++ post)) =
          scan ((((t.touch p).replace p).adopt p).nextLock p) (ps ++ post) := by
        rw [scan, if_neg howner, if_neg htype, if_neg hbelow, if_neg hafter,
          if_neg hover, if_pos hin, if_neg (by rw [hadded']; exact Bool.false_ne_true)]
      have hself : ((t.touch p).replace p).s.heap p =
          { t.s.heap p with
            start := t.req.start, stop := t.req.stop, type := t.req.type } :=
        replace_lock
      have hadopt := @run_adopt _ _ _ _ i skipped flags newFl newFl2 o t b ps post
        ((((t.touch p).replace p).adopt p).nextLock p) p rfl hright
        (by show t.before ++ [p] = _; rw [hbefore]) rfl hleft' hleft hnodup hq
        (by
          show Held o (((t.touch p).replace p).s.heap p)
          rw [hself]
          exact ⟨hv.posix, hv.owner, hQ.type, hqpos, hqle, hqmax⟩)
        hvs
        (by
          show ∀ v ∈ ps.map t.s.heap,
            (((t.touch p).replace p).s.heap p).start ≤ v.start
          rw [hself]
          intro w hw
          have := (hlater w hw).1
          show t.req.start ≤ w.start
          omega)
        hpost rfl (fun x hxp _ => @replace_of_ne _ _ (t.touch p) p x hxp)
        (by
          intro _
          show (((t.touch p).replace p).s.heap p).start = _
          rw [hself])
      rw [if_pos hin, run_of_scan hnext, ← hself]
      exact .inr hadopt
    have hnone : t.left = none := by
      by_contra hl
      exact hin (hk hl (t.s.heap p) List.mem_cons_self)
    have hleft' : (t.touch p).left = some p := if_pos (by omega)
    have hnext : scan t (p :: (ps ++ post)) =
        scan ((t.touch p).nextLock p) (ps ++ post) := by
      rw [scan, if_neg howner, if_neg htype, if_neg hbelow, if_neg hafter,
        if_neg hover, if_neg hin]
    have hrec := @ih ((t.touch p).nextLock p) (b ++ [p]) hadded' hright
      (by show t.before ++ [p] = _; rw [hbefore])
      (by
        intro l hl
        cases hleft'.symm.trans hl
        exact List.mem_append_right _ List.mem_cons_self)
      (by rwa [append_passed]) (by rwa [append_passed]) hQ hvs
      (by
        intro _ w hw
        have := (hlater w hw).1
        show t.req.start ≤ w.start
        omega)
      hpost (by rwa [append_passed])
    rw [if_neg hin, run_of_scan hnext]
    refine hrec.imp (fun hrefused => ?_)
      (Pass.Done.passed_left hnone (fun h => hpb (List.mem_append_right _ h)) (by omega))
    rwa [append_passed] at hrefused

/-- A call that unlocks has come to locks behind the range. -/
theorem finish_remove {rest : List Ptr} (htype : t.req.type = .unlck) (hright : t.right = none)
    (hbefore : t.before = b) (hleft : ∀ l, t.left = some l → l ∈ b)
    (hla : t.left ≠ none → t.added = true) (hnodup : (skipped ++ b ++ rest).Nodup) :
    (t.added = false ∧
        Refused i t.s (skipped ++ b ++ rest) (finish i skipped flags newFl newFl2 t rest)) ∨
      t.Done i skipped b rest (newFl.toList ++ newFl2.toList) (rest.map t.s.heap)
        (finish i skipped flags newFl newFl2 t rest) := by
  have hwiden : ∀ x, x ∈ skipped ++ b ++ rest ∨ x ∈ [] →
      x ∈ skipped ++ b ++ rest ∨ x ∈ newFl.toList ++ newFl2.toList := by
    rintro x (hx | hx)
    · exact .inl hx
    · cases hx
  by_cases hadded : t.added = true
  · rw [finish_added hadded hright]
    exact .inr ⟨rfl, (trim_done hbefore hleft hnodup).mono rfl hwiden (.inr rfl)
      fun _ _ _ => rfl⟩
  have hnone : t.left = none := by
    by_contra hl
    exact hadded (hla hl)
  rw [finish.eq_def, if_neg (by rw [hright]; rintro ⟨⟨⟩, _⟩), if_neg hadded,
    if_pos htype]
  by_cases hexist : flags.exist = true
  · rw [if_pos hexist]
    refine .inl ⟨Bool.eq_false_iff.mpr hadded, .inr rfl, ?_⟩
    rw [close, List.append_nil, hbefore]
  · rw [if_neg hexist]
    have hdone := @trim_done _ _ _ _ i skipped t b rest .ok hbefore hleft hnodup
    have htrim : trimLeft t.s t.request t.left = t.s := by
      rw [hnone]
      rfl
    rw [htrim] at hdone
    exact .inr ⟨rfl, hdone.mono rfl hwiden (.inr rfl) fun _ _ _ => rfl⟩

/-- A call that unlocks has come to a lock `p` that reaches beyond the range. -/
theorem finish_removeRight {rest : List Ptr} {p : Ptr} (hadded : t.added = true)
    (hright : t.right = some p) (hne : t.left ≠ some p) (hbefore : t.before = b)
    (hleft : ∀ l, t.left = some l → l ∈ b) (hnodup : (skipped ++ b ++ p :: rest).Nodup)
    (hqp : t.request ≠ p) :
    t.Done i skipped b (p :: rest) (newFl.toList ++ newFl2.toList)
      ({ t.s.heap p with start := t.req.stop + 1 } :: rest.map t.s.heap)
      (finish i skipped flags newFl newFl2 t (p :: rest)) := by
  rw [finish_added_right hadded hright hne]
  refine ⟨rfl, (trim_doneRight hbefore hleft hnodup hqp).mono rfl ?_ (.inr rfl) fun _ _ _ => rfl⟩
  rintro x (hx | hx)
  · exact .inl hx
  · cases hx

/-- A call that unlocks breaks the lock `p` in two. -/
theorem finish_removeSplit {rest : List Ptr} {p : Ptr} (hadded : t.added = true)
    (hright : t.right = some p) (hleft : t.left = some p) (hbefore : t.before = b)
    (hnodup : (skipped ++ b ++ p :: rest).Nodup) (hq : t.request ∉ skipped ++ b ++ p :: rest)
    (hfresh : Fresh newFl newFl2 t.request (skipped ++ b ++ p :: rest)) :
    Refused i t.s (skipped ++ b ++ p :: rest)
        (finish i skipped flags newFl newFl2 t (p :: rest)) ∨
      (finish i skipped flags newFl newFl2 t (p :: rest)).1 = .ok ∧
        Outcome i t.s (skipped ++ b ++ p :: rest) (newFl.toList ++ newFl2.toList) t.request
          (skipped.map t.s.heap ++ b.map t.s.heap ++
            ({ t.s.heap p with stop := t.req.start - 1 } ::
              { t.s.heap p with start := t.req.stop + 1 } :: rest.map t.s.heap))
          (finish i skipped flags newFl newFl2 t (p :: rest)).2 := by
  cases newFl2 with
  | none =>
    rw [finish.eq_def, if_pos ⟨by rw [hright]; rfl, hleft.trans hright.symm, rfl⟩]
    exact .inl (refused_enolck hbefore)
  | some n2 =>
    rw [finish.eq_def, if_neg (by rintro ⟨_, _, ⟨⟩⟩), if_pos hadded]
    obtain ⟨hn2, hnq2⟩ := hfresh.second n2 rfl
    obtain ⟨s, before, q, added, left, right⟩ := t
    cases hbefore
    cases hright
    cases hleft
    refine .inr ⟨rfl, ?_⟩
    dsimp only [trim]
    rw [if_pos rfl]
    have hdone := @split_done _ _ _ _ i skipped before rest q s added (some p) (some p) p n2 []
      (by rw [List.append_nil]; exact hnodup) (by rw [List.append_nil]; exact hn2) hnq2
      (by rw [List.append_nil]; exact hq) s
    rw [List.append_nil] at hdone
    exact hdone.mono rfl (fun x hx => hx.imp_right (List.mem_append_right _)) (.inr rfl)
      fun _ _ _ => rfl

/-- The call unlocks the range of the request. -/
theorem run_remove (htype : t.req.type = .unlck) (howner : t.req.owner = o)
    (hright : t.right = none) (hbefore : t.before = b)
    (hleft : ∀ l, t.left = some l → l ∈ b) (hla : t.left ≠ none → t.added = true)
    (hnodup : (skipped ++ b ++ (ps ++ post)).Nodup)
    (hq : t.request ∉ skipped ++ b ++ (ps ++ post)) (hg : Group o (ps.map t.s.heap))
    (hk : t.added = true → ∀ v ∈ ps.map t.s.heap, t.req.start ≤ v.start)
    (hpost : ∀ p ∈ post.head?, (t.s.heap p).owner ≠ o)
    (hfresh : Fresh newFl newFl2 t.request (skipped ++ b ++ (ps ++ post))) :
    (t.added = false ∧ Refused i t.s (skipped ++ b ++ (ps ++ post))
        (run i skipped flags newFl newFl2 t (ps ++ post))) ∨
      t.Done i skipped b (ps ++ post) (newFl.toList ++ newFl2.toList)
        (remove t.req.start t.req.stop (ps.map t.s.heap) ++ post.map t.s.heap)
        (run i skipped flags newFl newFl2 t (ps ++ post)) := by
  induction ps generalizing t b with
  | nil =>
    have hstop : scan t post = (t, post) := by
      refine scan_post ?_
      intro p hp
      rw [howner]
      exact hpost p hp
    rw [List.nil_append] at hnodup hq hfresh ⊢
    rw [run_stop hstop]
    exact finish_remove htype hright hbefore hleft hla hnodup
  | cons p ps ih =>
    obtain ⟨hv, hlater, hvs⟩ := group_cons.mp hg
    have hvle := hv.le
    have hsame := sameOwner_of_held howner hv.owner
    have hne : t.req.type ≠ (t.s.heap p).type := fun h => hv.type (h.symm.trans htype)
    rw [List.cons_append] at hnodup hq hfresh ⊢
    have hpall : p ∈ skipped ++ b ++ p :: (ps ++ post) :=
      List.mem_append_right _ List.mem_cons_self
    obtain ⟨hpno, hnodup'⟩ := List.nodup_cons.mp (List.nodup_middle.mp hnodup)
    have hqp : t.request ≠ p := fun h => hq (h ▸ hpall)
    have hleftp : t.left ≠ some p := fun h =>
      hpno (List.mem_append_left _ (List.mem_append_right _ (hleft p h)))
    have hpb : p ∉ skipped ++ b := fun h => hpno (List.mem_append_left _ h)
    rw [List.map_cons, remove]
    by_cases hbelow : (t.s.heap p).stop < t.req.start
    · have hnext : scan t (p :: (ps ++ post)) = scan (t.nextLock p) (ps ++ post) := by
        rw [scan, if_neg hsame, if_neg hne, if_pos hbelow]
      have hrec := @ih (t.nextLock p) (b ++ [p]) htype howner hright
        (by rw [Pass.nextLock, hbefore]) (fun l hl => List.mem_append_left _ (hleft l hl)) hla
        (by rwa [append_passed]) (by rwa [append_passed]) hvs
        (fun hl => (List.forall_mem_cons.mp (hk hl)).2) hpost (by rwa [append_passed])
      rw [if_pos hbelow, run_of_scan hnext]
      rw [append_passed] at hrec
      exact hrec.imp_right (Pass.Done.passed hleftp)
    rw [if_neg hbelow]
    by_cases hafter : (t.s.heap p).start > t.req.stop
    · have hstop : scan t (p :: (ps ++ post)) = (t, p :: (ps ++ post)) := by
        rw [scan, if_neg hsame, if_neg hne, if_neg hbelow, if_pos hafter]
      rw [if_pos hafter, run_stop hstop]
      have hdone := @finish_remove _ _ _ _ i skipped flags newFl newFl2 t b
        (p :: (ps ++ post)) htype hright hbefore hleft hla hnodup
      rw [List.map_cons, List.map_append] at hdone
      exact hdone
    rw [if_neg hafter]
    have hadded' : (t.touch p).added = true := by
      rw [Pass.touch, decide_eq_true htype]
      exact Bool.or_true _
    by_cases hover : (t.s.heap p).stop > t.req.stop
    · have hstop : scan t (p :: (ps ++ post)) =
          ((t.touch p).setRight p, p :: (ps ++ post)) := by
        rw [scan, if_neg hsame, if_neg hne, if_neg hbelow, if_neg hafter, if_pos hover]
      rw [if_pos hover, run_stop hstop, headPart]
      by_cases hhead : (t.s.heap p).start < t.req.start
      · have hfalse : t.added = false := by
          refine Bool.eq_false_iff.mpr ?_
          intro ha
          have := hk ha (t.s.heap p) List.mem_cons_self
          omega
        have hnone : t.left = none := by
          by_contra hl
          have := hla hl
          rw [hfalse] at this
          cases this
        have hdone := @finish_removeSplit _ _ _ _ i skipped flags newFl newFl2
          ((t.touch p).setRight p) b (ps ++ post) p hadded' rfl (if_pos hhead) hbefore hnodup
          hq hfresh
        rw [if_pos hhead, Pass.Done, hnone]
        rw [List.map_append] at hdone
        exact hdone.imp_left fun h => ⟨hfalse, h⟩
      · have hleft' : ((t.touch p).setRight p).left = t.left := if_neg hhead
        have hdone := @finish_removeRight _ _ _ _ i skipped flags newFl newFl2
          ((t.touch p).setRight p) b (ps ++ post) p hadded' rfl
          (by rw [hleft']; exact hleftp) hbefore (by rw [hleft']; exact hleft) hnodup hqp
        rw [if_neg hhead]
        rw [Pass.Done, List.map_append, hleft'] at hdone
        exact .inr hdone
    rw [if_neg hover]
    by_cases hin : (t.s.heap p).start ≥ t.req.start
    · have hleft' : ((t.touch p).locksDeleteLock p).left = t.left := if_neg (by omega)
      have hnext : scan t (p :: (ps ++ post)) =
          scan ((t.touch p).locksDeleteLock p) (ps ++ post) := by
        rw [scan, if_neg hsame, if_neg hne, if_neg hbelow, if_neg hafter, if_neg hover,
          if_pos hin, if_pos hadded']
      have hmem : ∀ x ∈ skipped ++ b ++ (ps ++ post),
          x ∈ skipped ++ b ++ p :: (ps ++ post) := by
        intro x hx
        rcases List.mem_append.mp hx with hx | hx
        · exact List.mem_append_left _ hx
        · exact List.mem_append_right _ (List.mem_cons_of_mem _ hx)
      have hrec := @ih ((t.touch p).locksDeleteLock p) b htype howner hright hbefore
        (by rw [hleft']; exact hleft) (fun _ => hadded') hnodup'
        (fun h => hq (hmem _ h)) hvs
        (by
          intro _ w hw
          have := (hlater w hw).1
          show t.req.start ≤ w.start
          omega)
        hpost
        ⟨fun n hn => (hfresh.first n hn).imp_left fun h h' => h (hmem n h'),
          fun n hn => (hfresh.second n hn).imp_left fun h h' => h (hmem n h'), hfresh.ne⟩
      rw [if_pos hin, run_of_scan hnext]
      rcases hrec with ⟨hfalse, _⟩ | ⟨hcode, hout⟩
      · cases hadded'.symm.trans hfalse
      · rw [hleft'] at hout
        exact .inr ⟨hcode, hout.mono rfl (fun x hx => hx.imp_left (hmem x)) (.inr rfl)
          fun _ _ _ => rfl⟩
    have hfalse : t.added = false := by
      refine Bool.eq_false_iff.mpr ?_
      intro ha
      exact hin (hk ha (t.s.heap p) List.mem_cons_self)
    have hnone : t.left = none := by
      by_contra hl
      have := hla hl
      rw [hfalse] at this
      cases this
    have hleft' : ((t.touch p).nextLock p).left = some p := if_pos (by omega)
    have hnext : scan t (p :: (ps ++ post)) =
        scan ((t.touch p).nextLock p) (ps ++ post) := by
      rw [scan, if_neg hsame, if_neg hne, if_neg hbelow, if_neg hafter, if_neg hover,
        if_neg hin]
    have hrec := @ih ((t.touch p).nextLock p) (b ++ [p]) htype howner hright
      (by show t.before ++ [p] = _; rw [hbefore])
      (by
        intro l hl
        cases hleft'.symm.trans hl
        exact List.mem_append_right _ List.mem_cons_self)
      (fun _ => hadded') (by rwa [append_passed]) (by rwa [append_passed]) hvs
      (by
        intro _ w hw
        have := (hlater w hw).1
        show t.req.start ≤ w.start
        omega)
      hpost (by rwa [append_passed])
    rw [if_neg hin, run_of_scan hnext]
    rcases hrec with ⟨hfalse', _⟩ | hdone
    · cases hadded'.symm.trans hfalse'
    · exact .inr (hdone.passed_left hnone (fun h => hpb (List.mem_append_right _ h)) (by omega))

end AndroidKernel.Locks
