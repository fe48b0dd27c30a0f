import Mathlib.Data.List.Basic

/-!
# Reserving a region around conflicts

Read `reserve_region_with_split_iff` first. Inside the root every conflict overlaps the range, so
the pieces that are left are shorter. When the range sticks out of the root the conflict is
the root itself, and the call for the part outside is made again and again.
-/

/-!
## Regions with flags

`__request_resource` and `__reserve_region_with_split` on resources with the names and flags that
the second one sets and reads. The range that is asked for may lie anywhere. Addresses do not
wrap: the start of a conflict is lowered only above the start of the range, and its end is raised
only below the end of the range.
-/

namespace AndroidKernel.Resource

/-- `IORESOURCE_BUSY`. -/
def ioresourceBusy : Nat := 0x80000000

/-- `struct resource`: the `child` pointer with the `sibling` pointers from it is `children`, and
`stop` is the source's `end`. -/
inductive Region where
  | mk (name : String) (start stop flags : Nat) (children : List Region)

namespace Region

def start : Region → Nat
  | mk _ start _ _ _ => start

def stop : Region → Nat
  | mk _ _ stop _ _ => stop

def flags : Region → Nat
  | mk _ _ _ flags _ => flags

def children : Region → List Region
  | mk _ _ _ _ children => children

/-- The resource with other children. -/
def withChildren : Region → List Region → Region
  | mk name start stop flags _, children => mk name start stop flags children

/-- `flags & IORESOURCE_BUSY`. -/
def isBusy (r : Region) : Bool :=
  r.flags &&& ioresourceBusy != 0

end Region

/-- What `__request_resource` does: it links the new resource, or it returns the root itself, or a
child of it with the siblings before and after that child. -/
inductive Reply where
  | linked (root : Region)
  | root
  | child (before : List Region) (other : Region) (after : List Region)

/-- The loop of `__request_resource`, with the siblings that it has passed. -/
def requestLoop (root new : Region) : List Region → List Region → Reply
  | before, [] => .linked (root.withChildren (before ++ [new]))
  | before, tmp :: rest =>
    if new.stop < tmp.start then .linked (root.withChildren (before ++ new :: tmp :: rest))
    else if tmp.stop < new.start then requestLoop root new (before ++ [tmp]) rest
    else .child before tmp rest

/-- `__request_resource`. -/
def requestRegion (root new : Region) : Reply :=
  if new.stop < new.start then .root
  else if new.start < root.start then .root
  else if root.stop < new.stop then .root
  else requestLoop root new [] root.children

/-- How the loop of `__reserve_region_with_split` ends: with the new resource in the tree below
`parent`, or with a conflict. -/
inductive Placed where
  | linked (parent : Region)
  | conflict (other : Region)

/-- The loop of `__reserve_region_with_split` from `parent` on, at most `fuel` times. -/
def place (res : Region) : Nat → Region → Option Placed
  | 0, _ => none
  | fuel + 1, parent =>
    match requestRegion parent res with
    | .linked parent => some (.linked parent)
    | .root => some (.conflict parent)
    | .child before other after =>
      if other.isBusy then some (.conflict other)
      else
        match place res fuel other with
        | none => none
        | some (.linked other) =>
          some (.linked (parent.withChildren (before ++ other :: after)))
        | some (.conflict conflict) => some (.conflict conflict)

/-- `__reserve_region_with_split`, with calls that are nested at most `fuel` deep. There is memory
for each new resource. -/
def reserveRegionWithSplit (name : String) : Nat → Region → Nat → Nat → Option Region
  | 0, _, _, _ => none
  | fuel + 1, root, start, stop =>
    match place (.mk name start stop ioresourceBusy []) fuel root with
    | none => none
    | some (.linked root) => some root
    | some (.conflict conflict) =>
      -- conflict covered whole area
      if conflict.start ≤ start ∧ stop ≤ conflict.stop then some root
      else
        (if start < conflict.start then
          reserveRegionWithSplit name fuel root start (conflict.start - 1)
        else some root).bind fun root =>
        (if !conflict.isBusy ∧ max conflict.start start < min conflict.stop stop then
          reserveRegionWithSplit name fuel root (max conflict.start start)
            (min conflict.stop stop)
        else some root).bind fun root =>
        if conflict.stop < stop then
          reserveRegionWithSplit name fuel root (conflict.stop + 1) stop
        else some root

/-- A well-formed tree: every resource is a range, its children lie inside it, and they are in
order without an overlap. -/
inductive Region.WellFormed : Region → Prop where
  | mk {name : String} {start stop flags : Nat} {children : List Region} (hle : start ≤ stop)
      (hinside : ∀ child ∈ children, start ≤ child.start ∧ child.stop ≤ stop)
      (hordered : children.Pairwise fun first second => first.stop < second.start)
      (hchildren : ∀ child ∈ children, child.WellFormed) :
      WellFormed (.mk name start stop flags children)

/-- One resource without children is linked somewhere in a tree, and nothing else changes. -/
inductive Inserted (new : Region) : Region → Region → Prop where
  | here {name : String} {start stop flags : Nat} (before after : List Region) :
      Inserted new (.mk name start stop flags (before ++ after))
        (.mk name start stop flags (before ++ new :: after))
  | deeper {name : String} {start stop flags : Nat} {child child' : Region}
      (before after : List Region) (hchild : Inserted new child child') :
      Inserted new (.mk name start stop flags (before ++ child :: after))
        (.mk name start stop flags (before ++ child' :: after))

/-- Several resources are linked into a tree, one after the other. -/
inductive InsertedAll : List Region → Region → Region → Prop where
  | nil (root : Region) : InsertedAll [] root root
  | cons {new : Region} {news : List Region} {root middle root' : Region}
      (hfirst : Inserted new root middle) (hrest : InsertedAll news middle root') :
      InsertedAll (new :: news) root root'

/-- The address lies in the range of the resource. -/
def Region.Covers (r : Region) (address : Nat) : Prop :=
  r.start ≤ address ∧ address ≤ r.stop

variable {name : String} {root root' res c c' : Region} {news more : List Region}
  {start stop address fuel fuel' : Nat}

/-! ## Trees -/

theorem Region.WellFormed.le (h : root.WellFormed) : root.start ≤ root.stop := by
  cases h with
  | mk hle _ _ _ => exact hle

theorem Region.WellFormed.inside (h : root.WellFormed) (hchild : c ∈ root.children) :
    root.start ≤ c.start ∧ c.stop ≤ root.stop := by
  cases h with
  | mk _ hinside _ _ => exact hinside c hchild

theorem Inserted.range (h : Inserted res root root') :
    root'.start = root.start ∧ root'.stop = root.stop := by
  cases h with
  | here before after => exact ⟨rfl, rfl⟩
  | deeper before after hchild => exact ⟨rfl, rfl⟩

/-- Each child afterwards is the new resource or has the range of a child before. -/
theorem Inserted.child (h : Inserted res root root') (hc : c ∈ root'.children) :
    c = res ∨ ∃ old ∈ root.children, old.start = c.start ∧ old.stop = c.stop := by
  cases h with
  | here before after =>
    rcases List.mem_append.mp hc with hc | hc
    · exact .inr ⟨c, List.mem_append_left _ hc, rfl, rfl⟩
    · rcases List.mem_cons.mp hc with rfl | hc
      · exact .inl rfl
      · exact .inr ⟨c, List.mem_append_right _ hc, rfl, rfl⟩
  | @deeper _ _ _ _ child child' before after hchild =>
    refine .inr ?_
    rcases List.mem_append.mp hc with hc | hc
    · exact ⟨c, List.mem_append_left _ hc, rfl, rfl⟩
    · rcases List.mem_cons.mp hc with rfl | hc
      · exact ⟨child, List.mem_append_right _ List.mem_cons_self, hchild.range.1.symm,
          hchild.range.2.symm⟩
      · exact ⟨c, List.mem_append_right _ (List.mem_cons_of_mem _ hc), rfl, rfl⟩

theorem InsertedAll.append {middle : Region} (hfirst : InsertedAll news root middle)
    (hrest : InsertedAll more middle root') : InsertedAll (news ++ more) root root' := by
  induction hfirst with
  | nil root => exact hrest
  | cons hnew _ ih => exact .cons hnew (ih hrest)

theorem InsertedAll.range (h : InsertedAll news root root') :
    root'.start = root.start ∧ root'.stop = root.stop := by
  induction h with
  | nil root => exact ⟨rfl, rfl⟩
  | cons hfirst _ ih => exact ⟨ih.1.trans hfirst.range.1, ih.2.trans hfirst.range.2⟩

theorem InsertedAll.child (h : InsertedAll news root root') (hc : c ∈ root'.children) :
    (∃ new ∈ news, new.start = c.start ∧ new.stop = c.stop) ∨
      ∃ old ∈ root.children, old.start = c.start ∧ old.stop = c.stop := by
  induction h with
  | nil root => exact .inr ⟨c, hc, rfl, rfl⟩
  | @cons new news root middle root' hfirst _ ih =>
    rcases ih hc with ⟨r, hr, hrange⟩ | ⟨r, hr, hstart, hstop⟩
    · exact .inl ⟨r, List.mem_cons_of_mem _ hr, hrange⟩
    · rcases hfirst.child hr with rfl | ⟨old, hold, hs, he⟩
      · exact .inl ⟨r, List.mem_cons_self, hstart, hstop⟩
      · exact .inr ⟨old, hold, hs.trans hstart, he.trans hstop⟩

/-! ## Requests -/

/-- How the loop of `__request_resource` ends. -/
theorem requestLoop_spec (before rest : List Region)
    (hbefore : ∀ r ∈ before, r.stop < res.start)
    (hordered : rest.Pairwise fun first second => first.stop < second.start)
    (hranges : ∀ r ∈ rest, r.start ≤ r.stop) :
    (∃ left right, before ++ rest = left ++ right ∧
        requestLoop root res before rest = .linked (root.withChildren (left ++ res :: right)) ∧
        (∀ r ∈ left, r.stop < res.start) ∧ ∀ r ∈ right, res.stop < r.start) ∨
      ∃ left r right, before ++ rest = left ++ r :: right ∧
        requestLoop root res before rest = .child left r right ∧
        r.start ≤ res.stop ∧ res.start ≤ r.stop := by
  induction rest generalizing before with
  | nil => exact .inl ⟨before, [], rfl, rfl, hbefore, nofun⟩
  | cons tmp rest ih =>
    obtain ⟨hlater, hordered⟩ := List.pairwise_cons.mp hordered
    rw [List.forall_mem_cons] at hranges
    rw [requestLoop]
    split_ifs with hafter hfirst
    · refine .inl ⟨before, tmp :: rest, rfl, rfl, hbefore, ?_⟩
      intro r hr
      rcases List.mem_cons.mp hr with rfl | hr
      · exact hafter
      · have := hlater r hr
        omega
    · have hpassed : ∀ r ∈ before ++ [tmp], r.stop < res.start := by
        intro r hr
        rcases List.mem_append.mp hr with hr | hr
        · exact hbefore r hr
        · rw [List.mem_singleton.mp hr]
          exact hfirst
      have hrest := ih (before ++ [tmp]) hpassed hordered hranges.2
      rw [List.append_assoc] at hrest
      exact hrest
    · exact .inr ⟨before, tmp, rest, rfl, rfl, by omega, by omega⟩

/-- The new resource has no children and lies in a gap between the children. -/
theorem wellFormed_here {before after : List Region} (h : root.WellFormed)
    (hchildren : root.children = before ++ after) (hres : res.WellFormed)
    (hstart : root.start ≤ res.start) (hstop : res.stop ≤ root.stop)
    (hbefore : ∀ r ∈ before, r.stop < res.start) (hafter : ∀ r ∈ after, res.stop < r.start) :
    (root.withChildren (before ++ res :: after)).WellFormed := by
  cases h with
  | mk hle hinside hordered hall =>
    simp only [Region.children] at hchildren
    subst hchildren
    have hmem : ∀ r ∈ before ++ res :: after, r = res ∨ r ∈ before ++ after := by
      intro r hr
      simp only [List.mem_append, List.mem_cons] at hr ⊢
      tauto
    obtain ⟨hleft, hright, hboth⟩ := List.pairwise_append.mp hordered
    refine .mk hle ?_ ?_ ?_
    · intro r hr
      rcases hmem r hr with rfl | hr
      · exact ⟨hstart, hstop⟩
      · exact hinside r hr
    · refine List.pairwise_append.mpr ⟨hleft, List.pairwise_cons.mpr ⟨hafter, hright⟩, ?_⟩
      intro a ha b hb
      rcases List.mem_cons.mp hb with rfl | hb
      · exact hbefore a ha
      · exact hboth a ha b hb
    · intro r hr
      rcases hmem r hr with rfl | hr
      · exact hres
      · exact hall r hr

/-- A child is replaced by one with the same range. -/
theorem wellFormed_below {before after : List Region} (h : root.WellFormed)
    (hchildren : root.children = before ++ c :: after) (hc : c'.WellFormed)
    (hstart : c'.start = c.start) (hstop : c'.stop = c.stop) :
    (root.withChildren (before ++ c' :: after)).WellFormed := by
  cases h with
  | mk hle hinside hordered hall =>
    simp only [Region.children] at hchildren
    subst hchildren
    have hmem : ∀ r ∈ before ++ c' :: after, r = c' ∨ r ∈ before ++ c :: after := by
      intro r hr
      simp only [List.mem_append, List.mem_cons] at hr ⊢
      tauto
    have hold : c ∈ before ++ c :: after := List.mem_append_right _ List.mem_cons_self
    obtain ⟨hleft, hright, hboth⟩ := List.pairwise_append.mp hordered
    obtain ⟨hlater, hright⟩ := List.pairwise_cons.mp hright
    refine .mk hle ?_ ?_ ?_
    · intro r hr
      rcases hmem r hr with rfl | hr
      · rw [hstart, hstop]
        exact hinside c hold
      · exact hinside r hr
    · refine List.pairwise_append.mpr ⟨hleft, List.pairwise_cons.mpr ⟨?_, hright⟩, ?_⟩
      · intro b hb
        rw [hstop]
        exact hlater b hb
      · intro a ha b hb
        rcases List.mem_cons.mp hb with rfl | hb
        · rw [hstart]
          exact hboth a ha c List.mem_cons_self
        · exact hboth a ha b (List.mem_cons_of_mem _ hb)
    · intro r hr
      rcases hmem r hr with rfl | hr
      · exact hc
      · exact hall r hr

theorem inserted_here {before after : List Region} (h : root.children = before ++ after) :
    Inserted res root (root.withChildren (before ++ res :: after)) := by
  cases root with
  | mk name start stop flags children =>
    simp only [Region.children] at h
    subst h
    exact .here before after

theorem inserted_below {before after : List Region} (h : root.children = before ++ c :: after)
    (hchild : Inserted res c c') : Inserted res root (root.withChildren (before ++ c' :: after)) := by
  cases root with
  | mk name start stop flags children =>
    simp only [Region.children] at h
    subst h
    exact .deeper before after hchild

/-! ## The loop -/

theorem place_succ {placed : Placed} (h : place res fuel root = some placed) :
    place res (fuel + 1) root = some placed := by
  induction fuel generalizing root placed with
  | zero => cases h
  | succ fuel ih =>
    rw [place] at h ⊢
    cases hrequest : requestRegion root res with
    | linked parent =>
      rw [hrequest] at h
      exact h
    | root =>
      rw [hrequest] at h
      exact h
    | child before other after =>
      simp only [hrequest] at h ⊢
      split_ifs at h ⊢ with hbusy
      · exact h
      cases hother : place res fuel other with
      | none =>
        rw [hother] at h
        cases h
      | some below =>
        rw [hother] at h
        rw [ih hother]
        exact h

theorem place_le {placed : Placed} (hfuel : fuel ≤ fuel')
    (h : place res fuel root = some placed) : place res fuel' root = some placed := by
  induction hfuel with
  | refl => exact h
  | step _ ih => exact place_succ ih

theorem requestLoop_range {before rest : List Region}
    (h : requestLoop root res before rest = .linked root') :
    root'.start = root.start ∧ root'.stop = root.stop := by
  induction rest generalizing before with
  | nil =>
    cases root
    cases h
    exact ⟨rfl, rfl⟩
  | cons tmp rest ih =>
    rw [requestLoop] at h
    split_ifs at h with hafter hbefore
    · cases root
      cases h
      exact ⟨rfl, rfl⟩
    · exact ih h

theorem place_range (h : place res fuel root = some (.linked root')) :
    root'.start = root.start ∧ root'.stop = root.stop := by
  cases fuel with
  | zero => cases h
  | succ fuel =>
    rw [place] at h
    cases hrequest : requestRegion root res with
    | linked parent =>
      rw [hrequest] at h
      cases h
      unfold requestRegion at hrequest
      split_ifs at hrequest
      exact requestLoop_range hrequest
    | root =>
      rw [hrequest] at h
      cases h
    | child before other after =>
      simp only [hrequest] at h
      split_ifs at h with hbusy
      · cases h
      cases hother : place res fuel other with
      | none =>
        rw [hother] at h
        cases h
      | some below =>
        rw [hother] at h
        cases below with
        | linked other' =>
          cases root
          cases h
          exact ⟨rfl, rfl⟩
        | conflict c => cases h

/-- A request for a range that sticks out of a resource is refused by the resource itself. -/
theorem requestRegion_outside (h : ¬ (root.start ≤ res.start ∧ res.stop ≤ root.stop)) :
    requestRegion root res = .root := by
  unfold requestRegion
  split_ifs with hempty hstart hstop
  · rfl
  · rfl
  · rfl
  · omega

/-- Inside a resource the loop links the new resource, or it finds a conflict that overlaps the
range and lies in a child. -/
theorem place_spec (h : root.WellFormed) (hres : res.WellFormed)
    (hstart : root.start ≤ res.start) (hstop : res.stop ≤ root.stop) :
    (∃ fuel root', place res fuel root = some (.linked root') ∧ Inserted res root root' ∧
        root'.WellFormed) ∨
      ∃ fuel conflict, place res fuel root = some (.conflict conflict) ∧
        conflict.start ≤ conflict.stop ∧ conflict.start ≤ res.stop ∧
        res.start ≤ conflict.stop ∧
        ∃ c ∈ root.children, c.start ≤ conflict.start ∧ conflict.stop ≤ c.stop := by
  induction h with
  | @mk name start stop flags children hle hinside hordered hchildren ih =>
    have hwf : Region.WellFormed (.mk name start stop flags children) :=
      .mk hle hinside hordered hchildren
    have hinner : requestRegion (.mk name start stop flags children) res =
        requestLoop (.mk name start stop flags children) res [] children := by
      unfold requestRegion
      rw [if_neg (Nat.not_lt.mpr hres.le), if_neg (Nat.not_lt.mpr hstart),
        if_neg (Nat.not_lt.mpr hstop)]
      rfl
    rcases @requestLoop_spec (.mk name start stop flags children) res [] children
        nofun hordered fun r hr => (hchildren r hr).le with
      ⟨left, right, hsplit, hlinked, hleft, hright⟩ |
        ⟨left, other, right, hsplit, hchild, hlow, hhigh⟩
    · refine .inl ⟨1, _, ?_, inserted_here hsplit,
        wellFormed_here hwf hsplit hres hstart hstop hleft hright⟩
      rw [place, hinner, hlinked]
    have hmem : other ∈ children := by
      rw [show children = left ++ other :: right from hsplit]
      exact List.mem_append_right _ List.mem_cons_self
    have hrange : ∃ c ∈ children, c.start ≤ other.start ∧ other.stop ≤ c.stop :=
      ⟨other, hmem, Nat.le_refl _, Nat.le_refl _⟩
    have hother := (hchildren other hmem).le
    by_cases hbusy : other.isBusy = true
    · refine .inr ⟨1, other, ?_, hother, hlow, hhigh, hrange⟩
      rw [place, hinner, hchild]
      simp only [hbusy, if_true]
    by_cases hin : other.start ≤ res.start ∧ res.stop ≤ other.stop
    · rcases ih other hmem hin.1 hin.2 with
        ⟨fuel, other', hplace, hinserted, hwf'⟩ |
          ⟨fuel, conflict, hplace, hconflict, hlow, hhigh, c, hc, hcs, hce⟩
      · refine .inl ⟨fuel + 1, _, ?_, inserted_below hsplit hinserted,
          wellFormed_below hwf hsplit hwf' hinserted.range.1 hinserted.range.2⟩
        rw [place, hinner, hchild]
        simp only [hbusy, Bool.false_eq_true, if_false, hplace]
      · refine .inr ⟨fuel + 1, conflict, ?_, hconflict, hlow, hhigh, other, hmem, ?_⟩
        · rw [place, hinner, hchild]
          simp only [hbusy, Bool.false_eq_true, if_false, hplace]
        · have := (hchildren other hmem).inside hc
          omega
    · -- the range sticks out of the child, which is its own conflict
      refine .inr ⟨2, other, ?_, hother, hlow, hhigh, hrange⟩
      rw [place, hinner, hchild]
      simp only [hbusy, Bool.false_eq_true, if_false, place, requestRegion_outside hin]

/-! ## The recursion -/

theorem reserve_succ (h : reserveRegionWithSplit name fuel root start stop = some root') :
    reserveRegionWithSplit name (fuel + 1) root start stop = some root' := by
  induction fuel generalizing root root' start stop with
  | zero => cases h
  | succ fuel ih =>
    rw [reserveRegionWithSplit] at h ⊢
    cases hplace : place (.mk name start stop ioresourceBusy []) fuel root with
    | none =>
      rw [hplace] at h
      cases h
    | some placed =>
      rw [hplace] at h
      rw [place_succ hplace]
      cases placed with
      | linked parent => exact h
      | conflict c =>
        dsimp only at h ⊢
        by_cases hcovers : c.start ≤ start ∧ stop ≤ c.stop
        · rw [if_pos hcovers] at h ⊢
          exact h
        rw [if_neg hcovers] at h ⊢
        obtain ⟨first, hfirst, h⟩ := Option.bind_eq_some_iff.mp h
        obtain ⟨second, hsecond, h⟩ := Option.bind_eq_some_iff.mp h
        refine Option.bind_eq_some_iff.mpr ⟨first, ?_, ?_⟩
        · split_ifs at hfirst ⊢
          · exact ih hfirst
          · exact hfirst
        refine Option.bind_eq_some_iff.mpr ⟨second, ?_, ?_⟩
        · split_ifs at hsecond ⊢
          · exact ih hsecond
          · exact hsecond
        · split_ifs at h ⊢
          · exact ih h
          · exact h

theorem reserve_le (hfuel : fuel ≤ fuel')
    (h : reserveRegionWithSplit name fuel root start stop = some root') :
    reserveRegionWithSplit name fuel' root start stop = some root' := by
  induction hfuel with
  | refl => exact h
  | step _ ih => exact reserve_succ ih

theorem reserve_range (h : reserveRegionWithSplit name fuel root start stop = some root') :
    root'.start = root.start ∧ root'.stop = root.stop := by
  induction fuel generalizing root root' start stop with
  | zero => cases h
  | succ fuel ih =>
    have hpiece : ∀ {p : Prop} [Decidable p] {before after : Region} {a b : Nat},
        (if p then reserveRegionWithSplit name fuel before a b else some before) = some after →
          after.start = before.start ∧ after.stop = before.stop := by
      intro p _ before after a b h
      split_ifs at h
      · exact ih h
      · obtain rfl := Option.some.inj h
        exact ⟨rfl, rfl⟩
    rw [reserveRegionWithSplit] at h
    split at h
    · cases h
    · rename_i hplace
      obtain rfl := Option.some.inj h
      exact place_range hplace
    rename_i c _
    by_cases hcovers : c.start ≤ start ∧ stop ≤ c.stop
    · rw [if_pos hcovers] at h
      obtain rfl := Option.some.inj h
      exact ⟨rfl, rfl⟩
    · rw [if_neg hcovers] at h
      obtain ⟨first, hfirst, h⟩ := Option.bind_eq_some_iff.mp h
      obtain ⟨second, hsecond, h⟩ := Option.bind_eq_some_iff.mp h
      have h1 := hpiece hfirst
      have h2 := hpiece hsecond
      have h3 := hpiece h
      omega

/-- A range that sticks out of the root: the call for a part outside is the same call again. -/
theorem reserve_diverges (hroot : root.start ≤ root.stop) (hle : start ≤ stop)
    (hout : ¬ (root.start ≤ start ∧ stop ≤ root.stop)) :
    reserveRegionWithSplit name fuel root start stop = none := by
  induction fuel generalizing root start stop with
  | zero => rfl
  | succ fuel ih =>
    rw [reserveRegionWithSplit]
    cases fuel with
    | zero => rfl
    | succ fuel =>
      rw [place, requestRegion_outside hout]
      dsimp only
      rw [if_neg hout]
      by_cases hleft : start < root.start
      · rw [if_pos hleft, ih hroot (by omega) (by omega)]
        rfl
      rw [if_neg hleft, Option.bind_some]
      refine Option.bind_eq_none_iff.mpr ?_
      intro middle hmiddle
      have hrange : middle.start = root.start ∧ middle.stop = root.stop := by
        split_ifs at hmiddle
        · exact reserve_range hmiddle
        · obtain rfl := Option.some.inj hmiddle
          exact ⟨rfl, rfl⟩
      rw [if_pos (by omega)]
      exact ih (by omega) (by omega) (by omega)

/-! ## Ranges inside the root -/

/-- What a call leaves: the resources that were there, unchanged, and new busy ones inside the
range, which cover all of the range that no child of the root covered. -/
structure Reserved (name : String) (start stop : Nat) (root : Region) (news : List Region)
    (root' : Region) : Prop where
  inserted : InsertedAll news root root'
  new : ∀ r ∈ news, ∃ first last, r = .mk name first last ioresourceBusy [] ∧
    start ≤ first ∧ first ≤ last ∧ last ≤ stop
  covered : ∀ address, start ≤ address → address ≤ stop → root.Covers address →
    (∀ c ∈ root.children, ¬ c.Covers address) → ∃ r ∈ news, r.Covers address

/-- The new resources lie inside the range. -/
theorem Reserved.bounds (h : Reserved name start stop root news root') (hc : c ∈ news) :
    start ≤ c.start ∧ c.stop ≤ stop := by
  obtain ⟨first, last, rfl, hfirst, -, hlast⟩ := h.new c hc
  exact ⟨hfirst, hlast⟩

theorem Reserved.nil (h : ∀ address, start ≤ address → address ≤ stop →
    ∃ c ∈ root.children, c.Covers address) : Reserved name start stop root [] root where
  inserted := .nil root
  new := nofun
  covered address hstart hstop _ hnone := by
    obtain ⟨c, hc, hcovers⟩ := h address hstart hstop
    exact absurd hcovers (hnone c hc)

theorem Reserved.mono {first last : Nat} (h : Reserved name first last root news root')
    (hstart : start ≤ first) (hstop : last ≤ stop) :
    ∀ r ∈ news, ∃ first last, r = .mk name first last ioresourceBusy [] ∧
      start ≤ first ∧ first ≤ last ∧ last ≤ stop := by
  intro r hr
  obtain ⟨a, b, heq, ha, hab, hb⟩ := h.new r hr
  exact ⟨a, b, heq, by omega, hab, by omega⟩

/-- With enough calls nested, a range of a tree is reserved. -/
def Ends (name : String) (root : Region) (start stop : Nat) : Prop :=
  ∃ fuel news root', reserveRegionWithSplit name fuel root start stop = some root' ∧
    Reserved name start stop root news root' ∧ root'.WellFormed

/-- A part of a range that is reserved only if there is such a part. -/
theorem ends_piece {p : Prop} [Decidable p] (hroot : root.WellFormed)
    (h : p → Ends name root start stop) :
    ∃ fuel news root', (∀ fuel', fuel ≤ fuel' →
        (if p then reserveRegionWithSplit name fuel' root start stop else some root) =
          some root') ∧ InsertedAll news root root' ∧ root'.WellFormed ∧
        (p → Reserved name start stop root news root') ∧ (¬ p → news = []) := by
  by_cases hp : p
  · obtain ⟨fuel, news, root', hrun, hreserved, hwf⟩ := h hp
    refine ⟨fuel, news, root', ?_, hreserved.inserted, hwf, fun _ => hreserved, fun hnp => ?_⟩
    · intro fuel' hfuel
      rw [if_pos hp]
      exact reserve_le hfuel hrun
    · exact absurd hp hnp
  · refine ⟨0, [], root, ?_, .nil root, hroot, fun hp' => absurd hp' hp, fun _ => rfl⟩
    intro fuel' _
    exact if_neg hp

/-- The three parts of a range around a conflict. -/
theorem ends_split (hroot : root.WellFormed) (hstart : root.start ≤ start) (hstop : stop ≤ root.stop)
    (hcovers : ¬ (c.start ≤ start ∧ stop ≤ c.stop))
    (hlow : c.start ≤ stop) (hhigh : start ≤ c.stop)
    (hchild : ∃ d ∈ root.children, d.start ≤ c.start ∧ c.stop ≤ d.stop)
    (hplace : place (.mk name start stop ioresourceBusy []) fuel root = some (.conflict c))
    (ih : ∀ (root : Region) (a b : Nat), root.WellFormed → root.start ≤ a → a ≤ b → b ≤ root.stop →
      b - a < stop - start → Ends name root a b) : Ends name root start stop := by
  obtain ⟨fuel1, news1, root1, hrun1, hall1, hwf1, hres1, hnil1⟩ :=
    ends_piece (p := start < c.start) hroot fun hp =>
      ih root start (c.start - 1) hroot hstart (by omega) (by omega) (by omega)
  have hrange1 := hall1.range
  obtain ⟨fuel2, news2, root2, hrun2, hall2, hwf2, hres2, hnil2⟩ :=
    ends_piece (p := !c.isBusy ∧ max c.start start < min c.stop stop) hwf1 fun hp =>
      ih root1 (max c.start start) (min c.stop stop) hwf1 (by omega) (by omega) (by omega) (by omega)
  have hrange2 := hall2.range
  obtain ⟨fuel3, news3, root3, hrun3, hall3, hwf3, hres3, hnil3⟩ :=
    ends_piece (p := c.stop < stop) hwf2 fun hp =>
      ih root2 (c.stop + 1) stop hwf2 (by omega) (by omega) (by omega) (by omega)
  refine ⟨fuel + fuel1 + fuel2 + fuel3 + 1, news1 ++ (news2 ++ news3), root3, ?_, ?_, hwf3⟩
  · rw [reserveRegionWithSplit, place_le (by omega) hplace]
    dsimp only
    rw [if_neg hcovers, hrun1 _ (by omega), Option.bind_some, hrun2 _ (by omega), Option.bind_some,
      hrun3 _ (by omega)]
  have hin1 : ∀ r ∈ news1, start < c.start ∧ r.stop ≤ c.start - 1 := by
    intro r hr
    by_cases hp : start < c.start
    · exact ⟨hp, ((hres1 hp).bounds hr).2⟩
    · rw [hnil1 hp] at hr
      cases hr
  have hin2 : ∀ r ∈ news2, r.stop ≤ c.stop := by
    intro r hr
    by_cases hp : (!c.isBusy) = true ∧ max c.start start < min c.stop stop
    · have := ((hres2 hp).bounds hr).2
      omega
    · rw [hnil2 hp] at hr
      cases hr
  refine ⟨hall1.append (hall2.append hall3), ?_, ?_⟩
  · intro r hr
    rcases List.mem_append.mp hr with hr | hr
    · have hp := (hin1 r hr).1
      exact (hres1 hp).mono (Nat.le_refl _) (by omega) r hr
    rcases List.mem_append.mp hr with hr | hr
    · by_cases hp : (!c.isBusy) = true ∧ max c.start start < min c.stop stop
      · exact (hres2 hp).mono (by omega) (by omega) r hr
      · rw [hnil2 hp] at hr
        cases hr
    · by_cases hp : c.stop < stop
      · exact (hres3 hp).mono (by omega) (Nat.le_refl _) r hr
      · rw [hnil3 hp] at hr
        cases hr
  intro address hge hle' hcov hnone
  obtain ⟨d, hd, hds, hde⟩ := hchild
  have hout : ¬ (c.start ≤ address ∧ address ≤ c.stop) := by
    intro hin
    exact hnone d hd ⟨by omega, by omega⟩
  by_cases hleft : address < c.start
  · obtain ⟨r, hr, hr'⟩ :=
      (hres1 (by omega)).covered address hge (by omega) hcov hnone
    exact ⟨r, List.mem_append_left _ hr, hr'⟩
  have hcov2 : root2.Covers address := by
    unfold Region.Covers at hcov ⊢
    omega
  -- what was added so far lies to the left of the address
  have hnone2 : ∀ x ∈ root2.children, ¬ x.Covers address := by
    intro x hx hxcov
    rcases (hall1.append hall2).child hx with ⟨r, hr, hrs, hre⟩ | ⟨old, hold, hs, he⟩
    · unfold Region.Covers at hxcov
      rcases List.mem_append.mp hr with hr | hr
      · have := hin1 r hr
        omega
      · have := hin2 r hr
        omega
    · refine hnone old hold ?_
      unfold Region.Covers at hxcov ⊢
      omega
  obtain ⟨r, hr, hr'⟩ :=
    (hres3 (by omega)).covered address (by omega) hle' hcov2 hnone2
  exact ⟨r, List.mem_append_right _ (List.mem_append_right _ hr), hr'⟩

theorem reserve_ends (n : Nat) : ∀ (root : Region) (start stop : Nat), root.WellFormed →
    root.start ≤ start → start ≤ stop → stop ≤ root.stop → stop - start < n →
      Ends name root start stop := by
  induction n with
  | zero =>
    intro _ _ _ _ _ _ _ hlt
    exact absurd hlt (Nat.not_lt_zero _)
  | succ n ih =>
    intro root start stop hroot hstart hle hstop hlt
    have hres : Region.WellFormed (.mk name start stop ioresourceBusy []) :=
      .mk hle nofun .nil nofun
    rcases place_spec hroot hres hstart hstop with
      ⟨fuel, root', hplace, hinserted, hwf⟩ |
        ⟨fuel, c, hplace, -, hlow, hhigh, hchild⟩
    · refine ⟨fuel + 1, [_], root', ?_, ⟨.cons hinserted (.nil _), ?_, ?_⟩, hwf⟩
      · rw [reserveRegionWithSplit, hplace]
      · intro r hr
        exact ⟨start, stop, List.mem_singleton.mp hr, Nat.le_refl _, hle, Nat.le_refl _⟩
      · intro address hge hle' _ _
        exact ⟨_, List.mem_singleton_self _, hge, hle'⟩
    by_cases hcovers : c.start ≤ start ∧ stop ≤ c.stop
    · refine ⟨fuel + 1, [], root, ?_, .nil ?_, hroot⟩
      · rw [reserveRegionWithSplit, hplace]
        exact if_pos hcovers
      · intro address hge hle'
        obtain ⟨d, hd, hds, hde⟩ := hchild
        exact ⟨d, hd, by omega, by omega⟩
    · exact ends_split hroot hstart hstop hcovers hlow hhigh hchild hplace
        fun root a b hwf ha hab hb hshort => ih root a b hwf ha hab hb (by omega)

/-- The call ends, with the resources that were there unchanged and the rest of the range
reserved, exactly when the range lies inside the root. -/
theorem reserve_region_with_split_iff (name : String) {root : Region} {start stop : Nat}
    (hroot : root.WellFormed) (hle : start ≤ stop) :
    (∃ fuel news root', reserveRegionWithSplit name fuel root start stop = some root' ∧
        Reserved name start stop root news root') ↔
      root.start ≤ start ∧ stop ≤ root.stop := by
  constructor
  · intro ⟨fuel, news, root', hrun, _⟩
    by_contra hout
    rw [reserve_diverges hroot.le hle hout] at hrun
    cases hrun
  · intro ⟨hstart, hstop⟩
    obtain ⟨fuel, news, root', hrun, hreserved, _⟩ :=
      reserve_ends (stop - start + 1) root start stop hroot hstart hle hstop (by omega)
    exact ⟨fuel, news, root', hrun, hreserved⟩

/-- A root with one busy child in its middle. -/
def oneChild : Region :=
  .mk "root" 0 9 0 [.mk "child" 4 5 ioresourceBusy []]

theorem oneChild_wellFormed : oneChild.WellFormed := by
  refine .mk (by decide) ?_ (List.pairwise_singleton _ _) ?_
  · intro c hc
    obtain rfl := List.mem_singleton.mp hc
    exact ⟨by decide, by decide⟩
  · intro c hc
    obtain rfl := List.mem_singleton.mp hc
    exact .mk (by decide) nofun .nil nofun

theorem reserve_region_with_split_iff_oneChild :
    (∃ fuel news root', reserveRegionWithSplit "new" fuel oneChild 2 7 = some root' ∧
        Reserved "new" 2 7 oneChild news root') ↔
      oneChild.start ≤ 2 ∧ 7 ≤ oneChild.stop :=
  reserve_region_with_split_iff "new" oneChild_wellFormed (by decide)

/-- A range that ends above the root is never reserved. -/
theorem reserve_region_with_split_loops :
    ¬ ∀ (name : String) (root : Region) (start stop : Nat), root.WellFormed → start ≤ stop →
      ∃ fuel news root', reserveRegionWithSplit name fuel root start stop = some root' ∧
        Reserved name start stop root news root' := by
  intro h
  obtain ⟨fuel, news, root', hrun, _⟩ := h "new" oneChild 2 12 oneChild_wellFormed (by decide)
  rw [reserve_diverges (by decide) (by decide) (by decide)] at hrun
  cases hrun

end AndroidKernel.Resource
