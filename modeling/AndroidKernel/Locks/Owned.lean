import AndroidKernel.Locks.Model

/-!
# The locks of one owner

What `__posix_lock_file` makes of the locks of the owner, as functions of a list: `place` sets a
range to a type and `remove` clears it. `absorb` is the rest of `place` once the new lock stands
in the list.
-/

namespace AndroidKernel.Locks

universe u

variable {Owner : Type u}

/-- A lock that an owner can hold. -/
structure Held (o : Owner) (l : FileLock Owner) : Prop where
  posix : l.cls = .posix
  owner : l.owner = o
  type : l.type ≠ .unlck
  nonneg : 0 ≤ l.start
  le : l.start ≤ l.stop
  stop_le : l.stop ≤ offsetMax

/-- One lock comes before another, and they do not touch if their types are equal. -/
def Before (a b : FileLock Owner) : Prop :=
  a.stop < b.start ∧ (a.type = b.type → a.stop + 1 < b.start)

/-- The locks of an owner. -/
structure Group (o : Owner) (ls : List (FileLock Owner)) : Prop where
  held : ∀ l ∈ ls, Held o l
  sorted : ls.Pairwise Before

/-- The type that a byte is locked with. -/
def typeAt (ls : List (FileLock Owner)) (x : Int) : Option LockType :=
  (ls.find? fun l => decide (l.start ≤ x) && decide (x ≤ l.stop)).map FileLock.type

theorem typeAt_cons (l : FileLock Owner) (ls : List (FileLock Owner)) (x : Int) :
    typeAt (l :: ls) x = if l.start ≤ x ∧ x ≤ l.stop then some l.type else typeAt ls x := by
  unfold typeAt
  rw [List.find?_cons]
  by_cases hlo : l.start ≤ x
  · by_cases hhi : x ≤ l.stop
    · simp [hlo, hhi]
    · simp [hhi]
  · simp [hlo]

/-- No byte is locked outside of the locks. -/
theorem typeAt_eq_none {ls : List (FileLock Owner)} {x : Int}
    (h : ∀ l ∈ ls, x < l.start ∨ l.stop < x) : typeAt ls x = none := by
  induction ls with
  | nil => rfl
  | cons l ls ih =>
    obtain ⟨hl, hls⟩ := List.forall_mem_cons.mp h
    rw [typeAt_cons, if_neg (by omega)]
    exact ih hls

theorem Group.nil (o : Owner) : Group o [] :=
  ⟨nofun, .nil⟩

theorem group_cons {o : Owner} {l : FileLock Owner} {ls : List (FileLock Owner)} :
    Group o (l :: ls) ↔ Held o l ∧ (∀ x ∈ ls, Before l x) ∧ Group o ls := by
  constructor
  · intro h
    obtain ⟨hl, hls⟩ := List.forall_mem_cons.mp h.held
    obtain ⟨hbefore, hsorted⟩ := List.pairwise_cons.mp h.sorted
    exact ⟨hl, hbefore, hls, hsorted⟩
  · rintro ⟨hl, hbefore, hls⟩
    exact ⟨List.forall_mem_cons.mpr ⟨hl, hls.held⟩, List.pairwise_cons.mpr ⟨hbefore, hls.sorted⟩⟩

/-- A lock that ends no later comes before all that comes after the other one. -/
theorem Before.of_le {a b c : FileLock Owner} (h : Before b c) (hle : a.stop < b.stop) :
    Before a c := by
  obtain ⟨hlt, _⟩ := h
  refine ⟨by omega, fun _ => by omega⟩

variable {o : Owner} {vs : List (FileLock Owner)}

/-! ## The new lock in the list -/

/-- The new lock `r`, joined to the locks of its type that it meets, with those of other types
taken away. -/
def absorb (r : FileLock Owner) : List (FileLock Owner) → List (FileLock Owner)
  | [] => [r]
  | v :: vs =>
    if r.type = v.type then
      if v.start - 1 > r.stop then r :: v :: vs
      else absorb { r with start := min v.start r.start, stop := max v.stop r.stop } vs
    else if v.start > r.stop then r :: v :: vs
    else if v.stop > r.stop then r :: { v with start := r.stop + 1 } :: vs
    else absorb r vs

theorem Held.range {l : FileLock Owner} (h : Held o l) {lo hi : Int} (hlo : 0 ≤ lo) (hle : lo ≤ hi)
    (hhi : hi ≤ offsetMax) : Held o { l with start := lo, stop := hi } :=
  ⟨h.posix, h.owner, h.type, hlo, hle, hhi⟩

/-- The new lock comes first. -/
theorem group_cons_of_before {r v : FileLock Owner} (hr : Held o r) (h : Group o (v :: vs))
    (hbefore : Before r v) : Group o (r :: v :: vs) := by
  obtain ⟨hv, hlater, _⟩ := group_cons.mp h
  refine group_cons.mpr ⟨hr, ?_, h⟩
  intro x hx
  rcases List.mem_cons.mp hx with rfl | hx
  · exact hbefore
  · have h1 := hbefore.1
    have h2 := hv.le
    exact (hlater x hx).of_le (by omega)

/-- `absorb` comes to the locks of an owner that set the range of the new lock. -/
theorem absorb_spec {r : FileLock Owner} (hr : Held o r) (h : Group o vs)
    (hle : ∀ v ∈ vs, r.start ≤ v.start) :
    Group o (absorb r vs) ∧ ∀ x, typeAt (absorb r vs) x = typeAt (r :: vs) x := by
  induction vs generalizing r with
  | nil => exact ⟨group_cons.mpr ⟨hr, nofun, .nil o⟩, fun _ => rfl⟩
  | cons v vs ih =>
    obtain ⟨hv, hlater, hvs⟩ := group_cons.mp h
    obtain ⟨hrv, hrvs⟩ := List.forall_mem_cons.mp hle
    have hvle := hv.le
    have hrle := hr.le
    have hvpos := hv.nonneg
    have hvmax := hv.stop_le
    have hrpos := hr.nonneg
    have hrmax := hr.stop_le
    rw [absorb]
    split_ifs with htype hgap hafter hover
    · exact ⟨group_cons_of_before hr h ⟨by omega, fun _ => by omega⟩, fun _ => rfl⟩
    · obtain ⟨hgroup, htypes⟩ := @ih
        { r with start := min v.start r.start, stop := max v.stop r.stop }
        (hr.range (by omega) (by omega) (by omega)) hvs (by
          intro w hw
          have := (hlater w hw).1
          show min v.start r.start ≤ w.start
          omega)
      refine ⟨hgroup, ?_⟩
      intro x
      rw [htypes, typeAt_cons, typeAt_cons, typeAt_cons, ← htype]
      dsimp only
      split_ifs with h1 h2 h3 h4 h5
      all_goals first | rfl | omega
    · exact ⟨group_cons_of_before hr h ⟨by omega, fun heq => absurd heq htype⟩, fun _ => rfl⟩
    · constructor
      · have hcut : Group o ({ v with start := r.stop + 1 } :: vs) :=
          group_cons.mpr ⟨hv.range (by omega) (by omega) hvmax, hlater, hvs⟩
        refine group_cons_of_before hr hcut ⟨?_, fun heq => absurd heq htype⟩
        show r.stop < r.stop + 1
        omega
      · intro x
        simp only [typeAt_cons]
        split_ifs with h1 h2 h3 h4
        all_goals first | rfl | omega
    · obtain ⟨hgroup, htypes⟩ := ih hr hvs hrvs
      refine ⟨hgroup, ?_⟩
      intro x
      rw [htypes]
      simp only [typeAt_cons]
      split_ifs with h1 h2
      all_goals first | rfl | omega

/-- What comes before the new lock and the others comes before all of `absorb`. -/
theorem before_absorb {l r : FileLock Owner} (hr : Before l r) (h : ∀ v ∈ vs, Before l v)
    (hrle : r.start ≤ r.stop) : ∀ x ∈ absorb r vs, Before l x := by
  induction vs generalizing r with
  | nil =>
    intro x hx
    rw [List.mem_singleton.mp hx]
    exact hr
  | cons v vs ih =>
    obtain ⟨hv, hvs⟩ := List.forall_mem_cons.mp h
    have hlr := hr.1
    rw [absorb]
    split_ifs with htype hgap hafter hover
    · exact List.forall_mem_cons.mpr ⟨hr, h⟩
    · refine ih ⟨?_, ?_⟩ hvs ?_
      · have := hv.1
        show l.stop < min v.start r.start
        omega
      · intro heq
        have h1 := hr.2 heq
        have h2 := hv.2 (heq.trans htype)
        show l.stop + 1 < min v.start r.start
        omega
      · show min v.start r.start ≤ max v.stop r.stop
        omega
    · exact List.forall_mem_cons.mpr ⟨hr, h⟩
    · refine List.forall_mem_cons.mpr ⟨hr, List.forall_mem_cons.mpr ⟨⟨?_, ?_⟩, hvs⟩⟩
      · show l.stop < r.stop + 1
        omega
      · intro _
        show l.stop + 1 < r.stop + 1
        omega
    · exact ih hr hvs hrle

/-! ## Placing and removing -/

/-- What is left of a lock before `n`. -/
def headPart (v : FileLock Owner) (n : Int) : List (FileLock Owner) :=
  if v.start < n then [{ v with stop := n - 1 }] else []

/-- Locks the range of `q`. -/
def place (q : FileLock Owner) : List (FileLock Owner) → List (FileLock Owner)
  | [] => [q]
  | v :: vs =>
    if q.type = v.type then
      if v.stop < q.start - 1 then v :: place q vs
      else if v.start - 1 > q.stop then q :: v :: vs
      else absorb { v with start := min v.start q.start, stop := max v.stop q.stop } vs
    else if v.stop < q.start then v :: place q vs
    else if v.start > q.stop then q :: v :: vs
    else if v.stop > q.stop then headPart v q.start ++ q :: { v with start := q.stop + 1 } :: vs
    else if v.start ≥ q.start then
      absorb { v with start := q.start, stop := q.stop, type := q.type } vs
    else { v with stop := q.start - 1 } :: place q vs

/-- Unlocks the bytes from `s` to `e`. -/
def remove (s e : Int) : List (FileLock Owner) → List (FileLock Owner)
  | [] => []
  | v :: vs =>
    if v.stop < s then v :: remove s e vs
    else if v.start > e then v :: vs
    else if v.stop > e then headPart v s ++ { v with start := e + 1 } :: vs
    else if v.start ≥ s then remove s e vs
    else { v with stop := s - 1 } :: remove s e vs

section Spec

variable {q : FileLock Owner}

/-- What comes before the range and before the locks comes before all of `place`. -/
theorem before_place {l : FileLock Owner} (hq : Before l q) (h : ∀ v ∈ vs, Before l v)
    (hqle : q.start ≤ q.stop) : ∀ x ∈ place q vs, Before l x := by
  induction vs with
  | nil =>
    intro x hx
    rw [List.mem_singleton.mp hx]
    exact hq
  | cons v vs ih =>
    obtain ⟨hv, hvs⟩ := List.forall_mem_cons.mp h
    have hlq := hq.1
    have hlv := hv.1
    rw [place]
    split_ifs with htype hskip hgap hskip hafter hover hin
    · exact List.forall_mem_cons.mpr ⟨hv, ih hvs⟩
    · exact List.forall_mem_cons.mpr ⟨hq, h⟩
    · refine before_absorb ⟨?_, ?_⟩ hvs ?_
      · show l.stop < min v.start q.start
        omega
      · intro heq
        have h1 := hv.2 heq
        have h2 := hq.2 (heq.trans htype.symm)
        show l.stop + 1 < min v.start q.start
        omega
      · show min v.start q.start ≤ max v.stop q.stop
        omega
    · exact List.forall_mem_cons.mpr ⟨hv, ih hvs⟩
    · exact List.forall_mem_cons.mpr ⟨hq, h⟩
    · have htail : Before l { v with start := q.stop + 1 } := by
        refine ⟨?_, fun _ => ?_⟩
        · show l.stop < q.stop + 1
          omega
        · show l.stop + 1 < q.stop + 1
          omega
      intro x hx
      rcases List.mem_append.mp hx with hx | hx
      · unfold headPart at hx
        split_ifs at hx with hhead
        · rw [List.mem_singleton.mp hx]
          exact hv
        · cases hx
      · exact List.forall_mem_cons.mpr ⟨hq, List.forall_mem_cons.mpr ⟨htail, hvs⟩⟩ x hx
    · exact before_absorb hq hvs hqle
    · exact List.forall_mem_cons.mpr ⟨hv, ih hvs⟩

/-- `place` comes to the locks of an owner, with the range of `q` set to its type. -/
theorem place_spec (hq : Held o q) (h : Group o vs) :
    Group o (place q vs) ∧ ∀ x, typeAt (place q vs) x = typeAt (q :: vs) x := by
  have hqle := hq.le
  have hqpos := hq.nonneg
  have hqmax := hq.stop_le
  induction vs with
  | nil => exact ⟨group_cons.mpr ⟨hq, nofun, .nil o⟩, fun _ => rfl⟩
  | cons v vs ih =>
    obtain ⟨hv, hlater, hvs⟩ := group_cons.mp h
    obtain ⟨hgroup, htypes⟩ := ih hvs
    have hvle := hv.le
    have hvpos := hv.nonneg
    have hvmax := hv.stop_le
    have hafterv : ∀ w ∈ vs, v.stop < w.start := fun w hw => (hlater w hw).1
    rw [place]
    split_ifs with htype hskip hgap hskip hafter hover hin
    · refine ⟨group_cons.mpr ⟨hv, before_place ⟨by omega, fun _ => by omega⟩ hlater hqle,
        hgroup⟩, ?_⟩
      intro x
      rw [typeAt_cons, htypes]
      simp only [typeAt_cons]
      split_ifs with h1 h2
      all_goals first | rfl | omega
    · exact ⟨group_cons_of_before hq h ⟨by omega, fun _ => by omega⟩, fun _ => rfl⟩
    · obtain ⟨hgroup', htypes'⟩ := @absorb_spec _ o vs
        { v with start := min v.start q.start, stop := max v.stop q.stop }
        (hv.range (by omega) (by omega) (by omega)) hvs (by
          intro w hw
          have := hafterv w hw
          show min v.start q.start ≤ w.start
          omega)
      refine ⟨hgroup', ?_⟩
      intro x
      rw [htypes']
      simp only [typeAt_cons]
      rw [htype]
      split_ifs with h1 h2 h3 h4
      all_goals first | rfl | omega
    · refine ⟨group_cons.mpr ⟨hv, before_place ⟨hskip, fun heq => absurd heq.symm htype⟩ hlater
        hqle, hgroup⟩, ?_⟩
      intro x
      rw [typeAt_cons, htypes]
      simp only [typeAt_cons]
      split_ifs with h1 h2
      all_goals first | rfl | omega
    · exact ⟨group_cons_of_before hq h ⟨by omega, fun heq => absurd heq htype⟩, fun _ => rfl⟩
    · have hcut : Group o ({ v with start := q.stop + 1 } :: vs) :=
        group_cons.mpr ⟨hv.range (by omega) (by omega) hvmax, hlater, hvs⟩
      have hrest : Group o (q :: { v with start := q.stop + 1 } :: vs) := by
        refine group_cons_of_before hq hcut ⟨?_, fun heq => absurd heq htype⟩
        show q.stop < q.stop + 1
        omega
      unfold headPart
      split_ifs with hhead
      · constructor
        · refine group_cons_of_before (hv.range hvpos (by omega) (by omega)) hrest
            ⟨?_, fun heq => absurd heq.symm htype⟩
          show q.start - 1 < q.start
          omega
        · intro x
          show typeAt ({ v with stop := q.start - 1 } :: q :: { v with start := q.stop + 1 } :: vs)
            x = _
          simp only [typeAt_cons]
          split_ifs with h1 h2 h3 h4 h5
          all_goals first | rfl | omega
      · refine ⟨hrest, ?_⟩
        intro x
        show typeAt (q :: { v with start := q.stop + 1 } :: vs) x = _
        simp only [typeAt_cons]
        split_ifs with h1 h2 h3 h4
        all_goals first | rfl | omega
    · obtain ⟨hgroup', htypes'⟩ := @absorb_spec _ o vs
        { v with start := q.start, stop := q.stop, type := q.type }
        ⟨hv.posix, hv.owner, hq.type, hqpos, hqle, hqmax⟩ hvs (by
          intro w hw
          have := hafterv w hw
          show q.start ≤ w.start
          omega)
      refine ⟨hgroup', ?_⟩
      intro x
      rw [htypes']
      simp only [typeAt_cons]
      split_ifs with h1 h2
      all_goals first | rfl | omega
    constructor
    · refine group_cons.mpr ⟨hv.range hvpos (by omega) (by omega), ?_, hgroup⟩
      refine before_place ⟨?_, fun heq => absurd heq.symm htype⟩ ?_ hqle
      · show q.start - 1 < q.start
        omega
      · intro w hw
        exact (hlater w hw).of_le (show q.start - 1 < v.stop by omega)
    · intro x
      rw [typeAt_cons, htypes]
      simp only [typeAt_cons]
      split_ifs with h1 h2 h3
      all_goals first | rfl | omega

/-- What comes before the locks comes before all of `remove`. -/
theorem before_remove {l : FileLock Owner} {s e : Int} (h : ∀ v ∈ vs, Before l v)
    (hle : ∀ v ∈ vs, v.start ≤ v.stop) : ∀ x ∈ remove s e vs, Before l x := by
  induction vs with
  | nil => exact nofun
  | cons v vs ih =>
    obtain ⟨hv, hvs⟩ := List.forall_mem_cons.mp h
    obtain ⟨hvle, hvsle⟩ := List.forall_mem_cons.mp hle
    have hlv := hv.1
    rw [remove]
    split_ifs with hskip hafter hover hin
    · exact List.forall_mem_cons.mpr ⟨hv, ih hvs hvsle⟩
    · exact h
    · have htail : Before l { v with start := e + 1 } := by
        refine ⟨?_, fun heq => ?_⟩
        · show l.stop < e + 1
          omega
        · have := hv.2 heq
          show l.stop + 1 < e + 1
          omega
      intro x hx
      rcases List.mem_append.mp hx with hx | hx
      · unfold headPart at hx
        split_ifs at hx with hhead
        · rw [List.mem_singleton.mp hx]
          exact hv
        · cases hx
      · exact List.forall_mem_cons.mpr ⟨htail, hvs⟩ x hx
    · exact ih hvs hvsle
    · exact List.forall_mem_cons.mpr ⟨hv, ih hvs hvsle⟩

/-- `remove` comes to the locks of an owner, with the range unlocked. -/
theorem remove_spec {s e : Int} (hse : s ≤ e) (h : Group o vs) :
    Group o (remove s e vs) ∧
      ∀ x, typeAt (remove s e vs) x = if s ≤ x ∧ x ≤ e then none else typeAt vs x := by
  induction vs with
  | nil =>
    refine ⟨.nil o, ?_⟩
    intro x
    split_ifs with hx
    · rfl
    · rfl
  | cons v vs ih =>
    obtain ⟨hv, hlater, hvs⟩ := group_cons.mp h
    obtain ⟨hgroup, htypes⟩ := ih hvs
    have hvle := hv.le
    have hvpos := hv.nonneg
    have hvmax := hv.stop_le
    have hle : ∀ w ∈ vs, w.start ≤ w.stop := fun w hw => (hvs.held w hw).le
    have hnone : ∀ x ≤ v.stop, typeAt vs x = none := by
      intro x hx
      refine typeAt_eq_none ?_
      intro w hw
      have := (hlater w hw).1
      omega
    rw [remove]
    split_ifs with hskip hafter hover hin
    · refine ⟨group_cons.mpr ⟨hv, before_remove hlater hle, hgroup⟩, ?_⟩
      intro x
      simp only [typeAt_cons, htypes]
      split_ifs with h1 h2
      all_goals first | rfl | omega
    · refine ⟨h, ?_⟩
      intro x
      split_ifs with hx
      · refine typeAt_eq_none ?_
        refine List.forall_mem_cons.mpr ⟨by omega, ?_⟩
        intro w hw
        have := (hlater w hw).1
        omega
      · rfl
    · have hcut : Group o ({ v with start := e + 1 } :: vs) :=
        group_cons.mpr ⟨hv.range (by omega) (by omega) hvmax, hlater, hvs⟩
      have hcuttype : ∀ x, s ≤ x → typeAt ({ v with start := e + 1 } :: vs) x =
          if s ≤ x ∧ x ≤ e then none else typeAt (v :: vs) x := by
        intro x hx
        have hvx := hnone x
        simp only [typeAt_cons]
        split_ifs with h1 h2 h3 h4
        all_goals first | rfl | omega | exact hvx (by omega)
      unfold headPart
      split_ifs with hhead
      · constructor
        · refine group_cons_of_before (hv.range hvpos (by omega) (by omega)) hcut ⟨?_, ?_⟩
          · show s - 1 < e + 1
            omega
          · intro _
            show s - 1 + 1 < e + 1
            omega
        intro x
        show typeAt ({ v with stop := s - 1 } :: { v with start := e + 1 } :: vs) x = _
        by_cases hx : s ≤ x
        · rw [typeAt_cons, if_neg, hcuttype x hx]
          rintro ⟨_, hle'⟩
          have hle' : x ≤ s - 1 := hle'
          omega
        · have hvx := hnone x
          rw [if_neg (by omega)]
          simp only [typeAt_cons]
          split_ifs with h1 h2 h3 h4
          all_goals first | rfl | omega
      refine ⟨hcut, ?_⟩
      intro x
      show typeAt ({ v with start := e + 1 } :: vs) x = _
      by_cases hx : s ≤ x
      · exact hcuttype x hx
      · have hvx := hnone x
        rw [if_neg (by omega)]
        simp only [typeAt_cons]
        split_ifs with h1 h2
        all_goals first | rfl | omega
    · refine ⟨hgroup, ?_⟩
      intro x
      rw [htypes]
      simp only [typeAt_cons]
      split_ifs with h1 h2
      all_goals first | rfl | omega
    constructor
    · refine group_cons.mpr ⟨hv.range hvpos (by omega) (by omega), ?_, hgroup⟩
      refine before_remove ?_ hle
      intro w hw
      exact (hlater w hw).of_le (show s - 1 < v.stop by omega)
    · intro x
      simp only [typeAt_cons, htypes]
      split_ifs with h1 h2 h3
      all_goals first | rfl | omega

end Spec

/-!
## The map of locked bytes

What a list of locks stands for: a type for each byte and each owner. The list of an inode is
grouped by owner behind the locks that are not POSIX locks.
-/

variable {Owner : Type u}

/-- The type that each owner has locked each byte with. -/
def ByteMap (Owner : Type u) : Type u :=
  Owner → Int → Option LockType

/-- The type that a request leaves on its range. -/
def LockType.held : LockType → Option LockType
  | .unlck => none
  | type => some type

/-- No byte is locked for writing by one owner and locked at all by another. -/
def Compatible (m : ByteMap Owner) : Prop :=
  ∀ o o' x, o ≠ o' → m o x = some .wrlck → m o' x = none

section

variable [DecidableEq Owner]

/-- Sets the bytes from `s` to `e` of an owner. -/
def ByteMap.setRange (m : ByteMap Owner) (o : Owner) (s e : Int) (type : LockType) : ByteMap Owner :=
  fun o' x => if o' = o ∧ s ≤ x ∧ x ≤ e then type.held else m o' x

/-- The POSIX locks of an owner. -/
def ownedBy (o : Owner) (l : FileLock Owner) : Bool :=
  decide (l.cls = .posix) && decide (l.owner = o)

/-- What a list stands for. -/
def byteMap (ls : List (FileLock Owner)) : ByteMap Owner :=
  fun o => typeAt (ls.filter (ownedBy o))

/-- A request that does not conflict keeps the owners compatible. -/
theorem Compatible.setRange {m : ByteMap Owner} (h : Compatible m) {o : Owner} {s e : Int}
    {type : LockType}
    (hfree : type ≠ .unlck → ∀ o' ≠ o, ∀ x, s ≤ x → x ≤ e → ∀ type', m o' x = some type' →
      type ≠ .wrlck ∧ type' ≠ .wrlck) :
    Compatible (m.setRange o s e type) := by
  intro o₁ o₂ x hne hw
  unfold ByteMap.setRange at hw ⊢
  split_ifs at hw with h1
  · obtain ⟨rfl, hlo, hhi⟩ := h1
    have htype : type = .wrlck := by
      cases type with
      | rdlck => cases hw
      | wrlck => rfl
      | unlck => cases hw
    rw [if_neg (fun h2 => hne h2.1.symm)]
    cases hm : m o₂ x with
    | none => rfl
    | some type' =>
      have := hfree (by rw [htype]; exact nofun) o₂ (Ne.symm hne) x hlo hhi type' hm
      exact absurd htype this.1
  · split_ifs with h2
    · obtain ⟨rfl, hlo, hhi⟩ := h2
      by_cases htype : type = .unlck
      · rw [htype]
        rfl
      · exact absurd rfl (hfree htype o₁ hne x hlo hhi _ hw).2
    · exact h o₁ o₂ x hne hw

end

/-! ## Groups -/

/-- A list in which the locks of each owner stand together, in order. -/
inductive Grouped : List (FileLock Owner) → Prop
  | nil : Grouped []
  | group {o : Owner} {g rest : List (FileLock Owner)} (hg : Group o g)
      (hother : ∀ l ∈ rest, l.owner ≠ o) (hrest : Grouped rest) : Grouped (g ++ rest)

/-- The locks of a new owner come last. -/
theorem Grouped.append {ls g : List (FileLock Owner)} {o : Owner} (h : Grouped ls)
    (hother : ∀ l ∈ ls, l.owner ≠ o) (hg : Group o g) : Grouped (ls ++ g) := by
  induction h with
  | nil =>
    rw [List.nil_append, ← List.append_nil g]
    exact .group hg nofun .nil
  | @group o₀ g₀ rest hg₀ hother₀ _ ih =>
    obtain ⟨hfirst, hrest⟩ := List.forall_mem_append.mp hother
    rw [List.append_assoc]
    cases g₀ with
    | nil => exact ih hrest
    | cons l g₀ =>
      have hne : o₀ ≠ o := by
        rw [← (hg₀.held l List.mem_cons_self).owner]
        exact hfirst l List.mem_cons_self
      refine .group hg₀ (List.forall_mem_append.mpr ⟨hother₀, ?_⟩) (ih hrest)
      intro l hl
      rw [(hg.held l hl).owner]
      exact Ne.symm hne

/-- The locks of an owner within a list, and what may stand in their place. -/
theorem Grouped.split {ls : List (FileLock Owner)} (h : Grouped ls) (o : Owner) :
    ∃ pre g post, ls = pre ++ (g ++ post) ∧ (∀ l ∈ pre, l.owner ≠ o) ∧ Group o g ∧
      (∀ l ∈ post, l.owner ≠ o) ∧ (g = [] → post = []) ∧
      ∀ g', Group o g' → Grouped (pre ++ (g' ++ post)) := by
  induction h with
  | nil =>
    refine ⟨[], [], [], rfl, nofun, .nil o, nofun, fun _ => rfl, ?_⟩
    intro g' hg'
    rw [List.nil_append]
    exact .group hg' nofun .nil
  | @group o₀ g₀ rest hg₀ hother₀ hrest ih =>
    by_cases ho : o₀ = o
    · subst ho
      by_cases hnil : g₀ = []
      · subst hnil
        refine ⟨rest, [], [], (List.append_nil _).symm, hother₀, .nil o₀, nofun, fun _ => rfl, ?_⟩
        intro g' hg'
        rw [List.append_nil]
        exact hrest.append hother₀ hg'
      · refine ⟨[], g₀, rest, rfl, nofun, hg₀, hother₀, fun h => absurd h hnil, ?_⟩
        intro g' hg'
        rw [List.nil_append]
        exact .group hg' hother₀ hrest
    obtain ⟨pre, g, post, rfl, hpre, hg, hpost, hempty, hclose⟩ := ih
    obtain ⟨hpre₀, hlast₀⟩ := List.forall_mem_append.mp hother₀
    obtain ⟨_, hpost₀⟩ := List.forall_mem_append.mp hlast₀
    refine ⟨g₀ ++ pre, g, post, (List.append_assoc _ _ _).symm, ?_, hg, hpost, hempty, ?_⟩
    · refine List.forall_mem_append.mpr ⟨?_, hpre⟩
      intro l hl
      rw [(hg₀.held l hl).owner]
      exact ho
    · intro g' hg'
      rw [List.append_assoc]
      refine .group hg₀ ?_ (hclose g' hg')
      refine List.forall_mem_append.mpr ⟨hpre₀, List.forall_mem_append.mpr ⟨?_, hpost₀⟩⟩
      intro l hl
      rw [(hg'.held l hl).owner]
      exact Ne.symm ho

section

variable [DecidableEq Owner] {o : Owner} {front pre g g' post : List (FileLock Owner)}

theorem filter_ownedBy_group (hg : Group o g) : g.filter (ownedBy o) = g := by
  refine List.filter_eq_self.mpr ?_
  intro l hl
  unfold ownedBy
  rw [decide_eq_true (hg.held l hl).posix, decide_eq_true (hg.held l hl).owner]
  rfl

theorem filter_ownedBy_other {o' : Owner} (h : ∀ l ∈ g, l.owner ≠ o') :
    g.filter (ownedBy o') = [] := by
  refine List.filter_eq_nil_iff.mpr ?_
  intro l hl howned
  unfold ownedBy at howned
  rw [Bool.and_eq_true, decide_eq_true_eq, decide_eq_true_eq] at howned
  exact h l hl howned.2

theorem filter_ownedBy_front (h : ∀ l ∈ front, l.cls ≠ .posix) (o' : Owner) :
    front.filter (ownedBy o') = [] := by
  refine List.filter_eq_nil_iff.mpr ?_
  intro l hl howned
  unfold ownedBy at howned
  rw [Bool.and_eq_true, decide_eq_true_eq, decide_eq_true_eq] at howned
  exact h l hl howned.1

/-- The map of the owner whose locks stand at a place. -/
theorem byteMap_group (hfront : ∀ l ∈ front, l.cls ≠ .posix) (hpre : ∀ l ∈ pre, l.owner ≠ o)
    (hg : Group o g) (hpost : ∀ l ∈ post, l.owner ≠ o) :
    byteMap (front ++ (pre ++ (g ++ post))) o = typeAt g := by
  unfold byteMap
  rw [List.filter_append, List.filter_append, List.filter_append, filter_ownedBy_front hfront,
    filter_ownedBy_other hpre, filter_ownedBy_group hg, filter_ownedBy_other hpost, List.append_nil]
  rfl

/-- The maps of other owners do not depend on it. -/
theorem byteMap_other {o' : Owner} (hne : o' ≠ o) (hg : Group o g) (hg' : Group o g') :
    byteMap (front ++ (pre ++ (g' ++ post))) o' = byteMap (front ++ (pre ++ (g ++ post))) o' := by
  have hgroup : ∀ {g : List (FileLock Owner)}, Group o g → g.filter (ownedBy o') = [] := by
    intro g hg
    refine filter_ownedBy_other ?_
    intro l hl
    rw [(hg.held l hl).owner]
    exact Ne.symm hne
  unfold byteMap
  simp only [List.filter_append, hgroup hg, hgroup hg']

/-- A byte that is locked lies in a lock. -/
theorem exists_of_byteMap {ls : List (FileLock Owner)} {x : Int} {type : LockType}
    (h : byteMap ls o x = some type) :
    ∃ l ∈ ls, l.cls = .posix ∧ l.owner = o ∧ l.start ≤ x ∧ x ≤ l.stop ∧ l.type = type := by
  unfold byteMap typeAt at h
  obtain ⟨l, hfind, htype⟩ := Option.map_eq_some_iff.mp h
  have hmem := List.mem_of_find?_eq_some hfind
  have hin := List.find?_some hfind
  obtain ⟨hl, howned⟩ := List.mem_filter.mp hmem
  unfold ownedBy at howned
  rw [Bool.and_eq_true, decide_eq_true_eq, decide_eq_true_eq] at howned hin
  exact ⟨l, hl, howned.1, howned.2, hin.1, hin.2, htype⟩

end

/-- The list of an inode. -/
structure ListOk [DecidableEq Owner] (ls : List (FileLock Owner)) : Prop where
  shape : ∃ front posix, ls = front ++ posix ∧ (∀ l ∈ front, l.cls ≠ .posix) ∧ Grouped posix
  compatible : Compatible (byteMap ls)

end AndroidKernel.Locks
