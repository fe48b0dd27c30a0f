import AndroidKernel.Library.Words

/-!
# Resource allocation

The resource tree of `kernel/resource.c`. A resource holds a range of addresses, both ends
included, and its children in the order of their sibling pointers. Addresses are words of `width`
bits, the size of `resource_size_t`, and arithmetic on them wraps.
-/

namespace AndroidKernel.Resource

/-- `struct resource`: the `child` pointer with the `sibling` pointers from it is `children`, and
`stop` is the source's `end`. -/
inductive Resource where
  | mk (start stop : Nat) (children : List Resource)

namespace Resource

def start : Resource → Nat
  | mk start _ _ => start

def stop : Resource → Nat
  | mk _ stop _ => stop

def children : Resource → List Resource
  | mk _ _ children => children

end Resource

/-- `-EBUSY`. -/
def ebusy : Int := -16

/-- What `__request_resource` does: it links the new resource, or it names a conflict. -/
inductive Requested where
  | linked (root : Resource)
  | conflict (other : Resource)

/-- The loop of `__request_resource` over the siblings: the list with the new resource in it, or
the sibling in its way. -/
def linkNew (new : Resource) : List Resource → Except Resource (List Resource)
  | [] => .ok [new]
  | tmp :: rest =>
    if new.stop < tmp.start then .ok (new :: tmp :: rest)
    else if tmp.stop < new.start then (linkNew new rest).map (tmp :: ·)
    else .error tmp

/-- `__request_resource`. -/
def requestResource (root new : Resource) : Requested :=
  if new.stop < new.start then .conflict root
  else if new.start < root.start then .conflict root
  else if root.stop < new.stop then .conflict root
  else
    match linkNew new root.children with
    | .ok children => .linked (.mk root.start root.stop children)
    | .error tmp => .conflict tmp

/-- The arguments of `allocate_resource` beside the two resources. -/
structure Request where
  size : Nat
  min : Nat
  max : Nat
  align : Nat

/-- The start of the candidate in a gap that begins at `start`. -/
def Request.alignedStart (req : Request) (width start : Nat) : Nat :=
  Library.align width (if start < req.min then req.min else start) req.align

/-- The end of the candidate in a gap that ends at `stop`. -/
def Request.clippedStop (req : Request) (stop : Nat) : Nat :=
  if req.max < stop then req.max else stop

/-- The test of the loop of `find_resource`. -/
def Request.Fits (req : Request) (start stop : Nat) : Prop :=
  start < stop ∧ req.size - 1 ≤ stop - start

instance (req : Request) (start stop : Nat) : Decidable (req.Fits start stop) :=
  inferInstanceAs (Decidable (_ ∧ _))

/-- The loop of `find_resource` from a new start and the siblings that are left. It returns the
start and the end it leaves in the new resource. -/
def findLoop (width : Nat) (root : Resource) (req : Request) :
    Nat → List Resource → Int × Nat × Nat
  | newStart, [] =>
    let start := req.alignedStart width newStart
    let stop := req.clippedStop root.stop
    if req.Fits start stop then (0, start, start + req.size - 1) else (ebusy, start, stop)
  | newStart, this :: rest =>
    let start := req.alignedStart width newStart
    let stop := req.clippedStop (this.start - 1)
    if req.Fits start stop then (0, start, start + req.size - 1)
    else findLoop width root req ((this.stop + 1) % 2 ^ width) rest

/-- `find_resource` without a callback. The first child is passed over when it starts at 0, so
`this.start - 1` never wraps. -/
def findResource (width : Nat) (root : Resource) (req : Request) : Int × Nat × Nat :=
  match root.children with
  | this :: rest =>
    if this.start = 0 then findLoop width root req ((this.stop + 1) % 2 ^ width) rest
    else findLoop width root req root.start (this :: rest)
  | [] => findLoop width root req root.start []

/-- What `allocate_resource` leaves: its result, the tree and the new resource. -/
structure Allocated where
  err : Int
  root : Resource
  new : Resource

/-- `allocate_resource` without a callback. -/
def allocateResource (width : Nat) (root new : Resource) (req : Request) : Allocated :=
  let found := findResource width root req
  let placed := Resource.mk found.2.1 found.2.2 new.children
  if 0 ≤ found.1 then
    match requestResource root placed with
    | .linked linked => ⟨found.1, linked, placed⟩
    | .conflict _ => ⟨ebusy, root, placed⟩
  else ⟨found.1, root, placed⟩

/-- A well-formed tree: every resource is a range of words, its children lie inside it, and they
are in order without an overlap. -/
inductive WellFormed (width : Nat) : Resource → Prop where
  | mk {start stop : Nat} {children : List Resource} (hle : start ≤ stop) (hword : stop < 2 ^ width)
      (hinside : ∀ child ∈ children, start ≤ child.start ∧ child.stop ≤ stop)
      (hordered : children.Pairwise fun first second => first.stop < second.start)
      (hchildren : ∀ child ∈ children, WellFormed width child) :
      WellFormed width (.mk start stop children)

/-- A request as the callers make it: at least one address, an alignment that is a power of two,
and bounds in order, all of them words. -/
structure Request.Valid (req : Request) (width : Nat) : Prop where
  size : 1 ≤ req.size
  sizeWord : req.size < 2 ^ width
  bounds : req.min ≤ req.max
  maxWord : req.max < 2 ^ width
  align : ∃ k < width, req.align = 2 ^ k

variable {width : Nat} {root c : Resource}

theorem WellFormed.le (h : WellFormed width root) : root.start ≤ root.stop := by
  cases h with
  | mk hle _ _ _ _ => exact hle

theorem WellFormed.word (h : WellFormed width root) : root.stop < 2 ^ width := by
  cases h with
  | mk _ hword _ _ _ => exact hword

theorem WellFormed.inside (h : WellFormed width root) (hchild : c ∈ root.children) :
    root.start ≤ c.start ∧ c.stop ≤ root.stop := by
  cases h with
  | mk _ _ hinside _ _ => exact hinside c hchild

theorem WellFormed.ordered (h : WellFormed width root) :
    root.children.Pairwise fun first second => first.stop < second.start := by
  cases h with
  | mk _ _ _ hordered _ => exact hordered

theorem WellFormed.child (h : WellFormed width root) (hchild : c ∈ root.children) :
    WellFormed width c := by
  cases h with
  | mk _ _ _ _ hchildren => exact hchildren c hchild

end AndroidKernel.Resource
