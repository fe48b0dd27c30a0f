import AndroidKernel.Pid.Alloc

/-!
# Allocation in a chain of namespaces

Read `alloc_pid_atomic` first. The namespaces of a chain differ, so what `alloc_pidmap` does in one
does not depend on the others, and giving back is the inverse of taking level by level.
-/

/-!
## Pids in a chain of namespaces

`alloc_pid` and `find_pid_ns`. A namespace and a `struct pid` are known by a number in place of
their address. Each allocation of a bitmap page may fail, and so may that of the `struct pid`.
-/

namespace AndroidKernel.Pid

/-- `struct upid`: a number and the namespace that it is of. -/
structure Upid where
  nr : Nat
  ns : Nat
deriving DecidableEq

/-- An entry of `pid_hash`, which is `numbers[index]` of a `struct pid`. -/
structure HashEntry where
  upid : Upid
  pid : Nat
  index : Nat

/-- The namespaces, with the `level` and `parent` of each, and `pid_hash`. -/
structure Pids where
  ns : Nat → PidNamespace
  level : Nat → Nat
  parent : Nat → Nat
  pidHash : Nat → List HashEntry

/-- What a call gets from outside: `pid_max`, the bucket that `pid_hashfn` chooses, which page
allocations succeed, and whether there is memory for the `struct pid`. -/
structure Context where
  pidMax : Nat
  pidHashfn : Upid → Nat
  memory : Nat → Nat → Bool
  cache : Bool

/-- Writes one namespace. -/
def Pids.setNs (w : Pids) (x : Nat) (ns : PidNamespace) : Pids :=
  { w with ns := Function.update w.ns x ns }

/-- What `alloc_pidmap` does to a namespace of the chain. -/
def Pids.allocIn (ctx : Context) (w : Pids) (x : Nat) : PidNamespace × Option Nat :=
  allocPidmap (ctx.memory x) ctx.pidMax (w.ns x)

/-- The loop of `alloc_pid` that takes the numbers, at the levels below its first argument. It
returns `pid->numbers` and the level at which it failed. -/
def takeNumbers (ctx : Context) : Nat → Nat → (Nat → Upid) → Pids →
    Pids × (Nat → Upid) × Option Nat
  | 0, _, numbers, w => (w, numbers, none)
  | i + 1, tmp, numbers, w =>
    match w.allocIn ctx tmp with
    | (ns, none) => (w.setNs tmp ns, numbers, some i)
    | (ns, some nr) =>
      takeNumbers ctx i (w.parent tmp) (Function.update numbers i ⟨nr, tmp⟩) (w.setNs tmp ns)

/-- The loop at `out_free`, `n` times from level `i` on. -/
def releaseNumbers (numbers : Nat → Upid) : Nat → Nat → Pids → Pids
  | 0, _, w => w
  | n + 1, i, w =>
    let upid := numbers i
    releaseNumbers numbers n (i + 1) (w.setNs upid.ns (freePidmap upid.nr (w.ns upid.ns)))

/-- The loop of `alloc_pid` that links the numbers, at the levels below its second argument. -/
def linkNumbers (ctx : Context) (numbers : Nat → Upid) (pid : Nat) :
    Nat → (Nat → List HashEntry) → Nat → List HashEntry
  | 0, hash => hash
  | i + 1, hash =>
    let bucket := ctx.pidHashfn (numbers i)
    linkNumbers ctx numbers pid i
      (Function.update hash bucket (⟨numbers i, pid, i⟩ :: hash bucket))

/-- `alloc_pid`, with `pid` for the `struct pid` if there is memory for it. -/
def allocPid (ctx : Context) (w : Pids) (pid ns : Nat) : Pids × Option Nat :=
  if ctx.cache then
    match takeNumbers ctx (w.level ns + 1) ns (fun _ => ⟨0, 0⟩) w with
    | (w, numbers, none) =>
      ({ w with pidHash := linkNumbers ctx numbers pid (w.level ns + 1) w.pidHash }, some pid)
    | (w, numbers, some i) => (releaseNumbers numbers (w.level ns - i) (i + 1) w, none)
  else (w, none)

/-- What `container_of` makes of an entry: the entry's `struct pid` if the entry is the member that
is asked for, else an address as many members away. -/
structure PidPtr where
  pid : Nat
  shift : Int
deriving DecidableEq

/-- `find_pid_ns`. -/
def findPidNs (ctx : Context) (w : Pids) (nr ns : Nat) : Option PidPtr :=
  ((w.pidHash (ctx.pidHashfn ⟨nr, ns⟩)).find? fun pnr => pnr.upid.nr = nr ∧ pnr.upid.ns = ns).map
    fun pnr => ⟨pnr.pid, pnr.index - w.level ns⟩

/-- The namespaces from `ns` outwards, `n` of them. -/
def Pids.chain (w : Pids) : Nat → Nat → List Nat
  | 0, _ => []
  | n + 1, ns => ns :: w.chain n (w.parent ns)

/-- The namespaces that a pid of `ns` has a number in. -/
def Pids.ancestors (w : Pids) (ns : Nat) : List Nat :=
  w.chain (w.level ns + 1) ns

/-- A parent is one level below. -/
def Pids.Leveled (w : Pids) : Prop :=
  ∀ x, w.level x ≠ 0 → w.level (w.parent x) + 1 = w.level x

open Library

/-! ## One namespace -/

/-- The same pids are in use, and as many are counted as free. -/
structure SameUse (ns ns' : PidNamespace) : Prop where
  bits : ∀ i, (ns'.pidmap i).bits = (ns.pidmap i).bits
  nrFree : ∀ i, (ns'.pidmap i).nrFree = (ns.pidmap i).nrFree

/-- A pid that was free has been taken, and nothing else. -/
structure Took (ns : PidNamespace) (nr : Nat) (ns' : PidNamespace) : Prop where
  clear : (ns.pidmap (nr / bitsPerPage)).bits (nr % bitsPerPage) = false
  page : ((ns'.pidmap (nr / bitsPerPage)).page).isSome
  bits : (ns'.pidmap (nr / bitsPerPage)).bits =
    Function.update (ns.pidmap (nr / bitsPerPage)).bits (nr % bitsPerPage) true
  nrFree : (ns'.pidmap (nr / bitsPerPage)).nrFree = (ns.pidmap (nr / bitsPerPage)).nrFree - 1
  other : ∀ i, i ≠ nr / bitsPerPage → (ns'.pidmap i).bits = (ns.pidmap i).bits ∧
    (ns'.pidmap i).nrFree = (ns.pidmap i).nrFree

/-- What a call of the allocator leaves, with its result. -/
def Leaves (ns : PidNamespace) : PidNamespace × Option Nat → Prop
  | (ns', none) => SameUse ns ns'
  | (ns', some nr) => Took ns nr ns'

variable {ns ns' ns₁ : PidNamespace} {nr pid map offset fuel : Nat} {page : Bitmap}

theorem SameUse.refl (ns : PidNamespace) : SameUse ns ns :=
  ⟨fun _ => rfl, fun _ => rfl⟩

theorem SameUse.trans (h : SameUse ns ns₁) (h' : SameUse ns₁ ns') : SameUse ns ns' :=
  ⟨fun i => (h'.bits i).trans (h.bits i), fun i => (h'.nrFree i).trans (h.nrFree i)⟩

theorem SameUse.used (h : SameUse ns ns') (nr : Nat) : ns'.used nr = ns.used nr := by
  unfold PidNamespace.used
  rw [h.bits]

theorem SameUse.took (h : SameUse ns ns₁) (h' : Took ns₁ nr ns') : Took ns nr ns' where
  clear := by
    rw [← h.bits]
    exact h'.clear
  page := h'.page
  bits := by
    rw [← h.bits]
    exact h'.bits
  nrFree := by
    rw [← h.nrFree]
    exact h'.nrFree
  other i hi := by
    rw [← h.bits, ← h.nrFree]
    exact h'.other i hi

theorem SameUse.leaves {out : PidNamespace × Option Nat} (h : SameUse ns ns₁)
    (h' : Leaves ns₁ out) : Leaves ns out := by
  obtain ⟨ns', _ | nr⟩ := out
  · exact h.trans h'
  · exact h.took h'

/-- Exactly one number is used afterwards that was free before. -/
theorem Took.used (h : Took ns nr ns') :
    ns.used nr = false ∧ ∀ p, ns'.used p = if p = nr then true else ns.used p := by
  refine ⟨h.clear, ?_⟩
  intro p
  unfold PidNamespace.used
  by_cases hmap : p / bitsPerPage = nr / bitsPerPage
  · rw [hmap, h.bits]
    by_cases hp : p = nr
    · rw [hp, Function.update_self, if_pos rfl]
    · have hne : p % bitsPerPage ≠ nr % bitsPerPage := by
        intro hmod
        have hdiv := Nat.div_add_mod p bitsPerPage
        rw [hmap, hmod, Nat.div_add_mod] at hdiv
        exact hp hdiv.symm
      rw [Function.update_of_ne hne, if_neg hp]
  · have hp : p ≠ nr := fun hp => hmap (by rw [hp])
    rw [(h.other _ hmap).1, if_neg hp]

/-- Giving back what was taken. -/
theorem Took.free (h : Took ns nr ns') : SameUse ns (freePidmap nr ns') := by
  obtain ⟨page, hpage⟩ := Option.isSome_iff_exists.mp h.page
  have hbits := h.bits
  have hpageBits : (ns'.pidmap (nr / bitsPerPage)).bits = page := by
    unfold Pidmap.bits
    rw [hpage]
    rfl
  rw [hpageBits] at hbits
  have hclear := h.clear
  constructor
  · intro i
    by_cases hi : i = nr / bitsPerPage
    · subst hi
      simp only [freePidmap, PidNamespace.setMap, Function.update_self, Pidmap.bits, hpage,
        Option.map_some, Option.getD_some]
      rw [hbits, Function.update_idem]
      exact Function.update_eq_self_iff.mpr hclear.symm
    · simp only [freePidmap, PidNamespace.setMap, Function.update_of_ne hi]
      exact (h.other i hi).1
  intro i
  by_cases hi : i = nr / bitsPerPage
  · subst hi
    simp only [freePidmap, PidNamespace.setMap, Function.update_self]
    have := h.nrFree
    omega
  · simp only [freePidmap, PidNamespace.setMap, Function.update_of_ne hi]
    exact (h.other i hi).2

/-- The bit that the loop over one page takes is clear. -/
theorem tryOffsets_took {pidMax last o p : Nat} {final : Bool} (hoff : offset < bitsPerPage)
    (h : tryOffsets pidMax last map final page fuel offset (mkPid map offset) = some (o, p)) :
    p = mkPid map o ∧ o < bitsPerPage ∧ page o = false := by
  induction fuel generalizing offset with
  | zero => cases h
  | succ fuel ih =>
    rw [tryOffsets] at h
    dsimp only at h
    split_ifs at h with hclear hgo
    · cases h
      exact ⟨rfl, hoff, hclear⟩
    · exact ih hgo.1 h

theorem sameUse_setMap {x : Pidmap} (hbits : x.bits = (ns.pidmap map).bits)
    (hfree : x.nrFree = (ns.pidmap map).nrFree) : SameUse ns (ns.setMap map x) := by
  constructor
  · intro i
    by_cases hi : i = map
    · rw [hi, PidNamespace.setMap]
      simpa only [Function.update_self] using hbits
    · simp only [PidNamespace.setMap, Function.update_of_ne hi]
  · intro i
    by_cases hi : i = map
    · rw [hi, PidNamespace.setMap]
      simpa only [Function.update_self] using hfree
    · simp only [PidNamespace.setMap, Function.update_of_ne hi]

/-- Making a page changes no bit. -/
theorem ensurePage_same (memory : Nat → Bool) (map : Nat) (ns : PidNamespace) :
    SameUse ns (ensurePage memory map ns).1 ∧
      ∀ page, (ensurePage memory map ns).2 = some page →
        ((ensurePage memory map ns).1.pidmap map).page = some page := by
  unfold ensurePage
  cases hpage : (ns.pidmap map).page with
  | some page =>
    refine ⟨.refl ns, ?_⟩
    intro page' heq
    rw [← heq]
    exact hpage
  | none =>
    dsimp only
    split_ifs with hmem
    · refine ⟨sameUse_setMap ?_ rfl, ?_⟩
      · unfold Pidmap.bits
        rw [hpage]
        rfl
      · intro page heq
        rw [← heq]
        simp only [PidNamespace.setMap, Function.update_self]
    · exact ⟨.refl ns, by rintro _ ⟨⟩⟩

/-- Setting a clear bit of a page that is there takes its pid. -/
theorem takePid_took (hpage : (ns.pidmap map).page = some page) (hoff : offset < bitsPerPage)
    (hclear : page offset = false) :
    Took ns (mkPid map offset) (takePid map offset (mkPid map offset) page ns) := by
  obtain ⟨hdiv, hmod⟩ := @mkPid_div map offset hoff
  have hbits : (ns.pidmap map).bits = page := by
    unfold Pidmap.bits
    rw [hpage]
    rfl
  have hself : (takePid map offset (mkPid map offset) page ns).pidmap map =
      { nrFree := (ns.pidmap map).nrFree - 1, page := some (Function.update page offset true) } :=
    Function.update_self _ _ _
  constructor
  · rw [hdiv, hmod, hbits]
    exact hclear
  · rw [hdiv, hself]
    rfl
  · rw [hdiv, hmod, hself, hbits]
    rfl
  · rw [hdiv, hself]
  · intro i hi
    rw [hdiv] at hi
    have hsame : (takePid map offset (mkPid map offset) page ns).pidmap i = ns.pidmap i :=
      Function.update_of_ne hi _ _
    rw [hsame]
    exact ⟨rfl, rfl⟩

/-- A scan takes one free pid, or it leaves what is in use alone. -/
theorem scanMaps_leaves {memory : Nat → Bool} {pidMax last rounds : Nat}
    (hoff : offset < bitsPerPage) :
    Leaves ns (scanMaps memory pidMax last rounds map offset (mkPid map offset) ns) := by
  induction rounds generalizing map offset ns with
  | zero => exact .refl ns
  | succ rounds ih =>
    rw [scanMaps]
    obtain ⟨hsame, hpage⟩ := ensurePage_same memory map ns
    generalize ensurePage memory map ns = ensured at hsame hpage ⊢
    obtain ⟨ns₁, _ | page⟩ := ensured
    · exact hsame
    have hpage := hpage page rfl
    dsimp only at hsame hpage ⊢
    cases hfound : (if (ns₁.pidmap map).nrFree ≠ 0 then
        tryOffsets pidMax last map (rounds = 0) page (bitsPerPage + 1) offset (mkPid map offset)
      else none) with
    | some found =>
      obtain ⟨o, p⟩ := found
      split_ifs at hfound with hfree
      obtain ⟨rfl, ho, hclear⟩ := tryOffsets_took hoff hfound
      exact hsame.took (takePid_took hpage ho hclear)
    | none =>
      dsimp only
      split_ifs with hmap hlast
      · exact hsame.leaves (ih (by decide))
      · exact hsame
      · exact hsame.leaves (ih (by decide))

theorem allocPidmap_leaves (memory : Nat → Bool) (pidMax : Nat) (ns : PidNamespace) :
    Leaves ns (allocPidmap memory pidMax ns) := by
  have hpos : 0 < bitsPerPage := by decide
  have hpid := mkPid_div_mod (firstPid pidMax ns.lastPid)
  unfold allocPidmap
  dsimp only
  conv => arg 2; arg 7; rw [← hpid]
  exact scanMaps_leaves (Nat.mod_lt _ hpos)

/-! ## The chain -/

variable {ctx : Context} {w w' : Pids} {numbers : Nat → Upid} {x tmp i n p : Nat}

@[simp] theorem level_setNs (w : Pids) (x : Nat) (ns : PidNamespace) :
    (w.setNs x ns).level = w.level :=
  rfl

@[simp] theorem ns_setNs_self (w : Pids) (x : Nat) (ns : PidNamespace) :
    (w.setNs x ns).ns x = ns :=
  Function.update_self _ _ _

theorem ns_setNs_of_ne {y : Nat} (h : y ≠ x) : (w.setNs x ns).ns y = w.ns y :=
  Function.update_of_ne h _ _

/-- Only namespaces may differ. -/
structure SameLinks (w w' : Pids) : Prop where
  level : w'.level = w.level
  parent : w'.parent = w.parent
  pidHash : w'.pidHash = w.pidHash

theorem SameLinks.leveled (h : SameLinks w w') (hw : w.Leveled) : w'.Leveled := by
  intro x hx
  rw [h.level] at hx
  rw [h.level, h.parent]
  exact hw x hx

theorem SameLinks.chain (h : SameLinks w w') (n x : Nat) : w'.chain n x = w.chain n x := by
  induction n generalizing x with
  | zero => rfl
  | succ n ih => rw [Pids.chain, Pids.chain, ih, h.parent]

/-- The namespaces outwards from one of level `n - 1` have the levels below `n`. -/
theorem Pids.Leveled.level_lt (hw : w.Leveled) (htmp : n ≠ 0 → n = w.level tmp + 1)
    (hx : x ∈ w.chain n tmp) : w.level x < n := by
  induction n generalizing tmp with
  | zero => cases hx
  | succ n ih =>
    have htmp := htmp (Nat.succ_ne_zero n)
    rcases List.mem_cons.mp hx with rfl | hx
    · omega
    · have := ih (fun hn => by have := hw tmp (by omega); omega) hx
      omega

/-- A number that was taken at the level of its namespace. -/
structure TakenAt (ctx : Context) (w : Pids) (numbers : Nat → Upid) (w' : Pids) (x : Nat) :
    Prop where
  ns : (numbers (w.level x)).ns = x
  nr : (w.allocIn ctx x).2 = some (numbers (w.level x)).nr
  world : w'.ns x = (w.allocIn ctx x).1

/-- What the loop that takes the numbers does to a namespace of the chain when it fails at level
`i`: levels above have a number, the scan at the level failed, and those below were not reached. -/
structure FailedAt (ctx : Context) (w : Pids) (numbers : Nat → Upid) (w' : Pids) (i x : Nat) :
    Prop where
  above : i < w.level x → TakenAt ctx w numbers w' x
  here : w.level x = i → w'.ns x = (w.allocIn ctx x).1 ∧ (w.allocIn ctx x).2 = none
  below : w.level x < i → w'.ns x = w.ns x

/-- What the loop that takes the numbers leaves. -/
structure TookAll (ctx : Context) (w : Pids) (n tmp : Nat) (old : Nat → Upid)
    (out : Pids × (Nat → Upid) × Option Nat) : Prop where
  links : SameLinks w out.1
  numbers : ∀ j, n ≤ j → out.2.1 j = old j
  outside : ∀ x, x ∉ w.chain n tmp → out.1.ns x = w.ns x
  taken : out.2.2 = none → ∀ x ∈ w.chain n tmp, TakenAt ctx w out.2.1 out.1 x
  failed : ∀ i, out.2.2 = some i → i < n ∧ (∃ y ∈ w.chain n tmp, w.level y = i) ∧
    ∀ x ∈ w.chain n tmp, FailedAt ctx w out.2.1 out.1 i x

theorem allocIn_setNs_of_ne {ns : PidNamespace} (h : x ≠ tmp) :
    (w.setNs tmp ns).allocIn ctx x = w.allocIn ctx x := by
  unfold Pids.allocIn
  rw [ns_setNs_of_ne h]

theorem takeNumbers_spec (hw : w.Leveled) (htmp : n ≠ 0 → n = w.level tmp + 1) :
    TookAll ctx w n tmp numbers (takeNumbers ctx n tmp numbers w) := by
  induction n generalizing tmp numbers w with
  | zero => exact ⟨⟨rfl, rfl, rfl⟩, fun _ _ => rfl, fun _ _ => rfl, fun _ => nofun, nofun⟩
  | succ i ih =>
    have htmp := htmp (Nat.succ_ne_zero i)
    have hlower : i ≠ 0 → i = w.level (w.parent tmp) + 1 := by
      intro hi
      have := hw tmp (by omega)
      omega
    have hlt : ∀ x ∈ w.chain i (w.parent tmp), w.level x < i := fun x hx => hw.level_lt hlower hx
    have hself : tmp ∉ w.chain i (w.parent tmp) := by
      intro hmem
      have := hlt tmp hmem
      omega
    rw [takeNumbers]
    cases halloc : w.allocIn ctx tmp with
    | mk ns out =>
      have hlinks : SameLinks w (w.setNs tmp ns) := ⟨rfl, rfl, rfl⟩
      cases out with
      | none =>
        refine ⟨hlinks, fun _ _ => rfl, ?_, nofun, ?_⟩
        · intro x hx
          exact ns_setNs_of_ne fun heq => hx (heq ▸ List.mem_cons_self)
        intro j hj
        obtain rfl := Option.some.inj hj
        refine ⟨Nat.lt_succ_self _, ⟨tmp, List.mem_cons_self, by omega⟩, ?_⟩
        intro x hx
        rcases List.mem_cons.mp hx with rfl | hx
        · refine ⟨fun h => by omega, fun _ => ?_, fun h => by omega⟩
          rw [halloc]
          exact ⟨ns_setNs_self _ _ _, rfl⟩
        · have := hlt x hx
          exact ⟨fun h => by omega, fun h => by omega,
            fun _ => ns_setNs_of_ne fun heq => hself (heq ▸ hx)⟩
      | some nr =>
        dsimp only
        have hrest := @ih (w.setNs tmp ns) (Function.update numbers i ⟨nr, tmp⟩) (w.parent tmp)
          (hlinks.leveled hw) hlower
        generalize takeNumbers ctx i (w.parent tmp) (Function.update numbers i ⟨nr, tmp⟩)
          (w.setNs tmp ns) = out at hrest ⊢
        obtain ⟨hlinks', hnumbers, houtside, htaken, hfailed⟩ := hrest
        rw [hlinks.chain] at houtside htaken hfailed
        -- the innermost namespace is left as it is from here on
        have htop : TakenAt ctx w out.2.1 out.1 tmp := by
          have hnumber : out.2.1 (w.level tmp) = ⟨nr, tmp⟩ := by
            rw [show w.level tmp = i by omega, hnumbers i (Nat.le_refl i), Function.update_self]
          refine ⟨by rw [hnumber], by rw [hnumber, halloc], ?_⟩
          rw [houtside tmp hself, ns_setNs_self, halloc]
        have hkeep : ∀ x ∈ w.chain i (w.parent tmp),
            TakenAt ctx (w.setNs tmp ns) out.2.1 out.1 x → TakenAt ctx w out.2.1 out.1 x := by
          intro x hx h
          have hsame := @allocIn_setNs_of_ne ctx w x tmp ns fun heq => hself (heq ▸ hx)
          exact ⟨h.ns, hsame ▸ h.nr, hsame ▸ h.world⟩
        refine ⟨⟨hlinks'.level, hlinks'.parent, hlinks'.pidHash⟩, ?_, ?_, ?_, ?_⟩
        · intro j hj
          rw [hnumbers j (by omega), Function.update_of_ne (by omega)]
        · intro x hx
          rw [Pids.chain, List.mem_cons, not_or] at hx
          rw [houtside x hx.2, ns_setNs_of_ne hx.1]
        · intro hnone x hx
          rcases List.mem_cons.mp hx with rfl | hx
          · exact htop
          · exact hkeep x hx (htaken hnone x hx)
        intro j hj
        obtain ⟨hji, ⟨y, hy, hlevel⟩, hall⟩ := hfailed j hj
        refine ⟨by omega, ⟨y, List.mem_cons_of_mem _ hy, hlevel⟩, ?_⟩
        intro x hx
        rcases List.mem_cons.mp hx with rfl | hx
        · exact ⟨fun _ => htop, fun h => by omega, fun h => by omega⟩
        · obtain ⟨habove, hhere, hbelow⟩ := hall x hx
          have hne : x ≠ tmp := fun heq => hself (heq ▸ hx)
          rw [allocIn_setNs_of_ne hne] at hhere
          rw [ns_setNs_of_ne hne] at hbelow
          exact ⟨fun h => hkeep x hx (habove h), hhere, hbelow⟩

/-- Giving back the numbers of some levels, each in its own namespace. -/
theorem releaseNumbers_spec (hnumbers : ∀ j, i ≤ j → j < i + n → w.level (numbers j).ns = j) :
    SameLinks w (releaseNumbers numbers n i w) ∧
      ∀ x, (releaseNumbers numbers n i w).ns x =
        if i ≤ w.level x ∧ w.level x < i + n ∧ (numbers (w.level x)).ns = x then
          freePidmap (numbers (w.level x)).nr (w.ns x)
        else w.ns x := by
  induction n generalizing i w with
  | zero => exact ⟨⟨rfl, rfl, rfl⟩, fun x => by rw [if_neg (by omega)]; rfl⟩
  | succ n ih =>
    rw [releaseNumbers]
    generalize hfreed : freePidmap (numbers i).nr (w.ns (numbers i).ns) = freed
    have hfirst := hnumbers i (Nat.le_refl i) (by omega)
    obtain ⟨hlinks, hns⟩ := @ih (w.setNs (numbers i).ns freed) (i + 1)
      fun j hj hlt => hnumbers j (by omega) (by omega)
    refine ⟨⟨hlinks.level, hlinks.parent, hlinks.pidHash⟩, ?_⟩
    intro x
    rw [hns x, level_setNs]
    by_cases hx : x = (numbers i).ns
    · subst hx
      rw [hfirst, if_neg (by omega), if_pos ⟨Nat.le_refl i, by omega, rfl⟩, ns_setNs_self, hfreed]
    · rw [ns_setNs_of_ne hx]
      by_cases hlevel : w.level x = i
      · rw [hlevel, if_neg (by omega), if_neg fun h => hx h.2.2.symm]
      · exact if_congr (by omega) rfl rfl

/-- The entries that the second loop of `alloc_pid` adds to a bucket. -/
def newEntries (ctx : Context) (numbers : Nat → Upid) (pid n bucket : Nat) : List HashEntry :=
  ((List.range n).map fun j => ⟨numbers j, pid, j⟩).filter fun e => ctx.pidHashfn e.upid = bucket

theorem linkNumbers_eq (ctx : Context) (numbers : Nat → Upid) (pid n : Nat)
    (hash : Nat → List HashEntry) (bucket : Nat) :
    linkNumbers ctx numbers pid n hash bucket =
      newEntries ctx numbers pid n bucket ++ hash bucket := by
  induction n generalizing hash with
  | zero => rfl
  | succ n ih =>
    rw [linkNumbers, ih]
    unfold newEntries
    rw [List.range_succ, List.map_append, List.filter_append, List.append_assoc]
    congr 1
    by_cases hb : ctx.pidHashfn (numbers n) = bucket
    · rw [hb, Function.update_self]
      simp [hb]
    · rw [Function.update_of_ne (Ne.symm hb)]
      simp [hb]

/-- Every level below has a namespace in the chain. -/
theorem Pids.Leveled.exists_level (hw : w.Leveled) (htmp : n ≠ 0 → n = w.level tmp + 1) {j : Nat}
    (hj : j < n) : ∃ y ∈ w.chain n tmp, w.level y = j := by
  induction n generalizing tmp with
  | zero => cases hj
  | succ n ih =>
    have htmp := htmp (Nat.succ_ne_zero n)
    by_cases hjn : j = n
    · exact ⟨tmp, List.mem_cons_self, by omega⟩
    · have hparent : n ≠ 0 → n = w.level (w.parent tmp) + 1 := by
        intro hn
        have := hw tmp (by omega)
        omega
      obtain ⟨y, hy, hlevel⟩ := ih hparent (by omega)
      exact ⟨y, List.mem_cons_of_mem _ hy, hlevel⟩

/-- The first entry for a number of the new pid is the new pid's. -/
theorem find_newEntries (hlevels : ∀ j < n, w.level (numbers j).ns = j) {j : Nat} (hj : j < n)
    (pid : Nat) (hash : Nat → List HashEntry) :
    findPidNs ctx { w with pidHash := linkNumbers ctx numbers pid n hash } (numbers j).nr
      (numbers j).ns = some ⟨pid, 0⟩ := by
  unfold findPidNs
  dsimp only
  rw [linkNumbers_eq, List.find?_append]
  generalize hfind : (newEntries ctx numbers pid n (ctx.pidHashfn ⟨(numbers j).nr, (numbers j).ns⟩)).find?
    (fun pnr => decide (pnr.upid.nr = (numbers j).nr ∧ pnr.upid.ns = (numbers j).ns)) = found
  cases found with
  | none =>
    have hmem : (⟨numbers j, pid, j⟩ : HashEntry) ∈
        newEntries ctx numbers pid n (ctx.pidHashfn ⟨(numbers j).nr, (numbers j).ns⟩) :=
      List.mem_filter.mpr ⟨List.mem_map.mpr ⟨j, List.mem_range.mpr hj, rfl⟩, by simp⟩
    have hno := List.find?_eq_none.mp hfind _ hmem
    simp at hno
  | some e =>
    have hmatch := List.find?_some hfind
    have hmem := List.mem_of_find?_eq_some hfind
    obtain ⟨k, hk, rfl⟩ := List.mem_map.mp (List.mem_filter.mp hmem).1
    have hk := hlevels k (List.mem_range.mp hk)
    have hj := hlevels j hj
    simp only [decide_eq_true_eq] at hmatch
    rw [hmatch.2, hj] at hk
    subst hk
    rw [Option.some_or, Option.map_some, hj, Int.sub_self]

/-! ## The call -/

/-- Every namespace has the same pids in use and the same counts, and `pid_hash` is the same. -/
structure Unchanged (w w' : Pids) : Prop where
  links : SameLinks w w'
  used : ∀ x p, (w'.ns x).used p = (w.ns x).used p
  nrFree : ∀ x i, ((w'.ns x).pidmap i).nrFree = ((w.ns x).pidmap i).nrFree

/-- The new pid has one number in each namespace of the chain, by which it is found there. -/
structure Numbered (ctx : Context) (w : Pids) (pid ns : Nat) (w' : Pids) : Prop where
  outside : ∀ x, x ∉ w.ancestors ns → w'.ns x = w.ns x
  number : ∀ x ∈ w.ancestors ns, ∃ nr, (w.ns x).used nr = false ∧
    (∀ p, (w'.ns x).used p = if p = nr then true else (w.ns x).used p) ∧
    findPidNs ctx w' nr x = some ⟨pid, 0⟩

/-- The roll-back of a failure at level `i`. -/
theorem unchanged_of_failed {ns : Nat} {out : Pids × (Nat → Upid) × Option Nat} (hw : w.Leveled)
    (h : TookAll ctx w (w.level ns + 1) ns numbers out) (hi : out.2.2 = some i) :
    Unchanged w (releaseNumbers out.2.1 (w.level ns - i) (i + 1) out.1) := by
  obtain ⟨hin, -, hall⟩ := h.failed i hi
  have hlevels : ∀ j, i + 1 ≤ j → j < i + 1 + (w.level ns - i) →
      out.1.level (out.2.1 j).ns = j := by
    intro j hj hlt
    obtain ⟨y, hy, rfl⟩ := hw.exists_level (fun _ => rfl) (by omega : j < w.level ns + 1)
    rw [((hall y hy).above hj).ns, h.links.level]
  obtain ⟨hlinks, hns⟩ := releaseNumbers_spec hlevels
  have hsame : ∀ x, SameUse (w.ns x)
      ((releaseNumbers out.2.1 (w.level ns - i) (i + 1) out.1).ns x) := by
    intro x
    rw [hns x, h.links.level]
    by_cases hx : x ∈ w.chain (w.level ns + 1) ns
    · have hlt := hw.level_lt (fun _ => rfl) hx
      have hleaves := allocPidmap_leaves (ctx.memory x) ctx.pidMax (w.ns x)
      have hcall : allocPidmap (ctx.memory x) ctx.pidMax (w.ns x) =
        ((w.allocIn ctx x).1, (w.allocIn ctx x).2) := rfl
      rw [hcall] at hleaves
      rcases Nat.lt_trichotomy (w.level x) i with hbelow | hhere | habove
      · rw [if_neg (by omega), (hall x hx).below hbelow]
        exact .refl _
      · obtain ⟨hworld, hnone⟩ := (hall x hx).here hhere
        rw [if_neg (by omega), hworld]
        rw [hnone] at hleaves
        exact hleaves
      · have htaken := (hall x hx).above habove
        rw [if_pos ⟨habove, by omega, htaken.ns⟩, htaken.world]
        rw [htaken.nr] at hleaves
        exact Took.free hleaves
    rw [h.outside x hx]
    split_ifs with hcond
    · -- a level in between belongs to a namespace of the chain
      obtain ⟨y, hy, hlevel⟩ :=
        hw.exists_level (fun _ => rfl) (by omega : w.level x < w.level ns + 1)
      have htaken := (hall y hy).above (by omega)
      have hxy : y = x := by
        rw [← htaken.ns, hlevel]
        exact hcond.2.2
      exact absurd (hxy ▸ hy) hx
    · exact .refl _
  exact ⟨⟨hlinks.level.trans h.links.level, hlinks.parent.trans h.links.parent,
    hlinks.pidHash.trans h.links.pidHash⟩, fun x => (hsame x).used, fun x => (hsame x).nrFree⟩

theorem numbered_of_taken {ns : Nat} {out : Pids × (Nat → Upid) × Option Nat} (hw : w.Leveled)
    (h : TookAll ctx w (w.level ns + 1) ns numbers out) (hnone : out.2.2 = none) (pid : Nat)
    (hash : Nat → List HashEntry) :
    Numbered ctx w pid ns
      { out.1 with pidHash := linkNumbers ctx out.2.1 pid (w.level ns + 1) hash } := by
  have htaken := h.taken hnone
  have hlevels : ∀ j < w.level ns + 1, out.1.level (out.2.1 j).ns = j := by
    intro j hj
    obtain ⟨y, hy, rfl⟩ := hw.exists_level (fun _ => rfl) hj
    rw [(htaken y hy).ns, h.links.level]
  refine ⟨h.outside, ?_⟩
  intro x hx
  have hleaves := allocPidmap_leaves (ctx.memory x) ctx.pidMax (w.ns x)
  have hcall : allocPidmap (ctx.memory x) ctx.pidMax (w.ns x) =
    ((w.allocIn ctx x).1, (w.allocIn ctx x).2) := rfl
  rw [hcall, (htaken x hx).nr, ← (htaken x hx).world] at hleaves
  obtain ⟨hfree, hused⟩ := Took.used hleaves
  refine ⟨_, hfree, hused, ?_⟩
  have hfind := @find_newEntries ctx out.1 out.2.1 (w.level ns + 1) hlevels _
    (hw.level_lt (fun _ => rfl) hx) pid hash
  rw [(htaken x hx).ns] at hfind
  exact hfind

/-- `alloc_pid` fails exactly when there is no memory for the `struct pid` or `alloc_pidmap` fails
at some level, and then nothing has changed; else each level has one number more in use, by
which the new pid is found. -/
theorem alloc_pid_atomic (ctx : Context) {w : Pids} (hw : w.Leveled) (pid ns : Nat) :
    ((allocPid ctx w pid ns).2 = none ↔
        ctx.cache = false ∨ ∃ x ∈ w.ancestors ns, (w.allocIn ctx x).2 = none) ∧
      ((allocPid ctx w pid ns).2 = none → Unchanged w (allocPid ctx w pid ns).1) ∧
      ∀ p, (allocPid ctx w pid ns).2 = some p →
        p = pid ∧ Numbered ctx w pid ns (allocPid ctx w pid ns).1 := by
  unfold allocPid
  cases hcache : ctx.cache with
  | false =>
    refine ⟨?_, fun _ => ⟨⟨rfl, rfl, rfl⟩, fun _ _ => rfl, fun _ _ => rfl⟩, nofun⟩
    simp
  | true =>
    have htook : TookAll ctx w (w.level ns + 1) ns (fun _ => ⟨0, 0⟩)
        (takeNumbers ctx (w.level ns + 1) ns (fun _ => ⟨0, 0⟩) w) :=
      takeNumbers_spec hw fun _ => rfl
    rw [if_pos rfl]
    generalize takeNumbers ctx (w.level ns + 1) ns (fun _ => ⟨0, 0⟩) w = out at htook ⊢
    obtain ⟨w₁, numbers, _ | i⟩ := out
    · have hlevel : w₁.level = w.level := htook.links.level
      have hnumbered := numbered_of_taken hw htook rfl pid w₁.pidHash
      rw [← hlevel] at hnumbered
      dsimp only
      refine ⟨?_, nofun, ?_⟩
      · refine iff_of_false nofun ?_
        intro hfail
        obtain ⟨x, hx, hnone⟩ := hfail.resolve_left nofun
        rw [(htook.taken rfl x hx).nr] at hnone
        cases hnone
      · intro p hp
        exact ⟨(Option.some.inj hp).symm, hnumbered⟩
    · have hlevel : w₁.level = w.level := htook.links.level
      have hunchanged := unchanged_of_failed hw htook rfl
      dsimp only
      rw [hlevel]
      refine ⟨?_, fun _ => hunchanged, nofun⟩
      obtain ⟨-, ⟨y, hy, hlevel⟩, hall⟩ := htook.failed i rfl
      exact iff_of_true rfl (.inr ⟨y, hy, ((hall y hy).here hlevel).2⟩)

/-- Namespace 0 and a child of it, which is namespace 1. -/
def twoNamespaces : Pids where
  ns _ := .initial
  level x := if x = 1 then 1 else 0
  parent _ := 0
  pidHash _ := []

theorem twoNamespaces_leveled : twoNamespaces.Leveled := by
  intro x hx
  have hx : x = 1 := by
    by_contra hne
    exact hx (if_neg hne)
  subst hx
  rfl

/-- There is no page for the second level. -/
def outerFails : Context where
  pidMax := 40000
  pidHashfn upid := upid.nr + upid.ns
  memory x _ := x == 1
  cache := true

theorem alloc_pid_atomic_twoNamespaces :
    ((allocPid outerFails twoNamespaces 7 1).2 = none ↔ outerFails.cache = false ∨
        ∃ x ∈ twoNamespaces.ancestors 1, (twoNamespaces.allocIn outerFails x).2 = none) ∧
      ((allocPid outerFails twoNamespaces 7 1).2 = none →
        Unchanged twoNamespaces (allocPid outerFails twoNamespaces 7 1).1) ∧
      ∀ p, (allocPid outerFails twoNamespaces 7 1).2 = some p →
        p = 7 ∧ Numbered outerFails twoNamespaces 7 1 (allocPid outerFails twoNamespaces 7 1).1 :=
  alloc_pid_atomic outerFails twoNamespaces_leveled 7 1

end AndroidKernel.Pid
