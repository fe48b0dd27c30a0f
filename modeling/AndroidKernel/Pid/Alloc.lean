import AndroidKernel.Pid.Model

/-!
# What the pid allocator finds

A scan that gives up has met only pids in use, so everything turns on which pids the scan
visits: `Covers` follows the two loops over the maps. It visits every unreserved pid except,
for most values of it, the last pid handed out.
-/

namespace AndroidKernel.Pid

open Library

/-! ## One page -/

section Page

variable {pidMax last map : Nat} {final : Bool} {page : Bitmap}

/-- Whether the loop over one page may go on at a pid it has found. -/
def mayStop (final : Bool) (last pid : Nat) : Prop :=
  final = false ∨ pid < last ∨ (last + 1) % bitsPerPage = 0

/-- A clear bit at the first offset is taken at once. -/
theorem tryOffsets_clear {offset : Nat} (hclear : page offset = false) (fuel pid : Nat) :
    tryOffsets pidMax last map final page (fuel + 1) offset pid = some (offset, pid) := by
  unfold tryOffsets
  simp only [hclear, if_true]

/-- A bit that the loop takes is clear, at or after the first offset, and its pid is in bounds. -/
theorem tryOffsets_some {fuel offset o p : Nat} (hoff : offset < bitsPerPage)
    (hmax : mkPid map offset < pidMax)
    (h : tryOffsets pidMax last map final page fuel offset (mkPid map offset) = some (o, p)) :
    p = mkPid map o ∧ offset ≤ o ∧ o < bitsPerPage ∧ page o = false ∧ p < pidMax ∧
      (o = offset ∨ mayStop final last p) := by
  induction fuel generalizing offset with
  | zero => cases h
  | succ fuel ih =>
    unfold tryOffsets at h
    split at h
    · rename_i hclear
      cases h
      exact ⟨rfl, Nat.le_refl _, hoff, hclear, hmax, .inl rfl⟩
    obtain ⟨hle, -, -, -⟩ := Bitmap.findNextZeroBit_spec (m := page) (Nat.le_of_lt hoff)
    simp only at h
    split at h
    · rename_i hgo
      obtain ⟨hp, hge, ho, hclear, hpmax, hstop⟩ := ih hgo.1 hgo.2.1 h
      refine ⟨hp, Nat.le_trans hle hge, ho, hclear, hpmax, .inr ?_⟩
      rcases hstop with rfl | hstop
      · rw [hp]
        exact hgo.2.2
      · exact hstop
    · cases h

/-- When the loop gives up, every bit it could have taken is set. -/
theorem tryOffsets_none {fuel offset : Nat} (hoff : offset < bitsPerPage)
    (h : tryOffsets pidMax last map final page (fuel + 2) offset (mkPid map offset) = none)
    {i : Nat} (hi : offset ≤ i) (hib : i < bitsPerPage) (hmax : mkPid map i < pidMax)
    (hstop : i = offset ∨ mayStop final last (mkPid map i)) : page i = true := by
  unfold tryOffsets at h
  split at h
  · cases h
  rename_i hset
  obtain ⟨hle, -, hclear, hpassed⟩ :=
    Bitmap.findNextZeroBit_spec (m := page) (Nat.le_of_lt hoff)
  rcases hstop with rfl | hstop
  · simpa using hset
  by_contra hfree
  have hfound : findNextOffset page offset ≤ i := by
    by_contra hlt
    exact hfree (hpassed i hi (Nat.lt_of_not_le hlt))
  have hlt : findNextOffset page offset < bitsPerPage := Nat.lt_of_le_of_lt hfound hib
  have hpid : mkPid map (findNextOffset page offset) ≤ mkPid map i :=
    Nat.add_le_add_left hfound _
  have hgo : findNextOffset page offset < bitsPerPage ∧
      mkPid map (findNextOffset page offset) < pidMax ∧
      (final = false ∨ mkPid map (findNextOffset page offset) < last ∨
        (last + 1) % bitsPerPage = 0) :=
    ⟨hlt, Nat.lt_of_le_of_lt hpid hmax,
      hstop.imp_right (Or.imp_left fun hl => Nat.lt_of_le_of_lt hpid hl)⟩
  simp only [if_pos hgo] at h
  unfold tryOffsets at h
  have hclear : page (findNextOffset page offset) = false := hclear hlt
  simp [hclear] at h

end Page

/-! ## The invariant -/

/-- `nr_free` of every map counts its clear bits. -/
def Counted (ns : PidNamespace) : Prop :=
  ∀ i, (ns.pidmap i).nrFree = ((ns.pidmap i).bits.zeros bitsPerPage).card

theorem counted_initial : Counted PidNamespace.initial := by
  intro i
  by_cases hi : i = 0
  · have hset : (Bitmap.zeros (Function.update (fun _ => false) 0 true) bitsPerPage).card + 1 =
        (Bitmap.zeros (fun _ => false) bitsPerPage).card :=
      Bitmap.card_zeros_set (by decide) rfl
    have hall : (Bitmap.zeros (fun _ => false) bitsPerPage).card = bitsPerPage := by
      simp [Bitmap.zeros]
    have hbits : (fun off : Nat => off == 0) = Function.update (fun _ => false) 0 true := by
      funext off
      by_cases hoff : off = 0
      · simp [hoff]
      · simp [hoff]
    rw [hall, ← hbits] at hset
    simp only [PidNamespace.initial, hi, if_true, Pidmap.bits, Option.getD_some]
    omega
  · simp [PidNamespace.initial, hi, Pidmap.bits, Bitmap.zeros]

/-- Which pids are in use after one bit was written. -/
theorem used_setMap {ns : PidNamespace} {map offset : Nat} {x : Pidmap} {b : Bool}
    (hoff : offset < bitsPerPage)
    (hbits : x.bits = Function.update (ns.pidmap map).bits offset b) (pid : Nat) :
    (ns.setMap map x).used pid = if pid = mkPid map offset then b else ns.used pid := by
  have hpos : 0 < bitsPerPage := by decide
  unfold PidNamespace.used PidNamespace.setMap
  by_cases hmap : pid / bitsPerPage = map
  · have hiff : pid = mkPid map offset ↔ pid % bitsPerPage = offset := by
      have hdiv := Nat.div_add_mod pid bitsPerPage
      rw [hmap, Nat.mul_comm] at hdiv
      unfold mkPid
      omega
    simp only [hmap, Function.update_self, hbits, Function.update_apply, hiff]
  · have hne : pid ≠ mkPid map offset := by
      rintro rfl
      exact hmap (by rw [mkPid, Nat.mul_comm, Nat.mul_add_div hpos, Nat.div_eq_of_lt hoff,
        Nat.add_zero])
    simp [hmap, hne]

/-- Freeing a pid in use makes it free and keeps the count. -/
theorem freePidmap_spec {ns : PidNamespace} (h : Counted ns) {nr : Nat} (hused : ns.used nr = true) :
    Counted (freePidmap nr ns) ∧ (freePidmap nr ns).lastPid = ns.lastPid ∧
      ∀ pid, (freePidmap nr ns).used pid = if pid = nr then false else ns.used pid := by
  have hoff : nr % bitsPerPage < bitsPerPage := Nat.mod_lt _ (by decide)
  have hpage : ∃ page, (ns.pidmap (nr / bitsPerPage)).page = some page := by
    cases hpage : (ns.pidmap (nr / bitsPerPage)).page with
    | none => simp [PidNamespace.used, Pidmap.bits, hpage] at hused
    | some page => exact ⟨page, rfl⟩
  obtain ⟨page, hpage⟩ := hpage
  have hbits : (ns.pidmap (nr / bitsPerPage)).bits = page := by simp [Pidmap.bits, hpage]
  have hset : page (nr % bitsPerPage) = true := by
    rw [← hbits]
    exact hused
  refine ⟨fun i => ?_, rfl, fun pid => ?_⟩
  · by_cases hi : i = nr / bitsPerPage
    · subst hi
      have hcount := h (nr / bitsPerPage)
      rw [hbits] at hcount
      have hclear := Bitmap.card_zeros_clear hoff hset
      simp only [freePidmap, PidNamespace.setMap, Function.update_self, Pidmap.bits,
        hpage, Option.map_some, Option.getD_some, hcount, hclear]
      push_cast
      rfl
    · have hsame : (freePidmap nr ns).pidmap i = ns.pidmap i := Function.update_of_ne hi _ _
      rw [hsame]
      exact h i
  · have hpid : mkPid (nr / bitsPerPage) (nr % bitsPerPage) = nr := by
      rw [mkPid, Nat.mul_comm]
      exact Nat.div_add_mod nr bitsPerPage
    unfold freePidmap
    rw [used_setMap hoff (b := false), hpid]
    simp [Pidmap.bits, hpage]

/-- With memory there is always a page, and making one sets no bit. -/
theorem ensurePage_spec {ns : PidNamespace} (h : Counted ns) (map : Nat) :
    ∃ ns' page, ensurePage (fun _ => true) map ns = (ns', some page) ∧ Counted ns' ∧
      ns'.lastPid = ns.lastPid ∧ (∀ pid, ns'.used pid = ns.used pid) ∧
      (ns'.pidmap map).page = some page := by
  unfold ensurePage
  cases hpage : (ns.pidmap map).page with
  | some page => exact ⟨ns, page, rfl, h, rfl, fun _ => rfl, hpage⟩
  | none =>
    have hbits : ∀ i, ((ns.setMap map { ns.pidmap map with
        page := some fun _ => false }).pidmap i).bits = (ns.pidmap i).bits := by
      intro i
      by_cases hi : i = map
      · simp [PidNamespace.setMap, hi, Pidmap.bits, hpage]
      · simp [PidNamespace.setMap, hi]
    refine ⟨_, _, rfl, fun i => ?_, rfl, fun pid => ?_, by simp [PidNamespace.setMap]⟩
    · rw [hbits, ← h i]
      by_cases hi : i = map
      · simp [PidNamespace.setMap, hi]
      · simp [PidNamespace.setMap, hi]
    · rw [PidNamespace.used, hbits, PidNamespace.used]

/-- Taking a free pid makes it used and keeps the count. -/
theorem takePid_spec {ns : PidNamespace} (h : Counted ns) {map offset pid : Nat} {page : Bitmap}
    (hpage : (ns.pidmap map).page = some page) (hoff : offset < bitsPerPage)
    (hclear : page offset = false) (hpid : pid = mkPid map offset) :
    Counted (takePid map offset pid page ns) ∧ (takePid map offset pid page ns).lastPid = pid ∧
      ns.used pid = false ∧
      ∀ p, (takePid map offset pid page ns).used p = if p = pid then true else ns.used p := by
  have hbits : (ns.pidmap map).bits = page := by simp [Pidmap.bits, hpage]
  have hused : ∀ p, (takePid map offset pid page ns).used p =
      if p = pid then true else ns.used p := fun p => by
    rw [hpid]
    exact used_setMap hoff (by simp [Pidmap.bits, hpage]) p
  refine ⟨fun i => ?_, rfl, ?_, hused⟩
  · by_cases hi : i = map
    · subst hi
      have hcount := h i
      rw [hbits] at hcount
      have hset := Bitmap.card_zeros_set hoff hclear
      simp only [takePid, PidNamespace.setMap, Function.update_self, Pidmap.bits,
        Option.getD_some, hcount]
      omega
    · have hsame : (takePid map offset pid page ns).pidmap i = ns.pidmap i :=
        Function.update_of_ne hi _ _
      rw [hsame]
      exact h i
  · have hself : ns.setMap map (ns.pidmap map) = ns := by simp [PidNamespace.setMap]
    have hsame : (ns.setMap map (ns.pidmap map)).used pid =
        if pid = mkPid map offset then false else ns.used pid :=
      used_setMap hoff (by rw [hbits, ← hclear, Function.update_eq_self]) pid
    rw [if_pos hpid, hself] at hsame
    exact hsame

/-! ## The scan -/

/-- The pids that a scan with so many rounds left can take. -/
def Covers (pidMax last : Nat) : Nat → Nat → Nat → Nat → Prop
  | 0, _, _, _ => False
  | rounds + 1, map, offset, pid =>
    (pid / bitsPerPage = map ∧ offset ≤ pid % bitsPerPage ∧ pid < pidMax ∧
      (pid % bitsPerPage = offset ∨ mayStop (decide (rounds = 0)) last pid)) ∨
    (if map < (pidMax - 1) / bitsPerPage then Covers pidMax last rounds (map + 1) 0 pid
      else last ≠ reservedPids ∧ Covers pidMax last rounds 0 reservedPids pid)

/-- What an allocation may do: take a free pid among the covered ones, or give up when none of
them is free and leave every bit as it was. -/
def Outcome (ns : PidNamespace) (covered : Nat → Prop) (out : PidNamespace × Option Nat) : Prop :=
  Counted out.1 ∧
    match out.2 with
    | some pid => covered pid ∧ ns.used pid = false ∧ out.1.lastPid = pid ∧
        ∀ p, out.1.used p = if p = pid then true else ns.used p
    | none => (∀ pid, covered pid → ns.used pid = true) ∧ out.1.lastPid = ns.lastPid ∧
        ∀ p, out.1.used p = ns.used p

/-- The outcome of going on in a namespace with the same bits, when what was covered before holds
no free pid. -/
theorem Outcome.mono {ns ns' : PidNamespace} {covered covered' : Nat → Prop}
    {out : PidNamespace × Option Nat} (h : Outcome ns' covered' out)
    (hused : ∀ p, ns'.used p = ns.used p) (hlast : ns'.lastPid = ns.lastPid)
    (hsub : ∀ p, covered' p → covered p)
    (hrest : ∀ p, covered p → ¬covered' p → ns.used p = true) : Outcome ns covered out := by
  refine ⟨h.1, ?_⟩
  have hout := h.2
  cases hpid : out.2 with
  | some pid =>
    rw [hpid] at hout
    simp only [hused] at hout
    exact ⟨hsub pid hout.1, hout.2⟩
  | none =>
    rw [hpid] at hout
    simp only [hused, hlast] at hout
    refine ⟨fun p hp => ?_, hout.2⟩
    by_cases hp' : covered' p
    · exact hout.1 p hp'
    · exact hrest p hp hp'

theorem bitsPerPage_eq : bitsPerPage = 32768 := rfl

theorem mkPid_div {map offset : Nat} (hoff : offset < bitsPerPage) :
    mkPid map offset / bitsPerPage = map ∧ mkPid map offset % bitsPerPage = offset := by
  unfold mkPid bitsPerPage at *
  omega

theorem mkPid_div_mod (pid : Nat) : mkPid (pid / bitsPerPage) (pid % bitsPerPage) = pid := by
  unfold mkPid bitsPerPage
  omega

/-- The scan takes a free pid that it covers, or gives up when none of those is free. -/
theorem scanMaps_outcome {pidMax : Nat} (last : Nat) (hmax : reservedPids < pidMax)
    (rounds map : Nat) {offset : Nat} {ns : PidNamespace} (h : Counted ns) (hoff : offset < bitsPerPage)
    (hpid : mkPid map offset < pidMax) :
    Outcome ns (Covers pidMax last rounds map offset)
      (scanMaps (fun _ => true) pidMax last rounds map offset (mkPid map offset) ns) := by
  induction rounds generalizing map offset ns with
  | zero => exact ⟨h, nofun, rfl, fun _ => rfl⟩
  | succ rounds ih =>
    obtain ⟨ns', page, hensure, h', hlast', hused', hpage⟩ := ensurePage_spec h map
    unfold scanMaps
    simp only [hensure]
    have hbits : (ns'.pidmap map).bits = page := by simp [Pidmap.bits, hpage]
    -- Both ways to find nothing on this page leave no free pid on it.
    have hnext : (∀ i, offset ≤ i → i < bitsPerPage → mkPid map i < pidMax →
        (i = offset ∨ mayStop (decide (rounds = 0)) last (mkPid map i)) → page i = true) →
        Outcome ns (Covers pidMax last (rounds + 1) map offset)
          (if map < (pidMax - 1) / bitsPerPage then
            scanMaps (fun _ => true) pidMax last rounds (map + 1) 0 (mkPid (map + 1) 0) ns'
          else if last = reservedPids then (ns', none)
          else
            scanMaps (fun _ => true) pidMax last rounds 0 reservedPids (mkPid 0 reservedPids) ns') := by
      intro hfull
      have hhere : ∀ pid, pid / bitsPerPage = map ∧ offset ≤ pid % bitsPerPage ∧ pid < pidMax ∧
          (pid % bitsPerPage = offset ∨ mayStop (decide (rounds = 0)) last pid) →
          ns.used pid = true := by
        rintro pid ⟨hmap, hge, hlt, hstop⟩
        have hpid := mkPid_div_mod pid
        rw [hmap] at hpid
        rw [← hused', PidNamespace.used, hmap, hbits]
        exact hfull _ hge (Nat.mod_lt _ (by decide)) (by rwa [hpid]) (by rwa [hpid])
      by_cases hmap : map < (pidMax - 1) / bitsPerPage
      · have hfirst : mkPid (map + 1) 0 < pidMax := by
          simp only [mkPid, bitsPerPage_eq] at hmap ⊢
          omega
        rw [if_pos hmap]
        refine (ih _ h' (by decide) hfirst).mono hused' hlast' (fun p hp => ?_) fun p hp hnot => ?_
        · exact .inr (by rwa [if_pos hmap])
        · rcases hp with hp | hp
          · exact hhere p hp
          · rw [if_pos hmap] at hp
            exact absurd hp hnot
      rw [if_neg hmap]
      by_cases hres : last = reservedPids
      · rw [if_pos hres]
        refine ⟨h', fun pid hp => ?_, hlast', hused'⟩
        rcases hp with hp | hp
        · exact hhere pid hp
        · rw [if_neg hmap] at hp
          exact absurd hres hp.1
      rw [if_neg hres]
      have hfirst : mkPid 0 reservedPids < pidMax := by
        simpa [mkPid] using hmax
      refine (ih _ h' (by decide) hfirst).mono hused' hlast' (fun p hp => ?_) fun p hp hnot => ?_
      · exact .inr (by rw [if_neg hmap]; exact ⟨hres, hp⟩)
      · rcases hp with hp | hp
        · exact hhere p hp
        · rw [if_neg hmap] at hp
          exact absurd hp.2 hnot
    by_cases hfree : (ns'.pidmap map).nrFree = 0
    · simp only [hfree, ne_eq, not_true_eq_false, if_false]
      refine hnext fun i _ hi _ _ => ?_
      have hzero := h' map
      rw [hfree, hbits] at hzero
      exact Bitmap.card_zeros_eq_zero.1 (by exact_mod_cast hzero.symm) i hi
    simp only [ne_eq, hfree, not_false_eq_true, if_true]
    cases htry : tryOffsets pidMax last map (decide (rounds = 0)) page (bitsPerPage + 1) offset
        (mkPid map offset) with
    | none => exact hnext fun i hi hib hlt hstop => tryOffsets_none hoff htry hi hib hlt hstop
    | some found =>
      obtain ⟨o, p⟩ := found
      obtain ⟨hp, hge, ho, hclear, hlt, hstop⟩ := tryOffsets_some hoff hpid htry
      obtain ⟨hcount, hlast, hnew, hall⟩ := takePid_spec h' hpage ho hclear hp
      refine ⟨hcount, .inl ⟨?_, ?_, hlt, ?_⟩, hused' p ▸ hnew, hlast, fun q => ?_⟩
      · rw [hp, (mkPid_div ho).1]
      · rw [hp, (mkPid_div ho).2]
        exact hge
      · rw [hp, (mkPid_div ho).2, ← hp]
        exact hstop
      · rw [hall, hused']

/-! ## Which pids a scan covers -/

/-- Going up through the maps covers every pid between the start and the last map reached; in
the very last round only what the loop condition lets through. -/
theorem covers_up (pidMax last : Nat) {p : Nat} (j r : Nat) (map offset : Nat)
    (hj : map + j ≤ (pidMax - 1) / bitsPerPage + 1) (hge : mkPid map offset ≤ p)
    (hoff : offset < bitsPerPage) (hlt : p < pidMax) (htop : p < mkPid (map + j) 0)
    (hlast : r ≠ 0 ∨ p < last ∨ (last + 1) % bitsPerPage = 0 ∨
      (p % bitsPerPage = 0 ∧ map < p / bitsPerPage)) :
    Covers pidMax last (j + r) map offset p := by
  induction j generalizing map offset with
  | zero =>
    unfold mkPid bitsPerPage at *
    omega
  | succ j ih =>
    rw [Nat.succ_add]
    unfold Covers
    by_cases hhere : p / bitsPerPage = map
    · refine .inl ⟨hhere, ?_, hlt, .inr ?_⟩
      · unfold mkPid bitsPerPage at *
        omega
      · unfold mayStop
        rcases hlast with hr | hl | ha | ⟨-, hmap⟩
        · exact .inl (by simp [hr])
        · exact .inr (.inl hl)
        · exact .inr (.inr ha)
        · omega
    have hmap : map < (pidMax - 1) / bitsPerPage := by
      unfold mkPid bitsPerPage at *
      omega
    rw [if_pos hmap]
    refine .inr ?_
    by_cases hzero : p % bitsPerPage = 0 ∧ p / bitsPerPage = map + 1
    · -- The first bit of a map is tested before the loop condition.
      cases j with
      | zero =>
        unfold mkPid bitsPerPage at *
        omega
      | succ j =>
        rw [Nat.succ_add]
        exact .inl ⟨hzero.2, Nat.zero_le _, hlt, .inl hzero.1⟩
    refine ih _ _ (by omega) ?_ (by decide) ?_ ?_
    · have hle : map ≤ p / bitsPerPage :=
        (Nat.le_div_iff_mul_le (by decide)).2 (Nat.le_trans (Nat.le_add_right _ _) hge)
      have hlt : map + 1 ≤ p / bitsPerPage := Nat.lt_of_le_of_ne hle (Ne.symm hhere)
      rw [mkPid, Nat.add_zero]
      exact (Nat.le_div_iff_mul_le (by decide)).1 hlt
    · simp only [mkPid, Nat.add_assoc, Nat.add_comm 1 j] at htop ⊢
      exact htop
    · refine hlast.imp_right (Or.imp_right (Or.imp_right fun hz => ⟨hz.1, ?_⟩))
      have : p / bitsPerPage ≠ map + 1 := fun heq => hzero ⟨hz.1, heq⟩
      omega

/-- After the last map the scan goes on at the first unreserved pid. -/
theorem covers_wrap (pidMax last : Nat) {p : Nat} (j r : Nat) (map offset : Nat)
    (hj : map + j = (pidMax - 1) / bitsPerPage) (hres : last ≠ reservedPids)
    (h : Covers pidMax last r 0 reservedPids p) :
    Covers pidMax last (j + 1 + r) map offset p := by
  induction j generalizing map offset with
  | zero =>
    rw [Nat.zero_add, Nat.add_comm]
    refine .inr ?_
    rw [if_neg (by omega)]
    exact ⟨hres, h⟩
  | succ j ih =>
    have heq : j + 1 + 1 + r = (j + 1 + r) + 1 := by omega
    rw [heq]
    refine .inr ?_
    rw [if_pos (by omega)]
    exact ih _ _ (by omega)

/-- The one pid that a scan may leave out: the last one handed out, unless the scan starts
over, or its bit is the first or the last one of its page. -/
def Skipped (pidMax last pid : Nat) : Prop :=
  pid = last ∧ last + 1 < pidMax ∧ last % bitsPerPage ≠ 0 ∧ (last + 1) % bitsPerPage ≠ 0

/-- The pids that `alloc_pidmap` covers. -/
def CoveredBy (pidMax last : Nat) : Nat → Prop :=
  Covers pidMax last (maxScan pidMax (firstPid pidMax last % bitsPerPage) + 1)
    (firstPid pidMax last / bitsPerPage) (firstPid pidMax last % bitsPerPage)

/-- `alloc_pidmap` covers every unreserved pid that it does not skip. -/
theorem coveredBy_of_not_skipped {pidMax last pid : Nat} (hmax : reservedPids < pidMax)
    (hres : reservedPids ≤ pid) (hlt : pid < pidMax) (hskip : ¬Skipped pidMax last pid) :
    CoveredBy pidMax last pid := by
  have hblocks : (pidMax + bitsPerPage - 1) / bitsPerPage = (pidMax - 1) / bitsPerPage + 1 := by
    unfold bitsPerPage reservedPids at *
    omega
  have htop : pid < mkPid ((pidMax - 1) / bitsPerPage + 1) 0 := by
    unfold mkPid bitsPerPage at *
    omega
  have hstart := mkPid_div_mod (firstPid pidMax last)
  have hoff : firstPid pidMax last % bitsPerPage < bitsPerPage := Nat.mod_lt _ (by decide)
  unfold CoveredBy maxScan
  rw [hblocks]
  by_cases hwrap : last + 1 ≥ pidMax
  · -- The scan starts at the first unreserved pid and meets everything on the way up.
    have hfirst : firstPid pidMax last = reservedPids := if_pos hwrap
    have hmod : reservedPids % bitsPerPage = reservedPids := rfl
    have hdiv : reservedPids / bitsPerPage = 0 := rfl
    rw [hfirst, hmod, hdiv, if_neg (by decide), Nat.sub_zero]
    exact covers_up pidMax last _ 1 0 reservedPids (by omega) (by simpa [mkPid] using hres)
      (by decide) hlt (by simpa using htop) (.inl (by decide))
  have hfirst : firstPid pidMax last = last + 1 := if_neg hwrap
  rw [hfirst] at hstart hoff ⊢
  have hmap : (last + 1) / bitsPerPage ≤ (pidMax - 1) / bitsPerPage :=
    Nat.div_le_div_right (by omega)
  obtain ⟨j, hj⟩ := Nat.exists_eq_add_of_le hmap
  have hup : (last + 1) / bitsPerPage + (j + 1) = (pidMax - 1) / bitsPerPage + 1 := by
    rw [hj, Nat.add_assoc]
  by_cases hzero : (last + 1) % bitsPerPage = 0
  · -- Every map is visited exactly once, and no round is restricted.
    have hrounds : (pidMax - 1) / bitsPerPage + 1 - 1 + 1 = j + 1 + (last + 1) / bitsPerPage := by
      rw [Nat.add_sub_cancel, ← hup, Nat.add_comm]
    rw [if_pos hzero, hrounds]
    by_cases hge : last + 1 ≤ pid
    · exact covers_up pidMax last (j + 1) _ _ _ (Nat.le_of_eq hup) (by rwa [hstart]) hoff hlt
        (by rwa [hup]) (.inr (.inr (.inl hzero)))
    refine covers_wrap pidMax last j _ _ _ hj.symm ?_ ?_
    · rintro rfl
      exact absurd hzero (by decide)
    · refine covers_up pidMax last ((last + 1) / bitsPerPage) 0 0 reservedPids ?_
        (by simpa [mkPid] using hres) (by decide) hlt ?_ (.inr (.inr (.inl hzero)))
      · rw [Nat.zero_add]
        exact Nat.le_succ_of_le hmap
      have : mkPid ((last + 1) / bitsPerPage) 0 = last + 1 := by rw [← hzero, hstart]
      rw [Nat.zero_add, this]
      omega
  -- The map of the first pid is visited again at the end, up to the last pid.
  have hrounds : (pidMax - 1) / bitsPerPage + 1 - 0 + 1 =
      j + 1 + ((last + 1) / bitsPerPage + 1) := by
    rw [Nat.sub_zero, ← hup, Nat.add_comm _ (j + 1), Nat.add_assoc]
  rw [if_neg hzero, hrounds]
  by_cases hge : last + 1 ≤ pid
  · exact covers_up pidMax last (j + 1) _ _ _ (Nat.le_of_eq hup) (by rwa [hstart]) hoff hlt
      (by rwa [hup]) (.inl (Nat.succ_ne_zero _))
  have hrest : pid < last ∨ (pid = last ∧ last % bitsPerPage = 0) := by
    by_cases heq : pid = last
    · refine .inr ⟨heq, ?_⟩
      by_contra hne
      exact hskip ⟨heq, by omega, hne, hzero⟩
    · exact .inl (by omega)
  refine covers_wrap pidMax last j _ _ _ hj.symm ?_ ?_
  · rintro rfl
    rcases hrest with hpid | ⟨-, hmod⟩
    · exact absurd hres (Nat.not_le.2 hpid)
    · exact absurd hmod (by decide)
  refine covers_up pidMax last ((last + 1) / bitsPerPage + 1) 0 0 reservedPids ?_
    (by simpa [mkPid] using hres) (by decide) hlt ?_ ?_
  · rw [Nat.zero_add]
    exact Nat.succ_le_succ hmap
  · have hlast := (Nat.lt_mul_div_succ (last + 1) (show 0 < bitsPerPage by decide))
    rw [Nat.mul_comm] at hlast
    rw [Nat.zero_add, mkPid, Nat.add_zero]
    omega
  rcases hrest with hpid | ⟨rfl, hmod⟩
  · exact .inr (.inl hpid)
  · refine .inr (.inr (.inr ⟨hmod, ?_⟩))
    have hge : bitsPerPage ≤ pid := by
      by_contra hsmall
      rw [Nat.mod_eq_of_lt (Nat.lt_of_not_le hsmall)] at hmod
      rw [hmod] at hres
      exact absurd hres (by decide)
    exact Nat.div_pos hge (by decide)

/-- A scan covers no pid below both its start and the first unreserved one, and none out of
bounds. -/
theorem Covers.bounds {pidMax last pid rounds map offset lo : Nat} (hlo : lo ≤ reservedPids)
    (hstart : lo ≤ mkPid map offset) (h : Covers pidMax last rounds map offset pid) :
    lo ≤ pid ∧ pid < pidMax := by
  induction rounds generalizing map offset with
  | zero => exact h.elim
  | succ rounds ih =>
    rcases h with ⟨hmap, hge, hlt, -⟩ | h
    · refine ⟨?_, hlt⟩
      rw [← mkPid_div_mod pid, hmap]
      exact Nat.le_trans hstart (Nat.add_le_add_left hge _)
    · split at h
      · refine ih ?_ h
        rw [mkPid, Nat.add_zero]
        have : bitsPerPage ≤ (map + 1) * bitsPerPage :=
          Nat.le_mul_of_pos_left _ (Nat.succ_pos map)
        exact Nat.le_trans hlo (Nat.le_trans (by decide) this)
      · exact ih (Nat.le_trans hlo (by decide)) h.2

/-- The second visit to the map of the last pid stops short of it. -/
theorem not_covers_second {pidMax last : Nat} (hmod : last % bitsPerPage ≠ 0)
    (hmod' : (last + 1) % bitsPerPage ≠ 0) (hres : last ≠ reservedPids)
    {rounds map offset : Nat} (hrounds : map + rounds = last / bitsPerPage + 1)
    (hzero : map = 0 → offset = reservedPids) (hpos : map ≠ 0 → offset = 0)
    (htop : last / bitsPerPage ≤ (pidMax - 1) / bitsPerPage) :
    ¬Covers pidMax last rounds map offset last := by
  induction rounds generalizing map offset with
  | zero => exact id
  | succ rounds ih =>
    rintro (⟨hmap, -, -, hstop⟩ | h)
    · have hlast : rounds = 0 := by omega
      subst hlast
      rcases hstop with hoff | hstop
      · by_cases hm : map = 0
        · rw [hzero hm] at hoff
          have := mkPid_div_mod last
          rw [hmap, hm, hoff] at this
          exact hres this.symm
        · exact hmod (hoff.trans (hpos hm))
      · rcases hstop with hfalse | hlt | halign
        · cases hfalse
        · exact Nat.lt_irrefl _ hlt
        · exact hmod' halign
    · split at h
      · exact ih (by omega) (by omega) (fun _ => rfl) h
      · rename_i hnot
        have : rounds = 0 := by omega
        subst this
        exact h.2

/-- Neither visit covers a skipped pid. -/
theorem not_coveredBy_of_skipped {pidMax last : Nat} (hres : reservedPids ≤ last)
    (hskip : Skipped pidMax last last) : ¬CoveredBy pidMax last last := by
  obtain ⟨-, hlt, hmod, hmod'⟩ := hskip
  have hdiv : (last + 1) / bitsPerPage = last / bitsPerPage ∧
      (last + 1) % bitsPerPage = last % bitsPerPage + 1 := by
    unfold bitsPerPage at *
    omega
  have hfirst : firstPid pidMax last = last + 1 := if_neg (by omega)
  have htop : last / bitsPerPage ≤ (pidMax - 1) / bitsPerPage := Nat.div_le_div_right (by omega)
  have hblocks : (pidMax + bitsPerPage - 1) / bitsPerPage = (pidMax - 1) / bitsPerPage + 1 := by
    unfold bitsPerPage reservedPids at *
    omega
  -- On the way up from the start every map is that of the last pid, past it, or a later one.
  have hup : ∀ j map offset, map + j = (pidMax - 1) / bitsPerPage → last / bitsPerPage ≤ map →
      (map = last / bitsPerPage → last % bitsPerPage < offset) →
      ¬Covers pidMax last (j + 1 + (last / bitsPerPage + 1)) map offset last := by
    intro j
    induction j with
    | zero =>
      intro map offset hj hmap hoff h
      rw [Nat.zero_add, Nat.add_comm 1] at h
      rcases h with ⟨heq, hge, -⟩ | h
      · exact absurd (hoff heq.symm) (Nat.not_lt.2 hge)
      · rw [if_neg (by omega)] at h
        exact not_covers_second hmod hmod' h.1 (Nat.zero_add _) (fun _ => rfl) (by omega) htop h.2
    | succ j ih =>
      intro map offset hj hmap hoff h
      have heq : j + 1 + 1 + (last / bitsPerPage + 1) =
          (j + 1 + (last / bitsPerPage + 1)) + 1 := by omega
      rw [heq] at h
      rcases h with ⟨heq, hge, -⟩ | h
      · exact absurd (hoff heq.symm) (Nat.not_lt.2 hge)
      · rw [if_pos (by omega)] at h
        exact ih (map + 1) 0 (by omega) (by omega) (by omega) h
  obtain ⟨j, hj⟩ := Nat.exists_eq_add_of_le htop
  unfold CoveredBy maxScan
  rw [hfirst, hblocks, if_neg hmod', hdiv.1, hdiv.2]
  have hrounds : (pidMax - 1) / bitsPerPage + 1 - 0 + 1 = j + 1 + (last / bitsPerPage + 1) := by
    rw [Nat.sub_zero, hj, Nat.add_comm _ j, Nat.add_assoc, Nat.add_assoc, Nat.add_assoc,
      Nat.add_comm _ 1]
  rw [hrounds]
  exact hup j _ _ hj.symm (Nat.le_refl _) fun _ => Nat.lt_succ_self _

/-! ## Runs -/

theorem firstPid_lt {pidMax last : Nat} (hmax : reservedPids < pidMax) :
    firstPid pidMax last < pidMax := by
  unfold firstPid
  split
  · exact hmax
  · omega

theorem firstPid_pos (pidMax last : Nat) : 1 ≤ firstPid pidMax last := by
  unfold firstPid
  split
  · decide
  · omega

theorem allocPidmap_outcome {ns : PidNamespace} (h : Counted ns) {pidMax : Nat}
    (hmax : reservedPids < pidMax) :
    Outcome ns (CoveredBy pidMax ns.lastPid) (allocPidmap (fun _ => true) pidMax ns) := by
  have hstart := mkPid_div_mod (firstPid pidMax ns.lastPid)
  have := scanMaps_outcome ns.lastPid hmax
    (maxScan pidMax (firstPid pidMax ns.lastPid % bitsPerPage) + 1)
    (firstPid pidMax ns.lastPid / bitsPerPage) h
    (Nat.mod_lt (firstPid pidMax ns.lastPid) (show 0 < bitsPerPage by decide)) (by
      rw [hstart]
      exact firstPid_lt hmax)
  rw [hstart] at this
  exact this

/-- Every reachable namespace counts its clear bits. -/
theorem counted_of_reaches {ok : PidNamespace → Op → Prop} {ns : PidNamespace}
    (hrun : Reaches Step ok PidNamespace.initial ns) : Counted ns := by
  refine hrun.invariant Counted (fun ns op ns' h _ hstep => ?_) counted_initial
  rw [hstep.2]
  cases op with
  | alloc pidMax =>
    rw [run_alloc]
    exact (allocPidmap_outcome h hstep.1).1
  | free nr => exact (freePidmap_spec h hstep.1.1).1

/-- The last pid handed out is free again and is the only free one, and the scan skips it. -/
def Missed (ns : PidNamespace) (pidMax : Nat) : Prop :=
  reservedPids ≤ ns.lastPid ∧ Skipped pidMax ns.lastPid ns.lastPid ∧ ns.used ns.lastPid = false ∧
    ∀ pid, reservedPids ≤ pid → pid < pidMax → pid ≠ ns.lastPid → ns.used pid = true

/-- An allocation gives up with a free unreserved pid exactly when it misses the last one. -/
theorem allocPidmap_none_iff {ns : PidNamespace} (h : Counted ns) {pidMax : Nat}
    (hmax : reservedPids < pidMax) :
    ((allocPidmap (fun _ => true) pidMax ns).2 = none →
        ∀ pid, reservedPids ≤ pid → pid < pidMax → ns.used pid = true) ↔ ¬Missed ns pidMax := by
  have hout := (allocPidmap_outcome h hmax).2
  constructor
  · rintro hall ⟨hres, hskip, hfree, hothers⟩
    have hnone : (allocPidmap (fun _ => true) pidMax ns).2 = none := by
      cases hpid : (allocPidmap (fun _ => true) pidMax ns).2 with
      | none => rfl
      | some pid =>
        rw [hpid] at hout
        have hstart : reservedPids ≤ mkPid (firstPid pidMax ns.lastPid / bitsPerPage)
            (firstPid pidMax ns.lastPid % bitsPerPage) := by
          rw [mkPid_div_mod, firstPid, if_neg (by have := hskip.2.1; omega)]
          exact Nat.le_succ_of_le hres
        obtain ⟨hge, hlt⟩ := hout.1.bounds (Nat.le_refl _) hstart
        by_cases heq : pid = ns.lastPid
        · rw [heq] at hout
          exact absurd hout.1 (not_coveredBy_of_skipped hres hskip)
        · have := hothers pid hge hlt heq
          rw [hout.2.1] at this
          cases this
    have := hall hnone ns.lastPid hres (Nat.lt_of_succ_lt hskip.2.1)
    rw [hfree] at this
    cases this
  intro hmissed hnone pid hres hlt
  rw [hnone] at hout
  by_cases hskip : Skipped pidMax ns.lastPid pid
  · -- Every other pid is covered, so the skipped one is not the only free one.
    by_contra hfree
    have heq := hskip.1
    rw [heq] at hfree hres
    refine hmissed ⟨hres, heq ▸ hskip, by simpa using hfree, fun p hp hplt hne => ?_⟩
    exact hout.1 p (coveredBy_of_not_skipped hmax hp hplt fun hs => hne hs.1)
  · exact hout.1 pid (coveredBy_of_not_skipped hmax hres hlt hskip)

/-- In every reachable namespace and for every `pid_max`: `nr_free` counts the clear bits of each
map; a pid handed out was free, is in bounds and becomes used; and an allocation gives up only
when every unreserved pid is in use, unless the last pid handed out is free, is the only free
one, and has neither the first nor the last bit of its page nor the last pid below `pid_max`. -/
theorem alloc_pidmap_correct {ns : PidNamespace}
    (hrun : Reaches Step anyStep PidNamespace.initial ns) :
    (∀ i, (ns.pidmap i).nrFree = ((ns.pidmap i).bits.zeros bitsPerPage).card) ∧
      ∀ pidMax, reservedPids < pidMax →
        (∀ pid, (allocPidmap (fun _ => true) pidMax ns).2 = some pid →
          ns.used pid = false ∧ 1 ≤ pid ∧ pid < pidMax ∧
            (allocPidmap (fun _ => true) pidMax ns).1.used pid = true) ∧
        (((allocPidmap (fun _ => true) pidMax ns).2 = none →
          ∀ pid, reservedPids ≤ pid → pid < pidMax → ns.used pid = true) ↔ ¬Missed ns pidMax) := by
  have h := counted_of_reaches hrun
  refine ⟨h, fun pidMax hmax => ⟨fun pid hpid => ?_, allocPidmap_none_iff h hmax⟩⟩
  have hout := (allocPidmap_outcome h hmax).2
  rw [hpid] at hout
  obtain ⟨hcovered, hfree, -, hused⟩ := hout
  have hstart : 1 ≤ mkPid (firstPid pidMax ns.lastPid / bitsPerPage)
      (firstPid pidMax ns.lastPid % bitsPerPage) := by
    rw [mkPid_div_mod]
    exact firstPid_pos ..
  obtain ⟨hge, hlt⟩ := hcovered.bounds (by decide) hstart
  exact ⟨hfree, hge, hlt, by rw [hused, if_pos rfl]⟩

/-- A clear bit where the scan starts is taken at once. -/
theorem scanMaps_first (pidMax last rounds pid : Nat) {map offset : Nat} {ns ns' : PidNamespace}
    {page : Bitmap} (hensure : ensurePage (fun _ => true) map ns = (ns', some page))
    (hcount : (ns'.pidmap map).nrFree ≠ 0) (hclear : page offset = false) :
    scanMaps (fun _ => true) pidMax last (rounds + 1) map offset pid ns =
      (takePid map offset pid page ns', some pid) := by
  unfold scanMaps
  simp only [hensure, ne_eq, hcount, not_false_eq_true, if_true, tryOffsets_clear hclear]

/-- The first pid the scan looks at is taken when it is free. -/
theorem allocPidmap_first {ns : PidNamespace} (h : Counted ns) {pidMax : Nat}
    (hfree : ns.used (firstPid pidMax ns.lastPid) = false) :
    (allocPidmap (fun _ => true) pidMax ns).2 = some (firstPid pidMax ns.lastPid) := by
  obtain ⟨ns', page, hensure, h', -, hused', hpage⟩ :=
    ensurePage_spec h (firstPid pidMax ns.lastPid / bitsPerPage)
  have hbits : (ns'.pidmap (firstPid pidMax ns.lastPid / bitsPerPage)).bits = page := by
    simp [Pidmap.bits, hpage]
  have hclear : page (firstPid pidMax ns.lastPid % bitsPerPage) = false := by
    rw [← hbits]
    exact (hused' _).trans hfree
  have hcount : (ns'.pidmap (firstPid pidMax ns.lastPid / bitsPerPage)).nrFree ≠ 0 := by
    rw [h', hbits]
    intro hzero
    have := Bitmap.card_zeros_eq_zero.1 (Int.natCast_eq_zero.1 hzero)
      (firstPid pidMax ns.lastPid % bitsPerPage) (Nat.mod_lt _ (by decide))
    rw [hclear] at this
    cases this
  exact congrArg Prod.snd (scanMaps_first pidMax ns.lastPid
    (maxScan pidMax (firstPid pidMax ns.lastPid % bitsPerPage)) _ hensure hcount hclear)

theorem alloc_pidmap_correct_initial :
    (allocPidmap (fun _ => true) 32768 PidNamespace.initial).2 = some 1 ∧
      (allocPidmap (fun _ => true) 32768 PidNamespace.initial).1.used 1 = true :=
  have hfirst : (allocPidmap (fun _ => true) 32768 PidNamespace.initial).2 = some 1 :=
    allocPidmap_first counted_initial rfl
  ⟨hfirst, (((alloc_pidmap_correct (.refl _)).2 32768 (by decide)).1 1 hfirst).2.2.2⟩

/-- An allocation in a run whose first candidate is free. -/
theorem run_alloc_first {ns : PidNamespace} (hrun : Reaches Step anyStep PidNamespace.initial ns)
    (pidMax : Nat) {pid : Nat} (hmax : reservedPids < pidMax)
    (hfirst : firstPid pidMax ns.lastPid = pid) (hfree : ns.used pid = false) :
    Reaches Step anyStep PidNamespace.initial (run ns (.alloc pidMax)) ∧
      (run ns (.alloc pidMax)).lastPid = pid ∧
      ∀ p, (run ns (.alloc pidMax)).used p = if p = pid then true else ns.used p := by
  subst hfirst
  have hcount := counted_of_reaches hrun
  have hout := (allocPidmap_outcome hcount hmax).2
  rw [allocPidmap_first hcount hfree] at hout
  have hstep : Step ns (.alloc pidMax) (run ns (.alloc pidMax)) := ⟨hmax, rfl⟩
  rw [run_alloc] at hstep ⊢
  exact ⟨hrun.tail hstep trivial, hout.2.2⟩

theorem run_free_used {ns : PidNamespace} (hrun : Reaches Step anyStep PidNamespace.initial ns)
    {nr : Nat} (hused : ns.used nr = true) (hzero : nr ≠ 0) :
    Reaches Step anyStep PidNamespace.initial (run ns (.free nr)) ∧
      (run ns (.free nr)).lastPid = ns.lastPid ∧
      ∀ p, (run ns (.free nr)).used p = if p = nr then false else ns.used p := by
  have hstep : Step ns (.free nr) (run ns (.free nr)) := ⟨⟨hused, hzero⟩, rfl⟩
  exact ⟨hrun.tail hstep trivial, (freePidmap_spec (counted_of_reaches hrun) hused).2⟩

/-- The namespace after so many allocations with `pid_max` 302. -/
def filled : Nat → PidNamespace
  | 0 => PidNamespace.initial
  | n + 1 => run (filled n) (.alloc 302)

/-- Pids are handed out one after the other. -/
theorem filled_spec {n : Nat} (hn : n ≤ 301) :
    Reaches Step anyStep PidNamespace.initial (filled n) ∧ (filled n).lastPid = n ∧
      ∀ pid, (filled n).used pid = decide (pid ≤ n) := by
  induction n with
  | zero =>
    refine ⟨.refl _, rfl, fun pid => ?_⟩
    have hinit : PidNamespace.initial.used pid = true ↔ pid ≤ 0 := by
      unfold PidNamespace.used PidNamespace.initial Pidmap.bits
      simp only
      split
      · rename_i hpid
        simp only [Option.getD_some, beq_iff_eq]
        unfold bitsPerPage at *
        omega
      · rename_i hpid
        simp only [Option.getD_none, Bool.false_eq_true, false_iff]
        rintro hle
        rw [Nat.le_zero.1 hle] at hpid
        exact hpid rfl
    rw [Bool.eq_iff_iff, decide_eq_true_eq]
    exact hinit
  | succ n ih =>
    obtain ⟨hrun, hlast, hused⟩ := ih (Nat.le_of_succ_le hn)
    have hfirst : firstPid 302 (filled n).lastPid = n + 1 := by
      rw [hlast, firstPid, if_neg (by omega)]
    obtain ⟨hrun', hlast', hused'⟩ := run_alloc_first hrun 302 (by decide) hfirst (by simp [hused])
    refine ⟨hrun', hlast', fun pid => (hused' pid).trans ?_⟩
    rw [hused, Bool.eq_iff_iff]
    split
    · rename_i heq
      simp [heq]
    · simp only [decide_eq_true_eq]
      omega

/-- With `pid_max` 302 all pids are handed out; pid 300 is freed, handed out again and freed
again. -/
def missedRun : PidNamespace :=
  run (run (run (filled 301) (.free 300)) (.alloc 302)) (.free 300)

/-- Pid 300 is free, and an allocation gives up. -/
theorem alloc_pidmap_misses_last :
    Reaches Step anyStep PidNamespace.initial missedRun ∧
      (allocPidmap (fun _ => true) 302 missedRun).2 = none ∧ missedRun.used 300 = false := by
  obtain ⟨hrun, hlast, hused⟩ := filled_spec (Nat.le_refl 301)
  obtain ⟨hrun1, hlast1, hused1⟩ := run_free_used hrun (by rw [hused]; decide) (show 300 ≠ 0 by decide)
  obtain ⟨hrun2, hlast2, hused2⟩ := run_alloc_first hrun1 302 (by decide)
    (by rw [hlast1, hlast]) (show _ = false by rw [hused1]; rfl)
  obtain ⟨hrun3, hlast3, hused3⟩ := run_free_used hrun2 (by rw [hused2]; rfl) (show 300 ≠ 0 by decide)
  have hfree : missedRun.used 300 = false := hused3 300
  refine ⟨hrun3, ?_, hfree⟩
  have hmissed : Missed missedRun 302 := by
    have hlast : missedRun.lastPid = 300 := hlast3.trans hlast2
    unfold Missed
    rw [hlast]
    refine ⟨Nat.le_refl _, ⟨rfl, by decide, by decide, by decide⟩, hfree,
      fun pid hge hlt hne => ?_⟩
    have heq : pid = 301 := by
      unfold reservedPids at hge
      omega
    subst heq
    refine (hused3 301).trans ?_
    rw [if_neg (by decide), hused2, if_neg (by decide), hused1, if_neg (by decide), hused]
    decide
  by_contra hsome
  exact (allocPidmap_none_iff (counted_of_reaches hrun3) (by decide)).1
    (fun hnone => absurd hnone hsome) hmissed

end AndroidKernel.Pid
