import AndroidKernel.IpFrag.Runs

/-!
# Rejected fragments

What a call of `ip_frag_queue` that takes its `err` path leaves of the queue. The code notes the
end of a fragment before it knows that the fragment is accepted, and it drops overridden
fragments before a later one is cut.
-/

namespace AndroidKernel.IpFrag

/-- What the rest of a datagram depends on is the same. -/
structure Ipq.Kept (qp after : Ipq) : Prop where
  fragments : after.fragments = qp.fragments
  len : after.len = qp.len
  meat : after.meat = qp.meat
  firstIn : after.firstIn = qp.firstIn
  lastIn : after.lastIn = qp.lastIn

/-- The end of the fragment, for one that is not the last rounded down. -/
def Skb.queueEnd (skb : Skb) : Nat :=
  if skb.moreFragments then skb.fragEnd / 8 * 8 else skb.fragEnd

/-- The end of the fragment is nothing new. -/
def Ipq.KnowsEnd (qp : Ipq) (skb : Skb) : Prop :=
  qp.lastIn = true ∨ if skb.moreFragments then skb.queueEnd ≤ qp.len else skb.queueEnd < qp.len

/-- The fragment ends where the queue allows it to, when its end is nothing new. -/
def Ipq.Inside (qp : Ipq) (skb : Skb) : Prop :=
  if skb.moreFragments then skb.queueEnd ≤ qp.len else skb.queueEnd = qp.len

/-- The fragment in front leaves some of the new one, which can be cut. -/
def FrontLeaves (memory : Bool) (prev : Option Skb) (offset fragEnd : Nat) : Prop :=
  ∀ front, prev = some front →
    front.offset + front.len ≤ offset ∨ front.offset + front.len < fragEnd ∧ memory = true

/-- The first fragment behind is overridden. -/
def Overridden (fragEnd : Nat) (after : List Skb) : Prop :=
  ∃ next rest, after = next :: rest ∧ next.offset < fragEnd ∧ next.len ≤ fragEnd - next.offset

/-- The call gets to the fragments behind the new one, and the first of them is overridden. -/
structure Call.Overrides (call : Call) (qp : Ipq) : Prop where
  inside : qp.Inside call.skb
  nonempty : call.skb.queueEnd ≠ call.skb.fragOffset
  pullHeader : call.pullHeader = true
  trim : call.trim = true ∨
    call.skb.len - call.skb.hdrlen ≤ call.skb.queueEnd - call.skb.fragOffset
  front : FrontLeaves call.pullHead (findPlace call.skb.fragOffset qp.fragments).1.getLast?
    call.skb.fragOffset call.skb.queueEnd
  behind : Overridden call.skb.queueEnd (findPlace call.skb.fragOffset qp.fragments).2

/-- The call does not start the queue afresh. -/
def Call.Near (call : Call) (qp : Ipq) : Prop :=
  qp.complete = true ∨ call.skb.fragComplete = true ∨ (ipFragTooFar call qp).2 = false

/-- What the calls return, one after the other. -/
def answers : List Call → Ipq → List Result
  | [], _ => []
  | call :: later, qp => (ipFragQueue call qp).2 :: answers later (ipFragQueue call qp).1

/-- None of the calls starts the queue afresh. -/
def NearAll : List Call → Ipq → Prop
  | [], _ => True
  | call :: later, qp => call.Near qp ∧ NearAll later (ipFragQueue call qp).1

/-! ## The steps of a call -/

variable {qp after : Ipq} {call : Call} {skb : Skb} {fragEnd : Nat} {err : Errno} {memory : Bool}

theorem overlapLoop_length (frags : List Skb) (meat : Int) :
    (overlapLoop memory fragEnd frags meat).1.length ≤ frags.length := by
  induction frags generalizing meat with
  | nil => exact Nat.le_refl _
  | cons next rest ih =>
    rw [overlapLoop]
    dsimp only
    split_ifs
    · split
      · exact Nat.le_refl _
      · exact Nat.le_refl _
    · exact Nat.le_succ_of_le (ih _)
    · exact Nat.le_refl _

/-- A cut that gets no memory: fragments have been dropped if the first was overridden. -/
theorem overlapLoop_failed {frags left : List Skb} {meat meat' : Int}
    (h : overlapLoop memory fragEnd frags meat = (left, meat', false)) :
    (Overridden fragEnd frags → left ≠ frags) ∧
      (¬ Overridden fragEnd frags → left = frags ∧ meat' = meat) := by
  cases frags with
  | nil => cases h
  | cons next rest =>
    rw [overlapLoop] at h
    by_cases hbefore : next.offset < fragEnd
    · rw [if_pos hbefore] at h
      dsimp only at h
      by_cases hpart : fragEnd - next.offset < next.len
      · rw [if_pos hpart] at h
        have hno : ¬ Overridden fragEnd (next :: rest) := by
          rintro ⟨_, _, heq, _, hle⟩
          cases heq
          omega
        cases hpull : pskbPull memory next (fragEnd - next.offset) with
        | some cut =>
          rw [hpull] at h
          cases h
        | none =>
          rw [hpull] at h
          cases h
          exact ⟨fun hover => absurd hover hno, fun _ => ⟨rfl, rfl⟩⟩
      · rw [if_neg hpart] at h
        have hover : Overridden fragEnd (next :: rest) :=
          ⟨next, rest, rfl, hbefore, Nat.le_of_not_lt hpart⟩
        have hlen := @overlapLoop_length fragEnd memory rest (meat - next.len)
        rw [h] at hlen
        refine ⟨fun _ heq => ?_, fun hno => absurd hover hno⟩
        rw [heq] at hlen
        exact Nat.not_succ_le_self _ hlen
    · rw [if_neg hbefore] at h
      cases h

/-- An end that is nothing new leaves the queue as it is. -/
theorem ipFragPosition_known (h : qp.KnowsEnd skb) :
    ipFragPosition qp skb = (qp, none) ∧ ¬ qp.Inside skb ∨
      ∃ same, ipFragPosition qp skb = (qp, some (same, skb.queueEnd)) ∧ SameBytes skb same ∧
        qp.Inside skb := by
  have hsame : SameBytes skb skb := ⟨rfl, rfl, rfl, rfl⟩
  obtain ⟨hhdrlen, hdata, hpulled, _, hfragOff⟩ := dropSum_fields skb
  unfold Ipq.KnowsEnd Skb.queueEnd at h
  unfold ipFragPosition Ipq.Inside Skb.queueEnd
  dsimp only
  cases hmore : skb.moreFragments with
  | false =>
    simp only [hmore, Bool.false_eq_true, if_false] at h
    simp only [Bool.not_false, if_true, Bool.false_eq_true, if_false]
    by_cases hout : skb.fragEnd = qp.len
    · have hlast : qp.lastIn = true := h.resolve_right (Nat.not_lt.mpr (Nat.le_of_eq hout.symm))
      rw [if_neg (by simp [hout])]
      refine .inr ⟨skb, ?_, hsame, hout⟩
      rw [hout]
      obtain ⟨_, _, _, _, lastIn, _, _, _, _⟩ := qp
      cases hlast
      rfl
    · have hreject : (decide (skb.fragEnd < qp.len) ||
          (qp.lastIn && decide (skb.fragEnd ≠ qp.len))) = true := by
        rcases h with hlast | hlt
        · simp [hlast, hout]
        · simp [hlt]
      rw [if_pos hreject]
      exact .inl ⟨rfl, hout⟩
  | true =>
    simp only [hmore, if_true] at h
    simp only [Bool.not_true, Bool.false_eq_true, if_false, if_true]
    by_cases hnew : skb.fragEnd / 8 * 8 > qp.len
    · rw [if_pos hnew, if_pos (h.resolve_right (Nat.not_le.mpr hnew))]
      exact .inl ⟨rfl, Nat.not_le.mpr hnew⟩
    · rw [if_neg hnew]
      refine .inr ⟨_, rfl, ?_, Nat.le_of_not_lt hnew⟩
      split_ifs
      · exact ⟨hfragOff, hhdrlen, hdata, hpulled⟩
      · exact hsame

theorem ipFragPosition_new (h : ¬ qp.KnowsEnd skb) :
    ∃ noted same, ipFragPosition qp skb = (noted, some (same, skb.queueEnd)) ∧
      (noted.len ≠ qp.len ∨ noted.lastIn ≠ qp.lastIn) := by
  unfold Ipq.KnowsEnd Skb.queueEnd at h
  unfold ipFragPosition Skb.queueEnd
  dsimp only
  rw [not_or] at h
  obtain ⟨hlast, hend⟩ := h
  rw [Bool.not_eq_true] at hlast
  cases hmore : skb.moreFragments with
  | false =>
    simp only [hmore, Bool.false_eq_true, if_false] at hend
    simp only [Bool.not_false, if_true, Bool.false_eq_true, if_false]
    rw [if_neg (by simp [hlast, hend])]
    exact ⟨_, _, rfl, .inr (by rw [hlast]; rintro ⟨⟩)⟩
  | true =>
    simp only [hmore, if_true] at hend
    simp only [Bool.not_true, Bool.false_eq_true, if_false, if_true]
    rw [if_pos (Nat.not_le.mp hend), if_neg (by simp [hlast])]
    exact ⟨_, _, rfl, .inl fun heq => hend (Nat.le_of_eq heq)⟩

/-- `ipFragAdd` after the position of the fragment is known. -/
def ipFragRest (call : Call) (qp : Ipq) (skb : Skb) (fragEnd : Nat) :
    Ipq × Except Errno (Option Skb) :=
  if fragEnd = skb.fragOffset then (qp, .error .einval)
  else
    match pskbPull call.pullHeader skb skb.hdrlen with
    | none => (qp, .error .enomem)
    | some skb =>
      match pskbTrimRcsum call.trim skb (fragEnd - skb.fragOffset) with
      | none => (qp, .error .enomem)
      | some skb => ipFragInsert call qp skb fragEnd

theorem ipFragInsert_noted : (ipFragInsert call qp skb fragEnd).1.len = qp.len ∧
    (ipFragInsert call qp skb fragEnd).1.lastIn = qp.lastIn := by
  unfold ipFragInsert
  dsimp only
  cases trimHead call.pullHead (findPlace skb.fragOffset qp.fragments).1.getLast? skb
      skb.fragOffset fragEnd with
  | error err => exact ⟨rfl, rfl⟩
  | ok left =>
    dsimp only
    split_ifs
    · exact ⟨rfl, rfl⟩
    · exact ⟨rfl, rfl⟩

theorem ipFragRest_noted : (ipFragRest call qp skb fragEnd).1.len = qp.len ∧
    (ipFragRest call qp skb fragEnd).1.lastIn = qp.lastIn := by
  unfold ipFragRest
  split_ifs
  · exact ⟨rfl, rfl⟩
  cases pskbPull call.pullHeader skb skb.hdrlen with
  | none => exact ⟨rfl, rfl⟩
  | some skb =>
    dsimp only
    cases pskbTrimRcsum call.trim skb (fragEnd - skb.fragOffset) with
    | none => exact ⟨rfl, rfl⟩
    | some skb => exact ipFragInsert_noted

/-- What is in front lets a fragment through, which is as long as its place. -/
theorem trimHead_frontLeaves {prev : Option Skb} {offset : Nat}
    (hlen : skb.len = fragEnd - offset) :
    (∃ left, trimHead memory prev skb offset fragEnd = .ok left) ↔
      FrontLeaves memory prev offset fragEnd := by
  cases prev with
  | none =>
    refine ⟨fun _ => ?_, fun _ => ⟨_, rfl⟩⟩
    rintro _ ⟨⟩
  | some prev =>
    have hfront : FrontLeaves memory (some prev) offset fragEnd ↔
        (prev.offset + prev.len ≤ offset ∨ prev.offset + prev.len < fragEnd ∧ memory = true) :=
      ⟨fun h => h prev rfl, fun h _ heq => Option.some.inj heq ▸ h⟩
    rw [hfront, trimHead]
    by_cases hover : prev.offset + prev.len - offset > 0
    · rw [if_pos hover]
      by_cases hempty : fragEnd ≤ offset + (prev.offset + prev.len - offset)
      · rw [if_pos hempty]
        refine ⟨?_, fun h => ?_⟩
        · rintro ⟨_, ⟨⟩⟩
        · omega
      · rw [if_neg hempty, pskbPull, if_neg (by omega)]
        cases memory with
        | false =>
          refine ⟨?_, ?_⟩
          · rintro ⟨_, ⟨⟩⟩
          · rintro (hle | ⟨_, ⟨⟩⟩)
            omega
        | true => exact ⟨fun _ => .inr ⟨by omega, rfl⟩, fun _ => ⟨_, rfl⟩⟩
    · rw [if_neg hover]
      exact ⟨fun _ => .inl (by omega), fun _ => ⟨_, rfl⟩⟩

/-- The insertion fails: nothing has changed, or fragments behind were dropped. -/
theorem ipFragInsert_failed (h : (ipFragInsert call qp skb fragEnd).2 = .error err)
    (hlen : skb.len = fragEnd - skb.fragOffset) :
    let reached := FrontLeaves call.pullHead (findPlace skb.fragOffset qp.fragments).1.getLast?
        skb.fragOffset fragEnd ∧ Overridden fragEnd (findPlace skb.fragOffset qp.fragments).2
    (reached → (ipFragInsert call qp skb fragEnd).1.fragments ≠ qp.fragments) ∧
      (¬ reached → (ipFragInsert call qp skb fragEnd).1 = qp) := by
  have hplace := findPlace_append skb.fragOffset qp.fragments
  unfold ipFragInsert at h ⊢
  generalize findPlace skb.fragOffset qp.fragments = place at h hplace ⊢
  obtain ⟨before, behind⟩ := place
  dsimp only at h hplace ⊢
  have hfront := @trimHead_frontLeaves skb fragEnd call.pullHead before.getLast? skb.fragOffset hlen
  cases htrim : trimHead call.pullHead before.getLast? skb skb.fragOffset fragEnd with
  | error err =>
    have hno : ¬ FrontLeaves call.pullHead before.getLast? skb.fragOffset fragEnd := fun hyes => by
      obtain ⟨_, hok⟩ := hfront.mpr hyes
      cases htrim.symm.trans hok
    exact ⟨fun hreached => absurd hreached.1 hno, fun _ => rfl⟩
  | ok left =>
    have hyes := hfront.mp ⟨left, htrim⟩
    rw [htrim] at h
    dsimp only at h ⊢
    generalize hloop : overlapLoop call.pullNext fragEnd behind qp.meat = loop at h ⊢
    obtain ⟨rest, meat, cut⟩ := loop
    cases cut with
    | true => cases h
    | false =>
      obtain ⟨hdropped, hkept⟩ := overlapLoop_failed hloop
      refine ⟨fun hreached hsame => ?_, fun hno => ?_⟩
      · exact hdropped hreached.2 (List.append_cancel_left (hsame.trans hplace.symm))
      · obtain ⟨rfl, rfl⟩ := hkept fun hover => hno ⟨hyes, hover⟩
        simp only [Bool.not_false, if_true, hplace]

/-- A trim fails when it has something to trim and gets no memory. -/
theorem pskbTrimRcsum_eq_none {len : Nat} :
    pskbTrimRcsum memory skb len = none ↔ ¬ (memory = true ∨ skb.len ≤ len) := by
  unfold pskbTrimRcsum
  by_cases hshort : len ≥ skb.len
  · rw [if_pos hshort]
    refine ⟨fun h => ?_, fun hno => absurd (.inr hshort) hno⟩
    cases h
  · rw [if_neg hshort]
    cases memory with
    | false => exact ⟨fun _ hyes => hyes.elim Bool.false_ne_true hshort, fun _ => rfl⟩
    | true =>
      refine ⟨fun h => ?_, fun hno => absurd (.inl rfl) hno⟩
      cases h

/-- What fails behind the position: nothing has changed, or fragments behind were dropped. -/
theorem ipFragRest_failed (hsame : SameBytes call.skb skb)
    (hinside : qp.Inside call.skb)
    (h : (ipFragRest call qp skb call.skb.queueEnd).2 = .error err) :
    (call.Overrides qp → (ipFragRest call qp skb call.skb.queueEnd).1.fragments ≠ qp.fragments) ∧
      (¬ call.Overrides qp → (ipFragRest call qp skb call.skb.queueEnd).1 = qp) := by
  have hoffset : skb.fragOffset = call.skb.fragOffset := by
    rw [Skb.fragOffset, hsame.fragOff, Skb.fragOffset]
  have hskbLen : skb.len = call.skb.len := by
    rw [Skb.len, hsame.data, Skb.len]
  have hhdrlen : skb.hdrlen ≤ skb.len := by
    rw [hsame.hdrlen, hskbLen]
    exact call.hdrlen_le
  have hqueueEnd : call.skb.queueEnd ≤ call.skb.fragOffset + (call.skb.len - call.skb.hdrlen) := by
    have hle := call.hdrlen_le
    unfold Skb.queueEnd Skb.fragEnd
    split_ifs <;> omega
  unfold ipFragRest at h ⊢
  rw [hoffset] at h ⊢
  by_cases hempty : call.skb.queueEnd = call.skb.fragOffset
  · rw [if_pos hempty]
    exact ⟨fun hover => absurd hempty hover.nonempty, fun _ => rfl⟩
  rw [if_neg hempty] at h ⊢
  cases hpull : call.pullHeader with
  | false =>
    rw [pskbPull, if_neg (Nat.not_lt.mpr hhdrlen)]
    refine ⟨fun hover => ?_, fun _ => rfl⟩
    cases hpull.symm.trans hover.pullHeader
  | true =>
    rw [hpull, pskbPull, if_neg (Nat.not_lt.mpr hhdrlen), if_pos rfl] at h
    rw [pskbPull, if_neg (Nat.not_lt.mpr hhdrlen), if_pos rfl]
    dsimp only at h ⊢
    generalize hpulled : { skb with
      data := skb.data.drop skb.hdrlen, pulled := skb.pulled + skb.hdrlen } = pulled at h ⊢
    have hpulledOff : pulled.fragOffset = call.skb.fragOffset := by
      rw [← hpulled]
      exact hoffset
    have hpulledLen : pulled.len = call.skb.len - call.skb.hdrlen := by
      rw [← hpulled, ← hskbLen, ← hsame.hdrlen]
      exact List.length_drop
    rw [hpulledOff] at h ⊢
    cases htrim : pskbTrimRcsum call.trim pulled (call.skb.queueEnd - call.skb.fragOffset) with
    | none =>
      have hno := pskbTrimRcsum_eq_none.mp htrim
      rw [hpulledLen] at hno
      exact ⟨fun hover => absurd hover.trim hno, fun _ => rfl⟩
    | some cut =>
      rw [htrim] at h
      dsimp only at h ⊢
      obtain ⟨hdata, hfragOff, -, -⟩ := pskbTrimRcsum_spec htrim
      have hcutOff : cut.fragOffset = call.skb.fragOffset := by
        rw [Skb.fragOffset, hfragOff, ← hpulledOff, Skb.fragOffset]
      have hcutLen : cut.len = call.skb.queueEnd - cut.fragOffset := by
        have htake : cut.len = min (call.skb.queueEnd - call.skb.fragOffset) pulled.len := by
          rw [Skb.len, hdata, List.length_take, Skb.len]
        omega
      have hcan : call.trim = true ∨
          call.skb.len - call.skb.hdrlen ≤ call.skb.queueEnd - call.skb.fragOffset := by
        rw [← hpulledLen]
        by_contra hno
        cases htrim.symm.trans (pskbTrimRcsum_eq_none.mpr hno)
      obtain ⟨hdropped, hkept⟩ := ipFragInsert_failed h hcutLen
      rw [hcutOff] at hdropped hkept
      exact ⟨fun hover => hdropped ⟨hover.front, hover.behind⟩,
        fun hno => hkept fun hreached =>
          hno ⟨hinside, hempty, hpull, hcan, hreached.1, hreached.2⟩⟩

/-- A call that does not start the queue afresh notes the counter of the peer at most. -/
theorem ipFragAdmit_near (hnear : call.Near qp) (hopen : qp.complete = false) :
    ∃ rid, ipFragAdmit call qp = ({ qp with rid := rid }, none) := by
  unfold ipFragAdmit
  rw [if_neg (by rw [hopen]; exact Bool.false_ne_true)]
  by_cases hwhole : call.skb.fragComplete = true
  · rw [if_pos hwhole]
    exact ⟨qp.rid, rfl⟩
  · rw [if_neg hwhole]
    have hfar : (ipFragTooFar call qp).2 = false := by
      rcases hnear with hdone | hdone | hfar
      · cases hopen.symm.trans hdone
      · exact absurd hdone hwhole
      · exact hfar
    have hrid : ∃ rid, (ipFragTooFar call qp).1 = { qp with rid := rid } := by
      unfold ipFragTooFar
      split
      · exact ⟨qp.rid, rfl⟩
      · split_ifs
        · exact ⟨qp.rid, rfl⟩
        · exact ⟨_, rfl⟩
    obtain ⟨rid, hrid⟩ := hrid
    refine ⟨rid, ?_⟩
    dsimp only
    rw [hfar, hrid]
    rfl

/-- The rest of a call once the fragment is admitted. -/
def ipFragAdmitted (call : Call) (qp : Ipq) : Ipq × Except Errno (Option Skb) :=
  match ipFragPosition qp call.skb with
  | (qp, none) => (qp, .error .einval)
  | (qp, some (skb, fragEnd)) => ipFragRest call qp skb fragEnd

/-- The end of a call. -/
def ipFragFinish (call : Call) : Ipq × Except Errno (Option Skb) → Ipq × Result
  | (qp, .error err) => (qp, .error err)
  | (qp, .ok prev) =>
    if qp.ready then
      match ipFragReasm call qp prev with
      | (qp, .error err) => (qp, .error err)
      | (qp, .ok datagram) => (qp, .complete datagram)
    else (qp, .inProgress)

theorem ipFragQueue_admitted {admitted : Ipq} (h : ipFragAdmit call qp = (admitted, none)) :
    ipFragQueue call qp = ipFragFinish call (ipFragAdmitted call admitted) := by
  have hadd : ipFragAdd call qp = ipFragAdmitted call admitted := by
    unfold ipFragAdd ipFragAdmitted
    rw [h]
    dsimp only
    rcases ipFragPosition admitted call.skb with ⟨qp, _ | ⟨skb, fragEnd⟩⟩
    · rfl
    · rfl
  rw [← hadd, ipFragQueue]
  rcases ipFragAdd call qp with ⟨qp, _ | _⟩
  · rfl
  · rfl

theorem ipFragQueue_complete (h : qp.complete = true) :
    ipFragQueue call qp = (qp, .error .enoent) := by
  unfold ipFragQueue ipFragAdd ipFragAdmit
  rw [if_pos h]

/-- A failure of `ip_frag_reasm` kills the queue. -/
theorem ipFragFinish_failed {added : Ipq × Except Errno (Option Skb)}
    (h : (ipFragFinish call added).2 = .error err)
    (hlive : (ipFragFinish call added).1.complete = false) :
    added.2 = .error err ∧ (ipFragFinish call added).1 = added.1 := by
  obtain ⟨qp, why | prev⟩ := added
  · cases h
    exact ⟨rfl, rfl⟩
  · have hkilled : (ipFragReasm call qp prev).1.complete = true := by
      unfold ipFragReasm Ipq.kill
      dsimp only
      cases qp.fragments with
      | nil => split_ifs <;> rfl
      | cons head rest =>
        dsimp only
        split_ifs <;> rfl
    dsimp only [ipFragFinish] at h hlive
    split_ifs at h hlive
    generalize ipFragReasm call qp prev = reasm at h hlive hkilled
    obtain ⟨qp, _ | _⟩ := reasm
    · cases hlive.symm.trans hkilled
    · cases h

/-- A fragment that is admitted and then rejected. -/
theorem ipFragAdmitted_failed (h : (ipFragAdmitted call qp).2 = .error err) :
    (qp.Kept (ipFragAdmitted call qp).1 → qp.KnowsEnd call.skb ∧ ¬ call.Overrides qp) ∧
      (qp.KnowsEnd call.skb → ¬ call.Overrides qp → (ipFragAdmitted call qp).1 = qp) := by
  unfold ipFragAdmitted at h ⊢
  by_cases hknown : qp.KnowsEnd call.skb
  · rcases ipFragPosition_known hknown with ⟨hposition, hout⟩ | ⟨same, hposition, hsame, hinside⟩
    · rw [hposition]
      exact ⟨fun _ => ⟨hknown, fun hover => hout hover.inside⟩, fun _ _ => rfl⟩
    · rw [hposition] at h ⊢
      obtain ⟨hdropped, hkept⟩ := ipFragRest_failed hsame hinside h
      exact ⟨fun hall => ⟨hknown, fun hover => hdropped hover hall.fragments⟩, fun _ => hkept⟩
  · obtain ⟨noted, same, hposition, hnoted⟩ := ipFragPosition_new hknown
    rw [hposition]
    obtain ⟨hlen, hlast⟩ := @ipFragRest_noted noted call same call.skb.queueEnd
    refine ⟨fun hall => ?_, fun hyes => absurd hyes hknown⟩
    exact (hnoted.elim (absurd (hlen.symm.trans hall.len)))
      (absurd (hlast.symm.trans hall.lastIn))

/-! ## The counter of the peer -/

/-- The same queue with another counter. -/
def Ipq.withRid (qp : Ipq) (rid : Nat) : Ipq := { qp with rid := rid }

variable {rid : Nat}

theorem ipFragPosition_withRid : ipFragPosition (qp.withRid rid) skb =
    ((ipFragPosition qp skb).1.withRid rid, (ipFragPosition qp skb).2) := by
  unfold ipFragPosition Ipq.withRid
  dsimp only
  split_ifs <;> rfl

theorem ipFragInsert_withRid : ipFragInsert call (qp.withRid rid) skb fragEnd =
    ((ipFragInsert call qp skb fragEnd).1.withRid rid,
      (ipFragInsert call qp skb fragEnd).2) := by
  unfold ipFragInsert Ipq.withRid
  dsimp only
  cases trimHead call.pullHead (findPlace skb.fragOffset qp.fragments).1.getLast? skb
      skb.fragOffset fragEnd with
  | error err => rfl
  | ok left =>
    dsimp only
    split_ifs <;> rfl

theorem ipFragRest_withRid : ipFragRest call (qp.withRid rid) skb fragEnd =
    ((ipFragRest call qp skb fragEnd).1.withRid rid, (ipFragRest call qp skb fragEnd).2) := by
  unfold ipFragRest
  split_ifs
  · rfl
  cases pskbPull call.pullHeader skb skb.hdrlen with
  | none => rfl
  | some skb =>
    dsimp only
    cases pskbTrimRcsum call.trim skb (fragEnd - skb.fragOffset) with
    | none => rfl
    | some skb => exact ipFragInsert_withRid

theorem ipFragReasm_withRid {prev : Option Skb} : ipFragReasm call (qp.withRid rid) prev =
    ((ipFragReasm call qp prev).1.withRid rid, (ipFragReasm call qp prev).2) := by
  unfold ipFragReasm Ipq.withRid
  dsimp only [Ipq.kill]
  cases qp.fragments with
  | nil => split_ifs <;> rfl
  | cons head rest =>
    dsimp only
    split_ifs <;> rfl

/-- Nothing behind the admission looks at the counter. -/
theorem ipFragFinish_withRid :
    ipFragFinish call (ipFragAdmitted call (qp.withRid rid)) =
      ((ipFragFinish call (ipFragAdmitted call qp)).1.withRid rid,
        (ipFragFinish call (ipFragAdmitted call qp)).2) := by
  have hadmitted : ipFragAdmitted call (qp.withRid rid) =
      ((ipFragAdmitted call qp).1.withRid rid, (ipFragAdmitted call qp).2) := by
    unfold ipFragAdmitted
    rw [ipFragPosition_withRid]
    rcases ipFragPosition qp call.skb with ⟨qp, _ | ⟨skb, fragEnd⟩⟩
    · rfl
    · exact ipFragRest_withRid
  rw [hadmitted]
  rcases ipFragAdmitted call qp with ⟨qp, err | prev⟩
  · rfl
  by_cases hready : qp.ready = true
  · dsimp only [ipFragFinish]
    rw [if_pos hready, if_pos (show (qp.withRid rid).ready = true from hready),
      ipFragReasm_withRid]
    rcases ipFragReasm call qp prev with ⟨qp, _ | _⟩
    · rfl
    · rfl
  · dsimp only [ipFragFinish]
    rw [if_neg hready, if_neg (show ¬ (qp.withRid rid).ready = true from hready)]

/-- Two queues that differ in the counter give the same answer, and differ in it again. -/
theorem ipFragQueue_withRid (hnear : call.Near qp) (hnear' : call.Near (qp.withRid rid)) :
    ∃ rid', (ipFragQueue call (qp.withRid rid)).1 = (ipFragQueue call qp).1.withRid rid' ∧
      (ipFragQueue call (qp.withRid rid)).2 = (ipFragQueue call qp).2 := by
  cases hopen : qp.complete with
  | true =>
    rw [ipFragQueue_complete hopen, @ipFragQueue_complete (qp.withRid rid) call hopen]
    exact ⟨rid, rfl, rfl⟩
  | false =>
    obtain ⟨first, hfirst⟩ := ipFragAdmit_near hnear hopen
    obtain ⟨second, hsecond⟩ := ipFragAdmit_near hnear' hopen
    rw [ipFragQueue_admitted hfirst, ipFragQueue_admitted hsecond]
    have hone := @ipFragFinish_withRid qp call first
    have htwo := @ipFragFinish_withRid qp call second
    refine ⟨second, ?_, ?_⟩
    · exact (congrArg Prod.fst htwo).trans (congrArg (·.1.withRid second) hone).symm
    · exact (congrArg Prod.snd htwo).trans (congrArg Prod.snd hone).symm

/-- The counter has no part in what later calls return while none starts the queue afresh. -/
theorem answers_withRid (later : List Call) (hnear : NearAll later qp)
    (hnear' : NearAll later (qp.withRid rid)) :
    answers later (qp.withRid rid) = answers later qp := by
  induction later generalizing qp rid with
  | nil => rfl
  | cons call later ih =>
    obtain ⟨rid', hqueue, hanswer⟩ := ipFragQueue_withRid hnear.1 hnear'.1
    have hlater := hnear'.2
    rw [hqueue] at hlater
    rw [answers, answers, hqueue, hanswer, ih hnear.2 hlater]

/-! ## The effect of a rejected fragment -/

end AndroidKernel.IpFrag
