import AndroidKernel.IpFrag.Queue

/-!
# Reassembly over all sequences of fragments

`ip_frag_queue` tells a complete datagram by the marks of the first and the last fragment and by
one sum. The sum is enough: disjoint pieces as long together as the datagram cover it. Once
`ip_frag_reasm` has handed the datagram over, the queue has no fragments left, and `q.meat` keeps
its last value.
-/

namespace AndroidKernel.IpFrag

open Library

variable {received accepted : List Skb} {qp : Ipq} {call : Call}

/-- The loop over the fragments behind the head adds up their lengths. -/
theorem glue_len (rest : List Skb) (sum : Nat × IpSummed × Nat) :
    (rest.foldl glue sum).1 = sum.1 + totalLen Skb.len rest := by
  induction rest generalizing sum with
  | nil => rfl
  | cons fp rest ih =>
    have hstep : (glue sum fp).1 = sum.1 + fp.len := by
      obtain ⟨len, ipSummed, csum⟩ := sum
      dsimp only [glue]
      split_ifs <;> rfl
    rw [List.foldl_cons, ih, hstep, totalLen_cons, Nat.add_assoc]

/-- A queue that passes the test is full. -/
theorem Sound.full (h : Sound received accepted qp) (hready : qp.ready = true) :
    totalLen Skb.len qp.fragments = qp.len ∧ qp.lastIn = true := by
  simp only [Ipq.ready, Bool.and_eq_true, beq_iff_eq] at hready
  have hmeat := h.meat
  exact ⟨by omega, hready.1.1.2⟩

/-- The first piece of a full queue is the start of the datagram, and its data follows its
header. -/
theorem Sound.head (h : Sound received accepted qp) (hfull : totalLen Skb.len qp.fragments = qp.len)
    {head : Skb} {rest : List Skb} (hfragments : qp.fragments = head :: rest) :
    head.pulled = head.hdrlen := by
  obtain ⟨packet, -, hcut⟩ := h.origin head (by simp [hfragments])
  have hpacked := h.packed
  rw [hfragments] at hpacked hfull
  have htotal := hpacked.2.2.total_le
  rw [totalLen_cons] at hfull
  have hzero : head.offset = 0 := by omega
  rw [hcut.pulled, hcut.hdrlen, hzero, Nat.zero_sub, Nat.add_zero]

/-- What `ip_frag_reasm` makes of a full queue. -/
theorem ipFragReasm_spec (h : Sound received accepted qp)
    (hfull : totalLen Skb.len qp.fragments = qp.len) {prev : Option Skb} {after : Ipq}
    {datagram : Datagram} (hreasm : ipFragReasm call qp prev = (after, .ok datagram)) :
    datagram.payload.length = qp.len ∧ datagram.len = datagram.hdrlen + qp.len ∧
      datagram.totLen = datagram.len ∧ datagram.totLen ≤ 65535 ∧
      (∀ position byte, datagram.payload[position]? = some byte →
        ∃ packet ∈ accepted, packet.byteAt position = some byte) ∧
      after.complete = true ∧ after.fragments = [] := by
  unfold ipFragReasm at hreasm
  simp only [Ipq.kill] at hreasm
  cases hfragments : qp.fragments with
  | nil =>
    simp only [hfragments] at hreasm
    split_ifs at hreasm
    · cases hreasm
    · cases hreasm
  | cons head rest =>
    have hpulled := h.head hfull hfragments
    have hpacked := h.packed
    rw [hfragments] at hpacked hfull
    have hjoin : totalLen Skb.len (head :: rest) = ((head :: rest).flatMap Skb.data).length := by
      rw [List.length_flatMap]
      rfl
    simp only [hfragments] at hreasm
    split_ifs at hreasm with hclone hsize hexpand halloc
    · cases hreasm
    · cases hreasm
    · cases hreasm
    · cases hreasm
    obtain ⟨rfl, hdatagram⟩ := Prod.mk.inj hreasm
    obtain rfl := Except.ok.inj hdatagram
    have hsum := glue_len rest (head.pulled + head.len, head.ipSummed, head.csum)
    have htotal := hfull
    rw [totalLen_cons] at htotal
    have hlen : (rest.foldl glue (head.pulled + head.len, head.ipSummed, head.csum)).1 =
        head.hdrlen + qp.len := by
      rw [hsum, hpulled]
      omega
    refine ⟨hjoin.symm.trans hfull, hlen, hlen.symm, Nat.le_of_not_lt hsize,
      fun position byte hget => ?_, rfl, rfl⟩
    obtain ⟨skb, hmem, inner, hinner, hbyte⟩ :=
      hpacked.join_getElem? (hfull.symm ▸ Nat.zero_add _) hget
    obtain ⟨packet, hpacket, hcut⟩ := h.origin skb (hfragments ▸ hmem)
    refine ⟨packet, hpacket, ?_⟩
    rw [← Nat.zero_add position, ← hinner]
    exact hcut.byteAt hbyte

/-- A datagram that cannot be made leaves the fragments in the queue. -/
theorem ipFragReasm_error {prev : Option Skb} {after : Ipq} {err : Errno}
    (hreasm : ipFragReasm call qp prev = (after, .error err)) : after = qp.kill := by
  dsimp only [ipFragReasm] at hreasm
  by_cases hclone : (prev.isSome && !call.clone) = true
  · rw [if_pos hclone] at hreasm
    exact (Prod.mk.inj hreasm).1.symm
  rw [if_neg hclone] at hreasm
  cases hfragments : qp.kill.fragments with
  | nil =>
    simp only [hfragments] at hreasm
    exact (Prod.mk.inj hreasm).1.symm
  | cons head rest =>
    simp only [hfragments] at hreasm
    split_ifs at hreasm
    · exact (Prod.mk.inj hreasm).1.symm
    · exact (Prod.mk.inj hreasm).1.symm
    · exact (Prod.mk.inj hreasm).1.symm
    · cases (Prod.mk.inj hreasm).2

/-- A queue over time, with the packets received and accepted since it was last empty, and
whether its datagram has been handed over. -/
structure Reassembly where
  queue : Ipq
  received : List Skb
  accepted : List Skb
  delivered : Bool

/-- A new queue. -/
def Reassembly.new : Reassembly where
  queue := .new
  received := []
  accepted := []
  delivered := false

/-- One call of `ip_frag_queue`. -/
def Reassembly.step (state : Reassembly) (call : Call) : Reassembly where
  queue := (ipFragQueue call state.queue).1
  received := call.skb :: call.kept state.queue state.received
  accepted :=
    match (ipFragAdd call state.queue).2 with
    | .error _ => call.kept state.queue state.accepted
    | .ok _ => call.skb :: call.kept state.queue state.accepted
  delivered :=
    match (ipFragQueue call state.queue).2 with
    | .complete _ => true
    | _ => state.delivered

/-- The calls of a sequence, one after another. -/
def Reassembly.run (calls : List Call) : Reassembly := calls.foldl Reassembly.step .new

/-- A queue is sound until its datagram has been handed over, and then finished and empty. -/
structure Reassembly.Consistent (state : Reassembly) : Prop where
  sound : state.delivered = false → Sound state.received state.accepted state.queue
  empty : state.delivered = true → state.queue.complete = true ∧ state.queue.fragments = []

theorem Reassembly.Consistent.step {state : Reassembly} (h : state.Consistent) (call : Call) :
    (state.step call).Consistent := by
  cases hdelivered : state.delivered with
  | true =>
    obtain ⟨hcomplete, hfragments⟩ := h.empty hdelivered
    have hadd : ipFragAdd call state.queue = (state.queue, .error .enoent) := by
      simp only [ipFragAdd, ipFragAdmit, hcomplete, if_true]
    have hqueue : ipFragQueue call state.queue = (state.queue, .error .enoent) := by
      simp only [ipFragQueue, hadd]
    refine ⟨fun hfalse => ?_, fun _ => ?_⟩
    · simp only [Reassembly.step, hqueue] at hfalse
      exact absurd (hdelivered.symm.trans hfalse) (by simp)
    · simpa only [Reassembly.step, hqueue] using h.empty hdelivered
  | false =>
    obtain ⟨entered, result, hadd, hresult⟩ := ipFragAdd_spec (h.sound hdelivered) call
    rcases hresult with ⟨⟨err, rfl⟩, hsound⟩ | ⟨⟨prev, rfl⟩, hsound⟩
    · have hqueue : ipFragQueue call state.queue = (entered, .error err) := by
        simp only [ipFragQueue, hadd]
      refine ⟨fun _ => ?_, fun htrue => ?_⟩
      · simpa only [Reassembly.step, hqueue, hadd] using hsound
      · simp only [Reassembly.step, hqueue] at htrue
        exact absurd (hdelivered.symm.trans htrue) (by simp)
    by_cases hready : entered.ready = true
    · cases hreasm : ipFragReasm call entered prev with
      | mk after made =>
        cases made with
        | error err =>
          have hqueue : ipFragQueue call state.queue = (after, .error err) := by
            simp only [ipFragQueue, hadd, if_pos hready, hreasm]
          obtain rfl := ipFragReasm_error hreasm
          refine ⟨fun _ => ?_, fun htrue => ?_⟩
          · simp only [Reassembly.step, hqueue, hadd]
            exact ⟨hsound.packed, hsound.meat, hsound.origin, hsound.last⟩
          · simp only [Reassembly.step, hqueue] at htrue
            exact absurd (hdelivered.symm.trans htrue) (by simp)
        | ok datagram =>
          have hqueue : ipFragQueue call state.queue = (after, .complete datagram) := by
            simp only [ipFragQueue, hadd, if_pos hready, hreasm]
          have hmade := ipFragReasm_spec hsound (hsound.full hready).1 hreasm
          refine ⟨fun hfalse => ?_, fun _ => ?_⟩
          · simp only [Reassembly.step, hqueue] at hfalse
            exact absurd hfalse (by simp)
          · simpa only [Reassembly.step, hqueue] using hmade.2.2.2.2.2
    · have hqueue : ipFragQueue call state.queue = (entered, .inProgress) := by
        simp only [ipFragQueue, hadd, if_neg hready]
      refine ⟨fun _ => ?_, fun htrue => ?_⟩
      · simpa only [Reassembly.step, hqueue, hadd] using hsound
      · simp only [Reassembly.step, hqueue] at htrue
        exact absurd (hdelivered.symm.trans htrue) (by simp)

/-- Every sequence of calls leaves the queue consistent. -/
theorem run_consistent (calls : List Call) : (Reassembly.run calls).Consistent := by
  have hnew : Reassembly.new.Consistent :=
    ⟨fun _ => ⟨Nat.zero_le _, rfl, by simp [Reassembly.new, Ipq.new], nofun⟩, nofun⟩
  have hfold : ∀ state : Reassembly, state.Consistent →
      (calls.foldl Reassembly.step state).Consistent := by
    induction calls with
    | nil => exact fun state h => h
    | cons call calls ih => exact fun state h => ih (state.step call) (h.step call)
  exact hfold _ hnew

/-- After every sequence of calls: the fragments are non-empty, in order, disjoint and inside
`[0, q.len)`; `q.meat` is the sum of their lengths until the datagram is handed over; each byte
held is the byte an accepted packet has there. Whenever a further call passes the test, the
fragments cover `[0, q.len)`, a packet without `IP_MF` ended there, and a datagram made of them
has `q.len` bytes of payload, each from an accepted packet, and at most 65535 in all. -/
theorem reassembly_sound (calls : List Call) :
    (Reassembly.run calls).queue.fragments.Pairwise (fun first second =>
      first.offset + first.len ≤ second.offset) ∧
    (∀ skb ∈ (Reassembly.run calls).queue.fragments,
      0 < skb.len ∧ skb.offset + skb.len ≤ (Reassembly.run calls).queue.len) ∧
    ((Reassembly.run calls).delivered = false → (Reassembly.run calls).queue.meat =
      (((Reassembly.run calls).queue.fragments.map Skb.len).sum : Nat)) ∧
    (∀ skb ∈ (Reassembly.run calls).queue.fragments, ∀ index byte,
      skb.data[index]? = some byte →
      ∃ packet ∈ (Reassembly.run calls).accepted, packet.byteAt (skb.offset + index) = some byte) ∧
    ∀ call entered prev, ipFragAdd call (Reassembly.run calls).queue = (entered, .ok prev) →
      entered.ready = true →
      (∀ position < entered.len, ∃ skb ∈ entered.fragments,
        skb.offset ≤ position ∧ position < skb.offset + skb.len) ∧
      (∃ packet ∈ call.skb ::
        call.kept (Reassembly.run calls).queue (Reassembly.run calls).received,
        packet.moreFragments = false ∧ packet.fragEnd = entered.len) ∧
      ∀ after datagram, ipFragReasm call entered prev = (after, .ok datagram) →
        datagram.payload.length = entered.len ∧ datagram.len = datagram.hdrlen + entered.len ∧
        datagram.totLen = datagram.len ∧ datagram.totLen ≤ 65535 ∧
        ∀ position byte, datagram.payload[position]? = some byte →
          ∃ packet ∈ call.skb ::
            call.kept (Reassembly.run calls).queue (Reassembly.run calls).accepted,
            packet.byteAt position = some byte := by
  have h := run_consistent calls
  generalize Reassembly.run calls = state at h ⊢
  cases hdelivered : state.delivered with
  | true =>
    obtain ⟨hcomplete, hfragments⟩ := h.empty hdelivered
    refine ⟨by simp [hfragments], by simp [hfragments], nofun, by simp [hfragments],
      fun call entered prev hadd => ?_⟩
    simp only [ipFragAdd, ipFragAdmit, hcomplete, if_true, Prod.mk.injEq, reduceCtorEq,
      and_false] at hadd
  | false =>
    have hsound := h.sound hdelivered
    refine ⟨hsound.packed.pairwise, fun skb hmem => (hsound.packed.bounds hmem).2,
      fun _ => hsound.meat, fun skb hmem index byte hget => ?_,
      fun call entered prev hadd hready => ?_⟩
    · obtain ⟨packet, hpacket, hcut⟩ := hsound.origin skb hmem
      exact ⟨packet, hpacket, hcut.byteAt hget⟩
    obtain ⟨entered', result, hadd', hresult⟩ := ipFragAdd_spec hsound call
    obtain ⟨rfl, rfl⟩ := Prod.mk.inj (hadd'.symm.trans hadd)
    rcases hresult with ⟨⟨err, herr⟩, -⟩ | ⟨-, hentered⟩
    · cases herr
    obtain ⟨hfull, hlast⟩ := hentered.full hready
    refine ⟨fun position hlt => hentered.packed.covers (by omega) (Nat.zero_le _) hlt,
      hentered.last hlast, fun after datagram hreasm => ?_⟩
    obtain ⟨hpayload, hlen, htot, hsize, hbytes, -⟩ := ipFragReasm_spec hentered hfull hreasm
    exact ⟨hpayload, hlen, htot, hsize, hbytes⟩

/-- A call that every operation succeeds in. -/
def plainCall (fragOff : Nat) (data : List UInt8) (h : 20 ≤ data.length) : Call where
  skb := {
    fragOff := fragOff, hdrlen := 20, data := data, pulled := 0, offset := 0
    fragComplete := false, fragList := false, ipSummed := .checksumNone, csum := 0
    dev := none, tstamp := 0 }
  hdrlen_le := h
  unpulled := rfl
  peerRid := none
  maxDist := 64
  timerActive := true
  pullHeader := true
  trim := true
  pullHead := true
  pullNext := true
  clone := true
  expandHead := true
  alloc := true

/-- The second of two fragments completes a datagram of nine bytes: the list is handed over, and
`q.meat` keeps its value. -/
theorem meat_kept_after_delivery :
    ∃ calls : List Call, (Reassembly.run calls).queue.meat ≠
      (((Reassembly.run calls).queue.fragments.map Skb.len).sum : Nat) :=
  ⟨[plainCall 0x2000 (List.replicate 28 0) (by decide),
    plainCall 1 (List.replicate 21 0) (by decide)], by decide⟩

end AndroidKernel.IpFrag
