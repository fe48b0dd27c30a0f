import AndroidKernel.IpFrag.Model
import AndroidKernel.Library.Tilings

/-!
# One fragment

What each part of `ip_frag_queue` does to a sound queue: the position of the fragment, its
insertion, and the call up to the test for a complete datagram.
-/

/-!
## The fragments of a queue

`Sound` is the invariant of a queue: its fragments are disjoint pieces in order inside
`[0, q.len)`, `q.meat` is the sum of their lengths, each is cut from an accepted packet, and the
end of the last fragment, once known, is `q.len`.
-/

namespace AndroidKernel.IpFrag

open Library

/-- The bytes of a packet behind its header. -/
def Skb.payload (skb : Skb) : List UInt8 := skb.data.drop skb.hdrlen

/-- The byte a packet has at a position of the datagram. -/
def Skb.byteAt (skb : Skb) (position : Nat) : Option UInt8 :=
  if skb.fragOffset ≤ position then skb.payload[position - skb.fragOffset]? else none

/-- The buffer holds a part of the packet, at the place the packet has it, and its data starts
that far behind the header. -/
structure CutFrom (packet skb : Skb) : Prop where
  hdrlen : skb.hdrlen = packet.hdrlen
  offset : packet.fragOffset ≤ skb.offset
  pulled : skb.pulled = packet.hdrlen + (skb.offset - packet.fragOffset)
  bytes : ∀ index byte, skb.data[index]? = some byte →
    packet.payload[skb.offset - packet.fragOffset + index]? = some byte

/-- The invariant of a queue that holds fragments. -/
structure Sound (received accepted : List Skb) (qp : Ipq) : Prop where
  packed : Packed Skb.offset Skb.len 0 qp.len qp.fragments
  meat : qp.meat = totalLen Skb.len qp.fragments
  origin : ∀ skb ∈ qp.fragments, ∃ packet ∈ accepted, CutFrom packet skb
  last : qp.lastIn = true → ∃ packet ∈ received, packet.moreFragments = false ∧
    packet.fragEnd = qp.len

variable {received accepted : List Skb} {qp : Ipq} {packet skb : Skb} {memory : Bool}

/-- A byte of a piece is the byte its packet has there. -/
theorem CutFrom.byteAt (h : CutFrom packet skb) {index : Nat} {byte : UInt8}
    (hget : skb.data[index]? = some byte) : packet.byteAt (skb.offset + index) = some byte := by
  have hoffset := h.offset
  rw [Skb.byteAt, if_pos (by omega),
    show skb.offset + index - packet.fragOffset = skb.offset - packet.fragOffset + index by omega]
  exact h.bytes index byte hget

theorem dropSum_fields (skb : Skb) : skb.dropSum.hdrlen = skb.hdrlen ∧
    skb.dropSum.data = skb.data ∧ skb.dropSum.pulled = skb.pulled ∧
    skb.dropSum.offset = skb.offset ∧ skb.dropSum.fragOff = skb.fragOff := by
  unfold Skb.dropSum
  split <;> exact ⟨rfl, rfl, rfl, rfl, rfl⟩

theorem dropSum_offset (skb : Skb) (offset : Nat) :
    { skb with offset := offset }.dropSum = { skb.dropSum with offset := offset } := by
  unfold Skb.dropSum
  split <;> rfl

/-- Dropping the checksum leaves the bytes. -/
theorem CutFrom.dropSum (h : CutFrom packet skb) : CutFrom packet skb.dropSum := by
  obtain ⟨hhdrlen, hdata, hpulled, hoffset, -⟩ := dropSum_fields skb
  exact ⟨hhdrlen.trans h.hdrlen, hoffset ▸ h.offset, by rw [hpulled, hoffset, h.pulled],
    by simpa only [hdata, hoffset] using h.bytes⟩

theorem pskbPull_eq_some {cut : Skb} {len : Nat} (h : pskbPull memory skb len = some cut) :
    len ≤ skb.len ∧
      cut = { skb with data := skb.data.drop len, pulled := skb.pulled + len } := by
  unfold pskbPull at h
  split_ifs at h with hlen hmemory
  exact ⟨Nat.le_of_not_lt hlen, (Option.some.inj h).symm⟩

/-- The place of a buffer has no part in a pull. -/
theorem pskbPull_offset {cut : Skb} {len : Nat} (offset : Nat)
    (h : pskbPull memory skb len = some cut) :
    pskbPull memory { skb with offset := offset } len = some { cut with offset := offset } := by
  obtain ⟨hlen, rfl⟩ := pskbPull_eq_some h
  unfold pskbPull at h ⊢
  split_ifs at h with hlong hmemory
  exact (if_neg hlong).trans (if_pos hmemory)

/-- A pull moves the start of the data. -/
theorem CutFrom.pull {cut : Skb} {len : Nat} (h : CutFrom packet skb)
    (hpull : pskbPull memory skb len = some cut) :
    CutFrom packet { cut with offset := skb.offset + len } := by
  obtain ⟨-, rfl⟩ := pskbPull_eq_some hpull
  have hoffset := h.offset
  have hpulled := h.pulled
  refine ⟨h.hdrlen, ?_, ?_, fun index byte hget => ?_⟩
  · show packet.fragOffset ≤ skb.offset + len
    omega
  · show skb.pulled + len = packet.hdrlen + (skb.offset + len - packet.fragOffset)
    omega
  · simp only [List.getElem?_drop] at hget
    show packet.payload[skb.offset + len - packet.fragOffset + index]? = some byte
    rw [show skb.offset + len - packet.fragOffset + index =
      skb.offset - packet.fragOffset + (len + index) by omega]
    exact h.bytes (len + index) byte hget

theorem pull_dropSum_place {cut : Skb} {len : Nat} (offset : Nat)
    (hpull : pskbPull memory skb len = some cut) :
    { cut with offset := offset }.dropSum.offset = offset ∧
      { cut with offset := offset }.dropSum.len = skb.len - len := by
  obtain ⟨-, rfl⟩ := pskbPull_eq_some hpull
  obtain ⟨-, hdata, -, hoffset, -⟩ := dropSum_fields
    { skb with data := skb.data.drop len, pulled := skb.pulled + len, offset := offset }
  exact ⟨hoffset, by rw [Skb.len, hdata, List.length_drop, Skb.len]⟩

/-- The walk cuts the list at the place of the fragment. -/
theorem findPlace_append (offset : Nat) (fragments : List Skb) :
    (findPlace offset fragments).1 ++ (findPlace offset fragments).2 = fragments := by
  induction fragments with
  | nil => rfl
  | cons next rest ih =>
    by_cases hplace : next.offset ≥ offset
    · rw [findPlace, if_pos hplace, List.nil_append]
    · rw [findPlace, if_neg hplace]
      exact congrArg (next :: ·) ih

/-- The loop over the fragments behind keeps them in order and `meat` in step; when it is done,
they start at the end of the new fragment or later. -/
theorem overlapLoop_spec {fragEnd lo hi : Nat} {after : List Skb} {meat : Int}
    (h : Packed Skb.offset Skb.len lo hi after) (hend : fragEnd ≤ hi)
    (horigin : ∀ skb ∈ after, ∃ packet ∈ accepted, CutFrom packet skb) :
    ∃ left meat' cut, overlapLoop memory fragEnd after meat = (left, meat', cut) ∧
      Packed Skb.offset Skb.len lo hi left ∧
      (cut = true → Packed Skb.offset Skb.len fragEnd hi left) ∧
      meat' + totalLen Skb.len after = meat + totalLen Skb.len left ∧
      ∀ skb ∈ left, ∃ packet ∈ accepted, CutFrom packet skb := by
  induction after generalizing lo meat with
  | nil => exact ⟨[], meat, true, rfl, h, fun _ => hend, rfl, horigin⟩
  | cons next rest ih =>
    obtain ⟨hlo, hpos, hrest⟩ := h
    have hrestOrigin : ∀ skb ∈ rest, ∃ packet ∈ accepted, CutFrom packet skb :=
      fun skb hmem => horigin skb (List.mem_cons_of_mem _ hmem)
    by_cases hoverlap : next.offset < fragEnd
    · by_cases hcut : fragEnd - next.offset < next.len
      · cases hpull : pskbPull memory next (fragEnd - next.offset) with
        | none =>
          refine ⟨next :: rest, meat, false, ?_, ⟨hlo, hpos, hrest⟩, nofun, rfl, horigin⟩
          simp only [overlapLoop, if_pos hoverlap, if_pos hcut, hpull]
        | some cut =>
          obtain ⟨packet, hmem, hpacket⟩ := horigin next List.mem_cons_self
          have hmoved := (hpacket.pull hpull).dropSum
          obtain ⟨hoffset, hlen⟩ := pull_dropSum_place fragEnd hpull
          rw [show next.offset + (fragEnd - next.offset) = fragEnd by omega] at hmoved
          have hnextEnd : next.offset + next.len ≤ hi := by
            have := hrest.total_le
            omega
          generalize hpiece : { cut with offset := fragEnd }.dropSum = piece at *
          have hcutOffset : cut.offset + (fragEnd - next.offset) = fragEnd := by
            rw [(pskbPull_eq_some hpull).2]
            show next.offset + (fragEnd - next.offset) = fragEnd
            omega
          have hpacked : Packed Skb.offset Skb.len fragEnd hi (piece :: rest) := by
            refine ⟨Nat.le_of_eq hoffset.symm, by omega, ?_⟩
            rw [show piece.offset + piece.len = next.offset + next.len by omega]
            exact hrest
          refine ⟨piece :: rest, meat - (fragEnd - next.offset : Nat), true, ?_,
            hpacked.mono (by omega) le_rfl, fun _ => hpacked, ?_, ?_⟩
          · simp only [overlapLoop, if_pos hoverlap, if_pos hcut, hpull, hcutOffset, hpiece]
          · simp only [totalLen_cons]
            omega
          · intro skb hskb
            rcases List.mem_cons.mp hskb with rfl | hskb
            · exact ⟨packet, hmem, hmoved⟩
            · exact hrestOrigin skb hskb
      · obtain ⟨left, meat', cut, hloop, hleft, hdone, hmeat, horigin'⟩ :=
          @ih _ (meat - next.len) hrest hrestOrigin
        refine ⟨left, meat', cut, ?_, hleft.mono (by omega) le_rfl, hdone, ?_, horigin'⟩
        · simp only [overlapLoop, if_pos hoverlap, if_neg hcut, hloop]
        · rw [totalLen_cons]
          omega
    · refine ⟨next :: rest, meat, true, ?_, ⟨hlo, hpos, hrest⟩, fun _ => ?_, rfl, horigin⟩
      · simp only [overlapLoop, if_neg hoverlap]
      · exact ⟨Nat.le_of_not_lt hoverlap, hpos, hrest⟩

variable {received accepted : List Skb} {qp : Ipq} {packet skb : Skb} {fragEnd : Nat}
  {call : Call}

/-- The fields of a buffer that its place in the queue depends on are those of the packet. -/
structure SameBytes (packet skb : Skb) : Prop where
  fragOff : skb.fragOff = packet.fragOff
  hdrlen : skb.hdrlen = packet.hdrlen
  data : skb.data = packet.data
  pulled : skb.pulled = packet.pulled

/-- More packets may have been received. -/
theorem Sound.receive (h : Sound received accepted qp) (packet : Skb) :
    Sound (packet :: received) accepted qp where
  packed := h.packed
  meat := h.meat
  origin := h.origin
  last hlast := by
    obtain ⟨final, hmem, hfinal⟩ := h.last hlast
    exact ⟨final, List.mem_cons_of_mem _ hmem, hfinal⟩

/-- The position of a fragment: the queue reaches to the end of it, and stays sound. -/
theorem ipFragPosition_spec (h : Sound received accepted qp) (packet : Skb)
    (hhdrlen : packet.hdrlen ≤ packet.len) :
    ∃ after position, ipFragPosition qp packet = (after, position) ∧
      Sound (packet :: received) accepted after ∧
      after.complete = qp.complete ∧
      ∀ skb fragEnd, position = some (skb, fragEnd) → fragEnd ≤ after.len ∧
        fragEnd ≤ packet.fragEnd ∧ packet.fragOffset ≤ fragEnd ∧ SameBytes packet skb := by
  have hsame : SameBytes packet packet := ⟨rfl, rfl, rfl, rfl⟩
  have hdrop : SameBytes packet packet.dropSum := by
    obtain ⟨hhdrlen, hdata, hpulled, -, hfragOff⟩ := dropSum_fields packet
    exact ⟨hfragOff, hhdrlen, hdata, hpulled⟩
  have hle : packet.fragOffset ≤ packet.fragEnd := by
    simp only [Skb.fragEnd]
    omega
  cases hmore : packet.moreFragments with
  | false =>
    by_cases hrefuse : (packet.fragEnd < qp.len || (qp.lastIn && packet.fragEnd ≠ qp.len)) = true
    · refine ⟨qp, none, ?_, h.receive packet, rfl, nofun⟩
      simp only [ipFragPosition, hmore, Bool.not_false, if_true, if_pos hrefuse]
    have hlen : qp.len ≤ packet.fragEnd := by
      simp only [Bool.or_eq_true, decide_eq_true_eq, not_or] at hrefuse
      omega
    refine ⟨{ qp with lastIn := true, len := packet.fragEnd }, some (packet, packet.fragEnd),
      ?_, ⟨h.packed.mono le_rfl hlen, h.meat, h.origin, fun _ =>
        ⟨packet, List.mem_cons_self, hmore, rfl⟩⟩, rfl, fun skb fragEnd heq => ?_⟩
    · simp only [ipFragPosition, hmore, Bool.not_false, if_true, if_neg hrefuse]
    · obtain ⟨rfl, rfl⟩ := Prod.mk.inj (Option.some.inj heq)
      exact ⟨le_rfl, le_rfl, hle, hsame⟩
  | true =>
    have hround : packet.fragEnd / 8 * 8 ≤ packet.fragEnd ∧
        packet.fragOffset ≤ packet.fragEnd / 8 * 8 := by
      have hmultiple : packet.fragOffset = packet.fragOff % 2 ^ 13 * 8 := rfl
      omega
    have hskb : SameBytes packet
        (if packet.fragEnd % 8 ≠ 0 then packet.dropSum else packet) := by
      split_ifs
      · exact hdrop
      · exact hsame
    generalize hsum : (if packet.fragEnd % 8 ≠ 0 then packet.dropSum else packet) = cut at hskb
    by_cases hgrow : packet.fragEnd / 8 * 8 > qp.len
    · cases hlast : qp.lastIn with
      | true =>
        refine ⟨qp, none, ?_, h.receive packet, rfl, nofun⟩
        simp only [ipFragPosition, hmore, Bool.not_true, Bool.false_eq_true, if_false,
          if_pos hgrow, hlast, if_true]
      | false =>
        refine ⟨{ qp with len := packet.fragEnd / 8 * 8 }, some (cut, packet.fragEnd / 8 * 8),
          ?_, ⟨h.packed.mono le_rfl (Nat.le_of_lt hgrow), h.meat, h.origin, fun hset => ?_⟩,
          rfl, fun skb fragEnd heq => ?_⟩
        · simp only [ipFragPosition, hmore, Bool.not_true, Bool.false_eq_true, if_false,
            if_pos hgrow, hlast, hsum]
        · exact absurd (hlast.symm.trans hset) (by simp)
        · obtain ⟨rfl, rfl⟩ := Prod.mk.inj (Option.some.inj heq)
          exact ⟨le_rfl, hround.1, hround.2, hskb⟩
    · refine ⟨qp, some (cut, packet.fragEnd / 8 * 8), ?_, h.receive packet, rfl,
        fun skb fragEnd heq => ?_⟩
      · simp only [ipFragPosition, hmore, Bool.not_true, Bool.false_eq_true, if_false,
          if_neg hgrow, hsum]
      · obtain ⟨rfl, rfl⟩ := Prod.mk.inj (Option.some.inj heq)
        exact ⟨Nat.le_of_not_lt hgrow, hround.1, hround.2, hskb⟩

/-- What is left of a fragment behind the one in front of it: a non-empty part up to its end. -/
theorem trimHead_spec {memory : Bool} {before : List Skb} {offset lo : Nat} (hlo : lo ≤ offset)
    (hlen : skb.len = fragEnd - offset) (hlt : offset < fragEnd)
    (hcut : CutFrom packet { skb with offset := offset }) {left : Skb} {start : Nat}
    (htrim : trimHead memory before.getLast? skb offset fragEnd = .ok (left, start)) :
    lastEnd Skb.offset Skb.len lo before ≤ start ∧ start < fragEnd ∧
      left.len = fragEnd - start ∧ CutFrom packet { left with offset := start } := by
  cases hprev : before.getLast? with
  | none =>
    simp only [trimHead, hprev, Except.ok.injEq, Prod.mk.injEq] at htrim
    obtain ⟨rfl, rfl⟩ := htrim
    exact ⟨by simpa only [lastEnd, hprev] using hlo, hlt, hlen, hcut⟩
  | some prev =>
    simp only [trimHead, hprev] at htrim
    by_cases hoverlap : prev.offset + prev.len - offset > 0
    · rw [if_pos hoverlap] at htrim
      by_cases hempty : fragEnd ≤ offset + (prev.offset + prev.len - offset)
      · rw [if_pos hempty] at htrim
        cases htrim
      rw [if_neg hempty] at htrim
      cases hpull : pskbPull memory skb (prev.offset + prev.len - offset) with
      | none =>
        rw [hpull] at htrim
        cases htrim
      | some cut =>
        simp only [hpull, Except.ok.injEq, Prod.mk.injEq] at htrim
        obtain ⟨rfl, rfl⟩ := htrim
        obtain ⟨-, hdata, -⟩ := dropSum_fields cut
        have hcutLen : cut.dropSum.len = skb.len - (prev.offset + prev.len - offset) := by
          rw [Skb.len, hdata, (pskbPull_eq_some hpull).2]
          exact List.length_drop
        refine ⟨?_, by omega, by omega, ?_⟩
        · simp only [lastEnd, hprev]
          omega
        · exact dropSum_offset cut _ ▸ (hcut.pull (pskbPull_offset offset hpull)).dropSum
    · rw [if_neg hoverlap] at htrim
      simp only [Except.ok.injEq, Prod.mk.injEq] at htrim
      obtain ⟨rfl, rfl⟩ := htrim
      refine ⟨?_, hlt, hlen, hcut⟩
      simp only [lastEnd, hprev]
      omega

/-- The insertion of a fragment of which nothing but its place is still to be found. -/
theorem ipFragInsert_spec (h : Sound received accepted qp) (hend : fragEnd ≤ qp.len)
    (hlt : skb.fragOffset < fragEnd) (hlen : skb.len = fragEnd - skb.fragOffset)
    (hcut : CutFrom packet { skb with offset := skb.fragOffset }) :
    ∃ after result, ipFragInsert call qp skb fragEnd = (after, result) ∧
      after.complete = qp.complete ∧
      ((∃ err, result = .error err) ∧ Sound received accepted after ∨
        (∃ prev, result = .ok prev) ∧ Sound received (packet :: accepted) after) := by
  have hplace := findPlace_append skb.fragOffset qp.fragments
  generalize hfind : findPlace skb.fragOffset qp.fragments = place at hplace
  obtain ⟨before, after⟩ := place
  have hpacked := h.packed
  have hmeat := h.meat
  have horigin := h.origin
  rw [← show before ++ after = qp.fragments from hplace] at hpacked hmeat horigin
  obtain ⟨hbefore, hafter⟩ := packed_append.mp hpacked
  rw [totalLen_append] at hmeat
  cases htrim : trimHead call.pullHead before.getLast? skb skb.fragOffset fragEnd with
  | error err =>
    refine ⟨qp, .error err, ?_, rfl, .inl ⟨⟨err, rfl⟩, h⟩⟩
    simp only [ipFragInsert, hfind, htrim]
  | ok trimmed =>
    obtain ⟨left, start⟩ := trimmed
    obtain ⟨hstart, hstartLt, hleftLen, hleft⟩ :=
      trimHead_spec (Nat.zero_le _) hlen hlt hcut htrim
    obtain ⟨rest, meat, done, hloop, hrest, hrestEnd, htotal, hrestOrigin⟩ :=
      @overlapLoop_spec accepted call.pullNext fragEnd _ _ after qp.meat hafter hend
        fun skb hmem => horigin skb (List.mem_append_right _ hmem)
    have hbeforeOrigin : ∀ skb ∈ before, ∃ packet ∈ accepted, CutFrom packet skb :=
      fun skb hmem => horigin skb (List.mem_append_left _ hmem)
    cases done with
    | false =>
      refine ⟨{ qp with fragments := before ++ rest, meat := meat }, .error .enomem, ?_, rfl,
        .inl ⟨⟨_, rfl⟩, packed_append.mpr ⟨hbefore, hrest⟩, ?_, fun skb hmem => ?_, h.last⟩⟩
      · simp only [ipFragInsert, hfind, htrim, hloop, Bool.not_false, if_true]
      · simp only [totalLen_append]
        omega
      · rcases List.mem_append.mp hmem with hmem | hmem
        · exact hbeforeOrigin skb hmem
        · exact hrestOrigin skb hmem
    | true =>
      refine ⟨Ipq.link { qp with fragments := before ++ rest, meat := meat } before rest left
        start, .ok before.getLast?, ?_, rfl, .inr ⟨⟨_, rfl⟩, packed_append.mpr ⟨hbefore, ?_⟩,
          ?_, fun skb hmem => ?_, h.last⟩⟩
      · simp only [ipFragInsert, hfind, htrim, hloop, Bool.not_true, Bool.false_eq_true,
          if_false]
      · -- the new piece ends where the fragments behind may start
        have hpiece : start + left.len = fragEnd := by omega
        have hpos : 0 < left.len := by omega
        exact ⟨hstart, hpos, hpiece ▸ hrestEnd rfl⟩
      · show meat + (left.len : Int) = _
        have hlink : totalLen Skb.len
            (before ++ { left with offset := start, dev := none } :: rest) =
              totalLen Skb.len before + (left.len + totalLen Skb.len rest) := by
          rw [totalLen_append, totalLen_cons]
          rfl
        simp only [Ipq.link, hlink]
        omega
      rcases List.mem_append.mp hmem with hmem | hmem
      · obtain ⟨packet, hpacket, hskb⟩ := hbeforeOrigin skb hmem
        exact ⟨packet, List.mem_cons_of_mem _ hpacket, hskb⟩
      · rcases List.mem_cons.mp hmem with rfl | hmem
        · exact ⟨packet, List.mem_cons_self, hleft.hdrlen, hleft.offset, hleft.pulled,
            hleft.bytes⟩
        · obtain ⟨packet, hpacket, hskb⟩ := hrestOrigin skb hmem
          exact ⟨packet, List.mem_cons_of_mem _ hpacket, hskb⟩

theorem pskbTrimRcsum_spec {memory : Bool} {len : Nat} {cut : Skb}
    (h : pskbTrimRcsum memory skb len = some cut) :
    cut.data = skb.data.take len ∧ cut.fragOff = skb.fragOff ∧ cut.hdrlen = skb.hdrlen ∧
      cut.pulled = skb.pulled := by
  unfold pskbTrimRcsum at h
  by_cases hlen : len ≥ skb.len
  · rw [if_pos hlen] at h
    obtain rfl := Option.some.inj h
    exact ⟨(List.take_of_length_le hlen).symm, rfl, rfl, rfl⟩
  · rw [if_neg hlen] at h
    split_ifs at h <;> cases h <;> exact ⟨rfl, rfl, rfl, rfl⟩

/-- A packet without its header, cut at the end of the fragment, is a piece of it. -/
theorem cutFrom_packet {memory memory' : Bool} {pulled cut : Skb} (hsame : SameBytes packet skb)
    (hstart : packet.pulled = 0) (hle : fragEnd ≤ packet.fragEnd)
    (hpull : pskbPull memory skb skb.hdrlen = some pulled)
    (htrim : pskbTrimRcsum memory' pulled (fragEnd - packet.fragOffset) = some cut) :
    cut.fragOffset = packet.fragOffset ∧ cut.len = fragEnd - packet.fragOffset ∧
      CutFrom packet { cut with offset := cut.fragOffset } := by
  obtain ⟨-, rfl⟩ := pskbPull_eq_some hpull
  obtain ⟨hdata, hfragOff, hhdrlen, hpulled⟩ := pskbTrimRcsum_spec htrim
  have hpayload : cut.data = packet.payload.take (fragEnd - packet.fragOffset) := by
    rw [hdata, Skb.payload, ← hsame.data, ← hsame.hdrlen]
  have hoffset : cut.fragOffset = packet.fragOffset := by
    simp only [Skb.fragOffset, hfragOff, hsame.fragOff]
  refine ⟨hoffset, ?_, hhdrlen.trans hsame.hdrlen, Nat.le_of_eq hoffset.symm, ?_,
    fun index byte hget => ?_⟩
  · have hlen : packet.payload.length = packet.len - packet.hdrlen := List.length_drop
    simp only [Skb.fragEnd] at hle
    rw [Skb.len, hpayload, List.length_take, hlen]
    omega
  · show cut.pulled = packet.hdrlen + (cut.fragOffset - packet.fragOffset)
    rw [hpulled, hoffset, Nat.sub_self, Nat.add_zero]
    show skb.pulled + skb.hdrlen = packet.hdrlen
    rw [hsame.pulled, hstart, hsame.hdrlen, Nat.zero_add]
  · show packet.payload[cut.fragOffset - packet.fragOffset + index]? = some byte
    simp only [hpayload, List.getElem?_take] at hget
    rw [hoffset, Nat.sub_self, Nat.zero_add]
    split_ifs at hget
    exact hget

/-- The call starts the queue afresh. -/
def Call.reinits (call : Call) (qp : Ipq) : Bool :=
  !qp.complete && !call.skb.fragComplete && (ipFragTooFar call qp).2 && call.timerActive

/-- The packets of a queue that count once the call has started. -/
def Call.kept (call : Call) (qp : Ipq) (packets : List Skb) : List Skb :=
  if call.reinits qp then [] else packets

theorem ipFragTooFar_spec (h : Sound received accepted qp) (call : Call) :
    ∃ after tooFar, ipFragTooFar call qp = (after, tooFar) ∧ Sound received accepted after ∧
      after.complete = qp.complete := by
  unfold ipFragTooFar
  cases call.peerRid with
  | none => exact ⟨qp, false, rfl, h, rfl⟩
  | some rid =>
    by_cases hmax : call.maxDist = 0
    · exact ⟨qp, false, if_pos hmax, h, rfl⟩
    · exact ⟨_, _, if_neg hmax, ⟨h.packed, h.meat, h.origin, h.last⟩, rfl⟩

/-- The start of the call leaves a sound queue, of the packets that are kept. -/
theorem ipFragAdmit_spec (h : Sound received accepted qp) (call : Call) :
    ∃ after err, ipFragAdmit call qp = (after, err) ∧
      Sound (call.kept qp received) (call.kept qp accepted) after := by
  obtain ⟨near, tooFar, hnear, hsound, hcomplete⟩ := ipFragTooFar_spec h call
  unfold ipFragAdmit
  by_cases hdone : qp.complete = true
  · have hkept : call.reinits qp = false := by simp [Call.reinits, hdone]
    simp only [if_pos hdone, Call.kept, hkept, Bool.false_eq_true, if_false]
    exact ⟨_, _, rfl, h⟩
  rw [if_neg hdone]
  by_cases hwhole : call.skb.fragComplete = true
  · have hkept : call.reinits qp = false := by simp [Call.reinits, hwhole]
    simp only [if_pos hwhole, Call.kept, hkept, Bool.false_eq_true, if_false]
    exact ⟨_, _, rfl, h⟩
  simp only [if_neg hwhole, hnear]
  cases tooFar with
  | false =>
    have hkept : call.reinits qp = false := by simp [Call.reinits, hnear]
    simp only [Call.kept, hkept, Bool.false_eq_true, if_false]
    exact ⟨_, _, rfl, hsound⟩
  | true =>
    cases htimer : call.timerActive with
    | false =>
      have hkept : call.reinits qp = false := by simp [Call.reinits, htimer]
      simp only [Call.kept, hkept, ipFragReinit, htimer, Bool.false_eq_true, if_false, if_true]
      exact ⟨_, _, rfl, hsound.packed, hsound.meat, hsound.origin, hsound.last⟩
    | true =>
      have hkept : call.reinits qp = true := by
        simp [Call.reinits, hnear, htimer, hdone, hwhole]
      simp only [Call.kept, hkept, ipFragReinit, htimer, if_true]
      exact ⟨_, _, rfl, Nat.zero_le _, rfl, by simp, nofun⟩

/-- The call up to the test for a complete datagram: the fragment is accepted or refused. -/
theorem ipFragAdd_spec (h : Sound received accepted qp) (call : Call) :
    ∃ after result, ipFragAdd call qp = (after, result) ∧
      ((∃ err, result = .error err) ∧
          Sound (call.skb :: call.kept qp received) (call.kept qp accepted) after ∨
        (∃ prev, result = .ok prev) ∧
          Sound (call.skb :: call.kept qp received) (call.skb :: call.kept qp accepted) after) := by
  obtain ⟨admitted, err, hadmit, hsound⟩ := ipFragAdmit_spec h call
  cases err with
  | some err =>
    refine ⟨admitted, .error err, ?_, .inl ⟨⟨err, rfl⟩, hsound.receive _⟩⟩
    simp only [ipFragAdd, hadmit]
  | none =>
    obtain ⟨placed, position, hposition, hplaced, -, hspec⟩ :=
      ipFragPosition_spec hsound call.skb call.hdrlen_le
    cases position with
    | none =>
      refine ⟨placed, .error .einval, ?_, .inl ⟨⟨_, rfl⟩, hplaced⟩⟩
      simp only [ipFragAdd, hadmit, hposition]
    | some position =>
      obtain ⟨skb, fragEnd⟩ := position
      obtain ⟨hlen, hle, hstart, hsame⟩ := hspec skb fragEnd rfl
      have hoffset : skb.fragOffset = call.skb.fragOffset := by
        simp only [Skb.fragOffset, hsame.fragOff]
      by_cases hempty : fragEnd = skb.fragOffset
      · refine ⟨placed, .error .einval, ?_, .inl ⟨⟨_, rfl⟩, hplaced⟩⟩
        simp only [ipFragAdd, hadmit, hposition, if_pos hempty]
      cases hpull : pskbPull call.pullHeader skb skb.hdrlen with
      | none =>
        refine ⟨placed, .error .enomem, ?_, .inl ⟨⟨_, rfl⟩, hplaced⟩⟩
        simp only [ipFragAdd, hadmit, hposition, if_neg hempty, hpull]
      | some pulled =>
        have hpulledOffset : pulled.fragOffset = call.skb.fragOffset := by
          rw [(pskbPull_eq_some hpull).2, ← hoffset]
          rfl
        cases htrim : pskbTrimRcsum call.trim pulled (fragEnd - pulled.fragOffset) with
        | none =>
          refine ⟨placed, .error .enomem, ?_, .inl ⟨⟨_, rfl⟩, hplaced⟩⟩
          simp only [ipFragAdd, hadmit, hposition, if_neg hempty, hpull, htrim]
        | some cut =>
          rw [hpulledOffset] at htrim
          obtain ⟨hcutOffset, hcutLen, hcut⟩ :=
            cutFrom_packet hsame call.unpulled hle hpull htrim
          obtain ⟨after, result, hinsert, -, hresult⟩ :=
            @ipFragInsert_spec _ _ placed call.skb cut fragEnd call hplaced hlen
              (by omega) (by omega) hcut
          refine ⟨after, result, ?_, hresult⟩
          simp only [ipFragAdd, hadmit, hposition, if_neg hempty, hpull, hpulledOffset,
            htrim, hinsert]

end AndroidKernel.IpFrag
