import Mathlib.Tactic.Common
import Mathlib.Algebra.GroupWithZero.Nat

/-!
# Reassembly of IPv4 datagrams

`net/ipv4/ip_fragment.c`: the queue of one incomplete datagram, `ip_frag_queue`, which adds a
fragment to it, and `ip_frag_reasm`, which makes one datagram of the fragments.

A buffer is the list of its bytes, wherever they are stored; `pulled` is the distance from the
network header to its data. A `Call` carries a fragment with the answers of the allocator, the
timer and the peer's counter to the call. Lengths are at most those of IP packets, so integers
do not overflow. The accounting of memory, the LRU lists and the statistics are left out.
-/

namespace AndroidKernel.IpFrag

/-- The `CHECKSUM_` states of `ip_summed`. -/
inductive IpSummed where
  | checksumNone
  | checksumUnnecessary
  | checksumComplete
  | checksumPartial
  deriving DecidableEq

/-- The errors returned here. -/
inductive Errno where
  | enoent
  | einval
  | enomem
  | etimedout
  | e2big
  deriving DecidableEq

/-- The fields of a `sk_buff` and of its IP header that are read here; `offset` is
`FRAG_CB(skb)->offset`, `fragComplete` the flag `IPSKB_FRAG_COMPLETE`, and `fragList` tells
whether the buffer has a list of further buffers. -/
structure Skb where
  fragOff : Nat
  hdrlen : Nat
  data : List UInt8
  pulled : Nat
  offset : Nat
  fragComplete : Bool
  fragList : Bool
  ipSummed : IpSummed
  csum : Nat
  dev : Option Nat
  tstamp : Nat

/-- `skb->len`. -/
def Skb.len (skb : Skb) : Nat := skb.data.length

/-- `IP_MF` in the fragment field. -/
def Skb.moreFragments (skb : Skb) : Bool := skb.fragOff.testBit 13

/-- `(frag_off & IP_OFFSET) << 3`. -/
def Skb.fragOffset (skb : Skb) : Nat := skb.fragOff % 2 ^ 13 * 8

/-- The end of the fragment as its header gives it. -/
def Skb.fragEnd (skb : Skb) : Nat := skb.fragOffset + skb.len - skb.hdrlen

/-- `struct ipq`, with the flags of `last_in` apart. -/
structure Ipq where
  fragments : List Skb
  len : Nat
  meat : Int
  firstIn : Bool
  lastIn : Bool
  complete : Bool
  stamp : Nat
  iif : Nat
  rid : Nat

/-- A new queue. -/
def Ipq.new : Ipq where
  fragments := []
  len := 0
  meat := 0
  firstIn := false
  lastIn := false
  complete := false
  stamp := 0
  iif := 0
  rid := 0

/-- A fragment handed to `ip_frag_queue`, and what the rest of the kernel answers meanwhile:
the counter of the peer after its increment, whether the timer was active, and whether each
operation on buffers gets its memory. `ip_rcv` has checked the length of the header. -/
structure Call where
  skb : Skb
  hdrlen_le : skb.hdrlen ≤ skb.len
  unpulled : skb.pulled = 0
  peerRid : Option Nat
  maxDist : Nat
  timerActive : Bool
  pullHeader : Bool
  trim : Bool
  pullHead : Bool
  pullNext : Bool
  clone : Bool
  expandHead : Bool
  alloc : Bool

/-- `pskb_pull`. -/
def pskbPull (memory : Bool) (skb : Skb) (len : Nat) : Option Skb :=
  if len > skb.len then none
  else if memory then
    some { skb with data := skb.data.drop len, pulled := skb.pulled + len }
  else none

/-- `pskb_trim_rcsum`. -/
def pskbTrimRcsum (memory : Bool) (skb : Skb) (len : Nat) : Option Skb :=
  if len ≥ skb.len then some skb
  else
    let skb :=
      if skb.ipSummed = .checksumComplete then { skb with ipSummed := .checksumNone } else skb
    if memory then some { skb with data := skb.data.take len } else none

/-- `if (skb->ip_summed != CHECKSUM_UNNECESSARY) skb->ip_summed = CHECKSUM_NONE`. -/
def Skb.dropSum (skb : Skb) : Skb :=
  if skb.ipSummed ≠ .checksumUnnecessary then { skb with ipSummed := .checksumNone } else skb

/-- `csum_add`. -/
def csumAdd (csum addend : Nat) : Nat :=
  let res := (csum + addend) % 2 ^ 32
  (res + if res < addend then 1 else 0) % 2 ^ 32

/-- `ipq_kill`. -/
def Ipq.kill (qp : Ipq) : Ipq := { qp with complete := true }

/-- `ip_frag_too_far`. -/
def ipFragTooFar (call : Call) (qp : Ipq) : Ipq × Bool :=
  match call.peerRid with
  | none => (qp, false)
  | some rid =>
    if call.maxDist = 0 then (qp, false)
    else
      ({ qp with rid := rid }, !qp.fragments.isEmpty &&
        (rid + (2 ^ 32 - qp.rid)) % 2 ^ 32 > call.maxDist)

/-- `ip_frag_reinit`. -/
def ipFragReinit (call : Call) (qp : Ipq) : Ipq × Option Errno :=
  if call.timerActive then
    ({ qp with
      fragments := [], len := 0, meat := 0, firstIn := false, lastIn := false, complete := false
      iif := 0 }, none)
  else (qp, some .etimedout)

/-- The start of `ip_frag_queue`: refuse a finished queue, start afresh when the fragment is too
far from those held. -/
def ipFragAdmit (call : Call) (qp : Ipq) : Ipq × Option Errno :=
  if qp.complete then (qp, some .enoent)
  else if call.skb.fragComplete then (qp, none)
  else
    let (qp, tooFar) := ipFragTooFar call qp
    if tooFar then
      let (qp, err) := ipFragReinit call qp
      match err with
      | some err => (qp.kill, some err)
      | none => (qp, none)
    else (qp, none)

/-- The position of a fragment: its end, with `q.len` and the mark of the last fragment brought
up to date. A fragment that is not the last ends at a multiple of eight. -/
def ipFragPosition (qp : Ipq) (skb : Skb) : Ipq × Option (Skb × Nat) :=
  let fragEnd := skb.fragEnd
  if !skb.moreFragments then
    if fragEnd < qp.len || (qp.lastIn && fragEnd ≠ qp.len) then (qp, none)
    else ({ qp with lastIn := true, len := fragEnd }, some (skb, fragEnd))
  else
    let skb := if fragEnd % 8 ≠ 0 then skb.dropSum else skb
    let fragEnd := fragEnd / 8 * 8
    if fragEnd > qp.len then
      if qp.lastIn then (qp, none) else ({ qp with len := fragEnd }, some (skb, fragEnd))
    else (qp, some (skb, fragEnd))

/-- The walk to the place of a fragment: the fragments in front of it and those behind. -/
def findPlace (offset : Nat) : List Skb → List Skb × List Skb
  | [] => ([], [])
  | next :: rest =>
    if next.offset ≥ offset then ([], next :: rest)
    else
      let (before, after) := findPlace offset rest
      (next :: before, after)

/-- The loop over the fragments behind: drop those that are overridden and cut the head of the
first that is not. The flag is false when the cut gets no memory. -/
def overlapLoop (memory : Bool) (fragEnd : Nat) : List Skb → Int → List Skb × Int × Bool
  | [], meat => ([], meat, true)
  | next :: rest, meat =>
    if next.offset < fragEnd then
      let i := fragEnd - next.offset
      if i < next.len then
        match pskbPull memory next i with
        | none => (next :: rest, meat, false)
        | some cut => ({ cut with offset := cut.offset + i }.dropSum :: rest, meat - i, true)
      else overlapLoop memory fragEnd rest (meat - next.len)
    else (next :: rest, meat, true)

/-- Cut from a fragment what the one in front of it covers. -/
def trimHead (memory : Bool) (prev : Option Skb) (skb : Skb) (offset fragEnd : Nat) :
    Except Errno (Skb × Nat) :=
  match prev with
  | none => .ok (skb, offset)
  | some prev =>
    let i := prev.offset + prev.len - offset
    if i > 0 then
      if fragEnd ≤ offset + i then .error .einval
      else
        match pskbPull memory skb i with
        | none => .error .enomem
        | some skb => .ok (skb.dropSum, offset + i)
    else .ok (skb, offset)

/-- Link a fragment in between the two parts of the list. -/
def Ipq.link (qp : Ipq) (before after : List Skb) (skb : Skb) (offset : Nat) : Ipq :=
  { qp with
    fragments := before ++ { skb with offset := offset, dev := none } :: after
    iif := skb.dev.getD qp.iif
    stamp := skb.tstamp
    meat := qp.meat + skb.len
    firstIn := qp.firstIn || offset == 0 }

/-- The insertion of a fragment whose data has been pulled and trimmed; it returns the fragment
in front. -/
def ipFragInsert (call : Call) (qp : Ipq) (skb : Skb) (fragEnd : Nat) :
    Ipq × Except Errno (Option Skb) :=
  let (before, after) := findPlace skb.fragOffset qp.fragments
  let prev := before.getLast?
  match trimHead call.pullHead prev skb skb.fragOffset fragEnd with
  | .error err => (qp, .error err)
  | .ok (skb, offset) =>
    let (after, meat, cut) := overlapLoop call.pullNext fragEnd after qp.meat
    let qp := { qp with fragments := before ++ after, meat := meat }
    if !cut then (qp, .error .enomem)
    else (qp.link before after skb offset, .ok prev)

/-- `ip_frag_queue` up to the test for a complete datagram. -/
def ipFragAdd (call : Call) (qp : Ipq) : Ipq × Except Errno (Option Skb) :=
  let (qp, err) := ipFragAdmit call qp
  match err with
  | some err => (qp, .error err)
  | none =>
    let (qp, position) := ipFragPosition qp call.skb
    match position with
    | none => (qp, .error .einval)
    | some (skb, fragEnd) =>
      if fragEnd = skb.fragOffset then (qp, .error .einval)
      else
        match pskbPull call.pullHeader skb skb.hdrlen with
        | none => (qp, .error .enomem)
        | some skb =>
          match pskbTrimRcsum call.trim skb (fragEnd - skb.fragOffset) with
          | none => (qp, .error .enomem)
          | some skb => ipFragInsert call qp skb fragEnd

/-- The test for a complete datagram. -/
def Ipq.ready (qp : Ipq) : Bool :=
  qp.firstIn && qp.lastIn && !qp.complete && qp.meat == qp.len

/-- The datagram made of the fragments; `len` is `skb->len`, counted from the network header. -/
structure Datagram where
  hdrlen : Nat
  payload : List UInt8
  len : Nat
  fragOff : Nat
  totLen : Nat
  ipSummed : IpSummed
  csum : Nat
  dev : Option Nat
  tstamp : Nat

/-- One round of the loop that sums up the fragments behind the head: the length and checksum so
far. -/
def glue (sum : Nat × IpSummed × Nat) (fp : Skb) : Nat × IpSummed × Nat :=
  let (len, ipSummed, csum) := sum
  if ipSummed ≠ fp.ipSummed then (len + fp.len, .checksumNone, csum)
  else if ipSummed = .checksumComplete then (len + fp.len, ipSummed, csumAdd csum fp.csum)
  else (len + fp.len, ipSummed, csum)

/-- `ip_frag_reasm`. The fragment just received becomes the head of the list and a clone of it
takes its place, which leaves the list of contents as it is; so does the split of a head that
has a list of its own. -/
def ipFragReasm (call : Call) (qp : Ipq) (prev : Option Skb) : Ipq × Except Errno Datagram :=
  let qp := qp.kill
  if prev.isSome && !call.clone then (qp, .error .enomem)
  else
    match qp.fragments with
    | [] => (qp, .error .enomem)
    | head :: rest =>
      let len := head.hdrlen + qp.len
      if len > 65535 then (qp, .error .e2big)
      else if !call.expandHead then (qp, .error .enomem)
      else if head.fragList && !call.alloc then (qp, .error .enomem)
      else
        let (total, ipSummed, csum) :=
          rest.foldl glue (head.pulled + head.len, head.ipSummed, head.csum)
        ({ qp with fragments := [] }, .ok {
          hdrlen := head.hdrlen
          payload := (head :: rest).flatMap Skb.data
          len := total
          fragOff := 0
          totLen := len
          ipSummed := ipSummed
          csum := csum
          dev := call.skb.dev
          tstamp := qp.stamp })

/-- The results of `ip_frag_queue`: an error, `-EINPROGRESS`, or 0 with the datagram. -/
inductive Result where
  | error (err : Errno)
  | inProgress
  | complete (datagram : Datagram)

/-- `ip_frag_queue`. -/
def ipFragQueue (call : Call) (qp : Ipq) : Ipq × Result :=
  match ipFragAdd call qp with
  | (qp, .error err) => (qp, .error err)
  | (qp, .ok prev) =>
    if qp.ready then
      match ipFragReasm call qp prev with
      | (qp, .error err) => (qp, .error err)
      | (qp, .ok datagram) => (qp, .complete datagram)
    else (qp, .inProgress)

end AndroidKernel.IpFrag
